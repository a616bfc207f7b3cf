import UbDkms.Decoder.Run

/-!
# Looking up a page

`lookup` reads the table as the hardware does: the range entry of the slot when
the page lies in its range, else the page entry. `Exact` compares what it finds
with the live map calls, together with the books of the descriptors. Page
entries keep the UB address of a call to 4 KiB; a range entry drops its bits 19
to 12 (`RANGE_UBA_LOW_MASK` starts at bit 20).
-/

namespace UbDkms.Decoder

open Lib

structure Attrs where
  ubAddr : Nat
  tpgNum : Nat
  dstEidLow : Nat
  dstEidHigh : Nat
  tokenId : Nat
  tokenValue : Nat
  upi : Nat
  srcEid : Nat
  deriving DecidableEq

def PageEntry.attrs (e : PageEntry) : Attrs :=
  ⟨e.ubAddr * 2 ^ 12, e.tpgNum, e.dstEidLow, e.dstEidHigh, e.tokenId, e.tokenValue, e.upi, e.srcEid⟩

def InRange (d : UbDecoder) (P : Nat) : Prop :=
  d.get (P / 32768) rgEntryType = EntryType.rangeTable.code ∧
    d.get (P / 32768) rgMemBase ≤ P % 32768 ∧ P % 32768 ≤ d.get (P / 32768) rgMemLimit

instance (d : UbDecoder) (P : Nat) : Decidable (InRange d P) := inferInstanceAs (Decidable (_ ∧ _ ∧ _))

def rangeAttrs (d : UbDecoder) (k i : Nat) : Attrs where
  ubAddr := (d.get k rgUbAddr * 2 ^ 12 + (i - d.get k rgMemBase) * sz1M) % 2 ^ 64
  tpgNum := d.get k rgTpgNum
  dstEidLow := d.get k rgDstEidLow
  dstEidHigh := d.get k rgDstEidHigh
  tokenId := d.get k rgTokenId
  tokenValue := d.get k rgTokenValue
  upi := d.get k rgUpi
  srcEid := d.get k rgSrcEid

def pageLookup (x : PageTableDesc) (i : Nat) : Option Attrs :=
  match x.pageBase with
  | none => none
  | some page => if (page i).isPage then some (page i).attrs else none

def lookup (d : UbDecoder) (P : Nat) : Option Attrs :=
  if InRange d P then some (rangeAttrs d (P / 32768) (P % 32768))
  else if d.get (P / 32768) rgEntryType = EntryType.rangeTable.code then
    pageLookup (d.desc (8 * (P / 32768))) (P % 32768)
  else pageLookup (d.desc (8 * (P / 32768) + P / 4096 % 8)) (P % 4096)

def MapInfo.attrs (m : MapInfo) (c : DecoderCfg) (P : Nat) : Attrs where
  ubAddr := (m.uba.toNat + (P - m.first c) * sz1M) % 2 ^ 64 / 2 ^ 12 * 2 ^ 12
  tpgNum := m.tpgNum.toNat
  dstEidLow := m.eidLow.toNat
  dstEidHigh := m.eidHigh.toNat
  tokenId := m.tokenId.toNat
  tokenValue := m.tokenValue.toNat
  upi := m.upi.toNat
  srcEid := m.srcEid.toNat

/-- A descriptor counts the entries of its page, and has one iff its entry names one. -/
def DescOk (d : UbDecoder) (x : PageTableDesc) (next n : Nat) : Prop :=
  (∀ page, x.pageBase = some page → x.count = Nat.count (fun i => (page i).isPage) n) ∧
    (x.pageBase = none ↔ next = d.invalidPageDma)

/-- The books of slot `k`; in range form the first descriptor is the range's. -/
def SlotBooks (d : UbDecoder) (k : Nat) : Prop :=
  if d.get k rgEntryType = EntryType.rangeTable.code then
    DescOk d (d.desc (8 * k)) (d.get k rgNextLvAddr) 32768 ∧
      ∀ j, 0 < j → j < 8 → (d.desc (8 * k + j)).pageBase = none ∧ (d.desc (8 * k + j)).count = 0
  else ∀ j < 8, DescOk d (d.desc (8 * k + j)) (d.get k (ptNextLvAddr j)) 4096

structure Exact (s : System) : Prop where
  mapped : ∀ P < 2 ^ 24, (lookup s.dec P).isSome ↔
    ∃ m ∈ s.live, m.whole.Covers s.dec.toDecoderCfg P
  result : ∀ m ∈ s.live, ∀ P, m.whole.Covers s.dec.toDecoderCfg P →
    lookup s.dec P = some (m.attrs s.dec.toDecoderCfg P)
  books : ∀ k < 512, SlotBooks s.dec k

def MapInfo.Fits (m : MapInfo) : Prop :=
  m.tpgNum.toNat < 2 ^ 20 ∧ m.tokenId.toNat < 2 ^ 20 ∧ m.upi.toNat < 2 ^ 16 ∧ m.srcEid.toNat < 2 ^ 20

/-- No bit of the UB address that a range entry drops and a page entry keeps. -/
def MapInfo.RangeAligned (m : MapInfo) : Prop := m.uba.toNat / 2 ^ 12 % 2 ^ 8 = 0

section Find

variable {d : UbDecoder} {own : Nat → Option MapInfo} {m : MapInfo} {P : Nat} {c : DecoderCfg}

def stored (d : UbDecoder) (m : MapInfo) (P : Nat) : Attrs where
  ubAddr :=
    if InRange d P then
      (rangeUba ((m.uba.toNat + (P - P % 32768 + d.get (P / 32768) rgMemBase -
        m.first d.toDecoderCfg) * sz1M) % 2 ^ 64) / 2 ^ 12 * 2 ^ 12 +
          (P % 32768 - d.get (P / 32768) rgMemBase) * sz1M) % 2 ^ 64
    else (m.attrs d.toDecoderCfg P).ubAddr
  tpgNum := m.tpgNum.toNat % 2 ^ 20
  dstEidLow := m.eidLow.toNat
  dstEidHigh := m.eidHigh.toNat
  tokenId := m.tokenId.toNat % 2 ^ 20
  tokenValue := m.tokenValue.toNat
  upi := m.upi.toNat % 2 ^ 16
  srcEid := m.srcEid.toNat % 2 ^ 20

theorem DescRep.lookup {x : PageTableDesc} {next n P0 i : Nat}
    (h : DescRep c x next n own P0) (hi : i < n) :
    pageLookup x i = (own (P0 + i)).map fun m =>
      (fillPageEntry c m ((P0 + i - m.first c) * sz1M)).attrs := by
  unfold pageLookup
  cases hx : x.pageBase with
  | none => rw [(h.empty hx).2 i hi]; rfl
  | some page =>
    have hrep := (h.full page hx).2 i hi
    have hp := hrep.isPage
    cases ho : own (P0 + i) with
    | none =>
      rw [ho] at hp
      exact if_neg (by rw [hp]; nofun)
    | some m =>
      rw [ho] at hp hrep
      dsimp only
      rw [if_pos (show (page i).isPage = true from hp), show page i = _ from hrep]
      rfl

theorem Rep.lookup (h : Rep d own) (hP : P < 2 ^ 24) :
    lookup d P = (own P).map fun m => stored d m P := by
  have hk : P / 32768 < 512 := by omega
  unfold Decoder.lookup
  cases h.slot _ hk with
  | page hp =>
    have hin : ¬InRange d P := fun hc => by
      have := hc.1
      rw [hp.type] at this
      cases this
    have hsub := (hp.sub (P / 4096 % 8) (by omega)).lookup (i := P % 4096) (Nat.mod_lt _ (by omega))
    rw [show 32768 * (P / 32768) + 4096 * (P / 4096 % 8) + P % 4096 = P by omega] at hsub
    rw [if_neg hin, if_neg (by rw [hp.type]; decide), hsub]
    refine congrArg (fun f => (own P).map f) (funext fun m => ?_)
    unfold stored
    rw [if_neg hin]
    rfl
  | range hr =>
    rename_i m b e
    have hPk : 32768 * (P / 32768) + P % 32768 = P := by omega
    have hheld := hr.held (P % 32768) (Nat.mod_lt _ (by omega))
    rw [hPk] at hheld
    by_cases hin : InRange d P
    · obtain ⟨-, h1, h2⟩ := id hin
      rw [hr.memBase] at h1
      rw [hr.memLimit] at h2
      rw [if_pos hin, hheld.mpr ⟨h1, h2⟩]
      refine congrArg some ?_
      dsimp only [stored, rangeAttrs]
      rw [if_pos hin, hr.ubAddr, hr.memBase, hr.tpgNum, hr.dstEidLow, hr.dstEidHigh, hr.tokenId,
        hr.tokenValue, hr.upi, hr.srcEid, show P - P % 32768 = 32768 * (P / 32768) by omega]
    · have hne : own P ≠ some m := fun hc => by
        obtain ⟨h1, h2⟩ := hheld.mp hc
        exact hin ⟨hr.type, by rwa [hr.memBase], by rwa [hr.memLimit]⟩
      have hpage := hr.page.lookup (i := P % 32768) (Nat.mod_lt _ (by omega))
      rw [hPk, beside_of_ne hne] at hpage
      rw [if_neg hin, if_pos hr.type, hpage]
      refine congrArg (fun f => (own P).map f) (funext fun m => ?_)
      unfold stored
      rw [if_neg hin]
      rfl

theorem DescRep.ok {x : PageTableDesc} {next n P0 : Nat}
    (h : DescRep d.toDecoderCfg x next n own P0) : DescOk d x next n :=
  ⟨fun page hp => (h.full page hp).1, h.null⟩

theorem Rep.books (h : Rep d own) {k : Nat} (hk : k < 512) : SlotBooks d k := by
  unfold SlotBooks
  cases h.slot k hk with
  | page hp =>
    rw [if_neg (by rw [hp.type]; decide)]
    exact fun j hj => (hp.sub j hj).ok
  | range hr =>
    rw [if_pos hr.type]
    exact ⟨hr.page.ok, hr.rest⟩

theorem Rep.range_base (h : Rep d own) (hP : P < 2 ^ 24) (hm : own P = some m)
    (hin : InRange d P) :
    m.first d.toDecoderCfg ≤ P - P % 32768 + d.get (P / 32768) rgMemBase := by
  obtain ⟨htype, h1, h2⟩ := hin
  cases h.slot (P / 32768) (by omega) with
  | page hp =>
    rw [hp.type] at htype
    cases htype
  | range hr =>
    rw [hr.memBase] at h1 ⊢
    rw [hr.memLimit] at h2
    have hheld := (hr.held (P % 32768) (Nat.mod_lt _ (by omega))).mpr ⟨h1, h2⟩
    rw [show 32768 * (P / 32768) + P % 32768 = P by omega, hm] at hheld
    obtain rfl := Option.some.inj hheld
    have hcov := (hr.part _ (Nat.lt_of_le_of_lt hr.le hr.lt)).mpr ⟨Nat.le_refl _, hr.le⟩
    have := hcov.1
    omega

theorem rangeUba_eq_iff {uba a i : Nat} :
    (rangeUba ((uba + a * sz1M) % 2 ^ 64) / 2 ^ 12 * 2 ^ 12 + i * sz1M) % 2 ^ 64 =
      (uba + (a + i) * sz1M) % 2 ^ 64 / 2 ^ 12 * 2 ^ 12 ↔ uba / 2 ^ 12 % 2 ^ 8 = 0 := by
  unfold rangeUba sz1M
  omega

theorem stored_eq_iff (hle : m.first d.toDecoderCfg ≤ P)
    (hbase : InRange d P →
      m.first d.toDecoderCfg ≤ P - P % 32768 + d.get (P / 32768) rgMemBase) :
    stored d m P = m.attrs d.toDecoderCfg P ↔ m.Fits ∧ (InRange d P → m.RangeAligned) := by
  have huba : (stored d m P).ubAddr = (m.attrs d.toDecoderCfg P).ubAddr ↔
      (InRange d P → m.RangeAligned) := by
    dsimp only [stored]
    split
    · next hin =>
      have hb := hbase hin
      have hi := hin.2.1
      have hsplit : P - m.first d.toDecoderCfg =
          (P - P % 32768 + d.get (P / 32768) rgMemBase - m.first d.toDecoderCfg) +
            (P % 32768 - d.get (P / 32768) rgMemBase) := by omega
      dsimp only [MapInfo.attrs]
      rw [hsplit, rangeUba_eq_iff]
      exact ⟨fun h _ => h, fun h => h hin⟩
    · next hin => exact ⟨fun _ hc => absurd hc hin, fun _ => rfl⟩
  have hmod : ∀ {x n : Nat}, 0 < n → (x % n = x ↔ x < n) := fun hn =>
    ⟨fun h => h ▸ Nat.mod_lt _ hn, Nat.mod_eq_of_lt⟩
  have hall : stored d m P = m.attrs d.toDecoderCfg P ↔
      (stored d m P).ubAddr = (m.attrs d.toDecoderCfg P).ubAddr ∧ m.Fits := by
    unfold MapInfo.Fits
    rw [← hmod (Nat.two_pow_pos 20), ← hmod (Nat.two_pow_pos 20), ← hmod (Nat.two_pow_pos 16),
      ← hmod (Nat.two_pow_pos 20)]
    constructor
    · intro h
      exact ⟨congrArg Attrs.ubAddr h, congrArg Attrs.tpgNum h, congrArg Attrs.tokenId h,
        congrArg Attrs.upi h, congrArg Attrs.srcEid h⟩
    rintro ⟨h1, h2, h3, h4, h5⟩
    have : stored d m P = ⟨(stored d m P).ubAddr, m.tpgNum.toNat % 2 ^ 20, m.eidLow.toNat,
      m.eidHigh.toNat, m.tokenId.toNat % 2 ^ 20, m.tokenValue.toNat, m.upi.toNat % 2 ^ 16,
      m.srcEid.toNat % 2 ^ 20⟩ := rfl
    rw [this, h1, h2, h3, h4, h5]
    rfl
  rw [hall, huba, and_comm]

theorem withSize_stored (size : UInt64) : stored d { m with size := size } P = stored d m P := rfl

theorem withSize_first (size : UInt64) (c : DecoderCfg) :
    ({ m with size := size } : MapInfo).first c = m.first c := rfl

theorem whole_stored : stored d m.whole P = stored d m P := withSize_stored _

theorem whole_first : m.whole.first c = m.first c := withSize_first _ c

theorem Placed.covers_lt (h : Placed c m) (hP : m.Covers c P) : P < 2 ^ 24 := by
  have := (rel_div h (Nat.le_refl _)).2
  have := hP.2
  omega

end Find

section Runs

variable {d : UbDecoder} {s : System}

/-- In every state a run reaches, the table is the map of the live calls iff the
attributes of each fit their fields, and the UB address of each that has a page in
range form is aligned for it. -/
theorem lookup_exact_iff (h : Created d) (hs : Reach Served System.next ⟨d, []⟩ s) :
    Exact s ↔ ∀ m ∈ s.live, m.Fits ∧
      ((∃ P, m.whole.Covers s.dec.toDecoderCfg P ∧ InRange s.dec P) → m.RangeAligned) := by
  obtain ⟨hc, own, hown, hrep⟩ := reach_ok h hs
  rw [← hc] at hown
  have hfind : ∀ m ∈ s.live, ∀ P, m.whole.Covers s.dec.toDecoderCfg P →
      (lookup s.dec P = some (m.attrs s.dec.toDecoderCfg P) ↔
        m.Fits ∧ (InRange s.dec P → m.RangeAligned)) := by
    intro m hm P hP
    have hlt := (hown.placed m hm).covers_lt hP
    have hown' := hown.held hm hP
    have hle := hP.1
    have hbase := hrep.range_base hlt hown'
    rw [whole_first] at hle hbase
    rw [hrep.lookup hlt, hown', Option.map_some, Option.some_inj, whole_stored]
    exact stored_eq_iff hle hbase
  constructor
  · intro hex m hm
    have hpos := (hown.placed m hm).pos
    rw [size_eq (hown.placed m hm)] at hpos
    have hfirst : m.whole.Covers s.dec.toDecoderCfg (m.whole.first s.dec.toDecoderCfg) :=
      ⟨Nat.le_refl _, Nat.lt_add_of_pos_right (Nat.pos_of_mul_pos_right hpos)⟩
    refine ⟨((hfind m hm _ hfirst).mp (hex.result m hm _ hfirst)).1, ?_⟩
    rintro ⟨P, hP, hin⟩
    exact ((hfind m hm P hP).mp (hex.result m hm P hP)).2 hin
  · intro hall
    refine ⟨fun P hP => ?_, fun m hm P hP => ?_, fun k hk => hrep.books hk⟩
    · rw [hrep.lookup hP, Option.isSome_map, Option.isSome_iff_exists]
      constructor
      · rintro ⟨w, hw⟩
        obtain ⟨m, hm, rfl, hcov⟩ := (hown.own_iff P w).mp hw
        exact ⟨m, hm, hcov⟩
      · rintro ⟨m, hm, hcov⟩
        exact ⟨m.whole, hown.held hm hcov⟩
    · exact (hfind m hm P hP).mpr ⟨(hall m hm).1, fun hin => (hall m hm).2 ⟨P, hP, hin⟩⟩

end Runs

def coldDecoder : UbDecoder :=
  { mmioBaseAddr := 0x10000000000, mmioEndAddr := 0x10fffffffff, rgSize := 2 ^ 32,
    createMatt := true, tokenVld := true, invalidPageDma := 0, pgtlb := fun _ => 0,
    desc := fun _ => {}, dma := fun n => if n < 2 then some 0x1000 else some 0x2000 }

def bootDecoder : UbDecoder := (hiCreateDecoderTable coldDecoder true).2

def wideMap (uba : UInt64) : MapInfo :=
  { pa := 0x10000000000, uba := uba, size := 0x100000000, tpgNum := 1, eidLow := 2, eidHigh := 3,
    tokenId := 4, tokenValue := 5, upi := 6, srcEid := 7 }

theorem bootDecoder_created : Created bootDecoder := by
  refine ⟨⟨coldDecoder, rfl⟩, rfl, by decide, fun n => ⟨0x2000, ?_, by decide⟩⟩
  change (if n + 2 < 2 then some 0x1000 else some 0x2000) = some 0x2000
  exact if_neg (Nat.not_lt.mpr (Nat.le_add_left 2 n))

theorem wideMap_served (uba : UInt64) (h : (hiDecoderMap bootDecoder (wideMap uba)).1 = none) :
    Reach Served System.next ⟨bootDecoder, []⟩ (System.next ⟨bootDecoder, []⟩ (.map (wideMap uba))) := by
  have hbase : (wideMap uba).pa = bootDecoder.mmioBaseAddr := rfl
  refine .next .init ⟨by rw [hbase, Nat.sub_self]; rfl, ?_⟩
  dsimp only [System.serve]
  rcases heq : hiDecoderMap bootDecoder (wideMap uba) with ⟨_ | e, d⟩
  · rfl
  · rw [heq] at h
    cases h

theorem lookup_exact_iff_wideMap :
    Exact (System.next ⟨bootDecoder, []⟩ (.map (wideMap 0x100000))) := by
  refine (lookup_exact_iff bootDecoder_created (wideMap_served _ (by decide +kernel))).mpr
    fun m hm => ?_
  have hlive : (System.next ⟨bootDecoder, []⟩ (.map (wideMap 0x100000))).live = [wideMap 0x100000] := by
    decide +kernel
  rw [hlive, List.mem_singleton] at hm
  subst hm
  exact ⟨⟨by decide, by decide, by decide, by decide⟩, fun _ => by unfold MapInfo.RangeAligned; decide⟩

/-- With UB address `0x1000` the range entry translates page 0 to 0. -/
theorem wideMap_lookup_truncated :
    Created bootDecoder ∧
      Reach Served System.next ⟨bootDecoder, []⟩
        (System.next ⟨bootDecoder, []⟩ (.map (wideMap 0x1000))) ∧
      (lookup (System.next ⟨bootDecoder, []⟩ (.map (wideMap 0x1000))).dec 0).map Attrs.ubAddr = some 0 ∧
      ((wideMap 0x1000).attrs bootDecoder.toDecoderCfg 0).ubAddr = 0x1000 ∧
      ¬Exact (System.next ⟨bootDecoder, []⟩ (.map (wideMap 0x1000))) := by
  have hfound : (lookup (System.next ⟨bootDecoder, []⟩ (.map (wideMap 0x1000))).dec 0).map
      Attrs.ubAddr = some 0 := by decide +kernel
  refine ⟨bootDecoder_created, wideMap_served _ (by decide +kernel), hfound, by decide +kernel,
    fun hex => ?_⟩
  have hres := hex.result (wideMap 0x1000) (by decide +kernel) 0 (by decide +kernel)
  rw [hres] at hfound
  exact absurd hfound (by decide +kernel)

/-! ## The two forms of an entry -/

section Agree

variable {d : UbDecoder} {m : MapInfo}

/-- A range entry filled from page `n` of a call on translates a page as a page entry does iff
the dropped bits of the UB address are zero. It ends with the call or the slot, and the offset
goes on by what it covers. -/
theorem range_page_agree {k n : Nat} (hm : Placed d.toDecoderCfg m) (hn : n < m.pages) :
    ∃ b e d', fillRangeTable d k m (n * sz1M) = ((n + (e - b + 1)) * sz1M, d') ∧
      d'.get k rgMemBase = b ∧ d'.get k rgMemLimit = e ∧ b ≤ e ∧ e < 32768 ∧
      (n + (e - b + 1)) * sz1M ≤ m.size.toNat ∧
      ∀ i, b ≤ i → i ≤ e → ((rangeAttrs d' k i).ubAddr =
        (fillPageEntry d.toDecoderCfg m ((n + (i - b)) * sz1M)).attrs.ubAddr ↔ m.RangeAligned) := by
  obtain ⟨b, hb⟩ : ∃ b, (m.first d.toDecoderCfg + n) % 32768 = b := ⟨_, rfl⟩
  have hlim := rangeLimit_eq hm hn hb
  have hbase := (hm.index hn).2.1.trans hb
  have hb' : b < 32768 := hb ▸ Nat.mod_lt _ (by decide)
  unfold fillRangeTable
  simp only [hbase, hlim]
  generalize he : min 32767 (b + (m.pages - n) - 1) = e
  have hget : ∀ {f v}, (f, v) ∈ rangeEntry d.toDecoderCfg m (n * sz1M) b e → v < 2 ^ f.width →
      (d.set k (rangeEntry d.toDecoderCfg m (n * sz1M) b e)).get k f = v := rangeEntry_get
  have hmb := hget (f := rgMemBase) (by simp [rangeEntry]) hb'
  refine ⟨b, e, _, by rw [Nat.add_mul n], hmb, hget (by simp [rangeEntry]) (show e < 2 ^ 15 by omega),
    by omega, by omega, ?_, fun i _ _ => ?_⟩
  · rw [size_eq hm]
    exact Nat.mul_le_mul_right _ (by omega)
  · dsimp only [rangeAttrs]
    rw [hmb, hget (v := rangeUba ((m.uba.toNat + n * sz1M) % 2 ^ 64) / 2 ^ 12) (by simp [rangeEntry])
      (rangeUba_lt (Nat.mod_lt _ (by decide)))]
    exact rangeUba_eq_iff

end Agree

theorem range_page_agree_wideMap : ∃ b e d', b ≤ e ∧
    fillRangeTable bootDecoder 0 (wideMap 0x100000).whole (0 * sz1M) = ((0 + (e - b + 1)) * sz1M, d') := by
  obtain ⟨b, e, d', h, -, -, hle, -⟩ := range_page_agree (d := bootDecoder) (m := (wideMap 0x100000).whole) (k := 0)
    (n := 0) ⟨by decide, by decide, by decide, by decide, by decide⟩ (by decide)
  exact ⟨b, e, d', hle, h⟩

/-- Page 0 of a call for UB address `0x1000`: 0 by the range entry, `0x1000` by the page entry. -/
theorem wideMap_forms_differ : Placed bootDecoder.toDecoderCfg (wideMap 0x1000).whole ∧
    (rangeAttrs (fillRangeTable bootDecoder 0 (wideMap 0x1000) 0).2 0 0).ubAddr = 0 ∧
      (fillPageEntry bootDecoder.toDecoderCfg (wideMap 0x1000) 0).attrs.ubAddr = 0x1000 :=
  ⟨⟨by decide, by decide, by decide, by decide, by decide⟩, by decide +kernel⟩

end UbDkms.Decoder

import UbDkms.Decoder.Loop
import UbDkms.Lib.Reach
import Mathlib.Data.List.Pairwise

/-!
# Runs of the decoder

A decoder fresh from `hi_create_decoder_table` serves map calls and unmaps of
live ones. In every state reached the table represents the live calls.
-/

namespace UbDkms.Decoder

open Lib List

def MapInfo.whole (m : MapInfo) : MapInfo := { m with size := alignSz1M m.size }

/-- A decoder and the map calls not yet undone, as they were made. -/
structure System where
  dec : UbDecoder
  live : List MapInfo

inductive Call where
  | map (info : MapInfo)
  | unmap (addr size : UInt64) (cmdRet : Ret)

def MapInfo.named (addr size : UInt64) (m : MapInfo) : Bool := m.pa == addr && m.size == size

def System.serve (s : System) : Call → Ret × System
  | .map info =>
    match hiDecoderMap s.dec info with
    | (none, d) => (none, ⟨d, info :: s.live⟩)
    | (some e, d) => (some e, ⟨d, s.live⟩)
  | .unmap addr size cmdRet =>
    match hiDecoderUnmap s.dec addr size cmdRet with
    | (ret, d) => (ret, ⟨d, s.live.filter fun m => !m.named addr size⟩)

def System.next (s : System) (a : Call) : System := (s.serve a).2

/-- A map is aligned to 1 MiB pages and successful, an unmap names a live call. -/
def Served (s : System) : Call → Prop
  | .map info => (info.pa.toNat - s.dec.mmioBaseAddr.toNat) % sz1M = 0 ∧ (s.serve (.map info)).1 = none
  | .unmap addr size _ => ∃ m ∈ s.live, m.named addr size = true

/-- A new decoder with at most 16 TiB of window, whose table the driver keeps;
`ub_get_decoder_cap` cuts the window to `mmio_size`. No allocation fails or returns the
invalid page, which stays allocated. -/
structure Created (d : UbDecoder) : Prop where
  create : ∃ d₀, hiCreateDecoderTable d₀ true = (none, d)
  matt : d.createMatt = true
  window : d.mmioEndAddr.toNat < d.mmioBaseAddr.toNat + 2 ^ 44
  dma : DmaOk d

/-- The live calls own their pages, each page at most once. -/
structure Owns (c : DecoderCfg) (live : List MapInfo) (own : Nat → Option MapInfo) : Prop where
  placed : ∀ m ∈ live, Placed c m.whole
  apart : live.Pairwise fun m m' => ∀ P, ¬(m.whole.Covers c P ∧ m'.whole.Covers c P)
  own_iff : ∀ P w, own P = some w ↔ ∃ m ∈ live, m.whole = w ∧ w.Covers c P

def System.Ok (c : DecoderCfg) (s : System) : Prop :=
  s.dec.toDecoderCfg = c ∧ ∃ own, Owns c s.live own ∧ Rep s.dec own

section Calls

variable {c : DecoderCfg} {d d' : UbDecoder} {live : List MapInfo} {own : Nat → Option MapInfo}
  {m info : MapInfo} {s : System}

theorem alignSz1M_toNat (size : UInt64) :
    (alignSz1M size).toNat = (size.toNat + (sz1M - 1)) % 2 ^ 64 / sz1M * sz1M := by
  unfold alignSz1M
  rw [UInt64.toNat_ofNat', Nat.mod_eq_of_lt]
  exact Nat.lt_of_le_of_lt (Nat.div_mul_le_self _ _) (Nat.mod_lt _ (by decide))

theorem alignSz1M_mod (size : UInt64) : (alignSz1M size).toNat % sz1M = 0 := by
  rw [alignSz1M_toNat]
  exact Nat.mul_mod_left _ _

/-- For any size: the kernel would evaluate `alignSz1M` to compare the two records. -/
theorem withSize_pa (size : UInt64) : ({ m with size := size } : MapInfo).pa = m.pa := rfl

theorem whole_pa : m.whole.pa = m.pa := withSize_pa _

theorem named_iff {addr size : UInt64} : m.named addr size ↔ m.pa = addr ∧ m.size = size := by
  unfold MapInfo.named
  rw [Bool.and_eq_true, beq_iff_eq, beq_iff_eq]

theorem Placed.of_range (hwin : c.mmioEndAddr.toNat < c.mmioBaseAddr.toNat + 2 ^ 44)
    (hal : (info.pa.toNat - c.mmioBaseAddr.toNat) % sz1M = 0)
    (hrange : ¬(info.whole.pa < c.mmioBaseAddr ∨
      c.mmioEndAddr.toNat < (info.whole.pa.toNat + info.whole.size.toNat + (2 ^ 64 - 1)) % 2 ^ 64 ∨
      (info.whole.pa.toNat + info.whole.size.toNat + (2 ^ 64 - 1)) % 2 ^ 64 < info.whole.pa.toNat)) :
    Placed c info.whole := by
  rw [← whole_pa] at hal
  rw [not_or, not_or, UInt64.lt_iff_toNat_lt] at hrange
  obtain ⟨h1, h2, h3⟩ := hrange
  have hpa := info.whole.pa.toNat_lt
  have hsz := info.whole.size.toNat_lt
  have hrange : 0 < info.whole.size.toNat ∧
      info.whole.pa.toNat - c.mmioBaseAddr.toNat + info.whole.size.toNat ≤ 2 ^ 44 := by
    generalize info.whole.size.toNat = size at *
    generalize info.whole.pa.toNat = pa at *
    omega
  exact ⟨Nat.not_lt.mp h1, hal, alignSz1M_mod info.size, hrange.1, hrange.2⟩

theorem handleTableMap_rep (hm : Placed d.toDecoderCfg m) (h : Rep d own)
    (hok : (handleTableMap d m).1 = none) :
    ∃ d', handleTableMap d m = (none, d') ∧ d'.toDecoderCfg = d.toDecoderCfg ∧
      Rep d' (taken own d.toDecoderCfg m m.pages) ∧ ∀ P, m.Covers d.toDecoderCfg P → own P = none := by
  have h0 : Rep d (taken own d.toDecoderCfg m 0) := by
    rwa [show taken own d.toDecoderCfg m 0 = own from funext fun Q => if_neg (by omega)]
  have hloop := tableLoop_map hm rfl h0 (Nat.zero_le _) (Nat.sub_le _ _)
  rw [Nat.zero_mul, MapInfo.pages] at hloop
  unfold handleTableMap at hok ⊢
  generalize tableLoop m true (m.size.toNat / sz1M) 0 d = r at hloop hok ⊢
  obtain ⟨_ | e, off, d'⟩ := r
  · exact ⟨d', rfl, hloop.1, hloop.2.1, fun P hP => hloop.2.2 P hP.1 hP.2⟩
  · cases hok

theorem hiDecoderMap_rep (hmatt : d.createMatt)
    (hwin : d.mmioEndAddr.toNat < d.mmioBaseAddr.toNat + 2 ^ 44)
    (hal : (info.pa.toNat - d.mmioBaseAddr.toNat) % sz1M = 0) (h : Rep d own)
    (hok : (hiDecoderMap d info).1 = none) :
    ∃ d', hiDecoderMap d info = (none, d') ∧ d'.toDecoderCfg = d.toDecoderCfg ∧
      Placed d.toDecoderCfg info.whole ∧
      Rep d' (taken own d.toDecoderCfg info.whole info.whole.pages) ∧
      ∀ P, info.whole.Covers d.toDecoderCfg P → own P = none := by
  by_cases hrange : info.whole.pa < d.mmioBaseAddr ∨
      d.mmioEndAddr.toNat < (info.whole.pa.toNat + info.whole.size.toNat + (2 ^ 64 - 1)) % 2 ^ 64 ∨
      (info.whole.pa.toNat + info.whole.size.toNat + (2 ^ 64 - 1)) % 2 ^ 64 < info.whole.pa.toNat
  · rw [show hiDecoderMap d info = (some .einval, d) from if_pos hrange] at hok
    cases hok
  · have heq : hiDecoderMap d info = handleTableMap d info.whole :=
      (if_neg hrange).trans (if_pos hmatt)
    have hplaced : Placed d.toDecoderCfg info.whole := .of_range hwin hal hrange
    rw [heq] at hok ⊢
    obtain ⟨d', heq', hc, hrep, hfree⟩ := handleTableMap_rep hplaced h hok
    exact ⟨d', heq', hc, hplaced, hrep, hfree⟩

theorem hiDecoderUnmap_rep {addr size : UInt64} (cmdRet : Ret) (hmatt : d.createMatt)
    (hm : Placed d.toDecoderCfg m.whole) (hnamed : m.named addr size) (h : Rep d own)
    (hown : ∀ P, m.whole.Covers d.toDecoderCfg P → own P = some m.whole) :
    ∃ d', hiDecoderUnmap d addr size cmdRet = (cmdRet, d') ∧ d'.toDecoderCfg = d.toDecoderCfg ∧
      Rep d' (given own d.toDecoderCfg m.whole m.whole.pages) := by
  obtain ⟨rfl, rfl⟩ := named_iff.mp hnamed
  have h0 : Rep d (given own d.toDecoderCfg m.whole 0) := by
    rwa [show given own d.toDecoderCfg m.whole 0 = own from funext fun Q => if_neg (by omega)]
  have hpa : (⟨m.pa, 0, alignSz1M m.size, 0, 0, 0, 0, 0, 0, 0, 0, 0⟩ : MapInfo).pa = m.whole.pa := rfl
  obtain ⟨off, d', heq, hc, hrep⟩ := tableLoop_unmap hm hpa rfl hown rfl h0 (Nat.zero_le _)
    (Nat.sub_le _ _)
  rw [Nat.zero_mul] at heq
  refine ⟨d', (if_pos hmatt).trans ?_, hc, hrep⟩
  rw [show tableLoop { pa := m.pa, size := alignSz1M m.size } false
    ((alignSz1M m.size).toNat / sz1M) 0 d = (none, off, d') from heq]

/-! ## The live calls -/

theorem Covers.of_named {P : Nat} {x : MapInfo} (hpa : x.pa = m.pa) (hsz : x.size = m.size)
    (h : x.whole.Covers c P) : m.whole.Covers c P := by
  have hpa' : x.whole.pa = m.whole.pa := by rw [whole_pa, whole_pa, hpa]
  have hsz' : x.whole.size = m.whole.size := congrArg alignSz1M hsz
  unfold MapInfo.Covers MapInfo.first MapInfo.pages at h ⊢
  rwa [hpa', hsz'] at h

theorem Owns.map (h : Owns c live own) (hm : Placed c info.whole)
    (hfree : ∀ P, info.whole.Covers c P → own P = none) :
    Owns c (info :: live) (taken own c info.whole info.whole.pages) := by
  refine ⟨forall_mem_cons.mpr ⟨hm, h.placed⟩, ?_, fun P w => ?_⟩
  · refine pairwise_cons.mpr ⟨fun x hx P hP => ?_, h.apart⟩
    have := (h.own_iff P x.whole).mpr ⟨x, hx, rfl, hP.2⟩
    rw [hfree P hP.1] at this
    cases this
  unfold taken
  split
  · next hcov =>
    constructor
    · intro heq
      obtain rfl := Option.some.inj heq
      exact ⟨info, mem_cons_self, rfl, hcov⟩
    rintro ⟨x, hx, rfl, hP⟩
    rcases mem_cons.mp hx with rfl | hx
    · rfl
    have := (h.own_iff P x.whole).mpr ⟨x, hx, rfl, hP⟩
    rw [hfree P hcov] at this
    cases this
  next hcov =>
  rw [h.own_iff]
  constructor
  · rintro ⟨x, hx, hw⟩
    exact ⟨x, .tail _ hx, hw⟩
  · rintro ⟨x, hx, rfl, hP⟩
    rcases mem_cons.mp hx with rfl | hx
    · exact absurd hP hcov
    · exact ⟨x, hx, rfl, hP⟩

theorem Owns.unmap {addr size : UInt64} (h : Owns c live own) (hm : m ∈ live)
    (hnamed : m.named addr size) :
    Owns c (live.filter fun x => !x.named addr size) (given own c m.whole m.whole.pages) := by
  obtain ⟨rfl, rfl⟩ := named_iff.mp hnamed
  have hsymm : Std.Symm fun x y : MapInfo => ∀ P, ¬(x.whole.Covers c P ∧ y.whole.Covers c P) :=
    ⟨fun x y hxy P hP => hxy P hP.symm⟩
  refine ⟨fun x hx => h.placed x (mem_filter.mp hx).1, h.apart.filter _, fun P w => ?_⟩
  unfold given
  split
  · next hcov =>
    refine ⟨nofun, ?_⟩
    rintro ⟨x, hx, rfl, hP⟩
    obtain ⟨hx, hne⟩ := mem_filter.mp hx
    -- a call left over is another one, so it shares no page with `m`
    have hxm : x ≠ m := by
      rintro rfl
      rw [hnamed] at hne
      cases hne
    exact absurd ⟨hP, hcov⟩ (h.apart.forall hx hm hxm P)
  next hcov =>
  rw [h.own_iff]
  constructor
  · rintro ⟨x, hx, rfl, hP⟩
    refine ⟨x, mem_filter.mpr ⟨hx, ?_⟩, rfl, hP⟩
    rw [Bool.not_eq_true', Bool.eq_false_iff]
    intro hc
    obtain ⟨hpa, hsz⟩ := named_iff.mp hc
    exact hcov (Covers.of_named hpa hsz hP)
  · rintro ⟨x, hx, hw⟩
    exact ⟨x, (mem_filter.mp hx).1, hw⟩

theorem Owns.held (h : Owns c live own) (hm : m ∈ live) {P : Nat} (hP : m.whole.Covers c P) :
    own P = some m.whole := (h.own_iff P m.whole).mpr ⟨m, hm, rfl, hP⟩

theorem serve_map_ok (h : (s.serve (.map info)).1 = none) : (hiDecoderMap s.dec info).1 = none := by
  dsimp only [System.serve] at h
  generalize hiDecoderMap s.dec info = r at h ⊢
  obtain ⟨_ | e, d⟩ := r
  · rfl
  · cases h

theorem System.Ok.next {a : Call} (hmatt : c.createMatt)
    (hwin : c.mmioEndAddr.toNat < c.mmioBaseAddr.toNat + 2 ^ 44) (h : s.Ok c) (ha : Served s a) :
    (s.next a).Ok c := by
  obtain ⟨rfl, own, hown, hrep⟩ := h
  cases a with
  | map info =>
    obtain ⟨hal, hok⟩ := ha
    obtain ⟨d', heq, hc, hplaced, hrep', hfree⟩ :=
      hiDecoderMap_rep hmatt hwin hal hrep (serve_map_ok hok)
    dsimp only [System.next, System.serve]
    rw [heq]
    exact ⟨hc, _, hown.map hplaced hfree, hrep'⟩
  | unmap addr size cmdRet =>
    obtain ⟨m, hm, hnamed⟩ := ha
    obtain ⟨d', heq, hc, hrep'⟩ := hiDecoderUnmap_rep cmdRet hmatt (hown.placed m hm) hnamed
      hrep fun P hP => hown.held hm hP
    dsimp only [System.next, System.serve]
    rw [heq]
    exact ⟨hc, _, hown.unmap hm hnamed, hrep'⟩

/-! ## The new table -/

theorem getBits_emptyEntry_type (v w : Nat) :
    getBits (emptyEntry v w) 0 2 = EntryType.pageTable.code := by
  unfold emptyEntry
  rw [getBits_setBits_apart (by decide), getBits_setBits_apart (by decide), getBits_setBits]
  rfl

theorem getBits_emptyEntry_next (v w : Nat) : getBits (emptyEntry v w) 12 36 = v % 2 ^ 36 := by
  unfold emptyEntry
  rw [getBits_setBits_apart (by decide), getBits_setBits]

theorem hiCreateDecoderTable_eq {d₀ : UbDecoder} (h : hiCreateDecoderTable d₀ true = (none, d)) :
    d.invalidPageDma < 2 ^ 36 ∧ (∀ n, d.desc n = {}) ∧
      ∀ w < 4096, d.pgtlb w = emptyEntry d.invalidPageDma 0 := by
  unfold hiCreateDecoderTable at h
  rcases hd1 : d₀.alloc with ⟨_ | a, d1⟩ <;> rw [hd1] at h
  · cases h
  · dsimp only at h
    rw [if_neg (by decide)] at h
    rcases hd2 : d1.alloc with ⟨_ | a', d2⟩ <;> rw [hd2] at h
    · cases h
    · obtain rfl := (Prod.mk.inj h).2
      exact ⟨pageNo_lt a', fun _ => rfl, fun w hw => if_pos hw⟩

theorem Created.ok (h : Created d) : System.Ok d.toDecoderCfg ⟨d, []⟩ := by
  obtain ⟨d₀, hd₀⟩ := h.create
  obtain ⟨hinv, hdesc, hword⟩ := hiCreateDecoderTable_eq hd₀
  refine ⟨rfl, fun _ => none, ⟨nofun, .nil, fun P w => ⟨nofun, ?_⟩⟩, fun k hk => .page ⟨?_, ?_⟩, h.dma,
    hinv⟩
  · rintro ⟨x, hx, -⟩
    cases hx
  · unfold UbDecoder.get Field.get
    rw [hword _ (by change 8 * k + 0 < 4096; omega)]
    exact getBits_emptyEntry_type _ _
  · intro j hj
    have hnext : d.get k (ptNextLvAddr j) = d.invalidPageDma := by
      unfold UbDecoder.get Field.get
      rw [hword _ (by change 8 * k + j < 4096; omega)]
      exact (getBits_emptyEntry_next _ _).trans (Nat.mod_eq_of_lt hinv)
    rw [hnext, hdesc]
    exact .free rfl rfl fun _ _ => rfl

theorem reach_ok (h : Created d) (hs : Reach Served System.next ⟨d, []⟩ s) :
    s.Ok d.toDecoderCfg :=
  hs.invariant h.ok fun _ _ hok ha => hok.next h.matt h.window ha

end Calls

end UbDkms.Decoder

import UbDkms.Lib.Count
import UbDkms.Decoder.Table

/-!
# The decoder table as a map of pages

Pages of 1 MiB are counted from the start of the window: page `P` is page
`P % 32768` of slot `P / 32768`. `own P` is the map call the page belongs to.
`Rep d own` says what table such an assignment has: a slot is in page form, with
a second-level page for every 4 GiB that has a page in use, or in range form,
with one map call's part of the slot as the range and the other pages beside it.
-/

namespace UbDkms.Decoder

open Lib

/-! ## Maps and their pages -/

def MapInfo.first (m : MapInfo) (c : DecoderCfg) : Nat :=
  (m.pa.toNat - c.mmioBaseAddr.toNat) / sz1M

def MapInfo.pages (m : MapInfo) : Nat := m.size.toNat / sz1M

def MapInfo.Covers (m : MapInfo) (c : DecoderCfg) (P : Nat) : Prop :=
  m.first c ≤ P ∧ P < m.first c + m.pages

instance (m : MapInfo) (c : DecoderCfg) (P : Nat) : Decidable (m.Covers c P) :=
  inferInstanceAs (Decidable (_ ∧ _))

/-- The map call lies in the window, in whole pages. -/
structure Placed (c : DecoderCfg) (m : MapInfo) : Prop where
  base : c.mmioBaseAddr.toNat ≤ m.pa.toNat
  aligned : (m.pa.toNat - c.mmioBaseAddr.toNat) % sz1M = 0
  sized : m.size.toNat % sz1M = 0
  pos : 0 < m.size.toNat
  fits : m.pa.toNat - c.mmioBaseAddr.toNat + m.size.toNat ≤ 2 ^ 44

section Index

variable {c : DecoderCfg} {m : MapInfo} {n : Nat}

theorem rel_div (h : Placed c m) (hn : n ≤ m.pages) :
    c.rel (m.pa.toNat + n * sz1M) / 2 ^ 20 = m.first c + n ∧ m.first c + n ≤ 2 ^ 24 := by
  obtain ⟨hb, ha, hs, -, hf⟩ := h
  have := c.mmioBaseAddr.toNat_lt
  simp only [MapInfo.first, MapInfo.pages, DecoderCfg.rel, sz1M] at *
  omega

theorem Placed.index (h : Placed c m) (hn : n < m.pages) :
    getPgtlbIdx c (m.pa.toNat + n * sz1M) = (m.first c + n) / 32768 ∧
      getRgtlbAddr c (m.pa.toNat + n * sz1M) = (m.first c + n) % 32768 ∧
      getRgtlbPageIdx c (m.pa.toNat + n * sz1M) = (m.first c + n) % 32768 ∧
      getPageIdx c (m.pa.toNat + n * sz1M) = (m.first c + n) % 4096 ∧
      getPgtlbSubIdx c (m.pa.toNat + n * sz1M) = (m.first c + n) / 4096 % 8 ∧
      (m.first c + n) / 32768 < 512 := by
  obtain ⟨hrel, -⟩ := rel_div h (Nat.le_of_lt hn)
  have hlt : m.first c + n < 2 ^ 24 := (rel_div h (Nat.succ_le_of_lt hn)).2
  simp only [getPgtlbIdx, getRgtlbAddr, getRgtlbPageIdx, getPageIdx, getPgtlbSubIdx]
  generalize c.rel (m.pa.toNat + n * sz1M) = x at hrel ⊢
  generalize m.first c + n = P at hrel hlt ⊢
  omega

end Index

/-! ## Second-level pages -/

def EntryRep (c : DecoderCfg) (P : Nat) (e : PageEntry) : Option MapInfo → Prop
  | none => e.entryType = .invalidEntry
  | some m => e = fillPageEntry c m ((P - m.first c) * sz1M)

/-- A descriptor and the page number in its entry, for the `n` pages from `P0` on. -/
structure DescRep (c : DecoderCfg) (x : PageTableDesc) (next n : Nat) (own : Nat → Option MapInfo)
    (P0 : Nat) : Prop where
  null : x.pageBase = none ↔ next = c.invalidPageDma
  empty : x.pageBase = none → x.count = 0 ∧ ∀ i < n, own (P0 + i) = none
  full : ∀ page, x.pageBase = some page →
    x.count = Nat.count (fun i => (page i).isPage) n ∧
      ∀ i < n, EntryRep c (P0 + i) (page i) (own (P0 + i))

section Desc

variable {c : DecoderCfg} {x : PageTableDesc} {next n P0 : Nat} {own own' : Nat → Option MapInfo}
  {page : Nat → PageEntry} {m : MapInfo} {i : Nat}

theorem EntryRep.isPage {P : Nat} {e : PageEntry} {o : Option MapInfo} (h : EntryRep c P e o) :
    e.isPage = o.isSome := by
  cases o with
  | none => rw [PageEntry.isPage, show e.entryType = .invalidEntry from h]; rfl
  | some m => rw [show e = _ from h]; rfl

theorem EntryRep.invalid_iff {P : Nat} {e : PageEntry} {o : Option MapInfo} (h : EntryRep c P e o) :
    e.entryType = .invalidEntry ↔ o = none := by
  cases o with
  | none => exact ⟨fun _ => rfl, fun _ => h⟩
  | some m =>
    rw [show e = _ from h]
    exact ⟨nofun, nofun⟩

theorem DescRep.congr (h : DescRep c x next n own P0) (ho : ∀ i < n, own' (P0 + i) = own (P0 + i)) :
    DescRep c x next n own' P0 := by
  refine ⟨h.null, fun hx => ⟨(h.empty hx).1, fun i hi => ?_⟩, fun page hp =>
    ⟨(h.full page hp).1, fun i hi => ?_⟩⟩
  · rw [ho i hi]; exact (h.empty hx).2 i hi
  · rw [ho i hi]; exact (h.full page hp).2 i hi

theorem DescRep.not_free (h : DescRep c x next n own P0) (hi : i < n) (ho : own (P0 + i) ≠ none) :
    ∃ page, x.pageBase = some page := by
  cases hx : x.pageBase with
  | none => exact absurd ((h.empty hx).2 i hi) ho
  | some page => exact ⟨page, rfl⟩

theorem DescRep.zeroed {dma : Nat} (hn : pageNo dma ≠ c.invalidPageDma)
    (ho : ∀ i < n, own (P0 + i) = none) :
    DescRep c ⟨some fun _ => {}, dma, 0⟩ (pageNo dma) n own P0 := by
  refine ⟨⟨nofun, fun hc => absurd hc hn⟩, nofun, fun page hp => ?_⟩
  obtain rfl := Option.some.inj hp
  refine ⟨(count_eq_zero.mpr fun _ _ => rfl).symm, fun i hi => ?_⟩
  rw [ho i hi]; rfl

theorem DescRep.free (hx : x.pageBase = none) (hc : x.count = 0)
    (ho : ∀ i < n, own (P0 + i) = none) : DescRep c x c.invalidPageDma n own P0 :=
  ⟨⟨fun _ => rfl, fun _ => hx⟩, fun _ => ⟨hc, ho⟩, fun page hp => by rw [hx] at hp; cases hp⟩

variable (h : DescRep c x next n own P0) (hp : x.pageBase = some page) (hi : i < n)
include h hp hi

theorem DescRep.put
    (hfree : own (P0 + i) = none) (hn : n ≤ 32768)
    (ho : ∀ k < n, own' (P0 + k) = if k = i then some m else own (P0 + k)) :
    DescRep c { x with
      pageBase := some fun k =>
        if k = i then fillPageEntry c m ((P0 + i - m.first c) * sz1M) else page k
      count := (x.count + 1) % 2 ^ 32 } next n own' P0 := by
  obtain ⟨hcnt, hent⟩ := h.full page hp
  refine ⟨⟨nofun, fun hc => ?_⟩, nofun, fun page' hp' => ?_⟩
  · rw [h.null.mpr hc] at hp; cases hp
  obtain rfl := Option.some.inj hp'
  refine ⟨?_, fun k hk => ?_⟩
  · have hold : (page i).isPage = false := by rw [(hent i hi).isPage, hfree]; rfl
    have hone := count_switch_on (p := fun k => (page k).isPage)
      (q := fun k => (if k = i then fillPageEntry c m ((P0 + i - m.first c) * sz1M)
        else page k).isPage) (n := n) hold (by rw [if_pos rfl]; rfl)
      (fun j hj => by rw [if_neg hj]) hi
    have hle := Nat.count_le (p := fun k => (page k).isPage = true) (n := n)
    simp only [hcnt]
    rw [Nat.mod_eq_of_lt (by omega)]
    exact hone.symm
  · simp only [ho k hk]
    split
    · next he => rw [he]; rfl
    · exact hent k hk

theorem DescRep.drop
    (hused : own (P0 + i) ≠ none) (hn : n ≤ 32768)
    (ho : ∀ k < n, own' (P0 + k) = if k = i then none else own (P0 + k)) :
    let x' : PageTableDesc := { x with
      pageBase := some fun k =>
        if k = i then { page k with entryType := .invalidEntry } else page k
      count := (x.count + (2 ^ 32 - 1)) % 2 ^ 32 }
    DescRep c x' next n own' P0 ∧ (x'.count = 0 → ∀ k < n, own' (P0 + k) = none) := by
  obtain ⟨hcnt, hent⟩ := h.full page hp
  have hpage : (page i).isPage := by
    rw [(hent i hi).isPage]; exact Option.isSome_iff_ne_none.mpr hused
  have hone := count_switch_on (q := fun k => (page k).isPage)
    (p := fun k => (if k = i then { page k with entryType := .invalidEntry } else page k).isPage)
    (n := n) (by rw [if_pos rfl]; rfl) hpage (fun j hj => by rw [if_neg hj]) hi
  have hle := Nat.count_le (p := fun k => (page k).isPage = true) (n := n)
  have hnew : (x.count + (2 ^ 32 - 1)) % 2 ^ 32 = Nat.count (fun k =>
      (if k = i then { page k with entryType := .invalidEntry } else page k).isPage = true) n := by
    rw [hcnt]
    omega
  have hent' : ∀ k < n, EntryRep c (P0 + k)
      (if k = i then { page k with entryType := .invalidEntry } else page k) (own' (P0 + k)) := by
    intro k hk
    rw [ho k hk]
    split
    · rfl
    · exact hent k hk
  refine ⟨⟨⟨nofun, fun hc => ?_⟩, nofun, fun page' hp' => ?_⟩, fun hz k hk => ?_⟩
  · rw [h.null.mpr hc] at hp; cases hp
  · obtain rfl := Option.some.inj hp'
    exact ⟨hnew, hent'⟩
  · have hnone := count_eq_zero.mp (hnew.symm.trans hz) k hk
    rw [(hent' k hk).isPage] at hnone
    simpa using hnone

end Desc

/-! ## What the writes leave alone -/

/-- Only slot `k` changes. -/
structure Touches (d d' : UbDecoder) (k : Nat) : Prop where
  cfg : d'.toDecoderCfg = d.toDecoderCfg
  words : ∀ w, w / 8 ≠ k → d'.pgtlb w = d.pgtlb w
  descs : ∀ n, n / 8 ≠ k → d'.desc n = d.desc n

/-- Every allocation to come succeeds, with a page other than the invalid one. -/
def DmaOk (d : UbDecoder) : Prop :=
  ∀ n, ∃ a, d.dma n = some a ∧ pageNo a ≠ d.invalidPageDma

section Writes

variable {d d' d'' : UbDecoder} {k k' j n : Nat} {f : Field} {fs : List (Field × Nat)}
  {x : PageTableDesc}

theorem Touches.trans (h : Touches d d' k) (h' : Touches d' d'' k) : Touches d d'' k :=
  ⟨h'.cfg.trans h.cfg, fun w hw => (h'.words w hw).trans (h.words w hw),
    fun n hn => (h'.descs n hn).trans (h.descs n hn)⟩

theorem Touches.set (hfs : ∀ p ∈ fs, p.1.word < 8) : Touches d (d.set k fs) k := by
  refine ⟨rfl, fun w hw => setAll_other fun p hp => ?_, fun _ _ => rfl⟩
  have := hfs p hp
  omega

theorem Touches.setDesc (hn : n / 8 = k) : Touches d (d.setDesc n x) k :=
  ⟨rfl, fun _ _ => rfl, fun i hi => if_neg fun h => hi (by rw [h, hn])⟩

theorem Touches.alloc : Touches d d.alloc.2 k := ⟨rfl, fun _ _ => rfl, fun _ _ => rfl⟩

theorem Touches.get (h : Touches d d' k) (hk : k' ≠ k) (hf : f.word < 8) :
    d'.get k' f = d.get k' f := by
  rw [UbDecoder.get, UbDecoder.get, Field.get, Field.get, h.words _ (by omega)]

@[simp] theorem setDesc_get : (d.setDesc n x).get k f = d.get k f := rfl

@[simp] theorem setDesc_self : (d.setDesc n x).desc n = x := if_pos rfl

theorem setDesc_ne {i : Nat} (h : i ≠ n) : (d.setDesc n x).desc i = d.desc i := if_neg h

@[simp] theorem set_desc : (d.set k fs).desc = d.desc := rfl

theorem set_get_apart (h : ∀ p ∈ fs, p.1.Apart f) : (d.set k fs).get k f = d.get k f :=
  get_setAll_apart h

theorem set_get {v : Nat} (h : fs.Pairwise fun p q => q.1.Apart p.1) (hm : (f, v) ∈ fs) :
    (d.set k fs).get k f = v % 2 ^ f.width := get_setAll h hm

theorem allocPage_eq (h : DmaOk d) (entry : List (Field × Nat)) (page : Nat → PageEntry)
    (count : Nat) : ∃ dma, pageNo dma ≠ d.invalidPageDma ∧ DmaOk d.alloc.2 ∧
      allocPage d k j entry page count =
        (none, (d.alloc.2.setDesc (8 * k + j) ⟨some page, dma, count⟩).set k
          (entry ++ [(ptNextLvAddr j, pageNo dma), (ptPgtlbAttr j, pgtlbAttrDefault)])) := by
  obtain ⟨dma, hdma, hne⟩ := h 0
  refine ⟨dma, hne, fun n => h (n + 1), ?_⟩
  unfold allocPage
  rw [show d.alloc = (some dma, d.alloc.2) from Prod.ext hdma rfl]

end Writes

/-! ## Slots -/

structure PageForm (d : UbDecoder) (own : Nat → Option MapInfo) (k : Nat) : Prop where
  type : d.get k rgEntryType = EntryType.pageTable.code
  sub : ∀ j < 8, DescRep d.toDecoderCfg (d.desc (8 * k + j)) (d.get k (ptNextLvAddr j)) 4096 own
    (32768 * k + 4096 * j)

def beside (own : Nat → Option MapInfo) (m : MapInfo) (P : Nat) : Option MapInfo :=
  if own P = some m then none else own P

/-- One range entry over the part of `m` in the slot, indices `b` to `e`. -/
structure RangeForm (d : UbDecoder) (own : Nat → Option MapInfo) (k : Nat) (m : MapInfo)
    (b e : Nat) : Prop where
  type : d.get k rgEntryType = EntryType.rangeTable.code
  memBase : d.get k rgMemBase = b
  memLimit : d.get k rgMemLimit = e
  le : b ≤ e
  lt : e < 32768
  held : ∀ i < 32768, own (32768 * k + i) = some m ↔ b ≤ i ∧ i ≤ e
  part : ∀ i < 32768, m.Covers d.toDecoderCfg (32768 * k + i) ↔ b ≤ i ∧ i ≤ e
  ubAddr : d.get k rgUbAddr = rangeUba
    ((m.uba.toNat + (32768 * k + b - m.first d.toDecoderCfg) * sz1M) % 2 ^ 64) / 2 ^ 12
  tpgNum : d.get k rgTpgNum = m.tpgNum.toNat % 2 ^ 20
  dstEidLow : d.get k rgDstEidLow = m.eidLow.toNat
  dstEidHigh : d.get k rgDstEidHigh = m.eidHigh.toNat
  tokenId : d.get k rgTokenId = m.tokenId.toNat % 2 ^ 20
  tokenValue : d.get k rgTokenValue = m.tokenValue.toNat
  upi : d.get k rgUpi = m.upi.toNat % 2 ^ 16
  srcEid : d.get k rgSrcEid = m.srcEid.toNat % 2 ^ 20
  page : DescRep d.toDecoderCfg (d.desc (8 * k)) (d.get k rgNextLvAddr) 32768 (beside own m)
    (32768 * k)
  rest : ∀ j, 0 < j → j < 8 → (d.desc (8 * k + j)).pageBase = none ∧ (d.desc (8 * k + j)).count = 0

inductive SlotRep (d : UbDecoder) (own : Nat → Option MapInfo) (k : Nat) : Prop where
  | page : PageForm d own k → SlotRep d own k
  | range {m : MapInfo} {b e : Nat} : RangeForm d own k m b e → SlotRep d own k

structure Rep (d : UbDecoder) (own : Nat → Option MapInfo) : Prop where
  slot : ∀ k < 512, SlotRep d own k
  dma : DmaOk d
  invalid : d.invalidPageDma < 2 ^ 36

end UbDkms.Decoder

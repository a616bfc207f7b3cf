import UbDkms.Decoder.Rep

/-!
# One iteration on a slot

What a single step of a map or an unmap does to its slot: a page entered or
removed in page form or beside a range, a range opened over an empty slot, and a
range removed, which turns the slot back into page form.
-/

namespace UbDkms.Decoder

open Lib List

def put (own : Nat → Option MapInfo) (P : Nat) (m : MapInfo) (Q : Nat) : Option MapInfo :=
  if Q = P then some m else own Q

def cut (own : Nat → Option MapInfo) (P : Nat) (Q : Nat) : Option MapInfo :=
  if Q = P then none else own Q

section Frame

variable {d d' : UbDecoder} {own own' : Nat → Option MapInfo} {k k' j b e : Nat} {m : MapInfo}

theorem PageForm.frame (h : PageForm d own k) (ht : Touches d d' k') (hk : k ≠ k')
    (ho : ∀ i < 32768, own' (32768 * k + i) = own (32768 * k + i)) : PageForm d' own' k := by
  refine ⟨by rw [ht.get hk (by decide)]; exact h.type, fun j hj => ?_⟩
  rw [ht.cfg, ht.descs _ (by omega), ht.get hk hj]
  refine (h.sub j hj).congr fun i hi => ?_
  rw [Nat.add_assoc]; exact ho _ (by omega)

def rangeFields : List Field :=
  [rgEntryType, rgMemBase, rgMemLimit, rgUbAddr, rgTpgNum, rgDstEidLow, rgDstEidHigh, rgTokenId,
    rgTokenValue, rgUpi, rgSrcEid]

theorem rangeFields_apart : ∀ f ∈ rangeFields,
    (ptNextLvAddr 0).Apart f ∧ (ptPgtlbAttr 0).Apart f := by decide

theorem RangeForm.replace (h : RangeForm d own k m b e) (hcfg : d'.toDecoderCfg = d.toDecoderCfg)
    (hget : ∀ f ∈ rangeFields, d'.get k f = d.get k f)
    (hdesc : ∀ j, 0 < j → j < 8 → d'.desc (8 * k + j) = d.desc (8 * k + j))
    (ho : ∀ i < 32768, own' (32768 * k + i) = some m ↔ own (32768 * k + i) = some m)
    (hpage : DescRep d.toDecoderCfg (d'.desc (8 * k)) (d'.get k rgNextLvAddr) 32768 (beside own' m)
      (32768 * k)) : RangeForm d' own' k m b e := by
  refine ⟨?_, ?_, ?_, h.le, h.lt, fun i hi => (ho i hi).trans (h.held i hi), by rw [hcfg]; exact h.part,
    ?_, ?_, ?_, ?_, ?_, ?_, ?_, ?_, by rw [hcfg]; exact hpage, fun j h0 hj => ?_⟩
  · rw [hget _ (by decide)]; exact h.type
  · rw [hget _ (by decide)]; exact h.memBase
  · rw [hget _ (by decide)]; exact h.memLimit
  · rw [hget _ (by decide), hcfg]; exact h.ubAddr
  · rw [hget _ (by decide)]; exact h.tpgNum
  · rw [hget _ (by decide)]; exact h.dstEidLow
  · rw [hget _ (by decide)]; exact h.dstEidHigh
  · rw [hget _ (by decide)]; exact h.tokenId
  · rw [hget _ (by decide)]; exact h.tokenValue
  · rw [hget _ (by decide)]; exact h.upi
  · rw [hget _ (by decide)]; exact h.srcEid
  · rw [hdesc j h0 hj]; exact h.rest j h0 hj

theorem RangeForm.frame (h : RangeForm d own k m b e) (ht : Touches d d' k') (hk : k ≠ k')
    (ho : ∀ i < 32768, own' (32768 * k + i) = own (32768 * k + i)) : RangeForm d' own' k m b e := by
  have hword : ∀ f ∈ rangeFields, f.word < 8 := by decide
  refine h.replace ht.cfg (fun f hf => ht.get hk (hword f hf)) (fun j _ _ => ht.descs _ (by omega))
    (fun i hi => by rw [ho i hi]) ?_
  rw [ht.get hk (by decide), ht.descs _ (by omega)]
  refine h.page.congr fun i hi => ?_
  rw [beside, beside, ho i hi]

theorem Rep.step (h : Rep d own) (ht : Touches d d' k) (hd : DmaOk d') (hs : SlotRep d' own' k)
    (ho : ∀ P, P / 32768 ≠ k → own' P = own P) : Rep d' own' := by
  refine ⟨fun k' hk' => ?_, hd, by rw [ht.cfg]; exact h.invalid⟩
  by_cases hk : k' = k
  · exact hk ▸ hs
  · have ho' : ∀ i < 32768, own' (32768 * k' + i) = own (32768 * k' + i) :=
      fun i hi => ho _ (by omega)
    cases h.slot k' hk' with
    | page hp => exact .page (hp.frame ht hk ho')
    | range hr => exact .range (hr.frame ht hk ho')

end Frame

/-! ## One page entry -/

section Entry

variable {d : UbDecoder} {own : Nat → Option MapInfo} {n next N P0 idx off : Nat} {m : MapInfo}
  {page : Nat → PageEntry}

variable (h : DescRep d.toDecoderCfg (d.desc n) next N own P0) (hp : (d.desc n).pageBase = some page)
  (hi : idx < N) (hN : N ≤ 32768)
include h hp hi hN

theorem mapToPage_spec
    (hoff : off = (P0 + idx - m.first d.toDecoderCfg) * sz1M) :
    Outcome (mapToPage d n idx m off)
      (fun d' => own (P0 + idx) = none ∧ ∃ x, d' = d.setDesc n x ∧ x.pageBase.isSome ∧
        DescRep d.toDecoderCfg x next N (put own (P0 + idx) m) P0)
      fun _ _ => True := by
  have hent := (h.full page hp).2 idx hi
  unfold mapToPage
  rw [hp]
  simp only
  split
  · trivial
  next hfree =>
  have hnone := hent.invalid_iff.mp (not_not.mp hfree)
  refine ⟨hnone, _, rfl, rfl, ?_⟩
  subst hoff
  refine h.put hp hi hnone hN fun k _ => ?_
  simp only [put, Nat.add_left_cancel_iff]

theorem unmapToPage_spec
    (hused : own (P0 + idx) ≠ none) (free : UbDecoder → UbDecoder) :
    ∃ x, unmapToPage d n idx free =
        (none, if x.count = 0 then free (d.setDesc n x) else d.setDesc n x) ∧
      DescRep d.toDecoderCfg x next N (cut own (P0 + idx)) P0 ∧
      (x.count = 0 → ∀ k < N, cut own (P0 + idx) (P0 + k) = none) := by
  have hpage := ((h.full page hp).2 idx hi).isPage
  have htype : (page idx).entryType = .page := by
    rw [PageEntry.isPage, Option.isSome_iff_ne_none.mpr hused] at hpage
    exact of_decide_eq_true hpage
  have hcut : ∀ k < N, cut own (P0 + idx) (P0 + k) = if k = idx then none else own (P0 + k) :=
    fun k _ => by simp only [cut, Nat.add_left_cancel_iff]
  obtain ⟨hrep, hzero⟩ := h.drop hp hi hused hN hcut
  refine ⟨_, ?_, hrep, hzero⟩
  unfold unmapToPage
  rw [hp]
  simp only [htype, ne_eq, not_true_eq_false, if_false, setDesc_self]

end Entry

/-! ## Page form -/

section Page

variable {d d' : UbDecoder} {own own' : Nat → Option MapInfo} {k j idx off : Nat} {m info : MapInfo}

theorem PageForm.replace (h : PageForm d own k) (hcfg : d'.toDecoderCfg = d.toDecoderCfg)
    (htype : d'.get k rgEntryType = EntryType.pageTable.code)
    (hdesc : ∀ i < 8, i ≠ j → d'.desc (8 * k + i) = d.desc (8 * k + i))
    (hnext : ∀ i < 8, i ≠ j → d'.get k (ptNextLvAddr i) = d.get k (ptNextLvAddr i))
    (ho : ∀ P, P / 4096 ≠ 8 * k + j → own' P = own P)
    (hsub : DescRep d.toDecoderCfg (d'.desc (8 * k + j)) (d'.get k (ptNextLvAddr j)) 4096 own'
      (32768 * k + 4096 * j)) : PageForm d' own' k := by
  refine ⟨htype, fun i hi => ?_⟩
  rw [hcfg]
  by_cases hij : i = j
  · rw [hij]; exact hsub
  · rw [hdesc i hi hij, hnext i hi hij]
    exact (h.sub i hi).congr fun r hr => ho _ (by omega)

/-- A write of the type and the page number of entry `j`. -/
structure EntryWrite (j : Nat) (fs : List (Field × Nat)) (next : Nat) : Prop where
  words : ∀ p ∈ fs, p.1.word = j
  apart : fs.Pairwise fun p q => q.1.Apart p.1
  type : (ptEntryType j, EntryType.pageTable.code) ∈ fs
  next : (ptNextLvAddr j, next) ∈ fs

section EntryWrite

variable {fs : List (Field × Nat)} {next : Nat}

theorem EntryWrite.alloc (j next attr : Nat) :
    EntryWrite j [(ptEntryType j, EntryType.pageTable.code), (ptNextLvAddr j, next),
      (ptPgtlbAttr j, attr)] next := by
  refine ⟨?_, ?_, ?_, ?_⟩ <;> simp [Field.Apart, ptEntryType, ptNextLvAddr, ptPgtlbAttr]

theorem EntryWrite.free (j next : Nat) :
    EntryWrite j [(ptNextLvAddr j, next), (ptEntryType j, EntryType.pageTable.code)] next := by
  refine ⟨?_, ?_, ?_, ?_⟩ <;> simp [Field.Apart, ptEntryType, ptNextLvAddr]

variable (h : EntryWrite j fs next)
include h

theorem EntryWrite.get_other {f : Field} (hf : f.word ≠ j) :
    (d.set k fs).get k f = d.get k f :=
  set_get_apart fun p hp => .inl (by rw [h.words p hp]; exact hf.symm)

theorem EntryWrite.get_type
    (hd : d.get k rgEntryType = EntryType.pageTable.code) :
    (d.set k fs).get k rgEntryType = EntryType.pageTable.code := by
  by_cases hj : j = 0
  · subst hj
    exact set_get h.apart h.type
  · rw [h.get_other fun hc => hj hc.symm, hd]

theorem EntryWrite.get_next (hn : next < 2 ^ 36) :
    (d.set k fs).get k (ptNextLvAddr j) = next :=
  (set_get h.apart h.next).trans (Nat.mod_eq_of_lt hn)

theorem EntryWrite.touches (hj : j < 8) : Touches d (d.set k fs) k :=
  Touches.set fun p hp => by rw [h.words p hp]; exact hj

end EntryWrite

theorem pageNo_lt (dma : Nat) : pageNo dma < 2 ^ 36 := Nat.mod_lt _ (Nat.two_pow_pos 36)

section

variable (h : PageForm d own k) (hd : DmaOk d) (hj : j < 8)
include h hd hj

theorem PageForm.alloc
    (hx : (d.desc (8 * k + j)).pageBase = none) :
    ∃ d', pgtlbAllocPage d k j = (none, d') ∧ PageForm d' own k ∧ Touches d d' k ∧ DmaOk d' ∧
      (d'.desc (8 * k + j)).pageBase.isSome := by
  obtain ⟨dma, hne, hd', heq⟩ := allocPage_eq (k := k) (j := j) hd
    [(ptEntryType j, EntryType.pageTable.code)] (fun _ => {}) 0
  have hw := EntryWrite.alloc j (pageNo dma) pgtlbAttrDefault
  refine ⟨_, heq, h.replace (j := j) rfl (hw.get_type h.type) (fun i _ hij => setDesc_ne (by omega))
    (fun i _ hij => hw.get_other hij) (fun _ _ => rfl) ?_, ?_, hd', ?_⟩
  · rw [set_desc, setDesc_self, cons_append, nil_append, hw.get_next (pageNo_lt dma)]
    exact .zeroed hne ((h.sub j hj).empty hx).2
  · exact (Touches.alloc.trans (Touches.setDesc (by omega))).trans (hw.touches hj)
  · rw [set_desc, setDesc_self]; rfl

theorem PageForm.mapEntry (hi : idx < 4096)
    (hx : (d.desc (8 * k + j)).pageBase.isSome)
    (hoff : off = (32768 * k + 4096 * j + idx - m.first d.toDecoderCfg) * sz1M) :
    Outcome (mapToPage d (8 * k + j) idx m off)
      (fun d' => own (32768 * k + 4096 * j + idx) = none ∧
        PageForm d' (put own (32768 * k + 4096 * j + idx) m) k ∧ Touches d d' k ∧ DmaOk d')
      fun _ _ => True := by
  obtain ⟨page, hp⟩ := Option.isSome_iff_exists.mp hx
  refine (mapToPage_spec (h.sub j hj) hp hi (by omega) hoff).mono ?_ fun _ _ h => h
  rintro d' ⟨hnone, x, rfl, -, hrep⟩
  refine ⟨hnone, h.replace (j := j) rfl h.type (fun i _ hij => setDesc_ne (by omega))
    (fun _ _ _ => rfl) (fun P hP => if_neg (by omega)) ?_, Touches.setDesc (by omega), hd⟩
  rw [setDesc_self]
  exact hrep

theorem PageForm.map (hi : idx < 4096)
    (hidx : getPageIdx d.toDecoderCfg (m.pa.toNat + off) = idx)
    (hoff : off = (32768 * k + 4096 * j + idx - m.first d.toDecoderCfg) * sz1M) :
    Outcome (pgtlbMapToPage d k j m off)
      (fun d' => own (32768 * k + 4096 * j + idx) = none ∧
        PageForm d' (put own (32768 * k + 4096 * j + idx) m) k ∧ Touches d d' k ∧ DmaOk d')
      fun _ _ => True := by
  unfold pgtlbMapToPage
  cases hx : (d.desc (8 * k + j)).pageBase with
  | some page =>
    simp only [Option.isSome_some, if_true, hidx]
    exact h.mapEntry hd hj hi (by rw [hx]; rfl) hoff
  | none =>
    obtain ⟨d1, heq, h1, ht1, hd1, hx1⟩ := h.alloc hd hj hx
    simp only [Option.isSome_none, Bool.false_eq_true, if_false, heq, ht1.cfg, hidx]
    refine (h1.mapEntry hd1 hj hi hx1 (by rw [ht1.cfg]; exact hoff)).mono ?_ fun _ _ h => h
    rintro d' ⟨hnone, hp, ht, hd'⟩
    exact ⟨hnone, hp, ht1.trans ht, hd'⟩

end

theorem PageForm.release (h : PageForm d own k) (hinv : d.invalidPageDma < 2 ^ 36) (hj : j < 8)
    (hz : (d.desc (8 * k + j)).count = 0)
    (ho : ∀ i < 4096, own (32768 * k + 4096 * j + i) = none) :
    PageForm (pgtlbFreePage d k j) own k ∧ Touches d (pgtlbFreePage d k j) k := by
  have hw := EntryWrite.free j d.invalidPageDma
  unfold pgtlbFreePage freePage
  refine ⟨h.replace (j := j) rfl ?_ (fun i _ hij => setDesc_ne (by omega)) (fun i _ hij => ?_)
    (fun _ _ => rfl) ?_, (hw.touches hj).trans (Touches.setDesc (by omega))⟩
  · rw [setDesc_get]; exact hw.get_type h.type
  · rw [setDesc_get]; exact hw.get_other hij
  · rw [setDesc_self, setDesc_get, hw.get_next hinv]
    exact .free rfl hz ho

theorem PageForm.unmap (h : PageForm d own k) (hd : DmaOk d) (hinv : d.invalidPageDma < 2 ^ 36)
    (hj : j < 8) (hi : idx < 4096)
    (hidx : getPageIdx d.toDecoderCfg (info.pa.toNat + off) = idx)
    (hused : own (32768 * k + 4096 * j + idx) ≠ none) :
    ∃ d', pgtlbUnmapToPage d k j info off = (none, d') ∧
      PageForm d' (cut own (32768 * k + 4096 * j + idx)) k ∧ Touches d d' k ∧ DmaOk d' := by
  obtain ⟨page, hp⟩ := (h.sub j hj).not_free hi hused
  have hnext : d.get k (ptNextLvAddr j) ≠ d.invalidPageDma := fun hc => by
    rw [(h.sub j hj).null.mpr hc] at hp; cases hp
  obtain ⟨x, hcode, hrep, hzero⟩ := unmapToPage_spec (h.sub j hj) hp hi (by omega) hused
    (pgtlbFreePage · k j)
  have hcut : ∀ P, P / 4096 ≠ 8 * k + j → cut own (32768 * k + 4096 * j + idx) P = own P :=
    fun P hP => if_neg (by omega)
  have h1 : PageForm (d.setDesc (8 * k + j) x) (cut own (32768 * k + 4096 * j + idx)) k :=
    h.replace (j := j) rfl h.type (fun i _ hij => setDesc_ne (by omega)) (fun _ _ _ => rfl) hcut
      (by rw [setDesc_self]; exact hrep)
  have ht1 : Touches d (d.setDesc (8 * k + j) x) k := Touches.setDesc (by omega)
  unfold pgtlbUnmapToPage
  rw [if_neg hnext, hidx, hcode]
  split
  · next hz =>
    have hrel := h1.release hinv hj (by rw [setDesc_self]; exact hz) (hzero hz)
    exact ⟨_, rfl, hrel.1, ht1.trans hrel.2, hd⟩
  · exact ⟨_, rfl, h1, ht1, hd⟩

end Page

/-! ## Pages beside a range -/

section Range

variable {d d' : UbDecoder} {own own' : Nat → Option MapInfo} {k b e idx off : Nat}
  {m m' info : MapInfo}

theorem RangeForm.alloc (h : RangeForm d own k m b e) (hd : DmaOk d)
    (hx : (d.desc (8 * k)).pageBase = none) :
    ∃ d', rgtlbAllocPage d k = (none, d') ∧ RangeForm d' own k m b e ∧ Touches d d' k ∧ DmaOk d' ∧
      (d'.desc (8 * k)).pageBase.isSome := by
  obtain ⟨dma, hne, hd', heq⟩ := allocPage_eq (k := k) (j := 0) hd [] (fun _ => {}) 0
  have hw : [(ptNextLvAddr 0, pageNo dma), (ptPgtlbAttr 0, pgtlbAttrDefault)].Pairwise
      fun p q => q.1.Apart p.1 := by simp [Field.Apart, ptNextLvAddr, ptPgtlbAttr]
  refine ⟨_, heq, h.replace rfl (fun f hf => set_get_apart fun p hp => ?_)
    (fun j h0 _ => setDesc_ne (by omega)) (fun _ _ => Iff.rfl) ?_, ?_, hd', ?_⟩
  · simp only [nil_append, mem_cons, not_mem_nil, or_false] at hp
    rcases hp with rfl | rfl
    · exact (rangeFields_apart f hf).1
    · exact (rangeFields_apart f hf).2
  · rw [set_desc, nil_append, show rgNextLvAddr = ptNextLvAddr 0 from rfl,
      set_get hw mem_cons_self, show (ptNextLvAddr 0).width = 36 from rfl,
      Nat.mod_eq_of_lt (pageNo_lt dma)]
    rw [Nat.add_zero, setDesc_self]
    exact .zeroed hne (h.page.empty hx).2
  · refine (Touches.alloc.trans (Touches.setDesc (by omega))).trans (Touches.set fun p hp => ?_)
    simp only [nil_append, mem_cons, not_mem_nil, or_false] at hp
    rcases hp with rfl | rfl <;> exact Nat.zero_lt_succ 7
  · rw [set_desc, Nat.add_zero, setDesc_self]; rfl

theorem beside_of_ne {P : Nat} (h : own P ≠ some m) : beside own m P = own P := if_neg h

theorem beside_put {P : Nat} (hne : m' ≠ m) (hP : own P ≠ some m) :
    beside (put own P m') m = put (beside own m) P m' := by
  funext Q
  unfold beside put
  by_cases hQ : Q = P
  · subst hQ
    rw [if_pos rfl, if_pos rfl, if_neg fun hc => hne (Option.some.inj hc)]
  · rw [if_neg hQ, if_neg hQ]

theorem beside_cut {P : Nat} (hP : own P ≠ some m) :
    beside (cut own P) m = cut (beside own m) P := by
  funext Q
  unfold beside cut
  by_cases hQ : Q = P
  · subst hQ
    rw [if_pos rfl, if_pos rfl, if_neg nofun]
  · rw [if_neg hQ, if_neg hQ]

variable (h : RangeForm d own k m b e)
include h

theorem RangeForm.mapEntry (hd : DmaOk d) (hi : idx < 32768)
    (hx : (d.desc (8 * k)).pageBase.isSome) (hne : m' ≠ m) (hP : own (32768 * k + idx) ≠ some m)
    (hoff : off = (32768 * k + idx - m'.first d.toDecoderCfg) * sz1M) :
    Outcome (mapToPage d (8 * k) idx m' off)
      (fun d' => own (32768 * k + idx) = none ∧ RangeForm d' (put own (32768 * k + idx) m') k m b e ∧
        Touches d d' k ∧ DmaOk d')
      fun _ _ => True := by
  obtain ⟨page, hp⟩ := Option.isSome_iff_exists.mp hx
  refine (mapToPage_spec h.page hp hi (by omega) hoff).mono ?_ fun _ _ h => h
  rintro d' ⟨hnone, x, rfl, -, hrep⟩
  rw [beside_of_ne hP] at hnone
  refine ⟨hnone, h.replace rfl (fun _ _ => rfl) (fun j h0 _ => setDesc_ne (by omega)) (fun i _ => ?_) ?_,
    Touches.setDesc (by omega), hd⟩
  · unfold put
    split
    · next heq =>
      rw [heq]
      exact ⟨fun hc => absurd (Option.some.inj hc) hne, fun hc => absurd hc hP⟩
    · rfl
  · rw [setDesc_self, beside_put hne hP]
    exact hrep

theorem RangeForm.map (hd : DmaOk d) (hi : idx < 32768)
    (hidx : getRgtlbAddr d.toDecoderCfg (m'.pa.toNat + off) = idx)
    (hcov : m'.Covers d.toDecoderCfg (32768 * k + idx))
    (hoff : off = (32768 * k + idx - m'.first d.toDecoderCfg) * sz1M) :
    Outcome (rgtlbMapPage d k m' off)
      (fun d' => own (32768 * k + idx) = none ∧ RangeForm d' (put own (32768 * k + idx) m') k m b e ∧
        Touches d d' k ∧ DmaOk d')
      fun _ _ => True := by
  have hidx' : getRgtlbPageIdx d.toDecoderCfg (m'.pa.toNat + off) = idx := hidx
  unfold rgtlbMapPage
  simp only [hidx, hidx', h.memBase, h.memLimit]
  split
  · trivial
  next hout =>
  -- outside the range, so the page is not one of the range's map call
  have hne : m' ≠ m := fun hc => hout ((h.part idx hi).mp (hc ▸ hcov))
  have hP : own (32768 * k + idx) ≠ some m := fun hc => hout ((h.held idx hi).mp hc)
  cases hx : (d.desc (8 * k)).pageBase with
  | some page =>
    simp only [Option.isSome_some, if_true]
    exact h.mapEntry hd hi (by rw [hx]; rfl) hne hP hoff
  | none =>
    obtain ⟨d1, heq, h1, ht1, hd1, hx1⟩ := h.alloc hd hx
    simp only [Option.isSome_none, Bool.false_eq_true, if_false, heq]
    refine (h1.mapEntry hd1 hi hx1 hne hP (by rw [ht1.cfg]; exact hoff)).mono ?_ fun _ _ h => h
    rintro d' ⟨hnone, hr, ht, hd'⟩
    exact ⟨hnone, hr, ht1.trans ht, hd'⟩

theorem RangeForm.release (hinv : d.invalidPageDma < 2 ^ 36)
    (hz : (d.desc (8 * k)).count = 0) (ho : ∀ i < 32768, beside own m (32768 * k + i) = none) :
    RangeForm (rgtlbFreePage d k) own k m b e ∧ Touches d (rgtlbFreePage d k) k := by
  unfold rgtlbFreePage freePage
  have ht : Touches d (d.set k [(ptNextLvAddr 0, d.invalidPageDma)]) k :=
    Touches.set fun p hp => by rw [mem_singleton.mp hp]; exact Nat.zero_lt_succ 7
  refine ⟨h.replace rfl (fun f hf => ?_) (fun j h0 _ => setDesc_ne (by omega)) (fun _ _ => Iff.rfl) ?_,
    ht.trans (Touches.setDesc (by omega))⟩
  · rw [setDesc_get]
    exact set_get_apart fun p hp => by rw [mem_singleton.mp hp]; exact (rangeFields_apart f hf).1
  · rw [setDesc_get, Nat.add_zero, setDesc_self]
    have hget : (d.set k [(ptNextLvAddr 0, d.invalidPageDma)]).get k rgNextLvAddr = d.invalidPageDma :=
      (set_get (pairwise_singleton ..) mem_cons_self).trans (Nat.mod_eq_of_lt hinv)
    rw [hget]
    exact .free rfl hz ho

theorem RangeForm.unmapPage (hd : DmaOk d)
    (hinv : d.invalidPageDma < 2 ^ 36) (hi : idx < 32768) (hP : own (32768 * k + idx) ≠ some m)
    (hused : own (32768 * k + idx) ≠ none) :
    ∃ d', rgtlbUnmapToPage d k idx = (none, d') ∧ RangeForm d' (cut own (32768 * k + idx)) k m b e ∧
      Touches d d' k ∧ DmaOk d' := by
  rw [← beside_of_ne hP] at hused
  obtain ⟨page, hp⟩ := h.page.not_free hi hused
  obtain ⟨x, hcode, hrep, hzero⟩ := unmapToPage_spec h.page hp hi (by omega) hused (rgtlbFreePage · k)
  have h1 : RangeForm (d.setDesc (8 * k) x) (cut own (32768 * k + idx)) k m b e := by
    refine h.replace rfl (fun _ _ => rfl) (fun j h0 _ => setDesc_ne (by omega)) (fun i _ => ?_) ?_
    · unfold cut
      split
      · next heq =>
        rw [heq]
        exact ⟨nofun, fun hc => absurd hc hP⟩
      · rfl
    · rw [setDesc_self, beside_cut hP]
      exact hrep
  have ht1 : Touches d (d.setDesc (8 * k) x) k := Touches.setDesc (by omega)
  unfold rgtlbUnmapToPage
  rw [hcode]
  split
  · next hz =>
    have hrel := h1.release hinv (by rw [setDesc_self]; exact hz) (by rw [beside_cut hP]; exact hzero hz)
    exact ⟨_, rfl, hrel.1, ht1.trans hrel.2, hd⟩
  · exact ⟨_, rfl, h1, ht1, hd⟩

end Range

end UbDkms.Decoder

import UbDkms.Decoder.Step

/-!
# Opening and closing a range

A map opens a range over the rest of an empty slot or over its own rest,
whichever ends first; an unmap closes it and gives the pages beside it back to
eight page tables.
-/

namespace UbDkms.Decoder

open Lib List

variable {d d' : UbDecoder} {own : Nat → Option MapInfo} {k b e : Nat} {m : MapInfo}

/-! ## Opening -/

def paint (own : Nat → Option MapInfo) (lo hi : Nat) (m : MapInfo) (Q : Nat) : Option MapInfo :=
  if lo ≤ Q ∧ Q ≤ hi then some m else own Q

variable {n : Nat}

theorem rangeLimit_eq {c : DecoderCfg} (h : Placed c m) (hn : n < m.pages)
    (hb : (m.first c + n) % 32768 = b) :
    rangeLimit c m (n * sz1M) = min 32767 (b + (m.pages - n) - 1) := by
  have hidx := (h.index hn).2.1
  have hrel := (rel_div h (Nat.le_refl m.pages)).1
  have hsize : m.size.toNat = m.pages * sz1M := by
    have := h.sized
    rw [MapInfo.pages]
    exact (Nat.div_mul_cancel (Nat.dvd_of_mod_eq_zero this)).symm
  unfold rangeLimit
  simp only [hidx, hb, hsize, memLmtMax]
  rw [← Nat.sub_mul]
  split
  · next hle =>
    have := Nat.le_of_mul_le_mul_right hle (by decide)
    omega
  next hlt =>
  have : ¬32767 - b + 1 ≤ m.pages - n := fun hle => hlt (Nat.mul_le_mul_right _ hle)
  rw [getRgtlbAddr, hrel]
  omega

section Entry

variable {c : DecoderCfg} {off : Nat}

def rangeEntryFields : List Field :=
  [rgEntryType, rgNextLvAddr, rgPageTableAttr, rgTokenVld, rgMemBase, rgMemLimit, rgUbAddr, rgTpgNum,
    rgOrderId, rgOrderType, rgDstEidLow, rgDstEidHigh, rgTokenId, rgTokenValue, rgUpi, rgSrcEid]

theorem rangeEntry_fields : (rangeEntry c m off b e).map Prod.fst = rangeEntryFields := rfl

theorem rangeEntry_apart : (rangeEntry c m off b e).Pairwise fun p q => q.1.Apart p.1 := by
  have h : rangeEntryFields.Pairwise fun f g => g.Apart f := by decide
  exact pairwise_map.mp (rangeEntry_fields ▸ h)

theorem rangeEntry_word {p : Field × Nat} (hp : p ∈ rangeEntry c m off b e) : p.1.word < 8 := by
  have h : ∀ f ∈ rangeEntryFields, f.word < 8 := by decide
  exact h p.1 (rangeEntry_fields ▸ mem_map_of_mem hp)

theorem rangeEntry_get {f : Field} {v : Nat} (hm : (f, v) ∈ rangeEntry c m off b e)
    (hv : v < 2 ^ f.width) : (d.set k (rangeEntry c m off b e)).get k f = v :=
  (set_get rangeEntry_apart hm).trans (Nat.mod_eq_of_lt hv)

end Entry

theorem rangeUba_lt {x : Nat} (h : x < 2 ^ 64) : rangeUba x / 2 ^ 12 < 2 ^ 52 := by
  unfold rangeUba
  omega

theorem PageForm.free (h : PageForm d own k)
    (hnext : ∀ j < 8, d.get k (ptNextLvAddr j) = d.invalidPageDma) :
    ∀ i < 32768, own (32768 * k + i) = none := fun i hi => by
  have hj : i / 4096 < 8 := by omega
  have hx := (h.sub _ hj).null.mpr (hnext _ hj)
  have := ((h.sub _ hj).empty hx).2 (i % 4096) (by omega)
  rwa [show 32768 * k + 4096 * (i / 4096) + i % 4096 = 32768 * k + i by omega] at this

theorem PageForm.open (h : PageForm d own k) (hinv : d.invalidPageDma < 2 ^ 36)
    (hnext : ∀ j < 8, d.get k (ptNextLvAddr j) = d.invalidPageDma) (hm : Placed d.toDecoderCfg m)
    (hn : n < m.pages) (hP : m.first d.toDecoderCfg + n = 32768 * k + b) (hb : b < 32768)
    (hstart : n = 0 ∨ b = 0) :
    ∃ d', fillRangeTable d k m (n * sz1M) =
        ((n + (min 32767 (b + (m.pages - n) - 1) - b + 1)) * sz1M, d') ∧
      RangeForm d' (paint own (32768 * k + b) (32768 * k + min 32767 (b + (m.pages - n) - 1)) m) k m
        b (min 32767 (b + (m.pages - n) - 1)) ∧ Touches d d' k ∧ d'.dma = d.dma := by
  have hbase : getRgtlbAddr d.toDecoderCfg (m.pa.toNat + n * sz1M) = b := by
    rw [(hm.index hn).2.1]; omega
  have hlim := rangeLimit_eq hm hn (b := b) (by omega)
  have hfree := h.free hnext
  have hnone : ∀ j < 8, (d.desc (8 * k + j)).pageBase = none ∧ (d.desc (8 * k + j)).count = 0 :=
    fun j hj => by
      have hx := (h.sub j hj).null.mpr (hnext j hj)
      exact ⟨hx, ((h.sub j hj).empty hx).1⟩
  unfold fillRangeTable
  simp only [hbase, hlim]
  generalize he : min 32767 (b + (m.pages - n) - 1) = e
  have hle : b ≤ e := by omega
  have hlt : e < 32768 := by omega
  have hpaint : ∀ i < 32768, paint own (32768 * k + b) (32768 * k + e) m (32768 * k + i) =
      if b ≤ i ∧ i ≤ e then some m else none := fun i hi => by
    unfold paint
    rw [hfree i hi]
    simp only [Nat.add_le_add_iff_left]
  refine ⟨d.set k (rangeEntry d.toDecoderCfg m (n * sz1M) b e), by rw [Nat.add_mul n], ⟨?_, ?_, ?_, hle,
    hlt, fun i hi => ?_, fun i hi => ?_, ?_, ?_, ?_, ?_, ?_, ?_, ?_, ?_, ?_, fun j _ hj => hnone j hj⟩,
    Touches.set fun _ => rangeEntry_word, rfl⟩
  · exact rangeEntry_get (by simp [rangeEntry]) (by decide)
  · exact rangeEntry_get (by simp [rangeEntry]) hb
  · exact rangeEntry_get (by simp [rangeEntry]) hlt
  · rw [hpaint i hi]; split <;> simp_all
  · show m.first d.toDecoderCfg ≤ _ ∧ _ < m.first d.toDecoderCfg + m.pages ↔ _
    omega
  · rw [rangeEntry_get (v := rangeUba ((m.uba.toNat + n * sz1M) % 2 ^ 64) / 2 ^ 12)
      (by simp [rangeEntry]) (rangeUba_lt (Nat.mod_lt _ (by decide)))]
    show _ = rangeUba ((m.uba.toNat + (32768 * k + b - m.first d.toDecoderCfg) * sz1M) % 2 ^ 64) / _
    rw [← hP, Nat.add_sub_cancel_left]
  · exact set_get rangeEntry_apart (by simp [rangeEntry])
  · exact rangeEntry_get (by simp [rangeEntry]) m.eidLow.toNat_lt
  · exact rangeEntry_get (by simp [rangeEntry]) m.eidHigh.toNat_lt
  · exact set_get rangeEntry_apart (by simp [rangeEntry])
  · exact rangeEntry_get (by simp [rangeEntry]) m.tokenValue.toNat_lt
  · exact set_get rangeEntry_apart (by simp [rangeEntry])
  · exact set_get rangeEntry_apart (by simp [rangeEntry])
  · rw [set_desc, rangeEntry_get (v := d.invalidPageDma) (by simp [rangeEntry]) hinv]
    refine .free (hnone 0 (by omega)).1 (hnone 0 (by omega)).2 fun i hi => ?_
    rw [beside, hpaint i hi]
    split <;> simp_all

/-! ## Closing -/

def emptyEntriesFields : List Field :=
  (List.range rgtlbToPgtlb).flatMap fun i => [ptEntryType i, ptNextLvAddr i, ptPgtlbAttr i]

theorem emptyEntries_fields (v : Nat) : (emptyEntries v).map Prod.fst = emptyEntriesFields := rfl

theorem emptyEntries_apart (v : Nat) : (emptyEntries v).Pairwise fun p q => q.1.Apart p.1 := by
  have h : emptyEntriesFields.Pairwise fun f g => g.Apart f := by decide
  exact pairwise_map.mp (emptyEntries_fields v ▸ h)

theorem mem_emptyEntries {p : Field × Nat} {v : Nat} : p ∈ emptyEntries v ↔ ∃ j < 8,
    p = (ptEntryType j, EntryType.pageTable.code) ∨ p = (ptNextLvAddr j, v) ∨
      p = (ptPgtlbAttr j, pgtlbAttrDefault) := by
  simp [emptyEntries, rgtlbToPgtlb]

/-- The slot while its second-level page is being split: the first `i` page tables are done. -/
structure Splitting (d₀ d : UbDecoder) (own : Nat → Option MapInfo) (k i : Nat) : Prop where
  touches : Touches d₀ d k
  dma : DmaOk d
  type : d.get k rgEntryType = EntryType.pageTable.code
  done : ∀ j < i, j < 8 → DescRep d.toDecoderCfg (d.desc (8 * k + j)) (d.get k (ptNextLvAddr j)) 4096
    own (32768 * k + 4096 * j)
  todo : ∀ j, i ≤ j → j < 8 → (d.desc (8 * k + j)).pageBase = none ∧
    (d.desc (8 * k + j)).count = 0 ∧ d.get k (ptNextLvAddr j) = d.invalidPageDma

variable {d₀ : UbDecoder}

theorem Splitting.pageForm (h : Splitting d₀ d own k 8) : PageForm d own k :=
  ⟨h.type, fun j hj => h.done j hj hj⟩

variable {i : Nat}

theorem Splitting.skip (h : Splitting d₀ d own k i) (hi : i < 8)
    (ho : ∀ r < 4096, own (32768 * k + 4096 * i + r) = none) : Splitting d₀ d own k (i + 1) := by
  refine ⟨h.touches, h.dma, h.type, fun j hj hj8 => ?_, fun j hj => h.todo j (by omega)⟩
  rcases Nat.lt_succ_iff_lt_or_eq.mp hj with hlt | rfl
  · exact h.done j hlt hj8
  obtain ⟨h1, h2, h3⟩ := h.todo j (Nat.le_refl j) hi
  rw [h3]
  exact .free h1 h2 ho

variable {rgBase : Nat → PageEntry}

theorem DescRep.copied {c : DecoderCfg} {P0 r0 dma : Nat}
    (hne : pageNo dma ≠ c.invalidPageDma)
    (hrg : ∀ r < n, EntryRep c (P0 + r) (rgBase (r0 + r)) (own (P0 + r))) :
    DescRep c ⟨some fun r => if (rgBase (r0 + r)).isPage ∧ r < n then rgBase (r0 + r) else {}, dma,
      Nat.count (fun r => (rgBase (r0 + r)).isPage) n⟩ (pageNo dma) n own P0 := by
  refine ⟨⟨nofun, fun hc => absurd hc hne⟩, nofun, fun page hp => ?_⟩
  obtain rfl := Option.some.inj hp
  refine ⟨count_congr_lt fun r hr => ?_, fun r hr => ?_⟩
  · simp only
    cases hpg : (rgBase (r0 + r)).isPage with
    | true => rw [if_pos ⟨rfl, hr⟩, hpg]
    | false => rw [if_neg (fun hc => nomatch hc.1)]; rfl
  have hent := hrg r hr
  have hpg := hent.isPage
  cases ho : own (P0 + r) with
  | none =>
    rw [ho] at hpg
    simp only [hpg, Option.isSome_none, Bool.false_eq_true, false_and, if_false]
    rfl
  | some m =>
    rw [ho] at hpg hent
    simp only [hpg, Option.isSome_some, hr, and_self, if_true]
    exact hent

/-- A page table with a page in use gets a page of its own. -/
theorem Splitting.copy
    (h : Splitting d₀ d own k i) (hi : i < 8)
    (hrg : ∀ r < 32768, EntryRep d.toDecoderCfg (32768 * k + r) (rgBase r) (own (32768 * k + r))) :
    ∃ d', copyRgToPg d k rgBase i = (none, d') ∧ Splitting d₀ d' own k (i + 1) := by
  obtain ⟨dma, hne, hd', heq⟩ := allocPage_eq (k := k) (j := i) h.dma
    [(ptEntryType i, EntryType.pageTable.code)]
    (fun r => if (rgBase (i * 4096 + r)).isPage ∧ r < 4096 then rgBase (i * 4096 + r) else {})
    (Nat.count (fun r => (rgBase (i * 4096 + r)).isPage) 4096)
  have hw := EntryWrite.alloc i (pageNo dma) pgtlbAttrDefault
  refine ⟨_, heq, ?_, hd', hw.get_type h.type, fun j hj hj8 => ?_, fun j hj hj8 => ?_⟩
  · exact h.touches.trans ((Touches.alloc.trans (Touches.setDesc (by omega))).trans (hw.touches hi))
  · rcases Nat.lt_succ_iff_lt_or_eq.mp hj with hlt | rfl
    · rw [set_desc, setDesc_ne (by omega), cons_append, nil_append,
        hw.get_other (show (ptNextLvAddr j).word ≠ i from Nat.ne_of_lt hlt)]
      exact h.done j hlt hj8
    rw [set_desc, setDesc_self, cons_append, nil_append, hw.get_next (pageNo_lt dma)]
    refine .copied hne fun r hr => ?_
    have := hrg (j * 4096 + r) (by omega)
    rwa [show 32768 * k + (j * 4096 + r) = 32768 * k + 4096 * j + r by omega] at this
  · rw [set_desc, setDesc_ne (by omega), cons_append, nil_append,
      hw.get_other (show (ptNextLvAddr j).word ≠ i by simp only [ptNextLvAddr]; omega)]
    exact h.todo j (by omega) hj8

theorem rgPageUsed_false {r : Nat} (h : rgPageUsed rgBase i = false)
    (hr : r < 4096) : (rgBase (i * 4096 + r)).entryType = .invalidEntry := by
  unfold rgPageUsed at h
  by_contra hc
  exact any_eq_false.mp h r (mem_range.mpr hr) (decide_eq_true hc)

theorem Splitting.step
    (h : Splitting d₀ d own k i)
    (hrg : ∀ r < 32768, EntryRep d₀.toDecoderCfg (32768 * k + r) (rgBase r) (own (32768 * k + r)))
    (hi : i < 8) :
    Outcome (splitRgPage k rgBase i d) (fun d' => Splitting d₀ d' own k (i + 1)) fun _ _ => False := by
  unfold splitRgPage
  cases hused : rgPageUsed rgBase i with
  | true =>
    obtain ⟨d', heq, h'⟩ := h.copy hi (by rw [h.touches.cfg]; exact hrg)
    rw [if_pos rfl, heq]
    exact h'
  | false =>
    refine h.skip hi fun r hr => ?_
    have hent := hrg (i * 4096 + r) (by omega)
    rw [show 32768 * k + (i * 4096 + r) = 32768 * k + 4096 * i + r by omega] at hent
    exact hent.invalid_iff.mp (rgPageUsed_false hused hr)

theorem RangeForm.close (h : RangeForm d own k m b e) (hd : DmaOk d)
    (hinv : d.invalidPageDma < 2 ^ 36) :
    ∃ d', rgtlbUnmapToRange d k = (none, d') ∧ PageForm d' (beside own m) k ∧ Touches d d' k ∧
      DmaOk d' := by
  unfold rgtlbUnmapToRange
  have ht : Touches d ((d.set k [(rgTokenValue, 0)]).set k (emptyEntries d.invalidPageDma)) k := by
    refine (Touches.set fun p hp => ?_).trans (Touches.set fun p hp => ?_)
    · rw [mem_singleton.mp hp]; decide
    · obtain ⟨j, hj, rfl | rfl | rfl⟩ := mem_emptyEntries.mp hp <;> exact hj
  have htype : ((d.set k [(rgTokenValue, 0)]).set k (emptyEntries d.invalidPageDma)).get k
      rgEntryType = EntryType.pageTable.code :=
    set_get (emptyEntries_apart _) (mem_emptyEntries.mpr ⟨0, by omega, .inl rfl⟩)
  have hnext : ∀ j < 8, ((d.set k [(rgTokenValue, 0)]).set k (emptyEntries d.invalidPageDma)).get k
      (ptNextLvAddr j) = d.invalidPageDma := fun j hj =>
    (set_get (emptyEntries_apart _) (mem_emptyEntries.mpr ⟨j, hj, .inr (.inl rfl)⟩)).trans
      (Nat.mod_eq_of_lt hinv)
  have hdesc : ((d.set k [(rgTokenValue, 0)]).set k (emptyEntries d.invalidPageDma)).desc = d.desc := rfl
  have hd1 : DmaOk ((d.set k [(rgTokenValue, 0)]).set k (emptyEntries d.invalidPageDma)) := hd
  generalize (d.set k [(rgTokenValue, 0)]).set k (emptyEntries d.invalidPageDma) = d1 at *
  simp only [hdesc]
  cases hx : (d.desc (8 * k)).pageBase with
  | none =>
    have hall : ∀ j < 8, (d1.desc (8 * k + j)).pageBase = none ∧ (d1.desc (8 * k + j)).count = 0 :=
      fun j hj => by
        rw [hdesc]
        rcases Nat.eq_zero_or_pos j with rfl | h0
        · exact ⟨hx, (h.page.empty hx).1⟩
        · exact h.rest j h0 hj
    refine ⟨d1, rfl, ⟨htype, fun j hj => ?_⟩, ht, hd1⟩
    rw [hnext j hj, ← ht.cfg]
    refine .free (hall j hj).1 (hall j hj).2 fun i hi => ?_
    rw [Nat.add_assoc]
    exact (h.page.empty hx).2 _ (by omega)
  | some rgBase =>
    have hrg := (h.page.full rgBase hx).2
    have hinv1 : d1.invalidPageDma = d.invalidPageDma := congrArg DecoderCfg.invalidPageDma ht.cfg
    have h0 : Splitting d (d1.setDesc (8 * k) {}) (beside own m) k 0 := by
      refine ⟨ht.trans (Touches.setDesc (by omega)), hd1, htype, fun j hj => absurd hj (by omega),
        fun j _ hj => ?_⟩
      rcases Nat.eq_zero_or_pos j with rfl | hj0
      · exact ⟨by rw [Nat.add_zero, setDesc_self], by rw [Nat.add_zero, setDesc_self],
          (hnext 0 hj).trans hinv1.symm⟩
      · rw [setDesc_ne (by omega), hdesc]
        exact ⟨(h.rest j hj0 hj).1, (h.rest j hj0 hj).2, (hnext j hj).trans hinv1.symm⟩
    have hstep : ∀ i s, 0 ≤ i → i < 0 + 8 → Splitting d s (beside own m) k i →
        Outcome (splitRgPage k rgBase i s) (Splitting d · (beside own m) k (i + 1)) fun _ _ => False :=
      fun i s _ hi hs => hs.step hrg (by omega)
    have hloop := forRange_outcome (I := fun i s => Splitting d s (beside own m) k i) h0 hstep
    simp only [rgtlbToPgtlb]
    generalize forRange (splitRgPage k rgBase) 0 8 (d1.setDesc (8 * k) {}) = r at hloop ⊢
    rcases r with ⟨_ | er, d2⟩
    · exact ⟨d2, rfl, hloop.pageForm, hloop.touches, hloop.dma⟩
    · exact hloop.elim

end UbDkms.Decoder

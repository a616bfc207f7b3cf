import UbDkms.Obmm.UpdateRange

/-!
# Accesses to the ownership table

The table has the size for the granularity of the `mmap` that allocated it; a failed
`mmap` takes the granularity back and leaves the table. `calls` lists the calls of
`update_vma_perm_count` that an operation makes, each with its VMA and the region as the
call leaves it. No call changes the size of the table.
-/

namespace UbDkms.Obmm

open Lib List
open scoped List

/-- Every entry that `update_vma_perm_count` touches for the VMA is in the table. -/
def Reg.InBounds (reg : Reg) (v : Vma) : Prop :=
  ∀ t, reg.ownership = some t → ∀ i < reg.ownershipSizeToNentries v.npages,
    reg.ownershipPgoffToIndex v.pgoff + i < t.length

namespace Reg

/-- The calls of the loop of `obmm_shm_update_range`, as `updateVmas` goes through it. -/
def updateCalls (u : UpdateRange) (f : Faults) : Nat → Reg → Nat → List Vma → List (Reg × Vma)
  | _, _, _, [] => []
  | k, reg, cursor, v :: l =>
    if u.stop ≤ cursor then []
    else if v.stop ≤ cursor then updateCalls u f (k + 1) reg cursor l
    else if u.stop ≤ v.start then []
    else
      let t := reg.updateVma u f k cursor v
      (if t.modified then [(t.reg, t.vma)] else []) ++
        if t.ret ≠ 0 then [] else updateCalls u f (k + 1) t.reg t.vma.stop l

def rollbackCalls (u : UpdateRange) (modifiedEnd : Nat) : Reg → Nat → List Vma → List (Reg × Vma)
  | _, _, [] => []
  | reg, cursor, v :: l =>
    if modifiedEnd ≤ cursor then []
    else if v.stop ≤ cursor then rollbackCalls u modifiedEnd reg cursor l
    else if cursor < v.start then []
    else
      let r := reg.restoreVma u v
      r :: rollbackCalls u modifiedEnd r.1 r.2.stop l

def updateRangeCalls (reg : Reg) (file : ShmFile) (u : UpdateRange) (f : Faults)
    (vmas : List Vma) : List (Reg × Vma) :=
  if reg.updateCheck file u ≠ 0 then []
  else
    let w := updateVmas u f 0 reg u.start u.start vmas
    updateCalls u f 0 reg u.start vmas ++
      if walkRet u w = 0 then [] else rollbackCalls u w.modifiedEnd w.reg u.start w.vmas

end Reg

def Mapping.calls (s : Mapping) : MapAct → List (Reg × Vma)
  | .mmap n a =>
    match s.spaces[n]? with
    | none => []
    | some l =>
      let r := s.reg.fopsMmap a
      if free a.vma l ∧ r.2 = 0 ∧ r.1.mode = .normal then [(r.1, a.vma)] else []
  | .unmap n i _ =>
    match s.spaces[n]? with
    | none => []
    | some l => (l[i]?).toList.filter (·.owned) |>.map (s.reg, ·)
  | .update n file u f =>
    match s.spaces[n]? with
    | none => []
    | some l => s.reg.updateRangeCalls file u f l
  | _ => []

section Calls

variable {reg : Reg} {o l : List Vma} {v : Vma} {u : UpdateRange} {f : Faults} {k c e : Nat}

theorem Exact.inBounds (h : Exact reg l) (hv : v ∈ l) (ho : v.owned) : reg.InBounds v := by
  intro t ht i hi
  have hf := h.fits v hv ho
  have hlen := h.sized hf.granu t ht
  have hfits := hf.whole.fits
  omega

theorem Exact.updateCalls (h : Exact reg (o ++ l)) (hm : reg.mode ≠ .osync) :
    ∀ x ∈ Reg.updateCalls u f k reg c l, x.1.InBounds x.2 := by
  induction l generalizing k reg c o with
  | nil => simp [Reg.updateCalls]
  | cons v l ih =>
    unfold Reg.updateCalls
    split
    · simp
    next hc =>
    split
    · exact ih (o := o ++ [v]) (by simpa using h) hm
    next hstop =>
    split
    · simp
    have ht := Turned.updateVma (u := u) (f := f) (k := k) (h.perm perm_middle) hm
      (not_le.mp hstop) (not_le.mp hc)
    generalize reg.updateVma u f k c v = t at ht ⊢
    intro x hx
    rcases mem_append.mp hx with hx | hx
    · split at hx
      · next hmod =>
        obtain rfl := mem_singleton.mp hx
        exact ht.place.inBounds (by simp) (ht.modified hmod).2.2.owned
      · cases hx
    split at hx
    · cases hx
    next hret =>
    obtain ⟨hmode, hex⟩ := ht.goes_on (not_not.mp hret)
    exact ih hex hmode x hx

theorem Exact.rollbackCalls (h : Exact reg (o ++ l)) (ht : Trail u c e l) :
    ∀ x ∈ Reg.rollbackCalls u e reg c l, x.1.InBounds x.2 := by
  induction ht generalizing reg o with
  | stop c l =>
    cases l with
    | nil => simp [Reg.rollbackCalls]
    | cons v l => unfold Reg.rollbackCalls; rw [if_pos le_rfl]; simp
  | @skip c e v l hskip _ ih =>
    unfold Reg.rollbackCalls
    split
    · simp
    exact ih (o := o ++ [v]) (by simpa using h)
  | @turn c e v l h1 h2 h3 _ ih =>
    unfold Reg.rollbackCalls
    split
    · simp
    rw [if_neg (not_le.mpr h2), if_neg (not_lt.mpr h1)]
    have hr := (h.perm perm_middle).restoreVma h3
    intro x hx
    rcases mem_cons.mp hx with rfl | hx
    · exact hr.inBounds mem_cons_self h3.owned
    · exact ih (o := o ++ [(reg.restoreVma u v).2])
        (hr.perm (perm_middle.symm.trans (.of_eq (by simp)))) x hx

end Calls

namespace Mapping

variable {s : Mapping} {a : MapAct}

theorem Counted.calls (h : s.Counted) (ha : s.Countable a) :
    ∀ x ∈ s.begin.calls a, x.1.InBounds x.2 := by
  have hbeg : Exact s.begin.reg s.begin.spaces.flatten := h.exact.ghost _ _
  obtain ⟨hb, -, hk⟩ := ha
  intro x hx
  cases a with
  | spawn | other _ _ _ | split _ _ _ _ => cases hx
  | mmap n a =>
    dsimp only [calls] at hx
    split at hx
    · cases hx
    next l hl =>
    split at hx
    · next hc =>
      obtain rfl := mem_singleton.mp hx
      exact ((exact_fopsMmap hbeg a hk hb hl hc.1).1 hc.2.1).1.inBounds mem_cons_self rfl
    · cases hx
  | unmap n i fails =>
    dsimp only [calls] at hx
    split at hx
    · cases hx
    next l hl =>
    obtain ⟨v, hv, rfl⟩ := mem_map.mp hx
    obtain ⟨hv, ho⟩ := mem_filter.mp hv
    refine hbeg.inBounds (mem_flatten.mpr ⟨l, mem_of_getElem? hl, ?_⟩) ho
    exact mem_of_getElem? (Option.mem_toList.mp hv)
  | update n file u f =>
    dsimp only [calls] at hx
    split at hx
    · cases hx
    next l hl =>
    obtain ⟨o, ho, -⟩ := flatten_space hl
    have he := hbeg.perm ho
    dsimp only [Reg.updateRangeCalls] at hx
    split at hx
    · cases hx
    rcases mem_append.mp hx with hx | hx
    · exact he.updateCalls hk x hx
    split at hx
    · cases hx
    have hw := he.updateVmas (u := u) (f := f) (k := 0) (c := u.start) hk
    exact hw.1.rollbackCalls hw.2 x hx

/-- In every run that maps the region only at the granularity the table was allocated for
and keeps the counters exact, every entry touched is in the table. -/
theorem calls_inBounds {memPages pmdShift : Nat}
    (hs : Reach Countable act (Mapping.init memPages pmdShift) s) (ha : s.Countable a) :
    ∀ x ∈ s.begin.calls a, x.1.InBounds x.2 :=
  (hs.invariant (Counted.init memPages pmdShift) fun _ _ hs ha => hs.act ha).calls ha

/-- A first `mmap` that writes to one page. -/
theorem calls_inBounds_mapped :
    (([MapAct.spawn].foldl act (Mapping.init 512 9)).begin.calls
      (.mmap 0 { start := 0, stop := 1, flags := { write := true } })).length = 1 ∧
    ∀ x ∈ ([MapAct.spawn].foldl act (Mapping.init 512 9)).begin.calls
      (.mmap 0 { start := 0, stop := 1, flags := { write := true } }), x.1.InBounds x.2 := by
  refine ⟨by decide +kernel, calls_inBounds (Reach.init.along ⟨⟨fun p => ?_, by decide +kernel,
    trivial⟩, trivial⟩) ⟨fun p => ?_, by decide +kernel, nofun⟩⟩
  · exact Nat.zero_lt_succ _
  · have h : (Vma.counted { start := 0, stop := 1, flags := { write := true } } p).toNat + 0 ≤ 1 :=
      Bool.toNat_le _
    exact Nat.lt_of_le_of_lt h (by decide)

/-- After an `mmap` of a huge page that could not be mapped, the table has one entry, and an
`mmap` of two pages counts in the second. -/
theorem failed_mmap_outOfBounds : ∃ s a, Reach (fun _ _ => True) act (Mapping.init 512 9) s ∧
    ∃ x ∈ s.begin.calls a, ¬ x.1.InBounds x.2 := by
  refine ⟨[.spawn, .mmap 0 { start := 0, stop := 512, pmd := true, mapFails := true }].foldl act
    (Mapping.init 512 9), .mmap 0 { start := 0, stop := 2 }, .foldl _, _, mem_cons_self, ?_⟩
  exact fun h => absurd (h _ rfl 1 (by decide +kernel)) (by decide +kernel)

end Mapping

end UbDkms.Obmm

import Mathlib.Data.List.Nodup
import Mathlib.Tactic

/-!
# Lists of entries under keys

A linked list of entries that is searched by key. `onKey f x` changes or removes the
entry the search for `x` finds, `sweep f` changes or removes every entry.
-/

namespace UbDkms.Lib

variable {κ ν : Type} [DecidableEq κ] {l : List (κ × ν)} {x y : κ} {v : ν}

abbrev keys (l : List (κ × ν)) : List κ := l.map Prod.fst

/-- Change the first entry under `x`, or remove it for `none`. -/
def onKey (f : ν → Option ν) (x : κ) : List (κ × ν) → List (κ × ν)
  | [] => []
  | e :: l =>
    if e.1 = x then
      match f e.2 with
      | some v => (e.1, v) :: l
      | none => l
    else e :: onKey f x l

def sweep (f : κ → ν → Option ν) (l : List (κ × ν)) : List (κ × ν) :=
  l.filterMap fun e => (f e.1 e.2).map (e.1, ·)

theorem lookup_eq_none : l.lookup x = none ↔ x ∉ keys l := by
  rw [List.lookup_eq_none_iff]
  simp only [keys, List.mem_map, not_exists, not_and, bne_iff_ne]
  exact ⟨fun h e he hx => h e he hx.symm, fun h e he hx => h e he hx.symm⟩

theorem mem_of_lookup (h : l.lookup x = some v) : (x, v) ∈ l := by
  induction l with
  | nil => cases h
  | cons e l ih =>
    rw [List.lookup_cons] at h
    split at h
    · next hx =>
      rw [beq_iff_eq] at hx
      cases h
      rw [hx]
      exact List.mem_cons_self
    · exact List.mem_cons_of_mem _ (ih h)

theorem lookup_of_mem (hn : (keys l).Nodup) (h : (x, v) ∈ l) : l.lookup x = some v := by
  induction l with
  | nil => cases h
  | cons e l ih =>
    have hn := List.nodup_cons.mp hn
    rw [List.lookup_cons]
    rcases List.mem_cons.mp h with rfl | h
    · simp
    have hne : x ≠ e.1 := fun he => hn.1 (he ▸ List.mem_map.mpr ⟨_, h, rfl⟩)
    rw [beq_eq_false_iff_ne.mpr hne]
    exact ih hn.2 h

theorem lookup_push : (l ++ [(x, v)]).lookup y = (l.lookup y).or (if y = x then some v else none) := by
  rw [List.lookup_append, List.lookup_cons, List.lookup_nil]
  by_cases h : y = x
  · simp [h]
  · simp [h, beq_eq_false_iff_ne.mpr h]

theorem keys_push (hn : (keys l).Nodup) (hx : l.lookup x = none) : (keys (l ++ [(x, v)])).Nodup := by
  rw [keys, List.map_append, List.nodup_append]
  refine ⟨hn, List.nodup_singleton _, fun a ha b hb he => ?_⟩
  simp only [List.map_cons, List.map_nil, List.mem_singleton] at hb
  exact lookup_eq_none.mp hx (hb ▸ he ▸ ha)

theorem onKey_sublist (f : ν → Option ν) (x : κ) (l : List (κ × ν)) :
    (keys (onKey f x l)).Sublist (keys l) := by
  induction l with
  | nil => exact .slnil
  | cons e l ih =>
    unfold onKey
    split
    · split
      · exact .refl _
      · exact .cons _ (.refl _)
    · exact ih.cons_cons _

theorem keys_onKey (f : ν → Option ν) (x : κ) (hn : (keys l).Nodup) : (keys (onKey f x l)).Nodup :=
  hn.sublist (onKey_sublist f x l)

theorem lookup_onKey (f : ν → Option ν) (hn : (keys l).Nodup) :
    (onKey f x l).lookup y = if y = x then (l.lookup x).bind f else l.lookup y := by
  induction l with
  | nil => simp [onKey]
  | cons e l ih =>
    have hn := List.nodup_cons.mp hn
    unfold onKey
    by_cases hx : e.1 = x
    · subst hx
      rw [if_pos rfl, List.lookup_cons_self]
      by_cases hy : y = e.1
      · subst hy
        rw [if_pos rfl, Option.bind_some]
        split
        · next v h => rw [h, List.lookup_cons_self]
        · next h => rw [h, lookup_eq_none]; exact hn.1
      rw [if_neg hy, List.lookup_cons, beq_eq_false_iff_ne.mpr hy]
      split
      · rw [List.lookup_cons, beq_eq_false_iff_ne.mpr hy]
      · rfl
    · rw [if_neg hx, List.lookup_cons, List.lookup_cons, List.lookup_cons, ih hn.2,
        beq_eq_false_iff_ne.mpr (Ne.symm hx)]
      by_cases hy : y = e.1
      · subst hy
        rw [if_neg hx]
        simp [hx]
      · rw [beq_eq_false_iff_ne.mpr hy]

omit [DecidableEq κ] in
theorem sweep_sublist (f : κ → ν → Option ν) (l : List (κ × ν)) : (keys (sweep f l)).Sublist (keys l) := by
  induction l with
  | nil => exact .slnil
  | cons e l ih =>
    unfold sweep
    rw [List.filterMap_cons]
    split
    · exact ih.cons _
    next b hb =>
    obtain ⟨v, -, rfl⟩ := Option.map_eq_some_iff.mp hb
    exact ih.cons_cons _

theorem lookup_sweep (f : κ → ν → Option ν) (hn : (keys l).Nodup) :
    (sweep f l).lookup y = (l.lookup y).bind (f y) := by
  induction l with
  | nil => rfl
  | cons e l ih =>
    have hn := List.nodup_cons.mp hn
    have ih := ih hn.2
    have hs : sweep f (e :: l) = match f e.1 e.2 with
        | some v => (e.1, v) :: sweep f l
        | none => sweep f l := by
      unfold sweep
      rw [List.filterMap_cons]
      cases f e.1 e.2 <;> rfl
    rw [hs, List.lookup_cons]
    by_cases hy : y = e.1
    · subst hy
      simp only [BEq.rfl, Option.bind_some]
      split
      · next v h => rw [h, List.lookup_cons_self]
      next h =>
      rw [h, ih, lookup_eq_none.mpr hn.1]
      rfl
    rw [beq_eq_false_iff_ne.mpr hy]
    split
    · rw [List.lookup_cons, beq_eq_false_iff_ne.mpr hy]
      exact ih
    · exact ih

theorem lookup_iff (hn : (keys l).Nodup) : l.lookup x = some v ↔ (x, v) ∈ l :=
  ⟨mem_of_lookup, lookup_of_mem hn⟩

omit [DecidableEq κ] in
theorem keys_filter (q : ν → Bool) (hn : (keys l).Nodup) : (keys (l.filter fun e => q e.2)).Nodup :=
  hn.sublist (List.filter_sublist.map _)

theorem lookup_filter (q : ν → Bool) (hn : (keys l).Nodup) :
    (l.filter fun e => q e.2).lookup y = (l.lookup y).filter q := by
  ext v
  rw [lookup_iff (keys_filter q hn), List.mem_filter, Option.filter_eq_some_iff, lookup_iff hn]

theorem lookup_perm {l' : List (κ × ν)} (hp : l.Perm l') (hn : (keys l).Nodup) : l.lookup y = l'.lookup y := by
  ext v
  rw [lookup_iff hn, lookup_iff ((hp.map _).nodup_iff.mp hn), hp.mem_iff]

theorem lookup_middle {a b : List (κ × ν)} (hn : (keys (a ++ (x, v) :: b)).Nodup) :
    (a ++ (x, v) :: b).lookup y = if y = x then some v else (a ++ b).lookup y := by
  have hp : (a ++ (x, v) :: b).Perm ((x, v) :: (a ++ b)) := List.perm_middle
  rw [lookup_perm hp hn, List.lookup_cons]
  by_cases hy : y = x
  · simp [hy]
  · rw [beq_eq_false_iff_ne.mpr hy, if_neg hy]

/-- Search for `x`: change or remove its entry, or append one when there is none. -/
def alter (g : Option ν → Option ν) (x : κ) (l : List (κ × ν)) : List (κ × ν) :=
  match l.lookup x with
  | some _ => onKey (fun v => g (some v)) x l
  | none => match g none with
    | some v => l ++ [(x, v)]
    | none => l

theorem lookup_alter (g : Option ν → Option ν) (hn : (keys l).Nodup) :
    (alter g x l).lookup y = if y = x then g (l.lookup x) else l.lookup y := by
  unfold alter
  split
  · next v hv =>
    rw [lookup_onKey _ hn, hv]
    rfl
  next hv =>
  rw [hv]
  split
  · next v hg =>
    rw [lookup_push, hg]
    by_cases hy : y = x
    · rw [if_pos hy, if_pos hy, hy, hv]
      rfl
    · rw [if_neg hy, if_neg hy, Option.or_none]
  next hg =>
  rw [hg]
  by_cases hy : y = x
  · rw [if_pos hy, hy, hv]
  · rw [if_neg hy]

theorem keys_alter (g : Option ν → Option ν) (x : κ) (hn : (keys l).Nodup) : (keys (alter g x l)).Nodup := by
  unfold alter
  split
  · exact keys_onKey _ _ hn
  next hv =>
  split
  · exact keys_push hn hv
  · exact hn

/-- What the merge of an entry makes of another under the same key. -/
def mergeAt (g : ν → Option ν → Option ν) : Option ν → Option ν → Option ν
  | some v, o => g v o
  | none, o => o

/-- Merge the entries of another list, one after the other. -/
theorem lookup_merge (g : ν → Option ν → Option ν) {ns : List (κ × ν)} (hn : (keys l).Nodup)
    (hs : (keys ns).Nodup) :
    (keys (ns.foldl (fun l n => alter (g n.2) n.1 l) l)).Nodup ∧
    ∀ y, (ns.foldl (fun l n => alter (g n.2) n.1 l) l).lookup y =
      mergeAt g (ns.lookup y) (l.lookup y) := by
  induction ns generalizing l with
  | nil => exact ⟨hn, fun y => rfl⟩
  | cons n ns ih =>
    have hs := List.nodup_cons.mp hs
    obtain ⟨h1, h2⟩ := ih (keys_alter (g n.2) n.1 hn) hs.2
    refine ⟨h1, fun y => (h2 y).trans ?_⟩
    rw [lookup_alter _ hn, List.lookup_cons]
    by_cases hy : y = n.1
    · rw [hy, lookup_eq_none.mpr hs.1]
      simp [mergeAt]
    · rw [beq_eq_false_iff_ne.mpr hy, if_neg hy]

theorem onKey_of_not_mem (f : ν → Option ν) (hx : x ∉ keys l) : onKey f x l = l := by
  induction l with
  | nil => rfl
  | cons e l ih =>
    rw [keys, List.map_cons, List.mem_cons, not_or] at hx
    rw [onKey, if_neg (Ne.symm hx.1), ih hx.2]

/-- A change that gives the entry found back leaves the list as it is. -/
theorem onKey_self {f : ν → Option ν} (hv : l.lookup x = some v) (hf : f v = some v) : onKey f x l = l := by
  induction l with
  | nil => rfl
  | cons e l ih =>
    rw [List.lookup_cons] at hv
    by_cases hx : e.1 = x
    · subst hx
      rw [BEq.rfl] at hv
      cases hv
      rw [onKey, if_pos rfl, hf]
    · rw [beq_eq_false_iff_ne.mpr (Ne.symm hx)] at hv
      rw [onKey, if_neg hx, ih hv]

theorem onKey_onKey (f : ν → Option ν) (h : ν → ν) (x : κ) (l : List (κ × ν)) :
    onKey f x (onKey (fun v => some (h v)) x l) = onKey (fun v => f (h v)) x l := by
  induction l with
  | nil => rfl
  | cons e l ih =>
    by_cases hx : e.1 = x
    · simp [onKey, hx]
    · simp [onKey, hx, ih]

theorem keys_onKey_some (h : ν → ν) (x : κ) (l : List (κ × ν)) :
    keys (onKey (fun v => some (h v)) x l) = keys l := by
  induction l with
  | nil => rfl
  | cons e l ih =>
    by_cases hx : e.1 = x
    · simp [onKey, hx, keys]
    · simpa [onKey, hx, keys] using ih

theorem length_onKey_some (h : ν → ν) (x : κ) (l : List (κ × ν)) :
    (onKey (fun v => some (h v)) x l).length = l.length := by
  simpa [keys] using congrArg List.length (keys_onKey_some h x l)

theorem onKey_remove_push (hx : x ∉ keys l) : onKey (fun _ => none) x (l ++ [(x, v)]) = l := by
  induction l with
  | nil => simp [onKey]
  | cons e l ih =>
    rw [keys, List.map_cons, List.mem_cons, not_or] at hx
    rw [List.cons_append, onKey, if_neg (Ne.symm hx.1), ih hx.2]

theorem length_onKey_remove (hx : x ∈ keys l) : (onKey (fun _ => none) x l).length + 1 = l.length := by
  induction l with
  | nil => cases hx
  | cons e l ih =>
    by_cases he : e.1 = x
    · simp [onKey, he]
    · rw [keys, List.map_cons, List.mem_cons] at hx
      rw [onKey, if_neg he, List.length_cons, List.length_cons, ih (hx.resolve_left (Ne.symm he))]

end UbDkms.Lib

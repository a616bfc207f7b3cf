import Mathlib.Data.List.Basic

/-!
# Search trees with an arbitrary balance

A binary tree that is searched by a comparison and changed at the node found. How an
insertion or a removal rebalances the tree is left open: `Rebalance` is any change of
shape that keeps the order of the elements.
-/

namespace UbDkms.Lib

inductive SearchTree (α : Type) where
  | nil
  | node (l : SearchTree α) (x : α) (r : SearchTree α)
  deriving DecidableEq, Repr

namespace SearchTree

variable {α : Type} {t : SearchTree α} {x : α} {cmp : α → Ordering}

def toList : SearchTree α → List α
  | nil => []
  | node l x r => l.toList ++ x :: r.toList

/-- A change of shape. -/
structure Rebalance (α : Type) where
  run : SearchTree α → SearchTree α
  toList_run : ∀ t, (run t).toList = t.toList

def find (cmp : α → Ordering) : SearchTree α → Option α
  | nil => none
  | node l x r =>
    match cmp x with
    | .lt => l.find cmp
    | .eq => some x
    | .gt => r.find cmp

/-- Insert as a leaf, to the left of the elements that `x` is less than. -/
def insert (less : α → α → Bool) (x : α) : SearchTree α → SearchTree α
  | nil => node nil x nil
  | node l y r => if less x y then node (l.insert less x) y r else node l y (r.insert less x)

def modify (cmp : α → Ordering) (f : α → α) : SearchTree α → SearchTree α
  | nil => nil
  | node l x r =>
    match cmp x with
    | .lt => node (l.modify cmp f) x r
    | .eq => node l (f x) r
    | .gt => node l x (r.modify cmp f)

def join : SearchTree α → SearchTree α → SearchTree α
  | nil, r => r
  | node l x m, r => node l x (m.join r)

def erase (cmp : α → Ordering) : SearchTree α → SearchTree α
  | nil => nil
  | node l x r =>
    match cmp x with
    | .lt => node (l.erase cmp) x r
    | .eq => l.join r
    | .gt => node l x (r.erase cmp)

@[simp] theorem toList_nil : (nil : SearchTree α).toList = [] := rfl

@[simp] theorem toList_node (l : SearchTree α) (x : α) (r : SearchTree α) :
    (node l x r).toList = l.toList ++ x :: r.toList := rfl

@[simp] theorem toList_join (l r : SearchTree α) : (l.join r).toList = l.toList ++ r.toList := by
  induction l with
  | nil => rfl
  | node l x m _ ih => simp [join, ih]

/-- Where the element found stands, and what changes there. -/
theorem find_split (h : t.find cmp = some x) :
    cmp x = .eq ∧ ∃ l r, t.toList = l ++ x :: r ∧
      (∀ f, (t.modify cmp f).toList = l ++ f x :: r) ∧ (t.erase cmp).toList = l ++ r := by
  induction t with
  | nil => cases h
  | node l y r ihl ihr =>
    rw [find] at h
    split at h
    · rename_i hc
      obtain ⟨hx, a, b, ht, hm, he⟩ := ihl h
      exact ⟨hx, a, b ++ y :: r.toList, by simp [ht], fun f => by simp [modify, hc, hm f],
        by simp [erase, hc, he]⟩
    · rename_i hc
      cases h
      exact ⟨hc, l.toList, r.toList, rfl, fun f => by simp [modify, hc], by simp [erase, hc]⟩
    rename_i hc
    obtain ⟨hx, a, b, ht, hm, he⟩ := ihr h
    exact ⟨hx, l.toList ++ y :: a, b, by simp [ht], fun f => by simp [modify, hc, hm f],
      by simp [erase, hc, he]⟩

theorem mem_of_find (h : t.find cmp = some x) : x ∈ t.toList := by
  obtain ⟨-, l, r, ht, -, -⟩ := find_split h
  simp [ht]

/-- At neither of two elements in order does the search leave the other one behind. -/
def Guides (cmp : α → Ordering) (x y : α) : Prop :=
  (cmp y = .eq → cmp x ≠ .lt) ∧ (cmp x = .eq → cmp y ≠ .gt)

/-- A search that is guided at each node finds a match if there is one. -/
theorem find_isSome (hg : t.toList.Pairwise (Guides cmp))
    (h : ∃ x ∈ t.toList, cmp x = .eq) : ∃ x, t.find cmp = some x := by
  induction t with
  | nil => simp at h
  | node l y r ihl ihr =>
    rw [toList_node, List.pairwise_append, List.pairwise_cons] at hg
    obtain ⟨hl, ⟨hyr, hr⟩, hly⟩ := hg
    obtain ⟨x, hx, he⟩ := h
    rw [toList_node, List.mem_append, List.mem_cons] at hx
    rw [find]
    split
    · rename_i hc
      refine ihl hl ?_
      rcases hx with hx | rfl | hx
      · exact ⟨x, hx, he⟩
      · rw [he] at hc; cases hc
      · exact absurd hc ((hyr x hx).1 he)
    · exact ⟨y, rfl⟩
    rename_i hc
    refine ihr hr ?_
    rcases hx with hx | rfl | hx
    · exact absurd hc ((hly x hx y (List.mem_cons_self ..)).2 he)
    · rw [he] at hc; cases hc
    · exact ⟨x, hx, he⟩

theorem find_eq_none (hg : t.toList.Pairwise (Guides cmp)) :
    t.find cmp = none ↔ ∀ x ∈ t.toList, cmp x ≠ .eq := by
  constructor
  · intro hn x hx he
    obtain ⟨y, hy⟩ := find_isSome hg ⟨x, hx, he⟩
    rw [hn] at hy
    cases hy
  · intro h
    cases hf : t.find cmp with
    | none => rfl
    | some y => exact absurd (find_split hf).1 (h y (mem_of_find hf))

theorem insert_perm (less : α → α → Bool) (x : α) (t : SearchTree α) :
    (t.insert less x).toList.Perm (x :: t.toList) := by
  induction t with
  | nil => exact .refl _
  | node l y r ihl ihr =>
    rw [insert]
    split
    · exact ihl.append_right _
    · exact ((ihr.cons y).trans (.swap x y _)).append_left l.toList |>.trans List.perm_middle

/-- An insertion keeps the order of a tree whose elements the new one is in order with. -/
theorem insert_pairwise {R : α → α → Prop} {less : α → α → Bool}
    (htrans : ∀ a b c, R a b → R b c → R a c) (h : t.toList.Pairwise R)
    (hx : ∀ y ∈ t.toList, if less x y then R x y else R y x) :
    (t.insert less x).toList.Pairwise R := by
  induction t with
  | nil => simp [insert]
  | node l y r ihl ihr =>
    rw [toList_node, List.pairwise_append, List.pairwise_cons] at h
    obtain ⟨hl, ⟨hyr, hr⟩, hly⟩ := h
    have hxy := hx y (by simp)
    have hly' := fun z hz => hly z hz y (List.mem_cons_self ..)
    rw [insert]
    split
    · rename_i hc
      rw [if_pos hc] at hxy
      have hnew : ∀ z ∈ (l.insert less x).toList, R z y := by
        intro z hz
        rcases List.mem_cons.mp ((insert_perm less x l).mem_iff.mp hz) with rfl | hz
        · exact hxy
        · exact hly' z hz
      refine List.pairwise_append.mpr ⟨ihl hl fun z hz => hx z (by simp [hz]),
        List.pairwise_cons.mpr ⟨hyr, hr⟩, fun z hz w hw => ?_⟩
      rcases List.mem_cons.mp hw with rfl | hw
      · exact hnew z hz
      · exact htrans z y w (hnew z hz) (hyr w hw)
    rename_i hc
    rw [if_neg hc] at hxy
    have hnew : ∀ z ∈ (r.insert less x).toList, R y z := by
      intro z hz
      rcases List.mem_cons.mp ((insert_perm less x r).mem_iff.mp hz) with rfl | hz
      · exact hxy
      · exact hyr z hz
    refine List.pairwise_append.mpr ⟨hl, List.pairwise_cons.mpr
      ⟨hnew, ihr hr fun z hz => hx z (by simp [hz])⟩, fun z hz w hw => ?_⟩
    rcases List.mem_cons.mp hw with rfl | hw
    · exact hly' z hz
    · exact htrans z y w (hly' z hz) (hnew w hw)

end SearchTree

end UbDkms.Lib

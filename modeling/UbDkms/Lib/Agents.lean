import Mathlib.Algebra.BigOperators.Group.List.Basic
import Mathlib.Data.List.Basic

/-!
# Threads in progress

A list of threads, of which one steps, ends or starts at a time: how a total over
all of them changes.
-/

namespace UbDkms.Lib

variable {α : Type} {l : List α} {n : Nat} {x : α}

theorem getElem?_split (h : l[n]? = some x) : ∃ l₁ l₂, l = l₁ ++ x :: l₂ ∧
    (∀ y, l.set n y = l₁ ++ y :: l₂) ∧ l.eraseIdx n = l₁ ++ l₂ := by
  obtain ⟨hn, hx⟩ := List.getElem?_eq_some_iff.mp h
  refine ⟨l.take n, l.drop (n + 1), ?_, fun y => ?_, ?_⟩
  · rw [← hx, ← List.drop_eq_getElem_cons hn, List.take_append_drop]
  · exact List.set_eq_take_append_cons_drop.trans (if_pos hn)
  · exact List.eraseIdx_eq_take_drop_succ _ _

open scoped List

variable {M : Type} [AddCommMonoid M]

def total (f : α → M) (l : List α) : M := (l.map f).sum

@[simp] theorem total_nil (f : α → M) : total f [] = 0 := rfl

@[simp] theorem total_append (f : α → M) (l₁ l₂ : List α) :
    total f (l₁ ++ l₂) = total f l₁ + total f l₂ := by
  simp [total]

@[simp] theorem total_cons (f : α → M) (x : α) (l : List α) :
    total f (x :: l) = f x + total f l := by
  simp [total]

def Swap (l l' olds news : List α) : Prop := (l' ++ olds).Perm (l ++ news)

theorem Swap.set (h : l[n]? = some x) (y : α) : Swap l (l.set n y) [x] [y] := by
  obtain ⟨l₁, l₂, hl, hset, -⟩ := getElem?_split h
  unfold Swap
  rw [hset, hl, List.append_assoc, List.append_assoc]
  refine List.Perm.append_left l₁ ?_
  calc (y :: l₂) ++ [x] ~ y :: (x :: l₂) := (List.perm_append_singleton x l₂).cons y
    _ ~ x :: (y :: l₂) := List.Perm.swap x y l₂
    _ ~ x :: (l₂ ++ [y]) := (List.perm_append_singleton y l₂).symm.cons x

theorem Swap.eraseIdx (h : l[n]? = some x) : Swap l (l.eraseIdx n) [x] [] := by
  obtain ⟨l₁, l₂, hl, -, herase⟩ := getElem?_split h
  unfold Swap
  rw [herase, hl, List.append_nil, List.append_assoc]
  exact List.Perm.append_left l₁ (List.perm_append_singleton x l₂)

theorem Swap.push (y : α) : Swap l (l ++ [y]) [] [y] := by
  unfold Swap
  rw [List.append_nil]

theorem Swap.refl : Swap l l [] [] := List.Perm.refl _

theorem Swap.total {l' olds news : List α} (h : Swap l l' olds news) (f : α → M) :
    Lib.total f l' + Lib.total f olds = Lib.total f l + Lib.total f news := by
  rw [← total_append, ← total_append]
  exact (h.map f).sum_eq

/-- A thread after the change was there before or is new. -/
theorem Swap.mem {l' olds news : List α} (h : Swap l l' olds news) (hx : x ∈ l') :
    x ∈ l ∨ x ∈ news :=
  List.mem_append.mp (h.mem_iff.mp (List.mem_append_left _ hx))

theorem le_total {f : α → Nat} (hx : x ∈ l) : f x ≤ Lib.total f l := by
  obtain ⟨l₁, l₂, rfl⟩ := List.append_of_mem hx
  simp only [total_append, total_cons]
  omega

theorem total_eq_zero {f : α → Nat} : Lib.total f l = 0 ↔ ∀ y ∈ l, f y = 0 := by
  refine ⟨fun h y hy => Nat.le_zero.mp (h ▸ le_total hy), fun h => ?_⟩
  induction l with
  | nil => rfl
  | cons a l ih =>
    rw [total_cons, h a List.mem_cons_self, ih fun y hy => h y (List.mem_cons_of_mem _ hy)]

/-- Where all threads together hold each thing at most once, no two hold the same. -/
theorem pairwise_of_total {ι : Type} {f : ι → α → Nat} (h : ∀ k, Lib.total (f k) l ≤ 1) :
    l.Pairwise fun a b => ∀ k, f k a + f k b ≤ 1 := by
  induction l with
  | nil => exact .nil
  | cons a l ih =>
    simp only [total_cons] at h
    refine .cons (fun b hb k => ?_) (ih fun k => ?_)
    · have := le_total (f := f k) hb
      have := h k
      omega
    · have := h k
      omega

end UbDkms.Lib

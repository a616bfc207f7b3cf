import Mathlib.Data.Finset.Card
import Mathlib.Data.List.Dedup

/-!
# The most recent distinct elements of a history

A history is a list with the newest element first. `recent h` are its distinct
elements in the order of their last occurrence; an LRU set of capacity `n` holds
the first `n` of them. `take_recent_hit` and `take_recent_miss` say how that
prefix moves when an element in it, or outside it, comes again.
-/

namespace UbDkms.Lib

variable {α : Type} [DecidableEq α]

def recent : List α → List α
  | [] => []
  | a :: h => a :: (recent h).filter (· ≠ a)

theorem mem_recent {a : α} : ∀ {h : List α}, a ∈ recent h ↔ a ∈ h
  | [] => Iff.rfl
  | b :: h => by
    rw [recent, List.mem_cons, List.mem_cons, List.mem_filter, mem_recent]
    by_cases hab : a = b <;> simp [hab]

theorem recent_nodup : ∀ h : List α, (recent h).Nodup
  | [] => .nil
  | a :: h => by
    rw [recent, List.nodup_cons]
    exact ⟨fun hc => by simpa using (List.mem_filter.mp hc).2, (recent_nodup h).filter _⟩

theorem recent_length (h : List α) : (recent h).length = h.toFinset.card := by
  rw [← List.toFinset_card_of_nodup (recent_nodup h)]
  congr 1
  ext a
  rw [List.mem_toFinset, List.mem_toFinset, mem_recent]

/-- The place of an element is the number of distinct ones since. -/
theorem recent_append_cons {a : α} (rest : List α) : ∀ {b : List α}, a ∉ b →
    ∃ tail, recent (b ++ a :: rest) = recent b ++ a :: tail
  | [], _ => ⟨_, rfl⟩
  | x :: b, h => by
    rw [List.mem_cons, not_or] at h
    obtain ⟨tail, ht⟩ := recent_append_cons rest h.2
    refine ⟨tail.filter (· ≠ x), ?_⟩
    rw [List.cons_append, recent, ht, List.filter_append, List.filter_cons_of_pos (by simpa using h.1),
      recent, List.cons_append]

theorem mem_take_recent {a : α} {b rest : List α} {n : Nat} (h : a ∉ b) (hn : b.toFinset.card < n) :
    a ∈ (recent (b ++ a :: rest)).take n := by
  obtain ⟨tail, ht⟩ := recent_append_cons rest h
  rw [← recent_length] at hn
  rw [ht, List.take_append, List.mem_append, List.mem_take_iff_getElem (l := a :: tail)]
  exact .inr ⟨0, by rw [List.length_cons]; omega, rfl⟩

section Take

variable {a : α} {n : Nat}

theorem filter_ne_of_not_mem {l : List α} (h : a ∉ l) : l.filter (· ≠ a) = l :=
  List.filter_eq_self.mpr fun x hx => by
    simpa using fun hc : x = a => h (hc ▸ hx)

theorem take_filter_hit : ∀ {l : List α} {n : Nat}, l.Nodup → a ∈ l.take n →
    (l.take n).filter (· ≠ a) = (l.filter (· ≠ a)).take (n - 1)
  | [], _, _, h => by simp at h
  | x :: l, 0, _, h => by simp at h
  | x :: l, n + 1, hnd, h => by
    obtain ⟨hx, hnd⟩ := List.nodup_cons.mp hnd
    rw [List.take_succ_cons, Nat.add_sub_cancel]
    by_cases hxa : x = a
    · subst hxa
      rw [List.filter_cons_of_neg (by simp), List.filter_cons_of_neg (by simp),
        filter_ne_of_not_mem hx, filter_ne_of_not_mem fun hc => hx (List.mem_of_mem_take hc)]
    rw [List.take_succ_cons, List.mem_cons] at h
    have h := h.resolve_left fun hc => hxa hc.symm
    rw [List.filter_cons_of_pos (by simpa using hxa), List.filter_cons_of_pos (by simpa using hxa),
      take_filter_hit hnd h]
    cases n with
    | zero => simp at h
    | succ n => rfl

theorem take_filter_miss : ∀ {l : List α} {n : Nat}, a ∉ l.take n →
    (l.filter (· ≠ a)).take (n - 1) = l.take (n - 1)
  | [], _, _ => rfl
  | _ :: _, 0, _ => by simp
  | _ :: _, 1, _ => by simp
  | x :: l, n + 2, h => by
    rw [List.take_succ_cons, List.mem_cons, not_or] at h
    rw [List.filter_cons_of_pos (by simpa using Ne.symm h.1)]
    have ih := take_filter_miss h.2
    rw [Nat.add_sub_cancel] at ih
    rw [show n + 2 - 1 = n + 1 from rfl, List.take_succ_cons, List.take_succ_cons, ih]

/-- An element of the prefix comes again: it moves to the front. -/
theorem take_recent_hit {h : List α} (ha : a ∈ (recent h).take n) :
    (recent (a :: h)).take n = a :: ((recent h).take n).filter (· ≠ a) := by
  rw [recent, take_filter_hit (recent_nodup h) ha]
  cases n with
  | zero => simp at ha
  | succ n => rfl

/-- Another element comes: it pushes the last one out. -/
theorem take_recent_miss {h : List α} (ha : a ∉ (recent h).take n) (hn : 0 < n) :
    (recent (a :: h)).take n = (a :: (recent h).take n).take n := by
  obtain ⟨n, rfl⟩ : ∃ k, n = k + 1 := ⟨n - 1, by omega⟩
  rw [recent, List.take_succ_cons, List.take_succ_cons, List.take_take, Nat.min_eq_left (Nat.le_succ n)]
  exact congrArg (a :: ·) (take_filter_miss ha)

end Take

end UbDkms.Lib

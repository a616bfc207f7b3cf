import Mathlib.Data.Nat.Count
import Mathlib.Tactic

/-!
# Counting over an initial segment

How `Nat.count` of a boolean table changes when one entry is switched on or
off, and when a count is zero.
-/

namespace UbDkms.Lib

theorem count_congr_lt {p q : Nat → Bool} :
    ∀ {n : Nat}, (∀ i, i < n → p i = q i) → Nat.count (p ·) n = Nat.count (q ·) n
  | 0, _ => rfl
  | n + 1, h => by
    rw [Nat.count_succ, Nat.count_succ, count_congr_lt fun i hi => h i (by omega),
      h n (by omega)]

theorem count_switch_on {p q : Nat → Bool} {i : Nat} (hp : p i = false) (hq : q i)
    (hne : ∀ j, j ≠ i → q j = p j) :
    ∀ {n : Nat}, i < n → Nat.count (q ·) n = Nat.count (p ·) n + 1
  | n + 1, hi => by
    rw [Nat.count_succ, Nat.count_succ]
    rcases Nat.lt_succ_iff_lt_or_eq.mp hi with h | rfl
    · rw [count_switch_on hp hq hne h, hne n (by omega)]; omega
    · rw [count_congr_lt (p := q) (q := p) fun j hj => hne j (by omega)]; simp [hp, hq]

theorem count_split {p q r : Nat → Bool} :
    ∀ {n : Nat}, (∀ i, i < n → p i = (q i || r i) ∧ (q i && r i) = false) →
      Nat.count (p ·) n = Nat.count (q ·) n + Nat.count (r ·) n
  | 0, _ => rfl
  | n + 1, h => by
    obtain ⟨h1, h2⟩ := h n (by omega)
    rw [Nat.count_succ, Nat.count_succ, Nat.count_succ, count_split fun i hi => h i (by omega), h1]
    revert h2
    cases q n <;> cases r n <;> simp <;> omega

theorem count_eq_zero {p : Nat → Bool} {n : Nat} :
    Nat.count (p ·) n = 0 ↔ ∀ i, i < n → p i = false := by
  induction n with
  | zero => simp
  | succ n ih =>
    rw [Nat.count_succ, Nat.add_eq_zero_iff, ih]
    constructor
    · rintro ⟨h1, h2⟩ i hi
      rcases Nat.lt_succ_iff_lt_or_eq.mp hi with h | rfl
      · exact h1 i h
      · by_contra hc; simp [hc] at h2
    · intro h
      exact ⟨fun i hi => h i (by omega), by simp [h n (by omega)]⟩

theorem count_pos {p : Nat → Bool} {n i : Nat} (hi : i < n) (h : p i) :
    0 < Nat.count (p ·) n := by
  rcases Nat.eq_zero_or_pos (Nat.count (p ·) n) with h0 | h0
  · rw [count_eq_zero] at h0; rw [h0 i hi] at h; cases h
  · exact h0

end UbDkms.Lib

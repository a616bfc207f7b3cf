import Mathlib.Data.Nat.ModEq
import Mathlib.Tactic

/-!
# Positions in a ring

A ring of `n` places, indexed by the remainder of a position.
-/

namespace UbDkms.Lib

variable {x i j n : Nat}

/-- At most one lap further, the index wraps at most once. -/
theorem ring_add (hn : 0 < n) (hj : j ≤ n) :
    (x + j) % n = if x % n + j < n then x % n + j else x % n + j - n := by
  have hlt := Nat.mod_lt x hn
  rw [← Nat.mod_add_mod]
  split
  next h => exact Nat.mod_eq_of_lt h
  next h =>
    rw [show x % n + j = x % n + j - n + n by omega, Nat.add_mod_right, Nat.mod_eq_of_lt (by omega)]
    omega

/-- Within one lap, different positions have different indices. -/
theorem ring_inj (hi : i < n) (hj : j < n) (h : (x + i) % n = (x + j) % n) : i = j := by
  have := Nat.ModEq.add_left_cancel' x h
  rwa [Nat.ModEq, Nat.mod_eq_of_lt hi, Nat.mod_eq_of_lt hj] at this

/-- `cnt` blocks copied from index `x % n` on, those past the end to the start. -/
def ringCopy {α : Type} (n r cnt : Nat) (f : Nat → α) (old : α) (b : Nat) : α :=
  let tail := if cnt < n - r then cnt else n - r
  if b < cnt - tail then f (tail + b) else if r ≤ b ∧ b < r + tail then f (b - r) else old

theorem ringCopy_eq {α : Type} {f : Nat → α} {old : α} {cnt : Nat} (hc : cnt ≤ n) (hj : j < n) :
    ringCopy n (x % n) cnt f old ((x + j) % n) = if j < cnt then f j else old := by
  have hlt := Nat.mod_lt x (show 0 < n by omega)
  rw [ring_add (by omega) (by omega)]
  generalize x % n = r at *
  dsimp only [ringCopy]
  by_cases hw : r + j < n
  · rw [if_pos hw, if_neg (by split <;> omega), Nat.add_sub_cancel_left]
    exact if_congr (by split <;> omega) rfl rfl
  rw [if_neg hw]
  by_cases hf : j < cnt
  · rw [if_neg (show ¬ cnt < n - r by omega), if_pos (by omega), if_pos hf,
      show n - r + (r + j - n) = j by omega]
  · rw [if_neg (by split <;> omega), if_neg (by split <;> omega), if_neg hf]

end UbDkms.Lib

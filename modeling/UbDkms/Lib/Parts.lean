import Mathlib.Tactic

/-!
# A sequence in parts

A sequence of `n * b + r` elements as `n` parts of `b` and a rest.
-/

namespace UbDkms.Lib

/-- A sequence cut in `n` parts of `b` and a rest. -/
theorem range_parts {α : Type} (f : Nat → α) (b n r : Nat) :
    (List.range n).flatMap (fun t => (List.range b).map fun x => f (t * b + x)) ++
      (List.range r).map (fun x => f (n * b + x)) = (List.range (n * b + r)).map f := by
  have hfull : (List.range n).flatMap (fun t => (List.range b).map fun x => f (t * b + x)) =
      (List.range (n * b)).map f := by
    induction n with
    | zero => simp
    | succ n ih =>
      rw [List.range_succ, List.flatMap_append, ih, Nat.succ_mul, List.range_add, List.map_append,
        List.map_map]
      simp [Function.comp_def]
  rw [hfull, List.range_add, List.map_append, List.map_map]
  rfl

theorem range_parts_head {α : Type} (f : Nat → α) (b n r : Nat) :
    (List.range b).map f ++ (List.range (n + 1)).flatMap (fun t =>
      (List.range (if t + 1 < n + 1 then b else r)).map fun x => f ((t + 1) * b + x)) =
      (List.range ((n + 1) * b + r)).map f := by
  have hlast : (List.range (n + 1)).flatMap (fun t =>
      (List.range (if t + 1 < n + 1 then b else r)).map fun x => f ((t + 1) * b + x)) =
      (List.range n).flatMap (fun t => (List.range b).map fun x => f ((t + 1) * b + x)) ++
        (List.range r).map fun x => f ((n + 1) * b + x) := by
    rw [List.range_succ, List.flatMap_append]
    congr 1
    · refine List.flatMap_congr fun t ht => ?_
      rw [if_pos (by have := List.mem_range.mp ht; omega)]
    · simp
  rw [hlast, ← range_parts f b (n + 1) r, List.range_succ_eq_map (n := n), List.flatMap_cons,
    List.flatMap_map, List.append_assoc]
  simp

/-- The number of parts, rounded up, and the length of the last. -/
theorem ceil_parts {b p : Nat} (hb : 0 < b) (h : 1 ≤ p) :
    ∃ m r, (p + b - 1) / b = m + 1 ∧ p = m * b + r ∧ 1 ≤ r ∧ r ≤ b := by
  have hd := Nat.div_add_mod (p - 1) b
  have hm := Nat.mod_lt (p - 1) hb
  refine ⟨(p - 1) / b, (p - 1) % b + 1, ?_, ?_, by omega, by omega⟩
  · rw [show p + b - 1 = p - 1 + b by omega, Nat.add_div_right _ hb]
  · rw [Nat.mul_comm]
    omega

end UbDkms.Lib

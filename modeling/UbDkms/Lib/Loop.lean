import Mathlib.Logic.Function.Basic

/-!
# Counted loops with an early exit

A fallible step returns `none` or an error, and a state in either case;
`Outcome r I E` says that the state satisfies `I` after `none` and `E e` after
the error `e`. `forRange body i k s` runs `body i`, `body (i + 1)`, ..., `k`
times, and stops at the first iteration that returns an error.
`forRange_outcome` is its rule: an invariant indexed by the next iteration, and
what holds of the state an error leaves behind.
-/

namespace UbDkms.Lib

variable {ε σ : Type} {I : σ → Prop} {E : ε → σ → Prop}

def Outcome (r : Option ε × σ) (I : σ → Prop) (E : ε → σ → Prop) : Prop :=
  match r with
  | (none, s) => I s
  | (some e, s) => E e s

@[simp] theorem outcome_none {s : σ} :
    Outcome (none, s) I E ↔ I s := Iff.rfl

@[simp] theorem outcome_some {e : ε} {s : σ} :
    Outcome (some e, s) I E ↔ E e s := Iff.rfl

theorem Outcome.mono {r : Option ε × σ} {I I' : σ → Prop} {E E' : ε → σ → Prop}
    (h : Outcome r I E) (hI : ∀ s, I s → I' s) (hE : ∀ e s, E e s → E' e s) : Outcome r I' E' := by
  rcases r with ⟨_ | e, s⟩
  · exact hI s h
  · exact hE e s h

theorem Outcome.eq_none {r : Option ε × σ} (h : Outcome r I fun _ _ => False) :
    r.1 = none := by
  rcases r with ⟨_ | e, s⟩
  · rfl
  · exact h.elim

/-- `for (i = lo; i < lo + k; i++) { ret = body(i); if (ret) return ret; }`. -/
def forRange (body : Nat → σ → Option ε × σ) : Nat → Nat → σ → Option ε × σ
  | _, 0, s => (none, s)
  | i, k + 1, s =>
    match body i s with
    | (none, s') => forRange body (i + 1) k s'
    | (some e, s') => (some e, s')

theorem forRange_outcome {body : Nat → σ → Option ε × σ} {I : Nat → σ → Prop} :
    ∀ {k lo : Nat} {s : σ}, I lo s →
      (∀ i s, lo ≤ i → i < lo + k → I i s → Outcome (body i s) (I (i + 1)) E) →
      Outcome (forRange body lo k s) (I (lo + k)) E
  | 0, _, _, h0, _ => h0
  | k + 1, lo, s, h0, hstep => by
    have hb := hstep lo s (Nat.le_refl _) (by omega) h0
    unfold forRange
    rcases hr : body lo s with ⟨_ | e, s'⟩ <;> rw [hr] at hb
    · have ih := forRange_outcome (k := k) (s := s') hb
        fun i t hi hk ht => hstep i t (by omega) (by omega) ht
      rwa [show lo + (k + 1) = lo + 1 + k by omega]
    · exact hb

end UbDkms.Lib

import Mathlib.Logic.Function.Basic

/-!
# Runs of a state machine

`Reach ok step s₀ s`: a run from `s₀` reaches `s`, every step `step s a` of which
was taken at a state and with an action that satisfy `ok`.
-/

namespace UbDkms.Lib

variable {σ α : Type}

inductive Reach (ok : σ → α → Prop) (step : σ → α → σ) (s₀ : σ) : σ → Prop where
  | init : Reach ok step s₀ s₀
  | next {s : σ} {a : α} : Reach ok step s₀ s → ok s a → Reach ok step s₀ (step s a)

namespace Reach

variable {ok ok' : σ → α → Prop} {step : σ → α → σ} {s₀ s : σ}

/-- What holds initially and is kept by every step holds in every state reached. -/
theorem invariant {I : σ → Prop} (h0 : I s₀) (hstep : ∀ s a, I s → ok s a → I (step s a))
    (h : Reach ok step s₀ s) : I s := by
  induction h with
  | init => exact h0
  | next _ ha ih => exact hstep _ _ ih ha

theorem mono (hok : ∀ s a, ok s a → ok' s a) (h : Reach ok step s₀ s) : Reach ok' step s₀ s := by
  induction h with
  | init => exact .init
  | next _ ha ih => exact .next ih (hok _ _ ha)

/-- Every action of a list is allowed when its turn comes. -/
def Along (ok : σ → α → Prop) (step : σ → α → σ) : σ → List α → Prop
  | _, [] => True
  | s, a :: acts => ok s a ∧ Along ok step (step s a) acts

theorem along {acts : List α} (h : Reach ok step s₀ s) (ha : Along ok step s acts) :
    Reach ok step s₀ (acts.foldl step s) := by
  induction acts generalizing s with
  | nil => exact h
  | cons a acts ih => exact ih (.next h ha.1) ha.2

theorem foldl (acts : List α) : Reach (fun _ _ => True) step s₀ (acts.foldl step s₀) := by
  refine Reach.init.along ?_
  generalize s₀ = s
  induction acts generalizing s with
  | nil => trivial
  | cons a acts ih => exact ⟨trivial, ih _⟩

end Reach

end UbDkms.Lib

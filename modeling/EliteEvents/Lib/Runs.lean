import Mathlib.Data.Option.Basic
import Mathlib.Tactic

/-! Runs of a step function, each of whose steps meets a condition on the state it is taken in. -/

namespace Runs

variable {S A : Type} {step : S → A → Option S} {ok : S → A → Prop} {s₀ s s' : S}

inductive Reaches (step : S → A → Option S) (ok : S → A → Prop) (s₀ : S) : S → Prop
  | refl : Reaches step ok s₀ s₀
  | step {s s' : S} (a : A) (h : Reaches step ok s₀ s) (hok : ok s a) (hs : step s a = some s') :
      Reaches step ok s₀ s'

/-- What holds at the start and is kept by every step that meets the condition holds all along. -/
theorem Reaches.invariant {P : S → Prop} (h : Reaches step ok s₀ s) (h₀ : P s₀)
    (hstep : ∀ s a s', P s → ok s a → step s a = some s' → P s') : P s := by
  induction h with
  | refl => exact h₀
  | step a _ hok hs ih => exact hstep _ a _ ih hok hs

/-- A scripted run whose steps are checked one by one. -/
def runIf (step : S → A → Option S) (ok : S → A → Prop) [∀ s a, Decidable (ok s a)] : List A → S → Option S
  | [], s => some s
  | a :: as, s => if ok s a then (step s a).bind (runIf step ok as) else none

theorem reaches_runIf [∀ s a, Decidable (ok s a)] {as : List A} (h : Reaches step ok s₀ s)
    (hr : runIf step ok as s = some s') : Reaches step ok s₀ s' := by
  induction as generalizing s with
  | nil =>
    cases hr
    exact h
  | cons a as ih =>
    unfold runIf at hr
    split_ifs at hr with ha
    obtain ⟨s₁, hs, hr⟩ := Option.bind_eq_some_iff.mp hr
    exact ih (.step a h ha hs) hr

end Runs

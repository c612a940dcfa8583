import Mathlib.Init
/-!
# Runs of a machine

The states a machine gets into from a first one, by events that each meet
a condition in the state they happen in, and the rule for invariants.
-/


namespace Slucore

variable {σ ω : Type}

/-- The states reached from `s₀` by events that meet `P`. -/
inductive Reaches (step : σ → ω → σ) (P : σ → ω → Prop) (s₀ : σ) : σ → Prop
  | start : Reaches step P s₀ s₀
  | event {s : σ} (e : ω) (before : Reaches step P s₀ s) (cond : P s e) :
      Reaches step P s₀ (step s e)

variable {step : σ → ω → σ} {P : σ → ω → Prop} {s₀ s : σ}

/-- **What every event keeps holds in every state reached.** -/
theorem Reaches.induct {Q : σ → Prop} (h : Reaches step P s₀ s) (hstart : Q s₀)
    (hstep : ∀ s e, P s e → Q s → Q (step s e)) : Q s := by
  induction h with
  | start => exact hstart
  | event e before cond ih => exact hstep _ e cond ih

theorem Reaches.mono {R : σ → ω → Prop} (h : Reaches step P s₀ s)
    (himp : ∀ s e, P s e → R s e) : Reaches step R s₀ s := by
  induction h with
  | start => exact .start
  | event e before cond ih => exact ih.event e (himp _ e cond)

/-! ## Events in a list -/

/-- The events of a list meet the condition, each in the state it happens in. -/
def MeetsAlong (step : σ → ω → σ) (P : σ → ω → Prop) : σ → List ω → Prop
  | _, [] => True
  | s, e :: es => P s e ∧ MeetsAlong step P (step s e) es

instance [h : ∀ s e, Decidable (P s e)] : ∀ s es, Decidable (MeetsAlong step P s es)
  | _, [] => isTrue trivial
  | s, e :: es =>
    have : Decidable (MeetsAlong step P (step s e) es) := instDecidableMeetsAlong _ es
    inferInstanceAs (Decidable (P s e ∧ MeetsAlong step P (step s e) es))

/-- A list of events that meet the condition leads to a state reached. -/
theorem Reaches.events {es : List ω} (h : Reaches step P s₀ s) (hes : MeetsAlong step P s es) :
    Reaches step P s₀ (es.foldl step s) := by
  induction es generalizing s with
  | nil => exact h
  | cons e es ih => exact ih (h.event e hes.1) hes.2

end Slucore

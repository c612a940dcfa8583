import Slucore.Common.Checked
/-!
# Machines that answer, and what they implement

A machine takes operations one at a time, each of which may fail or give
an answer. It implements a specification, which cannot fail, through a
function that says what a state of the machine stands for: if one
operation in a good state succeeds, gives the specified answer and leads
to a good state that stands for the specified one, then so do all
sequences of operations (`runOps_refines`).
-/


namespace Slucore

variable {σ τ ω α ε : Type}

/-- The answers of a machine to a sequence of operations, and its last
state. -/
def runOps (step : σ → ω → Except ε (α × σ)) (s : σ) : List ω → Except ε (List α × σ)
  | [] => .ok ([], s)
  | op :: ops => do
    let (a, s) ← step s op
    let (as, s) ← runOps step s ops
    return (a :: as, s)

/-- The specified answers and the last state. -/
def specOps (spec : τ → ω → α × τ) (t : τ) : List ω → List α × τ
  | [] => ([], t)
  | op :: ops =>
    let (a, t) := spec t op
    let (as, t) := specOps spec t ops
    (a :: as, t)

/-- Every operation is allowed in the state it finds. -/
def AllAllowed (step : σ → ω → Except ε (α × σ)) (allowed : σ → ω → Prop) (s : σ) :
    List ω → Prop
  | [] => True
  | op :: ops => allowed s op ∧
      ∀ a s', step s op = .ok (a, s') → AllAllowed step allowed s' ops

variable {step : σ → ω → Except ε (α × σ)} {spec : τ → ω → α × τ} {allowed : σ → ω → Prop}
variable {good : σ → Prop} {stands : σ → τ}

theorem allAllowed_cons {s s' : σ} {op : ω} {a : α} {ops : List ω} (h : step s op = .ok (a, s'))
    (hop : allowed s op) (hops : AllAllowed step allowed s' ops) :
    AllAllowed step allowed s (op :: ops) := by
  refine ⟨hop, fun a' s'' h' => ?_⟩
  rw [h] at h'
  obtain ⟨-, rfl⟩ := Prod.mk.inj (Except.ok.inj h')
  exact hops

/-- **A machine that implements each operation implements every sequence.** -/
theorem runOps_refines
    (hstep : ∀ s op, good s → allowed s op → ∃ a s', step s op = .ok (a, s') ∧ good s' ∧
      spec (stands s) op = (a, stands s'))
    {s : σ} {ops : List ω} (hs : good s) (hops : AllAllowed step allowed s ops) :
    ∃ as s', runOps step s ops = .ok (as, s') ∧ good s' ∧
      specOps spec (stands s) ops = (as, stands s') := by
  induction ops generalizing s with
  | nil => exact ⟨[], s, rfl, hs, rfl⟩
  | cons op ops ih =>
    obtain ⟨hop, hrest⟩ := hops
    obtain ⟨a, s₁, hs₁, hgood, hspec⟩ := hstep s op hs hop
    obtain ⟨as, s₂, hs₂, hgood₂, hspec₂⟩ := ih hgood (hrest a s₁ hs₁)
    refine ⟨a :: as, s₂, ?_, hgood₂, ?_⟩
    · simp [runOps, hs₁, hs₂]
    · simp [specOps, hspec, hspec₂]

end Slucore

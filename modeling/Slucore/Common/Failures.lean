import Slucore.Common.Checked
/-!
# How a computation can fail

Which failures a chain of tests can end with is read off its parts, as
what it returns is. `FailsOnly P x` says that every failure of `x` is one
of `P`; `simp` takes it through tests, binds and conditionals, and
`failsOnly_foldlM` through loops, so the failures of a long routine are
the failures of the routines it calls.
-/


namespace Slucore

variable {ε α β σ : Type} {P : ε → Prop}

/-- Every failure of `x` is one of `P`. -/
def FailsOnly (P : ε → Prop) (x : Except ε α) : Prop := ∀ e, x = .error e → P e

@[simp] theorem failsOnly_ok {a : α} : FailsOnly P (.ok a : Except ε α) := by
  intro e h
  cases h

@[simp] theorem failsOnly_pure {a : α} : FailsOnly P (pure a : Except ε α) := failsOnly_ok

variable {e : ε}

@[simp] theorem failsOnly_error : FailsOnly P (.error e : Except ε α) ↔ P e := by
  simp [FailsOnly]

@[simp] theorem failsOnly_require {b : Bool} :
    FailsOnly P (require b e) ↔ (b = false → P e) := by
  cases b <;> simp [require]

@[simp] theorem failsOnly_orThrow {x : Option α} :
    FailsOnly P (orThrow x e) ↔ (x = none → P e) := by
  cases x <;> simp [orThrow]

@[simp] theorem failsOnly_checkWhen {b : Bool} {x : Except ε Unit} :
    FailsOnly P (checkWhen b x) ↔ (b = true → FailsOnly P x) := by
  cases b <;> simp [checkWhen]

variable {x : Except ε α}

/-- **A chain fails as one of its parts does**, the second where the first
succeeds. -/
@[simp] theorem failsOnly_bind {f : α → Except ε β} :
    FailsOnly P (x >>= f) ↔ FailsOnly P x ∧ ∀ a, x = .ok a → FailsOnly P (f a) := by
  cases x <;> simp

@[simp] theorem failsOnly_map {f : α → β} :
    FailsOnly P (f <$> x) ↔ FailsOnly P x := by
  cases x <;> simp

@[simp] theorem failsOnly_ite {p : Prop} [Decidable p] {y : Except ε α} :
    FailsOnly P (if p then x else y) ↔ (p → FailsOnly P x) ∧ (¬ p → FailsOnly P y) := by
  split <;> simp_all

theorem failsOnly_mapError {ε' : Type} {R : ε' → Prop} {f : ε → ε'} :
    FailsOnly R (x.mapError f) ↔ FailsOnly (fun e => R (f e)) x := by
  cases x <;> simp [Except.mapError]

/-- **A loop fails as one of its turns does.** -/
theorem failsOnly_foldlM {f : σ → α → Except ε σ} {l : List α}
    (h : ∀ s, ∀ a ∈ l, FailsOnly P (f s a)) (s : σ) : FailsOnly P (l.foldlM f s) := by
  induction l generalizing s with
  | nil => exact failsOnly_ok
  | cons a l ih =>
    rw [List.foldlM_cons, failsOnly_bind]
    refine ⟨h s a List.mem_cons_self, fun t _ => ?_⟩
    exact ih (fun s b hb => h s b (List.mem_cons_of_mem a hb)) t

/-! ## The state left -/

/-- A computation that hands its state on when it succeeds and when it fails
leaves a state of `P`, whichever way it ends. -/
def Leaves (P : σ → Prop) : Except (ε × σ) σ → Prop
  | .ok s => P s
  | .error (_, s) => P s

variable {P : σ → Prop}

theorem leaves_bind {x : Except (ε × σ) σ} {f : σ → Except (ε × σ) σ}
    (hx : Leaves P x) (hf : ∀ s, P s → Leaves P (f s)) : Leaves P (x >>= f) := by
  cases x with
  | error q => exact hx
  | ok s => exact hf s hx

/-- **A loop leaves what its turns leave.** -/
theorem leaves_foldlM {f : σ → α → Except (ε × σ) σ} {l : List α} {s : σ}
    (hf : ∀ s a, P s → Leaves P (f s a)) (hs : P s) : Leaves P (l.foldlM f s) := by
  induction l generalizing s with
  | nil => exact hs
  | cons a l ih =>
    exact leaves_bind (hf s a hs) fun t ht => ih ht

/-- The computation with the state it hands on mapped, whichever way it
ends. -/
def mapState {τ : Type} (g : σ → τ) : Except (ε × σ) σ → Except (ε × τ) τ
  | .ok s => .ok (g s)
  | .error (e, s) => .error (e, g s)

section MapState

variable {τ : Type} {g : σ → τ}

variable {x : Except (ε × σ) σ}

theorem leaves_mapState {P : τ → Prop} (h : ∀ s, P (g s)) :
    Leaves P (mapState g x) := by
  rcases x with ⟨e, s⟩ | s
  · exact h s
  · exact h s

/-- **A simulation goes through a chain.** -/
theorem mapState_bind {f : σ → Except (ε × σ) σ}
    {f' : τ → Except (ε × τ) τ} (h : ∀ s, f' (g s) = mapState g (f s)) :
    mapState g x >>= f' = mapState g (x >>= f) := by
  rcases x with ⟨e, s⟩ | s
  · rfl
  · exact h s

/-- **A simulation goes through a loop.** -/
theorem mapState_foldlM {f : σ → α → Except (ε × σ) σ} {f' : τ → α → Except (ε × τ) τ}
    (h : ∀ s a, f' (g s) a = mapState g (f s a)) (l : List α) (s : σ) :
    l.foldlM f' (g s) = mapState g (l.foldlM f s) := by
  induction l generalizing s with
  | nil => rfl
  | cons a l ih =>
    rw [List.foldlM_cons, h]
    exact mapState_bind ih

end MapState

end Slucore

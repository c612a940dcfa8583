import Mathlib.Tactic
/-!
# Undo logs

A data value is changed by operations that push entries on a log, and a
savepoint is a length of the log. Unwinding to it pops the newer entries
and undoes each. Undoing need not give back the very same value: it gives
one that is below the old in an order `r` (a cache may remember that it
was written), as long as undoing is monotone in that order. `Undoes` is
then transitive, so a whole run of operations is undone by unwinding to
where it started (`unwind_of_undoes`), whatever was unwound inside it.
-/


namespace Slucore

variable {α κ : Type}

/-- Pop the log down to length `n`, undoing each popped entry, the newest
first (the head of the list). -/
def unwind (undo : κ → α → α) (n : ℕ) : List κ → α → List κ × α
  | [], x => ([], x)
  | k :: l, x => if l.length + 1 ≤ n then (k :: l, x) else unwind undo n l (undo k x)

/-- What makes undoing sound: an order that it respects. -/
structure UndoOrder (undo : κ → α → α) where
  r : α → α → Prop
  refl : ∀ x, r x x
  trans : ∀ {x y z}, r x y → r y z → r x z
  mono : ∀ k {x y}, r x y → r (undo k x) (undo k y)

variable {undo : κ → α → α}

/-- Undoing a list of entries, the newest first. -/
def undoAll (undo : κ → α → α) (entries : List κ) (x : α) : α :=
  entries.foldl (fun y k => undo k y) x

theorem UndoOrder.undoAll_mono (O : UndoOrder undo) (entries : List κ) {x y : α} (h : O.r x y) :
    O.r (undoAll undo entries x) (undoAll undo entries y) := by
  induction entries generalizing x y with
  | nil => exact h
  | cons k l ih => exact ih (O.mono k h)

/-- The log has grown from `l₀` to `l`, and undoing what is new takes `x`
back below `x₀`. -/
def UndoOrder.Undoes (O : UndoOrder undo) (l₀ : List κ) (x₀ : α) (l : List κ) (x : α) : Prop :=
  ∃ entries, l = entries ++ l₀ ∧ O.r (undoAll undo entries x) x₀

namespace UndoOrder

variable {O : UndoOrder undo} {l₀ l₁ l₂ : List κ} {x₀ x₁ x₂ : α}

theorem undoes_refl : O.Undoes l₀ x₀ l₀ x₀ := ⟨[], rfl, O.refl x₀⟩

/-- A value below another one, with the same log, undoes to whatever that
one undoes to. -/
theorem undoes_of_le (h : O.r x₁ x₀) : O.Undoes l₀ x₀ l₀ x₁ := ⟨[], rfl, h⟩

/-- **Undoing composes.** -/
theorem Undoes.trans (h₁ : O.Undoes l₀ x₀ l₁ x₁) (h₂ : O.Undoes l₁ x₁ l₂ x₂) :
    O.Undoes l₀ x₀ l₂ x₂ := by
  obtain ⟨e₁, rfl, hr₁⟩ := h₁
  obtain ⟨e₂, rfl, hr₂⟩ := h₂
  refine ⟨e₂ ++ e₁, (List.append_assoc ..).symm, ?_⟩
  have : undoAll undo (e₂ ++ e₁) x₂ = undoAll undo e₁ (undoAll undo e₂ x₂) := by
    simp [undoAll]
  rw [this]
  exact O.trans (O.undoAll_mono e₁ hr₂) hr₁

end UndoOrder

/-- Unwinding stops where the log has the given length. -/
theorem unwind_append (entries l : List κ) (x : α) :
    unwind undo l.length (entries ++ l) x = (l, undoAll undo entries x) := by
  induction entries generalizing x with
  | nil =>
    cases l with
    | nil => rfl
    | cons k l => simp [unwind, undoAll]
  | cons k e ih =>
    rw [List.cons_append, unwind, if_neg (by rw [List.length_append]; omega), ih]
    rfl

/-- Unwinding does not read what lies under the savepoint. -/
theorem unwind_under (n : ℕ) (entries l : List κ) (x : α) :
    unwind undo (n + l.length) (entries ++ l) x =
      ((unwind undo n entries x).1 ++ l, (unwind undo n entries x).2) := by
  induction entries generalizing x with
  | nil =>
    cases l with
    | nil => rfl
    | cons k l => simp [unwind]
  | cons k e ih =>
    rw [List.cons_append, unwind, unwind, List.length_append]
    by_cases h : e.length + 1 ≤ n
    · rw [if_pos (by omega), if_pos h]
      rfl
    · rw [if_neg (by omega), if_neg h, ih]

/-- **Unwinding to a savepoint takes a run back to where it was taken.** -/
theorem unwind_of_undoes {O : UndoOrder undo} {l₀ l : List κ} {x₀ x : α}
    (h : O.Undoes l₀ x₀ l x) :
    (unwind undo l₀.length l x).1 = l₀ ∧ O.r (unwind undo l₀.length l x).2 x₀ := by
  obtain ⟨entries, rfl, hr⟩ := h
  rw [unwind_append]
  exact ⟨rfl, hr⟩

end Slucore

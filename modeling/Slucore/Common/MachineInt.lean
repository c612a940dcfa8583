import Mathlib.Tactic
/-!
# Signed 64-bit integers as wrapped mathematical ones

Signed 64-bit arithmetic is arithmetic of `ℤ` followed by the balanced
remainder modulo `2 ^ 64`. A computation is exact as long as its
mathematical result is in range (`wrap64_eq_self`).
-/


namespace Slucore

/-- The value a signed 64-bit register holds after computing `x`. -/
def wrap64 (x : ℤ) : ℤ := Int.bmod x (2 ^ 64)

/-- The values a signed 64-bit register can hold. -/
def InRange64 (x : ℤ) : Prop := -(2 ^ 63) ≤ x ∧ x < 2 ^ 63

instance (x : ℤ) : Decidable (InRange64 x) := inferInstanceAs (Decidable (_ ∧ _))

/-- **A result in range is exact.** -/
theorem wrap64_eq_self {x : ℤ} (h : InRange64 x) : wrap64 x = x := by
  obtain ⟨hlo, hhi⟩ := h
  apply Int.bmod_eq_of_le
  · norm_num; omega
  · norm_num; omega

end Slucore

import Mathlib.Data.List.Basic
/-!
# Changes of a map that can be made twice

A change of a map is an overwriting one if it decides, point by point and
without looking at the map, whether the value is kept or replaced and by
what. Such changes compose, and they can be redone on a map that was
caught half-way: where every value is the old or the new one, redoing the
change gives the new map (`Overwriting.redo`).
-/


namespace Slucore

variable {α β γ : Type}

/-- At every point the change keeps the value, or sets one that does not
depend on the map. -/
def Overwriting (f : (α → β) → α → β) : Prop :=
  ∀ x, (∀ m, f m x = m x) ∨ ∃ b, ∀ m, f m x = b

theorem overwriting_id : Overwriting (id : (α → β) → α → β) := fun _ => Or.inl fun _ => rfl

theorem Overwriting.comp {f g : (α → β) → α → β} (hg : Overwriting g) (hf : Overwriting f) :
    Overwriting (g ∘ f) := by
  intro x
  rcases hg x with hkeep | ⟨b, hset⟩
  · rcases hf x with hkeep' | ⟨b, hset⟩
    · exact Or.inl fun m => (hkeep (f m)).trans (hkeep' m)
    · exact Or.inr ⟨b, fun m => (hkeep (f m)).trans (hset m)⟩
  · exact Or.inr ⟨b, fun m => hset (f m)⟩

/-- A loop of overwriting changes. -/
theorem overwriting_foldl {f : (α → β) → γ → α → β} (h : ∀ c, Overwriting fun m => f m c)
    (l : List γ) : Overwriting fun m => l.foldl f m := by
  induction l with
  | nil => exact overwriting_id
  | cons c l ih => exact ih.comp (h c)

theorem overwriting_foldr {f : γ → (α → β) → α → β} (h : ∀ c, Overwriting (f c)) (l : List γ) :
    Overwriting fun m => l.foldr f m := by
  induction l with
  | nil => exact overwriting_id
  | cons c l ih => exact (h c).comp ih

/-- **Redoing the change of a map caught half-way completes it.** -/
theorem Overwriting.redo {f : (α → β) → α → β} (h : Overwriting f) {m half : α → β}
    (hhalf : ∀ x, half x = m x ∨ half x = f m x) : f half = f m := by
  funext x
  rcases h x with hkeep | ⟨b, hset⟩
  · rcases hhalf x with hx | hx
    · rw [hkeep, hkeep, hx]
    · rw [hkeep, hx]
  · rw [hset, hset]

end Slucore

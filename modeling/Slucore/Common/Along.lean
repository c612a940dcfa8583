import Mathlib.Tactic
/-!
# Sums along a run

A run takes a state through a list of events. `sumAlong` adds up a
quantity read, at each event, off the event and the state before it. It
is additive in the quantity, so a balance of several quantities can be
proved event by event (`sumAlong_congr`) and read for the whole run.
-/


namespace Slucore

variable {σ α : Type} {step : σ → α → σ} {f g : σ → α → ℤ}

/-- The sum of `f` over the events of a list, each at the state before it. -/
def sumAlong (step : σ → α → σ) (f : σ → α → ℤ) : σ → List α → ℤ
  | _, [] => 0
  | s, a :: l => f s a + sumAlong step f (step s a) l

@[simp] theorem sumAlong_nil {s : σ} : sumAlong step f s [] = 0 := rfl

@[simp] theorem sumAlong_cons {s : σ} {a : α} {l : List α} :
    sumAlong step f s (a :: l) = f s a + sumAlong step f (step s a) l := rfl

/-- Quantities that agree on every event have the same sum. -/
theorem sumAlong_congr {s : σ} {l : List α} (h : ∀ s, ∀ a ∈ l, f s a = g s a) :
    sumAlong step f s l = sumAlong step g s l := by
  induction l generalizing s with
  | nil => rfl
  | cons a l ih =>
    rw [sumAlong_cons, sumAlong_cons, h s a List.mem_cons_self,
      ih fun s b hb => h s b (List.mem_cons_of_mem a hb)]

theorem sumAlong_add (s : σ) (l : List α) :
    sumAlong step (fun s a => f s a + g s a) s l = sumAlong step f s l + sumAlong step g s l := by
  induction l generalizing s with
  | nil => rfl
  | cons a l ih =>
    rw [sumAlong_cons, sumAlong_cons, sumAlong_cons, ih]
    ring

theorem sumAlong_sub (s : σ) (l : List α) :
    sumAlong step (fun s a => f s a - g s a) s l = sumAlong step f s l - sumAlong step g s l := by
  induction l generalizing s with
  | nil => rfl
  | cons a l ih =>
    rw [sumAlong_cons, sumAlong_cons, sumAlong_cons, ih]
    ring

/-- A quantity that vanishes on every event has sum zero. -/
theorem sumAlong_eq_zero {s : σ} {l : List α} (h : ∀ s, ∀ a ∈ l, f s a = 0) :
    sumAlong step f s l = 0 := by
  induction l generalizing s with
  | nil => rfl
  | cons a l ih =>
    rw [sumAlong_cons, h s a List.mem_cons_self, zero_add]
    exact ih fun s b hb => h s b (List.mem_cons_of_mem a hb)

/-- A sum is monotone in what is read at each event. -/
theorem sumAlong_le_sumAlong {s : σ} {l : List α}
    (h : ∀ pre a post, l = pre ++ a :: post → f (pre.foldl step s) a ≤ g (pre.foldl step s) a) :
    sumAlong step f s l ≤ sumAlong step g s l := by
  induction l generalizing s with
  | nil => exact le_refl _
  | cons a l ih =>
    have hhead := h [] a l rfl
    have htail := ih fun pre b post hl => h (a :: pre) b post (by rw [hl, List.cons_append])
    exact add_le_add hhead htail

/-- No event has more than the sum, where none has less than zero. -/
theorem le_sumAlong {s : σ} {l pre post : List α} {a : α} (hl : l = pre ++ a :: post)
    (h : ∀ pre a post, l = pre ++ a :: post → 0 ≤ f (pre.foldl step s) a) :
    f (pre.foldl step s) a ≤ sumAlong step f s l := by
  induction l generalizing s pre with
  | nil => simp at hl
  | cons b l ih =>
    have htail (pre : List α) (c : α) (post : List α) (hl : l = pre ++ c :: post) :=
      h (b :: pre) c post (by rw [hl, List.cons_append])
    cases pre with
    | nil =>
      obtain ⟨rfl, rfl⟩ := List.cons.inj hl
      have hrest := sumAlong_le_sumAlong (f := fun _ _ => 0) htail
      rw [sumAlong_eq_zero fun _ _ _ => rfl] at hrest
      exact le_add_of_nonneg_right hrest
    | cons c pre =>
      obtain ⟨rfl, rfl⟩ := List.cons.inj hl
      exact (ih rfl htail).trans (le_add_of_nonneg_left (h [] b _ rfl))

/-- A quantity of the event alone is summed over the list. -/
theorem sumAlong_const (step : σ → α → σ) (q : α → ℤ) (s : σ) (l : List α) :
    sumAlong step (fun _ => q) s l = (l.map q).sum := by
  induction l generalizing s with
  | nil => rfl
  | cons a l ih => rw [sumAlong_cons, List.map_cons, List.sum_cons, ih]

end Slucore

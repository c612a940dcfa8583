import Mathlib.Order.Defs.LinearOrder
import Mathlib.Data.List.Lex
import Mathlib.Tactic
/-!
# A store sorted by key

A key-value store that keeps its records in the order of their keys, with
the cursor that such stores offer: `seek` goes to the first record whose
key is not below a given one.
-/


namespace Slucore

open List

/-- Records sorted by key, one for each key. -/
structure SortedStore (κ ν : Type) [LinearOrder κ] where
  records : List (κ × ν)
  sorted : records.Pairwise fun p q => p.1 < q.1

namespace SortedStore

variable {κ ν : Type} [LinearOrder κ] (s : SortedStore κ ν) (k : κ) (v : ν)

/-- The record of a key written. -/
def put : SortedStore κ ν where
  records := s.records.filter (fun p => decide (p.1 < k)) ++
    (k, v) :: s.records.filter fun p => decide (k < p.1)
  sorted := by
    refine pairwise_append.2 ⟨s.sorted.filter _, pairwise_cons.2 ⟨?_, s.sorted.filter _⟩,
      ?_⟩
    · intro q hq
      simpa using (mem_filter.1 hq).2
    intro p hp q hq
    have hpk : p.1 < k := by simpa using (mem_filter.1 hp).2
    rcases mem_cons.1 hq with rfl | hq
    · exact hpk
    · have hkq : k < q.1 := by simpa using (mem_filter.1 hq).2
      exact hpk.trans hkq

/-- The record of a key erased. -/
def erase : SortedStore κ ν where
  records := s.records.filter fun p => decide (p.1 ≠ k)
  sorted := s.sorted.filter _

/-- The records a cursor visits from a key on. -/
def seek : List (κ × ν) := s.records.filter fun p => decide (k ≤ p.1)

variable {s k v} {k' : κ} {v' : ν} {p : κ × ν}

theorem mem_put : (k', v') ∈ (s.put k v).records ↔
    k' = k ∧ v' = v ∨ k' ≠ k ∧ (k', v') ∈ s.records := by
  simp only [put, mem_append, mem_cons, mem_filter, decide_eq_true_eq,
    Prod.mk.injEq]
  constructor
  · rintro (⟨h, hlt⟩ | h | ⟨h, hlt⟩)
    · exact Or.inr ⟨hlt.ne, h⟩
    · exact Or.inl h
    · exact Or.inr ⟨hlt.ne', h⟩
  · rintro (h | ⟨hne, h⟩)
    · exact Or.inr (Or.inl h)
    · rcases lt_or_gt_of_ne hne with hlt | hgt
      · exact Or.inl ⟨h, hlt⟩
      · exact Or.inr (Or.inr ⟨h, hgt⟩)

theorem mem_erase : p ∈ (s.erase k).records ↔ p ∈ s.records ∧ p.1 ≠ k := by
  simp [erase]

theorem mem_seek : p ∈ s.seek k ↔ p ∈ s.records ∧ k ≤ p.1 := by
  simp [seek]

/-- A cursor is at its end if no key is left. -/
theorem seek_eq_nil : s.seek k = [] ↔ ∀ p ∈ s.records, p.1 < k := by
  simp [seek]

/-- **A cursor stands at the least key** that is not below the one looked for. -/
theorem seek_eq_cons {rest : List (κ × ν)} (h : s.seek k = p :: rest) :
    p ∈ s.records ∧ k ≤ p.1 ∧ ∀ q ∈ s.records, k ≤ q.1 → p = q ∨ p.1 < q.1 := by
  have hp := mem_seek.1 (h ▸ mem_cons_self : p ∈ s.seek k)
  refine ⟨hp.1, hp.2, fun q hq hkq => ?_⟩
  have hsorted : (p :: rest).Pairwise fun p q => p.1 < q.1 := h ▸ s.sorted.filter _
  have hq : q ∈ p :: rest := h ▸ mem_seek.2 ⟨hq, hkq⟩
  rcases mem_cons.1 hq with rfl | hq
  · exact Or.inl rfl
  · exact Or.inr ((pairwise_cons.1 hsorted).1 q hq)

/-- **A scan up to the first record that fails a test** is exact if no record
behind it passes. -/
theorem takeWhile_seek {test : κ × ν → Bool} (h : ∀ p ∈ s.records, ∀ q ∈ s.records, k ≤ p.1 →
      p.1 < q.1 → test q = true → test p = true) :
    (s.seek k).takeWhile test = s.records.filter fun p => test p && decide (k ≤ p.1) := by
  have hscan : ∀ l : List (κ × ν), l.Pairwise (fun p q => p.1 < q.1) → (∀ p ∈ l, ∀ q ∈ l,
      p.1 < q.1 → test q = true → test p = true) → l.takeWhile test = l.filter test := by
    intro l hl hclosed
    induction l with
    | nil => rfl
    | cons p l ih =>
      obtain ⟨hp, hl⟩ := pairwise_cons.1 hl
      by_cases htest : test p = true
      · rw [takeWhile_cons_of_pos htest, filter_cons_of_pos htest, ih hl fun a ha b hb =>
          hclosed a (mem_cons_of_mem p ha) b (mem_cons_of_mem p hb)]
      · rw [takeWhile_cons_of_neg htest, eq_comm, filter_eq_nil_iff]
        intro q hq hpass
        rcases mem_cons.1 hq with rfl | hmem
        · exact htest hpass
        · exact htest (hclosed p mem_cons_self q hq (hp q hmem) hpass)
  rw [hscan (s.seek k) (s.sorted.filter _), seek, filter_filter]
  intro p hp q hq
  obtain ⟨hp, hk⟩ := mem_seek.1 hp
  exact h p hp q (mem_seek.1 hq).1 hk

/-- What is left when several keys are erased. -/
theorem mem_foldl_erase {ks : List κ} :
    p ∈ (ks.foldl erase s).records ↔ p ∈ s.records ∧ p.1 ∉ ks := by
  induction ks generalizing s with
  | nil => simp
  | cons k ks ih => rw [foldl_cons, ih, mem_erase, mem_cons, not_or, and_assoc]

end SortedStore

end Slucore

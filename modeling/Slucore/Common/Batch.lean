import Mathlib.Data.List.Basic
/-!
# Batches of writes

A batch is a list of writes to a map, in order, a write of `none` being an
erasure. A batch is conclusive if a key that is written again is erased
by the later write: what a key then holds can be read off the batch without
its order (`Conclusive.applyBatch_of_mem`), and a map changed by one batch and
then by another of the same keys is the old map exactly where the second
batch says so (`applyBatch_restores_iff`).
-/


namespace Slucore

open List

variable {κ ν : Type} [DecidableEq κ]

/-- The map after a batch. -/
def applyBatch (m : κ → Option ν) (batch : List (κ × Option ν)) : κ → Option ν :=
  batch.foldl (fun m p => Function.update m p.1 p.2) m

/-- A key that is written again is erased. -/
def Conclusive (batch : List (κ × Option ν)) : Prop :=
  batch.Pairwise fun p q => p.1 = q.1 → q.2 = none

/-- What a write comes to in the end: it is an erasure, or its key is not
erased. -/
def Lasting (batch : List (κ × Option ν)) (p : κ × Option ν) : Prop :=
  p ∈ batch ∧ (p.2 = none ∨ (p.1, none) ∉ batch)

variable {m : κ → Option ν} {batch : List (κ × Option ν)} {k : κ} {x : Option ν}

theorem applyBatch_cons (m : κ → Option ν) (p : κ × Option ν) (batch : List (κ × Option ν)) :
    applyBatch m (p :: batch) = applyBatch (Function.update m p.1 p.2) batch := rfl

theorem applyBatch_of_not_mem (h : k ∉ batch.map Prod.fst) : applyBatch m batch k = m k := by
  induction batch generalizing m with
  | nil => rfl
  | cons p batch ih =>
    rw [map_cons, mem_cons, not_or] at h
    rw [applyBatch_cons, ih h.2, Function.update_of_ne h.1]

/-- **A key holds what was written to it**, unless it was erased. -/
theorem Conclusive.applyBatch_of_mem (h : Conclusive batch) (hp : Lasting batch (k, x)) :
    applyBatch m batch k = x := by
  induction batch generalizing m with
  | nil => exact absurd hp.1 not_mem_nil
  | cons p batch ih =>
    obtain ⟨hhead, htail⟩ := pairwise_cons.1 h
    obtain ⟨hmem, hlast⟩ := hp
    rw [applyBatch_cons]
    by_cases hk : k ∈ batch.map Prod.fst
    · -- a later write of the key is there: it decides
      obtain ⟨⟨k', y⟩, hq, rfl⟩ := List.mem_map.1 hk
      rcases mem_cons.1 hmem with rfl | hmem
      · obtain rfl : y = none := hhead _ hq rfl
        obtain rfl : x = none := by
          rcases hlast with hnone | hnot
          · exact hnone
          · exact absurd (mem_cons_of_mem _ hq) hnot
        exact ih htail ⟨hq, .inl rfl⟩
      · exact ih htail ⟨hmem, hlast.imp_right fun hnot hq => hnot (mem_cons_of_mem _ hq)⟩
    · have hp : p = (k, x) := by
        rcases mem_cons.1 hmem with rfl | hmem
        · rfl
        · exact absurd (List.mem_map_of_mem hmem) hk
      rw [applyBatch_of_not_mem hk, hp, Function.update_self]

/-- Every key of a batch has a write that lasts. -/
theorem exists_lasting (h : k ∈ batch.map Prod.fst) : ∃ x, Lasting batch (k, x) := by
  obtain ⟨⟨k, x⟩, hp, rfl⟩ := List.mem_map.1 h
  by_cases hnone : (k, none) ∈ batch
  · exact ⟨none, hnone, .inl rfl⟩
  · exact ⟨x, hp, .inr hnone⟩

/-- **A second batch restores the map** that a first one changed, if it writes
every key of the first, exactly where the map held what the writes of the
second come to. -/
theorem applyBatch_restores_iff {first : List (κ × Option ν)} (h : Conclusive batch)
    (hkeys : ∀ k ∈ first.map Prod.fst, k ∈ batch.map Prod.fst) :
    applyBatch (applyBatch m first) batch = m ↔ ∀ p, Lasting batch p → m p.1 = p.2 := by
  constructor
  · intro heq p hp
    rw [← h.applyBatch_of_mem hp, heq]
  intro hm
  funext k
  by_cases hk : k ∈ batch.map Prod.fst
  · obtain ⟨x, hx⟩ := exists_lasting hk
    rw [h.applyBatch_of_mem hx, hm _ hx]
  · rw [applyBatch_of_not_mem hk, applyBatch_of_not_mem fun hf => hk (hkeys k hf)]

end Slucore

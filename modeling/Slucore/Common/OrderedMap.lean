import Std.Data.TreeMap.Lemmas
import Mathlib.Algebra.BigOperators.Group.Finset.Basic
import Mathlib.Tactic
/-!
# Ordered maps: lookups, and sums over the entries

A few facts about `Std.TreeMap` in the form proofs use them: lookups in
terms of equality of keys, and the sum over the entries of a map as a
sum over any finite set that holds its keys.
-/


namespace Slucore

open Std.TreeMap

namespace OrderedMap

variable {κ α : Type} [Ord κ] [Std.TransOrd κ] {m : Std.TreeMap κ α} {k k' : κ} {v : α}

theorem contains_iff : m.contains k = true ↔ ∃ v, m[k]? = some v := by
  rw [contains_eq_isSome_getElem?, Option.isSome_iff_exists]

theorem getElem?_of_not_contains (h : ¬ m.contains k = true) : m[k]? = none := by
  simpa using h

variable [Std.LawfulEqOrd κ]

/-- No key occurs twice among the entries. -/
theorem keys_nodup : (m.toList.map Prod.fst).Nodup := by
  rw [List.nodup_iff_pairwise_ne, List.pairwise_map]
  refine distinct_keys_toList.imp fun h heq => h ?_
  rw [Std.LawfulEqCmp.compare_eq_iff_eq]
  exact heq

variable [DecidableEq κ]

theorem getElem?_insert : (m.insert k v)[k']? = if k' = k then some v else m[k']? := by
  rw [Std.TreeMap.getElem?_insert]
  simp [eq_comm (a := k) (b := k')]

/-- **The sum over the entries**, as a sum over keys. -/
theorem sum_toList {s : Finset κ} (f : κ → α → ℕ) (hs : ∀ k v, m[k]? = some v → k ∈ s) :
    (m.toList.map fun p => f p.1 p.2).sum = ∑ k ∈ s, (m[k]?).elim 0 (f k) := by
  have hmap : (m.toList.map fun p => f p.1 p.2) =
      (m.toList.map Prod.fst).map fun k => (m[k]?).elim 0 (f k) := by
    rw [List.map_map]
    refine List.map_congr_left fun p hp => ?_
    have hget := mem_toList_iff_getElem?_eq_some.1 hp
    simp [hget]
  rw [hmap, ← List.sum_toFinset _ keys_nodup]
  refine Finset.sum_subset (fun k hk => ?_) fun k _ hk => ?_
  · obtain ⟨p, hp, rfl⟩ := List.mem_map.1 (List.mem_toFinset.1 hk)
    exact hs p.1 p.2 (mem_toList_iff_getElem?_eq_some.1 hp)
  cases hget : m[k]? with
  | none => rfl
  | some v =>
    have hmem := mem_toList_iff_getElem?_eq_some.2 hget
    exact absurd (List.mem_toFinset.2 (List.mem_map.2 ⟨(k, v), hmem, rfl⟩)) hk

end OrderedMap

end Slucore

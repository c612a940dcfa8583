import Mathlib.Data.Set.Lattice
import Mathlib.Order.CompletePartialOrder
/-!
# An index written by layers

A stack of layers, each with entries under keys of its own, and one index
that is to hold the entries of all layers of the stack. The index is kept
by inserting the entries of a layer that comes on top where nothing is
yet, and by deleting under all keys of a layer that goes. While the keys
of the layers are apart, that keeps the index equal to the union.
-/


namespace Slucore

open Option

/-- The entries of one layer. -/
structure Layer (κ α : Type) where
  keys : Set κ
  entry : κ → Option α
  /-- Entries are under keys of the layer. -/
  mem_keys : ∀ k a, entry k = some a → k ∈ keys

namespace Layer

variable {κ α : Type}

/-- The entries of a stack of layers, the uppermost first. -/
def union (ls : List (Layer κ α)) (k : κ) : Option α := ls.findSome? fun l => l.entry k

@[simp] theorem union_nil (k : κ) : union ([] : List (Layer κ α)) k = none := rfl

theorem union_cons (l : Layer κ α) (ls : List (Layer κ α)) (k : κ) :
    union (l :: ls) k = (l.entry k).or (union ls k) := by
  unfold union
  rw [List.findSome?_cons]
  cases l.entry k <;> rfl

/-- No two layers of a stack have a key in common. -/
def Apart (ls : List (Layer κ α)) : Prop := ls.Pairwise fun l m => Disjoint l.keys m.keys

variable {l : Layer κ α} {ls : List (Layer κ α)} {k : κ}

theorem entry_eq_none (h : k ∉ l.keys) : l.entry k = none := by
  by_contra hne
  obtain ⟨a, ha⟩ := ne_none_iff_exists'.1 hne
  exact h (l.mem_keys k a ha)

section

variable (h : ∀ m ∈ ls, Disjoint l.keys m.keys)
include h

/-- Layers apart from one have nothing under its keys. -/
theorem union_eq_none (hk : k ∈ l.keys) :
    union ls k = none := by
  refine List.findSome?_eq_none_iff.2 fun m hm => ?_
  exact entry_eq_none (Set.disjoint_left.1 (h m hm) hk)

/-- **A layer inserted on top of an index of the others.** -/
theorem insert_eq_union :
    (union ls k).or (l.entry k) = union (l :: ls) k := by
  rw [union_cons]
  by_cases hk : k ∈ l.keys
  · rw [union_eq_none h hk, none_or, or_none]
  · rw [entry_eq_none hk, none_or, or_none]

/-- **The keys of the uppermost layer deleted.** -/
theorem delete_eq_union [DecidablePred (· ∈ l.keys)] :
    (if k ∈ l.keys then none else union (l :: ls) k) = union ls k := by
  by_cases hk : k ∈ l.keys
  · rw [if_pos hk, union_eq_none h hk]
  · rw [if_neg hk, union_cons, entry_eq_none hk, none_or]

end

theorem Apart.tail (h : Apart (l :: ls)) : Apart ls := h.of_cons

theorem Apart.head (h : Apart (l :: ls)) : ∀ m ∈ ls, Disjoint l.keys m.keys :=
  (List.pairwise_cons.1 h).1

theorem Apart.cons (hl : ∀ m ∈ ls, Disjoint l.keys m.keys) (hls : Apart ls) : Apart (l :: ls) :=
  List.pairwise_cons.2 ⟨hl, hls⟩

end Layer

end Slucore

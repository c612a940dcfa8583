import Mathlib.Logic.Relation
import Mathlib.Data.List.Basic
/-!
# Rooted trees by parent pointers

Nodes know their parent, and one of them is the root. `Anc` is the
ancestor relation, `walk` the list a walk towards the root passes. On a
set of nodes that is closed under parents and on which a height counts
the steps to the root (`Rooted`), the two agree.
-/


namespace Slucore

open Relation.ReflTransGen

section Ancestry

variable {α : Type} (root : α) (prev : α → α)

/-- `a` is the parent of `x`. -/
def IsParent (a x : α) : Prop := x ≠ root ∧ prev x = a

/-- `a` is `x` or one of its ancestors. -/
def Anc : α → α → Prop := Relation.ReflTransGen (IsParent root prev)

/-- The nodes a walk of at most `n` steps towards the root passes. -/
def walk [DecidableEq α] : ℕ → α → List α
  | 0, x => [x]
  | n + 1, x => if x = root then [x] else x :: walk n (prev x)

variable {root prev} {a b x : α}

theorem Anc.refl (x : α) : Anc root prev x x := Relation.ReflTransGen.refl

theorem Anc.trans (hab : Anc root prev a b) (hbx : Anc root prev b x) : Anc root prev a x :=
  Relation.ReflTransGen.trans hab hbx

theorem Anc.up (hx : x ≠ root) (h : Anc root prev a (prev x)) : Anc root prev a x :=
  tail h ⟨hx, rfl⟩

theorem anc_prev (hx : x ≠ root) : Anc root prev (prev x) x := Anc.up hx (Anc.refl _)

/-- An ancestor of a node is the node or an ancestor of its parent. -/
theorem anc_iff : Anc root prev a x ↔ a = x ∨ x ≠ root ∧ Anc root prev a (prev x) := by
  constructor
  · intro h
    rcases cases_tail h with h | ⟨b, hab, hx, rfl⟩
    · exact Or.inl h.symm
    · exact Or.inr ⟨hx, hab⟩
  · rintro (rfl | ⟨hx, h⟩)
    · exact Anc.refl a
    · exact Anc.up hx h

/-- The root has no ancestor but itself. -/
theorem anc_root_iff : Anc root prev a root ↔ a = root := by
  rw [anc_iff]
  exact ⟨fun h => h.resolve_right fun h => h.1 rfl, Or.inl⟩

/-- Two ancestors of one node are ancestors of one another. -/
theorem Anc.total (ha : Anc root prev a x) (hb : Anc root prev b x) :
    Anc root prev a b ∨ Anc root prev b a := by
  induction ha with
  | refl => exact Or.inr hb
  | @tail c y hac hcy ih =>
    rcases anc_iff.1 hb with rfl | ⟨-, hb⟩
    · exact Or.inl (tail hac hcy)
    · exact ih (hcy.2 ▸ hb)

/-- A walk from the root goes nowhere. -/
theorem walk_root [DecidableEq α] (n : ℕ) : walk root prev n root = [root] := by
  cases n <;> simp [walk]

variable (root prev) in
/-- The nodes of `K` hang together, and `h` counts the steps to the root. -/
structure Rooted (K : α → Prop) (h : α → ℕ) : Prop where
  root_mem : K root
  root_height : h root = 0
  prev_mem : ∀ x, K x → x ≠ root → K (prev x)
  height : ∀ x, K x → x ≠ root → h x = h (prev x) + 1

namespace Rooted

variable {K : α → Prop} {h : α → ℕ} (R : Rooted root prev K h)
include R

/-- Induction from the root upwards. -/
@[elab_as_elim]
theorem induct {motive : (x : α) → K x → Prop} (base : motive root R.root_mem)
    (up : ∀ x hx hr, motive (prev x) (R.prev_mem x hx hr) → motive x hx) {x : α} (hx : K x) :
    motive x hx := by
  generalize hn : h x = n
  induction n generalizing x with
  | zero =>
    by_cases hr : x = root
    · subst hr
      exact base
    · have := R.height x hx hr
      omega
  | succ n ih =>
    by_cases hr : x = root
    · subst hr
      exact base
    · have hh := R.height x hx hr
      exact up x hx hr (ih (R.prev_mem x hx hr) (by omega))

theorem mem (hax : Anc root prev a x) (hx : K x) : K a := by
  induction hax with
  | refl => exact hx
  | @tail c y hac hcy ih => exact ih (hcy.2 ▸ R.prev_mem y hx hcy.1)

theorem height_le (hax : Anc root prev a x) (hx : K x) : h a ≤ h x := by
  induction hax with
  | refl => exact Nat.le_refl _
  | @tail c y hac hcy ih =>
    have hc : K c := hcy.2 ▸ R.prev_mem y hx hcy.1
    have hy : h y = h c + 1 := hcy.2 ▸ R.height y hx hcy.1
    have := ih hc
    omega

/-- An ancestor that is as high as the node is the node. -/
theorem eq_of_height_le (hax : Anc root prev a x) (hx : K x) (hle : h x ≤ h a) : a = x := by
  rcases anc_iff.1 hax with rfl | ⟨hr, hax⟩
  · rfl
  · have hy := R.height x hx hr
    have hp := R.height_le hax (R.prev_mem x hx hr)
    omega

theorem antisymm (hab : Anc root prev a b) (hba : Anc root prev b a) (hb : K b) : a = b :=
  R.eq_of_height_le hab hb (R.height_le hba (R.mem hab hb))

theorem root_anc (hx : K x) : Anc root prev root x :=
  R.induct (Anc.refl _) (fun _ _ hr ih => Anc.up hr ih) hx

/-- Of two ancestors of one node the lower is an ancestor of the higher. -/
theorem anc_of_height_le (ha : Anc root prev a x) (hb : Anc root prev b x) (hx : K x)
    (hle : h a ≤ h b) : Anc root prev a b := by
  rcases ha.total hb with hab | hba
  · exact hab
  · exact R.eq_of_height_le hba (R.mem ha hx) hle ▸ Anc.refl _

section Walk

variable [DecidableEq α]

theorem walk_height (hx : K x) (hr : x ≠ root) :
    walk root prev (h x) x = x :: walk root prev (h (prev x)) (prev x) := by
  rw [R.height x hx hr, walk, if_neg hr]

/-- **A walk as long as a node is high passes its ancestors.** -/
theorem mem_walk_iff (hx : K x) : a ∈ walk root prev (h x) x ↔ Anc root prev a x := by
  induction hx using R.induct with
  | base => rw [walk_root, List.mem_singleton, anc_root_iff]
  | up x hx hr ih =>
    rw [R.walk_height hx hr, List.mem_cons, ih, anc_iff (x := x)]
    exact or_congr_right ⟨fun h => ⟨hr, h⟩, fun h => h.2⟩

theorem length_walk (hx : K x) : (walk root prev (h x) x).length = h x + 1 := by
  induction hx using R.induct with
  | base => rw [walk_root, R.root_height, List.length_singleton]
  | up x hx hr ih => rw [R.walk_height hx hr, List.length_cons, ih, R.height x hx hr]

/-- It ends at the root. -/
theorem getLast?_walk (hx : K x) : (walk root prev (h x) x).getLast? = some root := by
  induction hx using R.induct with
  | base => rw [walk_root, List.getLast?_singleton]
  | up x hx hr ih => rw [R.walk_height hx hr, List.getLast?_cons, ih, Option.getD_some]

end Walk

end Rooted

/-! ## Paths upwards -/

variable (root prev) in
/-- The list leads from `f`, a child at a time, up to `x`. -/
inductive Ascends : α → List α → α → Prop
  | nil (f : α) : Ascends f [] f
  | cons {f c x : α} {cs : List α} (hc : c ≠ root) (hf : prev c = f) (hcs : Ascends c cs x) :
      Ascends f (c :: cs) x

theorem Ascends.snoc {f : α} {cs : List α} (h : Ascends root prev f cs (prev x)) (hx : x ≠ root) :
    Ascends root prev f (cs ++ [x]) x := by
  generalize hp : prev x = p at h
  induction h with
  | nil f => exact .cons hx hp (.nil x)
  | cons hc hf _ ih => exact .cons hc hf (ih hp)

theorem Ascends.anc {f : α} {cs : List α} (h : Ascends root prev f cs x) : Anc root prev f x := by
  induction h with
  | nil f => exact Anc.refl f
  | cons hc hf _ ih =>
    subst hf
    exact (anc_prev hc).trans ih

end Ancestry

end Slucore

import Mathlib.Algebra.BigOperators.Group.List.Basic
import Mathlib.Data.Int.ModEq
import Mathlib.Tactic
/-!
# Books: sums by key, and a wrapping balance they explain

A list of entries has, for every key, the sum of the values under it. A
balance kept in fixed-width arithmetic is explained by what came in and
what went out, apart from entries that were recorded and then undone
(`Settles`): always as a residue, and exactly whenever the old balance
and everything recorded as coming in fit the width.
-/


namespace Slucore

variable {τ A : Type} [DecidableEq A] {key : τ → A} {val : τ → ℕ}

/-- The sum of the values of the entries with key `a`. -/
def keyedSum (key : τ → A) (val : τ → ℕ) (ts : List τ) (a : A) : ℕ :=
  (ts.map fun t => if key t = a then val t else 0).sum

@[simp] theorem keyedSum_nil (a : A) : keyedSum key val [] a = 0 := rfl

@[simp] theorem keyedSum_cons (t : τ) (ts : List τ) (a : A) :
    keyedSum key val (t :: ts) a = (if key t = a then val t else 0) + keyedSum key val ts a := by
  simp [keyedSum]

@[simp] theorem keyedSum_append (ts us : List τ) (a : A) :
    keyedSum key val (ts ++ us) a = keyedSum key val ts a + keyedSum key val us a := by
  simp [keyedSum]

/-- A key that no entry carries sums to nothing. -/
theorem keyedSum_eq_zero {ts : List τ} {a : A} (h : ∀ t ∈ ts, key t ≠ a) :
    keyedSum key val ts a = 0 := by
  induction ts with
  | nil => rfl
  | cons t ts ih =>
    rw [keyedSum_cons, if_neg (h t List.mem_cons_self),
      ih fun u hu => h u (List.mem_cons_of_mem t hu)]

/-- The sums of all keys together. -/
theorem sum_keyedSum {ts : List τ} {s : Finset A} (h : ∀ t ∈ ts, key t ∈ s) :
    ∑ a ∈ s, keyedSum key val ts a = (ts.map val).sum := by
  induction ts with
  | nil => simp
  | cons t ts ih =>
    simp only [keyedSum_cons, Finset.sum_add_distrib, List.map_cons, List.sum_cons]
    rw [ih fun u hu => h u (List.mem_cons_of_mem t hu), Finset.sum_ite_eq,
      if_pos (h t List.mem_cons_self)]

/-- A sum over a filtered list. -/
theorem sum_map_filter {M : Type} [AddCommMonoid M] (p : τ → Bool) (f : τ → M) (l : List τ) :
    ((l.filter p).map f).sum = (l.map fun x => if p x then f x else 0).sum := by
  induction l with
  | nil => rfl
  | cons x l ih =>
    by_cases hx : p x = true <;> simp [hx, ih]

/-! ## Residues -/

variable {w : ℕ} {x y : BitVec w}

theorem toNat_add_modEq : ((x + y).toNat : ℤ) ≡ x.toNat + y.toNat [ZMOD 2 ^ w] := by
  rw [BitVec.toNat_add]
  push_cast
  exact Int.mod_modEq _ _

theorem toNat_sub_modEq : ((x - y).toNat : ℤ) ≡ x.toNat - y.toNat [ZMOD 2 ^ w] := by
  have h : ((x - y + y).toNat : ℤ) ≡ (x - y).toNat + y.toNat [ZMOD 2 ^ w] := toNat_add_modEq
  rw [BitVec.sub_add_cancel] at h
  have := h.symm.sub_right (y.toNat : ℤ)
  simpa using this

/-! ## A balance and its books -/

/-- The balance went from `b` to `b'` while `i` was recorded as coming in
and `o` as going out, of which `ui` and `uo` were undone. -/
structure Settles (b b' : BitVec w) (i o ui uo : ℕ) : Prop where
  undone_in : ui ≤ i
  undone_out : uo ≤ o
  modEq : (b'.toNat : ℤ) ≡ b.toNat + (i - o) - (ui - uo) [ZMOD 2 ^ w]
  exact : b.toNat + i < 2 ^ w → b'.toNat + o + ui = b.toNat + i + uo

namespace Settles

variable {b b' b'' : BitVec w} {i o ui uo i' o' ui' uo' : ℕ}

theorem refl (b : BitVec w) : Settles b b 0 0 0 0 :=
  ⟨le_rfl, le_rfl, by simp, fun _ => rfl⟩

/-- **Books add up.** -/
theorem trans (h : Settles b b' i o ui uo) (h' : Settles b' b'' i' o' ui' uo') :
    Settles b b'' (i + i') (o + o') (ui + ui') (uo + uo') := by
  have h₁ := h.undone_in
  have h₂ := h.undone_out
  refine ⟨Nat.add_le_add h₁ h'.undone_in, Nat.add_le_add h₂ h'.undone_out, ?_, fun hlt => ?_⟩
  · have hm := h'.modEq.trans ((h.modEq.add_right _).sub_right _)
    exact hm.trans (congrArg (· % (2 ^ w : ℤ)) (by push_cast; ring))
  · have e := h.exact (by omega)
    have e' := h'.exact (by omega)
    omega

/-- Everything recorded and undone leaves the balance as it was. -/
theorem undone (b : BitVec w) (i o : ℕ) : Settles b b i o i o :=
  ⟨le_rfl, le_rfl, by simp, fun _ => by omega⟩

/-- One movement: `x` out of what is there, and `y` in. -/
theorem move (hx : x ≤ b) : Settles b (b - x + y) y.toNat x.toNat 0 0 := by
  refine ⟨Nat.zero_le _, Nat.zero_le _, ?_, fun hlt => ?_⟩
  · have hm : ((b - x + y).toNat : ℤ) ≡ b.toNat - x.toNat + y.toNat [ZMOD 2 ^ w] :=
      toNat_add_modEq.trans (toNat_sub_modEq.add_right _)
    exact hm.trans (congrArg (· % (2 ^ w : ℤ)) (by ring))
  · have hle : x.toNat ≤ b.toNat := hx
    rw [BitVec.toNat_add, BitVec.toNat_sub_of_le hx, Nat.mod_eq_of_lt (by omega)]
    omega

/-- **The books are right exactly when what was undone is neutral**, as
residues. -/
theorem net_modEq_iff (h : Settles b b' i o ui uo) :
    ((i : ℤ) - o ≡ b'.toNat - b.toNat [ZMOD 2 ^ w]) ↔ ((ui : ℤ) - uo ≡ 0 [ZMOD 2 ^ w]) := by
  have hm := Int.modEq_iff_dvd.1 h.modEq
  rw [Int.modEq_iff_dvd, Int.modEq_iff_dvd]
  constructor
  · intro hd
    have hsum := dvd_add hm hd
    rwa [show (b.toNat + ((i : ℤ) - o) - (ui - uo) - b'.toNat + (b'.toNat - b.toNat - (i - o))) =
      0 - (ui - uo) by ring] at hsum
  · intro hd
    have hdiff := dvd_sub hd hm
    rwa [show (0 - ((ui : ℤ) - uo) - (b.toNat + (i - o) - (ui - uo) - b'.toNat)) =
      b'.toNat - b.toNat - (i - o) by ring] at hdiff

/-- The same as numbers, when the books fit the width. -/
theorem net_eq_iff (h : Settles b b' i o ui uo) (hlt : b.toNat + i < 2 ^ w) :
    ((i : ℤ) - o = b'.toNat - b.toNat) ↔ ((ui : ℤ) - uo = 0) := by
  have he := h.exact hlt
  omega

end Settles

end Slucore

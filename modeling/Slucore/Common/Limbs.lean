import Mathlib.Data.Nat.Digits.Lemmas
import Mathlib.Tactic
/-!
# Numbers in limbs

A number of fixed width is kept as machine words, the least significant
first, in some base. The schoolbook product that drops what does not fit is
the product modulo the width (`ofDigits_mulRows`), and comparing from the
highest word down compares the numbers (`compareLimbs_eq`).
-/


namespace Slucore

open List

variable {B : ℕ}

/-- A row of the schoolbook product: `x` times `b` is added to `a`, with the
carry of the word before. The sum is computed in double words. -/
def mulRow (B x : ℕ) : List ℕ → List ℕ → ℕ → List ℕ
  | [], _, _ => []
  | a₀ :: a, b, carry =>
    let n := (carry + a₀ + x * b.headD 0) % (B * B)
    n % B :: mulRow B x a b.tail (n / B)

/-- The rows of the product, one for each word of the first factor. The lowest
word of a row is final. -/
def mulRows (B : ℕ) : List ℕ → List ℕ → List ℕ → List ℕ
  | [], _, a => a
  | x :: xs, b, a =>
    match mulRow B x a b 0 with
    | [] => []
    | a₀ :: a => a₀ :: mulRows B xs b a

/-- Comparison from the highest word down. -/
def compareLimbs : List ℕ → List ℕ → Ordering
  | x :: xs, y :: ys => (compareLimbs xs ys).then (compare x y)
  | _, _ => .eq

/-- The words of a list are words. -/
def Words (B : ℕ) (l : List ℕ) : Prop := ∀ d ∈ l, d < B

namespace Words

variable {d : ℕ} {l : List ℕ}

theorem head (h : Words B (d :: l)) : d < B := h d mem_cons_self

theorem tail (h : Words B (d :: l)) : Words B l := fun e he => h e (mem_cons_of_mem _ he)

theorem headD (h : Words B l) (hB : 0 < B) : l.headD 0 < B := by
  cases l with
  | nil => exact hB
  | cons d l => exact h.head

theorem of_tail (h : Words B l) : Words B l.tail := fun e he => h e (mem_of_mem_tail he)

theorem cons (hd : d < B) (h : Words B l) : Words B (d :: l) := by
  intro e he
  rcases mem_cons.1 he with rfl | he
  · exact hd
  · exact h e he

theorem replicate_zero (hB : 0 < B) (n : ℕ) : Words B (List.replicate n 0) := by
  intro d hd
  rw [(mem_replicate.1 hd).2]
  exact hB

end Words

/-- The lowest words of a number. -/
theorem ofDigits_words (B n count : ℕ) :
    Nat.ofDigits B ((List.range count).map fun i => n / B ^ i % B) = n % B ^ count := by
  induction count with
  | zero => simp [Nat.mod_one]
  | succ count ih =>
    rw [range_succ, map_append, Nat.ofDigits_append, ih, length_map,
      length_range, map_singleton, Nat.ofDigits_singleton, pow_succ, Nat.mod_mul]

theorem ofDigits_head_tail (l : List ℕ) :
    Nat.ofDigits B l = l.headD 0 + B * Nat.ofDigits B l.tail := by
  cases l with
  | nil => simp
  | cons d l => exact Nat.ofDigits_cons

/-- A sum of two words and a product of words fits into a double word. -/
theorem mulAdd_lt {carry a x b : ℕ} (hc : carry < B) (ha : a < B) (hx : x < B) (hb : b < B) :
    carry + a + x * b < B * B := by
  obtain ⟨C, rfl⟩ : ∃ C, B = C + 1 := ⟨B - 1, by omega⟩
  have hmul : x * b ≤ C * C := Nat.mul_le_mul (by omega) (by omega)
  have hsquare : (C + 1) * (C + 1) = C * C + 2 * C + 1 := by ring
  omega

theorem length_mulRow (x : ℕ) (a b : List ℕ) (carry : ℕ) :
    (mulRow B x a b carry).length = a.length := by
  induction a generalizing b carry with
  | nil => rfl
  | cons a₀ a ih => rw [mulRow, length_cons, ih, length_cons]

theorem words_mulRow (hB : 0 < B) (x : ℕ) (a b : List ℕ) (carry : ℕ) :
    Words B (mulRow B x a b carry) := by
  induction a generalizing b carry with
  | nil => exact fun d hd => absurd hd not_mem_nil
  | cons a₀ a ih => exact Words.cons (Nat.mod_lt _ hB) (ih _ _)

/-- **The value of a row**, up to what does not fit. -/
theorem ofDigits_mulRow {a b : List ℕ} {x carry : ℕ} (hx : x < B) (ha : Words B a) (hb : Words B b)
    (hc : carry < B) : Nat.ofDigits B (mulRow B x a b carry) ≡
      Nat.ofDigits B a + x * Nat.ofDigits B b + carry [MOD B ^ a.length] := by
  induction a generalizing b carry with
  | nil => exact Nat.modEq_one
  | cons a₀ a ih =>
    have hB : 0 < B := by omega
    have hfits := mulAdd_lt hc ha.head hx (hb.headD hB)
    set n := carry + a₀ + x * b.headD 0 with hn
    have hcarry : n / B < B := Nat.div_lt_of_lt_mul hfits
    have hrest := ih ha.tail hb.of_tail hcarry
    rw [mulRow, Nat.mod_eq_of_lt hfits, Nat.ofDigits_cons, Nat.ofDigits_cons, length_cons,
      pow_succ']
    have hsplit := Nat.mod_add_div n B
    have hvalue : n % B + B * (Nat.ofDigits B a + x * Nat.ofDigits B b.tail + n / B) =
        a₀ + B * Nat.ofDigits B a + x * Nat.ofDigits B b + carry := by
      calc n % B + B * (Nat.ofDigits B a + x * Nat.ofDigits B b.tail + n / B)
          = n % B + B * (n / B) + B * (Nat.ofDigits B a + x * Nat.ofDigits B b.tail) := by ring
        _ = a₀ + B * Nat.ofDigits B a + x * (b.headD 0 + B * Nat.ofDigits B b.tail) + carry := by
          rw [hsplit]
          ring
        _ = _ := by rw [← ofDigits_head_tail]
    rw [← hvalue]
    exact (hrest.mul_left' B).add_left (n % B)

/-- The rows keep the width and the words. -/
theorem mulRows_spec (hB : 0 < B) (xs b : List ℕ) {a : List ℕ} (ha : Words B a) :
    (mulRows B xs b a).length = a.length ∧ Words B (mulRows B xs b a) := by
  induction xs generalizing a with
  | nil => exact ⟨rfl, ha⟩
  | cons x xs ih =>
    have hlen := length_mulRow (B := B) x a b 0
    have hwords := words_mulRow hB x a b 0
    rw [mulRows]
    split
    · next h =>
      rw [h] at hlen
      exact ⟨hlen, fun d hd => absurd hd not_mem_nil⟩
    · next a₀ a' h =>
      rw [h] at hlen hwords
      obtain ⟨hlen', hwords'⟩ := ih hwords.tail
      exact ⟨by rw [length_cons, hlen', ← hlen, length_cons],
        Words.cons hwords.head hwords'⟩

/-- **The schoolbook product** is the product, up to what does not fit. -/
theorem ofDigits_mulRows (hB : 0 < B) {xs b a : List ℕ} (hxs : Words B xs) (hb : Words B b)
    (ha : Words B a) : Nat.ofDigits B (mulRows B xs b a) ≡
      Nat.ofDigits B a + Nat.ofDigits B xs * Nat.ofDigits B b [MOD B ^ a.length] := by
  induction xs generalizing a with
  | nil => simp [mulRows, Nat.ModEq.refl]
  | cons x xs ih =>
    have hlen := length_mulRow (B := B) x a b 0
    have hwords := words_mulRow hB x a b 0
    have hrow := ofDigits_mulRow hxs.head ha hb hB
    rw [mulRows]
    split
    · next h =>
      rw [h] at hlen
      rw [← hlen]
      exact Nat.modEq_one
    · next a₀ a' h =>
      rw [h] at hlen hwords hrow
      have hrest := ih hxs.tail hwords.tail
      have hpow : B ^ a.length = B * B ^ a'.length := by
        rw [← hlen, length_cons, pow_succ']
      rw [hpow] at hrow ⊢
      calc a₀ + B * Nat.ofDigits B (mulRows B xs b a')
          ≡ a₀ + B * (Nat.ofDigits B a' + Nat.ofDigits B xs * Nat.ofDigits B b)
            [MOD B * B ^ a'.length] := (hrest.mul_left' B).add_left a₀
        _ = Nat.ofDigits B (a₀ :: a') + B * (Nat.ofDigits B xs * Nat.ofDigits B b) := by
          rw [Nat.ofDigits_cons]
          ring
        _ ≡ Nat.ofDigits B a + x * Nat.ofDigits B b + 0 +
            B * (Nat.ofDigits B xs * Nat.ofDigits B b) [MOD B * B ^ a'.length] :=
          hrow.add_right _
        _ = Nat.ofDigits B a + (x + B * Nat.ofDigits B xs) * Nat.ofDigits B b := by ring

/-- **Comparing words from the highest down compares the numbers.** -/
theorem compareLimbs_eq {a b : List ℕ} (hlen : a.length = b.length) (ha : Words B a)
    (hb : Words B b) : compareLimbs a b = compare (Nat.ofDigits B a) (Nat.ofDigits B b) := by
  induction a generalizing b with
  | nil =>
    obtain rfl := eq_nil_of_length_eq_zero hlen.symm
    rfl
  | cons x xs ih =>
    cases b with
    | nil => exact absurd hlen (by simp)
    | cons y ys =>
      have hrest := ih (Nat.succ.inj hlen) ha.tail hb.tail
      have hx := ha.head
      have hy := hb.head
      rw [compareLimbs, hrest, Nat.ofDigits_cons, Nat.ofDigits_cons]
      -- the words below the highest difference do not matter
      rcases lt_trichotomy (Nat.ofDigits B xs) (Nat.ofDigits B ys) with h | h | h
      · have hmul := Nat.mul_le_mul_left B h
        rw [compare_lt_iff_lt.2 h, Ordering.lt_then, eq_comm, compare_lt_iff_lt]
        rw [Nat.mul_succ] at hmul
        omega
      · rw [h, compare_eq_iff_eq.2 rfl, Ordering.eq_then]
        rcases lt_trichotomy x y with h' | h' | h'
        · rw [compare_lt_iff_lt.2 h', eq_comm, compare_lt_iff_lt]
          exact Nat.add_lt_add_right h' _
        · rw [h', compare_eq_iff_eq.2 rfl, compare_eq_iff_eq.2 rfl]
        · rw [compare_gt_iff_gt.2 h', eq_comm, compare_gt_iff_gt]
          exact Nat.add_lt_add_right h' _
      · have hmul := Nat.mul_le_mul_left B h
        rw [compare_gt_iff_gt.2 h, Ordering.gt_then, eq_comm, compare_gt_iff_gt]
        rw [Nat.mul_succ] at hmul
        omega

end Slucore

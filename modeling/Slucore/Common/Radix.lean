import Slucore.Common.Checked
import Slucore.Common.Limbs
import Mathlib.Data.List.DropRight
/-!
# Changing the base of a number

A number arrives digit by digit, the most significant first, in one base,
and is kept in a buffer of digits of another base, the least significant
first: for every digit the buffer is multiplied by the first base and the
digit is added, with a carry (`carryPass`). A pass stops once the carry is
zero and the digits that are in use are passed. If the number fits into the
buffer nothing is lost, and the digits in use are those of the number
(`radixLoop_eq_ok`, `InBuffer.digits_eq`).
-/


namespace Slucore

open List hiding le_refl not_lt

variable {B m : ℕ}

/-- The pass over the buffer, with the number of digits in use: the carry that
is left, the buffer and the number of digits passed. -/
def carryPass (B m : ℕ) : ℕ → ℕ → List ℕ → ℕ × List ℕ × ℕ
  | _, carry, [] => (carry, [], 0)
  | used, carry, d :: ds =>
    if carry ≠ 0 ∨ 0 < used then
      let t := carry + m * d
      let r := carryPass B m (used - 1) (t / B) ds
      (r.1, t % B :: r.2.1, r.2.2 + 1)
    else (carry, d :: ds, 0)

/-- The loop over the digits; a carry that is left stops it. -/
def radixLoop {ε : Type} (e : ε) (B m : ℕ) (s : List ℕ × ℕ) (digits : List ℕ) :
    Except ε (List ℕ × ℕ) :=
  digits.foldlM (fun s digit => do
    let r := carryPass B m s.2 digit s.1
    require (r.1 == 0) e
    return (r.2.1, r.2.2)) s

/-- The number that digits stand for, the most significant first, after a
number that is there already. -/
def valueFrom (m : ℕ) (start : ℕ) (digits : List ℕ) : ℕ :=
  digits.foldl (fun n d => m * n + d) start

/-- The buffer holds the number, in the digits in use. -/
structure InBuffer (B size n : ℕ) (s : List ℕ × ℕ) : Prop where
  words : Words B s.1
  length_eq : s.1.length = size
  value : Nat.ofDigits B s.1 = n
  used_le : s.2 ≤ size
  lt_used : n < B ^ s.2

/-! ## A pass -/

/-- **What a pass computes**: the product and the digit, of which the carry is
what does not fit. -/
theorem carryPass_spec (hB : 0 < B) {ds : List ℕ} {used : ℕ} (carry : ℕ) (hwords : Words B ds)
    (hlt : Nat.ofDigits B ds < B ^ used) :
    (carryPass B m used carry ds).1 * B ^ ds.length +
        Nat.ofDigits B (carryPass B m used carry ds).2.1 = m * Nat.ofDigits B ds + carry ∧
      Words B (carryPass B m used carry ds).2.1 ∧
      (carryPass B m used carry ds).2.1.length = ds.length ∧
      (carryPass B m used carry ds).2.2 ≤ ds.length ∧
      Nat.ofDigits B (carryPass B m used carry ds).2.1 < B ^ (carryPass B m used carry ds).2.2 := by
  induction ds generalizing used carry with
  | nil => simp [carryPass, Words]
  | cons d ds ih =>
    rw [Nat.ofDigits_cons] at hlt
    unfold carryPass
    split
    · -- the digits above are below the next power
      have hlt' : Nat.ofDigits B ds < B ^ (used - 1) := by
        cases used with
        | zero =>
          rw [pow_zero] at hlt ⊢
          by_contra hpos
          have := Nat.mul_le_mul hB (not_lt.1 hpos)
          omega
        | succ used =>
          rw [pow_succ'] at hlt
          exact lt_of_mul_lt_mul_left (by omega : B * Nat.ofDigits B ds < B * B ^ used) hB.le
      obtain ⟨hvalue, hwords', hlen, hle, hused⟩ := ih ((carry + m * d) / B) hwords.tail hlt'
      have hmod := Nat.mod_lt (carry + m * d) hB
      refine ⟨?_, Words.cons hmod hwords', by simp [hlen], by simp [hle], ?_⟩
      · have hdiv := Nat.div_add_mod (carry + m * d) B
        dsimp only
        generalize carryPass B m (used - 1) ((carry + m * d) / B) ds = r at hvalue ⊢
        generalize (carry + m * d) / B = quo at hvalue hdiv
        generalize (carry + m * d) % B = rem at hdiv ⊢
        calc r.1 * (B ^ ds.length * B) + (rem + B * Nat.ofDigits B r.2.1)
            = B * (r.1 * B ^ ds.length + Nat.ofDigits B r.2.1) + rem := by ring
          _ = B * (m * Nat.ofDigits B ds + quo) + rem := by rw [hvalue]
          _ = m * (B * Nat.ofDigits B ds) + (B * quo + rem) := by ring
          _ = m * (d + B * Nat.ofDigits B ds) + carry := by rw [hdiv]; ring
      · rw [Nat.ofDigits_cons, pow_succ']
        have := Nat.mul_le_mul (le_refl B) hused
        rw [Nat.succ_eq_add_one, mul_add] at this
        omega
    · -- nothing is carried and no digit is in use: the number is zero
      rename_i hstop
      push Not at hstop
      obtain ⟨rfl, hused⟩ := hstop
      obtain rfl : used = 0 := by omega
      rw [pow_zero] at hlt
      have hzero : d + B * Nat.ofDigits B ds = 0 := by omega
      simp [Nat.ofDigits_cons, hzero, hwords]

/-- A pass over a buffer into which the result fits. -/
theorem InBuffer.pass {size n digit : ℕ} {s : List ℕ × ℕ} (hB : 0 < B)
    (h : InBuffer B size n s) (hfits : m * n + digit < B ^ size) :
    (carryPass B m s.2 digit s.1).1 = 0 ∧
      InBuffer B size (m * n + digit) (carryPass B m s.2 digit s.1).2 := by
  obtain ⟨hwords, hlen, hvalue, -, hlt⟩ := h
  obtain ⟨hval, hwords', hlen', hle, hused⟩ := carryPass_spec (m := m) hB digit hwords
    (hvalue ▸ hlt)
  rw [hvalue, hlen] at hval
  have hcarry : (carryPass B m s.2 digit s.1).1 = 0 := by
    by_contra hne
    have := Nat.mul_le_mul (Nat.one_le_iff_ne_zero.2 hne) (le_refl (B ^ size))
    omega
  rw [hcarry, zero_mul, zero_add] at hval
  exact ⟨hcarry, hwords', hlen'.trans hlen, hval, hlen ▸ hle, hval ▸ hused⟩

/-! ## The loop -/

theorem valueFrom_cons (m start d : ℕ) (digits : List ℕ) :
    valueFrom m start (d :: digits) = valueFrom m (m * start + d) digits := rfl

theorem valueFrom_append (m start : ℕ) (xs ys : List ℕ) :
    valueFrom m start (xs ++ ys) = valueFrom m (valueFrom m start xs) ys := foldl_append

theorem valueFrom_eq (m start : ℕ) (digits : List ℕ) :
    valueFrom m start digits = start * m ^ digits.length + valueFrom m 0 digits := by
  induction digits generalizing start with
  | nil => simp [valueFrom]
  | cons d digits ih =>
    rw [valueFrom_cons, valueFrom_cons, ih, ih (m * 0 + d), length_cons]
    ring

theorem valueFrom_zero (m : ℕ) (digits : List ℕ) :
    valueFrom m 0 digits = Nat.ofDigits m digits.reverse := by
  induction digits with
  | nil => rfl
  | cons d digits ih =>
    rw [valueFrom_cons, valueFrom_eq, ih, reverse_cons,
      Nat.ofDigits_append, Nat.ofDigits_singleton, length_reverse]
    ring

theorem le_valueFrom (hm : 0 < m) (start : ℕ) (digits : List ℕ) :
    start ≤ valueFrom m start digits := by
  rw [valueFrom_eq]
  have := Nat.mul_le_mul (le_refl start) (Nat.one_le_pow digits.length m hm)
  omega

theorem radixLoop_cons {ε : Type} (e : ε) (s : List ℕ × ℕ) (d : ℕ) (digits : List ℕ) :
    radixLoop e B m s (d :: digits) = (require ((carryPass B m s.2 d s.1).1 == 0) e >>=
      fun _ => radixLoop e B m (carryPass B m s.2 d s.1).2 digits) := by
  rw [radixLoop, foldlM_cons]
  simp only [require]
  cases (carryPass B m s.2 d s.1).1 == 0 <;> rfl

/-- **The loop goes through** if the number fits, and leaves it in the buffer. -/
theorem radixLoop_eq_ok {ε : Type} {e : ε} {size n : ℕ} {digits : List ℕ} {s : List ℕ × ℕ} (hB : 0 < B)
    (hm : 0 < m) (h : InBuffer B size n s) (hfits : valueFrom m n digits < B ^ size) :
    ∃ s', radixLoop e B m s digits = .ok s' ∧ InBuffer B size (valueFrom m n digits) s' := by
  induction digits generalizing n s with
  | nil => exact ⟨s, rfl, h⟩
  | cons d digits ih =>
    have hlt : m * n + d < B ^ size := (le_valueFrom hm _ digits).trans_lt hfits
    obtain ⟨hcarry, hbuf⟩ := h.pass hB hlt
    obtain ⟨s', hrun, hs'⟩ := ih hbuf hfits
    refine ⟨s', ?_, hs'⟩
    rw [radixLoop_cons, hcarry]
    exact hrun

theorem inBuffer_zero (hB : 0 < B) (size : ℕ) : InBuffer B size 0 (List.replicate size 0, 0) := by
  refine ⟨Words.replicate_zero hB size, by simp, ?_, Nat.zero_le _, by simp⟩
  rw [Nat.ofDigits_replicate_zero]

/-! ## The digits in use -/

theorem ofDigits_rdropWhile_zero (B : ℕ) (l : List ℕ) :
    Nat.ofDigits B (l.rdropWhile (· == 0)) = Nat.ofDigits B l := by
  induction l using List.reverseRecOn with
  | nil => simp
  | append_singleton l d ih =>
    rw [rdropWhile_concat]
    split
    · rename_i hd
      obtain rfl : d = 0 := by simpa using hd
      rw [ih]
      simp
    · rfl

/-- **Digits without leading zeros** are those of the number. -/
theorem dropWhile_zero_reverse (hB : 1 < B) {l : List ℕ} (hl : Words B l) :
    l.reverse.dropWhile (· == 0) = (Nat.digits B (Nat.ofDigits B l)).reverse := by
  have hdrop : l.rdropWhile (· == 0) = Nat.digits B (Nat.ofDigits B l) := by
    rw [← ofDigits_rdropWhile_zero]
    refine (Nat.digits_ofDigits B hB _ (fun d hd => ?_) fun hne => ?_).symm
    · exact hl d ((List.rdropWhile_prefix _ l).subset hd)
    · have := rdropWhile_last_not (· == 0) l hne
      simpa using this
  rw [← hdrop, List.rdropWhile, reverse_reverse]

/-- The digits in use are all there is. -/
theorem InBuffer.digits_eq {size n : ℕ} {s : List ℕ × ℕ} (hB : 1 < B) (h : InBuffer B size n s) :
    (s.1.take s.2).reverse.dropWhile (· == 0) = (Nat.digits B n).reverse := by
  obtain ⟨hwords, hlen, hvalue, hle, hlt⟩ := h
  have htake : Nat.ofDigits B (s.1.take s.2) = n := by
    have hsplit := @Nat.ofDigits_append B (s.1.take s.2) (s.1.drop s.2)
    rw [take_append_drop, length_take, hlen, min_eq_left hle] at hsplit
    have hrest : Nat.ofDigits B (s.1.drop s.2) = 0 := by
      by_contra hne
      have := Nat.mul_le_mul (le_refl (B ^ s.2)) (Nat.one_le_iff_ne_zero.2 hne)
      omega
    rw [hrest] at hsplit
    omega
  rw [dropWhile_zero_reverse hB fun d hd => hwords d (mem_of_mem_take hd), htake]

/-! ## Numerals -/

/-- A number after some zeros, the most significant digit first. -/
def numeral (B zeros n : ℕ) : List ℕ := List.replicate zeros 0 ++ (Nat.digits B n).reverse

theorem words_numeral (hB : 1 < B) (zeros n : ℕ) : Words B (numeral B zeros n) := by
  intro d hd
  rcases mem_append.1 hd with hd | hd
  · rw [eq_of_mem_replicate hd]
    omega
  · exact Nat.digits_lt_base hB (mem_reverse.1 hd)

theorem valueFrom_numeral (B zeros n : ℕ) : valueFrom B 0 (numeral B zeros n) = n := by
  rw [valueFrom_zero, numeral, reverse_append, reverse_reverse, Nat.ofDigits_append,
    Nat.ofDigits_digits]
  simp

theorem takeWhile_numeral (B zeros n : ℕ) :
    ((numeral B zeros n).takeWhile (· == 0)).length = zeros := by
  have hnone : (Nat.digits B n).reverse.takeWhile (· == 0) = [] := by
    rw [takeWhile_eq_nil_iff]
    intro hl hzero
    have hne : Nat.digits B n ≠ [] := by
      rintro hnil
      simp [hnil] at hl
    refine Nat.getLast_digit_ne_zero B (Nat.digits_ne_nil_iff_ne_zero.1 hne) ?_
    rw [get_eq_getElem, getElem_zero] at hzero
    simpa using hzero
  rw [numeral, takeWhile_append_of_pos, hnone, append_nil, length_replicate]
  intro d hd
  simp [eq_of_mem_replicate hd]

/-- **Digits are told by the zeros in front and the number.** -/
theorem numeral_eq (hB : 1 < B) {l : List ℕ} (hl : Words B l) :
    numeral B (l.takeWhile (· == 0)).length (valueFrom B 0 l) = l := by
  have hzero : List.replicate (l.takeWhile (· == 0)).length 0 = l.takeWhile (· == 0) := by
    refine (eq_replicate_iff.2 ⟨rfl, fun d hd => ?_⟩).symm
    simpa using mem_takeWhile_imp hd
  have hdigits := dropWhile_zero_reverse hB fun d hd => hl d (mem_reverse.1 hd)
  rw [reverse_reverse, ← valueFrom_zero] at hdigits
  rw [numeral, hzero, ← hdigits, takeWhile_append_dropWhile]

end Slucore

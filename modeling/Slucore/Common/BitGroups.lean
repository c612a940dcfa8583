import Slucore.Common.Radix
/-!
# Regrouping bits

Groups of `frombits` bits arrive one after the other, the most significant
bits first, and are given out as groups of `tobits` bits. What is kept in
between is the low bits of the number read so far and how many of them have
not been given out. A last group that is not full is filled up with zeros,
or has to be short and zero. Filling up and then going back is the identity
(`convertBits_roundtrip`).
-/


namespace Slucore

open List

/-- The groups that are full, and the number of bits left. The fuel is no
limit if it is at least the number of bits. -/
def emitGroups (tobits acc : ℕ) : ℕ → ℕ → List ℕ × ℕ
  | 0, bits => ([], bits)
  | fuel + 1, bits =>
    if tobits ≤ bits then
      let r := emitGroups tobits acc fuel (bits - tobits)
      ((acc >>> (bits - tobits)) % 2 ^ tobits :: r.1, r.2)
    else ([], bits)

/-- The loop over the groups, with the bits kept and their number: the groups
given out, and what is kept in the end. -/
def convertLoop (frombits tobits : ℕ) : ℕ → ℕ → List ℕ → List ℕ × ℕ × ℕ
  | acc, bits, [] => ([], acc, bits)
  | acc, bits, v :: vs =>
    let acc := (acc <<< frombits ||| v) % 2 ^ (frombits + tobits - 1)
    let e := emitGroups tobits acc (bits + frombits) (bits + frombits)
    let r := convertLoop frombits tobits acc e.2 vs
    (e.1 ++ r.1, r.2)

/-- The groups given out, and whether the last group was as it should be. -/
def convertBits (frombits tobits : ℕ) (pad : Bool) (it : List ℕ) : List ℕ × Bool :=
  let r := convertLoop frombits tobits 0 0 it
  let acc := r.2.1
  let bits := r.2.2
  if pad then
    if bits ≠ 0 then (r.1 ++ [(acc <<< (tobits - bits)) % 2 ^ tobits], true) else (r.1, true)
  else if frombits ≤ bits ∨ (acc <<< (tobits - bits)) % 2 ^ tobits ≠ 0 then (r.1, false)
  else (r.1, true)

variable {f t : ℕ}

/-! ## The groups that are full -/

/-- What has been given out is all but the bits that are left. -/
structure Given (t total n : ℕ) (out : List ℕ) (bits : ℕ) : Prop where
  words : Words (2 ^ t) out
  value : valueFrom (2 ^ t) 0 out = n / 2 ^ bits
  count : t * out.length + bits = total

variable {total n bits : ℕ}

theorem Given.snoc {out : List ℕ} (h : Given t total n out bits) (hle : t ≤ bits) :
    Given t total n (out ++ [(n / 2 ^ (bits - t)) % 2 ^ t]) (bits - t) := by
  obtain ⟨hwords, hvalue, hcount⟩ := h
  refine ⟨?_, ?_, ?_⟩
  · intro d hd
    rcases mem_append.1 hd with hd | hd
    · exact hwords d hd
    · rw [mem_singleton.1 hd]
      exact Nat.mod_lt _ (by positivity)
  · rw [valueFrom_append, hvalue]
    have hsplit : n / 2 ^ bits = n / 2 ^ (bits - t) / 2 ^ t := by
      rw [Nat.div_div_eq_div_mul, ← pow_add, Nat.sub_add_cancel hle]
    rw [hsplit]
    exact Nat.div_add_mod _ _
  · rw [length_append, length_singleton, mul_add]
    omega

/-- **The groups that are full** are given out, and fewer bits than a group
are left. -/
theorem emitGroups_spec (ht : 0 < t) {acc fuel bits : ℕ} {out : List ℕ}
    (hacc : acc = n % 2 ^ (f + t - 1)) (hfuel : bits ≤ fuel) (hbits : bits ≤ f + t - 1)
    (h : Given t total n out bits) :
    Given t total n (out ++ (emitGroups t acc fuel bits).1) (emitGroups t acc fuel bits).2 ∧
      (emitGroups t acc fuel bits).2 < t := by
  induction fuel generalizing bits out with
  | zero =>
    obtain rfl : bits = 0 := by omega
    simp only [emitGroups, append_nil]
    exact ⟨h, ht⟩
  | succ fuel ih =>
    unfold emitGroups
    split
    · rename_i hle
      -- the group lies within the bits that are kept
      have hgroup : acc >>> (bits - t) % 2 ^ t = n / 2 ^ (bits - t) % 2 ^ t := by
        have hpow : f + t - 1 = (bits - t) + (f + t - 1 - (bits - t)) := by omega
        rw [hacc, Nat.shiftRight_eq_div_pow, hpow, pow_add, Nat.mod_mul_right_div_self,
          Nat.mod_mod_of_dvd]
        exact pow_dvd_pow 2 (by omega)
      have hnext := ih (by omega) (by omega) (h.snoc hle)
      rw [← hgroup, List.append_assoc] at hnext
      exact hnext
    · rw [append_nil]
      exact ⟨h, by omega⟩

/-! ## The loop -/

/-- A group that arrives is all left at first. -/
theorem Given.read {v : ℕ} {out : List ℕ} (h : Given t total n out bits)
    (hv : v < 2 ^ f) : Given t (total + f) (2 ^ f * n + v) out (bits + f) := by
  obtain ⟨hwords, hvalue, hcount⟩ := h
  refine ⟨hwords, ?_, by omega⟩
  rw [hvalue, add_comm bits, pow_add, ← Nat.div_div_eq_div_mul, Nat.mul_add_div (by positivity),
    Nat.div_eq_of_lt hv, add_zero]

theorem acc_read {v k : ℕ} (hv : v < 2 ^ f) :
    ((n % k) <<< f ||| v) % k = (2 ^ f * n + v) % k := by
  rw [← Nat.shiftLeft_add_eq_or_of_lt hv, Nat.shiftLeft_eq, mul_comm (n % k)]
  exact ((Nat.mod_modEq n k).mul_left (2 ^ f)).add_right v

/-- **The loop** gives out all but a part of a group, which is kept. -/
theorem convertLoop_spec (ht : 0 < t) {vs out : List ℕ} {acc bits total n : ℕ}
    (hwords : Words (2 ^ f) vs) (hacc : acc = n % 2 ^ (f + t - 1)) (hbits : bits < t)
    (h : Given t total n out bits) :
    Given t (total + f * vs.length) (valueFrom (2 ^ f) n vs)
        (out ++ (convertLoop f t acc bits vs).1) (convertLoop f t acc bits vs).2.2 ∧
      (convertLoop f t acc bits vs).2.2 < t ∧
      (convertLoop f t acc bits vs).2.1 = valueFrom (2 ^ f) n vs % 2 ^ (f + t - 1) := by
  induction vs generalizing acc bits total n out with
  | nil =>
    simp only [convertLoop, append_nil]
    exact ⟨h, hbits, hacc⟩
  | cons v vs ih =>
    have hacc' := acc_read (f := f) (n := n) (k := 2 ^ (f + t - 1)) hwords.head
    rw [← hacc] at hacc'
    obtain ⟨hgiven, hlt⟩ := emitGroups_spec ht hacc' le_rfl (by omega) (h.read hwords.head)
    have hrest := ih hwords.tail hacc' hlt hgiven
    rw [List.append_assoc, add_assoc, add_comm f] at hrest
    exact hrest

variable {vs : List ℕ}

/-- The whole of what arrives. -/
theorem convertLoop_zero (ht : 0 < t) (h : Words (2 ^ f) vs) :
    Given t (f * vs.length) (valueFrom (2 ^ f) 0 vs) (convertLoop f t 0 0 vs).1
        (convertLoop f t 0 0 vs).2.2 ∧
      (convertLoop f t 0 0 vs).2.2 < t ∧
      (convertLoop f t 0 0 vs).2.1 = valueFrom (2 ^ f) 0 vs % 2 ^ (f + t - 1) := by
  have hnone : Given t 0 0 [] 0 := ⟨fun d hd => absurd hd not_mem_nil, by simp [valueFrom], by simp⟩
  have hspec := convertLoop_spec ht h (Nat.zero_mod _).symm ht hnone
  rwa [zero_add, nil_append] at hspec

/-! ## The last group -/

/-- The bits that are left, in front of zeros that fill them up to a group. -/
theorem last_group {k : ℕ} (hk : bits ≤ k) (hbits : bits ≤ t) :
    (n % 2 ^ k) <<< (t - bits) % 2 ^ t = 2 ^ (t - bits) * (n % 2 ^ bits) := by
  have hpow : 2 ^ t = 2 ^ (t - bits) * 2 ^ bits := by rw [← pow_add, Nat.sub_add_cancel hbits]
  rw [Nat.shiftLeft_eq, mul_comm (n % 2 ^ k), hpow, Nat.mul_mod_mul_left,
    Nat.mod_mod_of_dvd _ (pow_dvd_pow 2 hk)]

/-- **Filled up**, the groups are those of the number with `p` zero bits after
it. -/
theorem convertBits_pad (ht : 0 < t) (h : Words (2 ^ f) vs) :
    ∃ out p, convertBits f t true vs = (out, true) ∧ p < t ∧ Words (2 ^ t) out ∧
      t * out.length = f * vs.length + p ∧
      valueFrom (2 ^ t) 0 out = valueFrom (2 ^ f) 0 vs * 2 ^ p := by
  obtain ⟨⟨hwords, hvalue, hcount⟩, hlt, hacc⟩ := convertLoop_zero ht h
  simp only [convertBits, if_true]
  split
  · rename_i hne
    rw [hacc, last_group (by omega) hlt.le]
    refine ⟨_, t - (convertLoop f t 0 0 vs).2.2, rfl, by omega, ?_, ?_, ?_⟩
    · intro d hd
      rcases mem_append.1 hd with hd | hd
      · exact hwords d hd
      · rw [mem_singleton.1 hd, ← last_group (by omega : _ ≤ f + t - 1) hlt.le]
        exact Nat.mod_lt _ (by positivity)
    · rw [length_append, length_singleton, mul_add]
      omega
    · generalize (convertLoop f t 0 0 vs).2.2 = bits at hvalue hlt
      have hpow : 2 ^ t = 2 ^ (t - bits) * 2 ^ bits := by
        rw [← pow_add, Nat.sub_add_cancel hlt.le]
      rw [valueFrom_append, valueFrom_cons, hvalue, hpow, mul_assoc]
      change 2 ^ (t - bits) * _ + 2 ^ (t - bits) * _ = _
      rw [← mul_add, Nat.div_add_mod, mul_comm]
  · rename_i hzero
    have hbits : (convertLoop f t 0 0 vs).2.2 = 0 := by omega
    rw [hbits] at hvalue hcount
    refine ⟨_, 0, rfl, ht, hwords, hcount, ?_⟩
    rw [hvalue, pow_zero, Nat.div_one, mul_one]

/-- **Going back** from a number with fewer than a group of zero bits after it. -/
theorem convertBits_nopad (hf : 0 < f) {ws : List ℕ} (h : Words (2 ^ t) ws) {len p : ℕ}
    (hpt : p < t) (hpf : p < f) (hlen : t * ws.length = f * len + p)
    (hvalue : valueFrom (2 ^ t) 0 ws = n * 2 ^ p) :
    ∃ out, convertBits t f false ws = (out, true) ∧ Words (2 ^ f) out ∧ out.length = len ∧
      valueFrom (2 ^ f) 0 out = n := by
  obtain ⟨⟨hwords, hout, hcount⟩, hlt, hacc⟩ := convertLoop_zero hf h
  have hdivmod : (convertLoop t f 0 0 ws).1.length = len ∧ (convertLoop t f 0 0 ws).2.2 = p := by
    rw [hlen] at hcount
    have hdiv := congrArg (· / f) hcount
    have hmod := congrArg (· % f) hcount
    simp only [Nat.mul_add_div hf, Nat.mul_add_mod, Nat.div_eq_of_lt hlt, Nat.div_eq_of_lt hpf,
      Nat.mod_eq_of_lt hlt, Nat.mod_eq_of_lt hpf] at hdiv hmod
    exact ⟨hdiv, hmod⟩
  rw [hdivmod.2, hvalue, Nat.mul_div_cancel _ (by positivity)] at hout
  refine ⟨_, ?_, hwords, hdivmod.1, hout⟩
  have hlast : (convertLoop t f 0 0 ws).2.1 <<< (f - p) % 2 ^ f = 0 := by
    rw [hacc, hvalue, last_group (by omega) hpf.le, Nat.mul_mod_left, mul_zero]
  simp only [convertBits, Bool.false_eq_true, if_false, hdivmod.2]
  rw [if_neg]
  omega

/-- Groups of one size are told by their number and their value. -/
theorem eq_of_valueFrom {B : ℕ} {xs ys : List ℕ} (hx : Words B xs) (hy : Words B ys)
    (hB : 1 < B) (hlen : xs.length = ys.length) (h : valueFrom B 0 xs = valueFrom B 0 ys) :
    xs = ys := by
  rw [valueFrom_zero, valueFrom_zero] at h
  refine reverse_injective (Nat.ofDigits_inj_of_len_eq hB (by simpa using hlen) ?_ ?_ h)
  · exact fun d hd => hx d (mem_reverse.1 hd)
  · exact fun d hd => hy d (mem_reverse.1 hd)

/-- **Filling up and going back** gives the groups that there were. -/
theorem convertBits_roundtrip (ht : 0 < t) (htf : t ≤ f) (h : Words (2 ^ f) vs) :
    ∃ out, convertBits f t true vs = (out, true) ∧ Words (2 ^ t) out ∧
      t * out.length < f * vs.length + t ∧ convertBits t f false out = (vs, true) := by
  obtain ⟨out, p, hout, hp, hwords, hlen, hvalue⟩ := convertBits_pad ht h
  obtain ⟨back, hback, hwords', hlen', hvalue'⟩ := convertBits_nopad (by omega) hwords hp
    (by omega) hlen hvalue
  have hB : 1 < 2 ^ f := Nat.one_lt_two_pow (by omega)
  obtain rfl := eq_of_valueFrom hwords' h hB hlen' hvalue'
  exact ⟨out, hout, hwords, by omega, hback⟩

end Slucore

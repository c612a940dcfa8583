import Mathlib.Tactic
/-!
# Primitives — integers of variable length

`WriteVarInt` writes a number in groups of seven bits, the highest first,
and takes one off all but the lowest, so no two byte strings stand for one
number. Read back, the groups that continue leave one more than they stand
for (`readVarIntFrom_bytes`), and what was read so far can be written again
(`bytes_of_readVarIntFrom`). So reading and writing are inverse
(`varints_bijective`), for integers of any width of seven bits or more.
-/

namespace Slucore

open List

/-- `GetSizeOfVarInt`. -/
def getSizeOfVarInt (n : ℕ) : ℕ :=
  if n ≤ 0x7F then 1 else getSizeOfVarInt ((n >>> 7) - 1) + 1
termination_by n
decreasing_by
  omega

/-- The loop of `WriteVarInt`: what it puts into `tmp`. `later` tells whether
`len` is not zero. -/
def varIntBytes (later : Bool) (n : ℕ) : List UInt8 :=
  UInt8.ofNat ((n &&& 0x7F) ||| if later then 0x80 else 0) ::
    if n ≤ 0x7F then [] else varIntBytes true ((n >>> 7) - 1)
termination_by n
decreasing_by
  omega

/-- `WriteVarInt` of an integer of `w` bits; none if `tmp` is too short. -/
def writeVarInt (w n : ℕ) : Option (List UInt8) :=
  let tmp := varIntBytes false n
  if tmp.length ≤ (w + 6) / 7 then some tmp.reverse else none

/-- The loop of `ReadVarInt`. -/
def readVarIntFrom (w n : ℕ) : List UInt8 → Except String (ℕ × List UInt8)
  | [] => .error "CDataStream::read(): end of data"
  | chData :: is =>
    if (2 ^ w - 1) >>> 7 < n then .error "ReadVarInt(): size too large"
    else
      let n := (n <<< 7 ||| (chData.toNat &&& 0x7F)) % 2 ^ w
      if chData.toNat &&& 0x80 ≠ 0 then
        if n = 2 ^ w - 1 then .error "ReadVarInt(): size too large" else readVarIntFrom w (n + 1) is
      else .ok (n, is)

/-- `ReadVarInt`. -/
def readVarInt (w : ℕ) (is : List UInt8) : Except String (ℕ × List UInt8) := readVarIntFrom w 0 is

variable {w n : ℕ}

/-! ## Groups of seven bits -/

theorem and_continue_ne_zero (b : UInt8) : b.toNat &&& 0x80 ≠ 0 ↔ 128 ≤ b.toNat := by
  have hlt := b.toNat_lt
  generalize b.toNat = x at hlt
  interval_cases x <;> decide

/-- The byte of the lowest group. -/
theorem toNat_group (later : Bool) (n : ℕ) :
    (UInt8.ofNat ((n &&& 0x7F) ||| if later then 0x80 else 0)).toNat =
      n % 128 + if later then 128 else 0 := by
  have hand : n &&& 0x7F = n % 128 := Nat.and_two_pow_sub_one_eq_mod n 7
  have hlt := Nat.mod_lt n (show 0 < 128 by decide)
  rw [hand]
  cases later with
  | false => simp; omega
  | true =>
    have hor : n % 128 ||| 0x80 = 0x80 + n % 128 := by
      rw [Nat.or_comm]
      exact (Nat.two_pow_add_eq_or_of_lt (i := 7) hlt 1).symm
    simp only [if_true, UInt8.toNat_ofNat']
    omega

/-- What the reader makes of a number and the bytes after it: it goes on with
one more if a group is to come. -/
def readOn (w : ℕ) (later : Bool) (n : ℕ) (is : List UInt8) : Except String (ℕ × List UInt8) :=
  if n + later.toNat < 2 ^ w then if later then readVarIntFrom w (n + 1) is else .ok (n, is)
  else .error "ReadVarInt(): size too large"

/-- **A turn of the reader** adds a group. -/
theorem readVarIntFrom_cons (hw : 7 ≤ w) (n : ℕ) (b : UInt8) (is : List UInt8) :
    readVarIntFrom w n (b :: is) =
      readOn w (decide (128 ≤ b.toNat)) (128 * n + b.toNat % 128) is := by
  obtain ⟨k, rfl⟩ := Nat.exists_eq_add_of_le' hw
  have hpow : 2 ^ (k + 7) = 2 ^ k * 128 := pow_add 2 k 7
  have hpos : 0 < 2 ^ k := by positivity
  have hand : b.toNat &&& 0x7F = b.toNat % 128 := Nat.and_two_pow_sub_one_eq_mod _ 7
  have hlt := Nat.mod_lt b.toNat (show 0 < 128 by decide)
  have hor : n <<< 7 ||| b.toNat % 128 = 128 * n + b.toNat % 128 := by
    rw [← Nat.shiftLeft_add_eq_or_of_lt hlt, Nat.shiftLeft_eq, Nat.mul_comm]
  simp only [readVarIntFrom, readOn, hand, hor, Nat.shiftRight_eq_div_pow, and_continue_ne_zero]
  generalize b.toNat % 128 = d at hlt
  generalize 2 ^ (k + 7) = M at hpow
  by_cases hlarge : (M - 1) / 2 ^ 7 < n
  · rw [if_pos hlarge, if_neg (by omega)]
  · have hmod : (128 * n + d) % M = 128 * n + d := Nat.mod_eq_of_lt (by omega)
    by_cases hmore : 128 ≤ b.toNat
    · simp only [hmod, hmore, decide_true, Bool.toNat_true]
      split_ifs <;> first | rfl | omega
    · simp only [hlarge, hmod, hmore, if_false, decide_false, Bool.toNat_false]
      rw [if_pos (by omega)]
      rfl

/-! ## Reading and writing -/

/-- What was read before the number is `n`: nothing, or groups that continue. -/
def readBefore : ℕ → List UInt8
  | 0 => []
  | n + 1 => (varIntBytes true n).reverse

/-- The lowest group of a number and those above. -/
theorem varIntBytes_group (m : ℕ) (b : UInt8) :
    varIntBytes (decide (128 ≤ b.toNat)) (128 * m + b.toNat % 128) =
      b :: (readBefore m).reverse := by
  have hlt := b.toNat_lt
  rw [varIntBytes]
  refine congrArg₂ _ (UInt8.toNat_inj.1 ?_) ?_
  · rw [toNat_group]
    by_cases hmore : 128 ≤ b.toNat <;> simp [hmore] <;> omega
  · cases m with
    | zero => rw [if_pos (by omega)]; rfl
    | succ m =>
      have hshift : (128 * (m + 1) + b.toNat % 128) >>> 7 - 1 = m := by
        omega
      rw [if_neg (by omega), hshift, readBefore, reverse_reverse]

/-- Every number has a lowest group, marked or not. -/
theorem exists_group (later : Bool) (n : ℕ) : ∃ (m : ℕ) (b : UInt8),
    decide (128 ≤ b.toNat) = later ∧ n = 128 * m + b.toNat % 128 := by
  refine ⟨n / 128, UInt8.ofNat (n % 128 + if later then 128 else 0), ?_, ?_⟩ <;>
    cases later <;> simp <;> omega

/-- **The reader on what the writer put down.** -/
theorem readVarIntFrom_bytes (hw : 7 ≤ w) (later : Bool) (n : ℕ) (is : List UInt8) :
    readVarIntFrom w 0 ((varIntBytes later n).reverse ++ is) = readOn w later n is := by
  induction n using Nat.strongRecOn generalizing later is with
  | ind n ih =>
    obtain ⟨m, b, rfl, rfl⟩ := exists_group later n
    rw [varIntBytes_group, reverse_cons, reverse_reverse, List.append_assoc,
      ← readVarIntFrom_cons hw]
    -- what stands before the group has been read
    cases m with
    | zero => rfl
    | succ m =>
      rw [readBefore, ih m (by omega), readOn, Bool.toNat_true]
      split
      · rfl
      · -- too large as it is, and so with another group
        rename_i hlarge
        rw [readVarIntFrom_cons hw, readOn, if_neg (by omega)]

/-- **What is read can be written again.** -/
theorem bytes_of_readVarIntFrom (hw : 7 ≤ w) {m : ℕ} {is rest : List UInt8}
    (h : readVarIntFrom w m is = .ok (n, rest)) :
    n < 2 ^ w ∧ readBefore m ++ is = (varIntBytes false n).reverse ++ rest := by
  induction is generalizing m with
  | nil => cases h
  | cons b is ih =>
    have hgroup := congrArg reverse (varIntBytes_group m b)
    rw [reverse_cons, reverse_reverse] at hgroup
    rw [← singleton_append, ← List.append_assoc, ← hgroup]
    rw [readVarIntFrom_cons hw, readOn] at h
    split at h
    · rename_i hfits
      split at h
      · rename_i hmore
        rw [hmore]
        exact ih h
      · rename_i hlast
        rw [Bool.not_eq_true] at hlast
        obtain ⟨⟩ := h
        rw [hlast] at hfits ⊢
        exact ⟨hfits, rfl⟩
    · cases h

/-! ## Lengths -/

theorem length_varIntBytes (later : Bool) (n : ℕ) :
    (varIntBytes later n).length = getSizeOfVarInt n := by
  induction n using Nat.strongRecOn generalizing later with
  | ind n ih =>
    rw [varIntBytes, getSizeOfVarInt, length_cons]
    split
    · rfl
    · rw [ih]
      omega

theorem getSizeOfVarInt_le {k : ℕ} (h : n < 128 ^ (k + 1)) : getSizeOfVarInt n ≤ k + 1 := by
  induction k generalizing n with
  | zero =>
    rw [getSizeOfVarInt, if_pos (by omega)]
  | succ k ih =>
    rw [getSizeOfVarInt]
    split
    · omega
    · have := ih (n := n >>> 7 - 1) (by omega)
      omega

/-- There is room for every integer of the width. -/
theorem writeVarInt_eq_some (hw : 7 ≤ w) (h : n < 2 ^ w) :
    writeVarInt w n = some (varIntBytes false n).reverse := by
  refine if_pos ?_
  obtain ⟨k, hk⟩ : ∃ k, (w + 6) / 7 = k + 1 := ⟨(w + 6) / 7 - 1, by omega⟩
  rw [length_varIntBytes, hk]
  refine getSizeOfVarInt_le (h.trans_le ?_)
  rw [show 128 = 2 ^ 7 from rfl, ← pow_mul]
  exact Nat.pow_le_pow_right (by decide) (by omega)

/-- **Varints are a bijection.** For integers of `w` bits: what is written is
read back, and has the length computed for it; what is read was written; and
what an integer of another width wrote is refused if it is too large. -/
theorem varints_bijective (hw : 7 ≤ w) :
    (∀ n < 2 ^ w, ∃ bytes, writeVarInt w n = some bytes ∧ bytes.length = getSizeOfVarInt n ∧
      ∀ rest, readVarInt w (bytes ++ rest) = .ok (n, rest)) ∧
    (∀ is n rest, readVarInt w is = .ok (n, rest) →
      n < 2 ^ w ∧ ∃ bytes, writeVarInt w n = some bytes ∧ is = bytes ++ rest) ∧
    ∀ w' n bytes rest, 2 ^ w ≤ n → writeVarInt w' n = some bytes →
      readVarInt w (bytes ++ rest) = .error "ReadVarInt(): size too large" := by
  refine ⟨fun n hn => ⟨_, writeVarInt_eq_some hw hn, ?_, fun rest => ?_⟩, fun is n rest h => ?_,
    fun w' n bytes rest hn h => ?_⟩
  · rw [length_reverse, length_varIntBytes]
  · rw [readVarInt, readVarIntFrom_bytes hw]
    exact if_pos hn
  · obtain ⟨hn, heq⟩ := bytes_of_readVarIntFrom hw h
    exact ⟨hn, _, writeVarInt_eq_some hw hn, heq⟩
  · simp only [writeVarInt] at h
    split at h
    · obtain ⟨⟩ := h
      rw [readVarInt, readVarIntFrom_bytes hw]
      exact if_neg (Nat.not_lt.2 hn)
    · cases h

/-- `65535` takes three bytes, of which an integer of 8 bits is not read. -/
theorem varint_65535 : writeVarInt 16 65535 = some [0x82, 0xFE, 0x7F] ∧
    readVarInt 16 [0x82, 0xFE, 0x7F] = .ok (65535, []) ∧
    readVarInt 8 [0x82, 0xFE, 0x7F] = .error "ReadVarInt(): size too large" := by
  have hread : readVarInt 16 [0x82, 0xFE, 0x7F] = .ok (65535, []) := by decide
  obtain ⟨-, bytes, hwrite, heq⟩ := (varints_bijective (w := 16) (by decide)).2.1 _ _ _ hread
  rw [append_nil] at heq
  subst heq
  exact ⟨hwrite, hread, (varints_bijective (w := 8) (by decide)).2.2 16 65535 _ [] (by decide) hwrite⟩

end Slucore

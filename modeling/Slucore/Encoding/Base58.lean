import Slucore.Common.Radix
import Slucore.Primitives.Destination
import Slucore.Primitives.Failure
/-!
# Encoding — base 58

`EncodeBase58` and `DecodeBase58` with their buffers of fixed size, and the
forms with a checksum. The buffers are large enough and the assertions in the
loops hold: a string of bytes is encoded as the digits of its number in base
58, after one `1` for each leading zero byte (`encodeBase58_eq`), and such a
string is decoded to the bytes of its number (`decodeBase58_eq`). The form
with a checksum is written with the letters `SL` in front, and read without
its first two letters if the whole has 36.
-/


namespace Slucore

open List hiding le_trans

/-- `pszBase58`: all letters and digits except `0`, `I`, `O` and `l`. -/
def pszBase58 : List UInt8 :=
  (['1', '2', '3', '4', '5', '6', '7', '8', '9', 'A', 'B', 'C', 'D', 'E', 'F', 'G', 'H', 'J', 'K',
    'L', 'M', 'N', 'P', 'Q', 'R', 'S', 'T', 'U', 'V', 'W', 'X', 'Y', 'Z', 'a', 'b', 'c', 'd', 'e',
    'f', 'g', 'h', 'i', 'j', 'k', 'm', 'n', 'o', 'p', 'q', 'r', 's', 't', 'u', 'v', 'w', 'x', 'y',
    'z']).map Char.toUInt8

/-- `mapBase58`. -/
def mapBase58 : List ℤ :=
  [-1, -1, -1, -1, -1, -1, -1, -1, -1, -1, -1, -1, -1, -1, -1, -1,
    -1, -1, -1, -1, -1, -1, -1, -1, -1, -1, -1, -1, -1, -1, -1, -1,
    -1, -1, -1, -1, -1, -1, -1, -1, -1, -1, -1, -1, -1, -1, -1, -1,
    -1, 0, 1, 2, 3, 4, 5, 6, 7, 8, -1, -1, -1, -1, -1, -1,
    -1, 9, 10, 11, 12, 13, 14, 15, 16, -1, 17, 18, 19, 20, 21, -1,
    22, 23, 24, 25, 26, 27, 28, 29, 30, 31, 32, -1, -1, -1, -1, -1,
    -1, 33, 34, 35, 36, 37, 38, 39, 40, 41, 42, 43, -1, 44, 45, 46,
    47, 48, 49, 50, 51, 52, 53, 54, 55, 56, 57, -1, -1, -1, -1, -1] ++
    List.replicate 128 (-1)

/-- `isspace`. -/
def isspace (c : UInt8) : Bool := c == 0x20 || (0x09 ≤ c && c ≤ 0x0d)

/-- The character `1`. -/
def charOne : UInt8 := 0x31

/-- The loop of `DecodeBase58` over the characters: `none` at a character that
is not in the alphabet. -/
def decodeChars : List UInt8 → List ℕ × ℕ → Except Failure (Option (List ℕ × ℕ))
  | [], s => .ok (some s)
  | c :: cs, s =>
    let carry := mapBase58.getD c.toNat (-1)
    if carry = -1 then .ok none
    else do
      let r := carryPass 256 58 s.2 carry.toNat s.1
      require (r.1 == 0) (.fatal "assert(carry == 0)")
      decodeChars cs (r.2.1, r.2.2)

/-- `DecodeBase58`, of a string that ends at its first null character. In a
string shorter than `2 ^ 31` no `int` overflows. -/
def decodeBase58 (str : List UInt8) : Except Failure (Option (List UInt8)) := do
  let psz := (str.takeWhile (· != 0)).dropWhile isspace
  let zeroes := (psz.takeWhile (· == charOne)).length
  let psz := psz.dropWhile (· == charOne)
  let size := psz.length * 733 / 1000 + 1
  match ← decodeChars (psz.takeWhile (!isspace ·)) (List.replicate size 0, 0) with
  | none => return none
  | some (b256, length) =>
    let trailing := (psz.dropWhile (!isspace ·)).dropWhile isspace
    if !trailing.isEmpty then return none
    else return some (List.replicate zeroes 0 ++
      ((b256.take length).reverse.dropWhile (· == 0)).map UInt8.ofNat)

/-- The length of a vector made with a size of type `int`. A size that is
negative as an `int` is more than any vector can hold. -/
def vectorSize (size : ℕ) : Except Failure ℕ :=
  let int := size % 2 ^ 32
  if int < 2 ^ 31 then .ok int else .error (.fatal "std::length_error")

/-- `EncodeBase58`. -/
def encodeBase58 (vch : List UInt8) : Except Failure (List UInt8) := do
  let zeroes := (vch.takeWhile (· == 0)).length
  let rest := vch.dropWhile (· == 0)
  let size ← vectorSize (rest.length * 138 / 100 + 1)
  let (b58, length) ← radixLoop (.fatal "assert(carry == 0)") 58 256 (List.replicate size 0, 0)
    (rest.map UInt8.toNat)
  return List.replicate zeroes charOne ++
    ((b58.take length).reverse.dropWhile (· == 0)).map fun d => pszBase58.getD d 0

/-- The first four bytes of a hash. -/
def checksum (hash : List UInt8 → Blob 32) (vch : List UInt8) : List UInt8 := (hash vch).1.take 4

/-- `EncodeBase58Check`. -/
def encodeBase58Check (hash : List UInt8 → Blob 32) (vchIn : List UInt8) :
    Except Failure (List UInt8) := do
  let str ← encodeBase58 (vchIn ++ checksum hash vchIn)
  return ['S', 'L'].map Char.toUInt8 ++ str

/-- `DecodeBase58Check`. -/
def decodeBase58Check (hash : List UInt8 → Blob 32) (str : List UInt8) :
    Except Failure (Option (List UInt8)) := do
  let psz := str.takeWhile (· != 0)
  let psz := if psz.length = 36 then psz.drop 2 else psz
  match ← decodeBase58 psz with
  | none => return none
  | some vch =>
    if vch.length < 4 then return none
    else
      let vchRet := vch.take (vch.length - 4)
      if checksum hash vchRet = vch.drop (vch.length - 4) then return some vchRet
      else return none

/-! ## The alphabet -/

/-- The character of a digit. -/
def char58 (d : ℕ) : UInt8 := pszBase58.getD d 0

theorem char58_spec : ∀ d < 58, mapBase58.getD (char58 d).toNat (-1) = (d : ℤ) ∧
    char58 d ≠ 0 ∧ isspace (char58 d) = false ∧ (char58 d = charOne ↔ d = 0) := by
  decide +kernel

/-- The loop over characters of the alphabet is the loop over their digits. -/
theorem decodeChars_eq {ds : List ℕ} (s : List ℕ × ℕ) (h : Words 58 ds) :
    decodeChars (ds.map char58) s =
      (radixLoop (.fatal "assert(carry == 0)") 256 58 s ds).map some := by
  induction ds generalizing s with
  | nil => rfl
  | cons d ds ih =>
    obtain ⟨hmap, -⟩ := char58_spec d h.head
    have hne : ¬ (d : ℤ) = -1 := by omega
    simp only [map_cons, decodeChars, hmap, if_neg hne, Int.toNat_natCast, ih _ h.tail]
    rw [radixLoop_cons, map_bind_eq]

/-- A string of the alphabet does not end early. -/
theorem takeWhile_char58 {ds : List ℕ} (h : Words 58 ds) :
    (ds.map char58).takeWhile (· != 0) = ds.map char58 := by
  refine takeWhile_eq_self_iff.2 fun c hc => ?_
  obtain ⟨d, hd, rfl⟩ := List.mem_map.1 hc
  simpa using (char58_spec d (h d hd)).2.1

/-! ## Leading zeros -/

theorem valueFrom_dropWhile_zero (m : ℕ) (ds : List ℕ) :
    valueFrom m 0 (ds.dropWhile (· == 0)) = valueFrom m 0 ds := by
  induction ds with
  | nil => rfl
  | cons d ds ih =>
    rw [dropWhile_cons]
    split
    · rename_i hd
      obtain rfl : d = 0 := by simpa using hd
      rw [ih, valueFrom_cons, mul_zero]
    · rfl

theorem valueFrom_lt {m : ℕ} (hm : 1 < m) {ds : List ℕ} (h : Words m ds) :
    valueFrom m 0 ds < m ^ ds.length := by
  rw [valueFrom_zero, ← length_reverse]
  exact Nat.ofDigits_lt_base_pow_length hm fun d hd => h d (mem_reverse.1 hd)

/-- A buffer has room for a number if its size is in the ratio `p` to `q`, one
more. -/
theorem pow_le_pow_of_ratio {a b p q : ℕ} (hq : 0 < q) (hb : 1 < b) (h : a ^ q ≤ b ^ p) (n : ℕ) :
    a ^ n ≤ b ^ (n * p / q + 1) := by
  refine (Nat.pow_le_pow_iff_left hq.ne').1 ?_
  have hdiv : n * p ≤ (n * p / q + 1) * q := by
    have := Nat.div_add_mod (n * p) q
    have := Nat.mod_lt (n * p) hq
    rw [add_mul, mul_comm (n * p / q) q]
    omega
  calc (a ^ n) ^ q = (a ^ q) ^ n := by rw [← pow_mul, ← pow_mul, mul_comm]
    _ ≤ (b ^ p) ^ n := Nat.pow_le_pow_left h n
    _ = b ^ (n * p) := by rw [← pow_mul, mul_comm]
    _ ≤ b ^ ((n * p / q + 1) * q) := Nat.pow_le_pow_right (by omega) hdiv
    _ = (b ^ (n * p / q + 1)) ^ q := by rw [pow_mul]

/-! ## Decoding -/

theorem takeWhile_charOne {ds : List ℕ} (h : Words 58 ds) :
    (ds.map char58).takeWhile (· == charOne) = (ds.takeWhile (· == 0)).map char58 ∧
      (ds.map char58).dropWhile (· == charOne) = (ds.dropWhile (· == 0)).map char58 := by
  induction ds with
  | nil => exact ⟨rfl, rfl⟩
  | cons d ds ih =>
    obtain ⟨-, -, -, hone⟩ := char58_spec d h.head
    obtain ⟨htake, hdrop⟩ := ih h.tail
    have heq : (char58 d == charOne) = (d == 0) := by
      rw [Bool.eq_iff_iff, beq_iff_eq, beq_iff_eq]
      exact hone
    rw [map_cons, takeWhile_cons, takeWhile_cons, dropWhile_cons,
      dropWhile_cons, heq]
    split
    · exact ⟨by rw [htake, map_cons], hdrop⟩
    · exact ⟨rfl, rfl⟩

/-- A string without a null character and without spaces is read as a whole. -/
theorem clean_string {str : List UInt8} (h : ∀ c ∈ str, c ≠ 0 ∧ isspace c = false) :
    (str.takeWhile (· != 0)).dropWhile isspace = str ∧
      (str.dropWhile (· == charOne)).takeWhile (!isspace ·) = str.dropWhile (· == charOne) := by
  refine ⟨?_, takeWhile_eq_self_iff.2 fun c hc => ?_⟩
  · rw [takeWhile_eq_self_iff.2 fun c hc => by simpa using (h c hc).1]
    refine dropWhile_eq_self_iff.2 fun hl => ?_
    rw [(h _ (getElem_mem hl)).2]
    decide
  · rw [(h c ((dropWhile_suffix _).subset hc)).2]
    rfl

/-- **Decoding**: a zero byte for each leading `1`, and the bytes of the number. -/
theorem decodeBase58_eq {ds : List ℕ} (h : Words 58 ds) :
    decodeBase58 (ds.map char58) = .ok (some ((numeral 256 (ds.takeWhile (· == 0)).length
      (valueFrom 58 0 ds)).map UInt8.ofNat)) := by
  obtain ⟨hself, hword⟩ := @clean_string (ds.map char58) fun c hc => by
    obtain ⟨d, hd, rfl⟩ := List.mem_map.1 hc
    exact ⟨(char58_spec d (h d hd)).2.1, (char58_spec d (h d hd)).2.2.1⟩
  obtain ⟨htake, hdrop⟩ := takeWhile_charOne h
  set rest := ds.dropWhile (· == 0) with hrest
  have hwords : Words 58 rest := fun d hd => h d ((dropWhile_suffix _).subset hd)
  rw [hdrop] at hword
  have htrail : (rest.map char58).dropWhile (!isspace ·) = [] :=
    dropWhile_eq_nil_iff.2 (takeWhile_eq_self_iff.1 hword)
  -- the buffer is large enough
  have hfits : valueFrom 58 0 rest < 256 ^ (rest.length * 733 / 1000 + 1) :=
    (valueFrom_lt (by decide) hwords).trans_le
      (pow_le_pow_of_ratio (by decide) (by decide) (by decide +kernel) rest.length)
  obtain ⟨s', hrun, hbuf⟩ := radixLoop_eq_ok (e := Failure.fatal "assert(carry == 0)")
    (by decide) (by decide) (inBuffer_zero (by decide) _) hfits
  simp only [decodeBase58, hself, htake, hdrop, hword, htrail, length_map,
    decodeChars_eq _ hwords, hrun, Except.map, ok_bind]
  rw [hbuf.digits_eq (by decide), valueFrom_dropWhile_zero, numeral, map_append, map_replicate]
  rfl

/-! ## Encoding -/

/-- The number of a string of bytes. -/
def bytesValue (vch : List UInt8) : ℕ := valueFrom 256 0 (vch.map UInt8.toNat)

/-- The digits of the encoding: a zero for each leading zero byte, and those
of the number. -/
def digits58 (vch : List UInt8) : List ℕ :=
  List.replicate (vch.takeWhile (· == 0)).length 0 ++ (Nat.digits 58 (bytesValue vch)).reverse

theorem words_toNat (vch : List UInt8) : Words 256 (vch.map UInt8.toNat) := by
  intro d hd
  obtain ⟨b, -, rfl⟩ := List.mem_map.1 hd
  exact b.toNat_lt

theorem words_digits58 (vch : List UInt8) : Words 58 (digits58 vch) :=
  words_numeral (by decide) _ _

theorem toNat_beq_zero : (fun b : ℕ => b == 0) ∘ UInt8.toNat = (· == 0) := by
  funext b
  rw [Function.comp_apply, Bool.eq_iff_iff, beq_iff_eq, beq_iff_eq, ← UInt8.toNat_inj]
  rfl

theorem vectorSize_eq_ok {size : ℕ} (h : size < 2 ^ 31) : vectorSize size = .ok size := by
  have hint : size % 2 ^ 32 = size := Nat.mod_eq_of_lt (by omega)
  rw [vectorSize, hint, if_pos h]

/-- **Encoding**: the characters of the digits. -/
theorem encodeBase58_eq {vch : List UInt8}
    (hsize : (vch.dropWhile (· == 0)).length * 138 / 100 + 1 < 2 ^ 31) :
    encodeBase58 vch = .ok ((digits58 vch).map char58) := by
  set rest := vch.dropWhile (· == 0) with hrest
  have hvalue : valueFrom 256 0 (rest.map UInt8.toNat) = bytesValue vch := by
    rw [hrest, ← toNat_beq_zero, ← dropWhile_map, valueFrom_dropWhile_zero, bytesValue]
  have hfits : valueFrom 256 0 (rest.map UInt8.toNat) < 58 ^ (rest.length * 138 / 100 + 1) := by
    refine (valueFrom_lt (by decide) (words_toNat rest)).trans_le ?_
    rw [length_map]
    exact pow_le_pow_of_ratio (by decide) (by decide) (by decide) rest.length
  obtain ⟨s', hrun, hbuf⟩ := radixLoop_eq_ok (e := Failure.fatal "assert(carry == 0)")
    (by decide) (by decide) (inBuffer_zero (by decide) _) hfits
  simp only [encodeBase58, ← hrest, vectorSize_eq_ok hsize, hrun, ok_bind]
  rw [hbuf.digits_eq (by decide), hvalue, digits58, map_append, map_replicate]
  rfl

theorem takeWhile_digits58 (vch : List UInt8) :
    ((digits58 vch).takeWhile (· == 0)).length = (vch.takeWhile (· == 0)).length :=
  takeWhile_numeral _ _ _

theorem valueFrom_digits58 (vch : List UInt8) : valueFrom 58 0 (digits58 vch) = bytesValue vch :=
  valueFrom_numeral _ _ _

/-- The bytes are told by their zeros in front and their number. -/
theorem numeral_bytes (vch : List UInt8) :
    numeral 256 (vch.takeWhile (· == 0)).length (bytesValue vch) = vch.map UInt8.toNat := by
  have h := numeral_eq (by decide) (words_toNat vch)
  rwa [takeWhile_map, toNat_beq_zero, length_map] at h

/-- **Decoding undoes encoding.** -/
theorem decodeBase58_digits58 (vch : List UInt8) :
    decodeBase58 ((digits58 vch).map char58) = .ok (some vch) := by
  have hid : UInt8.ofNat ∘ UInt8.toNat = id := funext fun b => UInt8.ofNat_toNat
  rw [decodeBase58_eq (words_digits58 vch), takeWhile_digits58, valueFrom_digits58, numeral_bytes,
    List.map_map, hid, List.map_id]

/-! ## Accepted strings -/

theorem mapBase58_cases (c : UInt8) :
    mapBase58.getD c.toNat (-1) = -1 ∨ ∃ d < 58, c = char58 d := by
  have hall : ∀ n < 256, mapBase58.getD n (-1) = -1 ∨ ∃ d < 58, UInt8.ofNat n = char58 d := by
    decide +kernel
  have hc := hall c.toNat c.toNat_lt
  rwa [UInt8.ofNat_toNat] at hc

/-- **The loop over any characters** does not stop at its assertion, and what
it accepts are digits. -/
theorem decodeChars_eq_ok {cs : List UInt8} {s : List ℕ × ℕ} {size n : ℕ}
    (h : InBuffer 256 size n s) (hfits : (n + 1) * 58 ^ cs.length ≤ 256 ^ size) :
    ∃ r, decodeChars cs s = .ok r ∧
      (r.isSome = true → ∃ ds, Words 58 ds ∧ cs = ds.map char58) := by
  induction cs generalizing s n with
  | nil => exact ⟨some s, rfl, fun _ => ⟨[], fun d hd => absurd hd not_mem_nil, rfl⟩⟩
  | cons c cs ih =>
    rcases mapBase58_cases c with hno | ⟨d, hd, rfl⟩
    · exact ⟨none, by rw [decodeChars, hno, if_pos rfl], fun hsome => absurd hsome (by decide)⟩
    · obtain ⟨hmap, -⟩ := char58_spec d hd
      have hnext : (58 * n + d + 1) * 58 ^ cs.length ≤ 256 ^ size := by
        refine le_trans ?_ hfits
        rw [length_cons, pow_succ', ← mul_assoc]
        exact Nat.mul_le_mul_right _ (by omega)
      have hlt : 58 * n + d < 256 ^ size :=
        (Nat.le_mul_of_pos_right _ (by positivity)).trans hnext
      obtain ⟨hcarry, hbuf⟩ := h.pass (by decide) hlt
      obtain ⟨r, hrun, hr⟩ := ih hbuf hnext
      refine ⟨r, ?_, fun hsome => ?_⟩
      · simp only [decodeChars, hmap, Int.toNat_natCast, hcarry]
        exact hrun
      · obtain ⟨ds, hwords, rfl⟩ := hr hsome
        exact ⟨d :: ds, Words.cons hd hwords, rfl⟩

/-- **Any string is accepted or refused**, and without spaces only digits are
accepted. -/
theorem decodeBase58_eq_ok (str : List UInt8) :
    ∃ r, decodeBase58 str = .ok r ∧ ((∀ c ∈ str, c ≠ 0 ∧ isspace c = false) →
      r.isSome = true → ∃ ds, Words 58 ds ∧ str = ds.map char58) := by
  set psz := (str.takeWhile (· != 0)).dropWhile isspace with hpsz
  set rest := psz.dropWhile (· == charOne) with hrest
  have hfits : (0 + 1) * 58 ^ (rest.takeWhile (!isspace ·)).length ≤
      256 ^ (rest.length * 733 / 1000 + 1) := by
    rw [zero_add, one_mul]
    exact (Nat.pow_le_pow_right (by decide) ( takeWhile_prefix _).length_le).trans
      (pow_le_pow_of_ratio (by decide) (by decide) (by decide +kernel) rest.length)
  obtain ⟨r, hrun, hr⟩ := decodeChars_eq_ok (inBuffer_zero (by decide) _) hfits
  simp only [decodeBase58, ← hpsz, ← hrest, hrun]
  cases r with
  | none => exact ⟨none, rfl, fun _ hsome => absurd hsome (by decide)⟩
  | some s' =>
    obtain ⟨ds, hwords, hds⟩ := hr rfl
    split_ifs with htrail
    · exact ⟨none, rfl, fun _ hsome => absurd hsome (by decide)⟩
    refine ⟨_, rfl, fun hclean _ => ?_⟩
    obtain ⟨hself, hword⟩ := clean_string hclean
    rw [← hpsz] at hself
    rw [hrest, hself, hword] at hds
    have hones : str.takeWhile (· == charOne) =
        (List.replicate (str.takeWhile (· == charOne)).length 0).map char58 := by
      rw [map_replicate]
      refine eq_replicate_iff.2 ⟨rfl, fun c hc => ?_⟩
      have hone := mem_takeWhile_imp hc
      exact (beq_iff_eq.1 hone : c = charOne)
    refine ⟨List.replicate (str.takeWhile (· == charOne)).length 0 ++ ds, ?_, ?_⟩
    · intro d hd
      rcases mem_append.1 hd with hd | hd
      · rw [eq_of_mem_replicate hd]
        decide
      · exact hwords d hd
    · rw [map_append, ← hones, ← hds, takeWhile_append_dropWhile]

theorem map_ofNat_toNat {out : List ℕ} (h : Words 256 out) :
    (out.map UInt8.ofNat).map UInt8.toNat = out := by
  rw [List.map_map]
  refine (map_congr_left fun v hv => ?_).trans (List.map_id out)
  exact UInt8.toNat_ofNat_of_lt' (h v hv)

/-- The digits of what digits are decoded to. -/
theorem digits58_decoded {ds : List ℕ} (h : Words 58 ds) :
    digits58 ((numeral 256 (ds.takeWhile (· == 0)).length (valueFrom 58 0 ds)).map
      UInt8.ofNat) = ds := by
  set vch := (numeral 256 (ds.takeWhile (· == 0)).length (valueFrom 58 0 ds)).map UInt8.ofNat
  have hvch : vch.map UInt8.toNat = numeral 256 (ds.takeWhile (· == 0)).length (valueFrom 58 0 ds) :=
    map_ofNat_toNat (words_numeral (by decide) _ _)
  have hvalue : bytesValue vch = valueFrom 58 0 ds := by
    rw [bytesValue, hvch, valueFrom_numeral]
  have hzeros : (vch.takeWhile (· == 0)).length = (ds.takeWhile (· == 0)).length := by
    rw [← toNat_beq_zero, ← length_map UInt8.toNat, ← takeWhile_map, hvch, takeWhile_numeral]
  have heq := numeral_eq (by decide) h
  rwa [← hvalue, ← hzeros] at heq

/-- **Base 58 is a codec.** Bytes whose number fits an `int`, as the size of the
buffer for those after the leading zeros does, are encoded, and decoded to
themselves. In a string shorter than `2 ^ 31` the decoder's assertion holds; a
string that it accepts, without spaces, is the encoding of what it is decoded
to. -/
theorem base58_codec :
    (∀ vch : List UInt8, vch.length < 2 ^ 31 →
      (vch.dropWhile (· == 0)).length * 138 / 100 + 1 < 2 ^ 31 →
      ∃ str, encodeBase58 vch = .ok str ∧ decodeBase58 str = .ok (some vch)) ∧
    ∀ str : List UInt8, str.length < 2 ^ 31 → ∃ r, decodeBase58 str = .ok r ∧
      ((∀ c ∈ str, c ≠ 0 ∧ isspace c = false) → ∀ vch ∈ r,
        (vch.dropWhile (· == 0)).length * 138 / 100 + 1 < 2 ^ 31 →
          encodeBase58 vch = .ok str) := by
  refine ⟨fun vch _ h => ⟨_, encodeBase58_eq h, decodeBase58_digits58 vch⟩, fun str _ => ?_⟩
  obtain ⟨r, hrun, hr⟩ := decodeBase58_eq_ok str
  refine ⟨r, hrun, fun hclean vch hvch hlen => ?_⟩
  obtain rfl : r = some vch := hvch
  obtain ⟨ds, hwords, rfl⟩ := hr hclean rfl
  rw [decodeBase58_eq hwords, Except.ok.injEq, Option.some.injEq] at hrun
  rw [encodeBase58_eq hlen, ← hrun, digits58_decoded hwords]

/-- A zero byte and another. -/
theorem base58_of_255 : ∃ str, encodeBase58 [0, 255] = .ok str ∧
    decodeBase58 str = .ok (some [0, 255]) :=
  base58_codec.1 [0, 255] (by decide) (by decide)

/-- The buffer for so many bytes has a size that is negative as an `int`. -/
theorem long_bytes_not_encoded : (List.replicate 1600000000 (1 : UInt8)).length < 2 ^ 31 ∧
    encodeBase58 (List.replicate 1600000000 1) = .error (.fatal "std::length_error") := by
  rw [length_replicate]
  refine ⟨by decide, ?_⟩
  have hrest : (List.replicate 1600000000 (1 : UInt8)).dropWhile (· == 0) =
      List.replicate 1600000000 1 := by
    rw [dropWhile_replicate, if_neg (by decide)]
  rw [encodeBase58, hrest, length_replicate]
  rfl

/-! ## The number of digits -/

theorem bytesValue_cons (first : UInt8) (rest : List UInt8) :
    bytesValue (first :: rest) = first.toNat * 256 ^ rest.length + bytesValue rest := by
  rw [bytesValue, map_cons, valueFrom_cons, valueFrom_eq, length_map, mul_zero, zero_add,
    bytesValue]

theorem bytesValue_lt (vch : List UInt8) : bytesValue vch < 256 ^ vch.length := by
  have := valueFrom_lt (by decide) (words_toNat vch)
  rwa [length_map] at this

theorem digits58_cons {first : UInt8} (hfirst : first ≠ 0) (rest : List UInt8) :
    digits58 (first :: rest) = (Nat.digits 58 (bytesValue (first :: rest))).reverse := by
  have hnone : (first :: rest).takeWhile (· == 0) = [] := by
    simpa using hfirst
  rw [digits58, hnone]
  rfl

/-- **How many digits** there are is told by the first byte. -/
theorem length_digits58 {first : UInt8} {rest : List UInt8} (hfirst : first ≠ 0) {k : ℕ}
    (hlow : 58 ^ k ≤ first.toNat * 256 ^ rest.length)
    (hhigh : (first.toNat + 1) * 256 ^ rest.length ≤ 58 ^ (k + 1)) :
    (digits58 (first :: rest)).length = k + 1 := by
  have hrest := bytesValue_lt rest
  rw [digits58_cons hfirst, length_reverse, bytesValue_cons]
  rw [add_mul] at hhigh
  have hlt : k < (Nat.digits 58 (first.toNat * 256 ^ rest.length + bytesValue rest)).length :=
    (Nat.lt_digits_length_iff (by decide) _).2 (by omega)
  have hle : (Nat.digits 58 (first.toNat * 256 ^ rest.length + bytesValue rest)).length ≤ k + 1 :=
    (Nat.digits_length_le_iff (by decide) _).2 (by omega)
  omega

/-! ## The form with a checksum -/

section Check

variable (hash : List UInt8 → Blob 32)

/-- The letters in front are digits too. -/
def digits58Check (vchIn : List UInt8) : List ℕ :=
  25 :: 19 :: digits58 (vchIn ++ checksum hash vchIn)

theorem length_checksum (vch : List UInt8) : (checksum hash vch).length = 4 := by
  rw [checksum, length_take, (hash vch).2]
  rfl

theorem words_digits58Check (vchIn : List UInt8) : Words 58 (digits58Check hash vchIn) :=
  Words.cons (by decide) (Words.cons (by decide) (words_digits58 _))

theorem encodeBase58Check_eq {vchIn : List UInt8} (h : vchIn.length ≤ 80) :
    encodeBase58Check hash vchIn = .ok ((digits58Check hash vchIn).map char58) := by
  rw [encodeBase58Check, encodeBase58_eq]
  · rfl
  · have hle := (dropWhile_suffix (l := vchIn ++ checksum hash vchIn) (· == 0)).length_le
    rw [length_append, length_checksum] at hle
    omega

/-- **A string of 36 letters is read back**, without the two in front. -/
theorem decodeBase58Check_of_length {vchIn : List UInt8}
    (hlen : (digits58 (vchIn ++ checksum hash vchIn)).length = 34) :
    decodeBase58Check hash ((digits58Check hash vchIn).map char58) = .ok (some vchIn) := by
  have hsize : (vchIn ++ checksum hash vchIn).length = vchIn.length + 4 := by
    rw [length_append, length_checksum]
  have h36 : ((digits58Check hash vchIn).map char58).length = 36 := by
    rw [length_map, digits58Check, length_cons, length_cons, hlen]
  simp only [decodeBase58Check, takeWhile_char58 (words_digits58Check hash vchIn), if_pos h36]
  simp only [digits58Check, map_cons, drop_succ_cons, drop_zero, decodeBase58_digits58, ok_bind,
    hsize, Nat.add_sub_cancel, take_left, drop_left]
  rfl

/-- **A longer string is read with the letters in front**: they are digits of
the number, which has more bytes than were written. -/
theorem decodeBase58Check_of_long {first : UInt8} {rest : List UInt8} {k : ℕ}
    (hne : first ≠ 0) (hlong : 21 ≤ rest.length) (hfirst : 256 ^ k ≤ 1469 * first.toNat) :
    ∃ r, decodeBase58Check hash ((digits58Check hash (first :: rest)).map char58) = .ok r ∧
      ∀ data ∈ r, rest.length + 1 + k ≤ data.length := by
  have hpos : 0 < first.toNat := by
    rw [Nat.pos_iff_ne_zero, Ne, ← UInt8.toNat_zero, UInt8.toNat_inj]
    exact hne
  set tail := rest ++ checksum hash (first :: rest) with htail
  have htaillen : tail.length = rest.length + 4 := by
    rw [length_append, length_checksum]
  have hlow : first.toNat * 256 ^ (rest.length + 4) ≤ bytesValue (first :: tail) := by
    rw [bytesValue_cons, htaillen]
    omega
  set ds := digits58 (first :: tail) with hds
  have hcheck : digits58Check hash (first :: rest) = 25 :: 19 :: ds := rfl
  have hlen : 34 < ds.length := by
    rw [hds, digits58_cons hne, length_reverse]
    refine (Nat.lt_digits_length_iff (by decide) _).2 (le_trans ?_ hlow)
    calc 58 ^ 34 ≤ 256 ^ 25 := by decide +kernel
      _ ≤ 256 ^ (rest.length + 4) := Nat.pow_le_pow_right (by decide) (by omega)
      _ ≤ first.toNat * 256 ^ (rest.length + 4) := Nat.le_mul_of_pos_left _ hpos
  have hwords := words_digits58Check hash (first :: rest)
  have h36 : ¬ ((digits58Check hash (first :: rest)).map char58).length = 36 := by
    rw [length_map, hcheck, length_cons, length_cons]
    omega
  -- the two letters are worth more than the whole of what follows them
  have hvalue : 256 ^ (rest.length + 4 + k) ≤ valueFrom 58 0 (25 :: 19 :: ds) := by
    have hlt := valueFrom_lt (by decide) (words_digits58 (first :: tail))
    rw [valueFrom_digits58] at hlt
    rw [valueFrom_cons, valueFrom_cons, valueFrom_eq]
    calc 256 ^ (rest.length + 4 + k) = 256 ^ (rest.length + 4) * 256 ^ k := pow_add _ _ _
      _ ≤ 256 ^ (rest.length + 4) * (1469 * first.toNat) := Nat.mul_le_mul_left _ hfirst
      _ = 1469 * (first.toNat * 256 ^ (rest.length + 4)) := by ring
      _ ≤ 1469 * 58 ^ ds.length := Nat.mul_le_mul_left _ (hlow.trans hlt.le)
      _ ≤ 1469 * 58 ^ ds.length + valueFrom 58 0 ds := Nat.le_add_right _ _
  have hbytes := (Nat.lt_digits_length_iff (by decide : 1 < 256) _).2 hvalue
  simp only [decodeBase58Check, takeWhile_char58 hwords, if_neg h36, decodeBase58_eq hwords,
    ok_bind]
  rw [hcheck]
  split_ifs with hshort hsum
  · exact ⟨none, rfl, by simp⟩
  · refine ⟨_, rfl, fun data hdata => ?_⟩
    obtain ⟨⟩ := hdata
    rw [length_take, length_map, numeral, length_append, length_reverse]
    omega
  · exact ⟨none, rfl, by simp⟩

end Check

end Slucore

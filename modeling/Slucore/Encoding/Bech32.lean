import Slucore.Encoding.Base58
/-!
# Encoding — bech32

`bech32::Encode` and `bech32::Decode`. The checksum is a remainder over a
field of 32 elements, kept in six groups of five bits. One step of the
division is linear (`foldl_polyModStep_xor`), so that the checksum for six zeros
makes the remainder one when it is put in their place
(`verifyChecksum_createChecksum`), and what is encoded is decoded
(`decode_encode`).
-/


namespace Slucore

open List UInt8

namespace Bech32

/-- `CHARSET`. -/
def charset : List UInt8 :=
  (['q', 'p', 'z', 'r', 'y', '9', 'x', '8', 'g', 'f', '2', 't', 'v', 'd', 'w', '0',
    's', '3', 'j', 'n', '5', '4', 'k', 'h', 'c', 'e', '6', 'm', 'u', 'a', '7', 'l']).map
    Char.toUInt8

/-- `CHARSET_REV`. -/
def charsetRev : List ℤ :=
  [-1, -1, -1, -1, -1, -1, -1, -1, -1, -1, -1, -1, -1, -1, -1, -1,
    -1, -1, -1, -1, -1, -1, -1, -1, -1, -1, -1, -1, -1, -1, -1, -1,
    -1, -1, -1, -1, -1, -1, -1, -1, -1, -1, -1, -1, -1, -1, -1, -1,
    15, -1, 10, 17, 21, 20, 26, 30, 7, 5, -1, -1, -1, -1, -1, -1,
    -1, 29, -1, 24, 13, 25, 9, 8, 23, -1, 18, 22, 31, 27, 19, -1,
    1, 0, 3, 16, 11, 28, 12, 14, 6, 4, 2, -1, -1, -1, -1, -1,
    -1, 29, -1, 24, 13, 25, 9, 8, 23, -1, 18, 22, 31, 27, 19, -1,
    1, 0, 3, 16, 11, 28, 12, 14, 6, 4, 2, -1, -1, -1, -1, -1]

/-- A byte as a word of 32 bits. -/
def word (v : UInt8) : BitVec 32 := v.toBitVec.setWidth 32

/-- The body of the loop of `PolyMod`. -/
def polyModStep (c : BitVec 32) (v : UInt8) : BitVec 32 :=
  let c0 : BitVec 8 := (c >>> 25).setWidth 8
  let c := ((c &&& 0x1ffffff#32) <<< 5) ^^^ word v
  let c := if c0 &&& 1#8 ≠ 0#8 then c ^^^ 0x3b6a57b2#32 else c
  let c := if c0 &&& 2#8 ≠ 0#8 then c ^^^ 0x26508e6d#32 else c
  let c := if c0 &&& 4#8 ≠ 0#8 then c ^^^ 0x1ea119fa#32 else c
  let c := if c0 &&& 8#8 ≠ 0#8 then c ^^^ 0x3d4233dd#32 else c
  let c := if c0 &&& 16#8 ≠ 0#8 then c ^^^ 0x2a1462b3#32 else c
  c

/-- `PolyMod`. -/
def polyMod (v : List UInt8) : BitVec 32 := v.foldl polyModStep 1#32

/-- `LowerCase`. -/
def lowerCase (c : UInt8) : UInt8 := if 0x41 ≤ c ∧ c ≤ 0x5a then c - 0x41 + 0x61 else c

/-- `ExpandHRP`. -/
def expandHRP (hrp : List UInt8) : List UInt8 :=
  (hrp.map fun c : UInt8 => c >>> 5) ++ 0 :: hrp.map fun c => c &&& 0x1f

/-- `VerifyChecksum`. -/
def verifyChecksum (hrp values : List UInt8) : Bool := polyMod (expandHRP hrp ++ values) == 1#32

/-- The lowest five bits. -/
def low5 (x : BitVec 32) : UInt8 := UInt8.ofBitVec ((x &&& 31#32).setWidth 8)

/-- `CreateChecksum`. -/
def createChecksum (hrp values : List UInt8) : List UInt8 :=
  let enc := expandHRP hrp ++ values ++ List.replicate 6 0
  let mod := polyMod enc ^^^ 1#32
  (List.range 6).map fun i => low5 (mod >>> (5 * (5 - i)))

/-- `Encode`. -/
def encode (hrp values : List UInt8) : List UInt8 :=
  let combined := values ++ createChecksum hrp values
  hrp ++ charOne :: combined.map fun c => charset.getD c.toNat 0

/-- `std::string::rfind`, of a character. -/
def rfind (str : List UInt8) (c : UInt8) : Option ℕ :=
  (str.reverse.findIdx? (· == c)).map fun i => str.length - 1 - i

def isLower (c : UInt8) : Bool := 0x61 ≤ c && c ≤ 0x7a

def isUpper (c : UInt8) : Bool := 0x41 ≤ c && c ≤ 0x5a

/-- The value of a character, by the table. -/
def revChar (c : UInt8) : Option UInt8 :=
  let rev := charsetRev.getD c.toNat (-1)
  if rev = -1 then none else some (UInt8.ofNat rev.toNat)

/-- `Decode`. -/
def decode (str : List UInt8) : List UInt8 × List UInt8 :=
  if str.any fun c => !isLower c && !isUpper c && (c < 33 || 126 < c) then ([], [])
  else if str.any isLower && str.any isUpper then ([], [])
  else match rfind str charOne with
    | none => ([], [])
    | some pos =>
      if 90 < str.length ∨ pos = 0 ∨ str.length < pos + 7 then ([], [])
      else match (str.drop (pos + 1)).mapM revChar with
        | none => ([], [])
        | some values =>
          let hrp := (str.take pos).map lowerCase
          if !verifyChecksum hrp values then ([], [])
          else (hrp, values.take (values.length - 6))

/-! ## A step is linear -/

/-- A step without a value: multiplication by the variable. -/
def mulX (c : BitVec 32) : BitVec 32 :=
  ((c &&& 0x1ffffff#32) <<< 5) ^^^ (if c.getLsbD 25 then 0x3b6a57b2#32 else 0#32) ^^^
    (if c.getLsbD 26 then 0x26508e6d#32 else 0#32) ^^^
    (if c.getLsbD 27 then 0x1ea119fa#32 else 0#32) ^^^
    (if c.getLsbD 28 then 0x3d4233dd#32 else 0#32) ^^^
    (if c.getLsbD 29 then 0x2a1462b3#32 else 0#32)

theorem ite_xor (p : Prop) [Decidable p] (c k : BitVec 32) :
    (if p then c ^^^ k else c) = c ^^^ if p then k else 0#32 := by
  split
  · rfl
  · rw [BitVec.xor_zero]

/-- The bits of `c0` are those from 25 on. -/
theorem and_twoPow_ne_zero (c : BitVec 32) {i : ℕ} (hi : i < 5) :
    ((c >>> 25).setWidth 8 &&& BitVec.twoPow 8 i ≠ 0#8) ↔ c.getLsbD (25 + i) = true := by
  rw [BitVec.and_twoPow, BitVec.getLsbD_setWidth, BitVec.getLsbD_ushiftRight,
    decide_eq_true (by omega : i < 8)]
  split
  · rename_i hbit
    refine ⟨fun _ => hbit, fun _ => ?_⟩
    interval_cases i <;> decide
  · rename_i hbit
    exact ⟨fun h => absurd rfl h, fun h => absurd h hbit⟩

theorem polyModStep_eq (c : BitVec 32) (v : UInt8) : polyModStep c v = mulX c ^^^ word v := by
  have h0 := and_twoPow_ne_zero c (by decide : 0 < 5)
  have h1 := and_twoPow_ne_zero c (by decide : 1 < 5)
  have h2 := and_twoPow_ne_zero c (by decide : 2 < 5)
  have h3 := and_twoPow_ne_zero c (by decide : 3 < 5)
  have h4 := and_twoPow_ne_zero c (by decide : 4 < 5)
  change (_ &&& 1#8 ≠ 0#8) ↔ _ at h0
  change (_ &&& 2#8 ≠ 0#8) ↔ _ at h1
  change (_ &&& 4#8 ≠ 0#8) ↔ _ at h2
  change (_ &&& 8#8 ≠ 0#8) ↔ _ at h3
  change (_ &&& 16#8 ≠ 0#8) ↔ _ at h4
  simp only [polyModStep, ite_xor, h0, h1, h2, h3, h4, mulX]
  ac_rfl

theorem ite_bit_xor (p q : Bool) (k : BitVec 32) : (if (p ^^ q) = true then k else 0#32) =
    (if p = true then k else 0#32) ^^^ if q = true then k else 0#32 := by
  cases p <;> cases q <;> simp

theorem xor_and (a b m : BitVec 32) : (a ^^^ b) &&& m = (a &&& m) ^^^ (b &&& m) := by
  ext i
  grind

theorem mulX_xor (a b : BitVec 32) : mulX (a ^^^ b) = mulX a ^^^ mulX b := by
  simp only [mulX, BitVec.getLsbD_xor, ite_bit_xor, xor_and, BitVec.shiftLeft_xor_distrib]
  ac_rfl

/-- The loop from a sum, of which one part goes with the values. -/
theorem foldl_polyModStep_xor (vs : List UInt8) (a b : BitVec 32) :
    vs.foldl polyModStep (a ^^^ b) = mulX^[vs.length] a ^^^ vs.foldl polyModStep b := by
  induction vs generalizing a b with
  | nil => rfl
  | cons v vs ih =>
    have hstep : polyModStep (a ^^^ b) v = mulX a ^^^ polyModStep b v := by
      rw [polyModStep_eq, polyModStep_eq, mulX_xor, BitVec.xor_assoc]
    rw [foldl_cons, hstep, ih]
    rfl

/-- **Linear maps are told by the powers of two.** -/
theorem eq_of_linear {w : ℕ} (f g : BitVec w → BitVec w)
    (hf : ∀ a b, f (a ^^^ b) = f a ^^^ f b) (hg : ∀ a b, g (a ^^^ b) = g a ^^^ g b)
    (h : ∀ i < w, f (BitVec.twoPow w i) = g (BitVec.twoPow w i)) (c : BitVec w) : f c = g c := by
  have hzero : f 0#w = g 0#w := by
    have hf₀ := hf 0#w 0#w
    have hg₀ := hg 0#w 0#w
    rw [BitVec.xor_self, BitVec.xor_self] at hf₀ hg₀
    rw [hf₀, hg₀]
  -- by the number of low bits that are there so far
  have hlow : ∀ n ≤ w, f ((c.setWidth n).setWidth w) = g ((c.setWidth n).setWidth w) := by
    intro n
    induction n with
    | zero => exact fun _ => by rwa [BitVec.eq_nil (c.setWidth 0)]
    | succ n ih =>
      intro hn
      have hsplit : (c.setWidth (n + 1)).setWidth w =
          (c.setWidth n).setWidth w ^^^ if c.getLsbD n then BitVec.twoPow w n else 0#w := by
        ext i hi
        split <;> grind
      rw [hsplit, hf, hg, ih (by omega)]
      split
      · rw [h n (by omega)]
      · rw [hzero]
  have hall := hlow w le_rfl
  rwa [BitVec.setWidth_eq, BitVec.setWidth_eq] at hall

/-! ## Words of 30 bits -/

/-- The lowest 30 bits. -/
def low30 (c : BitVec 32) : BitVec 32 := c &&& 0x3fffffff#32

theorem low30_xor (a b : BitVec 32) : low30 (a ^^^ b) = low30 a ^^^ low30 b := xor_and a b _

/-- A remainder has 30 bits. -/
theorem low30_mulX (c : BitVec 32) : low30 (mulX c) = mulX c :=
  eq_of_linear (fun c => low30 (mulX c)) mulX
    (fun a b => by rw [mulX_xor, low30_xor]) mulX_xor (by decide) c

/-! ## The checksum -/

theorem word_low5_xor (a b : BitVec 32) :
    word (low5 (a ^^^ b)) = word (low5 a) ^^^ word (low5 b) := by
  simp [word, low5, xor_and]

/-- The six groups of a word of 30 bits. -/
theorem foldl_groups {mod : BitVec 32} (h : low30 mod = mod) :
    ((List.range 6).map fun i => low5 (mod >>> (5 * (5 - i)))).foldl polyModStep 0#32 = mod := by
  rw [← h]
  refine eq_of_linear (fun c => ((List.range 6).map fun i =>
    low5 (low30 c >>> (5 * (5 - i)))).foldl polyModStep 0#32) low30 (fun a b => ?_) low30_xor
    (by decide) mod
  simp only [List.range, List.range.loop, map_cons, map_nil, foldl_cons, foldl_nil, polyModStep_eq,
    low30_xor, BitVec.ushiftRight_xor_distrib, word_low5_xor, mulX_xor]
  ac_rfl

/-- **The checksum is right.** -/
theorem verifyChecksum_createChecksum (hrp values : List UInt8) :
    verifyChecksum hrp (values ++ createChecksum hrp values) = true := by
  set start := polyMod (expandHRP hrp ++ values) with hstart
  have hfold : ∀ vs : List UInt8, polyMod (expandHRP hrp ++ values ++ vs) =
      mulX^[vs.length] start ^^^ vs.foldl polyModStep 0#32 := by
    intro vs
    rw [← foldl_polyModStep_xor, BitVec.xor_zero, polyMod, foldl_append, hstart, polyMod]
  have hmod : polyMod (expandHRP hrp ++ values ++ List.replicate 6 0) = mulX^[6] start := by
    rw [hfold]
    exact BitVec.xor_zero
  have hfits : low30 (mulX^[6] start ^^^ 1#32) = mulX^[6] start ^^^ 1#32 := by
    rw [low30_xor, Function.iterate_succ_apply', low30_mulX]
    rfl
  have hgroups : (createChecksum hrp values).foldl polyModStep 0#32 = mulX^[6] start ^^^ 1#32 := by
    rw [createChecksum, hmod]
    exact foldl_groups hfits
  have hlen : (createChecksum hrp values).length = 6 := rfl
  rw [verifyChecksum, ← List.append_assoc, hfold, hgroups, hlen, ← BitVec.xor_assoc,
    BitVec.xor_self]
  decide

/-! ## Strings -/

/-- The character of a value. -/
def char32 (v : UInt8) : UInt8 := charset.getD v.toNat 0

/-- Characters that may stand in a string of small letters. -/
def Plain (c : UInt8) : Prop := isUpper c = false ∧ 33 ≤ c ∧ c ≤ 126

theorem char32_spec : ∀ v : UInt8, v.toNat < 32 → revChar (char32 v) = some v ∧
    (isUpper (char32 v) = false ∧ 33 ≤ char32 v ∧ char32 v ≤ 126) ∧ char32 v ≠ charOne := by
  have hall : ∀ n < 32, revChar (char32 (UInt8.ofNat n)) = some (UInt8.ofNat n) ∧
      (isUpper (char32 (UInt8.ofNat n)) = false ∧ 33 ≤ char32 (UInt8.ofNat n) ∧
        char32 (ofNat n) ≤ 126) ∧ char32 (ofNat n) ≠ charOne := by
    decide
  intro v hv
  have := hall v.toNat hv
  rwa [UInt8.ofNat_toNat] at this

theorem Plain.lowerCase_eq {c : UInt8} (h : Plain c) : lowerCase c = c := by
  rw [lowerCase, if_neg]
  have := h.1
  simpa [isUpper] using this

/-- The separator is the last of its kind. -/
theorem rfind_append (hrp : List UInt8) {tail : List UInt8} {c : UInt8} (h : c ∉ tail) :
    rfind (hrp ++ c :: tail) c = some hrp.length := by
  have hnone : tail.reverse.findIdx? (· == c) = none := by
    rw [List.findIdx?_eq_none_iff]
    intro x hx
    rw [beq_eq_false_iff_ne]
    rintro rfl
    exact h (mem_reverse.1 hx)
  rw [rfind, reverse_append, reverse_cons, List.append_assoc, List.findIdx?_append,
    hnone, singleton_append, List.findIdx?_cons]
  simp only [beq_self_eq_true, if_true, Option.none_or, Option.map_some, length_reverse,
    length_append, length_cons]
  congr 1
  omega

theorem mapM_revChar {values : List UInt8} (h : ∀ v ∈ values, v.toNat < 32) :
    (values.map char32).mapM revChar = some values := by
  induction values with
  | nil => rfl
  | cons v values ih =>
    rw [map_cons, mapM_cons, (char32_spec v (h v mem_cons_self)).1,
      ih fun w hw => h w (mem_cons_of_mem v hw)]
    rfl

theorem createChecksum_lt (hrp values : List UInt8) :
    ∀ v ∈ createChecksum hrp values, v.toNat < 32 := by
  intro v hv
  obtain ⟨i, -, rfl⟩ := List.mem_map.1 hv
  generalize (polyMod _ ^^^ 1#32) >>> (5 * (5 - i)) = x
  have hle : x.toNat &&& 31 ≤ 31 := Nat.and_le_right
  change (x.toNat &&& 31) % 256 < 32
  omega

/-- **What is encoded is decoded**, if the string is not too long. -/
theorem decode_encode {hrp values : List UInt8} (hne : hrp ≠ []) (hhrp : ∀ c ∈ hrp, Plain c)
    (hvalues : ∀ v ∈ values, v.toNat < 32) (hlen : hrp.length + values.length ≤ 83) :
    decode (encode hrp values) = (hrp, values) := by
  set combined := values ++ createChecksum hrp values with hcombined
  have hlt : ∀ v ∈ combined, v.toNat < 32 := by
    intro v hv
    rcases mem_append.1 hv with hv | hv
    · exact hvalues v hv
    · exact createChecksum_lt hrp values v hv
  have hsize : combined.length = values.length + 6 := length_append
  have hencode : encode hrp values = hrp ++ charOne :: combined.map char32 := rfl
  have hplain : ∀ c ∈ encode hrp values, Plain c := by
    intro c hc
    rcases mem_append.1 hc with hc | hc
    · exact hhrp c hc
    rcases mem_cons.1 hc with rfl | hc
    · exact ⟨by decide, by decide, by decide⟩
    · obtain ⟨v, hv, rfl⟩ := List.mem_map.1 hc
      exact (char32_spec v (hlt v hv)).2.1
  have hsep : charOne ∉ combined.map char32 := by
    intro hmem
    obtain ⟨v, hv, hone⟩ := List.mem_map.1 hmem
    exact (char32_spec v (hlt v hv)).2.2 hone
  have hchars : (encode hrp values).any
      (fun c => !isLower c && !isUpper c && (c < 33 || 126 < c)) = false := by
    rw [List.any_eq_false]
    intro c hc
    obtain ⟨-, hlow, hhigh⟩ := hplain c hc
    simp [UInt8.not_lt.2 hlow, UInt8.not_lt.2 hhigh]
  have hupper : (encode hrp values).any isUpper = false := by
    rw [List.any_eq_false]
    intro c hc
    rw [(hplain c hc).1]
    decide
  have hpos := rfind_append hrp hsep
  have hlength : (encode hrp values).length = hrp.length + values.length + 7 := by
    rw [hencode, length_append, length_cons, length_map]
    omega
  have hdrop : (encode hrp values).drop (hrp.length + 1) = combined.map char32 := by
    rw [hencode]
    simp
  have htake : ((encode hrp values).take hrp.length).map lowerCase = hrp := by
    rw [hencode, take_left, map_congr_left fun c hc => (hhrp c hc).lowerCase_eq,
      List.map_id']
  have hbounds : ¬ (90 < (encode hrp values).length ∨ hrp.length = 0 ∨
      (encode hrp values).length < hrp.length + 7) := by
    have := length_pos_of_ne_nil hne
    omega
  rw [decode, hchars, hupper, Bool.and_false]
  rw [show rfind (encode hrp values) charOne = some hrp.length from hpos]
  have hverify : verifyChecksum hrp combined = true := verifyChecksum_createChecksum hrp values
  simp only [if_neg hbounds, hdrop, mapM_revChar hlt, htake, hverify, Bool.not_true,
    Bool.false_eq_true, if_false, hsize, Nat.add_sub_cancel]
  rw [take_left]

end Bech32

end Slucore

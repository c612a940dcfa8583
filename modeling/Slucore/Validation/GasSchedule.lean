import Slucore.Validation.Dgp
import Slucore.Common.Radix
/-!
# Validation — a governed gas schedule

The contract of the gas schedule keeps its 39 values in five words of its
storage, eight values of 32 bits a word, and answers with a word for each
value. Asked for the answer, `getGasSchedule` takes the 39 values. From the
storage it reads all forty places of the five words, and
`checkLimitSchedule` refuses a list that has not exactly 39 values: the
schedule stays the default (`stored_schedule_ignored`).
-/


namespace Slucore

open List

namespace SilubiumDGP

/-- Eight values of a schedule in a word, the first in the lowest bits. -/
def packSlot (values : List ℕ) (i : ℕ) : U256 :=
  BitVec.ofNat 256 (Nat.ofDigits (2 ^ 32) ((values.drop (8 * i)).take 8))

/-- A value as a word of 32 bytes, the most significant first. -/
def wordBytes (v : ℕ) : List UInt8 := (List.range 32).map fun i => UInt8.ofNat (v / 256 ^ (31 - i))

variable (D : SilubiumDGP)

/-- The address whose schedule is in effect at a height. -/
def Governs (height : ℕ) (address : Address) : Prop :=
  ∃ l, D.paramsInstance DgpContract.gasSchedule.address = some l ∧
    getAddressForBlock l height = address ∧ address ≠ 0

/-- The contract at an address stores the values. -/
def StoresSchedule (address : Address) (values : List ℕ) : Prop :=
  ∀ i < 5, D.storage address (D.sha3 (BitVec.ofNat 256 i)) =
    some (BitVec.ofNat 256 i, packSlot values i)

/-- The contract at an address answers with the values. -/
def AnswersSchedule (address : Address) (values : List ℕ) : Prop :=
  D.callContract address DgpContract.gasSchedule.data = values.flatMap wordBytes

variable {D} {height : ℕ} {address : Address} {values : List ℕ}

/-! ## Limits -/

/-- Values within the limits: 39 of them, none of them zero, in 32 bits. -/
theorem checkLimitSchedule_values
    (h : checkLimitSchedule dataEIP158Schedule values = true) :
    values.length = 39 ∧ ∀ v ∈ values, 0 < v ∧ v < 2 ^ 32 := by
  rw [checkLimitSchedule, Bool.and_eq_true, Bool.and_eq_true, beq_iff_eq, beq_iff_eq,
    List.all_eq_true] at h
  obtain ⟨⟨-, hlen⟩, hall⟩ := h
  refine ⟨hlen, fun v hv => ?_⟩
  obtain ⟨i, hi, rfl⟩ := mem_iff_getElem.1 hv
  have hi' : i < dataEIP158Schedule.length := by
    rw [hlen] at hi
    exact hi
  have hp := hall (dataEIP158Schedule[i], values[i]) (by
    rw [mem_iff_getElem]
    exact ⟨i, by rw [length_zip]; omega, getElem_zip⟩)
  simp only [Bool.and_eq_true, decide_eq_true_eq] at hp
  obtain ⟨hmax, hmin⟩ := hp
  split_ifs at hmax hmin <;> omega

/-- The default is not within its own limits: two of its values are zero. -/
theorem ne_default_of_checkLimitSchedule
    (h : checkLimitSchedule dataEIP158Schedule values = true) : values ≠ dataEIP158Schedule := by
  rintro rfl
  exact absurd h (by decide)

/-! ## Storage -/

theorem ofDigits_div_pow_mod {B : ℕ} (hB : 0 < B) (i : ℕ) {l : List ℕ} (hl : Words B l) :
    Nat.ofDigits B l / B ^ i % B = l.getD i 0 := by
  have hdrop : Words B (l.drop i) := fun d hd => hl d (mem_of_mem_drop hd)
  rw [Nat.ofDigits_div_pow_eq_ofDigits_drop i hB l hl, ofDigits_head_tail,
    Nat.add_mul_mod_self_left, Nat.mod_eq_of_lt (hdrop.headD hB), headD_eq_head?_getD, head?_drop,
    getD_eq_getElem?_getD]

/-- The places of a word that is packed. -/
theorem uint32Values_packSlot (h : Words (2 ^ 32) values) (i : ℕ) :
    uint32Values (packSlot values i) = (List.range 8).map fun j => values.getD (8 * i + j) 0 := by
  have hwords : Words (2 ^ 32) ((values.drop (8 * i)).take 8) :=
    fun d hd => h d (mem_of_mem_drop (mem_of_mem_take hd))
  have hlt : Nat.ofDigits (2 ^ 32) ((values.drop (8 * i)).take 8) < 2 ^ 256 := by
    refine (Nat.ofDigits_lt_base_pow_length (by decide) hwords).trans_le ?_
    rw [← pow_mul]
    refine Nat.pow_le_pow_right (by decide) ?_
    have := length_take_le 8 (values.drop (8 * i))
    omega
  refine map_congr_left fun j hj => ?_
  rw [packSlot, BitVec.toNat_ofNat, Nat.mod_eq_of_lt hlt, pow_mul,
    ofDigits_div_pow_mod (by decide) j hwords]
  rw [getD_eq_getElem?_getD, getD_eq_getElem?_getD,
    List.getElem?_take_of_lt (mem_range.1 hj), List.getElem?_drop]

/-- **What is read from the storage**: the 39 values, and the place that is not
used. -/
theorem parseStorageScheduleContract_stored (hlen : values.length = 39)
    (hwords : Words (2 ^ 32) values) (h : D.StoresSchedule address values) :
    D.parseStorageScheduleContract address = values ++ [0] := by
  have hread : (List.range 5).filterMap (fun i => D.storage address (D.sha3 (BitVec.ofNat 256 i))) =
      (List.range 5).map fun i => (BitVec.ofNat 256 i, packSlot values i) := by
    exact filterMap_congr fun i hi => h i (mem_range.1 hi)
  have hsorted : ((List.range 5).map fun i =>
      ((BitVec.ofNat 256 i : U256), packSlot values i)).Pairwise
      fun a b => decide (a.1 ≤ b.1) = true := by
    rw [pairwise_map]
    change (List.range 5).Pairwise fun a b =>
      decide (BitVec.ofNat 256 a ≤ BitVec.ofNat 256 b) = true
    decide
  have hplaces : ∀ f : ℕ → ℕ, ((List.range 5).flatMap fun i => (List.range 8).map fun j =>
      f (8 * i + j)) = (List.range 40).map f := fun f => rfl
  rw [parseStorageScheduleContract, hread, mergeSort_of_pairwise hsorted, flatMap_map]
  simp only [uint32Values_packSlot hwords]
  rw [hplaces fun k => values.getD k 0]
  refine ext_getElem (by simp [hlen]) fun k hk hk' => ?_
  rw [getElem_map, getElem_range]
  by_cases hlast : k < 39
  · rw [getElem_append_left (by omega), getD_eq_getElem?_getD,
      List.getElem?_eq_getElem (by omega), Option.getD_some]
  · rw [getElem_append_right (by omega), getD_eq_getElem?_getD,
      List.getElem?_eq_none (by omega), Option.getD_none, getElem_singleton]

/-! ## Answers -/

theorem length_wordBytes (v : ℕ) : (wordBytes v).length = 32 := by simp [wordBytes]

/-- The number that big-endian bytes stand for. -/
theorem foldl_bytes (v n : ℕ) :
    ((List.range n).map fun i => UInt8.ofNat (v / 256 ^ (n - 1 - i))).foldl
      (fun n b => 256 * n + b.toNat) 0 = v % 256 ^ n := by
  have hdigits : ((List.range n).map fun i => (UInt8.ofNat (v / 256 ^ (n - 1 - i))).toNat).reverse =
      (List.range n).map fun i => v / 256 ^ i % 256 := by
    refine ext_getElem (by simp) fun i hi hi' => ?_
    rw [length_map, length_range] at hi'
    simp [(by omega : n - 1 - (n - 1 - i) = i)]
  have hvalue := valueFrom_zero 256
    ((List.range n).map fun i => (UInt8.ofNat (v / 256 ^ (n - 1 - i))).toNat)
  rw [hdigits, ofDigits_words, valueFrom, foldl_map] at hvalue
  rw [foldl_map, hvalue]

theorem toUint64_wordBytes {v : ℕ} (h : v < 2 ^ 32) :
    toUint64 (ofBytes (wordBytes v)) % 2 ^ 32 = v := by
  have hbytes : (wordBytes v).foldl (fun n b => 256 * n + b.toNat) 0 = v % 256 ^ 32 :=
    foldl_bytes v 32
  rw [toUint64, ofBytes, BitVec.toNat_ofNat]
  omega

/-- The words of an answer, each read back. -/
theorem map_words (f : List UInt8 → ℕ) (values : List ℕ) :
    (List.range values.length).map (fun i =>
      f (((values.flatMap wordBytes).drop (i * 32)).take 32)) = values.map fun v => f (wordBytes v) := by
  induction values with
  | nil => rfl
  | cons v values ih =>
    have hlen := length_wordBytes v
    rw [length_cons, range_succ_eq_map, map_cons, List.map_map, flatMap_cons]
    refine congrArg₂ List.cons ?_ ?_
    · rw [drop_zero, take_left' hlen]
    rw [← ih]
    refine map_congr_left fun i _ => ?_
    have hdrop : (i + 1) * 32 = (wordBytes v).length + i * 32 := by omega
    rw [Function.comp_apply, hdrop, ← drop_drop, drop_left]

/-- **What is read from the answer**: the values. -/
theorem parseDataScheduleContract_answered (hwords : Words (2 ^ 32) values)
    (h : D.AnswersSchedule address values) :
    D.parseDataScheduleContract address DgpContract.gasSchedule.data = values := by
  have hlen : (values.flatMap wordBytes).length / 32 = values.length := by
    rw [length_flatMap]
    simp only [length_wordBytes, map_const', sum_replicate, smul_eq_mul]
    omega
  rw [parseDataScheduleContract, show D.callContract address _ = _ from h, hlen,
    map_words fun bytes => toUint64 (ofBytes bytes) % 2 ^ 32]
  calc values.map (fun v => toUint64 (ofBytes (wordBytes v)) % 2 ^ 32) = values.map id :=
        map_congr_left fun v hv => toUint64_wordBytes (hwords v hv)
    _ = values := List.map_id values

/-! ## The schedule -/

theorem Governs.ne_zero (h : D.Governs height address) : address ≠ 0 := by
  obtain ⟨-, -, -, h⟩ := h
  exact h

theorem getGasSchedule_of_governs (h : D.Governs height address) :
    D.getGasSchedule height = some (D.scheduleAt address) := by
  obtain ⟨l, hl, rfl, -⟩ := h
  rw [getGasSchedule, valueAtHeight, hl]
  rfl

theorem getGasSchedule_of_stored (hmode : D.dgpevm = false) (hgoverns : D.Governs height address)
    (hlimits : checkLimitSchedule dataEIP158Schedule values = true)
    (hstores : D.StoresSchedule address values) :
    D.getGasSchedule height = some dataEIP158Schedule := by
  obtain ⟨hlen, hvalues⟩ := checkLimitSchedule_values hlimits
  have hparse := parseStorageScheduleContract_stored hlen (fun v hv => (hvalues v hv).2) hstores
  -- forty values are refused
  have hrefused : checkLimitSchedule dataEIP158Schedule (values ++ [0]) = false := by
    simp [checkLimitSchedule, hlen]
  rw [getGasSchedule_of_governs hgoverns, scheduleAt, createEVMSchedule]
  simp [hmode, hparse, hrefused]

theorem getGasSchedule_of_answered (hmode : D.dgpevm = true) (hgoverns : D.Governs height address)
    (hlimits : checkLimitSchedule dataEIP158Schedule values = true)
    (hanswers : D.AnswersSchedule address values) : D.getGasSchedule height = some values := by
  obtain ⟨-, hvalues⟩ := checkLimitSchedule_values hlimits
  have hparse := parseDataScheduleContract_answered (fun v hv => (hvalues v hv).2) hanswers
  rw [getGasSchedule_of_governs hgoverns, scheduleAt, if_neg hgoverns.ne_zero, createEVMSchedule]
  simp [hmode, hparse, hlimits]

/-- **A governed gas schedule never takes effect from the storage.** For every list
of values within the limits: where the contract in effect stores the values, a node
that reads the storage keeps the default schedule, which is another one; where it
answers with them, a node that calls it takes them. -/
theorem stored_schedule_ignored {values : List ℕ}
    (hlimits : checkLimitSchedule dataEIP158Schedule values = true) :
    (∀ (D : SilubiumDGP) (height : ℕ) (address : Address), D.dgpevm = false →
      D.Governs height address → D.StoresSchedule address values →
      D.getGasSchedule height = some dataEIP158Schedule ∧ D.getGasSchedule height ≠ some values) ∧
    (∀ (D : SilubiumDGP) (height : ℕ) (address : Address), D.dgpevm = true →
      D.Governs height address → D.AnswersSchedule address values →
      D.getGasSchedule height = some values) := by
  refine ⟨fun D height address hmode hgoverns hstores => ?_,
    fun D height address hmode hgoverns hanswers =>
      getGasSchedule_of_answered hmode hgoverns hlimits hanswers⟩
  have hdefault := getGasSchedule_of_stored hmode hgoverns hlimits hstores
  refine ⟨hdefault, fun h => ne_default_of_checkLimitSchedule hlimits ?_⟩
  exact Option.some.inj (h.symm.trans hdefault)

/-! ## A schedule -/

/-- A schedule within the limits. -/
def governedSchedule : List ℕ :=
  [10, 10, 10, 10, 10, 10, 10, 10, 10, 50, 30, 6, 200, 20000, 5000, 15000, 1, 375, 8, 375, 32000,
    700, 2300, 9000, 25000, 24000, 3, 512, 200, 21000, 53000, 4, 68, 3, 700, 700, 400, 5000, 24576]

/-- The contract at 0x99 holds the schedule from height 1 on. The hash of a
number is the number itself, past the entry of the list of contracts. -/
def governedDGP (dgpevm : Bool) : SilubiumDGP where
  dgpevm := dgpevm
  sha3 v := v + 0x1000
  storage addr key :=
    if addr = DgpContract.gasSchedule.address then
      if key = 0x1000 then some (0, 1)
      else if key = 0x2000 then some (0x1000, 1)
      else if key = 0x2001 then some (0x1001, 0x99)
      else none
    else if addr = 0x99 ∧ 0x1000 ≤ key ∧ key < 0x1005 then
      some (key - 0x1000, packSlot governedSchedule (key.toNat - 0x1000))
    else none
  callContract addr data :=
    if addr = 0x99 ∧ data = DgpContract.gasSchedule.data then governedSchedule.flatMap wordBytes
    else []

theorem governedDGP_governs (dgpevm : Bool) {height : ℕ} (h : 1 ≤ height) :
    (governedDGP dgpevm).Governs height 0x99 :=
  ⟨[(1, 0x99)], by cases dgpevm <;> decide, by simp [getAddressForBlock, latestEntry, h],
    by decide⟩

theorem governedDGP_stores (dgpevm : Bool) :
    (governedDGP dgpevm).StoresSchedule 0x99 governedSchedule := by
  cases dgpevm <;> unfold StoresSchedule <;> decide

theorem governedDGP_answers (dgpevm : Bool) :
    (governedDGP dgpevm).AnswersSchedule 0x99 governedSchedule := by
  cases dgpevm <;> unfold AnswersSchedule <;> rfl

theorem governed_schedule_ignored :
    (governedDGP false).getGasSchedule 7 ≠ some governedSchedule ∧
    (governedDGP true).getGasSchedule 7 = some governedSchedule :=
  have hlimits : checkLimitSchedule dataEIP158Schedule governedSchedule = true := by decide
  have h := stored_schedule_ignored hlimits
  ⟨(h.1 _ 7 _ rfl (governedDGP_governs false (by decide)) (governedDGP_stores false)).2,
    h.2 _ 7 _ rfl (governedDGP_governs true (by decide)) (governedDGP_answers true)⟩

/-- The schedule that is stored is not the one in effect. -/
theorem stored_schedule_without_effect :
    ¬ ∀ (values : List ℕ) (D : SilubiumDGP) (height : ℕ) (address : Address),
      checkLimitSchedule dataEIP158Schedule values = true → D.dgpevm = false →
      D.Governs height address → D.StoresSchedule address values →
      D.getGasSchedule height = some values := by
  intro h
  have hlimits : checkLimitSchedule dataEIP158Schedule governedSchedule = true := by decide
  have hread := h governedSchedule (governedDGP false) 7 0x99 hlimits rfl
    (governedDGP_governs false (by decide)) (governedDGP_stores false)
  rw [getGasSchedule_of_stored rfl (governedDGP_governs false (by decide)) hlimits
    (governedDGP_stores false)] at hread
  exact absurd hread (by decide)

end SilubiumDGP

end Slucore

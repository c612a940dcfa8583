import Slucore.Common.Limbs
import Slucore.Primitives.Transaction
/-!
# Proof of stake — the kernel and the weight of a stake

`CheckStakeKernelHash` accepts a kernel whose hash is not above the target
of the block times the value of the stake. The product is one of
`arith_uint256`: eight words, and what does not fit is dropped. At a target
that the largest stake does not carry past 256 bits the weighted target is
exact and a larger stake is accepted whenever a smaller one is; at any
higher target some stake is rejected where a smaller one is accepted
(`stake_grows_iff`).
-/


namespace Slucore

open List

/-! ## `arith_uint256` -/

/-- `base_uint<256>`: eight words of 32 bits, the least significant first. -/
structure ArithUint256 where
  pn : List ℕ
  width : pn.length = 8
  words : Words (2 ^ 32) pn

namespace ArithUint256

/-- The number that the words stand for. -/
def toNat (a : ArithUint256) : ℕ := Nat.ofDigits (2 ^ 32) a.pn

/-- The words of a number, as `UintToArith256` reads them. -/
def ofNat (n : ℕ) : ArithUint256 where
  pn := (List.range 8).map fun i => n / (2 ^ 32) ^ i % 2 ^ 32
  width := by simp
  words := by
    intro d hd
    obtain ⟨i, -, rfl⟩ := List.mem_map.1 hd
    exact Nat.mod_lt _ (by decide)

/-- `base_uint(uint64_t)`, of a signed value. -/
def ofInt64 (value : ℤ) : ArithUint256 where
  pn := [(value % 2 ^ 64).toNat % 2 ^ 32, (value % 2 ^ 64).toNat / 2 ^ 32 % 2 ^ 32,
    0, 0, 0, 0, 0, 0]
  width := rfl
  words := by
    intro d hd
    simp only [List.mem_cons, List.not_mem_nil, or_false] at hd
    rcases hd with rfl | rfl | rfl | rfl | rfl | rfl | rfl | rfl <;> omega

/-- The words shifted by less than a word, with the bits that come from the
word below. -/
def shiftWords (shift : ℕ) : ℕ → List ℕ → List ℕ
  | _, [] => []
  | below, d :: pn =>
    ((if shift ≠ 0 then below >>> (32 - shift) else 0) ||| ((d <<< shift) % 2 ^ 32)) ::
      shiftWords shift d pn

theorem words_shiftWords {shift below : ℕ} {pn : List ℕ} (hbelow : below < 2 ^ 32)
    (hpn : Words (2 ^ 32) pn) : Words (2 ^ 32) (shiftWords shift below pn) := by
  induction pn generalizing below with
  | nil => exact fun d hd => absurd hd not_mem_nil
  | cons d pn ih =>
    refine Words.cons (Nat.or_lt_two_pow ?_ (Nat.mod_lt _ (by decide))) (ih hpn.head hpn.tail)
    split_ifs
    · exact (Nat.shiftRight_le _ _).trans_lt hbelow
    · decide

theorem length_shiftWords (shift below : ℕ) (pn : List ℕ) :
    (shiftWords shift below pn).length = pn.length := by
  induction pn generalizing below with
  | nil => rfl
  | cons d pn ih => rw [shiftWords, length_cons, ih, length_cons]

/-- `operator<<=`. -/
def shiftLeft (a : ArithUint256) (shift : ℕ) : ArithUint256 where
  pn := (List.replicate (shift / 32) 0 ++ shiftWords (shift % 32) 0 a.pn).take 8
  width := by
    rw [List.length_take, List.length_append, length_shiftWords, a.width]
    omega
  words := by
    intro d hd
    rcases List.mem_append.1 (List.mem_of_mem_take hd) with hd | hd
    · rw [(List.mem_replicate.1 hd).2]
      decide
    · exact words_shiftWords (by decide) a.words d hd

/-- `operator*=`. -/
def mul (a b : ArithUint256) : ArithUint256 where
  pn := mulRows (2 ^ 32) a.pn b.pn (List.replicate 8 0)
  width := (mulRows_spec (by decide) _ _ (Words.replicate_zero (by decide) 8)).1
  words := (mulRows_spec (by decide) _ _ (Words.replicate_zero (by decide) 8)).2

/-- `CompareTo`. -/
def compareTo (a b : ArithUint256) : Ordering := compareLimbs a.pn b.pn

/-- `SetCompact`: the mantissa in the lower three bytes, without its sign, and
the size in the highest. -/
def setCompact (nCompact : ℕ) : ArithUint256 :=
  let nSize := nCompact >>> 24
  let nWord := nCompact &&& 0x007fffff
  if nSize ≤ 3 then ofNat (nWord >>> (8 * (3 - nSize)))
  else (ofNat nWord).shiftLeft (8 * (nSize - 3))

variable {a b : ArithUint256}

theorem toNat_lt (a : ArithUint256) : a.toNat < 2 ^ 256 := by
  have h := Nat.ofDigits_lt_base_pow_length (by decide) a.words
  rw [a.width] at h
  exact h.trans_eq (by norm_num)

/-- **The product is that of the numbers modulo `2 ^ 256`.** -/
theorem toNat_mul : (a.mul b).toNat = a.toNat * b.toNat % 2 ^ 256 := by
  have hzero : Words (2 ^ 32) (replicate 8 0) := Words.replicate_zero (by decide) 8
  have h := ofDigits_mulRows (by decide) a.words b.words hzero
  rw [Nat.ofDigits_replicate_zero, zero_add] at h
  exact (Nat.mod_eq_of_lt (a.mul b).toNat_lt).symm.trans h

theorem compareTo_gt : a.compareTo b = .gt ↔ b.toNat < a.toNat := by
  rw [compareTo, compareLimbs_eq (a.width.trans b.width.symm) a.words b.words,
    compare_gt_iff_gt]
  rfl

theorem toNat_ofNat {n : ℕ} (h : n < 2 ^ 256) : (ofNat n).toNat = n := by
  have hn := ofDigits_words (2 ^ 32) n 8
  have hpow : ((2 ^ 32) ^ 8 : ℕ) = 2 ^ 256 := by norm_num
  rw [hpow, Nat.mod_eq_of_lt h] at hn
  exact hn

theorem toNat_ofInt64 {value : ℤ} (h0 : 0 ≤ value) (h : value < 2 ^ 64) :
    (ofInt64 value).toNat = value.toNat := by
  simp only [toNat, ofInt64, Nat.ofDigits_cons, Nat.ofDigits_nil]
  omega

end ArithUint256

/-! ## The kernel -/

/-- What is hashed: the stake modifier of the block before, the time of the
block the stake comes from, the stake, and the time of the block. -/
structure StakeKernel where
  nStakeModifier : UInt256
  blockFromTime : ℕ
  prevout : COutPoint
  nTimeBlock : ℕ

/-- `CheckStakeKernelHash`: whether it accepts, and `hashProofOfStake` and
`targetProofOfStake` where it sets them. `hash` is the double SHA-256 of the
serialized kernel. -/
def checkStakeKernelHash (hash : StakeKernel → Fin (2 ^ 256)) (kernel : StakeKernel)
    (nBits : UInt32) (prevoutValue : ℤ) : Bool × Option (UInt256 × UInt256) :=
  if kernel.nTimeBlock < kernel.blockFromTime then (false, none)
  else
    let bnTarget := (ArithUint256.setCompact nBits.toNat).mul (.ofInt64 prevoutValue)
    let hashProofOfStake := (hash kernel).val
    (!decide ((ArithUint256.ofNat hashProofOfStake).compareTo bnTarget = .gt),
      some (hashProofOfStake, bnTarget.toNat))

/-- The target that `nBits` stands for. -/
def baseTarget (nBits : UInt32) : ℕ := (ArithUint256.setCompact nBits.toNat).toNat

/-- `posLimit` of the main network. -/
def mainPosLimit : ℕ := 2 ^ 224 - 1

variable {hash : StakeKernel → Fin (2 ^ 256)} {kernel : StakeKernel} {nBits : UInt32} {v w : ℤ}

/-- The weighted target of a stake. -/
theorem toNat_weightedTarget (h0 : 0 ≤ v) (h : v ≤ maxMoney) :
    ((ArithUint256.setCompact nBits.toNat).mul (.ofInt64 v)).toNat =
      baseTarget nBits * v.toNat % 2 ^ 256 := by
  rw [maxMoney_val] at h
  rw [ArithUint256.toNat_mul, ArithUint256.toNat_ofInt64 h0 (by omega)]
  rfl

/-- **A kernel is accepted** if its hash is not above the weighted target. -/
theorem checkStakeKernelHash_iff (h0 : 0 ≤ v) (h : v ≤ maxMoney) :
    (checkStakeKernelHash hash kernel nBits v).1 = true ↔
      kernel.blockFromTime ≤ kernel.nTimeBlock ∧
        (hash kernel).val ≤ baseTarget nBits * v.toNat % 2 ^ 256 := by
  unfold checkStakeKernelHash
  split_ifs with htime
  · exact iff_of_false (by simp) fun h => by omega
  · simp only [Bool.not_eq_true', decide_eq_false_iff_not, ArithUint256.compareTo_gt,
      ArithUint256.toNat_ofNat (hash kernel).isLt, toNat_weightedTarget h0 h, not_lt]
    exact ⟨fun h => ⟨by omega, h⟩, fun h => h.2⟩

/-- Past the largest multiple that fits, the product starts again below the
target. -/
theorem wraps_below {t m : ℕ} (ht : t < 2 ^ 256) (hm : 2 ^ 256 ≤ t * m) :
    ∃ n, n < m ∧ t * (n + 1) % 2 ^ 256 < t * n % 2 ^ 256 := by
  have htpos : 0 < t := by
    by_contra h
    obtain rfl : t = 0 := by omega
    omega
  refine ⟨(2 ^ 256 - 1) / t, ?_, ?_⟩
  · refine Nat.div_lt_of_lt_mul ?_
    omega
  set n := (2 ^ 256 - 1) / t with hn
  have hle : t * n ≤ 2 ^ 256 - 1 := Nat.mul_div_le _ _
  have hlt : 2 ^ 256 - 1 < t * (n + 1) := Nat.lt_mul_div_succ _ htpos
  rw [Nat.mul_succ] at hlt ⊢
  omega

/-- **When eligibility grows with the stake.** For every `nBits`: a larger stake is
accepted whenever a smaller one is, for all kernels and hashes, if and only if the
target times the largest stake fits into 256 bits; and if and only if it does is the
weighted target always the exact product. -/
theorem stake_grows_iff (nBits : UInt32) :
    ((∀ (hash : StakeKernel → Fin (2 ^ 256)) (kernel : StakeKernel) (v w : ℤ),
        0 ≤ v → v ≤ w → w ≤ maxMoney → (checkStakeKernelHash hash kernel nBits v).1 = true →
        (checkStakeKernelHash hash kernel nBits w).1 = true) ↔
      baseTarget nBits * maxMoney.toNat < 2 ^ 256) ∧
    ((∀ (hash : StakeKernel → Fin (2 ^ 256)) (kernel : StakeKernel) (v : ℤ),
        0 ≤ v → v ≤ maxMoney →
        ∀ proof target, (checkStakeKernelHash hash kernel nBits v).2 = some (proof, target) →
          target = baseTarget nBits * v.toNat) ↔
      baseTarget nBits * maxMoney.toNat < 2 ^ 256) := by
  have htarget : baseTarget nBits < 2 ^ 256 := ArithUint256.toNat_lt _
  have hmax : maxMoney = 10782240625000000 := maxMoney_val
  have hexact : baseTarget nBits * maxMoney.toNat < 2 ^ 256 → ∀ v : ℤ, 0 ≤ v → v ≤ maxMoney →
      baseTarget nBits * v.toNat % 2 ^ 256 = baseTarget nBits * v.toNat := by
    intro hfits v h0 h
    exact Nat.mod_eq_of_lt ((Nat.mul_le_mul_left _ (by omega)).trans_lt hfits)
  refine ⟨⟨fun hgrows => ?_, fun hfits hash kernel v w h0 hvw hw hv => ?_⟩,
    ⟨fun hprod => ?_, fun hfits hash kernel v h0 h proof target heq => ?_⟩⟩
  · by_contra hwraps
    obtain ⟨n, hn, hlt⟩ := wraps_below htarget (not_lt.1 hwraps)
    have hlow : (n : ℤ) + 1 ≤ maxMoney := by omega
    -- the hash is the weighted target of the smaller stake
    set hash : StakeKernel → Fin (2 ^ 256) := fun _ =>
      ⟨baseTarget nBits * n % 2 ^ 256, Nat.mod_lt _ (by decide)⟩ with hhash
    have hsmall : (checkStakeKernelHash hash ⟨0, 0, ⟨0, 0⟩, 0⟩ nBits n).1 = true :=
      (checkStakeKernelHash_iff (by omega) (by omega)).2 ⟨le_rfl, le_rfl⟩
    have hlarge := (checkStakeKernelHash_iff (by omega) hlow).1
      (hgrows hash ⟨0, 0, ⟨0, 0⟩, 0⟩ n (n + 1) (by omega) (by omega) hlow hsmall)
    have hle := hlarge.2
    exact absurd hle (not_le.2 hlt)
  · rw [checkStakeKernelHash_iff h0 (hvw.trans hw)] at hv
    rw [checkStakeKernelHash_iff (h0.trans hvw) hw]
    refine ⟨hv.1, hv.2.trans ?_⟩
    rw [hexact hfits v h0 (hvw.trans hw), hexact hfits w (h0.trans hvw) hw]
    exact Nat.mul_le_mul_left _ (by omega)
  · by_contra hwraps
    have hmax0 : (0 : ℤ) ≤ maxMoney := by omega
    have heq := hprod (fun _ => 0) ⟨0, 0, ⟨0, 0⟩, 0⟩ maxMoney hmax0 le_rfl _ _
      (by rw [checkStakeKernelHash, if_neg (lt_irrefl 0)])
    rw [toNat_weightedTarget hmax0 le_rfl] at heq
    have hlt : baseTarget nBits * maxMoney.toNat % 2 ^ 256 < 2 ^ 256 := Nat.mod_lt _ (by decide)
    rw [heq] at hlt
    exact hwraps hlt
  · unfold checkStakeKernelHash at heq
    split_ifs at heq
    simp only [Option.some.injEq, Prod.mk.injEq] at heq
    rw [← heq.2, toNat_weightedTarget h0 h, hexact hfits v h0 h]

/-- **Eligibility does not grow with the stake**: at the lowest difficulty of the
main network `2 ^ 48` is accepted by no hash but zero. -/
theorem large_stake_rejected : ¬ ∀ nBits : UInt32,
    0 < baseTarget nBits → baseTarget nBits ≤ mainPosLimit →
    ∀ (hash : StakeKernel → Fin (2 ^ 256)) (kernel : StakeKernel) (v w : ℤ),
      0 ≤ v → v ≤ w → w ≤ maxMoney → (checkStakeKernelHash hash kernel nBits v).1 = true →
      (checkStakeKernelHash hash kernel nBits w).1 = true := by
  intro h
  have haccepts := h 0x1d00ffff (by decide) (by decide) (fun _ => 1)
    ⟨0, 0, ⟨0, 0⟩, 0⟩ 1 (2 ^ 48) (by decide) (by decide) (by decide) (by decide)
  exact absurd haccepts (by decide)

end Slucore

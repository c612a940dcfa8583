import Slucore.Validation.CheckBlock
/-!
# Validation — the reward of a block

`CheckReward`: the gas refunds and the shares of the stakers must be
among the outputs of the rewarded transaction, and what the coinbase or
the coinstake creates is bounded by the fees, the subsidy and, for a
coinstake, the interest. The bound is what the lemmas here read off.
-/


namespace Slucore

variable (N : Node)

/-- Take one output out of the list for each output expected; `none` when
one is missing. -/
def takeOutputs : List CTxOut → List CTxOut → Option (List CTxOut)
  | vTempVouts, [] => some vTempVouts
  | vTempVouts, out :: expected =>
    if out ∈ vTempVouts then takeOutputs (vTempVouts.erase out) expected else none

/-- The heights at which `CheckReward` returns at once: success below
194830, failure when interest is claimed after it ended. `none` when it
goes on. -/
def checkRewardEarly (nHeight : ℕ) (utxoInterest : ℤ) : Option (Except Failure Unit) :=
  if !N.testnet then
    if nHeight < 194830 then some (.ok ())
    else if 241000 < nHeight ∧ 0 < utxoInterest then some (.error (.error ""))
    else none
  else if 71000 < nHeight ∧ 0 < utxoInterest then some (.error (.error ""))
  else none

/-- The number of recipients the reward of a block is split among. -/
def rewardRecipients (nHeight : ℕ) : ℤ :=
  if N.consensus.nFirstMPoSBlock ≤ (nHeight : ℤ) - 1 then N.consensus.nMPoSRewardRecipients
  else 1

/-- The part of `CheckReward` on the shares of the stakers. -/
def checkMPoSShares (nHeight : ℕ) (blockReward gasRefunds : ℤ) (vTempVouts : List CTxOut) :
    Except Failure Unit := do
  let recipients := rewardRecipients N nHeight
  require (decide (1 ≤ recipients)) (.error "CheckReward(): invalid reward recipients")
  checkWhen (decide (recipients ≠ 1)) do
    require (decide (gasRefunds ≤ blockReward)) (.dos 100 "bad-cs-gas-greater-than-reward")
    let splitReward := (blockReward - gasRefunds).tdiv recipients
    let scripts ← orThrow (N.getMPoSOutputScripts ((nHeight : ℤ) - 1))
      (.error "CheckReward(): cannot create the list of MPoS output scripts")
    let _ ← orThrow (takeOutputs vTempVouts (scripts.map fun s => ⟨splitReward, s⟩))
      (.dos 100 "bad-cs-mpos-missing")
    return ()

/-- `CheckReward`. -/
def checkReward (block : CBlock) (nHeight : ℕ) (nFees gasRefunds nActualStakeReward : ℤ)
    (vouts : List CTxOut) (utxoInterest : ℤ) : Except Failure Unit :=
  match checkRewardEarly N nHeight utxoInterest with
  | some result => result
  | none => do
    let offset := if block.isProofOfStake then 1 else 0
    let tx ← orThrow block.vtx[offset]? (.fatal "block.vtx[offset]")
    let vTempVouts ← orThrow (takeOutputs tx.vout vouts) (.dos 100 "")
    let blockReward := wrap64 (nFees + getBlockSubsidy nHeight N.consensus)
    if block.isProofOfWork then
      let valueOut ← orThrow tx.getValueOut (.fatal "CTransaction::GetValueOut")
      require (decide (valueOut ≤ blockReward)) (.dos 100 "bad-cb-amount")
    else
      require (decide (wrap64 (nActualStakeReward - utxoInterest) ≤ blockReward))
        (.dos 100 "bad-cs-amount")
      checkMPoSShares N nHeight blockReward gasRefunds vTempVouts

/-! ## What the checks amount to -/

variable {vouts expected rest : List CTxOut}

/-- Outputs that are taken out were there, each as often as it is taken. -/
theorem perm_of_takeOutputs
    (h : takeOutputs vouts expected = some rest) : vouts.Perm (expected ++ rest) := by
  induction expected generalizing vouts with
  | nil =>
    obtain rfl : vouts = rest := by simpa [takeOutputs] using h
    exact .refl _
  | cons out expected ih =>
    rw [takeOutputs] at h
    split at h
    · rename_i hmem
      exact (List.perm_cons_erase hmem).trans ((ih h).cons out)
    · cases h

/-- **Outputs can be taken out when they are there**, counted with
repetitions. -/
theorem isSome_takeOutputs :
    (takeOutputs vouts expected).isSome ↔ expected.Subperm vouts := by
  induction expected generalizing vouts with
  | nil => simp [takeOutputs]
  | cons out expected ih =>
    rw [takeOutputs]
    by_cases hmem : out ∈ vouts
    · rw [if_pos hmem, ih, (List.perm_cons_erase hmem).subperm_left, List.subperm_cons]
    · rw [if_neg hmem]
      exact iff_of_false (by simp) fun hsub => hmem (hsub.subset (by simp))

/-- Taking out twice is taking out both. -/
theorem isSome_takeOutputs_of_rest {more : List CTxOut}
    (h : takeOutputs vouts expected = some rest) :
    (takeOutputs rest more).isSome ↔ (expected ++ more).Subperm vouts := by
  rw [isSome_takeOutputs, (perm_of_takeOutputs h).subperm_left, List.subperm_append_left]

/-- The shares of the stakers are due and among the outputs left. -/
theorem checkMPoSShares_eq_ok {nHeight : ℕ} {blockReward gasRefunds : ℤ} :
    checkMPoSShares N nHeight blockReward gasRefunds vouts = .ok () ↔
      1 ≤ rewardRecipients N nHeight ∧ (rewardRecipients N nHeight ≠ 1 →
        gasRefunds ≤ blockReward ∧
        ∃ scripts, N.getMPoSOutputScripts ((nHeight : ℤ) - 1) = some scripts ∧
          (takeOutputs vouts (scripts.map fun s =>
            ⟨(blockReward - gasRefunds).tdiv (rewardRecipients N nHeight), s⟩)).isSome) := by
  unfold checkMPoSShares
  by_cases hone : rewardRecipients N nHeight = 1
  · simp [hone]
  · simp only [checkWhen, hone, bind_eq_ok, decide_eq_true_eq, ne_eq, not_false_eq_true, if_true]
    simp [Option.isSome_iff_exists]

/-- **When a coinstake passes**, where `CheckReward` does not return early:
the refunds and the shares are among its outputs, and what it creates
beyond the interest is at most fees and subsidy. -/
theorem checkReward_stake_eq_ok {block : CBlock} {tx : CTransaction} {nHeight : ℕ}
    {nFees gasRefunds nActualStakeReward utxoInterest : ℤ}
    (hpos : block.isProofOfStake = true) (htx : block.vtx[1]? = some tx)
    (hearly : checkRewardEarly N nHeight utxoInterest = none) :
    checkReward N block nHeight nFees gasRefunds nActualStakeReward vouts utxoInterest = .ok () ↔
      vouts.Subperm tx.vout ∧
      wrap64 (nActualStakeReward - utxoInterest) ≤
        wrap64 (nFees + getBlockSubsidy nHeight N.consensus) ∧
      1 ≤ rewardRecipients N nHeight ∧ (rewardRecipients N nHeight ≠ 1 →
        gasRefunds ≤ wrap64 (nFees + getBlockSubsidy nHeight N.consensus) ∧
        ∃ scripts, N.getMPoSOutputScripts ((nHeight : ℤ) - 1) = some scripts ∧
          (vouts ++ scripts.map (CTxOut.mk ((wrap64 (nFees + getBlockSubsidy nHeight N.consensus) -
            gasRefunds).tdiv (rewardRecipients N nHeight)))).Subperm tx.vout) := by
  have hpow : block.isProofOfWork = false := by
    simp [CBlockHeader.isProofOfWork, hpos]
  simp only [checkReward, hearly, hpow, hpos, htx, if_true, Bool.false_eq_true, if_false, bind_eq_ok,
    orThrow_eq_ok, require_eq_ok, decide_eq_true_eq, checkMPoSShares_eq_ok, Option.some.injEq]
  constructor
  · rintro ⟨_, rfl, rest, hrest, -, hle, hrecipients, hshares⟩
    refine ⟨isSome_takeOutputs.1 (by rw [hrest]; rfl), hle, hrecipients, fun hne => ?_⟩
    obtain ⟨hrefunds, scripts, hscripts, htake⟩ := hshares hne
    exact ⟨hrefunds, scripts, hscripts, (isSome_takeOutputs_of_rest hrest).1 htake⟩
  · rintro ⟨hsub, hle, hrecipients, hshares⟩
    obtain ⟨rest, hrest⟩ := Option.isSome_iff_exists.1 (isSome_takeOutputs.2 hsub)
    refine ⟨tx, rfl, rest, hrest, (), hle, hrecipients, fun hne => ?_⟩
    obtain ⟨hrefunds, scripts, hscripts, hboth⟩ := hshares hne
    exact ⟨hrefunds, scripts, hscripts, (isSome_takeOutputs_of_rest hrest).2 hboth⟩

/-! ## The bounds -/

variable {N} {block : CBlock} {nHeight : ℕ} {nFees gasRefunds nActualStakeReward utxoInterest : ℤ}
variable {vouts : List CTxOut}

/-- The heights at which `CheckReward` looks at the reward. -/
def RewardChecked (N : Node) (nHeight : ℕ) : Prop := N.testnet = true ∨ 194830 ≤ nHeight

/-- The heights at which interest may still be claimed. -/
def InterestAllowed (N : Node) (nHeight : ℕ) : Prop :=
  (N.testnet = true ∧ nHeight ≤ 71000) ∨
    (N.testnet = false ∧ 194830 ≤ nHeight ∧ nHeight ≤ 241000)

/-- The heights at which it may not. -/
def InterestOver (N : Node) (nHeight : ℕ) : Prop :=
  (N.testnet = true ∧ 71000 < nHeight) ∨ (N.testnet = false ∧ 241000 < nHeight)

instance : Decidable (InterestOver N nHeight) := inferInstanceAs (Decidable (_ ∨ _))

theorem InterestAllowed.rewardChecked (h : InterestAllowed N nHeight) :
    RewardChecked N nHeight := by
  rcases h with ⟨ht, -⟩ | ⟨-, hh, -⟩
  · exact .inl ht
  · exact .inr hh

theorem InterestOver.rewardChecked (h : InterestOver N nHeight) : RewardChecked N nHeight := by
  rcases h with ⟨ht, -⟩ | ⟨-, hh⟩
  · exact .inl ht
  · exact .inr (by omega)

/-- Where `CheckReward` looks at the reward, it returns early only to
refuse interest after it ended. -/
theorem checkRewardEarly_of_rewardChecked (hh : RewardChecked N nHeight) (utxoInterest : ℤ) :
    checkRewardEarly N nHeight utxoInterest =
      if InterestOver N nHeight ∧ 0 < utxoInterest then some (.error (.error "")) else none := by
  rcases Bool.eq_false_or_eq_true N.testnet with ht | ht
  · simp [checkRewardEarly, InterestOver, ht]
  have h1 : ¬ nHeight < 194830 := by
    rcases hh with hh | hh
    · rw [ht] at hh
      cases hh
    · omega
  simp [checkRewardEarly, InterestOver, ht, h1]

/-- Where it does not, everything passes. -/
theorem checkReward_of_not_rewardChecked (hh : ¬ RewardChecked N nHeight) :
    checkReward N block nHeight nFees gasRefunds nActualStakeReward vouts utxoInterest = .ok () := by
  rw [RewardChecked, not_or, not_le] at hh
  simp [checkReward, checkRewardEarly, hh.1, hh.2]

/-- **A reward that passes was looked at**, and claims no interest after
interest ended. -/
theorem early_of_checkReward (hh : RewardChecked N nHeight)
    (h : checkReward N block nHeight nFees gasRefunds nActualStakeReward vouts utxoInterest
      = .ok ()) :
    checkRewardEarly N nHeight utxoInterest = none ∧
      (InterestOver N nHeight → utxoInterest ≤ 0) := by
  have hearly := checkRewardEarly_of_rewardChecked hh utxoInterest
  by_cases hc : InterestOver N nHeight ∧ 0 < utxoInterest
  · rw [if_pos hc] at hearly
    simp [checkReward, hearly] at h
  rw [if_neg hc] at hearly
  refine ⟨hearly, fun hover => ?_⟩
  by_contra hpos
  exact hc ⟨hover, by omega⟩

/-- Fees in the money range and a subsidy add without wrapping. -/
theorem wrap64_fees_add_subsidy (hf : moneyRange nFees = true) :
    wrap64 (nFees + getBlockSubsidy nHeight N.consensus) =
      nFees + getBlockSubsidy nHeight N.consensus := by
  have hs := getBlockSubsidy_mem nHeight N.consensus
  have hcoin : coin = 100000000 := rfl
  rw [moneyRange_iff, maxMoney_val] at hf
  exact wrap64_eq_self ⟨by omega, by omega⟩

/-- **The coinstake's reward is bounded** by fees, subsidy and interest,
where `CheckReward` does not return early. -/
theorem stake_of_checkReward (hpos : block.isProofOfStake = true)
    (hearly : checkRewardEarly N nHeight utxoInterest = none)
    (hf : moneyRange nFees = true) (hi : moneyRange utxoInterest = true)
    (hr : -maxMoney ≤ nActualStakeReward ∧ nActualStakeReward ≤ maxMoney)
    (h : checkReward N block nHeight nFees gasRefunds nActualStakeReward vouts utxoInterest
      = .ok ()) :
    nActualStakeReward - utxoInterest ≤ nFees + getBlockSubsidy nHeight N.consensus := by
  have hpow : block.isProofOfWork = false := by
    simp [CBlockHeader.isProofOfWork, hpos]
  simp only [checkReward, hearly, hpow, Bool.false_eq_true, if_false, bind_eq_ok, require_eq_ok,
    decide_eq_true_eq] at h
  obtain ⟨-, -, -, -, -, hle, -⟩ := h
  rw [wrap64_fees_add_subsidy hf] at hle
  have hexact : wrap64 (nActualStakeReward - utxoInterest) = nActualStakeReward - utxoInterest := by
    rw [maxMoney_val] at hr
    rw [moneyRange_iff, maxMoney_val] at hi
    exact wrap64_eq_self ⟨by omega, by omega⟩
  rwa [hexact] at hle

/-- **The coinbase's value is bounded** by fees and subsidy, where
`CheckReward` does not return early. -/
theorem work_of_checkReward {coinbase : CTransaction} {rest : List CTransaction}
    (hpow : block.isProofOfWork = true) (hvtx : block.vtx = coinbase :: rest)
    (hearly : checkRewardEarly N nHeight utxoInterest = none)
    (hf : moneyRange nFees = true)
    (h : checkReward N block nHeight nFees gasRefunds nActualStakeReward vouts utxoInterest
      = .ok ()) :
    coinbase.valueOut ≤ nFees + getBlockSubsidy nHeight N.consensus := by
  have hpos : block.isProofOfStake = false := by
    simpa [CBlockHeader.isProofOfWork] using hpow
  simp only [checkReward, hearly, hpow, hpos, hvtx, if_true, Bool.false_eq_true, if_false,
    List.getElem?_cons_zero, bind_eq_ok, orThrow_eq_ok, require_eq_ok, decide_eq_true_eq,
    Option.some.injEq] at h
  obtain ⟨tx, rfl, -, -, w, hw, hle⟩ := h
  rw [wrap64_fees_add_subsidy hf] at hle
  exact (CTransaction.getValueOut_eq hw).1 ▸ hle

end Slucore

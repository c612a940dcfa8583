import Slucore.Validation.Issuance
/-!
# Wallet — making a coinstake

`CreateCoinStake` looks for a coin of the wallet that may stake, adds
small coins of the same script, and fills in the outputs: an empty one,
the stake with the reward, the shares of earlier stakers, the gas refunds
and the interest. `CreateCoinStakeSW`, for main nodes, does the same from
another parent and with other coins, and without a last height for the
interest. Both are `createCoinStakeWith` at values of their own. Choosing
coins, testing kernels, keys and signatures are fields of
`StakingWallet`.
-/


namespace Slucore

open Option List

/-- A coin the wallet may stake with: `pcoin`. -/
structure StakeCoin where
  prevout : COutPoint
  out : CTxOut
  nTimeSmart : ℤ
  value_nonneg : 0 ≤ out.nValue

/-- The value of coins together. -/
def coinsValue (vwtxPrev : List StakeCoin) : ℤ := (vwtxPrev.map fun pcoin => pcoin.out.nValue).sum

/-- What `Solver` says of a script, with its solution. -/
inductive Solved where
  | pubkey (vchPubKey : List UInt8)
  | pubkeyhash (hash160 : Address)
  | other
deriving DecidableEq, Repr

/-- The wallet at the moment of a call. -/
structure StakingWallet where
  /-- `GetBalance()`. -/
  nBalance : ℤ
  reserveBalance : ℤ
  /-- `SelectCoinsForStaking`, `none` when it fails. -/
  selectCoinsForStaking : ℤ → Option (List StakeCoin)
  selectCoinsForStakingSW : ℤ → Option (List StakeCoin)
  /-- `CheckKernel` for the time of the block. -/
  checkKernel : COutPoint → Bool
  checkKernelSW : COutPoint → Bool
  solver : CScript → Option Solved
  hash160 : List UInt8 → Address
  /-- `keystore.GetKey`: the public key of the key found. -/
  getKey : Address → Option (List UInt8)
  /-- `SignSignature` for an input of a transaction. -/
  signSignature : CTransaction → ℕ → Option (CScript × List (List UInt8))
  /-- `GetTimeMicros() / 1000000`. -/
  nowtime : ℤ
  balance_le : nBalance ≤ maxMoney
  reserve_nonneg : 0 ≤ reserveBalance

/-- `GetStakeMaxCombineInputs`. -/
def stakeMaxCombineInputs : ℕ := 100

/-- `GetStakeCombineThreshold`. -/
def stakeCombineThreshold : ℤ := 100 * coin

/-- `GetStakeSplitOutputs`. -/
def stakeSplitOutputs : ℕ := 2

/-- `GetStakeSplitThreshold`. -/
def stakeSplitThreshold : ℤ := stakeSplitOutputs * stakeCombineThreshold

/-! ## The shares of earlier stakers -/

/-- The outputs `CreateMPoSOutputs` adds. -/
def StakeIndex.createMPoSOutputs (S : StakeIndex) (P : ConsensusParams) (nRewardPiece nHeight : ℤ) :
    Option (List CTxOut) :=
  (S.getMPoSOutputScripts P nHeight).map fun scripts =>
    scripts.map fun script => ⟨nRewardPiece, script⟩

/-! ## The coins -/

/-- `CScript() << vchPubKey << OP_CHECKSIG`. -/
def payToPubKey (vchPubKey : List UInt8) : CScript := pushData vchPubKey ++ [0xac]

namespace StakingWallet

variable (W : StakingWallet)

/-- The script of the stake output for a kernel, `none` where the search
breaks off. -/
def scriptPubKeyOut (scriptPubKeyKernel : CScript) : Option CScript :=
  match W.solver scriptPubKeyKernel with
  | some (.pubkeyhash hash160) => (W.getKey hash160).map payToPubKey
  | some (.pubkey vchPubKey) =>
    match W.getKey (W.hash160 vchPubKey) with
    | some key => if key = vchPubKey then some scriptPubKeyKernel else none
    | none => none
  | _ => none

/-- What the transaction may spend at most. -/
def spendable : ℤ := W.nBalance - W.reserveBalance

/-- A coin of the kernel's script or of the stake output's, from another
transaction. -/
def sameScript (kernel : StakeCoin) (script : CScript) (pcoin : StakeCoin) : Bool :=
  (pcoin.out.scriptPubKey == kernel.out.scriptPubKey || pcoin.out.scriptPubKey == script) &&
    pcoin.prevout.hash != kernel.prevout.hash

/-- The loop that adds more inputs. -/
def combine (kernel : StakeCoin) (script : CScript) :
    List StakeCoin → List StakeCoin × ℤ → List StakeCoin × ℤ
  | [], acc => acc
  | pcoin :: setCoins, (vwtxPrev, nCredit) =>
    if sameScript kernel script pcoin then
      if stakeMaxCombineInputs ≤ vwtxPrev.length then (vwtxPrev, nCredit)
      else if W.spendable < nCredit + pcoin.out.nValue then (vwtxPrev, nCredit)
      else if stakeCombineThreshold ≤ pcoin.out.nValue then
        combine kernel script setCoins (vwtxPrev, nCredit)
      else combine kernel script setCoins (vwtxPrev ++ [pcoin], nCredit + pcoin.out.nValue)
    else combine kernel script setCoins (vwtxPrev, nCredit)

/-- The inputs: the kernel found, the script of the stake, all coins spent
and their value. -/
structure StakeInputs where
  kernel : StakeCoin
  script : CScript
  vwtxPrev : List StakeCoin
  nCredit : ℤ

/-- The part up to the reward: choosing coins, finding a kernel, adding
inputs. -/
def stakeInputs (select : ℤ → Option (List StakeCoin)) (check : COutPoint → Bool) :
    Option StakeInputs := do
  if W.nBalance ≤ W.reserveBalance then none
  else
    let setCoins ← select W.spendable
    let kernel ← setCoins.find? fun pcoin => check pcoin.prevout
    let script ← W.scriptPubKeyOut kernel.out.scriptPubKey
    if kernel.out.nValue = 0 ∨ W.spendable < kernel.out.nValue then none
    else
      let (vwtxPrev, nCredit) :=
        W.combine kernel script setCoins ([kernel], kernel.out.nValue)
      some ⟨kernel, script, vwtxPrev, nCredit⟩

/-- The outputs that carry the stake: split from a threshold on. -/
def stakeOutputs (script : CScript) (nCredit : ℤ) : List CTxOut :=
  if stakeSplitThreshold ≤ nCredit then
    let nValue := (nCredit.tdiv stakeSplitOutputs).tdiv cent * cent
    List.replicate (stakeSplitOutputs - 1) ⟨nValue, script⟩ ++
      [⟨nCredit - nValue * (stakeSplitOutputs - 1 : ℕ), script⟩]
  else [⟨nCredit, script⟩]

/-- The loop that signs the inputs. -/
def signInputs : ℕ → List StakeCoin → CTransaction → Option CTransaction
  | _, [], txNew => some txNew
  | nIn, _ :: vwtxPrev, txNew => do
    let (scriptSig, scriptWitness) ← W.signSignature txNew nIn
    signInputs (nIn + 1) vwtxPrev { txNew with
      vin := txNew.vin.modify nIn fun i => { i with scriptSig, scriptWitness } }

end StakingWallet

/-- A coinstake with the coins it spends. -/
structure CoinStake where
  tx : CTransaction
  vwtxPrev : List StakeCoin

/-- The value of the coins spent. -/
def CoinStake.valueIn (c : CoinStake) : ℤ := coinsValue c.vwtxPrev

section Create

variable (S : StakeIndex) (P : ConsensusParams) (W : StakingWallet)

/-- The reward, and the piece of it that each earlier staker gets. -/
def stakeReward (nHeight : ℕ) (nTotalFees : ℤ) : ℤ :=
  nTotalFees + getBlockSubsidy (nHeight + 1) P

/-- The reward is split from `nFirstMPoSBlock` on. -/
def SplitsReward (nHeight : ℕ) : Prop := P.nFirstMPoSBlock ≤ nHeight

instance (nHeight : ℕ) : Decidable (SplitsReward P nHeight) := inferInstanceAs (Decidable (_ ≤ _))

/-- `nRewardPiece`. -/
def rewardPiece (nHeight : ℕ) (nTotalFees : ℤ) : ℤ :=
  (stakeReward P nHeight nTotalFees).tdiv P.nMPoSRewardRecipients

/-- What the staker keeps of the reward. -/
def keptReward (nHeight : ℕ) (nTotalFees : ℤ) : ℤ :=
  if SplitsReward P nHeight then
    rewardPiece P nHeight nTotalFees +
      (stakeReward P nHeight nTotalFees).tmod P.nMPoSRewardRecipients
  else stakeReward P nHeight nTotalFees

/-- The outputs for earlier stakers. -/
def mposOutputs (nHeight : ℕ) (nTotalFees : ℤ) : Option (List CTxOut) :=
  if SplitsReward P nHeight then
    S.createMPoSOutputs P (rewardPiece P nHeight nTotalFees) nHeight
  else some []

/-- The output for the interest. -/
def interestOutputs (script : CScript) (utxoInterest : ℤ) : List CTxOut :=
  if 0 < utxoInterest then [⟨utxoInterest, script⟩] else []

/-- The body that `CreateCoinStake` and `CreateCoinStakeSW` share, from a
parent at height `nHeight`, with `interest` giving what the inputs have
earned. -/
def createCoinStakeWith (nHeight : ℕ) (inputs : Option StakingWallet.StakeInputs)
    (interest : StakingWallet.StakeInputs → ℤ) (nTotalFees : ℤ) (tx : CTransaction) :
    Option CoinStake := do
  let i ← inputs
  if stakeReward P nHeight nTotalFees < 0 then none
  else
    let shares ← mposOutputs S P nHeight nTotalFees
    let txNew : CTransaction := { tx with
      vin := i.vwtxPrev.map fun pcoin => { prevout := pcoin.prevout, scriptSig := [] }
      vout := ⟨0, []⟩ ::
        (StakingWallet.stakeOutputs i.script (i.nCredit + keptReward P nHeight nTotalFees) ++
          shares ++ tx.vout.drop 2 ++ interestOutputs i.script (interest i)) }
    let txNew ← W.signInputs 0 i.vwtxPrev txNew
    some ⟨txNew, i.vwtxPrev⟩

/-- The height from which `CreateCoinStake` pays no interest. -/
def lastInterestHeight (testnet : Bool) : ℕ := if testnet then 69999 else 239999

/-- The interest `CreateCoinStake` pays. -/
def stakerInterest (testnet : Bool) (nHeight : ℕ) (i : StakingWallet.StakeInputs) : ℤ :=
  if nHeight < lastInterestHeight testnet then
    calUtxoInterest i.nCredit i.kernel.nTimeSmart W.nowtime
  else 0

/-- `CWallet::CreateCoinStake`, on the tip at height `nHeight`. -/
def createCoinStake (testnet : Bool) (nHeight : ℕ) (nTotalFees : ℤ) (tx : CTransaction) :
    Option CoinStake :=
  createCoinStakeWith S P W nHeight (W.stakeInputs W.selectCoinsForStaking W.checkKernel)
    (stakerInterest W testnet nHeight) nTotalFees tx

/-- The interest `CreateCoinStakeSW` pays. -/
def mainNodeInterest (i : StakingWallet.StakeInputs) : ℤ :=
  calUtxoInterest i.nCredit i.kernel.nTimeSmart W.nowtime

/-- `CWallet::CreateCoinStakeSW`, on the best header at height `nHeight`. -/
def createCoinStakeSW (nHeight : ℕ) (nTotalFees : ℤ) (tx : CTransaction) : Option CoinStake :=
  createCoinStakeWith S P W nHeight (W.stakeInputs W.selectCoinsForStakingSW W.checkKernelSW)
    (mainNodeInterest W) nTotalFees tx

end Create

/-! ## What the inputs are worth -/

namespace StakingWallet

variable {W : StakingWallet}

/-- The loop keeps count of the value, and within what may be spent. -/
theorem combine_value (kernel : StakeCoin) (script : CScript) (setCoins : List StakeCoin)
    {vwtxPrev : List StakeCoin} {nCredit : ℤ} (hvalue : coinsValue vwtxPrev = nCredit)
    (hle : nCredit ≤ W.spendable) :
    coinsValue (W.combine kernel script setCoins (vwtxPrev, nCredit)).1 =
        (W.combine kernel script setCoins (vwtxPrev, nCredit)).2 ∧
      nCredit ≤ (W.combine kernel script setCoins (vwtxPrev, nCredit)).2 ∧
      (W.combine kernel script setCoins (vwtxPrev, nCredit)).2 ≤ W.spendable := by
  induction setCoins generalizing vwtxPrev nCredit with
  | nil => exact ⟨hvalue, le_refl _, hle⟩
  | cons pcoin setCoins ih =>
    rw [combine]
    split_ifs with hsame hmany hover hlarge
    · exact ⟨hvalue, le_refl _, hle⟩
    · exact ⟨hvalue, le_refl _, hle⟩
    · exact ih hvalue hle
    · have hnext : coinsValue (vwtxPrev ++ [pcoin]) = nCredit + pcoin.out.nValue := by
        simp [coinsValue, ← hvalue]
      obtain ⟨h1, h2, h3⟩ := ih hnext (by omega)
      have := pcoin.value_nonneg
      exact ⟨h1, by omega, h3⟩
    · exact ih hvalue hle

/-- **The inputs found**: their value is counted, positive and at most what
may be spent, and the stake output pays to a key of the wallet. -/
theorem stakeInputs_spec {select : ℤ → Option (List StakeCoin)} {check : COutPoint → Bool}
    {i : StakeInputs} (h : W.stakeInputs select check = some i) :
    coinsValue i.vwtxPrev = i.nCredit ∧ 0 < i.nCredit ∧ i.nCredit ≤ W.spendable ∧
      W.scriptPubKeyOut i.kernel.out.scriptPubKey = some i.script := by
  unfold stakeInputs at h
  split at h
  · cases h
  simp only [bind_eq_bind, bind_eq_some_iff] at h
  obtain ⟨setCoins, -, kernel, -, script, hscript, h⟩ := h
  split at h
  · cases h
  rename_i hne
  rw [not_or] at hne
  have hnonneg := kernel.value_nonneg
  have hpos : 0 < kernel.out.nValue := lt_of_le_of_ne hnonneg (Ne.symm hne.1)
  have hvalue : coinsValue [kernel] = kernel.out.nValue := by simp [coinsValue]
  obtain ⟨h1, h2, h3⟩ := W.combine_value kernel script setCoins hvalue (not_lt.1 hne.2)
  obtain ⟨⟩ := h
  exact ⟨h1, hpos.trans_le h2, h3, hscript⟩

theorem StakeInputs.nCredit_moneyRange {i : StakeInputs} (hpos : 0 < i.nCredit)
    (hle : i.nCredit ≤ W.spendable) : moneyRange i.nCredit = true := by
  rw [moneyRange_iff]
  have hbalance := W.balance_le
  have hreserve := W.reserve_nonneg
  unfold spendable at hle
  omega

/-- Splitting the stake loses nothing. -/
theorem sum_stakeOutputs (script : CScript) (nCredit : ℤ) :
    ((stakeOutputs script nCredit).map CTxOut.nValue).sum = nCredit := by
  unfold stakeOutputs
  split <;> simp [stakeSplitOutputs]

theorem scriptPubKey_of_mem_stakeOutputs {script : CScript} {nCredit : ℤ} {o : CTxOut}
    (ho : o ∈ stakeOutputs script nCredit) : o.scriptPubKey = script := by
  unfold stakeOutputs at ho
  split at ho
  · simp only [mem_append, mem_replicate, mem_singleton] at ho
    rcases ho with ⟨-, rfl⟩ | rfl <;> rfl
  · rw [mem_singleton] at ho
    rw [ho]

/-- The number of outputs that carry the stake. -/
theorem length_stakeOutputs (script : CScript) (nCredit : ℤ) :
    (stakeOutputs script nCredit).length = if stakeSplitThreshold ≤ nCredit then 2 else 1 := by
  unfold stakeOutputs
  split <;> simp [stakeSplitOutputs]

/-- Signing leaves the outputs alone. -/
theorem vout_of_signInputs {vwtxPrev : List StakeCoin} {nIn : ℕ} {txNew tx : CTransaction}
    (h : W.signInputs nIn vwtxPrev txNew = some tx) : tx.vout = txNew.vout := by
  induction vwtxPrev generalizing nIn txNew with
  | nil =>
    obtain ⟨⟩ := h
    rfl
  | cons pcoin vwtxPrev ih =>
    simp only [signInputs, bind_eq_bind, bind_eq_some_iff, Prod.exists] at h
    obtain ⟨_, _, -, hrest⟩ := h
    have hvout := ih hrest
    exact hvout

end StakingWallet

/-! ## What the outputs are worth -/

section Shares

variable {S : StakeIndex} {P : ConsensusParams} {nHeight : ℕ} {nTotalFees : ℤ}
variable {shares : List CTxOut}

theorem StakeIndex.length_getMPoSOutputScripts {h : ℤ} {scripts : List CScript}
    (hs : S.getMPoSOutputScripts P h = some scripts) :
    scripts.length = (P.nMPoSRewardRecipients - 1).toNat := by
  rw [← (forall₂_of_mapM hs).length_eq, length_range]

/-- The shares, where there are any. -/
theorem mposOutputs_of_splits (hsplits : SplitsReward P nHeight) :
    mposOutputs S P nHeight nTotalFees =
      (S.getMPoSOutputScripts P nHeight).map fun scripts =>
        scripts.map (CTxOut.mk (rewardPiece P nHeight nTotalFees)) :=
  if_pos hsplits

theorem length_mposOutputs (h : mposOutputs S P nHeight nTotalFees = some shares) :
    shares.length = if SplitsReward P nHeight then (P.nMPoSRewardRecipients - 1).toNat else 0 := by
  by_cases hsplits : SplitsReward P nHeight
  · rw [mposOutputs_of_splits hsplits] at h
    obtain ⟨scripts, hs, rfl⟩ := map_eq_some_iff.1 h
    rw [if_pos hsplits, length_map, StakeIndex.length_getMPoSOutputScripts hs]
  · rw [mposOutputs, if_neg hsplits] at h
    obtain ⟨⟩ := h
    rw [if_neg hsplits]
    rfl

/-- **The reward is paid out whole**: what the staker keeps and the shares
add up to it. -/
theorem keptReward_add_shares (hn : 1 ≤ P.nMPoSRewardRecipients)
    (h : mposOutputs S P nHeight nTotalFees = some shares) :
    keptReward P nHeight nTotalFees + (shares.map CTxOut.nValue).sum =
      stakeReward P nHeight nTotalFees := by
  by_cases hsplits : SplitsReward P nHeight
  · rw [mposOutputs_of_splits hsplits] at h
    obtain ⟨scripts, hs, rfl⟩ := map_eq_some_iff.1 h
    have hlen : (scripts.length : ℤ) = P.nMPoSRewardRecipients - 1 := by
      rw [StakeIndex.length_getMPoSOutputScripts hs]
      omega
    have hsum : ((scripts.map (CTxOut.mk (rewardPiece P nHeight nTotalFees))).map
        CTxOut.nValue).sum = (P.nMPoSRewardRecipients - 1) * rewardPiece P nHeight nTotalFees := by
      rw [← hlen]
      simp [Function.comp_def]
    have hdiv := Int.mul_tdiv_add_tmod (stakeReward P nHeight nTotalFees) P.nMPoSRewardRecipients
    rw [keptReward, if_pos hsplits, hsum, rewardPiece]
    linear_combination hdiv
  · rw [mposOutputs, if_neg hsplits] at h
    obtain ⟨⟩ := h
    simp [keptReward, hsplits]

theorem sum_interestOutputs (script : CScript) {utxoInterest : ℤ} (h : 0 ≤ utxoInterest) :
    ((interestOutputs script utxoInterest).map CTxOut.nValue).sum = utxoInterest := by
  unfold interestOutputs
  split
  · simp
  · simp
    omega

end Shares

/-- The outputs of a coinstake, part by part. -/
structure CoinStake.Made (c : CoinStake) (S : StakeIndex) (P : ConsensusParams) (nHeight : ℕ)
    (nTotalFees : ℤ) (refunds : List CTxOut) (i : StakingWallet.StakeInputs) (utxoInterest : ℤ) :
    Prop where
  vwtxPrev : c.vwtxPrev = i.vwtxPrev
  reward_nonneg : 0 ≤ stakeReward P nHeight nTotalFees
  vout : ∃ shares, mposOutputs S P nHeight nTotalFees = some shares ∧
    c.tx.vout = ⟨0, []⟩ ::
      (StakingWallet.stakeOutputs i.script (i.nCredit + keptReward P nHeight nTotalFees) ++
        shares ++ refunds ++ interestOutputs i.script utxoInterest)

/-- **What a successful call has made.** -/
theorem createCoinStakeWith_made {S : StakeIndex} {P : ConsensusParams} {W : StakingWallet}
    {nHeight : ℕ} {inputs : Option StakingWallet.StakeInputs}
    {interest : StakingWallet.StakeInputs → ℤ} {nTotalFees : ℤ} {tx : CTransaction} {c : CoinStake}
    (h : createCoinStakeWith S P W nHeight inputs interest nTotalFees tx = some c) :
    ∃ i, inputs = some i ∧ c.Made S P nHeight nTotalFees (tx.vout.drop 2) i (interest i) := by
  simp only [createCoinStakeWith, bind_eq_bind, bind_eq_some_iff] at h
  obtain ⟨i, hi, h⟩ := h
  split at h
  · cases h
  rename_i hreward
  simp only [bind_eq_some_iff] at h
  obtain ⟨shares, hshares, txNew, hsigned, hc⟩ := h
  obtain ⟨⟩ := hc
  exact ⟨i, hi, rfl, not_lt.1 hreward, shares, hshares, StakingWallet.vout_of_signInputs hsigned⟩

/-- **What a coinstake creates**: the reward, the refunds and the
interest. -/
theorem CoinStake.Made.created {c : CoinStake} {S : StakeIndex} {P : ConsensusParams} {nHeight : ℕ}
    {nTotalFees : ℤ} {refunds : List CTxOut} {i : StakingWallet.StakeInputs} {utxoInterest : ℤ}
    (h : c.Made S P nHeight nTotalFees refunds i utxoInterest) (hn : 1 ≤ P.nMPoSRewardRecipients)
    (hvalue : coinsValue i.vwtxPrev = i.nCredit) (hinterest : 0 ≤ utxoInterest) :
    c.tx.valueOut - c.valueIn =
      stakeReward P nHeight nTotalFees + (refunds.map CTxOut.nValue).sum + utxoInterest := by
  obtain ⟨shares, hshares, hvout⟩ := h.vout
  have hreward := keptReward_add_shares hn hshares
  have hstake := StakingWallet.sum_stakeOutputs i.script
    (i.nCredit + keptReward P nHeight nTotalFees)
  have hi := sum_interestOutputs i.script hinterest
  rw [CTransaction.valueOut, hvout, CoinStake.valueIn, h.vwtxPrev]
  simp only [map_cons, map_append, sum_cons, sum_append]
  omega

end Slucore

import Slucore.Wallet.CoinStake
/-!
# Wallet — a coinstake against the check of its reward

The wallet computes the reward of a coinstake and `CheckReward` computes
it again. `CoinStake.Made.passes_iff` says when the two agree, for a coinstake made
from a parent at any height, not necessarily that of the tip: the
interest has to be found by `ConnectBlock`, which reads it off the last
output only from a number of outputs on, and it may no longer be paid;
the subsidies of the two heights have to agree; and so have the shares of
earlier stakers. The staker's coinstake fails only where its interest is
overlooked (`coinstake_passes_iff`), that of a main node in all these
ways (`coinstakeSW_passes_iff`).
-/


namespace Slucore

open Option StakingWallet BlockContext
open List hiding le_refl lt_irrefl

/-- What scripts are taken for, and where the shares are read from. -/
structure Recognises (N : Node) (S : StakeIndex) (W : StakingWallet) : Prop where
  mpos : ∀ h, N.getMPoSOutputScripts h = S.getMPoSOutputScripts N.consensus h
  ownKey : ∀ hash key, W.getKey hash = some key →
    N.extractDestination (payToPubKey key) = some .pubkey
  kernelKey : ∀ script key, W.solver script = some (.pubkey key) →
    W.getKey (W.hash160 key) = some key → N.extractDestination script = some .pubkey
  keyHash : ∀ a, N.extractDestination (payToPubkeyHash a) = some .pubkeyhash
  burn : N.extractDestination burnScript = none

/-- The number of recipients is an `int`, and at least three; the networks
have five or ten. -/
def ConsensusParams.ManyRecipients (P : ConsensusParams) : Prop :=
  3 ≤ P.nMPoSRewardRecipients ∧ P.nMPoSRewardRecipients < 2 ^ 31

/-- A refund output pays to the hash of a key. -/
def IsRefund (out : CTxOut) : Prop := ∃ a, out.scriptPubKey = payToPubkeyHash a

/-- What the refunds are worth. -/
def refundsValue (refunds : List CTxOut) : ℤ := (refunds.map CTxOut.nValue).sum

/-- How many outputs carry the stake. -/
def stakeCount (P : ConsensusParams) (nHeight : ℕ) (nTotalFees nCredit : ℤ) : ℕ :=
  if stakeSplitThreshold ≤ nCredit + keptReward P nHeight nTotalFees then 2 else 1

/-- A coinstake with interest has more outputs than the reward has
recipients: an empty one, those of the stake, the refunds and the interest
are enough, or there are shares. -/
def InterestRead (P : ConsensusParams) (nHeight : ℕ) (nTotalFees nCredit : ℤ)
    (refunds : List CTxOut) : Prop :=
  SplitsReward P nHeight ∨
    P.nMPoSRewardRecipients < stakeCount P nHeight nTotalFees nCredit + refunds.length + 2

instance (P : ConsensusParams) (nHeight : ℕ) (nTotalFees nCredit : ℤ) (refunds : List CTxOut) :
    Decidable (InterestRead P nHeight nTotalFees nCredit refunds) :=
  inferInstanceAs (Decidable (_ ∨ _))

/-- The shares due after `tip` are those of a parent at height `nHeight`, up
to their order. -/
def SharesAgree (S : StakeIndex) (P : ConsensusParams) (tip nHeight : ℕ) (nTotalFees : ℤ) : Prop :=
  ∃ due made, mposOutputs S P tip nTotalFees = some due ∧
    mposOutputs S P nHeight nTotalFees = some made ∧ due.Perm made

/-- The reward made from a parent at height `nHeight` is the one due after
`tip`. -/
structure RewardsAgree (N : Node) (S : StakeIndex) (tip nHeight : ℕ) (nTotalFees nCredit : ℤ)
    (refunds : List CTxOut) (utxoInterest : ℤ) : Prop where
  /-- No interest is read when none is paid any more. -/
  interest : InterestOver N (tip + 1) →
    utxoInterest = 0 ∨ ¬ InterestRead N.consensus nHeight nTotalFees nCredit refunds
  /-- The subsidy covers the one made, with the interest that is not read. -/
  subsidy : getBlockSubsidy (nHeight + 1) N.consensus +
      (if InterestRead N.consensus nHeight nTotalFees nCredit refunds then 0 else utxoInterest) ≤
    getBlockSubsidy (tip + 1) N.consensus
  shares : SplitsReward N.consensus tip → SharesAgree S N.consensus tip nHeight nTotalFees

/-! ## Scripts -/

section Scripts

variable {N : Node} {S : StakeIndex} {W : StakingWallet}

/-- The stake pays to a public key. -/
theorem Recognises.scriptPubKeyOut (hr : Recognises N S W) {kernel script : CScript}
    (h : W.scriptPubKeyOut kernel = some script) :
    N.extractDestination script = some .pubkey := by
  unfold StakingWallet.scriptPubKeyOut at h
  split at h
  · obtain ⟨key, hkey, rfl⟩ := map_eq_some_iff.1 h
    exact hr.ownKey _ _ hkey
  · rename_i key hsolved
    split at h
    · rename_i key' hkey
      split at h
      · rename_i heq
        obtain ⟨⟩ := h
        exact hr.kernelKey _ _ hsolved (heq ▸ hkey)
      · cases h
    · cases h
  · cases h

/-- The script of a share. -/
theorem StakeIndex.addMPoSScript_cases {h : ℤ} {script : CScript}
    (hs : S.addMPoSScript h = some script) :
    script = burnScript ∨ ∃ a, script = payToPubkeyHash a := by
  simp only [addMPoSScript, bind_eq_bind, bind_eq_some_iff] at hs
  obtain ⟨pos, -, a, -, hs⟩ := hs
  split_ifs at hs
  · exact .inl (Option.some.inj hs).symm
  · exact .inr ⟨a, (Option.some.inj hs).symm⟩
  · exact .inl (Option.some.inj hs).symm

/-- A share pays to no public key, and to some script. -/
theorem Recognises.share (hr : Recognises N S W) {P : ConsensusParams} {nHeight : ℕ}
    {nTotalFees : ℤ} {shares : List CTxOut} (h : mposOutputs S P nHeight nTotalFees = some shares)
    {out : CTxOut} (hout : out ∈ shares) :
    N.extractDestination out.scriptPubKey ≠ some .pubkey ∧ out.scriptPubKey ≠ [] := by
  by_cases hsplits : SplitsReward P nHeight
  · rw [mposOutputs_of_splits hsplits] at h
    obtain ⟨scripts, hs, rfl⟩ := map_eq_some_iff.1 h
    obtain ⟨script, hscript, rfl⟩ := List.mem_map.1 hout
    obtain ⟨k, -, hk⟩ := exists_of_mem_mapM hs hscript
    rcases StakeIndex.addMPoSScript_cases hk with rfl | ⟨a, rfl⟩
    · exact ⟨by simp [hr.burn], by simp [burnScript]⟩
    · exact ⟨by simp [hr.keyHash], by simp [payToPubkeyHash]⟩
  · rw [mposOutputs, if_neg hsplits] at h
    obtain ⟨⟩ := h
    cases hout

end Scripts

/-! ## The interest as `ConnectBlock` reads it -/

section Read

variable {N : Node} {S : StakeIndex} {W : StakingWallet} {c : CoinStake} {nHeight : ℕ}
variable {nTotalFees : ℤ} {refunds : List CTxOut} {i : StakingWallet.StakeInputs}
variable {utxoInterest : ℤ}

/-- How many outputs a coinstake with interest has. -/
theorem CoinStake.Made.length_vout (h : c.Made S N.consensus nHeight nTotalFees refunds i utxoInterest)
    (hpos : 0 < utxoInterest) : N.consensus.nMPoSRewardRecipients < c.tx.vout.length ↔
      InterestRead N.consensus nHeight nTotalFees i.nCredit refunds := by
  obtain ⟨shares, hshares, hvout⟩ := h.vout
  have hlen := length_mposOutputs hshares
  have hstakes := length_stakeOutputs i.script
    (i.nCredit + keptReward N.consensus nHeight nTotalFees)
  rw [hvout, InterestRead]
  simp only [length_cons, length_append, interestOutputs, if_pos hpos, hlen,
    length_nil]
  rw [hstakes, ← stakeCount]
  by_cases hsplits : SplitsReward N.consensus nHeight
  · simp only [hsplits, if_true, true_or, iff_true]
    omega
  · simp only [hsplits, if_false, false_or]
    omega

/-- **The interest that is read** is the interest paid, where the coinstake
has enough outputs, and nothing else. -/
theorem CoinStake.Made.readInterest
    (h : c.Made S N.consensus nHeight nTotalFees refunds i utxoInterest)
    (hr : Recognises N S W) (hn : N.consensus.ManyRecipients)
    (hscript : N.extractDestination i.script = some .pubkey)
    (hrefunds : ∀ out ∈ refunds, IsRefund out) (hnonneg : 0 ≤ utxoInterest) :
    (readInterest N c.tx).getD 0 =
      if InterestRead N.consensus nHeight nTotalFees i.nCredit refunds then utxoInterest else 0 := by
  have hcount : (N.consensus.nMPoSRewardRecipients % 2 ^ 64).toNat < c.tx.vout.length ↔
      N.consensus.nMPoSRewardRecipients < c.tx.vout.length := by
    obtain ⟨hlow, hhigh⟩ := hn
    omega
  rcases hnonneg.lt_or_eq with hpos | hzero
  · -- the last output is that of the interest
    have hlast : c.tx.vout.getLast? = some ⟨utxoInterest, i.script⟩ := by
      obtain ⟨shares, -, hvout⟩ := h.vout
      rw [hvout, interestOutputs, if_pos hpos, ← cons_append, List.getLast?_concat]
    unfold BlockContext.readInterest
    simp only [hcount, h.length_vout hpos, hlast]
    split <;> simp [hscript]
  · -- without interest the last output is no stake output, unless there are too few
    subst hzero
    rw [ite_self]
    unfold readInterest
    by_cases hmany : N.consensus.nMPoSRewardRecipients < c.tx.vout.length
    · rw [if_pos (hcount.2 hmany)]
      obtain ⟨shares, hshares, hvout⟩ := h.vout
      have hne : shares ++ refunds ≠ [] := by
        intro hnil
        obtain ⟨rfl, rfl⟩ := append_eq_nil_iff.1 hnil
        rw [hvout] at hmany
        simp only [length_cons, append_nil, interestOutputs, lt_irrefl, if_false,
          length_stakeOutputs] at hmany
        have := hn.1
        split at hmany <;> omega
      have hlast : c.tx.vout.getLast? = some ((shares ++ refunds).getLast hne) := by
        rw [hvout, interestOutputs, if_neg (lt_irrefl 0), append_nil, List.append_assoc,
          ← cons_append, List.getLast?_append_of_ne_nil _ hne,
          List.getLast?_eq_getLast_of_ne_nil hne]
      have hdest : N.extractDestination ((shares ++ refunds).getLast hne).scriptPubKey ≠
          some .pubkey := by
        rcases mem_append.1 (getLast_mem hne) with hmem | hmem
        · exact (hr.share hshares hmem).1
        · obtain ⟨a, ha⟩ := hrefunds _ hmem
          rw [ha, hr.keyHash]
          decide
      rw [hlast, bind_some, if_neg hdest]
      rfl
    · rw [if_neg (hcount.not.2 hmany)]
      rfl

end Read

/-! ## The check -/

/-- Elements that are not in a part need not be looked for there. -/
theorem subperm_append_of_disjoint {α : Type} [DecidableEq α] {expected part rest : List α}
    (h : ∀ x ∈ expected, x ∉ part) : expected.Subperm (part ++ rest) ↔ expected.Subperm rest := by
  rw [subperm_ext_iff, subperm_ext_iff]
  refine forall₂_congr fun x hx => ?_
  rw [count_append, count_eq_zero_of_not_mem (h x hx), Nat.zero_add]

section Check

variable {N : Node} {S : StakeIndex} {W : StakingWallet} {c : CoinStake} {tip nHeight : ℕ}
variable {nFees nTotalFees : ℤ} {refunds : List CTxOut} {i : StakingWallet.StakeInputs}
variable {utxoInterest : ℤ} {block : CBlock}

theorem rewardRecipients_succ (N : Node) (tip : ℕ) : rewardRecipients N (tip + 1) =
    if SplitsReward N.consensus tip then N.consensus.nMPoSRewardRecipients else 1 := by
  have htip : ((tip + 1 : ℕ) : ℤ) - 1 = tip := by omega
  rw [rewardRecipients, htip]
  rfl

/-- The shares of a coinstake stand apart from its other outputs. -/
theorem Recognises.share_not_mem (hr : Recognises N S W)
    (hscript : N.extractDestination i.script = some .pubkey) {P : ConsensusParams}
    {due : List CTxOut} (hdue : mposOutputs S P tip nTotalFees = some due) {nCredit : ℤ} :
    ∀ out ∈ due, out ∉ ⟨0, []⟩ ::
      (StakingWallet.stakeOutputs i.script nCredit ++ interestOutputs i.script utxoInterest) := by
  intro out hout hmem
  obtain ⟨hdest, hne⟩ := hr.share hdue hout
  rcases mem_cons.1 hmem with rfl | hmem
  · exact hne rfl
  rcases mem_append.1 hmem with hmem | hmem
  · rw [scriptPubKey_of_mem_stakeOutputs hmem] at hdest
    exact hdest hscript
  unfold interestOutputs at hmem
  split at hmem
  · rw [mem_singleton.1 hmem] at hdest
    exact hdest hscript
  · cases hmem

/-- **The shares due are found among the outputs when they are the shares
made**, since both are as many. -/
theorem CoinStake.Made.shares_subperm_iff
    (h : c.Made S N.consensus nHeight nTotalFees refunds i utxoInterest) (hr : Recognises N S W)
    (hscript : N.extractDestination i.script = some .pubkey)
    (hsplits : SplitsReward N.consensus tip) {due : List CTxOut}
    (hdue : mposOutputs S N.consensus tip nTotalFees = some due) :
    (refunds ++ due).Subperm c.tx.vout ↔ SharesAgree S N.consensus tip nHeight nTotalFees := by
  obtain ⟨made, hmade, hvout⟩ := h.vout
  set stakes := StakingWallet.stakeOutputs i.script
    (i.nCredit + keptReward N.consensus nHeight nTotalFees)
  set interest := interestOutputs i.script utxoInterest
  have hperm : c.tx.vout.Perm (refunds ++ ((⟨0, []⟩ :: (stakes ++ interest)) ++ made)) := by
    rw [hvout, perm_iff_count]
    intro x
    simp only [count_cons, count_append]
    omega
  rw [hperm.subperm_left, subperm_append_left,
    subperm_append_of_disjoint (hr.share_not_mem hscript hdue)]
  have hdueLen := length_mposOutputs hdue
  have hmadeLen := length_mposOutputs hmade
  rw [if_pos hsplits] at hdueLen
  constructor
  · intro hsub
    refine ⟨due, made, hdue, hmade, hsub.perm_of_length_le ?_⟩
    split at hmadeLen <;> omega
  · rintro ⟨due', made', hdue', hmade', hagree⟩
    obtain rfl := Option.some.inj (hdue.symm.trans hdue')
    obtain rfl := Option.some.inj (hmade.symm.trans hmade')
    exact hagree.subperm

/-- The refunds are among the outputs. -/
theorem CoinStake.Made.refunds_subperm
    (h : c.Made S N.consensus nHeight nTotalFees refunds i utxoInterest) :
    refunds.Subperm c.tx.vout := by
  obtain ⟨shares, -, hvout⟩ := h.vout
  rw [hvout]
  refine List.Sublist.subperm (List.Sublist.cons _ ?_)
  exact (sublist_append_right _ _).trans (sublist_append_left _ _)

/-- What a coinstake creates beyond the interest read, against fees and
subsidy. -/
theorem CoinStake.Made.amount_le_iff
    (h : c.Made S N.consensus nHeight (nFees - refundsValue refunds) refunds i utxoInterest)
    (hn : N.consensus.ManyRecipients) (hvalue : coinsValue i.vwtxPrev = i.nCredit)
    (hf : moneyRange nFees = true) (hi : moneyRange utxoInterest = true) (tip : ℕ)
    {read unread : ℤ} (hread : read + unread = utxoInterest)
    (hmem : 0 ≤ unread ∧ unread ≤ utxoInterest) :
    wrap64 (c.tx.valueOut - c.valueIn - read) ≤
        wrap64 (nFees + getBlockSubsidy (tip + 1) N.consensus) ↔
      getBlockSubsidy (nHeight + 1) N.consensus + unread ≤
        getBlockSubsidy (tip + 1) N.consensus := by
  have hcreated := h.created (by have := hn.1; omega) hvalue (moneyRange_iff.1 hi).1
  have hactual : c.tx.valueOut - c.valueIn - read =
      nFees + getBlockSubsidy (nHeight + 1) N.consensus + unread := by
    rw [hcreated, stakeReward, refundsValue]
    omega
  have hexact : wrap64 (nFees + getBlockSubsidy (nHeight + 1) N.consensus + unread) =
      nFees + getBlockSubsidy (nHeight + 1) N.consensus + unread := by
    have hs := getBlockSubsidy_mem (nHeight + 1) N.consensus
    have hcoin : coin = 100000000 := rfl
    rw [moneyRange_iff, maxMoney_val] at hf hi
    exact wrap64_eq_self ⟨by omega, by omega⟩
  rw [hactual, wrap64_fees_add_subsidy hf]
  omega

/-- The shares `CheckReward` looks for are those due after `tip`. -/
theorem Recognises.due_iff (hr : Recognises N S W) (hsplits : SplitsReward N.consensus tip)
    {due : List CTxOut} {gasRefunds : ℤ} :
    mposOutputs S N.consensus tip (nFees - gasRefunds) = some due ↔
      ∃ scripts, N.getMPoSOutputScripts (((tip + 1 : ℕ) : ℤ) - 1) = some scripts ∧
        scripts.map (CTxOut.mk ((nFees + getBlockSubsidy (tip + 1) N.consensus -
          gasRefunds).tdiv N.consensus.nMPoSRewardRecipients)) = due := by
  have hpiece : rewardPiece N.consensus tip (nFees - gasRefunds) =
      (nFees + getBlockSubsidy (tip + 1) N.consensus - gasRefunds).tdiv
        N.consensus.nMPoSRewardRecipients := by
    rw [rewardPiece, stakeReward]
    congr 1
    omega
  have htip : ((tip + 1 : ℕ) : ℤ) - 1 = tip := by omega
  rw [mposOutputs_of_splits hsplits, hpiece, htip, hr.mpos, map_eq_some_iff]

/-- **When a coinstake passes `CheckReward` after `tip`**, made from a parent
at height `nHeight`. -/
theorem CoinStake.Made.passes_iff
    (h : c.Made S N.consensus nHeight (nFees - refundsValue refunds) refunds i utxoInterest)
    (hr : Recognises N S W) (hn : N.consensus.ManyRecipients)
    (hscript : N.extractDestination i.script = some .pubkey)
    (hvalue : coinsValue i.vwtxPrev = i.nCredit) (hrefunds : ∀ out ∈ refunds, IsRefund out)
    (hf : moneyRange nFees = true) (hi : moneyRange utxoInterest = true)
    (hpos : block.isProofOfStake = true) (htx : block.vtx[1]? = some c.tx) :
    checkReward N block (tip + 1) nFees (refundsValue refunds) (c.tx.valueOut - c.valueIn) refunds
        ((BlockContext.readInterest N c.tx).getD 0) = .ok () ↔
      (RewardChecked N (tip + 1) → RewardsAgree N S tip nHeight (nFees - refundsValue refunds)
        i.nCredit refunds utxoInterest) := by
  by_cases hchecked : RewardChecked N (tip + 1)
  swap
  · exact iff_of_true (checkReward_of_not_rewardChecked hchecked) fun hc => absurd hc hchecked
  have hi' := moneyRange_iff.1 hi
  have hread := h.readInterest hr hn hscript hrefunds hi'.1
  have hearly := checkRewardEarly_of_rewardChecked hchecked
    ((BlockContext.readInterest N c.tx).getD 0)
  rw [hread] at hearly ⊢
  by_cases hover : InterestOver N (tip + 1) ∧ 0 <
      if InterestRead N.consensus nHeight (nFees - refundsValue refunds) i.nCredit refunds
      then utxoInterest else 0
  · -- interest is read after it ended
    rw [if_pos hover] at hearly
    refine iff_of_false (by simp [checkReward, hearly]) fun hagree => ?_
    rcases (hagree hchecked).interest hover.1 with hzero | hnot
    · simp [hzero] at hover
    · simp [hnot] at hover
  rw [if_neg hover] at hearly
  rw [checkReward_stake_eq_ok N hpos htx hearly, rewardRecipients_succ]
  -- the interest is the sum of what is read of it and what is not
  have hsplit : (if InterestRead N.consensus nHeight (nFees - refundsValue refunds) i.nCredit refunds
        then utxoInterest else 0) +
      (if InterestRead N.consensus nHeight (nFees - refundsValue refunds) i.nCredit refunds
        then 0 else utxoInterest) = utxoInterest := by
    split <;> omega
  have hamount := h.amount_le_iff hn hvalue hf hi tip hsplit (by split <;> omega)
  have hnone : InterestOver N (tip + 1) → utxoInterest = 0 ∨ ¬ InterestRead N.consensus nHeight
      (nFees - refundsValue refunds) i.nCredit refunds := by
    intro hlate
    by_contra hcon
    rw [not_or, not_not] at hcon
    exact hover ⟨hlate, by rw [if_pos hcon.2]; omega⟩
  constructor
  · rintro ⟨-, hle, -, hshares⟩ -
    refine ⟨hnone, hamount.1 hle, fun hsplits => ?_⟩
    rw [if_pos hsplits] at hshares
    obtain ⟨-, scripts, hscripts, hsub⟩ := hshares (by have := hn.1; omega)
    rw [wrap64_fees_add_subsidy hf] at hsub
    exact (h.shares_subperm_iff hr hscript hsplits
      ((hr.due_iff hsplits).2 ⟨scripts, hscripts, rfl⟩)).1 hsub
  · intro hagree
    obtain ⟨-, hsubsidy, hshares⟩ := hagree hchecked
    refine ⟨h.refunds_subperm, hamount.2 hsubsidy, ?_, fun hne => ?_⟩
    · split
      · have := hn.1
        omega
      · exact le_refl 1
    · have hsplits : SplitsReward N.consensus tip := by
        by_contra hnot
        exact hne (if_neg hnot)
      obtain ⟨due, made, hdue, hmade, hperm⟩ := hshares hsplits
      obtain ⟨scripts, hscripts, rfl⟩ := (hr.due_iff hsplits).1 hdue
      rw [if_pos hsplits, wrap64_fees_add_subsidy hf]
      refine ⟨?_, scripts, hscripts, (h.shares_subperm_iff hr hscript hsplits hdue).2
        ⟨_, made, hdue, hmade, hperm⟩⟩
      have hreward := h.reward_nonneg
      rw [stakeReward] at hreward
      omega

end Check

/-! ## The staker and the main node -/

section Passes

variable {N : Node} {S : StakeIndex} {W : StakingWallet} {c : CoinStake} {tip : ℕ} {nFees : ℤ}
variable {tx : CTransaction} {i : StakingWallet.StakeInputs} {block : CBlock}

/-- The interest is an amount. -/
theorem moneyRange_calUtxoInterest {value : ℤ} (hv : moneyRange value = true)
    (nUtxoTime nowtime : ℤ) : moneyRange (calUtxoInterest value nUtxoTime nowtime) = true := by
  obtain ⟨h0, h1⟩ := calUtxoInterest_mem hv nUtxoTime nowtime
  rw [moneyRange_iff] at hv ⊢
  unfold maxUtxoInterest at h1
  omega

/-- The staker pays interest only while `CheckReward` lets it pass. -/
theorem stakerInterest_of_interestOver (hover : InterestOver N (tip + 1)) :
    stakerInterest W N.testnet tip i = 0 := by
  refine if_neg ?_
  unfold lastInterestHeight
  rcases hover with ⟨ht, hh⟩ | ⟨ht, hh⟩
  · rw [ht, if_pos rfl]
    omega
  · rw [ht, if_neg (by decide)]
    omega

/-- **When the staker's coinstake passes the check of its reward**: where the
reward is not looked at, where no interest is paid, and where the
coinstake has more outputs than the reward has recipients. -/
theorem coinstake_passes_iff (hr : Recognises N S W) (hn : N.consensus.ManyRecipients)
    (hrefunds : ∀ out ∈ tx.vout.drop 2, IsRefund out) (hf : moneyRange nFees = true)
    (hinputs : W.stakeInputs W.selectCoinsForStaking W.checkKernel = some i)
    (hmade : createCoinStake S N.consensus W N.testnet tip
      (nFees - refundsValue (tx.vout.drop 2)) tx = some c)
    (hpos : block.isProofOfStake = true) (htx : block.vtx[1]? = some c.tx) :
    checkReward N block (tip + 1) nFees (refundsValue (tx.vout.drop 2))
        (c.tx.valueOut - c.valueIn) (tx.vout.drop 2)
        ((BlockContext.readInterest N c.tx).getD 0) = .ok () ↔
      (RewardChecked N (tip + 1) → stakerInterest W N.testnet tip i = 0 ∨
        InterestRead N.consensus tip (nFees - refundsValue (tx.vout.drop 2)) i.nCredit
          (tx.vout.drop 2)) := by
  obtain ⟨i', hi', hm⟩ := createCoinStakeWith_made hmade
  obtain rfl := Option.some.inj (hinputs.symm.trans hi')
  obtain ⟨hvalue, hposCredit, hle, hscript⟩ := stakeInputs_spec hinputs
  have hcredit := StakingWallet.StakeInputs.nCredit_moneyRange hposCredit hle
  have hrange : moneyRange (stakerInterest W N.testnet tip i) = true := by
    unfold stakerInterest
    split
    · exact moneyRange_calUtxoInterest hcredit _ _
    · decide
  rw [hm.passes_iff hr hn (hr.scriptPubKeyOut hscript) hvalue hrefunds hf hrange hpos htx]
  refine imp_congr_right fun _ => ⟨fun hagree => ?_, fun hor => ?_⟩
  · have hsubsidy := hagree.subsidy
    by_contra hcon
    rw [not_or] at hcon
    rw [if_neg hcon.2] at hsubsidy
    have := moneyRange_iff.1 hrange
    exact hcon.1 (by omega)
  · refine ⟨fun hover => .inl (stakerInterest_of_interestOver hover), ?_, fun _ => ?_⟩
    · split
      · omega
      · rcases hor with hzero | hread
        · omega
        · contradiction
    · obtain ⟨shares, hshares, -⟩ := hm.vout
      exact ⟨shares, shares, hshares, hshares, .refl _⟩

/-- **When a main node's coinstake passes the check of its reward**, made on
the best header at height `best` for a block on `tip`: where the reward is
not looked at, or the reward made there is the one due. -/
theorem coinstakeSW_passes_iff {best : ℕ} (hr : Recognises N S W)
    (hn : N.consensus.ManyRecipients) (hrefunds : ∀ out ∈ tx.vout.drop 2, IsRefund out)
    (hf : moneyRange nFees = true)
    (hinputs : W.stakeInputs W.selectCoinsForStakingSW W.checkKernelSW = some i)
    (hmade : createCoinStakeSW S N.consensus W best
      (nFees - refundsValue (tx.vout.drop 2)) tx = some c)
    (hpos : block.isProofOfStake = true) (htx : block.vtx[1]? = some c.tx) :
    checkReward N block (tip + 1) nFees (refundsValue (tx.vout.drop 2))
        (c.tx.valueOut - c.valueIn) (tx.vout.drop 2)
        ((BlockContext.readInterest N c.tx).getD 0) = .ok () ↔
      (RewardChecked N (tip + 1) → RewardsAgree N S tip best
        (nFees - refundsValue (tx.vout.drop 2)) i.nCredit (tx.vout.drop 2)
        (mainNodeInterest W i)) := by
  obtain ⟨i', hi', hm⟩ := createCoinStakeWith_made hmade
  obtain rfl := Option.some.inj (hinputs.symm.trans hi')
  obtain ⟨hvalue, hposCredit, hle, hscript⟩ := stakeInputs_spec hinputs
  have hcredit := StakingWallet.StakeInputs.nCredit_moneyRange hposCredit hle
  have hrange : moneyRange (mainNodeInterest W i) = true := moneyRange_calUtxoInterest hcredit _ _
  exact hm.passes_iff hr hn (hr.scriptPubKeyOut hscript) hvalue hrefunds hf hrange hpos htx

end Passes

/-! ## A coinstake with interest -/

/-- A node of the test network, or of the main network. -/
def stakingNode (testnet : Bool) : Node := { sampleNode with testnet := testnet }

/-- A compressed public key. -/
def stakingKey : List UInt8 := 0x02 :: List.replicate 32 0

/-- A coin of 1000, 40 days old at the time 3456000. -/
def stakingCoin : StakeCoin where
  prevout := ⟨100, 0⟩
  out := ⟨1000 * coin, payToPubKey stakingKey⟩
  nTimeSmart := 0
  value_nonneg := by decide

/-- A wallet with this coin. -/
def stakingWallet : StakingWallet where
  nBalance := 1000 * coin
  reserveBalance := 0
  selectCoinsForStaking _ := some [stakingCoin]
  selectCoinsForStakingSW _ := some [stakingCoin]
  checkKernel _ := true
  checkKernelSW _ := true
  solver s := if s = payToPubKey stakingKey then some (.pubkey stakingKey) else none
  hash160 _ := 9
  getKey a := if a = 9 then some stakingKey else none
  signSignature _ _ := some ([0x51], [])
  nowtime := 3456000
  balance_le := by decide
  reserve_nonneg := by decide

/-- The coinstake of a template without contracts. -/
def bareCoinstake : CTransaction := ⟨[], [⟨0, []⟩, ⟨0, [0x51]⟩], 2, 0⟩

/-- A block with this coinstake. -/
def stakingBlock (c : CoinStake) : CBlock := sampleBlock ⟨100, 0⟩ [sampleCoinbase 0, c.tx]

theorem destinationOf_stakingKey : destinationOf (payToPubKey stakingKey) = some .pubkey := by
  decide

theorem stakingNode_recognises (testnet : Bool) :
    Recognises (stakingNode testnet) stakingIndex stakingWallet where
  mpos _ := rfl
  ownKey hash key h := by
    simp only [stakingWallet] at h
    split at h
    · obtain ⟨⟩ := h
      exact destinationOf_stakingKey
    · cases h
  kernelKey script key h _ := by
    simp only [stakingWallet] at h
    split at h
    · rename_i hs
      rw [hs]
      exact destinationOf_stakingKey
    · cases h
  keyHash _ := rfl
  burn := rfl

theorem stakingNode_manyRecipients (testnet : Bool) :
    (stakingNode testnet).consensus.ManyRecipients :=
  ⟨(by decide : (3 : ℤ) ≤ 5), (by decide : (5 : ℤ) < 2 ^ 31)⟩

theorem bareCoinstake_refunds : ∀ out ∈ bareCoinstake.vout.drop 2, IsRefund out :=
  fun _ hout => by cases hout

/-- What `CheckReward` says of the coinstake for the block after `tip`,
without fees or refunds. -/
def checkBareReward (N : Node) (tip : ℕ) (c : CoinStake) : Except Failure Unit :=
  checkReward N (stakingBlock c) (tip + 1) 0 0 (c.tx.valueOut - c.valueIn) []
    ((BlockContext.readInterest N c.tx).getD 0)

theorem stakingWallet_inputs : (stakingWallet.stakeInputs stakingWallet.selectCoinsForStaking
    stakingWallet.checkKernel).isSome = true := by
  decide

theorem coinstake_passes_after_shares : ∃ c,
    createCoinStake stakingIndex sampleParams stakingWallet true 20000 0 bareCoinstake = some c ∧
      checkBareReward (stakingNode true) 20000 c = .ok () := by
  obtain ⟨i, hi⟩ := isSome_iff_exists.1 stakingWallet_inputs
  obtain ⟨c, hc⟩ := isSome_iff_exists.1
    (by decide : (createCoinStake stakingIndex sampleParams stakingWallet true 20000 0
      bareCoinstake).isSome = true)
  have hmade : createCoinStake stakingIndex (stakingNode true).consensus stakingWallet true 20000
      (0 - refundsValue (bareCoinstake.vout.drop 2)) bareCoinstake = some c := hc
  have hsplits : SplitsReward (stakingNode true).consensus 20000 := by decide
  exact ⟨c, hc, (coinstake_passes_iff (stakingNode_recognises true)
    (stakingNode_manyRecipients true) bareCoinstake_refunds (by decide : moneyRange 0 = true) hi
    hmade rfl rfl).2 fun _ => .inr (.inl hsplits)⟩

/-- **On the test network, before shares are paid, the interest of a
coinstake is overlooked**: it has four outputs, and the reward is found to
be too large by just the interest. -/
theorem overlooked_interest_refused : ∃ c,
    createCoinStake stakingIndex sampleParams stakingWallet true 10050 0 bareCoinstake = some c ∧
      checkBareReward (stakingNode true) 10050 c ≠ .ok () := by
  obtain ⟨c, hc, hfails⟩ := map_eq_some_iff.1
    (by decide : (createCoinStake stakingIndex sampleParams stakingWallet true 10050 0
      bareCoinstake).map (fun c => (checkBareReward (stakingNode true) 10050 c).toOption.isSome) =
        some false)
  refine ⟨c, hc, fun hok => ?_⟩
  rw [hok] at hfails
  cases hfails

theorem coinstakeSW_passes_on_tip : ∃ c,
    createCoinStakeSW stakingIndex sampleParams stakingWallet 200000 0 bareCoinstake = some c ∧
      checkBareReward (stakingNode false) 200000 c = .ok () := by
  obtain ⟨i, hi⟩ := isSome_iff_exists.1 stakingWallet_inputs
  obtain ⟨c, hc⟩ := isSome_iff_exists.1
    (by decide : (createCoinStakeSW stakingIndex sampleParams stakingWallet 200000 0
      bareCoinstake).isSome = true)
  obtain ⟨shares, hshares⟩ := isSome_iff_exists.1
    (by decide : (mposOutputs stakingIndex sampleParams 200000 0).isSome = true)
  have hsplits : SplitsReward (stakingNode false).consensus 200000 := by decide
  have hmade : createCoinStakeSW stakingIndex (stakingNode false).consensus stakingWallet 200000
      (0 - refundsValue (bareCoinstake.vout.drop 2)) bareCoinstake = some c := hc
  refine ⟨c, hc, (coinstakeSW_passes_iff (stakingNode_recognises false)
    (stakingNode_manyRecipients false) bareCoinstake_refunds (by decide : moneyRange 0 = true) hi
    hmade rfl rfl).2 fun _ => ⟨fun hover => ?_, ?_, fun _ => ?_⟩⟩
  · rcases hover with ⟨ht, -⟩ | ⟨-, hh⟩
    · cases ht
    · omega
  · exact le_of_eq (by rw [if_pos (.inl hsplits), add_zero])
  · exact ⟨shares, shares, hshares, hshares, .refl _⟩

/-- **On the main network after height 241000 the coinstake of a main node is
refused for its interest**, even where the best header is the tip. -/
theorem main_node_interest_refused : ∃ c,
    createCoinStakeSW stakingIndex sampleParams stakingWallet 250000 0 bareCoinstake = some c ∧
      checkBareReward (stakingNode false) 250000 c ≠ .ok () := by
  obtain ⟨c, hc, hfails⟩ := map_eq_some_iff.1
    (by decide : (createCoinStakeSW stakingIndex sampleParams stakingWallet 250000 0
      bareCoinstake).map (fun c => (checkBareReward (stakingNode false) 250000 c).toOption.isSome) =
        some false)
  refine ⟨c, hc, fun hok => ?_⟩
  rw [hok] at hfails
  cases hfails

/-! ## What a reward that passes pays -/

section Paid

variable {N : Node} {S : StakeIndex} {block : CBlock} {nHeight : ℕ} {vouts : List CTxOut}
  {nFees gasRefunds nActualStakeReward utxoInterest : ℤ}

/-- A reward that passes is that of a transaction of the block. -/
theorem exists_rewarded (hpos : block.isProofOfStake = true)
    (hearly : checkRewardEarly N nHeight utxoInterest = none)
    (h : checkReward N block nHeight nFees gasRefunds nActualStakeReward vouts utxoInterest
      = .ok ()) : ∃ tx, block.vtx[1]? = some tx := by
  simp only [checkReward, hearly, hpos, bind_eq_ok, orThrow_eq_ok] at h
  obtain ⟨tx, htx, -⟩ := h
  exact ⟨tx, htx⟩

/-- The share of one recipient. -/
def splitReward (N : Node) (nHeight : ℕ) (nFees gasRefunds : ℤ) : ℤ :=
  (wrap64 (nFees + getBlockSubsidy nHeight N.consensus) - gasRefunds).tdiv
    N.consensus.nMPoSRewardRecipients

/-- **Refunds and shares are all paid.** Where `CheckReward` looks at the
reward and rewards are split, a coinstake that passes has, counted with
repetitions, every refund and the share of every earlier staker among its
outputs. -/
theorem refunds_and_shares_paid
    (hmpos : ∀ h, N.getMPoSOutputScripts h = S.getMPoSOutputScripts N.consensus h)
    (hpos : block.isProofOfStake = true)
    (hactive : N.consensus.nFirstMPoSBlock ≤ (nHeight : ℤ) - 1) (hchecked : RewardChecked N nHeight)
    (h : checkReward N block nHeight nFees gasRefunds nActualStakeReward vouts utxoInterest
      = .ok ()) :
    ∃ tx scripts, block.vtx[1]? = some tx ∧
      S.getMPoSOutputScripts N.consensus ((nHeight : ℤ) - 1) = some scripts ∧
      (scripts.length : ℤ) = N.consensus.nMPoSRewardRecipients - 1 ∧
      (vouts ++ scripts.map (CTxOut.mk (splitReward N nHeight nFees gasRefunds))).Subperm
        tx.vout := by
  obtain ⟨hearly, -⟩ := early_of_checkReward hchecked h
  obtain ⟨tx, htx⟩ := exists_rewarded hpos hearly h
  obtain ⟨hsub, -, hone, hshares⟩ := (checkReward_stake_eq_ok N hpos htx hearly).1 h
  have hrecipients : rewardRecipients N nHeight = N.consensus.nMPoSRewardRecipients :=
    if_pos hactive
  rw [hrecipients] at hone hshares
  by_cases heq : N.consensus.nMPoSRewardRecipients = 1
  · -- a single recipient: there are no shares
    refine ⟨tx, [], htx, ?_, by simp [heq], by simpa using hsub⟩
    simp [StakeIndex.getMPoSOutputScripts, heq]
  · obtain ⟨-, scripts, hscripts, hboth⟩ := hshares heq
    rw [hmpos] at hscripts
    refine ⟨tx, scripts, htx, hscripts, ?_, hboth⟩
    rw [StakeIndex.length_getMPoSOutputScripts hscripts]
    omega

end Paid

/-- The shares of a coinstake on the test network. -/
theorem shares_paid_on_testnet : ∃ c tx scripts,
    checkBareReward (stakingNode true) 20000 c = .ok () ∧
    (stakingBlock c).vtx[1]? = some tx ∧
    stakingIndex.getMPoSOutputScripts sampleParams 20000 = some scripts ∧
    (scripts.length : ℤ) = 4 ∧
    (scripts.map (CTxOut.mk (splitReward (stakingNode true) 20001 0 0))).Subperm tx.vout := by
  obtain ⟨c, -, hok⟩ := map_eq_some_iff.1
    (by decide : (createCoinStake stakingIndex sampleParams stakingWallet true 20000 0
      bareCoinstake).map (fun c => (checkBareReward (stakingNode true) 20000 c).toOption) =
        some (some ()))
  have hpass : checkBareReward (stakingNode true) 20000 c = .ok () := by
    cases hres : checkBareReward (stakingNode true) 20000 c with
    | ok _ => rfl
    | error e =>
      rw [hres] at hok
      cases hok
  obtain ⟨tx, scripts, htx, hscripts, hlen, hsub⟩ :=
    refunds_and_shares_paid (S := stakingIndex) (fun _ => rfl) rfl (by decide) (.inl rfl) hpass
  exact ⟨c, tx, scripts, hpass, htx, hscripts, hlen, hsub⟩

/-- A coinstake that spends the coin of the wallet and pays it back, and nobody
else. -/
def unpaidCoinstake : CTransaction where
  vin := [{ prevout := stakingCoin.prevout, scriptSig := [0x51] }]
  vout := [⟨0, []⟩, stakingCoin.out]

/-- A block with it. -/
def unpaidBlock : CBlock := sampleBlock stakingCoin.prevout [sampleCoinbase 0, unpaidCoinstake]

/-- **Below height 194830 the main network pays no attention**: rewards are
split, a refund is due, and a coinstake without it passes. -/
theorem unpaid_refund_accepted :
    unpaidBlock.isProofOfStake = true ∧ unpaidCoinstake.isCoinStake = true ∧
    (stakingNode false).consensus.nFirstMPoSBlock ≤ ((20001 : ℕ) : ℤ) - 1 ∧
    (checkReward (stakingNode false) unpaidBlock 20001 0 5 0 [⟨5, payToPubkeyHash 9⟩] 0).toOption =
      some () ∧
    ∀ tx, unpaidBlock.vtx[1]? = some tx → ¬ [(⟨5, payToPubkeyHash 9⟩ : CTxOut)].Subperm tx.vout := by
  refine ⟨by decide, by decide, by decide, by decide, ?_⟩
  rintro tx htx hsub
  obtain rfl : unpaidCoinstake = tx := by
    simpa [unpaidBlock, sampleBlock] using htx
  have hmem := hsub.subset (mem_singleton_self _)
  revert hmem
  decide

end Slucore

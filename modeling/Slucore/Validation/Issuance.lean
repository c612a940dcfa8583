import Slucore.Common.Along
import Slucore.Validation.ShadowBlock
/-!
# Validation — how much a block issues

What a block issues is the value of its outputs less the value of the
coins it spends, both in exact integers and with every coin read where
it is spent. Transaction by transaction that is the value of coinbases,
plus what transactions shaped as coinstakes create, less the fees of all
others (`issued_eq`). The loop of `ConnectBlock` adds up the same fees,
and `CheckReward` bounds the rest: for a proof-of-stake block the
coinstake, for a proof-of-work block the coinbase alone.
-/


namespace Slucore

namespace CCoinsViewCache

variable (H : Hashes) (nHeight : ℕ) (view : CCoinsViewCache) (vtx : List CTransaction)

/-- What a transaction creates beyond the coins it spends. -/
def excess (view : CCoinsViewCache) (tx : CTransaction) : ℤ :=
  tx.valueOut - CoinSet.valueIn view.getCoin tx

/-- The value of the coins spent by the transactions that are no coinbase. -/
def spentValue : ℤ :=
  sumAlong (afterTx H nHeight) (fun v tx => CoinSet.valueIn v.getCoin tx) view vtx

/-- The value of all outputs, less the value of the coins spent. -/
def issued : ℤ := (vtx.map CTransaction.valueOut).sum - spentValue H nHeight view vtx

/-- The value of the coinbases. -/
def coinbaseValue (vtx : List CTransaction) : ℤ :=
  (vtx.map fun tx => if tx.isCoinBase then tx.valueOut else 0).sum

/-- What the transactions shaped as coinstakes create. -/
def minted : ℤ :=
  sumAlong (afterTx H nHeight) (fun v tx => if tx.isCoinStake then v.excess tx else 0) view vtx

/-- The fees of the other transactions. -/
def feesPaid : ℤ :=
  sumAlong (afterTx H nHeight)
    (fun v tx => if tx.isCoinBase || tx.isCoinStake then 0 else -v.excess tx) view vtx

/-- **What a block issues, by the shape of its transactions.** -/
theorem issued_eq : issued H nHeight view vtx =
    coinbaseValue vtx + minted H nHeight view vtx - feesPaid H nHeight view vtx := by
  unfold issued spentValue coinbaseValue minted feesPaid
  rw [← sumAlong_const (afterTx H nHeight) CTransaction.valueOut view vtx,
    ← sumAlong_const (afterTx H nHeight) (fun tx => if tx.isCoinBase then tx.valueOut else 0) view
      vtx, ← sumAlong_sub, ← sumAlong_add, ← sumAlong_sub]
  refine sumAlong_congr fun v tx _ => ?_
  cases hcs : tx.isCoinStake with
  | true => simp [CTransaction.isCoinBase_eq_false_of_isCoinStake hcs, excess]
  | false =>
    cases hcb : tx.isCoinBase with
    | true => simp [CoinSet.valueIn, hcb]
    | false => simp [excess]

end CCoinsViewCache

open CCoinsViewCache CTransaction

namespace BlockContext

variable {H : Hashes} {N : Node} {C : BlockContext} {vtx : List CTransaction}
variable {s s' : ConnectState} {k : ℕ}

variable {tx : CTransaction}

/-- One turn adds the fee of its transaction, exactly. -/
theorem Turn.nFees_eq {i : ℕ} (h : Turn H N C tx i s s') (hr : moneyRange s.nFees = true) :
    moneyRange s'.nFees = true ∧ s'.nFees = s.nFees +
      if tx.isCoinBase || tx.isCoinStake then 0 else -s.view.excess tx := by
  cases hcb : tx.isCoinBase with
  | true =>
    rw [h.fee_coinbase hcb]
    exact ⟨hr, by simp⟩
  | false =>
    obtain ⟨txfee, hpays, hfees, hr'⟩ := h.fee hcb
    refine ⟨hr', ?_⟩
    cases hcs : tx.isCoinStake with
    | true =>
      rw [hfees, hpays.coinstake hcs, wrap64_add_of_moneyRange hr (by decide)]
      simp
    | false =>
      obtain ⟨hfee, hm⟩ := hpays.fee hcs
      rw [hfees, wrap64_add_of_moneyRange hr hm, hfee]
      simp [excess]

/-- **The loop adds up the fees, exactly.** -/
theorem Turns.nFees_eq (h : Turns H N C k vtx s s') (hr : moneyRange s.nFees = true) :
    moneyRange s'.nFees = true ∧ s'.nFees = s.nFees + feesPaid H C.nHeight s.view vtx := by
  induction h with
  | nil => exact ⟨hr, by simp [feesPaid]⟩
  | cons head tail ih =>
    obtain ⟨hr₁, h₁⟩ := head.nFees_eq hr
    obtain ⟨hr₂, h₂⟩ := ih hr₁
    refine ⟨hr₂, ?_⟩
    rw [h₂, h₁, head.view_eq, feesPaid, feesPaid, sumAlong_cons]
    ring

/-- Transactions of another shape leave the stake alone. -/
theorem Turns.stake_eq (h : Turns H N C k vtx s s') (hno : ∀ tx ∈ vtx, tx.isCoinStake = false) :
    s'.nActualStakeReward = s.nActualStakeReward ∧ s'.utxoInterest = s.utxoInterest := by
  induction h with
  | nil => exact ⟨rfl, rfl⟩
  | cons head tail ih =>
    obtain ⟨hr, hi⟩ := ih fun tx htx => hno tx (List.mem_cons_of_mem _ htx)
    obtain ⟨hr', hi'⟩ := head.reads.others (hno _ List.mem_cons_self)
    exact ⟨hr.trans hr', hi.trans hi'⟩

/-- The reward the loop records for a coinstake is what the coinstake
creates. -/
theorem Turn.stake_eq {i : ℕ} (h : Turn H N C tx i s s')
    (hcs : tx.isCoinStake = true) (hc : Checked tx) :
    s'.nActualStakeReward = s.view.excess tx ∧
      s'.utxoInterest = (readInterest N tx).getD s.utxoInterest ∧
      -maxMoney ≤ s.view.excess tx ∧ s.view.excess tx ≤ maxMoney := by
  obtain ⟨hreward, hinterest⟩ := h.reads.stake hcs
  obtain ⟨txfee, hpays, -, -⟩ :=
    h.fee (isCoinBase_eq_false_of_isCoinStake hcs)
  have hin := moneyRange_iff.1 hpays.valueIn
  have hout := moneyRange_iff.1 hc.valueOut
  have hrange : -maxMoney ≤ s.view.excess tx ∧ s.view.excess tx ≤ maxMoney := by
    unfold excess
    omega
  refine ⟨?_, hinterest, hrange⟩
  rw [hreward, hpays.getValueIn]
  rw [maxMoney_val] at hrange
  exact wrap64_eq_self ⟨by unfold excess at hrange; omega, by unfold excess at hrange; omega⟩

end BlockContext

variable {H : Hashes} {N : Node} {lim : BlockLimits} {block : CBlock} {pindex p : CBlockIndex}
variable {pprev : Option CBlockIndex} {view : CCoinsViewCache} {aal : AalState}
variable {fJustCheck : Bool} {c : Connected} {s : ConnectState}

/-- The fees of a block that was accepted, as the loop has them. -/
theorem Accepted.nFees_eq (h : Accepted H N lim block pindex p view aal fJustCheck c s) :
    moneyRange s.nFees = true ∧ s.nFees = feesPaid H pindex.nHeight view block.vtx := by
  obtain ⟨hr, heq⟩ := h.turns.nFees_eq moneyRange_zero
  exact ⟨hr, by rw [heq]; exact zero_add _⟩

variable {coinbase : CTransaction}

/-- Beside its first transaction a block has no coinbase. -/
theorem CoinbaseFirst.coinbaseValue_eq {vtx rest : List CTransaction}
    (h : CoinbaseFirst vtx coinbase rest) : coinbaseValue vtx = coinbase.valueOut := by
  have hrest : rest.map (fun tx => if tx.isCoinBase then tx.valueOut else 0) =
      rest.map fun _ => 0 :=
    List.map_congr_left fun tx htx => by simp [h.others tx htx]
  rw [coinbaseValue, h.vtx_eq, List.map_cons, hrest]
  simp [h.isCoinBase]

/-- The stake of a proof-of-stake block: the coinstake stands second, what
it creates is all that is minted, and the loop has recorded it. -/
structure Staked (H : Hashes) (N : Node) (block : CBlock) (nHeight : ℕ) (view : CCoinsViewCache)
    (s : ConnectState) (coinbase coinstake : CTransaction) : Prop where
  vtx_eq : ∃ others, block.vtx = coinbase :: coinstake :: others
  checked : Checked coinstake
  coinbaseValue : coinbaseValue block.vtx = 0
  minted : minted H nHeight view block.vtx = (view.afterTx H nHeight coinbase).excess coinstake
  reward : s.nActualStakeReward = (view.afterTx H nHeight coinbase).excess coinstake
  interest : s.utxoInterest = (BlockContext.readInterest N coinstake).getD 0
  range : -maxMoney ≤ s.nActualStakeReward ∧ s.nActualStakeReward ≤ maxMoney

theorem Accepted.staked (h : Accepted H N lim block pindex p view aal fJustCheck c s)
    (hshape : Shape block) (hpos : block.isProofOfStake = true) :
    ∃ coinbase coinstake, Staked H N block pindex.nHeight view s coinbase coinstake := by
  obtain ⟨⟨coinbase, rest, hfirst, hstake⟩, hchecked⟩ := hshape
  obtain ⟨coinstake, others, rfl, hcs, hothers, hzero⟩ := hstake hpos
  have hcb : coinbase.isCoinStake = false := by
    by_contra hcb
    have := isCoinBase_eq_false_of_isCoinStake (by simpa using hcb)
    rw [hfirst.isCoinBase] at this
    cases this
  have hmem : coinstake ∈ block.vtx := by simp [hfirst.vtx_eq]
  have hturns := h.turns
  rw [hfirst.vtx_eq] at hturns
  -- the coinbase, the coinstake, and then no transaction of either shape
  cases hturns with
  | cons head tail =>
  cases tail with
  | cons head' tail =>
    obtain ⟨-, hi⟩ := head.reads.others hcb
    obtain ⟨hr', hi', hrange⟩ := head'.stake_eq hcs (hchecked _ hmem)
    obtain ⟨hr'', hi''⟩ := tail.stake_eq hothers
    have hreward := hr''.trans hr'
    rw [head.view_eq] at hreward hrange
    refine ⟨coinbase, coinstake, ⟨others, hfirst.vtx_eq⟩, hchecked _ hmem,
      hfirst.coinbaseValue_eq.trans hzero, ?_, hreward, ?_, hreward ▸ hrange⟩
    · rw [CCoinsViewCache.minted, hfirst.vtx_eq, sumAlong_cons, sumAlong_cons,
        sumAlong_eq_zero fun v tx htx => by simp [hothers tx htx]]
      simp [hcb, hcs]
    · rw [hi'', hi', hi]
      rfl

variable {coinstake : CTransaction}

/-- The interest read is an amount. -/
theorem Staked.interest_range (h : Staked H N block pindex.nHeight view s coinbase coinstake) :
    moneyRange s.utxoInterest = true := by
  rw [h.interest]
  unfold BlockContext.readInterest
  split
  · cases hlast : coinstake.vout.getLast? with
    | none => exact moneyRange_zero
    | some out =>
      rw [Option.bind_some]
      split
      · exact h.checked.nValue out (List.mem_of_getLast? hlast)
      · decide
  · decide

/-- **What a coinstake creates is bounded** by fees, subsidy and the
interest read off it. -/
theorem Accepted.excess_le (h : Accepted H N lim block pindex p view aal fJustCheck c s)
    (hpos : block.isProofOfStake = true) (hh : RewardChecked N pindex.nHeight)
    (hs : Staked H N block pindex.nHeight view s coinbase coinstake) :
    (view.afterTx H pindex.nHeight coinbase).excess coinstake ≤
      feesPaid H pindex.nHeight view block.vtx + getBlockSubsidy pindex.nHeight N.consensus +
        s.utxoInterest := by
  obtain ⟨hr, hfees⟩ := h.nFees_eq
  have hle := stake_of_checkReward hpos (early_of_checkReward hh h.reward).1 hr
    hs.interest_range hs.range h.reward
  rw [hs.reward] at hle
  omega

/-- **Proof-of-stake issuance bound.** Once interest has ended, a
proof-of-stake block that `ConnectBlock` accepts issues at most the
subsidy of its height. -/
theorem stake_issuance_le (hv : block.Vouched H) (hpos : block.isProofOfStake = true)
    (hover : InterestOver N pindex.nHeight)
    (hne : block.getHash H ≠ N.consensus.hashGenesisBlock)
    (h : connectBlock H N lim block pindex pprev view aal fJustCheck = .ok c) :
    issued H pindex.nHeight view block.vtx ≤ getBlockSubsidy pindex.nHeight N.consensus := by
  obtain ⟨hshape, -, -, hgen | ⟨p, s, -, hacc⟩⟩ := connectBlock_eq_ok hv h
  · exact absurd hgen hne
  obtain ⟨coinbase, coinstake, hs⟩ := hacc.staked hshape hpos
  have hle := hacc.excess_le hpos hover.rewardChecked hs
  have hinterest := (early_of_checkReward hover.rewardChecked hacc.reward).2 hover
  rw [issued_eq, hs.coinbaseValue, hs.minted]
  omega

/-- The coinbase of a proof-of-stake block. -/
def emptyCoinbase : CTransaction where
  vin := [{ prevout := .null, scriptSig := [0x5a, 0] }]
  vout := [⟨0, []⟩]

/-- A transaction shaped as a coinstake: it spends the sample coin and
creates these outputs after an empty one. -/
def sampleCoinstake (vout : List CTxOut) : CTransaction where
  vin := [{ prevout := ⟨100, 0⟩, scriptSig := [] }]
  vout := ⟨0, []⟩ :: vout

/-- The shares of the four earlier stakers, without fees. -/
def sampleShares : List CTxOut := List.replicate 4 ⟨20000000, payToPubkeyHash 9⟩

/-- A coinstake that claims the shares, and 50 beyond its stake of 1000. -/
def modestCoinstake : CTransaction := sampleCoinstake (⟨1050, [0x51]⟩ :: sampleShares)

/-- A proof-of-stake block with this coinstake. -/
def modestStakeBlock : CBlock := sampleBlock ⟨100, 0⟩ [emptyCoinbase, modestCoinstake]

/-- A parent at another height. -/
def parentAt (nHeight : ℕ) : CBlockIndex := { sampleParent with nHeight }

theorem modestStakeBlock_connects : (connectBlock (singlingHashes modestStakeBlock.toCBlockHeader)
    sampleNode sampleLimits modestStakeBlock (sampleIndex 241001) (some (parentAt 241000))
    (sampleView 1000) idleWorld false).toOption.isSome = true := by
  decide

theorem modestStakeBlock_issuance :
    issued (singlingHashes modestStakeBlock.toCBlockHeader) (sampleIndex 241001).nHeight
      (sampleView 1000) modestStakeBlock.vtx ≤
        getBlockSubsidy (sampleIndex 241001).nHeight sampleNode.consensus := by
  obtain ⟨c, hc⟩ := exists_ok_of_isSome modestStakeBlock_connects
  have hle := stake_issuance_le (fun h => by cases h) (by decide) (by decide) (by decide) hc
  exact hle

/-! ## Proof of work -/

/-- No transaction shaped as a coinstake creates more than it spends. -/
def Thrifty (H : Hashes) (nHeight : ℕ) (view : CCoinsViewCache) (vtx : List CTransaction) : Prop :=
  ∀ pre tx post, vtx = pre ++ tx :: post → tx.isCoinStake = true →
    (view.afterTxs H nHeight pre).excess tx ≤ 0

/-- **Proof-of-work issuance.** Where `CheckReward` looks at the reward, an
accepted proof-of-work block issues at most the subsidy if none of its
transactions shaped as coinstakes creates more than it spends. Where the
coinbase claims all it may and no such transaction spends more than it
creates, it does so only then. -/
theorem work_issuance_le (hv : block.Vouched H) (hpow : block.isProofOfWork = true)
    (hh : RewardChecked N pindex.nHeight)
    (hne : block.getHash H ≠ N.consensus.hashGenesisBlock)
    (h : connectBlock H N lim block pindex pprev view aal fJustCheck = .ok c) :
    (Thrifty H pindex.nHeight view block.vtx →
      issued H pindex.nHeight view block.vtx ≤ getBlockSubsidy pindex.nHeight N.consensus) ∧
    (coinbaseValue block.vtx = feesPaid H pindex.nHeight view block.vtx +
        getBlockSubsidy pindex.nHeight N.consensus →
      (∀ pre tx post, block.vtx = pre ++ tx :: post → tx.isCoinStake = true →
        0 ≤ (view.afterTxs H pindex.nHeight pre).excess tx) →
      (issued H pindex.nHeight view block.vtx ≤ getBlockSubsidy pindex.nHeight N.consensus ↔
        Thrifty H pindex.nHeight view block.vtx)) := by
  obtain ⟨⟨⟨coinbase, rest, hfirst, -⟩, -⟩, -, -, hgen | ⟨p, s, -, hacc⟩⟩ :=
    connectBlock_eq_ok hv h
  · exact absurd hgen hne
  obtain ⟨hr, hfees⟩ := hacc.nFees_eq
  have hle := work_of_checkReward hpow hfirst.vtx_eq (early_of_checkReward hh hacc.reward).1 hr
    hacc.reward
  rw [← hfirst.coinbaseValue_eq] at hle
  have henough (hthrifty : Thrifty H pindex.nHeight view block.vtx) :
      issued H pindex.nHeight view block.vtx ≤ getBlockSubsidy pindex.nHeight N.consensus := by
    have hminted : minted H pindex.nHeight view block.vtx ≤ 0 := by
      refine (sumAlong_le_sumAlong (g := fun _ _ => 0) fun pre tx post hsplit => ?_).trans_eq
        (sumAlong_eq_zero fun _ _ _ => rfl)
      split
      · rename_i hcs
        exact hthrifty pre tx post hsplit hcs
      · exact le_refl _
    rw [issued_eq]
    omega
  refine ⟨henough, fun hall hcreates => ⟨fun hissued pre tx post hsplit hcs => ?_, henough⟩⟩
  -- what one transaction creates is at most what all do, and that is nothing
  have hmint : (view.afterTxs H pindex.nHeight pre).excess tx ≤
      minted H pindex.nHeight view block.vtx := by
    refine (le_of_eq (if_pos hcs).symm).trans (le_sumAlong
      (f := fun (v : CCoinsViewCache) tx => if tx.isCoinStake then v.excess tx else 0) hsplit
      fun pre tx post hsplit => ?_)
    split
    · rename_i hcs
      exact hcreates pre tx post hsplit hcs
    · exact le_refl _
  rw [issued_eq] at hissued
  omega

/-- A proof-of-work block with a transaction shaped as a coinstake that
turns 1000 into `nValue`. -/
def mintingBlock (nValue : ℤ) : CBlock :=
  sampleBlock .null [sampleCoinbase 0, sampleCoinstake [⟨nValue, [0x51]⟩]]

/-- The sample node on the test chain. -/
def testnetNode : Node := { sampleNode with testnet := true }

theorem thrifty_issuance :
    issued (singlingHashes (mintingBlock 900).toCBlockHeader) 10 (sampleView 1000)
      (mintingBlock 900).vtx ≤ getBlockSubsidy 10 sampleParams := by
  obtain ⟨c, hc⟩ := exists_ok_of_isSome
    (by decide : (connectBlock (singlingHashes (mintingBlock 900).toCBlockHeader)
      testnetNode sampleLimits (mintingBlock 900) (sampleIndex 10) (some sampleParent)
      (sampleView 1000) idleWorld false).toOption.isSome = true)
  refine (work_issuance_le (fun h => by cases h) (by decide) (.inl rfl) (by decide) hc).1 ?_
  intro pre tx post hsplit hcs
  rcases pre with - | ⟨_, - | ⟨_, pre⟩⟩
  · obtain ⟨rfl, -⟩ := List.cons.inj hsplit
    cases hcs
  · obtain ⟨rfl, htail⟩ := List.cons.inj hsplit
    obtain ⟨rfl, -⟩ := List.cons.inj htail
    decide
  · have hlength := congrArg List.length hsplit
    simp [mintingBlock, sampleBlock] at hlength

/-- **A proof-of-work block can issue more than its subsidy**, through a
transaction shaped as a coinstake. -/
theorem work_issuance_unbounded :
    ¬ ∀ (H : Hashes) (N : Node) (lim : BlockLimits) (block : CBlock) (pindex : CBlockIndex)
      (pprev : Option CBlockIndex) (view : CCoinsViewCache) (aal : AalState) (c : Connected),
      block.Vouched H → block.isProofOfWork = true → RewardChecked N pindex.nHeight →
      block.getHash H ≠ N.consensus.hashGenesisBlock →
      connectBlock H N lim block pindex pprev view aal false = .ok c →
      issued H pindex.nHeight view block.vtx ≤ getBlockSubsidy pindex.nHeight N.consensus := by
  intro h
  obtain ⟨c, hc⟩ := exists_ok_of_isSome
    (by decide +kernel : (connectBlock
      (singlingHashes (mintingBlock 2000000000000).toCBlockHeader) testnetNode sampleLimits
      (mintingBlock 2000000000000) (sampleIndex 10) (some sampleParent) (sampleView 1000)
      idleWorld false).toOption.isSome = true)
  have := h _ _ _ _ _ _ _ _ c (fun h => by cases h) (by decide) (.inl rfl) (by decide) hc
  revert this
  decide

/-! ## Interest -/

/-- `CWallet::CalUtxoInterest`: 0.58% for each full 30 days of age, at most
twelve of them. -/
def calUtxoInterest (value nUtxoTime nowtime : ℤ) : ℤ :=
  let day30 := max 0 (min 12 ((nowtime - nUtxoTime).tdiv 2592000))
  (wrap64 (wrap64 (day30 * value) * 58)).tdiv 10000

/-- The interest after twelve periods. -/
def maxUtxoInterest (value : ℤ) : ℤ := 12 * value * 58 / 10000

variable {value : ℤ}

/-- The number of periods the interest is paid for. -/
theorem calUtxoInterest_eq (hv : moneyRange value = true) (nUtxoTime nowtime : ℤ) :
    ∃ d, 0 ≤ d ∧ d ≤ 12 ∧ d = max 0 (min 12 ((nowtime - nUtxoTime).tdiv 2592000)) ∧
      calUtxoInterest value nUtxoTime nowtime = d * value * 58 / 10000 := by
  rw [moneyRange_iff, maxMoney_val] at hv
  refine ⟨_, le_max_left .., by simp, rfl, ?_⟩
  rw [calUtxoInterest]
  generalize hd : max 0 (min 12 ((nowtime - nUtxoTime).tdiv 2592000)) = d
  have h0 : 0 ≤ d := hd ▸ le_max_left ..
  have h12 : d ≤ 12 := by
    rw [← hd]
    simp
  -- nothing wraps, and the division is that of a non-negative number
  have hlo : 0 ≤ d * value := mul_nonneg h0 hv.1
  have hhi : d * value ≤ 12 * value := mul_le_mul_of_nonneg_right h12 hv.1
  rw [wrap64_eq_self (x := d * value) ⟨by omega, by omega⟩,
    wrap64_eq_self ⟨by omega, by omega⟩, Int.tdiv_eq_ediv_of_nonneg (by omega)]

theorem calUtxoInterest_mem (hv : moneyRange value = true) (nUtxoTime nowtime : ℤ) :
    0 ≤ calUtxoInterest value nUtxoTime nowtime ∧
      calUtxoInterest value nUtxoTime nowtime ≤ maxUtxoInterest value := by
  obtain ⟨d, h0, h12, -, heq⟩ := calUtxoInterest_eq hv nUtxoTime nowtime
  rw [moneyRange_iff] at hv
  have hlo : 0 ≤ d * value := mul_nonneg h0 hv.1
  have hhi : d * value ≤ 12 * value := mul_le_mul_of_nonneg_right h12 hv.1
  rw [heq]
  exact ⟨Int.ediv_nonneg (by omega) (by norm_num), Int.ediv_le_ediv (by norm_num) (by omega)⟩

/-- **The largest interest** `CalUtxoInterest` yields for an amount is that
of twelve periods, and a coin that is old enough has it. -/
theorem isGreatest_maxUtxoInterest (hv : moneyRange value = true) :
    IsGreatest {i | ∃ nUtxoTime nowtime, i = calUtxoInterest value nUtxoTime nowtime}
      (maxUtxoInterest value) := by
  constructor
  · obtain ⟨d, -, -, hd, heq⟩ := calUtxoInterest_eq hv 0 (12 * 2592000)
    obtain rfl : d = 12 := hd.trans (by decide)
    exact ⟨0, 12 * 2592000, heq.symm⟩
  · rintro i ⟨t, now, rfl⟩
    exact (calUtxoInterest_mem hv t now).2

/-- The largest interest on the coins a transaction spends. -/
def largestInterest (view : CCoinsViewCache) (tx : CTransaction) : ℤ :=
  maxUtxoInterest (CoinSet.valueIn view.getCoin tx)

/-- **What a coinstake creates while interest is paid.** The excess of a
coinstake over its stake is at most fees, subsidy and the largest
interest on the stake whenever the value read as interest is at most
that; for a coinstake that claims all it is excused, exactly then. -/
theorem stake_excess_le {coinbase coinstake : CTransaction} {others : List CTransaction}
    (hv : block.Vouched H) (hpos : block.isProofOfStake = true)
    (hallowed : InterestAllowed N pindex.nHeight)
    (hne : block.getHash H ≠ N.consensus.hashGenesisBlock)
    (h : connectBlock H N lim block pindex pprev view aal fJustCheck = .ok c)
    (hvtx : block.vtx = coinbase :: coinstake :: others) :
    ((BlockContext.readInterest N coinstake).getD 0 ≤
        largestInterest (view.afterTx H pindex.nHeight coinbase) coinstake →
      (view.afterTx H pindex.nHeight coinbase).excess coinstake ≤
        feesPaid H pindex.nHeight view block.vtx + getBlockSubsidy pindex.nHeight N.consensus +
          largestInterest (view.afterTx H pindex.nHeight coinbase) coinstake) ∧
    ((view.afterTx H pindex.nHeight coinbase).excess coinstake =
        feesPaid H pindex.nHeight view block.vtx + getBlockSubsidy pindex.nHeight N.consensus +
          (BlockContext.readInterest N coinstake).getD 0 →
      ((view.afterTx H pindex.nHeight coinbase).excess coinstake ≤
          feesPaid H pindex.nHeight view block.vtx + getBlockSubsidy pindex.nHeight N.consensus +
            largestInterest (view.afterTx H pindex.nHeight coinbase) coinstake ↔
        (BlockContext.readInterest N coinstake).getD 0 ≤
          largestInterest (view.afterTx H pindex.nHeight coinbase) coinstake)) := by
  obtain ⟨hshape, -, -, hgen | ⟨p, s, -, hacc⟩⟩ := connectBlock_eq_ok hv h
  · exact absurd hgen hne
  obtain ⟨coinbase', coinstake', hs⟩ := hacc.staked hshape hpos
  obtain ⟨others', hvtx'⟩ := hs.vtx_eq
  obtain ⟨rfl, rfl, -⟩ : coinbase = coinbase' ∧ coinstake = coinstake' ∧ others = others' := by
    simpa using hvtx.symm.trans hvtx'
  have hle := hacc.excess_le hpos hallowed.rewardChecked hs
  rw [hs.interest] at hle
  refine ⟨fun hi => by omega, fun heq => ?_⟩
  omega

/-- A proof-of-stake block whose coinstake, of a stake of 1000, pays the
shares and 10000 coins to a public key in its last output. -/
def usuryBlock : CBlock :=
  sampleBlock ⟨100, 0⟩ [emptyCoinbase, sampleCoinstake (⟨1000, [0x51]⟩ :: sampleShares ++
    [⟨1000000000000, [33, 2] ++ List.replicate 32 0 ++ [0xac]⟩])]

theorem usuryBlock_connects : (connectBlock (singlingHashes usuryBlock.toCBlockHeader)
    sampleNode sampleLimits usuryBlock (sampleIndex 200000) (some (parentAt 199999))
    (sampleView 1000) idleWorld false).toOption.isSome = true := by
  decide

/-- **The interest read is not bounded by the formula:** the last output of
the coinstake excuses itself. -/
theorem stake_excess_unbounded :
    ¬ ∀ (H : Hashes) (N : Node) (lim : BlockLimits) (block : CBlock) (pindex : CBlockIndex)
      (pprev : Option CBlockIndex) (view : CCoinsViewCache) (aal : AalState) (c : Connected)
      (coinbase coinstake : CTransaction) (others : List CTransaction),
      block.Vouched H → block.isProofOfStake = true → InterestAllowed N pindex.nHeight →
      block.getHash H ≠ N.consensus.hashGenesisBlock →
      connectBlock H N lim block pindex pprev view aal false = .ok c →
      block.vtx = coinbase :: coinstake :: others →
      (view.afterTx H pindex.nHeight coinbase).excess coinstake ≤
        feesPaid H pindex.nHeight view block.vtx + getBlockSubsidy pindex.nHeight N.consensus +
          largestInterest (view.afterTx H pindex.nHeight coinbase) coinstake := by
  intro h
  obtain ⟨c, hc⟩ := exists_ok_of_isSome usuryBlock_connects
  have := h _ _ _ _ _ _ _ _ c _ _ _ (fun h => by cases h) (by decide)
    (.inr ⟨rfl, by decide, by decide⟩) (by decide) hc rfl
  revert this
  decide

/-- A proof-of-stake block whose coinstake claims 50 beyond its stake of
1000 while interest is paid, in an output that is not read as interest. -/
theorem modestStakeBlock_connects_early :
    (connectBlock (singlingHashes modestStakeBlock.toCBlockHeader) sampleNode sampleLimits
      modestStakeBlock (sampleIndex 200000) (some (parentAt 199999)) (sampleView 1000) idleWorld
      false).toOption.isSome = true := by
  decide

theorem modestStakeBlock_excess :
    ((sampleView 1000).afterTx (singlingHashes modestStakeBlock.toCBlockHeader)
        (sampleIndex 200000).nHeight emptyCoinbase).excess modestCoinstake ≤
      feesPaid (singlingHashes modestStakeBlock.toCBlockHeader) (sampleIndex 200000).nHeight
          (sampleView 1000) modestStakeBlock.vtx +
        getBlockSubsidy (sampleIndex 200000).nHeight sampleNode.consensus +
        largestInterest ((sampleView 1000).afterTx
          (singlingHashes modestStakeBlock.toCBlockHeader) (sampleIndex 200000).nHeight
          emptyCoinbase) modestCoinstake := by
  obtain ⟨c, hc⟩ := exists_ok_of_isSome modestStakeBlock_connects_early
  have hle := stake_excess_le (fun h => by cases h) (by decide)
    (.inr ⟨rfl, by decide, by decide⟩) (by decide) hc rfl
  exact hle.1 (by decide)

end Slucore

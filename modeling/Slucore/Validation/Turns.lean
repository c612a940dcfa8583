import Slucore.Validation.ConnectBlock
/-!
# Validation — what one turn of the loop does, and what connecting a block means

`Turn` says everything later proofs need of one turn of the loop of
`ConnectBlock`: the fee, the stake, the rule on contract coins, what
joins the shadow block, and the update of the coins. `Accepted` takes a
successful call of `ConnectBlock` apart once.
-/


namespace Slucore

variable {H : Hashes} {N : Node} {C : BlockContext} {tx : CTransaction} {s s' : ConnectState}

namespace CCoinsViewCache

/-- The view once a transaction has been connected; as it was, where the
update fails. -/
def afterTx (H : Hashes) (nHeight : ℕ) (view : CCoinsViewCache) (tx : CTransaction) :
    CCoinsViewCache :=
  match view.updateCoins H tx nHeight with
  | .ok (v, _) => v
  | .error _ => view

/-- The view once a list of transactions has been connected. -/
def afterTxs (H : Hashes) (nHeight : ℕ) (view : CCoinsViewCache) (txs : List CTransaction) :
    CCoinsViewCache :=
  txs.foldl (afterTx H nHeight) view

end CCoinsViewCache

namespace BlockContext

/-- The contract execution of one transaction, without the checks before
it: the state it leaves and the transfers it makes. -/
def produce (H : Hashes) (N : Node) (C : BlockContext) (tx : CTransaction)
    (view : CCoinsViewCache) (w : AalState) : Option (AalState × List CTransaction) :=
  if tx.hasCreateOrCall && !tx.hasOpSpend then do
    let extract ← N.extractSilubiumTX tx view C.block.vtx
    let (w', results) ← ByteCodeExec.performByteCode H C.aalEnv N.vm N.tipHeight .committed
      (buildEVMEnvironment N C) extract.txs w
    let bcer ← ByteCodeExec.processingResults H extract.txs results
    return (w', bcer.valueTransfers)
  else some (w, [])

/-- What a transaction leaves in the shadow block: itself, unless it is an
`OP_SPEND` one, and the transfers it makes. -/
def entry (tx : CTransaction) (transfers : List CTransaction) : List CTransaction :=
  (if tx.hasOpSpend then [] else [tx]) ++ transfers

/-! ## The parts of a turn -/

theorem chargeFee_eq_ok (h : chargeFee N C tx s = .ok s') :
    ∃ nFees, s' = { s with nFees } ∧ (tx.isCoinBase = true → nFees = s.nFees) ∧
      (tx.isCoinBase = false → ∃ txfee, PaysFee s.view tx txfee ∧
        nFees = wrap64 (s.nFees + txfee) ∧ moneyRange nFees = true) := by
  unfold chargeFee at h
  split at h
  · rename_i hcb
    obtain ⟨⟩ := h
    exact ⟨s.nFees, rfl, fun _ => rfl, fun hn => absurd hcb (by simp [hn])⟩
  · rename_i hcb
    simp only [Bool.not_eq_true] at hcb
    simp only [bind_eq_ok, require_eq_ok, pure_eq_ok] at h
    obtain ⟨txfee, hfee, -, hr, -, -, rfl⟩ := h
    exact ⟨_, rfl, fun hn => absurd hn (by simp [hcb]),
      fun _ => ⟨txfee, paysFee_of_checkTxInputs hcb hfee, rfl, hr⟩⟩

theorem countSigOps_eq_ok (h : countSigOps N C tx s = .ok s') :
    ∃ nSigOpsCost, s' = { s with nSigOpsCost } := by
  simp only [countSigOps, bind_eq_ok, pure_eq_ok] at h
  obtain ⟨-, -, rfl⟩ := h
  exact ⟨_, rfl⟩

/-- The reward and the interest after a transaction. -/
structure ReadsStake (N : Node) (tx : CTransaction) (s s' : ConnectState) : Prop where
  stake : tx.isCoinStake = true →
    s'.nActualStakeReward = wrap64 (tx.valueOut - s.view.getValueIn tx) ∧
      s'.utxoInterest = (readInterest N tx).getD s.utxoInterest
  others : tx.isCoinStake = false →
    s'.nActualStakeReward = s.nActualStakeReward ∧ s'.utxoInterest = s.utxoInterest

theorem readStake_eq_ok (h : readStake N tx s = .ok s') :
    ∃ nActualStakeReward utxoInterest, s' = { s with nActualStakeReward, utxoInterest } ∧
      ReadsStake N tx s s' := by
  unfold readStake at h
  split at h
  · rename_i hcs
    simp only [bind_eq_ok, orThrow_eq_ok, pure_eq_ok] at h
    obtain ⟨w, hw, rfl⟩ := h
    obtain ⟨rfl, -⟩ := CTransaction.getValueOut_eq hw
    exact ⟨_, _, rfl, fun _ => ⟨rfl, rfl⟩, fun hn => absurd hcs (by simp [hn])⟩
  · rename_i hcs
    obtain ⟨⟩ := h
    exact ⟨_, _, rfl, fun hn => absurd hn hcs, fun _ => ⟨rfl, rfl⟩⟩

theorem verifyInputs_eq_ok (h : verifyInputs N tx s = .ok s') :
    ∃ nActualStakeReward utxoInterest, s' = { s with nActualStakeReward, utxoInterest } ∧
      ReadsStake N tx s s' ∧ (tx.isCoinBase = false → spendsByOpSpend tx s = true) := by
  unfold verifyInputs at h
  split at h
  · rename_i hcb
    obtain ⟨⟩ := h
    have hcs : ¬ tx.isCoinStake = true := fun hcs => by
      rw [CTransaction.isCoinBase_eq_false_of_isCoinStake hcs] at hcb
      cases hcb
    exact ⟨_, _, rfl, ⟨fun hn => absurd hn hcs, fun _ => ⟨rfl, rfl⟩⟩,
      fun hn => absurd hcb (by simp [hn])⟩
  · simp only [bind_eq_ok, require_eq_ok, pure_eq_ok] at h
    obtain ⟨t, hstake, -, -, -, hspend, rfl⟩ := h
    obtain ⟨r, i, rfl, hreads⟩ := readStake_eq_ok hstake
    exact ⟨r, i, rfl, hreads, fun _ => hspend⟩

theorem countValues_eq_ok (h : countValues tx s = .ok s') :
    ∃ nValueOut nValueIn, s' = { s with nValueOut, nValueIn } := by
  simp only [countValues, bind_eq_ok, pure_eq_ok] at h
  obtain ⟨-, -, rfl⟩ := h
  exact ⟨_, _, rfl⟩

/-- What a transaction does to the contract state and the shadow block. -/
theorem runContracts_eq_ok (h : runContracts H N C tx s = .ok s') :
    ∃ transfers, produce H N C tx s.view s.aal = some (s'.aal, transfers) ∧
      s'.checkVtx = s.checkVtx ++ entry tx transfers ∧
      ∃ blockGasUsed gasRefunds checkVouts, s' = { s with
        aal := s'.aal, blockGasUsed, gasRefunds, checkVouts, checkVtx := s'.checkVtx } := by
  unfold runContracts at h
  dsimp only at h
  unfold produce
  split at h
  · rename_i hc
    simp only [bind_eq_ok, pure_eq_ok, Prod.exists] at h
    obtain ⟨txs, hchecks, w, bcer, hexec, -, -, rfl⟩ := h
    simp only [checkContracts, bind_eq_ok, orThrow_eq_ok, pure_eq_ok] at hchecks
    obtain ⟨-, -, extract, hextract, -, -, -, -, -, -, -, -, rfl⟩ := hchecks
    simp only [executeContracts, bind_eq_ok, orThrow_eq_ok, pure_eq_ok, Prod.exists,
      Prod.mk.injEq] at hexec
    obtain ⟨w', results, hperform, bcer', hresults, rfl, rfl⟩ := hexec
    have hspend : tx.hasOpSpend = false := by simp_all
    refine ⟨bcer'.valueTransfers, ?_, ?_, _, _, _, rfl⟩
    · simp [hc, hextract, hperform, hresults]
    · simp [entry, hspend]
  · rename_i hc
    obtain ⟨⟩ := h
    refine ⟨[], by simp [hc], ?_, _, _, _, rfl⟩
    cases hspend : tx.hasOpSpend <;> simp [entry, hspend]

theorem applyCoins_eq_ok {i : ℕ} (h : applyCoins H C tx s i = .ok s') :
    ∃ view vprevout, s.view.updateCoins H tx C.nHeight = .ok (view, vprevout) ∧
      s' = { s with view, vtxundo := if i = 0 then s.vtxundo else s.vtxundo ++ [vprevout] } := by
  simp only [applyCoins, bind_eq_ok, pure_eq_ok, Prod.exists] at h
  obtain ⟨view, vprevout, hupd, rfl⟩ := h
  exact ⟨view, vprevout, hupd, rfl⟩

/-! ## A turn -/

/-- **One turn of the loop**, of the transaction at position `i`. -/
structure Turn (H : Hashes) (N : Node) (C : BlockContext) (tx : CTransaction) (i : ℕ)
    (s s' : ConnectState) : Prop where
  fee_coinbase : tx.isCoinBase = true → s'.nFees = s.nFees
  fee : tx.isCoinBase = false → ∃ txfee, PaysFee s.view tx txfee ∧
    s'.nFees = wrap64 (s.nFees + txfee) ∧ moneyRange s'.nFees = true
  reads : ReadsStake N tx s s'
  contractCoins : tx.isCoinBase = false → spendsByOpSpend tx s = true
  rebuilds : ∃ transfers, produce H N C tx s.view s.aal = some (s'.aal, transfers) ∧
    s'.checkVtx = s.checkVtx ++ entry tx transfers
  coins : ∃ vprevout, s.view.updateCoins H tx C.nHeight = .ok (s'.view, vprevout) ∧
    s'.vtxundo = if i = 0 then s.vtxundo else s.vtxundo ++ [vprevout]

theorem turn_of_connectTx {i : ℕ} (h : connectTx H N C s (tx, i) = .ok s') :
    Turn H N C tx i s s' := by
  simp only [connectTx, bind_eq_ok] at h
  obtain ⟨s₁, h₁, s₂, h₂, s₃, h₃, s₄, h₄, s₅, h₅, h₆⟩ := h
  obtain ⟨nFees, rfl, hcb, hfee⟩ := chargeFee_eq_ok h₁
  obtain ⟨sig, rfl⟩ := countSigOps_eq_ok h₂
  obtain ⟨r, int, rfl, hreads, hspend⟩ := verifyInputs_eq_ok h₃
  obtain ⟨o, ni, rfl⟩ := countValues_eq_ok h₄
  obtain ⟨transfers, hprod, hvtx, g, gr, cv, hs₅⟩ := runContracts_eq_ok h₅
  obtain ⟨view, vprevout, hupd, rfl⟩ := applyCoins_eq_ok h₆
  rw [hs₅] at hupd ⊢
  exact ⟨hcb, hfee, ⟨hreads.stake, hreads.others⟩, hspend, ⟨transfers, hprod, hvtx⟩,
    ⟨vprevout, hupd, rfl⟩⟩

theorem Turn.view_eq {i : ℕ} (h : Turn H N C tx i s s') :
    s'.view = s.view.afterTx H C.nHeight tx := by
  obtain ⟨vprevout, hupd, -⟩ := h.coins
  simp [CCoinsViewCache.afterTx, hupd]

/-- The turns of the loop over transactions that start at position `k`. -/
inductive Turns (H : Hashes) (N : Node) (C : BlockContext) :
    ℕ → List CTransaction → ConnectState → ConnectState → Prop
  | nil {k s} : Turns H N C k [] s s
  | cons {k tx vtx s t s'} (head : Turn H N C tx k s t) (tail : Turns H N C (k + 1) vtx t s') :
      Turns H N C k (tx :: vtx) s s'

/-- **The loop is a sequence of turns.** -/
theorem turns_of_foldlM {vtx : List CTransaction} {k : ℕ}
    (h : (vtx.zipIdx k).foldlM (connectTx H N C) s = .ok s') : Turns H N C k vtx s s' := by
  induction vtx generalizing k s with
  | nil =>
    obtain rfl := foldlM_nil_eq_ok.1 h
    exact .nil
  | cons tx vtx ih =>
    obtain ⟨t, ht, hrest⟩ := foldlM_cons_eq_ok.1 h
    exact .cons (turn_of_connectTx ht) (ih hrest)

/-- The turn of one transaction of the list, from the view the earlier
ones leave. -/
theorem Turns.exists_turn {pre post : List CTransaction} {k : ℕ}
    (h : Turns H N C k (pre ++ tx :: post) s s') :
    ∃ t t', Turn H N C tx (k + pre.length) t t' ∧
      t.view = s.view.afterTxs H C.nHeight pre := by
  induction pre generalizing k s with
  | nil =>
    cases h with
    | cons head _ => exact ⟨_, _, head, rfl⟩
  | cons tx' pre ih =>
    cases h with
    | cons head tail =>
      obtain ⟨t, t', hturn, hview⟩ := ih tail
      refine ⟨t, t', by simpa [Nat.add_assoc, Nat.add_comm 1] using hturn, ?_⟩
      rw [hview, head.view_eq]
      rfl

end BlockContext

/-! ## A block that was connected -/

/-- **What `ConnectBlock` establishes of a block it accepts**, other than
the genesis block: the loop ran to its end, the reward passed, and, when
the block is connected and not only checked, the shadow block has the
block's own hash. -/
structure Accepted (H : Hashes) (N : Node) (lim : BlockLimits) (block : CBlock)
    (pindex pprev : CBlockIndex) (view : CCoinsViewCache) (aal : AalState) (fJustCheck : Bool)
    (c : Connected) (s : ConnectState) : Prop where
  turns : BlockContext.Turns H N (blockContext N
    (nextLimits lim (N.dgp aal.state (pindex.nHeight + 1))) block pindex.nHeight pprev aal) 0
    block.vtx (.start view aal) s
  reward : checkReward N block pindex.nHeight s.nFees s.gasRefunds s.nActualStakeReward
    s.checkVouts s.utxoInterest = .ok ()
  header : fJustCheck = false → H.headerHash (checkHeader H block s) = block.getHash H
  bestBlock : block.nVersion ≠ swVersion → pprev.blockHash = view.getBestBlock
  connected : fJustCheck = false →
    c.view = s.view.setBestBlock pindex.blockHash ∧ c.aal = s.aal ∧ c.vtxundo = s.vtxundo

variable {lim : BlockLimits} {block : CBlock} {pindex : CBlockIndex} {pprev : Option CBlockIndex}
variable {view : CCoinsViewCache} {aal : AalState} {fJustCheck : Bool} {c : Connected}

/-- A block that `ConnectBlock` checks again has the shape. -/
theorem shape_of_recheckBlock {block' : CBlock} (hv : block.Vouched H)
    (h : recheckBlock H N lim block fJustCheck = .ok block') :
    Shape block ∧ (fJustCheck = false → block.RootCommits H) := by
  unfold recheckBlock at h
  split at h <;>
  · obtain ⟨hshape, hroot⟩ := shape_of_checkBlockWith hv (mapError_eq_ok.1 h)
    exact ⟨hshape, fun hjust => hroot (by rw [hjust]; rfl)⟩

/-- **A successful `ConnectBlock`, taken apart.** -/
theorem connectBlock_eq_ok (hv : block.Vouched H)
    (h : connectBlock H N lim block pindex pprev view aal fJustCheck = .ok c) :
    Shape block ∧ (fJustCheck = false → block.RootCommits H) ∧
      pindex.blockHash = block.getHash H ∧
      (block.getHash H = N.consensus.hashGenesisBlock ∨
        ∃ p s, pprev = some p ∧ Accepted H N lim block pindex p view aal fJustCheck c s) := by
  simp only [connectBlock, bind_eq_ok] at h
  obtain ⟨⟨⟩, hprelude, h⟩ := h
  simp only [connectPrelude, bind_eq_ok, require_eq_ok, Bool.or_eq_true, beq_iff_eq] at hprelude
  obtain ⟨-, hhash, -, -, -, -, -, -, -, -, _, hcheck, hbest⟩ := hprelude
  obtain ⟨hshape, hroot⟩ := shape_of_recheckBlock hv hcheck
  refine ⟨hshape, hroot, hhash, ?_⟩
  split at h
  · exact .inl ‹_›
  simp only [bind_eq_ok, orThrow_eq_ok] at h
  obtain ⟨-, -, p, rfl, hbody⟩ := h
  simp only [connectBody, bind_eq_ok] at hbody
  obtain ⟨-, -, s, hloop, ⟨⟩, hchecks, hend⟩ := hbody
  simp only [checkConnected, bind_eq_ok, mapError_eq_ok] at hchecks
  obtain ⟨-, -, ⟨⟩, hreward, -, -, hheader⟩ := hchecks
  refine .inr ⟨p, s, rfl, BlockContext.turns_of_foldlM hloop, hreward, fun hjust => ?_,
    fun hne => ?_, fun hjust => ?_⟩
  · simpa [hjust] using hheader
  · rcases hbest with hsw | hbest
    · exact absurd hsw hne
    · simpa using hbest
  · simp only [hjust, Bool.false_eq_true, if_false, bind_eq_ok, pure_eq_ok] at hend
    obtain ⟨-, -, -, -, rfl⟩ := hend
    exact ⟨rfl, rfl, rfl⟩

end Slucore

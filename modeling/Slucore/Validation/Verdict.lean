import Slucore.Validation.Contextual
import Slucore.Validation.NoAbort
/-!
# Validation — verdicts and the history of a node

`CheckBlock` is meant to be independent of context, but it reads two of
the limits that every `ConnectBlock` sets anew from the governance
contract: the weight a transaction may have and the number of signature
operations of a block. Two nodes that follow the same rules and have the
same clock can therefore disagree on a block, and `AcceptBlock` marks it
for good on one of them. `LimitFree` collects the checks that read no
limit; `verdicts_agree_iff` says on which blocks two nodes agree.
-/


namespace Slucore

open List

/-- Two nodes check blocks by the same rules and with the same clock. -/
structure SameRules (N₁ N₂ : Node) : Prop where
  consensus : N₁.consensus = N₂.consensus
  isInitialBlockDownload : N₁.isInitialBlockDownload = N₂.isInitialBlockDownload
  getAdjustedTime : N₁.getAdjustedTime = N₂.getAdjustedTime
  checkHeaderPoW : N₁.checkHeaderPoW = N₂.checkHeaderPoW
  verifyBlockSig : N₁.verifyBlockSig = N₂.verifyBlockSig
  txSerializeSize : N₁.txSerializeSize = N₂.txSerializeSize
  solver : N₁.solver = N₂.solver

/-- The block is within the limits that `CheckBlock` reads. -/
structure WithinLimits (N : Node) (lim : BlockLimits) (block : CBlock) : Prop where
  weight : ∀ tx ∈ block.vtx,
    N.txSerializeSize tx * witnessScaleFactor ≤ lim.dgpMaxBlockWeight
  sigOps : (block.vtx.map getLegacySigOpCount).sum * witnessScaleFactor % 2 ^ 32 ≤
    lim.dgpMaxBlockSigOps

variable {H : Hashes} {N N₁ N₂ : Node} {lim lim₁ lim₂ : BlockLimits} {block : CBlock}

/-- What `CheckTransaction` asks of a transaction whatever the limits
are. -/
structure LimitFreeTx (N : Node) (tx : CTransaction) : Prop where
  vin : tx.vin ≠ []
  vout : tx.vout ≠ []
  size : N.txSerializeSize tx ≤ maxTransactionBaseSize
  outputs : ∃ nValueOut, tx.vout.foldlM (checkOutput N tx) 0 = .ok nValueOut
  distinct : (tx.vin.map CTxIn.prevout).Nodup
  prevouts : checkPrevouts tx = .ok ()

/-- An `OP_SPEND` transaction stands right after a contract transaction or
after another one. -/
def SpendsFollow : Bool → List CTransaction → Prop
  | _, [] => True
  | lastWasContract, tx :: vtx => (tx.hasOpSpend = true → lastWasContract = true) ∧
      SpendsFollow (tx.hasCreateOrCall || tx.hasOpSpend) vtx

/-- What `CheckBlock` asks of a block whatever the limits are. -/
structure LimitFree (H : Hashes) (N : Node) (block : CBlock) : Prop where
  work : block.isProofOfWork = true → N.checkHeaderPoW block.toCBlockHeader = true
  time : block.isProofOfStake = true → block.nTime ≤ futureDrift N.getAdjustedTime
  root : checkMerkleRoot H block = .ok ()
  coinbase : checkCoinbase block.vtx = .ok ()
  coinstake : block.isProofOfStake = true → checkCoinstake block = .ok ()
  signature : checkBlockSignature N block = true
  transactions : ∀ tx ∈ block.vtx, LimitFreeTx N tx
  spends : SpendsFollow false block.vtx

/-! ## The limits -/

theorem checkTransaction_eq_ok_iff {tx : CTransaction} : checkTransaction N lim tx = .ok () ↔
    LimitFreeTx N tx ∧ N.txSerializeSize tx * witnessScaleFactor ≤ lim.dgpMaxBlockWeight := by
  simp only [checkTransaction, bind_eq_ok, require_eq_ok, decide_eq_true_eq, Bool.not_eq_true',
    isEmpty_eq_false_iff]
  constructor
  · rintro ⟨-, hvin, -, hvout, -, ⟨hsize, hweight⟩, v, hv, -, hnodup, hprev⟩
    exact ⟨⟨hvin, hvout, hsize, ⟨v, hv⟩, hnodup, hprev⟩, hweight⟩
  · rintro ⟨⟨hvin, hvout, hsize, ⟨v, hv⟩, hnodup, hprev⟩, hweight⟩
    exact ⟨(), hvin, (), hvout, (), ⟨hsize, hweight⟩, v, hv, (), hnodup, hprev⟩

/-- **The loop over the transactions** passes when each of them does and the
spends stand where they should. -/
theorem foldlM_checkBlockTransaction_iff {vtx : List CTransaction} {b : Bool} :
    (∃ b', vtx.foldlM (checkBlockTransaction N lim) b = .ok b') ↔
      (∀ tx ∈ vtx, LimitFreeTx N tx) ∧
      (∀ tx ∈ vtx, N.txSerializeSize tx * witnessScaleFactor ≤ lim.dgpMaxBlockWeight) ∧
      SpendsFollow b vtx := by
  induction vtx generalizing b with
  | nil => simp [SpendsFollow]
  | cons tx vtx ih =>
    have hstep : ∀ b', checkBlockTransaction N lim b tx = .ok b' ↔
        (LimitFreeTx N tx ∧ N.txSerializeSize tx * witnessScaleFactor ≤ lim.dgpMaxBlockWeight) ∧
        (tx.hasOpSpend = true → b = true) ∧ (tx.hasCreateOrCall || tx.hasOpSpend) = b' := by
      intro b'
      rw [← checkTransaction_eq_ok_iff]
      simp only [checkBlockTransaction, bind_eq_ok, require_eq_ok, pure_eq_ok, Bool.or_eq_true,
        Bool.not_eq_true', ← Bool.not_eq_true, ← imp_iff_not_or]
      constructor
      · rintro ⟨⟨⟩, hcheck, ⟨⟩, hspend, hb⟩
        exact ⟨hcheck, hspend, hb⟩
      · rintro ⟨hcheck, hspend, hb⟩
        exact ⟨(), hcheck, (), hspend, hb⟩
    calc (∃ b', (tx :: vtx).foldlM (checkBlockTransaction N lim) b = .ok b')
        ↔ ∃ t, checkBlockTransaction N lim b tx = .ok t ∧
            ∃ b', vtx.foldlM (checkBlockTransaction N lim) t = .ok b' := by
          simp only [foldlM_cons_eq_ok]
          constructor
          · rintro ⟨b', t, ht, hb⟩
            exact ⟨t, ht, b', hb⟩
          · rintro ⟨t, ht, b', hb⟩
            exact ⟨b', t, ht, hb⟩
      _ ↔ _ := by
          simp only [hstep, ih, forall_mem_cons, SpendsFollow]
          constructor
          · rintro ⟨_, ⟨⟨hfree, hweight⟩, hspend, rfl⟩, hfrees, hweights, hspends⟩
            exact ⟨⟨hfree, hfrees⟩, ⟨hweight, hweights⟩, hspend, hspends⟩
          · rintro ⟨⟨hfree, hfrees⟩, ⟨hweight, hweights⟩, hspend, hspends⟩
            exact ⟨_, ⟨⟨hfree, hweight⟩, hspend, rfl⟩, hfrees, hweights, hspends⟩

/-- **A block passes exactly when it was checked before, or meets what does
not depend on the limits and is within them.** -/
theorem isOk_checkBlock_iff : (checkBlock H N lim block true true true).isOk = true ↔
    block.fChecked = true ∨ LimitFree H N block ∧ WithinLimits N lim block := by
  have hok : (checkBlock H N lim block true true true).isOk = true ↔
      ∃ block', checkBlock H N lim block true true true = .ok block' := by
    cases checkBlock H N lim block true true true <;> simp [Except.toBool]
  rw [hok]
  rcases Bool.eq_false_or_eq_true block.fChecked with hf | hf
  · simp [checkBlock, checkBlockWith, hf]
  simp only [checkBlock, checkBlockWith, hf, Bool.false_eq_true, if_false, false_or,
    checkBlockBody, checkBlockHeader, bind_eq_ok, pure_eq_ok, require_eq_ok, checkWhen_eq_ok,
    Bool.true_and, Bool.false_and, Bool.not_eq_true', Bool.not_false, Bool.and_eq_false_imp,
    Bool.not_eq_false', decide_eq_false_iff_not, decide_eq_true_eq, not_lt, forall_const]
  constructor
  · rintro ⟨_, _, ⟨-, ⟨-, hwork, -⟩, -, htime, -, hroot, ⟨⟩, hcoinbase, -, hcoinstake, -, hsig,
      b', hloop, hsigops⟩, -⟩
    obtain ⟨hfree, hweight, hspends⟩ := foldlM_checkBlockTransaction_iff.1 ⟨b', hloop⟩
    exact ⟨⟨hwork, htime, hroot, hcoinbase, hcoinstake, hsig, hfree, hspends⟩, hweight, hsigops⟩
  · rintro ⟨h, hwithin⟩
    obtain ⟨b', hloop⟩ := foldlM_checkBlockTransaction_iff.2
      ⟨h.transactions, hwithin.weight, h.spends⟩
    exact ⟨_, (), ⟨(), ⟨(), h.work, trivial⟩, (), h.time, (), h.root, (), h.coinbase, (),
      h.coinstake, (), h.signature, b', hloop, hwithin.sigOps⟩, rfl⟩

section Check

variable {fCheckPOW fCheckMerkleRoot fCheckSig : Bool}

/-- Nodes with the same rules differ in nothing but the limits. -/
theorem SameRules.checkBlock_eq (h : SameRules N₁ N₂) :
    checkBlock H N₁ lim block fCheckPOW fCheckMerkleRoot fCheckSig =
      checkBlock H N₂ lim block fCheckPOW fCheckMerkleRoot fCheckSig := by
  have htx : checkTransaction N₁ lim = checkTransaction N₂ lim := by
    have hout : checkOutput N₁ = checkOutput N₂ := by
      funext tx v out
      simp [checkOutput, h.solver]
    funext tx
    simp [checkTransaction, h.txSerializeSize, hout]
  have hloop : checkBlockTransaction N₁ lim = checkBlockTransaction N₂ lim := by
    funext b tx
    simp [checkBlockTransaction, htx]
  simp [checkBlock, checkBlockWith, checkBlockBody, checkBlockHeader, checkBlockSignature,
    h.checkHeaderPoW, h.getAdjustedTime, h.verifyBlockSig, hloop]

end Check

/-! ## Two nodes -/

/-- Two nodes with these limits cannot tell the block apart: it was checked
before, it fails whatever the limits are, or it is within both limits or
neither. -/
def LimitsAgree (H : Hashes) (N : Node) (lim₁ lim₂ : BlockLimits) (block : CBlock) : Prop :=
  block.fChecked = true ∨ ¬ LimitFree H N block ∨
    (WithinLimits N lim₁ block ↔ WithinLimits N lim₂ block)

/-- **Two limits lead to the same verdict exactly when they agree on the
block.** -/
theorem isOk_checkBlock_eq_iff : ((checkBlock H N lim₁ block true true true).isOk =
    (checkBlock H N lim₂ block true true true).isOk) ↔ LimitsAgree H N lim₁ lim₂ block := by
  rw [Bool.eq_iff_iff, isOk_checkBlock_iff, isOk_checkBlock_iff, LimitsAgree]
  tauto

section Accept

variable {I I₁ I₂ : Intake} {st st₁ st₂ : ChainState} {f₁ f₂ fRequested : Bool}

/-- The index that is added for a header is the one the state then has, and
it is marked if the header was. -/
theorem ChainState.addToBlockIndex_index (H : Hashes) (I : Intake) (st : ChainState)
    (block : CBlock) : (st.addToBlockIndex H I block).1.mapBlockIndex (block.getHash H) =
        some (st.addToBlockIndex H I block).2 ∧
      (st.addToBlockIndex H I block).2.failedValid =
        (st.mapBlockIndex (block.getHash H)).any CBlockIndex.failedValid := by
  cases hm : st.mapBlockIndex (block.getHash H) with
  | some q => simp [addToBlockIndex, hm]
  | none => simp [addToBlockIndex, hm, setIndex]

/-- **`AcceptBlock` marks a header only when the check of the body fails.** -/
theorem failedValid_of_acceptBlock {p : CBlockIndex} (hbody : checkBody H I lim block = .ok ())
    (hp : (acceptBlock H I lim st block fRequested).1.mapBlockIndex (block.getHash H) = some p)
    (hfailed : p.failedValid = true) :
    (st.mapBlockIndex (block.getHash H)).any CBlockIndex.failedValid = true := by
  unfold acceptBlock at hp
  split at hp
  · simp only at hp
    simp [hp, hfailed]
  rename_i st' pindex hheader
  obtain ⟨hindex, hmark⟩ := ChainState.addToBlockIndex_index H I st block
  rw [← ChainState.eq_of_acceptBlockHeader hheader] at hindex hmark
  rw [← hmark]
  simp only [hbody] at hp
  split at hp
  · obtain rfl := Option.some.inj (hindex.symm.trans hp)
    exact hfailed
  split at hp
  · split at hp
    · simp only [ChainState.receivedBlockTransactions, ChainState.setIndex,
        Function.update_self, Option.some.injEq] at hp
      subst hp
      exact hfailed
    · obtain rfl := Option.some.inj (hindex.symm.trans hp)
      exact hfailed
  · obtain rfl := Option.some.inj (hindex.symm.trans hp)
    exact hfailed

/-- The limits agree on a body, so both nodes or none take it. -/
theorem checkBody_ok_of_agree {parentOf : UInt256 → ParentContext}
    (hrules : SameRules I₁.toNode I₂.toNode) (h₁ : I₁.Contextual H parentOf)
    (h₂ : I₂.Contextual H parentOf) (hagree : LimitsAgree H I₁.toNode lim₁ lim₂ block)
    (h : checkBody H I₁ lim₁ block = .ok ()) : checkBody H I₂ lim₂ block = .ok () := by
  simp only [checkBody, checkWhen_eq_ok, bind_eq_ok] at h ⊢
  intro hne
  obtain ⟨b, hb, hctx⟩ := h hne
  have hok := isOk_checkBlock_eq_iff.2 hagree
  rw [hb, hrules.checkBlock_eq] at hok
  cases hc : checkBlock H I₂.toNode lim₂ block true true true with
  | error e => simp [hc, Except.toBool] at hok
  | ok b' =>
    refine ⟨b', rfl, ?_⟩
    rw [h₂, ← hrules.consensus, ← h₁]
    exact hctx

end Accept

/-- **Two nodes with the same rules and the same clock come to one verdict
on a block exactly when the limits that the last block connected left on
each agree on it.** The check against the parent is the same on both;
and where the limits agree, neither marks a block that the other stores. -/
theorem verdicts_agree_iff (parentOf : UInt256 → ParentContext) {I₁ I₂ : Intake}
    (hrules : SameRules I₁.toNode I₂.toNode) (h₁ : I₁.Contextual H parentOf)
    (h₂ : I₂.Contextual H parentOf) (g₁ g₂ : NodeState) (block : CBlock) :
    ((checkBlock H I₁.toNode g₁.lim block true true true).isOk =
        (checkBlock H I₂.toNode g₂.lim block true true true).isOk ↔
      LimitsAgree H I₁.toNode g₁.lim g₂.lim block) ∧
    I₁.contextualCheckBlock block = I₂.contextualCheckBlock block ∧
    (LimitsAgree H I₁.toNode g₁.lim g₂.lim block → ∀ (f₁ f₂ : Bool) (st : ChainState)
      (p : CBlockIndex), acceptBlock H I₁ g₁.lim g₁.chain block f₁ = (st, .ok true) →
      (acceptBlock H I₂ g₂.lim g₂.chain block f₂).1.mapBlockIndex (block.getHash H) = some p →
      p.failedValid = true →
      (g₂.chain.mapBlockIndex (block.getHash H)).any CBlockIndex.failedValid = true) := by
  refine ⟨?_, by rw [h₁, h₂, hrules.consensus], fun hagree f₁ f₂ st p hacc hp hfailed => ?_⟩
  · have hsame : checkBlock H I₁.toNode g₂.lim block true true true =
        checkBlock H I₂.toNode g₂.lim block true true true := hrules.checkBlock_eq
    rw [← hsame]
    exact isOk_checkBlock_eq_iff
  · rcases acceptBlock_cases hacc with ⟨-, hne⟩ | ⟨-, hbody⟩
    · exact absurd rfl hne
    · exact failedValid_of_acceptBlock (checkBody_ok_of_agree hrules h₁ h₂ hagree hbody) hp hfailed

/-! ## A block that one node marks and another stores -/

/-- The context of the blocks on the genesis block of the sample chain. -/
def genesisContext : ParentContext := ⟨some 0, 0, false, false⟩

/-- A node under governance that allows larger blocks than it starts with. -/
def governedIntake : Intake where
  toNode := sampleNode
  checkNewHeader _ := .ok ()
  lastCheckpoint := none
  getMedianTimePast p := p.nTime
  failedAncestor _ := false
  getBlockProof _ := 1
  pcoinsTip := sampleView 20000000
  checkSync _ := true
  tipChainWork := some 0
  nMinimumChainWork := 0
  contextualCheckBlock := contextualCheckBlock coinbaseHashes sampleParams genesisContext
  saveBlockToDisk _ := true
  paysMainNode _ := true

/-- A block with this many outputs that are multisignatures, 32 each. -/
def signedBlock (n : ℕ) : CBlock :=
  { coinbaseBlock 1 902 7 with
    vtx := [{ coinbaseAt 1 with vout := replicate n ⟨0, replicate 32 0xae⟩ }] }

/-- A node that gets a block of hash 901 and connects it. -/
def connectedState (block : CBlock) : NodeState :=
  let g := ((Call.process governedIntake block true).run coinbaseHashes genesisState).1
  ((Call.connectTip governedIntake.toNode 901 true).run coinbaseHashes g).1

/-- The node after it connected a block beside the other one. -/
def governedState : NodeState := connectedState (coinbaseBlock 1 901 7)

theorem governedState_reached :
    Run coinbaseHashes (fun _ _ => True) genesisState governedState := by
  refine .call _ (.call _ .start trivial trivial) ?_ trivial
  exact ⟨{ sampleParent with nHeight := 1, blockHash := 901, nTime := 901, nChainWork := 1 },
    by decide, rfl, rfl⟩

/-- A block far below both limits gets one verdict. -/
theorem plainBlock_agreed :
    (checkBlock coinbaseHashes governedIntake.toNode genesisState.lim (signedBlock 1)
        true true true).isOk =
      (checkBlock coinbaseHashes governedIntake.toNode governedState.lim (signedBlock 1)
        true true true).isOk := by
  have hsame : SameRules governedIntake.toNode governedIntake.toNode :=
    ⟨rfl, rfl, rfl, rfl, rfl, rfl, rfl⟩
  refine ((verdicts_agree_iff (fun _ => genesisContext) hsame (fun _ => rfl)
    (fun _ => rfl) genesisState governedState _).1).2 (.inr (.inr ?_))
  exact ⟨fun _ => ⟨by decide, by decide⟩, fun _ => ⟨by decide, by decide⟩⟩

/-- **One node marks a block for good that another stores.** Both nodes
have its parent and follow the same rules; the second has connected one
block more. -/
theorem verdicts_differ : ∃ (H : Hashes) (parentOf : UInt256 → ParentContext) (I : Intake)
    (g₀ g₁ g₂ : NodeState) (block : CBlock), I.Contextual H parentOf ∧
      Run H (fun _ _ => True) g₀ g₁ ∧ Run H (fun _ _ => True) g₀ g₂ ∧
      block.nVersion ≠ swVersion ∧ block.fChecked = false ∧
      (g₁.chain.mapBlockIndex block.hashPrevBlock).isSome = true ∧
      (g₂.chain.mapBlockIndex block.hashPrevBlock).isSome = true ∧
      ((acceptBlock H I g₁.lim g₁.chain block true).1.mapBlockIndex (block.getHash H)).map
        CBlockIndex.failedValid = some true ∧
      (acceptBlock H I g₂.lim g₂.chain block true).2.toOption = some true :=
  ⟨coinbaseHashes, fun _ => genesisContext, governedIntake, genesisState, genesisState,
    governedState, signedBlock 32, fun _ => rfl, .start, governedState_reached, by decide, rfl,
    rfl, by decide, by decide, by decide⟩

end Slucore

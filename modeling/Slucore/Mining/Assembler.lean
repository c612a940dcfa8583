import Slucore.Aal.Attempt
import Slucore.Validation.ConnectBlock
import Slucore.Validation.Contextual
/-!
# Mining — the block assembler

`BlockAssembler` as the source has it: contract transactions are tried
on the node's contract state and undone by hand where they do not fit,
the transfers of those that fit follow them in the block, and the reward
transaction is rebuilt with the refunds of gas so far.

Which packages of the mempool are considered, and in what order, is left
open: `addPackageTxs` is given the candidates the loop comes to, each
with what the loop reads of it and the readings of the clock. So a result
about all lists of candidates is one about all mempools and all orders of
selection.
-/


namespace Slucore

/-- `uint64_t`: unsigned, and wrapping. -/
abbrev U64 := BitVec 64

/-- `CTxMemPoolEntry`, as far as the assembler reads it. -/
structure CTxMemPoolEntry where
  tx : CTransaction
  /-- `GetFee`. -/
  nFee : ℤ
  /-- `GetTxWeight`. -/
  txWeight : ℕ
  /-- `GetSigOpCost`. -/
  sigOpCost : ℕ
deriving DecidableEq, Repr

/-- An entry of a package as the loop comes to it, with the clock at the
head of the turn and in `AttemptToAddContractToBlock`. -/
structure Visit where
  entry : CTxMemPoolEntry
  now : ℤ
  attemptNow : ℤ
deriving DecidableEq, Repr

/-- A package the loop of `addPackageTxs` comes to, sorted for the block,
with the clock at the head of the turn. -/
structure Candidate where
  now : ℤ
  packageSize : ℕ
  packageFees : ℤ
  packageSigOpsCost : ℕ
  sortedEntries : List Visit
deriving DecidableEq, Repr

/-- One call of `AttemptToAddContractToBlock`: what was tried, the contract
state it found, the outputs extracted, and the verdict. -/
structure Attempt where
  entry : CTxMemPoolEntry
  found : AalState
  txs : List SilubiumTransaction
  added : Bool

/-- What `BlockAssembler` changes while it assembles: the template, the
counters, and the node's contract state. The entries of `inBlock` are in
the order they were added; `attempts` is a ghost. -/
structure Assembly where
  block : CBlock
  vTxFees : List ℤ
  vTxSigOpsCost : List ℤ
  nBlockWeight : U64
  nBlockTx : U64
  nBlockSigOpsCost : U64
  nFees : ℤ
  inBlock : List CTxMemPoolEntry
  bceResult : ByteCodeExecResult
  aal : AalState
  attempts : List Attempt

/-- The members of `BlockAssembler` that stay the same during
`addPackageTxs`, and what it asks of the node. -/
structure BlockAssembler where
  /-- `chainActive.Tip()`. -/
  pindexPrev : CBlockIndex
  nHeight : ℕ
  nLockTimeCutoff : ℤ
  fIncludeWitness : Bool
  nBlockMaxWeight : ℕ
  lim : BlockLimits
  /-- The values of the governance contracts; the gas limit is
  `hardBlockGasLimit`. -/
  dgp : DgpValues
  /-- The seal engine with the gas schedule. -/
  aalEnv : AalEnv
  minGasPrice : ℕ
  softBlockGasLimit : ℕ
  txGasLimit : ℕ
  originalRewardTx : CTransaction
  nTimeLimit : ℤ
  /-- The argument `-disablecontractstaking`. -/
  disableContractStaking : Bool
  /-- `extractionSilubiumTransactions` without a view: the sender is looked
  for in the block so far, then among the node's transactions. -/
  extract : CTransaction → List CTransaction → Option ExtractSilubiumTX
  getTransactionWeight : CTransaction → ℕ

/-- `BYTECODE_TIME_BUFFER`. -/
def bytecodeTimeBuffer : ℤ := 6

namespace BlockAssembler

variable (H : Hashes) (N : Node) (A : BlockAssembler)

/-- Where the reward stands: `1` for the coinstake in PoS, `0` for the
coinbase in PoW. -/
def refundtx (block : CBlock) : ℕ := if block.isProofOfStake then 1 else 0

/-- The reward transaction with the refunds of gas. -/
def rewardTx (refundtx : ℕ) (nFees refundSender : ℤ) (refundOutputs : List CTxOut) :
    CTransaction :=
  { A.originalRewardTx with
    vout := A.originalRewardTx.vout.modify refundtx (fun out => { out with
      nValue := wrap64 (wrap64 (nFees + getBlockSubsidy A.nHeight N.consensus) - refundSender) }) ++
        refundOutputs }

/-- `RebuildRefundTransaction`. -/
def rebuildRefundTransaction (a : Assembly) : Assembly :=
  { a with block := { a.block with
      vtx := a.block.vtx.set (refundtx a.block) (A.rewardTx N (refundtx a.block) a.nFees
        a.bceResult.refundSender a.bceResult.refundOutputs) } }

/-- What executing a contract in a block reads of the block and the node. -/
def context (block : CBlock) : BlockContext :=
  ⟨block, A.nHeight, A.pindexPrev, A.lim, A.dgp, A.aalEnv⟩

/-- The environment of the contracts of a block. -/
def env (block : CBlock) : EnvInfo := BlockContext.buildEVMEnvironment N (A.context block)

/-! ## Adding one transaction -/

/-- The template with one more transaction of the mempool in it. -/
def push (e : CTxMemPoolEntry) (a : Assembly) : Assembly :=
  { a with
    block := { a.block with vtx := a.block.vtx ++ [e.tx] }
    vTxFees := a.vTxFees ++ [e.nFee]
    vTxSigOpsCost := a.vTxSigOpsCost ++ [(e.sigOpCost : ℤ)]
    nBlockWeight := a.nBlockWeight + BitVec.ofNat 64 e.txWeight
    nBlockTx := a.nBlockTx + 1
    nBlockSigOpsCost := a.nBlockSigOpsCost + BitVec.ofNat 64 e.sigOpCost
    nFees := wrap64 (a.nFees + e.nFee)
    inBlock := a.inBlock ++ [e] }

/-- `AddToBlock`. -/
def addToBlock (e : CTxMemPoolEntry) (a : Assembly) : Assembly := push e a

/-- The template with a transfer of a contract in it. -/
def pushTransfer (a : Assembly) (t : CTransaction) : Assembly :=
  { a with
    block := { a.block with vtx := a.block.vtx ++ [t] }
    nBlockWeight := a.nBlockWeight + BitVec.ofNat 64 (A.getTransactionWeight t)
    nBlockSigOpsCost := a.nBlockSigOpsCost + BitVec.ofNat 64 (getLegacySigOpCount t)
    nBlockTx := a.nBlockTx + 1 }

/-- Whether the outputs of a contract transaction stay within the limits on
gas and pay enough for it; `txGas` is the sum so far. -/
def gasFits (usedGas : ℕ) : U256 → List SilubiumTransaction → Bool
  | _, [] => true
  | txGas, t :: txs =>
    decide ((txGas + t.gas).toNat ≤ A.txGasLimit) &&
      decide ((BitVec.ofNat 256 usedGas + t.gas).toNat ≤ A.softBlockGasLimit) &&
      decide (A.minGasPrice ≤ t.gasPrice.toNat) && gasFits usedGas (txGas + t.gas) txs

/-- Whether the block with this contract transaction and what it made would
be too big or too expensive, on copies of the counters. -/
def tooExpensive (e : CTxMemPoolEntry) (r : ByteCodeExecResult) (a : Assembly) : Bool :=
  let nBlockWeight := r.valueTransfers.foldl
    (fun n t => n + BitVec.ofNat 64 (A.getTransactionWeight t))
    (a.nBlockWeight + BitVec.ofNat 64 e.txWeight)
  let nBlockSigOpsCost := r.valueTransfers.foldl
    (fun n t => n + BitVec.ofNat 64 (getLegacySigOpCount t))
    (a.nBlockSigOpsCost + BitVec.ofNat 64 e.sigOpCost)
  let proofTx := (a.block.vtx[refundtx a.block]?).getD { vin := [], vout := [] }
  let contrTx := { proofTx with vout := proofTx.vout ++ r.refundOutputs }
  let nBlockSigOpsCost := nBlockSigOpsCost - BitVec.ofNat 64 (getLegacySigOpCount proofTx) +
    BitVec.ofNat 64 (getLegacySigOpCount contrTx)
  decide (BitVec.ofNat 64 A.lim.dgpMaxBlockSigOps <
      nBlockSigOpsCost * BitVec.ofNat 64 witnessScaleFactor) ||
    decide (A.lim.dgpMaxBlockWeight < nBlockWeight.toNat)

/-- The part of `AttemptToAddContractToBlock` that applies an execution to
the block: `w` is the contract state it left, `r` what was made of its
results. -/
def applyContract (e : CTxMemPoolEntry) (w : AalState) (r : ByteCodeExecResult) (a : Assembly) :
    Assembly :=
  let b := a.bceResult
  let bceResult : ByteCodeExecResult :=
    ⟨(b.usedGas + r.usedGas) % 2 ^ 64, wrap64 (b.refundSender + r.refundSender),
      b.refundOutputs ++ r.refundOutputs, []⟩
  let a := push e { a with bceResult, aal := w }
  let a := r.valueTransfers.foldl A.pushTransfer a
  let sigOps (a : Assembly) := BitVec.ofNat 64
    ((a.block.vtx[refundtx a.block]?).elim 0 getLegacySigOpCount)
  let a' := A.rebuildRefundTransaction N a
  { a' with nBlockSigOpsCost := a.nBlockSigOpsCost - sigOps a + sigOps a' }

/-- The contract state `w` with the two roots of `old`, as a failed attempt
sets them. -/
def putBackRoots (old w : AalState) : AalState :=
  { w with state := w.state.setRoots N old.state.trie.root old.state.stateUTXO.root }

/-- `AttemptToAddContractToBlock`: whether the transaction was added. -/
def attemptToAddContractToBlock (now : ℤ) (e : CTxMemPoolEntry) (a : Assembly) :
    Except Failure (Bool × Assembly) :=
  if A.nTimeLimit ≠ 0 ∧ A.nTimeLimit - bytecodeTimeBuffer ≤ now ∨ A.disableContractStaking then
    .ok (false, a)
  else
    match A.extract e.tx a.block.vtx with
    | none => .ok (false, a)
    | some ex =>
      if !A.gasFits a.bceResult.usedGas 0 ex.txs then .ok (false, a)
      else do
        let (w, results) ← orThrow (ByteCodeExec.tryByteCode H A.aalEnv N.vm N.tipHeight .committed
          (A.env N a.block) ex.txs a.aal) (.fatal "SilubiumState::execute")
        let undone := { a with aal := putBackRoots N a.aal w }
        match results.bind (ByteCodeExec.processingResults H ex.txs) with
        | none => .ok (false, undone)
        | some r =>
          if A.softBlockGasLimit < (a.bceResult.usedGas + r.usedGas) % 2 ^ 64 ∨
              A.tooExpensive e r a = true then .ok (false, undone)
          else .ok (true, A.applyContract N e w r a)

/-! ## Packages -/

/-- No more time to add transactions. -/
def outOfTime (now : ℤ) : Bool := A.nTimeLimit ≠ 0 ∧ A.nTimeLimit ≤ now

/-- `TestPackage`. -/
def testPackage (c : Candidate) (a : Assembly) : Bool :=
  decide ((a.nBlockWeight + BitVec.ofNat 64 (witnessScaleFactor * c.packageSize)).toNat <
      A.nBlockMaxWeight) &&
    decide (a.nBlockSigOpsCost + BitVec.ofNat 64 c.packageSigOpsCost <
      BitVec.ofNat 64 A.lim.dgpMaxBlockSigOps)

/-- `TestPackageTransactions`. -/
def testPackageTransactions (c : Candidate) : Bool :=
  c.sortedEntries.all fun v => v.entry.tx.isFinalTx A.nHeight A.nLockTimeCutoff &&
    (A.fIncludeWitness || !v.entry.tx.hasWitness)

/-- The contract outputs of a transaction, in a block. -/
def outputs (e : CTxMemPoolEntry) (a : Assembly) : List SilubiumTransaction :=
  ((A.extract e.tx a.block.vtx).map ExtractSilubiumTX.txs).getD []

/-- One turn of the loop over the entries of a package: after a failure, or
out of time, the rest is skipped. -/
def visit (s : Assembly × Bool) (v : Visit) : Except Failure (Assembly × Bool) :=
  if !s.2 || A.outOfTime v.now then .ok (s.1, false)
  else if v.entry.tx.hasCreateOrCall then do
    let (wasAdded, a) ← A.attemptToAddContractToBlock H N v.attemptNow v.entry s.1
    let attempt : Attempt := ⟨v.entry, s.1.aal, A.outputs v.entry s.1, wasAdded⟩
    return ({ a with attempts := a.attempts ++ [attempt] }, wasAdded)
  else .ok (addToBlock v.entry s.1, true)

/-- `addPackageTxs`, over the candidates its loop comes to. -/
def addPackageTxs : List Candidate → Assembly → Except Failure Assembly
  | [], a => .ok a
  | c :: cs, a =>
    if A.outOfTime c.now || decide (c.packageFees < 10000) then .ok a
    else if !A.testPackage c a || !A.testPackageTransactions c then addPackageTxs cs a
    else do
      let (a, _) ← c.sortedEntries.foldlM (A.visit H N) (a, true)
      addPackageTxs cs a

end BlockAssembler

/-! ## A whole template -/

/-- The arguments of `CreateNewBlock`, the options of the node, and what is
computed before the contracts are reached. -/
structure MinerArgs where
  scriptPubKeyIn : CScript
  fProofOfStake : Bool
  pindexPrev : CBlockIndex
  nVersion : ℤ
  nTime : ℕ
  nBits : ℕ
  nLockTimeCutoff : ℤ
  fIncludeWitness : Bool
  nBlockMaxWeight : ℕ
  lim : BlockLimits
  nTimeLimit : ℤ
  /-- `-staker-min-tx-gas-price`, if it is set and can be parsed. -/
  stakerMinTxGasPrice : Option ℕ
  /-- `-staker-soft-block-gas-limit`. -/
  stakerSoftBlockGasLimit : Option ℕ
  /-- `-staker-max-tx-gas-limit`. -/
  stakerMaxTxGasLimit : Option ℕ
  disableContractStaking : Bool
  extract : CTransaction → List CTransaction → Option ExtractSilubiumTX
  getTransactionWeight : CTransaction → ℕ

namespace MinerArgs

variable (N : Node) (M : MinerArgs)

/-- The height of the new block. -/
def nHeight : ℕ := M.pindexPrev.nHeight + 1

/-- The coinbase: empty in case of proof of stake. -/
def coinbaseTx : CTransaction where
  vin := [{ prevout := .null, scriptSig := pushInt64 M.nHeight ++ [0] }]
  vout := if M.fProofOfStake then [⟨0, []⟩]
    else [⟨getBlockSubsidy M.nHeight N.consensus, M.scriptPubKeyIn⟩]

/-- The coinstake before it is filled in. -/
def coinstakeTx : CTransaction where
  vin := []
  vout := [⟨0, []⟩, ⟨-1, M.scriptPubKeyIn⟩]

/-- The members of the assembler, from the contract state of the tip. -/
def assembler (w : AalState) : BlockAssembler :=
  let dgp := N.dgp w.state M.nHeight
  let soft := min (M.stakerSoftBlockGasLimit.getD dgp.blockGasLimit) dgp.blockGasLimit
  { pindexPrev := M.pindexPrev
    nHeight := M.nHeight
    nLockTimeCutoff := M.nLockTimeCutoff
    fIncludeWitness := M.fIncludeWitness
    nBlockMaxWeight :=
      if dgp.blockSize ≠ 0 then dgp.blockSize * witnessScaleFactor % 2 ^ 32 else M.nBlockMaxWeight
    lim := M.lim
    dgp := dgp
    aalEnv := N.aalEnv w.state M.nHeight
    minGasPrice := max dgp.minGasPrice (M.stakerMinTxGasPrice.getD 0)
    softBlockGasLimit := soft
    txGasLimit := M.stakerMaxTxGasLimit.getD soft
    originalRewardTx := if M.fProofOfStake then M.coinstakeTx else M.coinbaseTx N
    nTimeLimit := M.nTimeLimit
    disableContractStaking := M.disableContractStaking
    extract := M.extract
    getTransactionWeight := M.getTransactionWeight }

/-- The block before any transaction of the mempool is added. The outpoint
of a proof-of-stake block is filled in when it is signed. -/
def emptyBlock : CBlock where
  nVersion := M.nVersion
  hashPrevBlock := 0
  hashMerkleRoot := 0
  nTime := M.nTime
  nBits := M.nBits
  nNonce := 0
  hashStateRoot := 0
  hashUTXORoot := 0
  prevoutStake := if M.fProofOfStake then ⟨0, 0⟩ else .null
  vchBlockSig := []
  vtx := if M.fProofOfStake then [M.coinbaseTx N, M.coinstakeTx] else [M.coinbaseTx N]

/-- The members after `resetBlock`, with the empty block. -/
def resetBlock (w : AalState) : Assembly where
  block := M.emptyBlock N
  vTxFees := [-1]
  vTxSigOpsCost := [-1]
  nBlockWeight := 4000
  nBlockTx := 0
  nBlockSigOpsCost := 400
  nFees := 0
  inBlock := []
  bceResult := .empty
  aal := w
  attempts := []

/-- `CreateNewBlock` up to the commitment to the witness data, which adds
an output to the coinbase. -/
def createNewBlock (H : Hashes) (cs : List Candidate) (w : AalState) :
    Except Failure Assembly := do
  let A := M.assembler N w
  let a ← A.addPackageTxs H N cs (M.resetBlock N w)
  return A.rebuildRefundTransaction N { a with
    block := { a.block with
      hashStateRoot := a.aal.state.trie.root
      hashUTXORoot := a.aal.state.stateUTXO.root
      hashPrevBlock := M.pindexPrev.blockHash }
    aal := BlockAssembler.putBackRoots N w a.aal }

end MinerArgs

end Slucore

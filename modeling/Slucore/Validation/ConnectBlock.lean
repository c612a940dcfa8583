import Slucore.Validation.Reward
/-!
# Validation — connecting a block

`ConnectBlock` as the source has it. The loop over the transactions is
cut at the comments of the source: the fee, the signature operations,
the stake and the scripts, the value counted, the contracts, and the
update of the coins. Each part changes a few fields of `ConnectState`;
the shadow block the loop rebuilds is `checkVtx`.
-/


namespace Slucore

/-- The variables of the loop of `ConnectBlock`. -/
structure ConnectState where
  view : CCoinsViewCache
  aal : AalState
  nFees : ℤ
  nActualStakeReward : ℤ
  utxoInterest : ℤ
  nSigOpsCost : ℕ
  nValueOut : ℕ
  nValueIn : ℕ
  blockGasUsed : ℕ
  gasRefunds : ℤ
  checkVouts : List CTxOut
  /-- `checkBlock.vtx`. -/
  checkVtx : List CTransaction
  /-- `blockundo.vtxundo`, each with its `vprevout`. -/
  vtxundo : List (List Coin)

namespace ConnectState

/-- The variables before the loop. -/
def start (view : CCoinsViewCache) (aal : AalState) : ConnectState :=
  ⟨view, aal, 0, 0, 0, 0, 0, 0, 0, 0, [], [], []⟩

end ConnectState

/-- What stays the same while a block is connected. -/
structure BlockContext where
  block : CBlock
  nHeight : ℕ
  pprev : CBlockIndex
  lim : BlockLimits
  dgp : DgpValues
  aalEnv : AalEnv

namespace BlockContext

variable (H : Hashes) (N : Node) (C : BlockContext) (tx : CTransaction) (s : ConnectState)

/-- The inputs are there and pay a fee, which is added up. -/
def chargeFee : Except Failure ConnectState :=
  if tx.isCoinBase then .ok s
  else do
    let txfee ← checkTxInputs s.view C.nHeight tx
    let nFees := wrap64 (s.nFees + txfee)
    require (moneyRange nFees) (.dos 100 "bad-txns-accumulated-fee-outofrange")
    let prevheights := tx.vin.map fun i => (s.view.accessCoin i.prevout).nHeight
    require (N.sequenceLocks tx prevheights) (.dos 100 "bad-txns-nonfinal")
    return { s with nFees }

/-- The signature operations are counted. -/
def countSigOps : Except Failure ConnectState := do
  let nSigOpsCost := s.nSigOpsCost + N.getTransactionSigOpCost tx s.view
  require (decide (nSigOpsCost ≤ C.lim.dgpMaxBlockSigOps)) (.dos 100 "bad-blk-sigops")
  return { s with nSigOpsCost }

/-- The interest read off a coinstake: the value of its last output when it
has more outputs than the reward has recipients and that output pays to a
public key. The comparison is unsigned. -/
def readInterest : Option ℤ :=
  if (N.consensus.nMPoSRewardRecipients % 2 ^ 64).toNat < tx.vout.length then
    tx.vout.getLast?.bind fun out =>
      if N.extractDestination out.scriptPubKey = some .pubkey then some out.nValue else none
  else none

/-- The reward and the interest of a coinstake; the last one in the block
decides. -/
def readStake : Except Failure ConnectState :=
  if tx.isCoinStake then do
    let valueOut ← orThrow tx.getValueOut (.fatal "CTransaction::GetValueOut")
    return { s with
      nActualStakeReward := wrap64 (valueOut - s.view.getValueIn tx)
      utxoInterest := (readInterest N tx).getD s.utxoInterest }
  else .ok s

/-- Whether every input of a contract coin has `OP_SPEND` as its script. -/
def spendsByOpSpend : Bool :=
  tx.vin.all fun j => j.scriptSig.hasOpSpend ||
    !((s.view.accessCoin j.prevout).out.scriptPubKey.hasOpCreate ||
      (s.view.accessCoin j.prevout).out.scriptPubKey.hasOpCall)

/-- The stake, the scripts, and the rule on contract coins. -/
def verifyInputs : Except Failure ConnectState :=
  if tx.isCoinBase then .ok s
  else do
    let s ← readStake N tx s
    N.checkInputs tx s.view
    require (spendsByOpSpend tx s) (.dos 100 "bad-txns-invalid-contract-spend")
    return s

/-- The value in and out, in unsigned 64-bit arithmetic. -/
def countValues : Except Failure ConnectState := do
  let valueOut ← orThrow tx.getValueOut (.fatal "CTransaction::GetValueOut")
  let valueIn := if tx.isCoinBase then 0 else s.view.getValueIn tx
  return { s with
    nValueOut := ((s.nValueOut + valueOut) % 2 ^ 64).toNat
    nValueIn := ((s.nValueIn + valueIn) % 2 ^ 64).toNat }

/-! ### Contracts -/

/-- `MINIMUM_GAS_LIMIT`. -/
def minimumGasLimit : ℕ := 10000

/-- `CScript::IsPayToPubkeyHash`. -/
def isPayToPubkeyHash (s : CScript) : Bool :=
  s.length == 25 && s.take 3 == [0x76, 0xa9, 0x14] && s.drop 23 == [0x88, 0xac]

/-- `CScript::IsPayToPubkey`. -/
def isPayToPubkey (s : CScript) : Bool :=
  (s.length == 35 && s[0]? == some 33 && s[34]? == some 0xac &&
    (s[1]? == some 0x02 || s[1]? == some 0x03)) ||
  (s.length == 67 && s[0]? == some 65 && s[66]? == some 0xac && s[1]? == some 0x04)

/-- `CheckSenderScript`. -/
def checkSenderScript : Bool :=
  match tx.vin with
  | [] => false
  | i :: _ =>
    let script := (s.view.accessCoin i.prevout).out.scriptPubKey
    isPayToPubkeyHash script || isPayToPubkey script

/-- The sums and the flag of the loop over the contract outputs. -/
structure GasTally where
  sumGas : U256
  gasAllTxs : U256
  nonZeroVersion : Bool

/-- One turn of the loop over the contract outputs. -/
def checkContractOutput (nTxFee : ℤ) (g : GasTally) (qtx : SilubiumTransaction) :
    Except Failure GasTally := do
  let sumGas := g.sumGas + qtx.gas * qtx.gasPrice
  require (decide (sumGas.toNat ≤ 2 ^ 63 - 1)) (.dos 100 "bad-tx-gas-stipend-overflow")
  require (decide (sumGas ≤ BitVec.ofInt 256 nTxFee)) (.dos 100 "bad-txns-fee-notenough")
  let v := qtx.version
  require (v.format == 0) (.dos 100 "bad-tx-version-format")
  require (v.rootVM != 0 || !g.nonZeroVersion) (.dos 100 "bad-tx-mixed-zero-versions")
  require (v.rootVM == 0 || v.rootVM == 1) (.dos 100 "bad-tx-version-rootvm")
  require (v.vmVersion == 0) (.dos 100 "bad-tx-version-vmversion")
  require (v.flagOptions == 0) (.dos 100 "bad-tx-version-flags")
  require (decide (minimumGasLimit ≤ qtx.gas.toNat) || v.rootVM == 0)
    (.dos 100 "bad-tx-too-little-gas")
  require (decide (qtx.gas.toNat ≤ 2 ^ 32 - 1)) (.dos 100 "bad-tx-too-much-gas")
  let gasAllTxs := g.gasAllTxs + qtx.gas
  require (decide (gasAllTxs.toNat ≤ C.dgp.blockGasLimit))
    (.dos 1 "bad-txns-gas-exceeds-blockgaslimit")
  require (v.rootVM == 0 || decide (C.dgp.minGasPrice ≤ qtx.gasPrice.toNat % 2 ^ 64))
    (.dos 100 "bad-tx-low-gas-price")
  return ⟨sumGas, gasAllTxs, g.nonZeroVersion || v.rootVM != 0⟩

/-- `BuildEVMEnvironment`. -/
def buildEVMEnvironment : EnvInfo :=
  let script := (((C.block.vtx[if C.block.isProofOfStake then 1 else 0]?).bind fun t =>
    t.vout[if C.block.isProofOfStake then 1 else 0]?).map CTxOut.scriptPubKey).getD []
  ⟨N.ethAddrFromScript script, C.pprev.nHeight + 1, C.dgp.blockGasLimit⟩

/-- The contract outputs executed: the state they leave, and what is made
of their results. -/
def executeContracts (txs : List SilubiumTransaction) (w : AalState) :
    Except Failure (AalState × ByteCodeExecResult) := do
  let (w', results) ← orThrow (ByteCodeExec.performByteCode H C.aalEnv N.vm N.tipHeight .committed
    (buildEVMEnvironment N C) txs w) (.dos 100 "bad-tx-unknown-error")
  let bcer ← orThrow (ByteCodeExec.processingResults H txs results)
    (.dos 100 "bad-vm-exec-processing")
  return (w', bcer)

/-- The checks of a contract transaction before it is executed. -/
def checkContracts : Except Failure (List SilubiumTransaction) := do
  require (checkSenderScript tx s) (.dos 100 "bad-txns-invalid-sender-script")
  let extract ← orThrow (N.extractSilubiumTX tx s.view C.block.vtx)
    (.dos 100 "bad-tx-bad-contract-format")
  require (extract.gasPrices.all fun p => decide (C.dgp.minGasPrice ≤ p.toNat))
    (.dos 100 "bad-tx-low-gas-price")
  let valueOut ← orThrow tx.getValueOut (.fatal "CTransaction::GetValueOut")
  let nTxFee := wrap64 (s.view.getValueIn tx - valueOut)
  let tally ← extract.txs.foldlM (checkContractOutput C nTxFee) ⟨0, 0, false⟩
  require tally.nonZeroVersion (.dos 100 "bad-tx-improper-version-0")
  return extract.txs

/-- The transaction joins the shadow block unless it is an `OP_SPEND` one,
and its contracts are executed; the transfers they make follow it. -/
def runContracts : Except Failure ConnectState :=
  let checkVtx := if tx.hasOpSpend then s.checkVtx else s.checkVtx ++ [tx]
  if tx.hasCreateOrCall && !tx.hasOpSpend then do
    let txs ← checkContracts N C tx s
    let (aal, bcer) ← executeContracts H N C txs s.aal
    let blockGasUsed := (s.blockGasUsed + bcer.usedGas) % 2 ^ 64
    require (decide (blockGasUsed ≤ C.dgp.blockGasLimit)) (.dos 1000 "bad-blk-gaslimit")
    return { s with
      aal, blockGasUsed
      gasRefunds := bcer.refundOutputs.foldl (fun g out => wrap64 (g + out.nValue)) s.gasRefunds
      checkVouts := s.checkVouts ++ bcer.refundOutputs
      checkVtx := checkVtx ++ bcer.valueTransfers }
  else .ok { s with checkVtx }

/-- The coins are updated; all transactions but the first leave an undo
record. -/
def applyCoins (i : ℕ) : Except Failure ConnectState := do
  let (view, vprevout) ← s.view.updateCoins H tx C.nHeight
  return { s with view, vtxundo := if i = 0 then s.vtxundo else s.vtxundo ++ [vprevout] }

/-- One turn of the loop of `ConnectBlock`. -/
def connectTx (s : ConnectState) (p : CTransaction × ℕ) : Except Failure ConnectState := do
  let s ← chargeFee N C p.1 s
  let s ← countSigOps N C p.1 s
  let s ← verifyInputs N p.1 s
  let s ← countValues p.1 s
  let s ← runContracts H N C p.1 s
  applyCoins H C p.1 s p.2

end BlockContext

variable (H : Hashes) (N : Node)

/-- What a block that was connected leaves. -/
structure Connected where
  view : CCoinsViewCache
  aal : AalState
  lim : BlockLimits
  vtxundo : List (List Coin)
  nMoneySupply : ℕ

/-- The limits once the governance contract has been asked. -/
def nextLimits (lim : BlockLimits) (dgp : DgpValues) : BlockLimits :=
  updateBlockSizeParams (if dgp.blockSize ≠ 0 then dgp.blockSize else lim.dgpMaxBlockSize)

/-- The failure of `CheckBlock` as `ConnectBlock` passes it on. -/
def Failure.ofCheckBlock : Failure → Failure
  | .dos _ _ true => .abortNode "Corrupt block found indicating potential hardware failure"
  | f => f

/-- The call of `CheckBlock`, or of `CheckBlockSW` for the version that has
its own. -/
def recheckBlock (lim : BlockLimits) (block : CBlock) (fJustCheck : Bool) :
    Except Failure CBlock :=
  if block.nVersion ≠ swVersion then
    (checkBlock H N lim block (!fJustCheck) (!fJustCheck) true).mapError Failure.ofCheckBlock
  else
    (checkBlockSW H N lim block (!fJustCheck) (!fJustCheck) true).mapError fun _ =>
      .abortNode "Corrupt SWblock found indicating potential hardware failure"

/-- `ConnectBlock` up to the special case of the genesis block. -/
def connectPrelude (lim : BlockLimits) (block : CBlock) (pindex : CBlockIndex)
    (pprev : Option CBlockIndex) (view : CCoinsViewCache) (fJustCheck : Bool) :
    Except Failure Unit := do
  require (pindex.blockHash == block.getHash H) (.fatal "assert(phashBlock == block.GetHash())")
  require (N.checkHardened pindex.nHeight (block.getHash H))
    (.dos 100 "bad-fork-hardened-checkpoint")
  require (!block.vtx.isEmpty && decide (block.vtx.length ≤ lim.dgpMaxBlockSize) &&
    decide (N.blockSerializeSize block ≤ lim.dgpMaxBlockSize)) (.dos 100 "bad-blk-length")
  require (decide (N.getBlockWeight block ≤ lim.dgpMaxBlockWeight)) (.dos 100 "bad-blk-weight")
  require (!(block.isProofOfStake &&
    decide (N.consensus.nEnableHeaderSignatureHeight < (pindex.nHeight : ℤ)) &&
    !N.inputPubKeyMatches block view)) (.dos 100 "bad-blk-coinstake-input-output-mismatch")
  let _ ← recheckBlock H N lim block fJustCheck
  let hashPrevBlock := (pprev.map CBlockIndex.blockHash).getD 0
  require (block.nVersion == swVersion || hashPrevBlock == view.getBestBlock)
    (.fatal "assert(hashPrevBlock == view.GetBestBlock())")

/-- `UpdateHashProof`. -/
def updateHashProof (block : CBlock) (nHeight : ℕ) (view : CCoinsViewCache) :
    Except Failure Unit := do
  require (!(block.isProofOfWork && decide (N.consensus.nLastPOWBlock < (nHeight : ℤ))))
    (.dos 100 "")
  require (!(block.isProofOfStake && !N.checkCoinStakeTimestamp block)) (.dos 50 "")
  require (block.nBits == N.getNextWorkRequired block) (.dos 100 "")
  checkWhen (block.isProofOfStake && block.nVersion != swVersion) (N.checkProofOfStake block view)

/-- `BIP34_IMPLIES_BIP30_LIMIT`. -/
def bip34ImpliesBip30Limit : ℕ := 1983702

/-- The rule against overwriting coins. An index always has its hash, so
`fEnforceBIP30` is false and the height alone decides. -/
def checkBIP30 (block : CBlock) (nHeight : ℕ) (view : CCoinsViewCache) : Except Failure Unit :=
  checkWhen (decide (bip34ImpliesBip30Limit ≤ nHeight))
    (require (block.vtx.all fun tx => (List.range tx.vout.length).all fun o =>
      !view.haveCoin ⟨tx.getHash H, o⟩) (.dos 100 "bad-txns-BIP30"))

/-- The header of the shadow block. -/
def checkHeader (block : CBlock) (s : ConnectState) : CBlockHeader :=
  { block.toCBlockHeader with
    hashMerkleRoot := (blockMerkleRoot H s.checkVtx).1
    hashStateRoot := s.aal.state.trie.root
    hashUTXORoot := s.aal.state.stateUTXO.root }

/-- A failure of `CheckReward` as `ConnectBlock` passes it on: the score
adds up and the reason is replaced. -/
def Failure.ofReward : Failure → Failure
  | .dos level _ _ => .dos (level + 100) ""
  | .error _ => .dos 100 ""
  | f => f

/-- `ConnectBlock` after the loop, up to the comparison with the shadow
block. -/
def checkConnected (block : CBlock) (nHeight : ℕ) (s : ConnectState) (fJustCheck : Bool) :
    Except Failure Unit := do
  require (decide (s.gasRefunds ≤ s.nFees)) (.dos 1000 "bad-blk-fees-greater-gasrefund")
  (checkReward N block nHeight s.nFees s.gasRefunds s.nActualStakeReward s.checkVouts
    s.utxoInterest).mapError Failure.ofReward
  require (N.checkQueueWait block) (.dos 100 "block-validation-failed")
  require (H.headerHash (checkHeader H block s) == block.getHash H || fJustCheck)
    (.dos 100 "incorrect-transactions-or-hashes-block")

/-- The state a mere check leaves: the roots of the parent, or of the empty
trie. -/
def revertRoots (pprev : CBlockIndex) (w : AalState) : AalState :=
  if pprev.hashStateRoot ≠ 0 ∧ pprev.hashUTXORoot ≠ 0 then
    { w with state := w.state.setRoots N pprev.hashStateRoot pprev.hashUTXORoot }
  else { w with state := w.state.setRoots N N.emptyTrieRoot N.emptyTrieRoot }

/-- What the loop of `ConnectBlock` reads. -/
def blockContext (lim : BlockLimits) (block : CBlock) (nHeight : ℕ) (pprev : CBlockIndex)
    (aal : AalState) : BlockContext :=
  ⟨block, nHeight, pprev, lim, N.dgp aal.state (nHeight + 1), N.aalEnv aal.state (nHeight + 1)⟩

/-- The loop of `ConnectBlock`. -/
def connectTransactions (C : BlockContext) (view : CCoinsViewCache) (aal : AalState) :
    Except Failure ConnectState :=
  C.block.vtx.zipIdx.foldlM (C.connectTx H N) (.start view aal)

/-- `ConnectBlock` of a block that is not the genesis block. -/
def connectBody (lim : BlockLimits) (block : CBlock) (pindex pprev : CBlockIndex)
    (view : CCoinsViewCache) (aal : AalState) (fJustCheck : Bool) : Except Failure Connected := do
  checkBIP30 H block pindex.nHeight view
  let s ← connectTransactions H N (blockContext N lim block pindex.nHeight pprev aal) view aal
  checkConnected H N block pindex.nHeight s fJustCheck
  if fJustCheck then
    return ⟨s.view, revertRoots N pprev s.aal, lim, [], pindex.nMoneySupply⟩
  else
    require (N.writeUndoDataForBlock block) (.error "WriteUndoDataForBlock")
    require (N.writeIndexes block) (.abortNode "Failed to write index")
    return ⟨s.view.setBestBlock pindex.blockHash, s.aal, lim, s.vtxundo,
      ((pprev.nMoneySupply + s.nValueOut - s.nValueIn : ℤ) % 2 ^ 64).toNat⟩

/-- `ConnectBlock`. -/
def connectBlock (lim : BlockLimits) (block : CBlock) (pindex : CBlockIndex)
    (pprev : Option CBlockIndex) (view : CCoinsViewCache) (aal : AalState) (fJustCheck : Bool) :
    Except Failure Connected := do
  let lim := nextLimits lim (N.dgp aal.state (pindex.nHeight + 1))
  connectPrelude H N lim block pindex pprev view fJustCheck
  if block.getHash H = N.consensus.hashGenesisBlock then
    return ⟨if fJustCheck then view else view.setBestBlock pindex.blockHash, aal, lim, [],
      pindex.nMoneySupply⟩
  else
    updateHashProof N block pindex.nHeight view
    let pprev ← orThrow pprev (.fatal "assert(pindex->pprev)")
    connectBody H N lim block pindex pprev view aal fJustCheck

end Slucore

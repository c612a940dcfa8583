import Slucore.Validation.ConnectBlock
/-!
# Validation — accepting a block into the store

`AcceptBlock` takes a block that arrived, finds or makes the index of its
header, checks the body and stores it; `ProcessNewBlock` is the call the
network makes. Which checks of the body are made depends on the version
of the block. The store keeps, for each header, the one body that was
received for it.
-/


namespace Slucore

/-- `mapBlockIndex`, and the blocks on disk, by the hash of their header. -/
structure ChainState where
  mapBlockIndex : UInt256 → Option CBlockIndex
  stored : UInt256 → Option CBlock

/-- The node when blocks arrive: what `AcceptBlock` reads beside what block
validation does. -/
structure Intake extends Node where
  /-- The checks of an unknown header against checkpoints and the encoding
  of its signature. -/
  checkNewHeader : CBlockHeader → Except Failure Unit
  /-- The height of `GetLastCheckpoint`; `none` without one, or where
  `fCheckpointsEnabled` is off. -/
  lastCheckpoint : Option ℕ
  getMedianTimePast : CBlockIndex → ℕ
  /-- One of `m_failed_blocks` is an ancestor. -/
  failedAncestor : CBlockIndex → Bool
  getBlockProof : CBlockHeader → ℕ
  pcoinsTip : CCoinsViewCache
  checkSync : ℕ → Bool
  /-- The work of the tip; `none` without a tip. -/
  tipChainWork : Option ℕ
  nMinimumChainWork : ℕ
  contextualCheckBlock : CBlock → Except Failure Unit
  /-- `SaveBlockToDisk` finds a position and writes. -/
  saveBlockToDisk : CBlock → Bool
  /-- The output pays to the address the governance contract names. -/
  paysMainNode : CScript → Bool

variable (H : Hashes) (I : Intake) (lim : BlockLimits)

/-- A version that is no longer used at a height. -/
def ConsensusParams.outdated (P : ConsensusParams) (nVersion : ℤ) (nHeight : ℕ) : Bool :=
  decide (nVersion < 2) && decide (P.bip34Height ≤ nHeight) ||
    decide (nVersion < 3) && decide (P.bip66Height ≤ nHeight) ||
    decide (nVersion < 4) && decide (P.bip65Height ≤ nHeight)

/-- `ContextualCheckBlockHeader`. -/
def Intake.contextualCheckBlockHeader (block : CBlock) (pindexPrev : CBlockIndex) :
    Except Failure Unit := do
  let nHeight := pindexPrev.nHeight + 1
  require (block.nBits == I.getNextWorkRequired block)
    (.dos 100 (if block.nVersion = swVersion then "SW bad-diffbits" else "bad-diffbits"))
  require (I.lastCheckpoint.all fun h => decide (h ≤ nHeight))
    (.dos 100 "bad-fork-prior-to-checkpoint")
  require (I.checkHardened nHeight (block.getHash H)) (.dos 100 "bad-fork-hardened-checkpoint")
  require (I.checkSync nHeight) (.dos 1 "bad-fork-prior-to-synch-checkpoint")
  require (!(block.isProofOfStake && decide (block.nTime ≤ I.getMedianTimePast pindexPrev)))
    (.dos 0 "time-too-old")
  require (!(block.isProofOfStake && decide (futureDrift I.getAdjustedTime < block.nTime)))
    (.dos 0 "time-too-new")
  require (!I.consensus.outdated block.nVersion nHeight)
    (.dos 0 ("bad-version(0x" ++ (BitVec.ofInt 32 block.nVersion).toHex ++ ")"))

namespace ChainState

variable (st : ChainState)

/-- The state with the index of a header replaced. -/
def setIndex (hash : UInt256) (pindex : CBlockIndex) : ChainState :=
  { st with mapBlockIndex := Function.update st.mapBlockIndex hash (some pindex) }

/-- `AddToBlockIndex`. -/
def addToBlockIndex (block : CBlock) : ChainState × CBlockIndex :=
  let hash := block.getHash H
  match st.mapBlockIndex hash with
  | some pindex => (st, pindex)
  | none =>
    let pprev := st.mapBlockIndex block.hashPrevBlock
    let pindex : CBlockIndex :=
      { nHeight := (pprev.map fun p => p.nHeight + 1).getD 0
        blockHash := hash
        hashStateRoot := block.hashStateRoot
        hashUTXORoot := block.hashUTXORoot
        nMoneySupply := 0
        nTime := block.nTime
        nChainWork := (pprev.map CBlockIndex.nChainWork).getD 0 +
          I.getBlockProof block.toCBlockHeader
        nTx := 0
        haveData := false
        failedValid := false }
    (st.setIndex hash pindex, pindex)

/-- `AcceptBlockHeader`. -/
def acceptBlockHeader (block : CBlock) : Except Failure (ChainState × CBlockIndex) :=
  if block.getHash H = I.consensus.hashGenesisBlock then .ok (st.addToBlockIndex H I block)
  else
    match st.mapBlockIndex (block.getHash H) with
    | some pindex => if pindex.failedValid then .error (.dos 0 "duplicate") else .ok (st, pindex)
    | none => do
      I.checkNewHeader block.toCBlockHeader
      let pindexPrev ← orThrow (st.mapBlockIndex block.hashPrevBlock)
        (.dos 10 "prev-blk-not-found")
      require (!pindexPrev.failedValid) (.dos 100 "bad-prevblk")
      I.contextualCheckBlockHeader H block pindexPrev
      require (!I.failedAncestor pindexPrev) (.dos 100 "bad-prevblk")
      let nHeight := pindexPrev.nHeight + 1
      require (!(block.isProofOfWork && decide (I.consensus.nLastPOWBlock < (nHeight : ℤ))))
        (.dos 100 "reject-pow")
      require (!(block.isProofOfStake && decide ((nHeight : ℤ) < coinbaseMaturity)))
        (.dos 100 "reject-pos")
      require (!(block.isProofOfStake && !I.checkCoinStakeTimestamp block))
        (.dos 100 "timestamp-invalid")
      checkBlockHeader I.toNode block.toCBlockHeader true true
      return st.addToBlockIndex H I block

/-- `ReceivedBlockTransactions`, with the block that was written. -/
def receivedBlockTransactions (block : CBlock) (pindex : CBlockIndex) : ChainState :=
  { st.setIndex (block.getHash H) { pindex with nTx := block.vtx.length, haveData := true } with
    stored := Function.update st.stored (block.getHash H) (some block) }

end ChainState

/-- The rule that the coinbase starts with the height of the block, where
it is enforced. -/
def checkCoinbaseHeight (P : ConsensusParams) (block : CBlock) (nHeight : ℕ) :
    Except Failure Unit :=
  checkWhen (decide (P.bip34Height ≤ nHeight)) do
    let scriptSig ← orThrow (block.vtx.head?.bind fun tx => tx.vin.head?.map CTxIn.scriptSig)
      (.fatal "block.vtx[0]->vin[0]")
    require (decide (pushInt64 nHeight <+: scriptSig)) (.dos 100 "")

/-- The checks of `AcceptBlock` before it looks at what it has: the proof of
a proof-of-work block, the parent, and the times. -/
def checkArrival (st : ChainState) (block : CBlock) (pindex : CBlockIndex) :
    Except Failure Unit := do
  checkWhen block.isProofOfWork (updateHashProof I.toNode block pindex.nHeight I.pcoinsTip)
  let pindexPrev := if 0 < pindex.nHeight then st.mapBlockIndex block.hashPrevBlock else none
  require (!(decide (0 < pindex.nHeight) && pindexPrev.isNone)) (.dos 10 "")
  require (!(block.isProofOfWork && decide (I.consensus.nLastPOWBlock < (pindex.nHeight : ℤ))))
    (.dos 100 "")
  require (I.checkSync pindex.nHeight) (.error "rejected by synchronized checkpoint")
  require (pindexPrev.all fun p => !(block.isProofOfStake &&
    (decide (block.nTime ≤ p.nTime) || decide (futureDrift block.nTime < p.nTime))))
    (.error "block's timestamp is too early")
  require (!(block.isProofOfStake && decide (futureDrift I.getAdjustedTime < block.nTime)))
    (.error "block timestamp too far in the future")
  checkCoinbaseHeight I.consensus block pindex.nHeight

/-- `MIN_BLOCKS_TO_KEEP`. -/
def minBlocksToKeep : ℕ := 288

/-- Whether `AcceptBlock` goes on to process the block: a block it has, or
one that was not requested and is of no use, it leaves. -/
def wantsBlock (pindex : CBlockIndex) (fRequested : Bool) : Bool :=
  !pindex.haveData && (fRequested ||
    (pindex.nTx == 0 && I.tipChainWork.all (fun w => decide (w < pindex.nChainWork)) &&
      decide (pindex.nHeight ≤ I.tipHeight + minBlocksToKeep) &&
      decide (I.nMinimumChainWork ≤ pindex.nChainWork)))

/-- The check of the body, which one version of blocks is spared. -/
def checkBody (block : CBlock) : Except Failure Unit :=
  checkWhen (decide (block.nVersion ≠ swVersion)) do
    let _ ← checkBlock H I.toNode lim block true true true
    I.contextualCheckBlock block

/-- Whether a failure marks the index as invalid. -/
def Failure.marksInvalid : Failure → Bool
  | .dos _ _ corruption => !corruption
  | _ => false

/-- `AcceptBlock`: the state it leaves, and whether the body was stored
(`ReceivedBlockTransactions` was called) where it succeeds. -/
def acceptBlock (st : ChainState) (block : CBlock) (fRequested : Bool) :
    ChainState × Except Failure Bool :=
  match st.acceptBlockHeader H I block with
  | .error f => (st, .error f)
  | .ok (st, pindex) =>
    match checkArrival I st block pindex with
    | .error f => (st, .error f)
    | .ok () =>
      if wantsBlock I pindex fRequested then
        match checkBody H I lim block with
        | .error f =>
          (if f.marksInvalid then st.setIndex (block.getHash H) { pindex with failedValid := true }
            else st, .error f)
        | .ok () =>
          if I.saveBlockToDisk block then
            (st.receivedBlockTransactions H block pindex, .ok true)
          else (st, .error (.error "Failed to find position to write new block to disk"))
      else (st, .ok false)

/-- `pblock->vtx[1]->vout[1]`; `none` when it is out of range. -/
def CBlock.mainNodeOutput (block : CBlock) : Option CTxOut :=
  block.vtx[1]?.bind fun tx => tx.vout[1]?

/-- `ProcessNewBlock`, up to the activation of the best chain. -/
def processNewBlock (st : ChainState) (block : CBlock) (fForceProcessing : Bool) :
    ChainState × Except Failure Bool :=
  if block.nVersion ≠ swVersion then
    match checkBlock H I.toNode lim block true true true with
    | .error f => (st, .error f)
    | .ok block => acceptBlock H I lim st block fForceProcessing
  else if 10000 < I.tipHeight then
    match block.mainNodeOutput with
    | none => (st, .error (.fatal "pblock->vtx[1]->vout[1]"))
    | some out =>
      if I.paysMainNode out.scriptPubKey then acceptBlock H I lim st block fForceProcessing
      else (st, .error (.error ""))
  else acceptBlock H I lim st block fForceProcessing

end Slucore

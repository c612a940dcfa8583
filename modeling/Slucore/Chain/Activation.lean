import Slucore.Chain.Index
/-!
# Chain — activating the best chain

`ActivateBestChain` looks for the candidate that sorts last
(`FindMostWorkChain`), disconnects blocks down to the fork, and connects
towards it (`ActivateBestChainStep`), until the tip is the candidate it
looked for. A block that does not connect is marked, and the search begins
again. `InvalidateBlock` marks a block on request. `CheckBlockIndex` states
what the index is held to.

A chain is connected thirty-two blocks at a time only so that the list of
blocks stays short: the blocks are connected one after another.
-/


namespace Slucore

variable (T : BlockTree)

namespace CChainState

variable (st : CChainState)

/-! ## The search for the best candidate -/

/-- The blocks of the chain to `x` that are not active, `x` first. -/
def offChain (x : UInt256) : List UInt256 :=
  (st.chainTo T x).takeWhile fun y => !st.contains T y

/-- The chain of a candidate taken out, down to the block that failed or has
no data. -/
def removeChain (x y : UInt256) : CChainState :=
  let above := (st.chainTo T x).takeWhile (· ≠ y)
  let marked :=
    if (st.entry y).failed then st.markFailedChild above
    else { st with mapBlocksUnlinked :=
             st.mapBlocksUnlinked ++ above.map fun z => (T.hashPrevBlock z, z) }
  marked.eraseCandidates (y :: above)

/-- The loop of `FindMostWorkChain`, for at most `n` turns. -/
def findMostWorkChainLoop : ℕ → CChainState → CChainState × Option UInt256
  | 0, st => (st, none)
  | n + 1, st =>
    match st.bestCandidate T with
    | none => (st, none)
    | some x =>
      match (st.offChain T x).find? fun y => (st.entry y).failed || !(st.entry y).haveData with
      | none => (st, some x)
      | some y => findMostWorkChainLoop n (st.removeChain T x y)

/-- `FindMostWorkChain`. Each turn but the last takes a candidate out. -/
def findMostWorkChain : CChainState × Option UInt256 :=
  findMostWorkChainLoop T st.setBlockIndexCandidates.length st

/-- `PruneBlockIndexCandidates`. -/
def pruneBlockIndexCandidates : CChainState :=
  { st with setBlockIndexCandidates :=
      st.setBlockIndexCandidates.filter fun x => !st.worse T x st.tip }

/-! ## Steps towards it -/

/-- `InvalidBlockFound`. -/
def invalidBlockFound (x : UInt256) : CChainState :=
  let marked := (st.markFailedValid x).eraseCandidates [x]
  { marked with failedBlocks := st.failedBlocks.insert x }

/-- `ConnectTip`: whether the block connected. -/
def connectTip (x : UInt256) : CChainState × Bool :=
  if T.connects x then
    ({ st.setEntry x (IndexEntry.raiseValidity { st.entry x with haveUndo := true } .scripts) with
       tip := x }, true)
  else (st.invalidBlockFound x, false)

/-- `DisconnectTip`: the genesis block has no undo data. -/
def disconnectTip : CChainState × Bool :=
  if st.tip = T.hashGenesisBlock then (st, false)
  else ({ st with tip := T.hashPrevBlock st.tip }, true)

/-- A loop of `DisconnectTip`, for at most `n` turns. -/
def disconnectWhile (cond : CChainState → Bool) : ℕ → CChainState → CChainState × Bool
  | 0, st => (st, true)
  | n + 1, st =>
    if cond st then
      match st.disconnectTip T with
      | (st, false) => (st, false)
      | (st, true) => disconnectWhile cond n st
    else (st, true)

/-- `FindFork`. -/
def findFork (x : UInt256) : Option UInt256 := (st.chainTo T x).find? (st.contains T)

/-- The blocks connected in turn, until the tip has more work than the old
one; whether one was found invalid. -/
def connectBlocks (nOldWork : ℕ) : List UInt256 → CChainState → CChainState × Bool
  | [], st => (st, false)
  | x :: xs, st =>
    match st.connectTip T x with
    | (st, false) => (st, true)
    | (st, true) =>
      let pruned := st.pruneBlockIndexCandidates T
      if nOldWork < (pruned.entry pruned.tip).nChainWork then (pruned, false)
      else connectBlocks nOldWork xs pruned

/-- `ActivateBestChainStep`: whether an invalid block was found. -/
def activateBestChainStep (pindexMostWork : UInt256) : CChainState × Bool :=
  let disconnected := (disconnectWhile T
    (fun st' => decide (some st'.tip ≠ st.findFork T pindexMostWork))
    ((st.entry st.tip).nHeight + 1) st).1
  disconnected.connectBlocks T (st.entry st.tip).nChainWork (st.offChain T pindexMostWork).reverse

/-! ## `ActivateBestChain` -/

/-- `pindexMostWork`, looked for where there is none. -/
def mostWork (pindexMostWork : Option UInt256) : CChainState × Option UInt256 :=
  match pindexMostWork with
  | some x => (st, some x)
  | none => st.findMostWorkChain T

/-- The inner loop of `ActivateBestChain`, for at most `n` turns: the state,
`pindexMostWork`, and `blocks_connected`. -/
def activateInner (startingTip : UInt256) :
    ℕ → CChainState → Option UInt256 → Bool → Option (CChainState × Option UInt256 × Bool)
  | 0, _, _, _ => none
  | n + 1, st, pindexMostWork, blocksConnected =>
    match st.mostWork T pindexMostWork with
    | (st, none) => some (st, none, blocksConnected)
    | (st, some x) =>
      if x = st.tip then some (st, some x, blocksConnected)
      else
        let (st, fInvalidFound) := st.activateBestChainStep T x
        -- an invalid block wipes the cache: another branch may be best now
        let pindexMostWork := if fInvalidFound then none else some x
        if st.worse T st.tip startingTip then activateInner startingTip n st pindexMostWork true
        else some (st, pindexMostWork, true)

/-- The outer loop of `ActivateBestChain`. Where blocks were connected,
`pindexNewTip` is the tip. -/
def activateOuter (shutdownRequested : Bool) : ℕ → CChainState → Option UInt256 → Option CChainState
  | 0, _, _ => none
  | n + 1, st, pindexMostWork =>
    match activateInner T st.tip n st pindexMostWork false with
    | none => none
    | some (st, _, false) => some st
    | some (st, pindexMostWork, true) =>
      if shutdownRequested then some st
      else if pindexMostWork = some st.tip then some st
      else activateOuter shutdownRequested n st pindexMostWork

/-- `ActivateBestChain`, for at most `n` turns of its loops; `none` if it does
not return in them. -/
def activateBestChain (shutdownRequested : Bool) (n : ℕ) : Option CChainState :=
  activateOuter T shutdownRequested n st none

/-! ## `InvalidateBlock` -/

/-- The blocks that `InvalidateBlock` puts back among the candidates: they
may have been removed for a tip that is no longer there. -/
def readdCandidates : CChainState :=
  { st with setBlockIndexCandidates := (st.mapBlockIndex.filter fun x =>
      (st.entry x).isValid .transactions && decide ((st.entry x).nChainTx ≠ 0) &&
        !st.worse T x st.tip).foldl (fun xs x => xs.insert x) st.setBlockIndexCandidates }

/-- `InvalidateBlock`. -/
def invalidateBlock (x : UInt256) : CChainState × Bool :=
  let walked := if st.contains T x then (st.chainTo T st.tip).takeWhile (· ≠ x) else []
  match disconnectWhile T (fun st' => st'.contains T x) ((st.entry st.tip).nHeight + 1) st with
  | (st, false) => (st, false)
  | (st, true) =>
    let marked := ((st.markFailedChild walked).eraseCandidates walked).invalidBlockFound x
    (marked.readdCandidates T, true)

/-! ## `CheckBlockIndex` -/

/-- The first block with a property on the path from the genesis block. -/
def firstOnPath (x : UInt256) (p : UInt256 → Bool) : Option UInt256 :=
  (st.chainTo T x).reverse.find? p

/-- The first block but the genesis block that is below a level. -/
def firstBelow (x : UInt256) (level : BlockValidity) : Option UInt256 :=
  st.firstOnPath T x fun y =>
    (T.pprev y).isSome && decide ((st.entry y).validity.rank < level.rank)

/-- `InvertLowestOne`. -/
def invertLowestOne (n : ℕ) : ℕ := n &&& (n - 1)

/-- `GetSkipHeight`. -/
def getSkipHeight (height : ℕ) : ℕ :=
  if height < 2 then 0
  else if height % 2 = 1 then invertLowestOne (invertLowestOne (height - 1)) + 1
  else invertLowestOne height

/-- `pskip`, as `BuildSkip` sets it. -/
def pskip (x : UInt256) : Option UInt256 :=
  (T.pprev x).bind fun p => st.getAncestor T p (getSkipHeight (st.entry x).nHeight)

/-- The assertions `CheckBlockIndex` makes on its visit to a block, of a node
that never pruned. -/
def checkEntry (x : UInt256) : Bool :=
  let pindex := st.entry x
  let pprev := T.pprev x
  let firstInvalid := st.firstOnPath T x fun y => (st.entry y).failedValid
  let firstMissing := st.firstOnPath T x fun y => !(st.entry y).haveData
  let firstNeverProcessed := st.firstOnPath T x fun y => (st.entry y).nTx == 0
  let foundInUnlinked := pprev.any fun p => decide ((p, x) ∈ st.mapBlocksUnlinked)
  (pprev.isSome || decide (x = T.hashGenesisBlock) &&
    decide ((st.chainTo T st.tip).getLast? = some x)) &&
  (decide (pindex.nChainTx ≠ 0) || decide (pindex.nSequenceId ≤ 0)) &&
  ((!pindex.haveData) == (pindex.nTx == 0)) &&
  decide (firstMissing = firstNeverProcessed) &&
  (!pindex.haveUndo || pindex.haveData) &&
  (decide (BlockValidity.transactions.rank ≤ pindex.validity.rank) == decide (0 < pindex.nTx)) &&
  (firstNeverProcessed.isSome == (pindex.nChainTx == 0)) &&
  ((st.firstBelow T x .transactions).isSome == (pindex.nChainTx == 0)) &&
  -- the height is the number of steps to the genesis block
  decide ((st.chainTo T x).length = pindex.nHeight + 1) &&
  pprev.all (fun p => decide ((st.entry p).nChainWork ≤ pindex.nChainWork)) &&
  (decide (pindex.nHeight < 2) ||
    (st.pskip T x).any fun y => decide ((st.entry y).nHeight < pindex.nHeight)) &&
  (st.firstBelow T x .tree).isNone &&
  (decide (pindex.validity.rank < BlockValidity.chain.rank) ||
    (st.firstBelow T x .chain).isNone) &&
  (decide (pindex.validity.rank < BlockValidity.scripts.rank) ||
    (st.firstBelow T x .scripts).isNone) &&
  (firstInvalid.isSome || !pindex.failed) &&
  (if !st.worse T x st.tip && firstNeverProcessed.isNone then
    firstInvalid.isSome || !(firstMissing.isNone || decide (x = st.tip)) ||
      decide (x ∈ st.setBlockIndexCandidates)
  else decide (x ∉ st.setBlockIndexCandidates)) &&
  (!(pprev.isSome && pindex.haveData && firstNeverProcessed.isSome && firstInvalid.isNone) ||
    foundInUnlinked) &&
  (pindex.haveData || !foundInUnlinked) &&
  (firstMissing.isSome || !foundInUnlinked) &&
  !(pprev.isSome && pindex.haveData && firstNeverProcessed.isNone && firstMissing.isSome)

/-- All assertions of `CheckBlockIndex`: there is one block without a parent,
the assertions hold of every block, and the blocks of the index are those
the search from the genesis block visits. -/
def checkBlockIndex : Bool :=
  decide ((st.mapBlockIndex.filter fun x => (T.pprev x).isNone).length = 1) &&
  st.mapBlockIndex.all (st.checkEntry T) &&
  st.mapBlockIndex.all fun x =>
    decide ((st.chainTo T x).getLast? = some T.hashGenesisBlock) &&
      (st.chainTo T x).all fun y => decide (y ∈ st.mapBlockIndex)

end CChainState

end Slucore

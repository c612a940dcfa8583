import Slucore.Validation.AcceptBlock
import Slucore.Common.Ancestry
import Mathlib.Data.List.MinMax
/-!
# Chain — the block index

The tree of headers with what the node knows of each block: its data, how
far it was checked, whether it failed. Headers enter with
`AcceptBlockHeader`, data with `AcceptBlock`; a block whose ancestors all
have data is linked, and becomes a candidate for the tip if it does not
sort below it (`ReceivedBlockTransactions`). Data that comes before that of
an ancestor waits in `mapBlocksUnlinked`.

The checks of headers and bodies that read nothing of this state come with
the call, as their outcomes.
-/


namespace Slucore

/-- The levels of `BlockStatus`: how far a block was checked. -/
inductive BlockValidity where
  | unknown | header | tree | transactions | chain | scripts
  deriving DecidableEq

/-- The value of the level in `nStatus`. -/
def BlockValidity.rank : BlockValidity → ℕ
  | .unknown => 0
  | .header => 1
  | .tree => 2
  | .transactions => 3
  | .chain => 4
  | .scripts => 5

/-- What the choice of the best chain reads of a `CBlockIndex`, its
`nStatus` taken apart. `nChainTx` is 32 bits wide in the source and
`nSequenceId` 31 bits and a sign. Here they do not wrap, which is the same
as long as a chain has fewer than `2 ^ 32` transactions and the node has
received fewer than `2 ^ 31` blocks. -/
structure IndexEntry where
  nHeight : ℕ
  nChainWork : ℕ
  nTx : ℕ
  nChainTx : ℕ
  nSequenceId : ℤ
  validity : BlockValidity
  haveData : Bool
  haveUndo : Bool
  failedValid : Bool
  failedChild : Bool

namespace IndexEntry

variable (e : IndexEntry)

/-- `nStatus & BLOCK_FAILED_MASK`. -/
def failed : Bool := e.failedValid || e.failedChild

/-- `IsValid`. -/
def isValid (nUpTo : BlockValidity) : Bool :=
  !e.failed && decide (nUpTo.rank ≤ e.validity.rank)

/-- `RaiseValidity`. -/
def raiseValidity (nUpTo : BlockValidity) : IndexEntry :=
  if e.failed then e
  else if e.validity.rank < nUpTo.rank then { e with validity := nUpTo }
  else e

end IndexEntry

/-- The blocks there are, by the hash of their header. -/
structure BlockTree where
  hashGenesisBlock : UInt256
  hashPrevBlock : UInt256 → UInt256
  getBlockProof : UInt256 → ℕ
  /-- The target of a header is the one required, which is not zero. -/
  getBlockProof_pos : ∀ hash, 0 < getBlockProof hash
  /-- Where the index of the block is allocated. -/
  address : UInt256 → ℕ
  address_injective : Function.Injective address
  /-- The verdict of `ConnectBlock` on the block, on top of its ancestors. -/
  connects : UInt256 → Bool

/-- `pprev`, of a block that is indexed. -/
def BlockTree.pprev (T : BlockTree) (x : UInt256) : Option UInt256 :=
  if x = T.hashGenesisBlock then none else some (T.hashPrevBlock x)

/-- The block index, the active chain and the sets that choose it. -/
structure CChainState where
  /-- The hashes `mapBlockIndex` has an index for. -/
  mapBlockIndex : List UInt256
  entry : UInt256 → IndexEntry
  /-- `chainActive.Tip()`. -/
  tip : UInt256
  setBlockIndexCandidates : List UInt256
  mapBlocksUnlinked : List (UInt256 × UInt256)
  failedBlocks : List UInt256
  nBlockSequenceId : ℤ

variable (T : BlockTree)

namespace CChainState

variable (st : CChainState)

/-- The block and its ancestors, down to the genesis block. -/
def chainTo (x : UInt256) : List UInt256 :=
  walk T.hashGenesisBlock T.hashPrevBlock (st.entry x).nHeight x

/-- `GetAncestor`. -/
def getAncestor (x : UInt256) (height : ℕ) : Option UInt256 :=
  if height ≤ (st.entry x).nHeight then (st.chainTo T x)[(st.entry x).nHeight - height]? else none

/-- `chainActive.Contains`. -/
def contains (x : UInt256) : Bool := decide (x ∈ st.chainTo T st.tip)

/-- `CBlockIndexWorkComparator`: `a` sorts below `b`. -/
def worse (a b : UInt256) : Bool :=
  let pa := st.entry a
  let pb := st.entry b
  -- first by total work, ...
  if pb.nChainWork < pa.nChainWork then false
  else if pa.nChainWork < pb.nChainWork then true
  -- ... then by the time received, ...
  else if pa.nSequenceId < pb.nSequenceId then false
  else if pb.nSequenceId < pa.nSequenceId then true
  -- ... then by address
  else if T.address a < T.address b then false
  else decide (T.address b < T.address a)

/-- The later of two blocks in that order. -/
def later (a b : UInt256) : UInt256 := if st.worse T a b then b else a

/-- The last of `setBlockIndexCandidates`. -/
def bestCandidate : Option UInt256 :=
  match st.setBlockIndexCandidates with
  | [] => none
  | x :: xs => some (xs.foldl (st.later T) x)

/-- The state with the index of a block changed. -/
def setEntry (x : UInt256) (e : IndexEntry) : CChainState :=
  { st with entry := Function.update st.entry x e }

/-- The blocks marked `BLOCK_FAILED_CHILD`. -/
def markFailedChild (xs : List UInt256) : CChainState :=
  { st with entry := fun y =>
      if y ∈ xs then { st.entry y with failedChild := true } else st.entry y }

/-- The block marked `BLOCK_FAILED_VALID`. -/
def markFailedValid (x : UInt256) : CChainState :=
  st.setEntry x { st.entry x with failedValid := true }

/-- The blocks taken out of `setBlockIndexCandidates`. -/
def eraseCandidates (xs : List UInt256) : CChainState :=
  { st with setBlockIndexCandidates := st.setBlockIndexCandidates.filter (· ∉ xs) }

/-- `AddToBlockIndex`. -/
def addToBlockIndex (x : UInt256) : CChainState :=
  if x ∈ st.mapBlockIndex then st
  else
    let pprev := if T.hashPrevBlock x ∈ st.mapBlockIndex then some (st.entry (T.hashPrevBlock x))
      else none
    { st.setEntry x
        { nHeight := (pprev.map fun p => p.nHeight + 1).getD 0
          nChainWork := (pprev.map IndexEntry.nChainWork).getD 0 + T.getBlockProof x
          nTx := 0
          nChainTx := 0
          nSequenceId := 0
          validity := .tree
          haveData := false
          haveUndo := false
          failedValid := false
          failedChild := false } with
      mapBlockIndex := x :: st.mapBlockIndex }

end CChainState

/-! ## Synchronized checkpoints -/

/-- `nCheckpointSpan`. -/
def nCheckpointSpan : ℕ := 500

namespace CChainState

variable (st : CChainState)

/-- `AutoSelectSyncCheckpoint`: the first block below the tip that is a span
below it, or the genesis block. -/
def autoSelectSyncCheckpoint : UInt256 :=
  ((st.chainTo T st.tip).find? fun x => !((T.pprev x).isSome &&
    decide ((st.entry st.tip).nHeight < (st.entry x).nHeight + nCheckpointSpan))).getD st.tip

/-- `CheckSync`. -/
def checkSync (nHeight : ℕ) : Bool :=
  !(decide (nHeight ≠ 0) && decide (nHeight ≤ (st.entry (st.autoSelectSyncCheckpoint T)).nHeight))

end CChainState

/-! ## Headers -/

/-- The outcomes of the checks of a header that do not read the block
index, in the order they are made. -/
structure HeaderChecks where
  /-- The time of the checkpoint, and the encoding of the signature. -/
  early : Bool
  /-- `ContextualCheckBlockHeader`, but for the synchronized checkpoint. -/
  contextual : Bool
  /-- The kind of the block at its height, its time, and `CheckBlockHeader`. -/
  late : Bool

namespace CChainState

variable (st : CChainState)

/-- The block of `m_failed_blocks` that the search for a failed ancestor
finds: the set is sorted by address. -/
def failedAncestor (pindexPrev : UInt256) : Option UInt256 :=
  (st.failedBlocks.filter fun f => st.getAncestor T pindexPrev (st.entry f).nHeight == some f).argmin
    T.address

/-- `AcceptBlockHeader`. -/
def acceptBlockHeader (x : UInt256) (checks : HeaderChecks) : CChainState × Bool :=
  if x = T.hashGenesisBlock then (st.addToBlockIndex T x, true)
  else if x ∈ st.mapBlockIndex then (st, !(st.entry x).failed)
  else
    let pindexPrev := T.hashPrevBlock x
    if !checks.early || decide (pindexPrev ∉ st.mapBlockIndex) || (st.entry pindexPrev).failed ||
        !checks.contextual || !st.checkSync T ((st.entry pindexPrev).nHeight + 1) then (st, false)
    else
      match if (st.entry pindexPrev).isValid .scripts then none
          else st.failedAncestor T pindexPrev with
      | some f =>
        (st.markFailedChild ((st.chainTo T pindexPrev).takeWhile (· ≠ f)), false)
      | none => if checks.late then (st.addToBlockIndex T x, true) else (st, false)

/-! ## Data -/

/-- The blocks that wait for `x` in `mapBlocksUnlinked`. -/
def unlinkedChildren (x : UInt256) : List UInt256 :=
  (st.mapBlocksUnlinked.filter (·.1 = x)).map Prod.snd

/-- A turn of the loop of `ReceivedBlockTransactions`: the block is linked,
a candidate if it does not sort below the tip, and what waits for it is
taken from `mapBlocksUnlinked`. -/
def link (x : UInt256) : CChainState :=
  let linked := st.setEntry x
    { st.entry x with
      nChainTx := ((T.pprev x).map fun p => (st.entry p).nChainTx).getD 0 + (st.entry x).nTx
      nSequenceId := st.nBlockSequenceId }
  { linked with
    nBlockSequenceId := st.nBlockSequenceId + 1
    setBlockIndexCandidates :=
      if linked.worse T x st.tip then st.setBlockIndexCandidates
      else st.setBlockIndexCandidates.insert x
    mapBlocksUnlinked := st.mapBlocksUnlinked.filter (·.1 ≠ x) }

/-- The loop of `ReceivedBlockTransactions`, for at most `n` turns. -/
def linkQueue : ℕ → List UInt256 → CChainState → CChainState
  | 0, _, st => st
  | _ + 1, [], st => st
  | n + 1, x :: queue, st => linkQueue n (queue ++ st.unlinkedChildren x) (st.link T x)

/-- The index of a block whose data was written. -/
def receive (x : UInt256) (nTx : ℕ) : CChainState :=
  st.setEntry x (IndexEntry.raiseValidity
    { st.entry x with nTx := nTx, nChainTx := 0, haveData := true } .transactions)

/-- `ReceivedBlockTransactions`. Every turn of its loop but the first takes
a block from `mapBlocksUnlinked`. -/
def receivedBlockTransactions (x : UInt256) (nTx : ℕ) : CChainState :=
  let received := st.receive x nTx
  match T.pprev x with
  | none => linkQueue T (st.mapBlocksUnlinked.length + 1) [x] received
  | some p =>
    if (received.entry p).nChainTx ≠ 0 then
      linkQueue T (st.mapBlocksUnlinked.length + 1) [x] received
    else if (received.entry p).isValid .tree then
      { received with mapBlocksUnlinked := st.mapBlocksUnlinked ++ [(p, x)] }
    else received

end CChainState

/-- What `CheckBlock` and `ContextualCheckBlock` say of a body. -/
inductive BodyVerdict where
  | passes
  /-- The block is invalid, whatever its body is. -/
  | invalid
  /-- The body may have been changed on its way, or the check broke off. -/
  | fails
  deriving DecidableEq

/-- A block handed to `AcceptBlock`. -/
structure Arrival where
  hash : UInt256
  checks : HeaderChecks
  /-- `AcceptBlock`'s own checks, of the proof, the times and the height in
  the coinbase, but for the synchronized checkpoint. -/
  timely : Bool
  fRequested : Bool
  body : BodyVerdict
  nTx : ℕ
  /-- The check of the height reads `vtx[0]`. -/
  nTx_pos : 0 < nTx

namespace CChainState

variable (st : CChainState)

/-- Whether `AcceptBlock` goes on to process a block it does not have. -/
def wants (nMinimumChainWork : ℕ) (x : UInt256) (fRequested : Bool) : Bool :=
  fRequested || ((st.entry x).nTx == 0 &&
    decide ((st.entry st.tip).nChainWork < (st.entry x).nChainWork) &&
    decide ((st.entry x).nHeight ≤ (st.entry st.tip).nHeight + minBlocksToKeep) &&
    decide (nMinimumChainWork ≤ (st.entry x).nChainWork))

/-- `AcceptBlock`. -/
def acceptBlock (nMinimumChainWork : ℕ) (b : Arrival) : CChainState × Bool :=
  match st.acceptBlockHeader T b.hash b.checks with
  | (st, false) => (st, false)
  | (st, true) =>
    if !b.timely || !st.checkSync T (st.entry b.hash).nHeight then (st, false)
    else if (st.entry b.hash).haveData || !st.wants nMinimumChainWork b.hash b.fRequested then
      (st, true)
    else
      match b.body with
      | .invalid => (st.markFailedValid b.hash, false)
      | .fails => (st, false)
      | .passes => (st.receivedBlockTransactions T b.hash b.nTx, true)

end CChainState

end Slucore

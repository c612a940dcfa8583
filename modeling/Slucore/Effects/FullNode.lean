import Slucore.Effects.Trial
import Slucore.Validation.Activate
/-!
# Effects — the node with its receipts and indexes

`FullNode` is the node of `NodeState` together with the store of receipts
and the indexes. `ConnectTip`, `DisconnectTip` and
`TestBlockValidity` are given on it with everything they put back when the
block is rejected, and everything they do not.
-/


namespace Slucore

/-- The node between two calls, with what is shared beside the contract
state. -/
structure FullNode extends NodeState where
  results : StorageResults
  heightIndex : ℕ → Address → Option (List UInt256)
  stakeIndex : ℕ → Option Address
  addresses : AddressDB
  timestampIndex : ℕ × UInt256 → Bool
  timestampBlockIndex : UInt256 → Option ℕ

variable (H : Hashes) (L : Logging)

namespace Shared

variable (σ : Shared)

/-- The roots are set back and the map of receipts is emptied, as the
callers of `ConnectBlock` do when it fails. -/
def restore (N : Node) (old : SilubiumState) : Shared :=
  { σ with
    aal := { σ.aal with state := σ.aal.state.setRoots N old.trie.root old.stateUTXO.root }
    results := σ.results.clearCacheResult }

/-- What `DisconnectBlock` does once the coins are put back. The receipts and
the height index go only without `pfClean`. `EraseStakeIndex` looks among
the keys of the stake index for one of the height index, and erases
nothing. -/
def disconnected (block : CBlock) (nHeight : ℕ) (pfClean : Bool) (aal : AalState)
    (addresses : AddressDB) : Shared :=
  if !pfClean && L.fLogEvents then
    { σ with
      aal
      results := σ.results.deleteResults (block.vtx.map fun tx => tx.getHash H)
      heightIndex := Function.update σ.heightIndex nHeight fun _ => none
      addresses }
  else { σ with aal, addresses }

end Shared

/-- The address indexes after `DisconnectBlock`, which without `pfClean`
writes what it gathered in its loops. -/
def Shared.addressesWithout (N : Node) (block : CBlock) (pindex pprev : CBlockIndex)
    (stored : Option (List (List TxInUndo))) (view : CCoinsViewCache) (pfClean : Bool)
    (σ : Shared) : AddressDB :=
  if !pfClean && L.fAddressIndex then
    match disconnectBlockIndexed H L.extractDestination N block pindex pprev stored view σ.aal
        σ.addresses with
    | .error _ => σ.addresses
    | .ok (_, addresses) => addresses
  else σ.addresses

/-- `DisconnectBlock`, with what it leaves of what the node shares. -/
def disconnectBlockIn (N : Node) (block : CBlock) (pindex pprev : CBlockIndex)
    (stored : Option (List (List TxInUndo))) (view : CCoinsViewCache) (pfClean : Bool)
    (σ : Shared) : Shared × Except Failure Disconnected :=
  match disconnectBlock H N block pindex pprev stored view σ.aal with
  | .error f => (σ, .error f)
  | .ok d => (σ.disconnected H L block pindex.nHeight pfClean d.aal
      (σ.addressesWithout H L N block pindex pprev stored view pfClean), .ok d)

namespace FullNode

variable (g : FullNode)

/-- What the node shares. -/
def shared : Shared :=
  ⟨g.aal, g.results, g.heightIndex, g.stakeIndex, g.addresses, g.timestampIndex,
    g.timestampBlockIndex⟩

/-- The node with what it shares replaced. -/
def share (σ : Shared) : FullNode :=
  { g with aal := σ.aal, results := σ.results, heightIndex := σ.heightIndex,
           stakeIndex := σ.stakeIndex, addresses := σ.addresses,
           timestampIndex := σ.timestampIndex, timestampBlockIndex := σ.timestampBlockIndex }

/-- `ConnectTip` of a block with its index. -/
def connectTipWith (N : Node) (hash : UInt256) (block : CBlock) (pindex : CBlockIndex) :
    FullNode × Except Failure Unit :=
  match connectBlockIn H N L g.lim block pindex (g.tipIndex H) (.ofBase g.coinsTip) false
      g.shared with
  | (σ, .error f) =>
    ({ g.share (σ.restore N g.aal.state) with
        chain := if f.marksInvalid then g.chain.setIndex hash { pindex with failedValid := true }
          else g.chain
        lim := nextLimits g.lim (N.dgp g.aal.state (pindex.nHeight + 1)) }, .error f)
  | (σ, .ok c) =>
    ({ g.share σ with
        active := block :: g.active
        coinsTip := c.view.flushed
        lim := c.lim
        undo := Function.update g.undo hash
          (some ((g.undo hash).getD (writeUndo c.vtxundo))) }, .ok ())

/-- `ConnectTip`. -/
def connectTip (N : Node) (hash : UInt256) (passed : Bool) : FullNode × Except Failure Unit :=
  match g.blockToConnect H N hash passed, g.chain.mapBlockIndex hash with
  | none, _ => (g, .error (.abortNode "Failed to read block"))
  | some _, none => (g, .error (.fatal "pindexNew"))
  | some block, some pindex =>
    if block.hashPrevBlock = g.tipHash H then g.connectTipWith H L N hash block pindex
    else (g, .error (.fatal "assert(pindexNew->pprev == chainActive.Tip())"))

/-- `DisconnectTip`. What is shared has changed before the result is looked
at. -/
def disconnectTip (N : Node) : FullNode × Except Failure Unit :=
  match g.active, g.tipIndex H with
  | tip :: rest, some pindex =>
    match g.readBlockFromDisk H N (tip.getHash H), g.chain.mapBlockIndex tip.hashPrevBlock with
    | none, _ => (g, .error (.abortNode "Failed to read block"))
    | some _, none => (g, .error (.fatal "pindex->pprev"))
    | some block, some pprev =>
      match disconnectBlockIn H L N block pindex pprev (g.undo (tip.getHash H))
          (.ofBase g.coinsTip) false g.shared with
      | (_, .error (.fatal msg)) => (g, .error (.fatal msg))
      | (_, .error _) => (g, .error (.error "DisconnectTip(): DisconnectBlock failed"))
      | (σ, .ok d) =>
        if d.fClean then
          ({ g.share σ with active := rest, coinsTip := d.view.flushed }, .ok ())
        else (g.share σ, .error (.error "DisconnectTip(): DisconnectBlock failed"))
  | _, _ => (g, .error (.fatal "assert(pindexDelete)"))

/-- The index `TestBlockValidity` makes for a block on a tip. -/
def indexDummy (block : CBlock) (pindexPrev : CBlockIndex) : CBlockIndex where
  nHeight := pindexPrev.nHeight + 1
  blockHash := block.getHash H
  hashStateRoot := block.hashStateRoot
  hashUTXORoot := block.hashUTXORoot
  nMoneySupply := 0
  nTime := block.nTime
  nChainWork := 0
  nTx := 0
  haveData := false
  failedValid := false

/-- The checks of `TestBlockValidity` before it connects. -/
def checkTested (I : Intake) (block : CBlock) (pindexPrev : CBlockIndex)
    (fCheckPOW fCheckMerkleRoot : Bool) : Except Failure Unit := do
  I.contextualCheckBlockHeader H block pindexPrev
  let _ ← checkBlock H I.toNode g.lim block fCheckPOW fCheckMerkleRoot true
  I.contextualCheckBlock block

/-- `TestBlockValidity` of a block on the tip. -/
def testBlockValidity (I : Intake) (block : CBlock) (fCheckPOW fCheckMerkleRoot : Bool) :
    FullNode × Except Failure Unit :=
  match g.tipIndex H with
  | none => (g, .error (.fatal "assert(pindexPrev && pindexPrev == chainActive.Tip())"))
  | some pindexPrev =>
    match g.checkTested H I block pindexPrev fCheckPOW fCheckMerkleRoot with
    | .error f => (g, .error f)
    | .ok () =>
      let lim := nextLimits g.lim (I.dgp g.aal.state (pindexPrev.nHeight + 1 + 1))
      match connectBlockIn H I.toNode L g.lim block (indexDummy H block pindexPrev)
          (some pindexPrev) (.ofBase g.coinsTip) true g.shared with
      | (σ, .error f) => ({ g.share (σ.restore I.toNode g.aal.state) with lim }, .error f)
      | (σ, .ok _) => ({ g.share σ with lim }, .ok ())

end FullNode

end Slucore

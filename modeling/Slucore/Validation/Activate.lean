import Slucore.Validation.AcceptBlock
import Slucore.Validation.DisconnectBlock
/-!
# Validation — the node that receives blocks and activates chains

`NodeState` is what the node keeps from one call to the next: the index
and the stored bodies, the active chain, the coins and the contract state
at its tip, the limits, and the undo records. The calls are those the
network, the import of block files and `ActivateBestChain` make.

`ActivateBestChain` is a sequence of calls of `DisconnectTip` and
`ConnectTip`. Which of the candidate chains it works towards follows from
the work of the chains and the order in which they arrived; here that
choice is left open, and a connected block is only known to be one that
`FindMostWorkChain` can lead to: its body is there and it is not marked
invalid.
-/


namespace Slucore

/-- The node between two calls. -/
structure NodeState where
  /-- `mapBlockIndex` and the block files. -/
  chain : ChainState
  /-- `chainActive`, tip first, each block with the body that was connected. -/
  active : List CBlock
  /-- `pcoinsTip`. -/
  coinsTip : CCoinsView
  /-- `globalState`. -/
  aal : AalState
  lim : BlockLimits
  /-- The undo files. -/
  undo : UInt256 → Option (List (List TxInUndo))
  /-- The block `ProcessNewBlock` passes to `ActivateBestChain`. -/
  pblock : Option CBlock

variable (H : Hashes)

namespace NodeState

variable (g : NodeState)

/-- The hash of the tip; null without one. -/
def tipHash : UInt256 := (g.active.head?.map fun block => block.getHash H).getD 0

/-- The index of the tip. -/
def tipIndex : Option CBlockIndex :=
  g.active.head?.bind fun block => g.chain.mapBlockIndex (block.getHash H)

/-- `ReadBlockFromDisk`. The proof of a proof-of-stake header is not
checked, and a block read has not been checked either. -/
def readBlockFromDisk (N : Node) (hash : UInt256) : Option CBlock :=
  (g.chain.stored hash).bind fun body =>
    if (body.isProofOfStake || N.checkHeaderPoW body.toCBlockHeader) && body.getHash H == hash
    then some { body with fChecked := false }
    else none

/-- `ConnectTip` of a block with its index. A failure marks the index where
the block is known to be invalid, and the roots are set back. The limits
are those that `ConnectBlock` sets before it checks anything. -/
def connectTipWith (N : Node) (hash : UInt256) (block : CBlock) (pindex : CBlockIndex) :
    NodeState × Except Failure Unit :=
  match connectBlock H N g.lim block pindex (g.tipIndex H) (.ofBase g.coinsTip) g.aal false with
  | .error f =>
    ({ g with
        chain := if f.marksInvalid then g.chain.setIndex hash { pindex with failedValid := true }
          else g.chain
        aal := { g.aal with state := g.aal.state.setRoots N g.aal.state.trie.root
                              g.aal.state.stateUTXO.root }
        lim := nextLimits g.lim (N.dgp g.aal.state (pindex.nHeight + 1)) }, .error f)
  | .ok c =>
    ({ g with
        active := block :: g.active
        coinsTip := c.view.flushed
        aal := c.aal
        lim := c.lim
        undo := Function.update g.undo hash
          (some ((g.undo hash).getD (writeUndo c.vtxundo))) }, .ok ())

/-- The block `ConnectTip` works on: the block passed along for the tip of
the chain `ActivateBestChain` works towards, if it is that block, and
else the one on disk. -/
def blockToConnect (N : Node) (hash : UInt256) (passed : Bool) : Option CBlock :=
  (g.pblock.filter fun block => passed && block.getHash H == hash).or
    (g.readBlockFromDisk H N hash)

/-- `ConnectTip`. -/
def connectTip (N : Node) (hash : UInt256) (passed : Bool) : NodeState × Except Failure Unit :=
  match g.blockToConnect H N hash passed, g.chain.mapBlockIndex hash with
  | none, _ => (g, .error (.abortNode "Failed to read block"))
  | some _, none => (g, .error (.fatal "pindexNew"))
  | some block, some pindex =>
    if block.hashPrevBlock = g.tipHash H then g.connectTipWith H N hash block pindex
    else (g, .error (.fatal "assert(pindexNew->pprev == chainActive.Tip())"))

/-- `DisconnectTip`. The contract state takes the parent's roots before the
result is looked at. -/
def disconnectTip (N : Node) : NodeState × Except Failure Unit :=
  match g.active, g.tipIndex H with
  | tip :: rest, some pindex =>
    match g.readBlockFromDisk H N (tip.getHash H),
        g.chain.mapBlockIndex tip.hashPrevBlock with
    | none, _ => (g, .error (.abortNode "Failed to read block"))
    | some _, none => (g, .error (.fatal "pindex->pprev"))
    | some block, some pprev =>
      match disconnectBlock H N block pindex pprev (g.undo (tip.getHash H)) (.ofBase g.coinsTip)
          g.aal with
      | .error (.fatal msg) => (g, .error (.fatal msg))
      | .error _ => (g, .error (.error "DisconnectTip(): DisconnectBlock failed"))
      | .ok d =>
        if d.fClean then
          ({ g with active := rest, coinsTip := d.view.flushed, aal := d.aal }, .ok ())
        else ({ g with aal := d.aal }, .error (.error "DisconnectTip(): DisconnectBlock failed"))
  | _, _ => (g, .error (.fatal "assert(pindexDelete)"))

end NodeState

/-- The block `ProcessNewBlock` goes on to activate a chain with; `none`
when it returns before. A block of the version with its own path is
passed on whether or not it was accepted. -/
def activationBlock (I : Intake) (lim : BlockLimits) (st : ChainState) (block : CBlock)
    (fForceProcessing : Bool) : Option CBlock :=
  if block.nVersion ≠ swVersion then
    (checkBlock H I.toNode lim block true true true).toOption.filter fun block =>
      (acceptBlock H I lim st block fForceProcessing).2.toOption.isSome
  else if 10000 < I.tipHeight then
    if block.mainNodeOutput.any fun out => I.paysMainNode out.scriptPubKey then some block
    else none
  else some block

/-- The calls a node makes. -/
inductive Call where
  /-- `ProcessNewBlock`, up to the activation of the best chain. -/
  | process (I : Intake) (block : CBlock) (fForceProcessing : Bool)
  /-- `AcceptBlock`, as the import of block files calls it. -/
  | accept (I : Intake) (block : CBlock)
  | connectTip (N : Node) (hash : UInt256) (passed : Bool)
  | disconnectTip (N : Node)

/-- The node after a call, and how the call ended. -/
def Call.run (g : NodeState) : Call → NodeState × Except Failure Unit
  | .process I block fForceProcessing =>
    let (st, r) := processNewBlock H I g.lim g.chain block fForceProcessing
    ({ g with chain := st
              pblock := activationBlock H I g.lim g.chain block fForceProcessing }, r.map fun _ => ())
  | .accept I block =>
    let (st, r) := acceptBlock H I g.lim g.chain block true
    ({ g with chain := st, pblock := none }, r.map fun _ => ())
  | .connectTip N hash passed => g.connectTip H N hash passed
  | .disconnectTip N => g.disconnectTip H N

/-- A call is one `ActivateBestChain` can make: a block it connects has its
body and is not marked invalid. -/
def Call.Enabled (g : NodeState) : Call → Prop
  | .connectTip _ hash _ =>
    ∃ pindex, g.chain.mapBlockIndex hash = some pindex ∧ pindex.haveData = true ∧
      pindex.failedValid = false
  | _ => True

/-- The states a node gets into by calls that meet `P`, each in the state
it is made in. -/
inductive Run (P : NodeState → Call → Prop) (g₀ : NodeState) : NodeState → Prop
  | start : Run P g₀ g₀
  | call {g : NodeState} (call : Call) (before : Run P g₀ g) (enabled : call.Enabled g)
      (cond : P g call) : Run P g₀ (call.run H g).1

variable {H}

/-- **What every call keeps holds in every state of a run.** -/
theorem Run.induct {P : NodeState → Call → Prop} {g₀ g : NodeState} {Q : NodeState → Prop}
    (h : Run H P g₀ g) (hstart : Q g₀)
    (hstep : ∀ g call, call.Enabled g → P g call → Q g → Q (call.run H g).1) : Q g := by
  induction h with
  | start => exact hstart
  | call call before enabled cond ih => exact hstep _ call enabled cond ih

end Slucore

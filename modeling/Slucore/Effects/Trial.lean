import Slucore.Aal.Attempt
import Slucore.Common.Failures
import Slucore.Effects.Results
import Slucore.Store.AddressIndex
/-!
# Effects — what a connection changes for good

`ConnectBlock` works on a view that is dropped when it fails, but it also
changes what the node shares: the contract state, which every executed
transaction commits to, the store of receipts, and the indexes of
`CBlockTreeDB`. Here the function is given with these, at every exit: the
loop over the transactions is `tryTx`, whose failures carry the state they
leave, and `connectBlockIn` is the whole. Its verdict is that of
`connectBlock` on the node with this stake index (`connectBlockIn_eq_ok`).
-/


namespace Slucore

open ByteCodeExec BlockContext

/-- The settings about logs and indexes, and what is read off an execution
and a block for them. -/
structure Logging where
  fLogEvents : Bool
  fAddressIndex : Bool
  /-- `txRec.log()` of each of the outputs executed. -/
  logsOf : AalState → EnvInfo → List SilubiumTransaction → List (List LogEntry)
  /-- The address of the key of `GetBlockPublicKey`; null without one. -/
  stakeAddress : CBlock → Address
  extractDestination : Extractor

/-- What the node shares between calls and `ConnectBlock` changes. -/
structure Shared where
  /-- `globalState` and the seal engine's `deleteAddresses`. -/
  aal : AalState
  /-- `pstorageresult`. -/
  results : StorageResults
  /-- `DB_HEIGHTINDEX`: for a height and an address, the transactions that
  logged. -/
  heightIndex : ℕ → Address → Option (List UInt256)
  /-- `DB_STAKEINDEX`. -/
  stakeIndex : ℕ → Option Address
  /-- The indexes of addresses and of spent outputs. -/
  addresses : AddressDB
  /-- `DB_TIMESTAMPINDEX`: the blocks by their logical time. -/
  timestampIndex : ℕ × UInt256 → Bool
  /-- `DB_BLOCKHASHINDEX`: the logical time of a block. -/
  timestampBlockIndex : UInt256 → Option ℕ

/-- The loop of `ConnectBlock` with its receipts. -/
structure Trial extends ConnectState where
  results : StorageResults
  countCumulativeGasUsed : ℕ
  /-- `heightIndexes`, by address. -/
  heightIndexes : Address → Option (List UInt256)

namespace Trial

variable (t : Trial)

/-- A part of the loop that changes nothing shared. -/
def lift (x : Except Failure ConnectState) : Except (Failure × Trial) Trial :=
  match x with
  | .ok s => .ok { t with toConnectState := s }
  | .error f => .error (f, t)

/-- The part of the loop before the contracts. -/
def checkTx (N : Node) (C : BlockContext) (tx : CTransaction) (s : ConnectState) :
    Except Failure ConnectState := do
  let s ← C.chargeFee N tx s
  let s ← C.countSigOps N tx s
  let s ← BlockContext.verifyInputs N tx s
  BlockContext.countValues tx s

/-- The entries of the height index for one transaction: its hash for each
of its logs. -/
def indexLogs (txid : UInt256) (logs : List LogEntry)
    (heightIndexes : Address → Option (List UInt256)) : Address → Option (List UInt256) :=
  logs.foldl (fun m log => Function.update m log.address
    (some ((m log.address).getD [] ++ [txid]))) heightIndexes

end Trial

section Receipts

variable (H : Hashes) (L : Logging) (C : BlockContext)

/-- The receipts of one transaction, one for each of its outputs. -/
def receiptsOf (tx : CTransaction) (i : ℕ) (txs : List SilubiumTransaction)
    (results : List ResultExecute) (logs : List (List LogEntry)) (countCumulativeGasUsed : ℕ) :
    List TransactionReceiptInfo :=
  (txs.zip (results.zip logs)).map fun q => {
    blockHash := C.block.getHash H
    blockNumber := C.nHeight % 2 ^ 32
    transactionHash := tx.getHash H
    transactionIndex := i % 2 ^ 32
    sender := q.1.sender
    receiver := q.1.receiveAddress
    cumulativeGasUsed := countCumulativeGasUsed
    gasUsed := q.2.1.gasUsed.toNat % 2 ^ 64
    contractAddress := q.2.1.newAddress
    logs := q.2.2
    excepted := q.2.1.excepted }

/-- The receipts join the store, and their logs the index, when events are
logged and the block is not merely checked. -/
def Trial.record (fJustCheck : Bool) (tx : CTransaction) (i : ℕ) (txs : List SilubiumTransaction)
    (results : List ResultExecute) (logs : List (List LogEntry)) (t : Trial) : Trial :=
  if L.fLogEvents && !fJustCheck then
    { t with
      results := t.results.addResult (tx.getHash H)
        (receiptsOf H C tx i txs results logs t.countCumulativeGasUsed)
      heightIndexes := Trial.indexLogs (tx.getHash H) (logs.take txs.length).flatten
        t.heightIndexes }
  else t

end Receipts

section Loop

variable (H : Hashes) (N : Node) (L : Logging) (C : BlockContext) (fJustCheck : Bool)

/-- What is made of the results of a transaction: they are recorded, and
their gas is added up. -/
def Trial.settle (tx : CTransaction) (i : ℕ) (txs : List SilubiumTransaction)
    (results : List ResultExecute) (bcer : ByteCodeExecResult) (w : AalState) (t : Trial) :
    Except (Failure × Trial) Trial :=
  let u := Trial.record H L C fJustCheck tx i txs results
    (L.logsOf t.aal (C.buildEVMEnvironment N) txs)
    { t with
      aal := w
      countCumulativeGasUsed := (t.countCumulativeGasUsed + bcer.usedGas) % 2 ^ 64 }
  let blockGasUsed := (t.blockGasUsed + bcer.usedGas) % 2 ^ 64
  if blockGasUsed ≤ C.dgp.blockGasLimit then
    .ok { u with
      blockGasUsed
      gasRefunds := bcer.refundOutputs.foldl (fun g out => wrap64 (g + out.nValue)) t.gasRefunds
      checkVouts := t.checkVouts ++ bcer.refundOutputs
      checkVtx := (if tx.hasOpSpend then t.checkVtx else t.checkVtx ++ [tx]) ++
        bcer.valueTransfers }
  else .error (.dos 1000 "bad-blk-gaslimit", u)

/-- The contracts of a transaction that has some. -/
def Trial.execute (tx : CTransaction) (i : ℕ) (txs : List SilubiumTransaction) (t : Trial) :
    Except (Failure × Trial) Trial :=
  match ByteCodeExec.tryByteCode H C.aalEnv N.vm N.tipHeight .committed (C.buildEVMEnvironment N)
      txs t.aal with
  | none => .error (.fatal "SilubiumState::execute", t)
  | some (w, none) => .error (.dos 100 "bad-tx-unknown-error", { t with aal := w })
  | some (w, some results) =>
    match ByteCodeExec.processingResults H txs results with
    | none => .error (.dos 100 "bad-vm-exec-processing", { t with aal := w })
    | some bcer => t.settle H N L C fJustCheck tx i txs results bcer w

/-- The contracts of a transaction, if it has any. -/
def Trial.runContracts (tx : CTransaction) (i : ℕ) (t : Trial) : Except (Failure × Trial) Trial :=
  if tx.hasCreateOrCall && !tx.hasOpSpend then
    match C.checkContracts N tx t.toConnectState with
    | .error f => .error (f, t)
    | .ok txs => t.execute H N L C fJustCheck tx i txs
  else .ok { t with checkVtx := if tx.hasOpSpend then t.checkVtx else t.checkVtx ++ [tx] }

/-- One turn of the loop of `ConnectBlock`, with what it leaves when it
fails. -/
def tryTx (t : Trial) (p : CTransaction × ℕ) : Except (Failure × Trial) Trial := do
  let t ← t.lift (Trial.checkTx N C p.1 t.toConnectState)
  let t ← t.runContracts H N L C fJustCheck p.1 p.2
  t.lift (C.applyCoins H p.1 t.toConnectState p.2)

end Loop

/-! ## The whole function -/

section Whole

variable (H : Hashes) (N : Node) (L : Logging)

namespace Shared

variable (σ : Shared)

/-- What is shared after a loop that was left with `t`. -/
def leave (t : Trial) : Shared := { σ with aal := t.aal, results := t.results }

/-- The loop before its first turn. -/
def start (view : CCoinsViewCache) : Trial :=
  { ConnectState.start view σ.aal with
    results := σ.results, countCumulativeGasUsed := 0, heightIndexes := fun _ => none }

/-- The node, whose stake index is the one that is shared. -/
def node : Node :=
  { N with stakes := { N.stakes with readStakeIndex := fun nHeight => σ.stakeIndex nHeight.toNat } }

/-- The logical time of a block: its own, or the next after that of its
parent, in 32-bit arithmetic. -/
def logicalTS (pindex pprev : CBlockIndex) : ℕ :=
  let prevLogicalTS := (σ.timestampBlockIndex pprev.blockHash).getD 0
  if pindex.nTime ≤ prevLogicalTS then (prevLogicalTS + 1) % 2 ^ 32 else pindex.nTime

/-- What is written with `fAddressIndex`. -/
def writeAddresses (block : CBlock) (pindex pprev : CBlockIndex) (view : CCoinsViewCache) :
    Shared :=
  if L.fAddressIndex then
    { σ with
      addresses := σ.addresses.writeConnected (gather (connectVectors L.extractDestination)
        (indexedBlock H L.extractDestination pindex.nHeight view block.vtx 0))
      timestampIndex :=
        Function.update σ.timestampIndex (σ.logicalTS pindex pprev, pindex.blockHash) true
      timestampBlockIndex := Function.update σ.timestampBlockIndex pindex.blockHash
        (some (σ.logicalTS pindex pprev)) }
  else σ

/-- What is written once a block is connected: the indexes, and the
receipts. -/
def write (block : CBlock) (pindex pprev : CBlockIndex) (view : CCoinsViewCache) (t : Trial) :
    Shared :=
  { σ.writeAddresses H L block pindex pprev view with
    aal := t.aal
    results := if L.fLogEvents then t.results.commitResults else t.results
    heightIndex := if L.fLogEvents then Function.update σ.heightIndex pindex.nHeight fun a =>
        (t.heightIndexes a).or (σ.heightIndex pindex.nHeight a)
      else σ.heightIndex
    stakeIndex := Function.update σ.stakeIndex pindex.nHeight (some (L.stakeAddress block)) }

end Shared

/-- The loop of `ConnectBlock`. -/
def tryTransactions (C : BlockContext) (fJustCheck : Bool) (view : CCoinsViewCache) (σ : Shared) :
    Except (Failure × Trial) Trial :=
  C.block.vtx.zipIdx.foldlM (tryTx H N L C fJustCheck) (σ.start view)

/-- `ConnectBlock` after the loop. `CheckReward` reads the stake index that
is shared. -/
def finishIn (lim : BlockLimits) (block : CBlock) (pindex pprev : CBlockIndex)
    (view : CCoinsViewCache) (fJustCheck : Bool) (σ : Shared) (t : Trial) :
    Shared × Except Failure Connected :=
  match checkConnected H (σ.node N) block pindex.nHeight t.toConnectState fJustCheck with
  | .error f => (σ.leave t, .error f)
  | .ok () =>
    if fJustCheck then
      ({ σ.leave t with aal := revertRoots N pprev t.aal },
        .ok ⟨t.view, revertRoots N pprev t.aal, lim, [], pindex.nMoneySupply⟩)
    else if N.writeUndoDataForBlock block then
      if N.writeIndexes block then
        (σ.write H L block pindex pprev view t,
          .ok ⟨t.view.setBestBlock pindex.blockHash, t.aal, lim, t.vtxundo,
            ((pprev.nMoneySupply + t.nValueOut - t.nValueIn : ℤ) % 2 ^ 64).toNat⟩)
      else (σ.leave t, .error (.abortNode "Failed to write index"))
    else (σ.leave t, .error (.error "WriteUndoDataForBlock"))

/-- `ConnectBlock` of a block that is not the genesis block. -/
def connectBodyIn (lim : BlockLimits) (block : CBlock) (pindex pprev : CBlockIndex)
    (view : CCoinsViewCache) (fJustCheck : Bool) (σ : Shared) :
    Shared × Except Failure Connected :=
  match checkBIP30 H block pindex.nHeight view with
  | .error f => (σ, .error f)
  | .ok () =>
    match tryTransactions H N L (blockContext N lim block pindex.nHeight pprev σ.aal) fJustCheck
        view σ with
    | .error (f, t) => (σ.leave t, .error f)
    | .ok t => finishIn H N L lim block pindex pprev view fJustCheck σ t

/-- `ConnectBlock`, with what it leaves of what the node shares. -/
def connectBlockIn (lim : BlockLimits) (block : CBlock) (pindex : CBlockIndex)
    (pprev : Option CBlockIndex) (view : CCoinsViewCache) (fJustCheck : Bool) (σ : Shared) :
    Shared × Except Failure Connected :=
  let lim := nextLimits lim (N.dgp σ.aal.state (pindex.nHeight + 1))
  match connectPrelude H N lim block pindex pprev view fJustCheck with
  | .error f => (σ, .error f)
  | .ok () =>
    if block.getHash H = N.consensus.hashGenesisBlock then
      (σ, .ok ⟨if fJustCheck then view else view.setBestBlock pindex.blockHash, σ.aal, lim, [],
        pindex.nMoneySupply⟩)
    else
      match updateHashProof N block pindex.nHeight view, pprev with
      | .error f, _ => (σ, .error f)
      | .ok (), none => (σ, .error (.fatal "assert(pindex->pprev)"))
      | .ok (), some pprev => connectBodyIn H N L lim block pindex pprev view fJustCheck σ

end Whole

/-! ## The verdict is that of `connectBlock` -/

section Verdict

variable {H : Hashes} {N : Node} {L : Logging} {C : BlockContext} {fJustCheck : Bool}
variable {t t' : Trial} {s s' : ConnectState} {σ : Shared}

theorem Trial.lift_eq_ok {x : Except Failure ConnectState} :
    t.lift x = .ok t' ↔ ∃ s, x = .ok s ∧ t' = { t with toConnectState := s } := by
  unfold Trial.lift
  cases x with
  | error f => simp
  | ok s => simp [eq_comm]

variable {tx : CTransaction} {i : ℕ} {txs : List SilubiumTransaction}

/-- The record changes the store and the index only. -/
@[simp] theorem Trial.record_toConnectState
    {results : List ResultExecute} {logs : List (List LogEntry)} :
    (Trial.record H L C fJustCheck tx i txs results logs t).toConnectState = t.toConnectState := by
  unfold Trial.record
  split <;> rfl

theorem Trial.toOption_lift {x : Except Failure ConnectState} :
    (t.lift x).toOption.map toConnectState = x.toOption := by
  cases x <;> rfl

/-- **The contracts of a transaction succeed as in the plain model.** -/
theorem Trial.toOption_runContracts :
    (t.runContracts H N L C fJustCheck tx i).toOption.map toConnectState =
      (C.runContracts H N tx t.toConnectState).toOption := by
  unfold Trial.runContracts BlockContext.runContracts
  split
  · cases C.checkContracts N tx t.toConnectState with
    | error f => rfl
    | ok txs =>
      simp only [ok_bind, Trial.execute, executeContracts,
        performByteCode_eq]
      rcases tryByteCode H C.aalEnv N.vm N.tipHeight .committed
        (C.buildEVMEnvironment N) txs t.aal with - | ⟨w, - | results⟩
      · rfl
      · rfl
      simp only [Option.bind_some, Option.map_some, orThrow, ok_bind]
      cases processingResults H txs results with
      | none => rfl
      | some bcer =>
        simp only [Trial.settle, require, ok_bind, pure_bind, decide_eq_true_eq]
        split
        · unfold Trial.record
          split <;> rfl
        · rfl
  · rfl

/-- **One turn succeeds as in the plain model.** -/
theorem toOption_tryTx (p : CTransaction × ℕ) :
    (tryTx H N L C fJustCheck t p).toOption.map Trial.toConnectState =
      (C.connectTx H N t.toConnectState p).toOption := by
  have hplain : C.connectTx H N t.toConnectState p = Trial.checkTx N C p.1 t.toConnectState >>=
      fun s => C.runContracts H N p.1 s >>= fun s => C.applyCoins H p.1 s p.2 := by
    simp [connectTx, Trial.checkTx]
  rw [hplain]
  exact toOption_bind Trial.toOption_lift fun t =>
    toOption_bind Trial.toOption_runContracts fun t => Trial.toOption_lift

variable {view : CCoinsViewCache}

/-- **The loop succeeds as in the plain model.** -/
theorem toOption_tryTransactions :
    (tryTransactions H N L C fJustCheck view σ).toOption.map Trial.toConnectState =
      (connectTransactions H N C view σ.aal).toOption :=
  toOption_foldlM (fun _ => toOption_tryTx) _ _

variable {lim : BlockLimits} {block : CBlock} {pindex : CBlockIndex} {c : Connected}

/-- The end of `ConnectBlock`, as the plain model has it. -/
theorem finishIn_eq_ok {pprev : CBlockIndex} :
    (finishIn H N L lim block pindex pprev view fJustCheck σ t).2 = .ok c ↔
      checkConnected H (σ.node N) block pindex.nHeight t.toConnectState fJustCheck = .ok () ∧
        if fJustCheck then
          Connected.mk t.view (revertRoots N pprev t.aal) lim [] pindex.nMoneySupply = c
        else
          N.writeUndoDataForBlock block = true ∧ N.writeIndexes block = true ∧
            Connected.mk (t.view.setBestBlock pindex.blockHash) t.aal lim t.vtxundo
              ((pprev.nMoneySupply + t.nValueOut - t.nValueIn : ℤ) % 2 ^ 64).toNat = c := by
  unfold finishIn
  cases checkConnected H (σ.node N) block pindex.nHeight t.toConnectState fJustCheck with
  | error f => simp
  | ok u =>
    cases fJustCheck with
    | true => simp
    | false =>
      by_cases hundo : N.writeUndoDataForBlock block = true <;>
        by_cases hindex : N.writeIndexes block = true <;> simp [hundo, hindex]

/-- The loop does not read the stake index. -/
theorem connectTransactions_node {w : AalState} :
    connectTransactions H (σ.node N) C view w = connectTransactions H N C view w := rfl

theorem blockContext_node {pprev : CBlockIndex} {nHeight : ℕ} : blockContext (σ.node N) lim block
    nHeight pprev σ.aal = blockContext N lim block nHeight pprev σ.aal := rfl

/-- `ConnectBlock` of a block that is not the genesis block. -/
theorem connectBodyIn_eq_ok {pprev : CBlockIndex} :
    (connectBodyIn H N L lim block pindex pprev view fJustCheck σ).2 = .ok c ↔
      connectBody H (σ.node N) lim block pindex pprev view σ.aal fJustCheck = .ok c := by
  unfold connectBodyIn connectBody
  rw [blockContext_node, connectTransactions_node]
  cases checkBIP30 H block pindex.nHeight view with
  | error f => simp
  | ok u =>
    have hloop := @toOption_tryTransactions H N L
      (blockContext N lim block pindex.nHeight pprev σ.aal) fJustCheck σ view
    cases htry : tryTransactions H N L (blockContext N lim block pindex.nHeight pprev σ.aal)
      fJustCheck view σ with
    | error q =>
      rw [htry] at hloop
      cases hplain : connectTransactions H N (blockContext N lim block pindex.nHeight pprev σ.aal)
        view σ.aal with
      | error f => simp
      | ok s =>
        rw [hplain] at hloop
        cases hloop
    | ok t =>
      rw [htry] at hloop
      rw [eq_ok_of_toOption hloop.symm, ok_bind, ok_bind, finishIn_eq_ok]
      cases fJustCheck with
      | false =>
        simp only [Bool.false_eq_true, if_false, bind_eq_ok, require_eq_ok, pure_eq_ok,
          Unique.exists_iff]
        exact Iff.rfl
      | true =>
        simp only [if_true, bind_eq_ok, pure_eq_ok, Unique.exists_iff]
        exact Iff.rfl

variable {pprev : Option CBlockIndex}

/-- **The verdict with every exit is that of the plain model**, on the node
with the stake index that is shared. Of the stores that connecting a block
writes no other is read. -/
theorem connectBlockIn_eq_ok :
    (connectBlockIn H N L lim block pindex pprev view fJustCheck σ).2 = .ok c ↔
      connectBlock H (σ.node N) lim block pindex pprev view σ.aal fJustCheck = .ok c := by
  have hprelude : connectPrelude H (σ.node N) = connectPrelude H N := rfl
  have hproof : updateHashProof (σ.node N) = updateHashProof N := rfl
  have hdgp : (σ.node N).dgp = N.dgp := rfl
  have hconsensus : (σ.node N).consensus = N.consensus := rfl
  simp only [connectBlockIn, connectBlock, hprelude, hproof, hdgp, hconsensus]
  cases connectPrelude H N (nextLimits lim (N.dgp σ.aal.state (pindex.nHeight + 1))) block pindex
      pprev view fJustCheck with
  | error f => simp
  | ok u =>
    by_cases hgenesis : block.getHash H = N.consensus.hashGenesisBlock
    · simp only [if_pos hgenesis]
      exact Iff.rfl
    simp only [if_neg hgenesis]
    cases updateHashProof N block pindex.nHeight view with
    | error f => simp
    | ok u =>
      cases pprev with
      | none => simp
      | some pprev =>
        exact connectBodyIn_eq_ok

/-- What a block that was connected has left of what the node shares. -/
def Shared.after (σ : Shared) (H : Hashes) (N : Node) (L : Logging) (block : CBlock)
    (pindex pprev : CBlockIndex) (view : CCoinsViewCache) (fJustCheck : Bool) (t : Trial) :
    Shared :=
  if fJustCheck then { σ.leave t with aal := revertRoots N pprev t.aal }
  else σ.write H L block pindex pprev view t

/-- What comes after the loop leaves what the loop left, or succeeds. -/
theorem finishIn_cases {p : CBlockIndex} :
    (∃ f, finishIn H N L lim block pindex p view fJustCheck σ t = (σ.leave t, .error f)) ∨
      ∃ c, finishIn H N L lim block pindex p view fJustCheck σ t =
        (σ.after H N L block pindex p view fJustCheck t, .ok c) := by
  unfold finishIn Shared.after
  cases checkConnected H (σ.node N) block pindex.nHeight t.toConnectState fJustCheck with
  | error f => exact .inl ⟨f, rfl⟩
  | ok u =>
    cases fJustCheck with
    | true => exact .inr ⟨_, rfl⟩
    | false =>
      by_cases hundo : N.writeUndoDataForBlock block = true <;>
        by_cases hindex : N.writeIndexes block = true <;> simp [hundo, hindex]

/-- **The exits of `ConnectBlock`**: before the loop nothing is changed, nor by
the genesis block; and otherwise it leaves what the loop left, or succeeds. -/
theorem connectBlockIn_cases :
    (∃ r, connectBlockIn H N L lim block pindex pprev view fJustCheck σ = (σ, r) ∧
      ∀ c, r = .ok c → block.getHash H = N.consensus.hashGenesisBlock) ∨
    ∃ p x, pprev = some p ∧ block.getHash H ≠ N.consensus.hashGenesisBlock ∧
      tryTransactions H N L (blockContext N
        (nextLimits lim (N.dgp σ.aal.state (pindex.nHeight + 1))) block pindex.nHeight p σ.aal)
        fJustCheck view σ = x ∧
      ((∃ t f, (∀ P, Leaves P x → P t) ∧
        connectBlockIn H N L lim block pindex pprev view fJustCheck σ = (σ.leave t, .error f)) ∨
      ∃ t c, x = .ok t ∧
        connectBlockIn H N L lim block pindex pprev view fJustCheck σ =
          (σ.after H N L block pindex p view fJustCheck t, .ok c)) := by
  simp only [connectBlockIn]
  cases connectPrelude H N (nextLimits lim (N.dgp σ.aal.state (pindex.nHeight + 1))) block pindex
      pprev view fJustCheck with
  | error f => exact .inl ⟨_, rfl, nofun⟩
  | ok u =>
    by_cases hgenesis : block.getHash H = N.consensus.hashGenesisBlock
    · exact .inl ⟨_, if_pos hgenesis, fun _ _ => hgenesis⟩
    simp only [if_neg hgenesis]
    cases updateHashProof N block pindex.nHeight view with
    | error f => exact .inl ⟨_, rfl, nofun⟩
    | ok u =>
      cases pprev with
      | none => exact .inl ⟨_, rfl, nofun⟩
      | some p =>
        unfold connectBodyIn
        cases checkBIP30 H block pindex.nHeight view with
        | error f => exact .inl ⟨_, rfl, nofun⟩
        | ok u =>
          refine .inr ⟨p, _, rfl, hgenesis, rfl, ?_⟩
          dsimp only
          cases tryTransactions H N L (blockContext N
              (nextLimits lim (N.dgp σ.aal.state (pindex.nHeight + 1))) block pindex.nHeight p
              σ.aal) fJustCheck view σ with
          | error q => exact .inl ⟨q.2, q.1, fun P h => h, rfl⟩
          | ok t =>
            rcases finishIn_cases with ⟨f, h⟩ | ⟨c, h⟩
            · exact .inl ⟨t, f, fun P h => h, h⟩
            · exact .inr ⟨t, c, rfl, h⟩

/-- **What a success is**: the genesis block changes nothing, and any other
block went through the loop and left what `Shared.after` says. -/
theorem connectBlockIn_ok
    (h : (connectBlockIn H N L lim block pindex pprev view fJustCheck σ).2 = .ok c) :
    (block.getHash H = N.consensus.hashGenesisBlock ∧
      (connectBlockIn H N L lim block pindex pprev view fJustCheck σ).1 = σ) ∨
    ∃ p t, pprev = some p ∧ block.getHash H ≠ N.consensus.hashGenesisBlock ∧
      tryTransactions H N L (blockContext N
        (nextLimits lim (N.dgp σ.aal.state (pindex.nHeight + 1))) block pindex.nHeight p σ.aal)
        fJustCheck view σ = .ok t ∧
      (connectBlockIn H N L lim block pindex pprev view fJustCheck σ).1 =
        σ.after H N L block pindex p view fJustCheck t := by
  rcases connectBlockIn_cases with ⟨r, heq, hgenesis⟩ | ⟨p, x, hp, hgenesis, hx, hexit⟩
  · rw [heq] at h ⊢
    exact .inl ⟨hgenesis c h, rfl⟩
  rcases hexit with ⟨t, f, -, heq⟩ | ⟨t, c', rfl, heq⟩
  · rw [heq] at h
    cases h
  · exact .inr ⟨p, t, hp, hgenesis, hx, by rw [heq]⟩

end Verdict

end Slucore

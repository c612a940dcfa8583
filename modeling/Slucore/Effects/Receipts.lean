import Slucore.Common.Reach
import Slucore.Effects.NoTrace
import Slucore.Common.Layers
/-!
# Effects — receipts and the active chain

The receipts of a block are those its connection puts into an empty store,
and its log entries those the connection collects. Whatever the store
held, connecting a block adds these and nothing else
(`tryTransactions_overlay`). The store of a node is then an index written
by layers, a layer for each block of the active chain, and so is the height
index.
-/


namespace Slucore

open List Option Function Trial StorageResults ByteCodeExec

/-! ## What a connection adds to the store -/

/-- The loop on top of a store. -/
def Trial.overlay (r : StorageResults) (t : Trial) : Trial :=
  { t with results := ⟨fun hash => (r.cache hash).or (t.results.cache hash), r.db⟩ }

section Overlay

variable {H : Hashes} {N : Node} {L : Logging} {C : BlockContext} {fJustCheck : Bool}
variable {r : StorageResults} {t : Trial} {tx : CTransaction} {i : ℕ}

theorem Trial.lift_overlay {x : Except Failure ConnectState} :
    (t.overlay r).lift x = mapState (Trial.overlay r) (t.lift x) := by
  cases x <;> rfl

variable {txs : List SilubiumTransaction} {rs : List ResultExecute}

theorem Trial.record_overlay {logs : List (List LogEntry)} :
    Trial.record H L C fJustCheck tx i txs rs logs (t.overlay r) =
      (Trial.record H L C fJustCheck tx i txs rs logs t).overlay r := by
  unfold Trial.record
  by_cases h : (L.fLogEvents && !fJustCheck) = true
  · rw [if_pos h, if_pos h]
    simp only [Trial.overlay, addResult]
    congr 2
    funext hash
    by_cases hh : hash = tx.getHash H
    · subst hh
      simp
    · simp [update_of_ne hh]
  · rw [if_neg h, if_neg h]

theorem Trial.settle_overlay {bcer : ByteCodeExecResult} {w : AalState} :
    (t.overlay r).settle H N L C fJustCheck tx i txs rs bcer w =
      mapState (Trial.overlay r) (t.settle H N L C fJustCheck tx i txs rs bcer w) := by
  let u : Trial := { t with
    aal := w
    countCumulativeGasUsed := (t.countCumulativeGasUsed + bcer.usedGas) % 2 ^ 64 }
  have hrecord : Trial.record H L C fJustCheck tx i txs rs
      (L.logsOf t.aal (C.buildEVMEnvironment N) txs) (u.overlay r) =
      (Trial.record H L C fJustCheck tx i txs rs (L.logsOf t.aal (C.buildEVMEnvironment N) txs)
        u).overlay r := record_overlay
  simp only [Trial.settle]
  by_cases hgas : (t.blockGasUsed + bcer.usedGas) % 2 ^ 64 ≤ C.dgp.blockGasLimit
  · rw [if_pos hgas,
      if_pos (show ((t.overlay r).blockGasUsed + bcer.usedGas) % 2 ^ 64 ≤ _ from hgas)]
    congr 1
    exact congrArg (fun u : Trial => { u with
      blockGasUsed := (t.blockGasUsed + bcer.usedGas) % 2 ^ 64
      gasRefunds :=
        bcer.refundOutputs.foldl (fun g (out : CTxOut) => wrap64 (g + out.nValue)) t.gasRefunds
      checkVouts := t.checkVouts ++ bcer.refundOutputs
      checkVtx := (if tx.hasOpSpend then t.checkVtx else t.checkVtx ++ [tx]) ++
        bcer.valueTransfers }) hrecord
  · rw [if_neg hgas,
      if_neg (show ¬ ((t.overlay r).blockGasUsed + bcer.usedGas) % 2 ^ 64 ≤ _ from hgas)]
    exact congrArg (fun u => Except.error (Failure.dos 1000 "bad-blk-gaslimit", u)) hrecord

theorem Trial.execute_overlay :
    (t.overlay r).execute H N L C fJustCheck tx i txs =
      mapState (Trial.overlay r) (t.execute H N L C fJustCheck tx i txs) := by
  unfold Trial.execute
  rw [show (t.overlay r).aal = t.aal from rfl]
  rcases tryByteCode H C.aalEnv N.vm N.tipHeight .committed
    (C.buildEVMEnvironment N) txs t.aal with - | ⟨w, - | rs⟩
  · rfl
  · rfl
  cases hbcer : processingResults H txs rs with
  | none =>
    simp only [hbcer]
    rfl
  | some bcer =>
    simp only [hbcer]
    exact settle_overlay

/-- **One turn does not read the store.** -/
theorem tryTx_overlay {p : CTransaction × ℕ} :
    tryTx H N L C fJustCheck (t.overlay r) p =
      mapState (Trial.overlay r) (tryTx H N L C fJustCheck t p) := by
  unfold tryTx
  rw [lift_overlay]
  refine mapState_bind fun u => ?_
  have hrun : (u.overlay r).runContracts H N L C fJustCheck p.1 p.2 =
      mapState (Trial.overlay r) (u.runContracts H N L C fJustCheck p.1 p.2) := by
    unfold Trial.runContracts
    rw [show (u.overlay r).toConnectState = u.toConnectState from rfl]
    by_cases hcontract : (p.1.hasCreateOrCall && !p.1.hasOpSpend) = true
    · rw [if_pos hcontract, if_pos hcontract]
      cases C.checkContracts N p.1 u.toConnectState with
      | error f => rfl
      | ok txs => exact execute_overlay
    · rw [if_neg hcontract, if_neg hcontract]
      rfl
  rw [hrun]
  exact mapState_bind fun v => lift_overlay

/-- The store with nothing in it. -/
def StorageResults.empty : StorageResults := ⟨fun _ => none, fun _ => none⟩

/-- **The loop on any store is the loop on an empty one, on top of it.** -/
theorem tryTransactions_overlay {view : CCoinsViewCache} {σ : Shared} :
    tryTransactions H N L C fJustCheck view σ =
      mapState (Trial.overlay σ.results)
        (tryTransactions H N L C fJustCheck view { σ with results := .empty }) := by
  have hstart : σ.start view =
      (({ σ with results := .empty } : Shared).start view).overlay σ.results := by
    unfold Shared.start Trial.overlay empty
    simp
  unfold tryTransactions
  rw [hstart]
  exact mapState_foldlM (fun _ _ => tryTx_overlay) _ _

end Overlay

/-! ## The receipts of a block -/

/-- A receipt names the block, its height, and the transaction with its
place. -/
structure TransactionReceiptInfo.Names (H : Hashes) (block : CBlock) (nHeight : ℕ)
    (p : CTransaction × ℕ) (r : TransactionReceiptInfo) : Prop where
  blockHash : r.blockHash = block.getHash H
  blockNumber : r.blockNumber = nHeight % 2 ^ 32
  transactionHash : r.transactionHash = p.1.getHash H
  transactionIndex : r.transactionIndex = p.2 % 2 ^ 32

section Names

variable {H : Hashes} {N : Node} {L : Logging} {C : BlockContext} {fJustCheck : Bool}
variable {t t' : Trial}

theorem receiptsOf_names {tx : CTransaction} {i : ℕ} {txs : List SilubiumTransaction}
    {results : List ResultExecute} {logs : List (List LogEntry)} {gas : ℕ} :
    ∀ r ∈ receiptsOf H C tx i txs results logs gas, r.Names H C.block C.nHeight (tx, i) := by
  intro r hr
  obtain ⟨q, -, rfl⟩ := List.mem_map.1 hr
  exact ⟨rfl, rfl, rfl, rfl⟩

variable {p : CTransaction × ℕ}

/-- What one turn adds to the store: nothing, or with events logged the
receipts of its transaction. -/
theorem tryTx_results (h : tryTx H N L C fJustCheck t p = .ok t') :
    (t'.results = t.results ∧ t'.heightIndexes = t.heightIndexes) ∨
      L.fLogEvents = true ∧ ∃ rs, t'.results = t.results.addResult (p.1.getHash H) rs ∧
        ∀ r ∈ rs, r.Names H C.block C.nHeight p := by
  simp only [tryTx, bind_eq_ok, lift_eq_ok] at h
  obtain ⟨u, ⟨s, -, hu⟩, v, hrun, s', -, ht'⟩ := h
  have hv : t'.results = v.results ∧ t'.heightIndexes = v.heightIndexes := by
    rw [ht']
    exact ⟨rfl, rfl⟩
  have ht : u.results = t.results ∧ u.heightIndexes = t.heightIndexes := by
    rw [hu]
    exact ⟨rfl, rfl⟩
  rw [hv.1, hv.2, ← ht.1, ← ht.2]
  unfold Trial.runContracts at hrun
  split at hrun
  · cases hchecked : C.checkContracts N p.1 u.toConnectState with
    | error f => simp [hchecked] at hrun
    | ok txs =>
      simp only [hchecked, Trial.execute] at hrun
      split at hrun
      · cases hrun
      · cases hrun
      rename_i w results hexec
      split at hrun
      · cases hrun
      simp only [Trial.settle] at hrun
      split at hrun
      · have hresults := congrArg Trial.results (Except.ok.inj hrun)
        have hindexes := congrArg Trial.heightIndexes (Except.ok.inj hrun)
        rw [← hresults, ← hindexes]
        simp only [Trial.record]
        by_cases hlog : (L.fLogEvents && !fJustCheck) = true
        · rw [if_pos hlog]
          exact .inr ⟨(Bool.and_eq_true_iff.1 hlog).1, _, rfl, receiptsOf_names⟩
        · rw [if_neg hlog]
          exact .inl ⟨rfl, rfl⟩
      · cases hrun
  · obtain ⟨⟩ := hrun
    exact .inl ⟨rfl, rfl⟩

/-- A list of receipts after a turn was there before, or is that of the
transaction. -/
theorem tryTx_cache {t' : Trial} (h : tryTx H N L C fJustCheck t p = .ok t') {txid : UInt256}
    {rs : List TransactionReceiptInfo} (hrs : t'.results.cache txid = some rs) :
    t.results.cache txid = some rs ∨ p.1.getHash H = txid ∧
      ∀ r ∈ rs, r.Names H C.block C.nHeight p := by
  obtain ⟨heq, -⟩ | ⟨-, new, heq, hnames⟩ := tryTx_results h
  · exact .inl (heq ▸ hrs)
  rw [heq] at hrs
  simp only [addResult] at hrs
  by_cases htx : txid = p.1.getHash H
  · subst htx
    rw [update_self, or_eq_some_iff] at hrs
    refine hrs.imp id ?_
    rintro ⟨-, ⟨⟩⟩
    exact ⟨rfl, hnames⟩
  · exact .inl (by rwa [update_of_ne htx] at hrs)

variable {view : CCoinsViewCache} {σ : Shared}

/-- **Every receipt of the loop names the block and its transaction.** -/
theorem tryTransactions_names
    (h : tryTransactions H N L C fJustCheck view { σ with results := .empty } = .ok t) :
    ∀ txid rs, t.results.cache txid = some rs →
      ∃ p ∈ C.block.vtx.zipIdx, p.1.getHash H = txid ∧
        ∀ r ∈ rs, r.Names H C.block C.nHeight p := by
  refine foldlM_induct (motive := fun done t => ∀ txid rs, t.results.cache txid = some rs →
    ∃ p ∈ done, p.1.getHash H = txid ∧ ∀ r ∈ rs, r.Names H C.block C.nHeight p) h
    (fun _ _ h => by cases h) fun done p u u' _ ih hturn txid rs hrs => ?_
  rcases tryTx_cache hturn hrs with hold | ⟨htx, hnames⟩
  · obtain ⟨q, hq, hnames⟩ := ih txid rs hold
    exact ⟨q, mem_append_left _ hq, hnames⟩
  · exact ⟨p, by simp, htx, hnames⟩

/-- Without events logged the loop leaves the store and the index alone. -/
theorem tryTransactions_quiet (hL : L.fLogEvents = false)
    (h : tryTransactions H N L C fJustCheck view σ = .ok t) :
    t.results = σ.results ∧ t.heightIndexes = fun _ => none := by
  refine foldlM_induct (motive := fun _ t => t.results = σ.results ∧ t.heightIndexes = fun _ => none)
    h ⟨rfl, rfl⟩ fun done p u u' _ ih hturn => ?_
  obtain ⟨hresults, hindexes⟩ | ⟨hlog, -⟩ := tryTx_results hturn
  · rw [hresults, hindexes]
    exact ih
  · rw [hL] at hlog
    cases hlog

end Names

/-- A block of the active chain, with the receipts and the log entries of
its transactions. -/
structure Record (H : Hashes) where
  block : CBlock
  nHeight : ℕ
  receipts : UInt256 → Option (List TransactionReceiptInfo)
  logs : Address → Option (List UInt256)
  /-- The receipts are those of transactions of the block. -/
  names : ∀ txid rs, receipts txid = some rs → ∃ p ∈ block.vtx.zipIdx, p.1.getHash H = txid ∧
    ∀ r ∈ rs, r.Names H block nHeight p

namespace Record

variable {H : Hashes}

/-- A block without contract transactions. -/
def bare (H : Hashes) (block : CBlock) (nHeight : ℕ) : Record H where
  block
  nHeight
  receipts _ := none
  logs _ := none
  names := nofun

/-- The record of a block on a parent: what its connection to an empty store
leaves there. -/
def ofLoop (N : Node) (L : Logging) (C : BlockContext) (view : CCoinsViewCache) (σ : Shared) :
    Record H :=
  match h : tryTransactions H N L C false view { σ with results := .empty } with
  | .ok t => ⟨C.block, C.nHeight, t.results.cache, t.heightIndexes, tryTransactions_names h⟩
  | .error _ => bare H C.block C.nHeight

/-- The record of a block; the genesis block is not executed. -/
def of (N : Node) (L : Logging) (lim : BlockLimits) (block : CBlock) (pindex : CBlockIndex)
    (pprev : Option CBlockIndex) (view : CCoinsViewCache) (σ : Shared) : Record H :=
  match pprev with
  | none => bare H block pindex.nHeight
  | some p =>
    if block.getHash H = N.consensus.hashGenesisBlock then bare H block pindex.nHeight
    else ofLoop N L (blockContext N (nextLimits lim (N.dgp σ.aal.state (pindex.nHeight + 1))) block
      pindex.nHeight p σ.aal) view σ

/-- The hashes of the transactions of the block. -/
def txids (r : Record H) : List UInt256 := r.block.vtx.map fun tx => tx.getHash H

/-- The receipts as a layer of the store, under the hashes of all
transactions of the block. -/
def receiptsLayer (r : Record H) : Layer UInt256 (List TransactionReceiptInfo) where
  keys := { txid | txid ∈ r.txids }
  entry := r.receipts
  mem_keys := fun txid rs h => by
    obtain ⟨p, hp, rfl, -⟩ := r.names txid rs h
    exact List.mem_map.2 ⟨p.1, (mem_zipIdx' hp).2 ▸ getElem_mem _, rfl⟩

/-- The log entries as a layer of the height index, under the height of the
block. -/
def logsLayer (r : Record H) : Layer (ℕ × Address) (List UInt256) where
  keys := { k | k.1 = r.nHeight }
  entry k := if k.1 = r.nHeight then r.logs k.2 else none
  mem_keys := fun k a h => by
    by_contra hne
    rw [if_neg (show ¬ k.1 = r.nHeight from hne)] at h
    cases h

theorem logsLayer_entry_of_eq {r : Record H} {nHeight : ℕ} (h : nHeight = r.nHeight)
    (a : Address) : r.logsLayer.entry (nHeight, a) = r.logs a := if_pos h

theorem logsLayer_entry_of_ne {r : Record H} {nHeight : ℕ} (h : nHeight ≠ r.nHeight)
    (a : Address) : r.logsLayer.entry (nHeight, a) = none := if_neg h

variable {C : BlockContext}

theorem ofLoop_eq {N : Node} {L : Logging} {view : CCoinsViewCache} {σ : Shared} {t : Trial}
    (h : tryTransactions H N L C false view { σ with results := .empty } = .ok t) :
    ofLoop N L C view σ =
      ⟨C.block, C.nHeight, t.results.cache, t.heightIndexes, tryTransactions_names h⟩ := by
  unfold ofLoop
  split
  · rename_i t' h'
    obtain rfl : t' = t := Except.ok.inj (h'.symm.trans h)
    rfl
  · rename_i f h'
    cases h'.symm.trans h

variable {N : Node} {L : Logging} {lim : BlockLimits} {block : CBlock} {pindex : CBlockIndex}
variable {pprev : Option CBlockIndex} {view : CCoinsViewCache} {σ : Shared}

theorem ofLoop_block : (ofLoop (H := H) N L C view σ).block = C.block := by
  unfold ofLoop
  split <;> rfl

theorem ofLoop_nHeight : (ofLoop (H := H) N L C view σ).nHeight = C.nHeight := by
  unfold ofLoop
  split <;> rfl

@[simp] theorem of_block :
    (of (H := H) N L lim block pindex pprev view σ).block = block := by
  unfold of
  split
  · rfl
  · split
    · rfl
    · exact ofLoop_block

@[simp] theorem of_nHeight :
    (of (H := H) N L lim block pindex pprev view σ).nHeight = pindex.nHeight := by
  unfold of
  split
  · rfl
  · split
    · rfl
    · exact ofLoop_nHeight

end Record

/-! ## What a connected block leaves -/

/-- The map of receipts holds copies of what is in the database. -/
def StorageResults.Copies (r : StorageResults) : Prop :=
  ∀ txid rs, r.cache txid = some rs → r.db txid = some rs

theorem StorageResults.Copies.or_cache {r : StorageResults} (h : r.Copies) (txid : UInt256) :
    (r.db txid).or (r.cache txid) = r.db txid := by
  cases hc : r.cache txid with
  | none => rw [or_none]
  | some rs => rw [h txid rs hc, some_or]

section Connected

variable {H : Hashes} {N : Node} {L : Logging} {lim : BlockLimits} {block : CBlock}
variable {pindex : CBlockIndex} {pprev : Option CBlockIndex} {view : CCoinsViewCache}
variable {σ σ' : Shared} {c : Connected}

/-- What is written is the store and the height index with the record of
the block. -/
structure Shared.Recorded (σ σ' : Shared) (r : Record H) : Prop where
  db : ∀ txid, σ'.results.db txid = (σ.results.db txid).or (r.receipts txid)
  copies : σ'.results.Copies
  heightIndex : ∀ nHeight a, σ'.heightIndex nHeight a =
    (r.logsLayer.entry (nHeight, a)).or (σ.heightIndex nHeight a)

theorem Shared.recorded_bare (hσ : σ.results.Copies) {nHeight : ℕ} :
    σ.Recorded σ (Record.bare H block nHeight) := by
  refine ⟨fun txid => ?_, hσ, fun h a => ?_⟩
  · exact (or_none).symm
  · unfold Record.logsLayer Record.bare
    simp

/-- **A connected block adds its record.** -/
theorem connectBlockIn_recorded (hσ : σ.results.Copies)
    (h : connectBlockIn H N L lim block pindex pprev view false σ = (σ', .ok c)) :
    σ.Recorded σ' (Record.of (H := H) N L lim block pindex pprev view σ) := by
  obtain ⟨rfl, hok⟩ := Prod.ext_iff.1 h
  rcases connectBlockIn_ok hok with ⟨hgenesis, heq⟩ | ⟨p, t, rfl, hgenesis, htry, heq⟩
  · rw [heq]
    unfold Record.of
    cases pprev with
    | none => exact Shared.recorded_bare hσ
    | some p =>
      simp only [if_pos hgenesis]
      exact Shared.recorded_bare hσ
  · rw [heq]
    simp only [Record.of, if_neg hgenesis]
    rw [tryTransactions_overlay] at htry
    cases hempty : tryTransactions H N L (blockContext N
        (nextLimits lim (N.dgp σ.aal.state (pindex.nHeight + 1))) block pindex.nHeight p σ.aal)
        false view { σ with results := .empty } with
    | error q =>
      rw [hempty] at htry
      cases htry
    | ok t₀ =>
      rw [hempty] at htry
      obtain ⟨⟩ := htry
      rw [Record.ofLoop_eq hempty]
      cases hL : L.fLogEvents with
      | false =>
        obtain ⟨hresults, hindexes⟩ := tryTransactions_quiet hL hempty
        refine ⟨fun txid => ?_, ?_, fun nHeight a => ?_⟩
        · simp [Shared.after, Shared.write, hL, Trial.overlay, hresults, empty]
        · intro txid rs hrs
          simp only [Shared.after, Shared.write, hL, Trial.overlay, hresults, empty,
            or_none] at hrs ⊢
          exact hσ txid rs hrs
        · simp [Shared.after, Shared.write, hL, hindexes, Record.logsLayer]
      | true =>
        refine ⟨fun txid => ?_, ?_, fun nHeight a => ?_⟩
        · simp only [Shared.after, Shared.write, hL, if_true, commitResults,
            Trial.overlay, Bool.false_eq_true, if_false]
          rw [← Option.or_assoc, hσ.or_cache]
        · intro txid rs hrs
          simp only [Shared.after, Shared.write, hL] at hrs
          cases hrs
        · simp only [Shared.after, Shared.write, hL, if_true, Trial.overlay, Bool.false_eq_true,
            if_false]
          by_cases hheight : nHeight = pindex.nHeight
          · rw [Record.logsLayer_entry_of_eq hheight, hheight, update_self]
          · rw [update_of_ne hheight, Record.logsLayer_entry_of_ne hheight, none_or]

variable {fJustCheck : Bool}

/-- The database of receipts is not written in the loop. -/
theorem tryTransactions_db {C : BlockContext} :
    Leaves (fun t => t.results.db = σ.results.db)
      (tryTransactions H N L C fJustCheck view σ) := by
  rw [tryTransactions_overlay]
  exact leaves_mapState fun _ => rfl

/-- What a rejection leaves in the databases is what was there. -/
structure Shared.SameStores (σ σ' : Shared) : Prop where
  db : σ'.results.db = σ.results.db
  heightIndex : σ'.heightIndex = σ.heightIndex
  stakeIndex : σ'.stakeIndex = σ.stakeIndex
  addresses : σ'.addresses = σ.addresses
  timestamps : σ'.timestampIndex = σ.timestampIndex ∧
    σ'.timestampBlockIndex = σ.timestampBlockIndex

/-- **A rejected block writes no receipt and no index.** -/
theorem connectBlockIn_error {f : Failure}
    (h : connectBlockIn H N L lim block pindex pprev view fJustCheck σ = (σ', .error f)) :
    σ.SameStores σ' := by
  rcases connectBlockIn_cases with
    ⟨r, heq, -⟩ | ⟨p, x, -, -, rfl, ⟨t, f', hleft, heq⟩ | ⟨t, c, -, heq⟩⟩
  · obtain ⟨rfl, -⟩ := Prod.mk.inj (heq.symm.trans h)
    exact ⟨rfl, rfl, rfl, rfl, rfl, rfl⟩
  · obtain ⟨rfl, -⟩ := Prod.mk.inj (heq.symm.trans h)
    exact ⟨hleft (fun t => t.results.db = σ.results.db) tryTransactions_db, rfl, rfl, rfl,
      rfl, rfl⟩
  · cases (Prod.mk.inj (heq.symm.trans h)).2

end Connected

end Slucore

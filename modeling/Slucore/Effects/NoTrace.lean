import Slucore.Common.Failures
import Slucore.Effects.FullNode
import Slucore.Validation.ShadowBlock
/-!
# Effects — a rejected block leaves no trace

A block can be rejected after some of its contracts were executed. The
callers of `ConnectBlock` put the two roots back and empty the map of
receipts; the coins were changed in a view of their own. What they do not
put back is the set of addresses the seal engine noted for deletion. It
needs no care, because every exit of `ConnectBlock` leaves it empty: an
executed transaction clears it, and the checks of the versions let no
output be executed before one that stops the execution.
-/


namespace Slucore

open ByteCodeExec BlockContext Trial

/-! ## The outputs that reach the execution -/

section Versions

variable {N : Node} {C : BlockContext} {nTxFee : ℤ} {g g' : BlockContext.GasTally}

/-- What one output is known to be once it is checked. -/
theorem checkContractOutput_version {qtx : SilubiumTransaction}
    (h : C.checkContractOutput nTxFee g qtx = .ok g') :
    (forEvm qtx = true ↔ qtx.version.rootVM ≠ 0) ∧
      (g.nonZeroVersion = true → qtx.version.rootVM ≠ 0) ∧
      (g'.nonZeroVersion = true ↔ g.nonZeroVersion = true ∨ qtx.version.rootVM ≠ 0) := by
  simp only [checkContractOutput, bind_eq_ok, require_eq_ok, pure_eq_ok, Bool.or_eq_true,
    beq_iff_eq, bne_iff_ne] at h
  obtain ⟨-, -, -, -, -, hformat, -, hmixed, -, hroot, -, hvm, -, hflags, -, -, -, -, -, -, -, -,
    rfl⟩ := h
  refine ⟨?_, fun hzero => ?_, ?_⟩
  · unfold forEvm
    rw [decide_eq_true_eq]
    constructor
    · intro hv
      rw [hv]
      decide
    · intro hne
      have hone : qtx.version.rootVM = 1 := hroot.resolve_left hne
      calc qtx.version
          = ⟨qtx.version.format, qtx.version.rootVM, qtx.version.vmVersion,
              qtx.version.flagOptions⟩ := rfl
        _ = VersionVM.evmDefault := by rw [hformat, hone, hvm, hflags]; rfl
  · rcases hmixed with hne | hfalse
    · exact hne
    · rw [hzero] at hfalse
      cases hfalse
  · simp

variable {txs : List SilubiumTransaction}

/-- After an output that is executed all are. -/
theorem all_forEvm_of_checked (hg : g.nonZeroVersion = true)
    (h : txs.foldlM (C.checkContractOutput nTxFee) g = .ok g') : txs.all forEvm = true := by
  induction txs generalizing g with
  | nil => rfl
  | cons t txs ih =>
    obtain ⟨g₁, hhead, hrest⟩ := foldlM_cons_eq_ok.1 h
    obtain ⟨hevm, hnonzero, hnext⟩ := checkContractOutput_version hhead
    rw [List.all_cons, Bool.and_eq_true]
    exact ⟨hevm.2 (hnonzero hg), ih (hnext.2 (.inl hg)) hrest⟩

variable {tx : CTransaction}

/-- **The checks let no output be executed before one that stops the
execution.** -/
theorem checkContracts_stopsUnexecuted {s : ConnectState}
    (h : C.checkContracts N tx s = .ok txs) (w : AalState) :
    StopsUnexecuted txs w := by
  simp only [checkContracts, bind_eq_ok, pure_eq_ok] at h
  obtain ⟨-, -, extract, -, -, -, valueOut, -, tally, hfold, -, -, rfl⟩ := h
  cases htxs : extract.txs with
  | nil => exact .inl rfl
  | cons t rest =>
    rw [htxs] at hfold
    obtain ⟨g₁, hhead, hrest⟩ := foldlM_cons_eq_ok.1 hfold
    obtain ⟨hevm, -, hnext⟩ := checkContractOutput_version hhead
    cases ht : forEvm t with
    | false =>
      refine .inr ?_
      rw [List.takeWhile_cons_of_neg (by simp [ht])]
      rfl
    | true =>
      refine .inl ?_
      rw [List.all_cons, ht]
      exact all_forEvm_of_checked (hnext.2 (.inr (hevm.1 ht))) hrest

end Versions

/-! ## Every exit of `ConnectBlock` -/

/-- The loop has left no address noted for deletion, and no receipt where a
block is merely checked. -/
structure Trial.Tidy (fJustCheck : Bool) (results : StorageResults) (t : Trial) : Prop where
  deleteAddresses : t.aal.deleteAddresses = []
  receipts : fJustCheck = true → t.results = results

section Exits

variable {H : Hashes} {N : Node} {L : Logging} {C : BlockContext} {fJustCheck : Bool}
variable {results : StorageResults} {t : Trial} {s s' : ConnectState} {tx : CTransaction} {i : ℕ}

theorem Trial.Tidy.lift (ht : t.Tidy fJustCheck results) {x : Except Failure ConnectState}
    (hx : ∀ s, x = .ok s → s.aal = t.aal) : Leaves (Trial.Tidy fJustCheck results) (t.lift x) := by
  cases x with
  | error f => exact ht
  | ok s =>
    refine ⟨?_, ht.receipts⟩
    rw [hx s rfl]
    exact ht.deleteAddresses

theorem Trial.checkTx_aal (h : checkTx N C tx s = .ok s') : s'.aal = s.aal := by
  simp only [checkTx, bind_eq_ok] at h
  obtain ⟨s₁, hfee, s₂, hops, s₃, hverify, hvalues⟩ := h
  obtain ⟨_, rfl, -⟩ := chargeFee_eq_ok hfee
  obtain ⟨_, rfl⟩ := countSigOps_eq_ok hops
  obtain ⟨_, _, rfl, -⟩ := verifyInputs_eq_ok hverify
  obtain ⟨_, _, rfl⟩ := countValues_eq_ok hvalues
  rfl

theorem BlockContext.applyCoins_aal (h : C.applyCoins H tx s i = .ok s') : s'.aal = s.aal := by
  obtain ⟨_, _, -, rfl⟩ := applyCoins_eq_ok h
  rfl

variable {txs : List SilubiumTransaction} {rs : List ResultExecute}

/-- The receipts are not recorded for a block that is merely checked. -/
theorem Trial.record_results {logs : List (List LogEntry)} (h : fJustCheck = true) :
    (record H L C fJustCheck tx i txs rs logs t).results = t.results := by
  unfold record
  rw [h, Bool.not_true, Bool.and_false, if_neg Bool.false_ne_true]

theorem Trial.Tidy.settle
    {bcer : ByteCodeExecResult} {w : AalState} (ht : t.Tidy fJustCheck results)
    (hw : w.deleteAddresses = []) :
    Leaves (Trial.Tidy fJustCheck results) (t.settle H N L C fJustCheck tx i txs rs bcer w) := by
  have hrecord : (record H L C fJustCheck tx i txs rs
      (L.logsOf t.aal (C.buildEVMEnvironment N) txs)
      { t with
        aal := w
        countCumulativeGasUsed := (t.countCumulativeGasUsed + bcer.usedGas) % 2 ^ 64 }).Tidy
      fJustCheck results := by
    refine ⟨?_, fun h => ?_⟩
    · rw [record_toConnectState]
      exact hw
    · rw [Trial.record_results h]
      exact ht.receipts h
  simp only [Trial.settle]
  by_cases hgas : (t.blockGasUsed + bcer.usedGas) % 2 ^ 64 ≤ C.dgp.blockGasLimit
  · rw [if_pos hgas]
    exact ⟨hrecord.deleteAddresses, hrecord.receipts⟩
  · rw [if_neg hgas]
    exact hrecord

theorem Trial.Tidy.execute (ht : t.Tidy fJustCheck results) (hstops : StopsUnexecuted txs t.aal) :
    Leaves (Trial.Tidy fJustCheck results) (t.execute H N L C fJustCheck tx i txs) := by
  unfold Trial.execute
  cases htry : tryByteCode H C.aalEnv N.vm N.tipHeight .committed (C.buildEVMEnvironment N) txs
      t.aal with
  | none => exact ht
  | some q =>
    obtain ⟨w, - | rs⟩ := q
    · refine ⟨?_, ht.receipts⟩
      rw [tryByteCode_stopped hstops htry]
      exact ht.deleteAddresses
    · have hw : w.deleteAddresses = [] := tryByteCode_deleteAddresses htry
      cases hbcer : processingResults H txs rs with
      | none =>
        simp only [hbcer]
        exact ⟨hw, ht.receipts⟩
      | some bcer =>
        simp only [hbcer]
        exact ht.settle hw

/-- **One turn leaves the loop tidy, whichever way it ends.** -/
theorem Trial.Tidy.tryTx {p : CTransaction × ℕ} (ht : t.Tidy fJustCheck results) :
    Leaves (Trial.Tidy fJustCheck results) (tryTx H N L C fJustCheck t p) := by
  refine leaves_bind (ht.lift fun s hs => checkTx_aal hs) fun u hu => ?_
  refine leaves_bind ?_ fun v hv => hv.lift fun s hs => applyCoins_aal hs
  unfold runContracts
  split
  · cases hchecked : C.checkContracts N p.1 u.toConnectState with
    | error f => exact hu
    | ok txs => exact hu.execute (checkContracts_stopsUnexecuted hchecked _)
  · exact ⟨hu.deleteAddresses, hu.receipts⟩

variable {lim : BlockLimits} {block : CBlock} {pindex : CBlockIndex} {view : CCoinsViewCache}
variable {σ : Shared}

variable {pprev : CBlockIndex}

theorem after_tidy (ht : t.Tidy fJustCheck σ.results) :
    (σ.after H N L block pindex pprev view fJustCheck t).aal.deleteAddresses = [] ∧
      (fJustCheck = true →
        (σ.after H N L block pindex pprev view fJustCheck t).results = σ.results) := by
  cases fJustCheck with
  | true =>
    refine ⟨?_, ht.receipts⟩
    show (revertRoots N pprev t.aal).deleteAddresses = []
    unfold revertRoots
    split
    · exact ht.deleteAddresses
    · exact ht.deleteAddresses
  | false => exact ⟨ht.deleteAddresses, nofun⟩

/-- **Every exit of `ConnectBlock` leaves no address noted for deletion**,
if none was before, and no receipt of a block that is merely checked. -/
theorem connectBlockIn_tidy {pprev : Option CBlockIndex} {σ' : Shared}
    {r : Except Failure Connected} (hσ : σ.aal.deleteAddresses = [])
    (h : connectBlockIn H N L lim block pindex pprev view fJustCheck σ = (σ', r)) :
    σ'.aal.deleteAddresses = [] ∧ (fJustCheck = true → σ'.results = σ.results) := by
  obtain ⟨rfl, -⟩ := Prod.ext_iff.1 h
  rcases connectBlockIn_cases with ⟨r, heq, -⟩ | ⟨p, x, -, -, rfl, hexit⟩
  · rw [heq]
    exact ⟨hσ, fun _ => rfl⟩
  have hstart : (σ.start view).Tidy fJustCheck σ.results := ⟨hσ, fun _ => rfl⟩
  have hloop : Leaves (Trial.Tidy fJustCheck σ.results) (tryTransactions H N L (blockContext N
      (nextLimits lim (N.dgp σ.aal.state (pindex.nHeight + 1))) block pindex.nHeight p σ.aal)
      fJustCheck view σ) := leaves_foldlM (fun _ _ ht => ht.tryTx) hstart
  rcases hexit with ⟨t, f, hleft, heq⟩ | ⟨t, c, ht, heq⟩
  · rw [heq]
    exact ⟨(hleft _ hloop).deleteAddresses, (hleft _ hloop).receipts⟩
  · rw [ht] at hloop
    rw [heq]
    exact after_tidy hloop

/-- The roots of a block: those of its header, or of the empty trie where
the header has none. -/
def rootsAt (N : Node) (pindex : CBlockIndex) : UInt256 × UInt256 :=
  if pindex.hashStateRoot ≠ 0 ∧ pindex.hashUTXORoot ≠ 0 then
    (pindex.hashStateRoot, pindex.hashUTXORoot)
  else (N.emptyTrieRoot, N.emptyTrieRoot)

/-- The two roots of the contract state. -/
def AalState.roots (w : AalState) : UInt256 × UInt256 := (w.state.trie.root, w.state.stateUTXO.root)

@[simp] theorem revertRoots_roots {w : AalState} :
    (revertRoots N pprev w).roots = rootsAt N pprev := by
  unfold revertRoots rootsAt
  split <;> rfl

/-- A block merely checked, where it passes, leaves the roots of its parent,
or the genesis block those there were. -/
theorem connectBlockIn_justChecked {σ' : Shared} {c : Connected}
    (h : connectBlockIn H N L lim block pindex (some pprev) view true σ = (σ', .ok c))
    (hσ : σ.aal.roots = rootsAt N pprev) : σ'.aal.roots = rootsAt N pprev := by
  obtain ⟨rfl, hok⟩ := Prod.ext_iff.1 h
  rcases connectBlockIn_ok hok with ⟨-, heq⟩ | ⟨p, t, hp, -, -, heq⟩
  · rw [heq, hσ]
  · obtain ⟨⟩ := hp
    rw [heq]
    exact revertRoots_roots

end Exits

/-! ## The node -/

/-- A call left the roots, the coins, the tip and the noted addresses as
they were, and put nothing into the map of receipts. -/
structure FullNode.NoTrace (g g' : FullNode) : Prop where
  roots : g'.aal.roots = g.aal.roots
  coinsTip : g'.coinsTip = g.coinsTip
  active : g'.active = g.active
  deleteAddresses : g'.aal.deleteAddresses = g.aal.deleteAddresses
  receipts : ∀ hash rs, g'.results.cache hash = some rs → g.results.cache hash = some rs

namespace FullNode

variable (H : Hashes) (L : Logging)

/-- The states a node gets into. Contract outputs are also executed for the
assembly of blocks and for calls that are only simulated; the memory pool
and `CallContract` admit outputs of the default version only. Whatever
else the node does leaves the noted addresses alone. -/
inductive Reached : FullNode → Prop
  | start {g : FullNode} (fresh : g.aal.deleteAddresses = []) : Reached g
  | connectTip {g : FullNode} (N : Node) (hash : UInt256) (passed : Bool) (before : Reached g) :
      Reached (g.connectTip H L N hash passed).1
  | disconnectTip {g : FullNode} (N : Node) (before : Reached g) :
      Reached (g.disconnectTip H L N).1
  | testBlockValidity {g : FullNode} (I : Intake) (block : CBlock)
      (fCheckPOW fCheckMerkleRoot : Bool) (before : Reached g) :
      Reached (g.testBlockValidity H L I block fCheckPOW fCheckMerkleRoot).1
  | execute {g : FullNode} {E : AalEnv} {vm : Vm} {tipHeight : ℕ} {p : Permanence} {env : EnvInfo}
      {txs : List SilubiumTransaction} {w : AalState} {r : Option (List ResultExecute)}
      (before : Reached g) (default : txs.all forEvm = true)
      (executed : tryByteCode H E vm tipHeight p env txs g.aal = some (w, r)) :
      Reached { g with aal := w }
  | other {g g' : FullNode} (before : Reached g)
      (same : g'.aal.deleteAddresses = g.aal.deleteAddresses) : Reached g'

variable {H L} {g : FullNode} {N : Node} {I : Intake} {hash : UInt256} {block : CBlock}
variable {pindex : CBlockIndex} {f : Failure}

theorem connectTip_deleteAddresses {passed : Bool} (hg : g.aal.deleteAddresses = []) :
    (g.connectTip H L N hash passed).1.aal.deleteAddresses = [] := by
  unfold connectTip
  split
  · exact hg
  · exact hg
  split
  · unfold connectTipWith
    split
    · rename_i σ f heq
      exact (connectBlockIn_tidy (σ := g.shared) hg heq).1
    · rename_i σ c heq
      exact (connectBlockIn_tidy (σ := g.shared) hg heq).1
  · exact hg

theorem disconnectBlockIn_deleteAddresses {pprev : CBlockIndex}
    {stored : Option (List (List TxInUndo))} {view : CCoinsViewCache} {pfClean : Bool}
    {σ σ' : Shared} {r : Except Failure Disconnected} (hσ : σ.aal.deleteAddresses = [])
    (h : disconnectBlockIn H L N block pindex pprev stored view pfClean σ = (σ', r)) :
    σ'.aal.deleteAddresses = [] := by
  unfold disconnectBlockIn at h
  split at h
  · obtain ⟨rfl, -⟩ := Prod.mk.inj h
    exact hσ
  rename_i d hd
  obtain ⟨rfl, -⟩ := Prod.mk.inj h
  have haal : d.aal.deleteAddresses = [] := by
    simp only [disconnectBlock, bind_eq_ok, pure_eq_ok] at hd
    obtain ⟨-, -, -, -, -, -, -, -, rfl⟩ := hd
    exact hσ
  unfold Shared.disconnected
  split <;> exact haal

theorem disconnectTip_deleteAddresses (hg : g.aal.deleteAddresses = []) :
    (g.disconnectTip H L N).1.aal.deleteAddresses = [] := by
  unfold disconnectTip
  split
  · split
    · exact hg
    · exact hg
    split
    · exact hg
    · exact hg
    · rename_i σ d heq
      have hσ := disconnectBlockIn_deleteAddresses (σ := g.shared) hg heq
      split <;> exact hσ
  · exact hg

variable {fCheckMerkleRoot : Bool}

theorem testBlockValidity_deleteAddresses {fCheckPOW : Bool} (hg : g.aal.deleteAddresses = []) :
    (g.testBlockValidity H L I block fCheckPOW fCheckMerkleRoot).1.aal.deleteAddresses = [] := by
  unfold testBlockValidity
  split
  · exact hg
  split
  · exact hg
  split
  · rename_i σ f heq
    exact (connectBlockIn_tidy (σ := g.shared) hg heq).1
  · rename_i σ c heq
    exact (connectBlockIn_tidy (σ := g.shared) hg heq).1

/-- **Between two calls no address is noted for deletion.** -/
theorem Reached.deleteAddresses (h : g.Reached H L) : g.aal.deleteAddresses = [] := by
  induction h with
  | start fresh => exact fresh
  | connectTip N hash passed before ih => exact connectTip_deleteAddresses ih
  | disconnectTip N before ih => exact disconnectTip_deleteAddresses ih
  | testBlockValidity I block fCheckPOW fCheckMerkleRoot before ih =>
    exact testBlockValidity_deleteAddresses ih
  | execute before default executed ih =>
    obtain ⟨rs, rfl⟩ := Option.isSome_iff_exists.1 (tryByteCode_isSome default executed)
    exact tryByteCode_deleteAddresses executed
  | other before same ih => rw [same, ih]

/-- `ConnectTip` of a block that `ConnectBlock` rejects. -/
theorem connectTipWith_noTrace (hg : g.aal.deleteAddresses = [])
    (h : (g.connectTipWith H L N hash block pindex).2 = .error f) :
    g.NoTrace (g.connectTipWith H L N hash block pindex).1 ∧
      ∀ txid, (g.connectTipWith H L N hash block pindex).1.results.cache txid = none := by
  unfold connectTipWith at h ⊢
  split at h
  · rename_i σ f' heq
    refine ⟨⟨rfl, rfl, rfl, ?_, nofun⟩, fun _ => rfl⟩
    rw [hg]
    exact (connectBlockIn_tidy (σ := g.shared) hg heq).1
  · cases h

/-- `TestBlockValidity`, on the roots of the tip. -/
theorem testBlockValidity_noTrace {fCheckPOW : Bool} (hg : g.aal.deleteAddresses = [])
    (hroots : ∀ pindex, g.tipIndex H = some pindex → g.aal.roots = rootsAt I.toNode pindex) :
    g.NoTrace (g.testBlockValidity H L I block fCheckPOW fCheckMerkleRoot).1 := by
  have hsame : g.NoTrace g := ⟨rfl, rfl, rfl, rfl, fun _ _ h => h⟩
  unfold testBlockValidity
  split
  · exact hsame
  rename_i pindexPrev htip
  split
  · exact hsame
  split
  · rename_i σ f heq
    refine ⟨rfl, rfl, rfl, ?_, nofun⟩
    rw [hg]
    exact (connectBlockIn_tidy (σ := g.shared) hg heq).1
  · rename_i σ c heq
    obtain ⟨hdelete, hresults⟩ := connectBlockIn_tidy (σ := g.shared) hg heq
    have hσ : σ.aal.roots = g.aal.roots := by
      rw [hroots pindexPrev htip]
      exact connectBlockIn_justChecked (σ := g.shared) heq (hroots pindexPrev htip)
    refine ⟨hσ, rfl, rfl, ?_, fun txid rs hrs => ?_⟩
    · rw [hg]
      exact hdelete
    · have hrs' : σ.results.cache txid = some rs := hrs
      rw [hresults rfl] at hrs'
      exact hrs'

/-- **A rejected block leaves no trace, nor does a tested one.** In every
state a node gets into, a call of `ConnectTip` that fails leaves the two
roots, the coins, the tip and the noted addresses as they were, and no
receipt in the map if `ConnectBlock` was what failed. `TestBlockValidity`
leaves them as they were whether it succeeds or fails, on the roots of the
tip. -/
theorem rejection_leaves_no_trace (hg : g.Reached H L) :
    (∀ N hash passed f, (g.connectTip H L N hash passed).2 = .error f →
      g.NoTrace (g.connectTip H L N hash passed).1 ∧
      ∀ block pindex, g.blockToConnect H N hash passed = some block →
        g.chain.mapBlockIndex hash = some pindex → block.hashPrevBlock = g.tipHash H →
        ∀ txid, (g.connectTip H L N hash passed).1.results.cache txid = none) ∧
    ∀ I block fCheckPOW fCheckMerkleRoot,
      (∀ pindex, g.tipIndex H = some pindex → g.aal.roots = rootsAt I.toNode pindex) →
      g.NoTrace (g.testBlockValidity H L I block fCheckPOW fCheckMerkleRoot).1 := by
  refine ⟨fun N hash passed f h => ?_, fun I block fCheckPOW fCheckMerkleRoot =>
    testBlockValidity_noTrace hg.deleteAddresses⟩
  have hsame : g.NoTrace g := ⟨rfl, rfl, rfl, rfl, fun _ _ h => h⟩
  unfold connectTip at h ⊢
  cases hblock : g.blockToConnect H N hash passed with
  | none => exact ⟨hsame, nofun⟩
  | some block =>
    cases hindex : g.chain.mapBlockIndex hash with
    | none => exact ⟨hsame, nofun⟩
    | some pindex =>
      simp only [hblock, hindex] at h ⊢
      by_cases htip : block.hashPrevBlock = g.tipHash H
      · simp only [if_pos htip] at h ⊢
        obtain ⟨htrace, hcache⟩ := connectTipWith_noTrace hg.deleteAddresses h
        exact ⟨htrace, fun _ _ _ _ _ => hcache⟩
      · simp only [if_neg htip]
        refine ⟨hsame, fun b _ hb _ htip' => absurd ?_ htip⟩
        rw [Option.some.inj hb]
        exact htip'

/-! A block with a contract transaction that is rejected after its loop. -/

/-- Hashes under which the sample blocks have the sample parent. -/
def chainedHashes (header : CBlockHeader) : Hashes :=
  { singlingHashes header with headerHash := fun h => if h = header then 1 else 7 }

/-- A node with the sample parent as its tip, about to connect `block`. -/
def sampleFullNode (block : CBlock) : FullNode where
  chain :=
    { mapBlockIndex := fun hash => if hash = 7 then some sampleParent
        else if hash = 1 then some (sampleIndex 10) else none
      stored := fun _ => none }
  active := [sampleBlock .null []]
  coinsTip := (sampleView 20000000).base
  aal := idleWorld
  lim := sampleLimits
  undo _ := none
  pblock := some block
  results := ⟨fun _ => none, fun _ => none⟩
  heightIndex _ _ := none
  stakeIndex _ := none
  addresses := ⟨fun _ => none, fun _ => none, fun _ => none⟩
  timestampIndex _ := false
  timestampBlockIndex _ := none

def sampleLogging : Logging where
  fLogEvents := true
  fAddressIndex := false
  logsOf _ _ txs := txs.map fun _ => []
  stakeAddress _ := 0
  extractDestination _ _ := none

theorem late_rejection_leaves_no_trace :
    (((sampleFullNode refusedCallBlock).connectTip (chainedHashes refusedCallBlock.toCBlockHeader)
      sampleLogging { sampleNode with checkQueueWait := fun _ => false } 1 true).2.toOption.isNone
        = true) ∧
    (sampleFullNode refusedCallBlock).NoTrace
      ((sampleFullNode refusedCallBlock).connectTip
        (chainedHashes refusedCallBlock.toCBlockHeader) sampleLogging
        { sampleNode with checkQueueWait := fun _ => false } 1 true).1 := by
  have hnone : ((sampleFullNode refusedCallBlock).connectTip
      (chainedHashes refusedCallBlock.toCBlockHeader) sampleLogging
      { sampleNode with checkQueueWait := fun _ => false } 1 true).2.toOption.isNone = true := by
    decide
  refine ⟨hnone, ?_⟩
  cases hr : ((sampleFullNode refusedCallBlock).connectTip
      (chainedHashes refusedCallBlock.toCBlockHeader) sampleLogging
      { sampleNode with checkQueueWait := fun _ => false } 1 true).2 with
  | ok u =>
    rw [hr] at hnone
    cases hnone
  | error f =>
    exact ((rejection_leaves_no_trace (.start rfl)).1 _ _ _ _ hr).1

end FullNode

end Slucore

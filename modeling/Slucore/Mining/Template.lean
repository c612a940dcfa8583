import Slucore.Mining.Sequential
import Slucore.Validation.ShadowBlock
/-!
# Mining — a template is the sequential execution of what it contains

`CreateNewBlock` gives a template whose roots, transfers and refunds are
those of its entries executed in order from the roots of the tip. The
exception is below the fork height: there an exception leaves dead coins
in the coin cache and setting a root drops them, so what a template
commits to depends on whether an attempt failed on the way.
-/


namespace Slucore

namespace MinerArgs

open BlockAssembler

/-- The empty block on the roots of the tip. -/
def atTip (N : Node) (M : MinerArgs) (w : AalState) : SequentialBlock :=
  ⟨putBackRoots N w ⟨w.state, []⟩, (M.emptyBlock N).vtx, 0, 0, []⟩

/-- **A template is the sequential execution of what it contains:** its
roots, its transactions with the transfers after each contract, and its
reward with the refunds are those of its entries executed in order from
the roots of the tip. -/
def IsSequential (H : Hashes) (N : Node) (M : MinerArgs) (w : AalState) (a : Assembly) : Prop :=
  ∃ s, (M.assembler N w).execAll H N (refundtx a.block) ((M.assembler N w).env N a.block)
      (M.atTip N w) a.inBlock = some s ∧
    a.block.hashStateRoot = s.aal.state.trie.root ∧
    a.block.hashUTXORoot = s.aal.state.stateUTXO.root ∧
    a.block.vtx = s.vtx.set (refundtx a.block)
      ((M.assembler N w).rewardTx N (refundtx a.block) s.nFees s.refundSender s.refundOutputs)

variable {H : Hashes} {N : Node} {M : MinerArgs} {w : AalState} {a : Assembly}
  {cs : List Candidate}

/-- The contract state before a template is assembled: at rest, with
nothing noted for deletion, and stored in the database. -/
structure Ready (N : Node) (w : AalState) : Prop where
  rest : w.state.AtRest
  noted : w.deleteAddresses = []
  stored : N.Stores w.state

theorem refundtx_lt : refundtx (M.emptyBlock N) < (M.assembler N w).originalRewardTx.vout.length := by
  cases h : M.fProofOfStake <;>
    simp [refundtx, emptyBlock, assembler, coinstakeTx, coinbaseTx, h, CBlockHeader.isProofOfStake,
      COutPoint.isNull, COutPoint.null]

theorem resetBlock_mirrors (hw : Ready N w) :
    Mirrors H N (M.assembler N w) (refundtx (M.emptyBlock N)) (M.atTip N w) (M.resetBlock N w) := by
  refine ⟨hw.rest.idle, fun _ => hw.rest.cacheUTXO, hw.noted,
    ⟨rfl, (M.assembler N w).originalRewardTx, ?_, rfl⟩, M.atTip N w, rfl, ?_, rfl, rfl, rfl, rfl⟩
  · cases h : M.fProofOfStake <;>
      simp [resetBlock, refundtx, emptyBlock, assembler, h, CBlockHeader.isProofOfStake,
        COutPoint.isNull, COutPoint.null]
  · refine (putBackRoots_sameButLog hw.stored hw.rest ?_ hw.noted.symm).symm
    exact ⟨hw.rest.cache, hw.rest.newAddress, hw.rest.transfers⟩

/-- **A run whose failed attempts can be undone gives such a template.** -/
theorem createNewBlock_isSequential (hvm : N.vm.LogBlind) (hw : Ready N w)
    (h : M.createNewBlock N H cs w = .ok a) (hu : Undoable N (M.assembler N w) a.attempts) :
    IsSequential H N M w a := by
  simp only [createNewBlock, bind_eq_ok, pure_eq_ok] at h
  obtain ⟨a₁, hadd, rfl⟩ := h
  have hm := addPackageTxs_mirrors hvm refundtx_lt (resetBlock_mirrors hw) hadd hu
  obtain ⟨s, hs, hagrees⟩ := hm.agrees
  have hplace : refundtx a₁.block = refundtx (M.emptyBlock N) := hm.rewards.place
  -- the header filled in and the reward rebuilt once more keep the environment
  have hheader : Rewards (M.assembler N w) (refundtx (M.emptyBlock N))
      { a₁.block with
        hashStateRoot := a₁.aal.state.trie.root
        hashUTXORoot := a₁.aal.state.stateUTXO.root
        hashPrevBlock := M.pindexPrev.blockHash } := ⟨hplace, hm.rewards.pays⟩
  have hfinal := hheader.rebuild (N := N) refundtx_lt a₁.nFees a₁.bceResult.refundSender
    a₁.bceResult.refundOutputs
  rw [← hplace] at hfinal hs
  refine ⟨s, ?_, congrArg SecureTrieDB.root hagrees.aal.trie,
    congrArg SecureTrieDB.root hagrees.aal.stateUTXO, ?_⟩
  · exact (congrArg (fun env => (M.assembler N w).execAll H N (refundtx a₁.block) env
      (M.atTip N w) a₁.inBlock) hfinal.env_eq).trans hs
  · rw [← hagrees.vtx, ← hagrees.nFees, ← hagrees.refundSender, ← hagrees.refundOutputs]
    rfl

/-- The first attempt finds the state of the tip. -/
theorem createNewBlock_first (h : M.createNewBlock N H cs w = .ok a) :
    a.attempts = [] ∨ ∃ r l, a.attempts = r :: l ∧ r.found = w := by
  simp only [createNewBlock, bind_eq_ok, pure_eq_ok] at h
  obtain ⟨a₁, hadd, rfl⟩ := h
  exact (addPackageTxs_first rfl hadd).imp_left And.left

/-- **An assembled block is the sequential execution of what it contains,**
for every list of candidates and every pattern of failing attempts, if the
state was at rest and every failed attempt is one that putting the roots
back undoes. A failed attempt changes neither the template nor a counter
nor a root in any case. -/
theorem template_is_sequential (hvm : N.vm.LogBlind) (hw : Ready N w)
    (h : M.createNewBlock N H cs w = .ok a)
    (hdb : ∀ r ∈ a.attempts, r.added = false → N.Stores r.found.state)
    (hr : ∀ r ∈ a.attempts, r.added = false → Restorable N (M.assembler N w) r) :
    IsSequential H N M w a ∧
      ∀ (A : BlockAssembler) (now : ℤ) (e : CTxMemPoolEntry) (b b' : Assembly),
        A.attemptToAddContractToBlock H N now e b = .ok (false, b') →
          b' = { b with aal := b'.aal } ∧
            b'.aal.state.trie.root = b.aal.state.trie.root ∧
            b'.aal.state.stateUTXO.root = b.aal.state.stateUTXO.root :=
  ⟨createNewBlock_isSequential hvm hw h fun r hmem hadded => ⟨hr r hmem hadded, hdb r hmem hadded⟩,
    fun _ _ _ _ _ hfail => attempt_failed hfail⟩

end MinerArgs

/-! ## A contract that is killed with the reward, below the fork height -/

/-- The accounts under a root: contract 400, and contract 300 under root 4. -/
def minedAccounts (root : UInt256) (a : Address) : Option Account :=
  if a = 400 then some ⟨true, true, 1, 0, [7], fun _ => 0⟩
  else if a = 300 ∧ root = 4 then some ⟨true, true, 1, 5, [7], fun _ => 0⟩
  else none

/-- The coins under a root: that of contract 300 under root 2. -/
def minedVins (root : UInt256) (a : Address) : Option Vin :=
  if a = 300 ∧ root = 2 then some ⟨9, 0, 5, true⟩ else none

/-- A node with the given fork height whose roots tell whether contract 300
and its coin are there. -/
def miningNode (fork : ℕ) : Node :=
  { sampleNode with
    tipHeight := 6
    aalEnv := fun _ _ =>
      { SilubiumState.sampleEnv with
        accountRoot := fun find => if (find 300).isSome then 4 else 3
        vinRoot := fun find => if (find 300).isSome then 2 else 1
        nFixUTXOCacheHFHeight := fork }
    accountsAt := minedAccounts
    vinsAt := minedVins }

/-- The contract state with these two roots. -/
def stateAt (root rootUTXO : UInt256) : AalState where
  state :=
    { trie := ⟨root, minedAccounts root⟩
      cache := fun _ => none
      changeLog := []
      newAddress := 0
      transfers := []
      stateUTXO := ⟨rootUTXO, minedVins rootUTXO⟩
      cacheUTXO := fun _ => none }
  deleteAddresses := []

/-- A creation with a value, which throws. -/
def endowedCreation : SilubiumTransaction :=
  ⟨1, 0, true, 5, 100000, 10, 0, [], 5, 0, VersionVM.evmDefault⟩

/-- The state that the block of height 6 leaves: its contract transaction
throws, and its reward is paid to the address of contract 300. -/
def tipState (fork : ℕ) : AalState :=
  ((ByteCodeExec.performByteCode SilubiumState.sampleHashes
    ((miningNode fork).aalEnv (stateAt 4 2).state 6) (miningNode fork).vm 5 .committed
    ⟨300, 6, 40000000⟩ [endowedCreation] (stateAt 4 2)).map Prod.fst).getD (stateAt 4 2)

/-- A transaction that calls contract 400. -/
def miningCall (n : ℕ) : CTransaction where
  vin := [{ prevout := ⟨n, 0⟩, scriptSig := [] }]
  vout := [⟨0, callScript 400⟩]

/-- A payment. -/
def miningPayment : CTransaction where
  vin := [{ prevout := ⟨100, 0⟩, scriptSig := [] }]
  vout := [⟨5, [0x51]⟩]

/-- A template with proof of work on the block of height 6. -/
def miningArgs : MinerArgs where
  scriptPubKeyIn := [0x51]
  fProofOfStake := false
  pindexPrev := sampleIndex 6
  nVersion := 0x20000000
  nTime := 900
  nBits := 0x1f00ffff
  nLockTimeCutoff := 0
  fIncludeWitness := true
  nBlockMaxWeight := 7996000
  lim := sampleLimits
  nTimeLimit := 0
  stakerMinTxGasPrice := none
  stakerSoftBlockGasLimit := none
  stakerMaxTxGasLimit := none
  disableContractStaking := false
  extract tx _ := (SilubiumTxConverter.extraction SilubiumState.sampleHashes
    ⟨⟨id, id, id, id, id⟩, tx, 1, 0⟩).map .of
  getTransactionWeight _ := 400

/-- A package of one transaction. -/
def single (tx : CTransaction) (sigOpCost : ℕ) : Candidate where
  now := 0
  packageSize := 100
  packageFees := 2000000
  packageSigOpsCost := sigOpCost
  sortedEntries := [⟨⟨tx, 2000000, 400, sigOpCost⟩, 0, 0⟩]

/-- A payment and a call. -/
def plainMempool : List Candidate := [single miningPayment 16000, single (miningCall 8) 4]

/-- The same with a call in between that is executed and then found too
expensive. -/
def costlyMempool : List Candidate :=
  [single miningPayment 16000, single (miningCall 7) 16000, single (miningCall 8) 4]

/-- The template assembled on the block of height 6. -/
def minedTemplate (fork : ℕ) (cs : List Candidate) (w : AalState) : Option Assembly :=
  (miningArgs.createNewBlock (miningNode fork) SilubiumState.sampleHashes cs w).toOption

/-- The entries the two templates contain. -/
def minedEntries : List CTxMemPoolEntry :=
  [⟨miningPayment, 2000000, 400, 16000⟩, ⟨miningCall 8, 2000000, 400, 4⟩]

/-- These entries executed in order, from the roots of the tip. -/
theorem minedEntries_keep_coin :
    ((miningArgs.assembler (miningNode 100) (tipState 100)).execAll SilubiumState.sampleHashes
      (miningNode 100) 0 ⟨2, 7, 40000000⟩ (miningArgs.atTip (miningNode 100) (tipState 100))
      minedEntries).map (fun s => s.aal.state.stateUTXO.root) = some 2 := by
  decide

theorem plainMempool_assembles :
    (minedTemplate 100 plainMempool (tipState 100)).map (fun a => (a.inBlock, a.block.hashUTXORoot,
      BlockAssembler.refundtx a.block,
      (miningArgs.assembler (miningNode 100) (tipState 100)).env (miningNode 100) a.block)) =
        some (minedEntries, 1, 0, ⟨2, 7, 40000000⟩) := by
  decide

/-- **Below the fork height a failed attempt decides what is committed.**
The two templates contain the same transactions. Without the failed call
the dead coin is written and the template is not the execution of its
contents from the roots of the tip; with it the coin is kept. -/
theorem failed_attempt_keeps_coin :
    (minedTemplate 100 plainMempool (tipState 100)).map (fun a => (a.inBlock, a.block.hashUTXORoot)) =
        some (minedEntries, 1) ∧
      (minedTemplate 100 costlyMempool (tipState 100)).map
        (fun a => (a.inBlock, a.block.hashUTXORoot)) = some (minedEntries, 2) ∧
      ∃ a, miningArgs.createNewBlock (miningNode 100) SilubiumState.sampleHashes plainMempool
          (tipState 100) = .ok a ∧
        ¬ MinerArgs.IsSequential SilubiumState.sampleHashes (miningNode 100) miningArgs
          (tipState 100) a := by
  refine ⟨by decide, rfl, ?_⟩
  obtain ⟨a, ha, heq⟩ := Option.map_eq_some_iff.1 plainMempool_assembles
  simp only [Prod.mk.injEq] at heq
  obtain ⟨hin, hroot, hplace, henv⟩ := heq
  refine ⟨a, eq_ok_of_toOption ha, ?_⟩
  rintro ⟨s, hs, -, hutxo, -⟩
  rw [hplace, henv, hin] at hs
  have hkeep := minedEntries_keep_coin
  rw [hs, Option.map_some, ← hutxo, hroot] at hkeep
  cases hkeep

/-- From the fork height on, the state at the tip is ready. -/
theorem stateAt_ready (fork : ℕ) (root rootUTXO : UInt256) :
    MinerArgs.Ready (miningNode fork) (stateAt root rootUTXO) :=
  ⟨⟨fun _ => rfl, fun _ => rfl, rfl, rfl⟩, rfl, rfl, rfl⟩

/-- A call that fails and one that is added, from the fork height on. -/
theorem costlyMempool_sequential :
    ∃ a, miningArgs.createNewBlock (miningNode 0) SilubiumState.sampleHashes costlyMempool
        (stateAt 4 2) = .ok a ∧
      a.attempts.map Attempt.added = [false, true] ∧
      MinerArgs.IsSequential SilubiumState.sampleHashes (miningNode 0) miningArgs (stateAt 4 2) a := by
  have hruns : (minedTemplate 0 costlyMempool (stateAt 4 2)).map (fun a =>
      (a.attempts.map Attempt.added, a.attempts.all fun r => r.txs.all ByteCodeExec.forEvm)) =
        some ([false, true], true) := by
    decide
  obtain ⟨a, ha, heq⟩ := Option.map_eq_some_iff.1 hruns
  simp only [Prod.mk.injEq] at heq
  obtain ⟨hadded, hevm⟩ := heq
  have hok := eq_ok_of_toOption ha
  -- the one attempt that fails is the first, so it found the state at the tip
  have hfirst : ∀ r ∈ a.attempts, r.added = false → r.found = stateAt 4 2 := by
    obtain hnil | ⟨r₀, l, hcons, hfound⟩ := MinerArgs.createNewBlock_first hok
    · simp [hnil] at hadded
    rw [hcons, List.map_cons, List.cons.injEq] at hadded
    intro r hmem hr
    rw [hcons, List.mem_cons] at hmem
    obtain rfl | hmem := hmem
    · exact hfound
    · have := List.mem_map_of_mem (f := Attempt.added) hmem
      rw [hadded.2, hr] at this
      simp at this
  refine ⟨a, hok, hadded, (MinerArgs.template_is_sequential (fun _ _ _ _ _ => rfl)
    (stateAt_ready 0 4 2) hok (fun r hmem hr => ?_) (fun r hmem hr => ?_)).1⟩
  · rw [hfirst r hmem hr]
    exact (stateAt_ready 0 4 2).stored
  · exact ⟨.inl (Nat.zero_le _), .inl (List.all_eq_true.1 hevm r hmem)⟩

end Slucore

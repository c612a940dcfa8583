import Slucore.Mining.Assembler
/-!
# Mining — attempts, and the sequential execution of what was included

`execIncluded` executes one transaction of a block after those before
it, without any of the tests and exits of the assembler. The block under
construction agrees with the entries it includes executed in this way,
one after the other, whatever attempts failed in between, as long as
putting the roots back undoes a failed attempt.
-/


namespace Slucore

open ByteCodeExec List

/-- What executing the transactions of a block in order has made. -/
structure SequentialBlock where
  aal : AalState
  vtx : List CTransaction
  nFees : ℤ
  refundSender : ℤ
  refundOutputs : List CTxOut

namespace BlockAssembler

variable (H : Hashes) (N : Node) (A : BlockAssembler)

/-- A transaction joins the block. If it is a contract transaction its
outputs are executed, the transfers they make follow it, and the reward
at place `p` is the original one with all refunds so far. -/
def execIncluded (p : ℕ) (env : EnvInfo) (s : SequentialBlock) (e : CTxMemPoolEntry) :
    Option SequentialBlock :=
  let nFees := wrap64 (s.nFees + e.nFee)
  if e.tx.hasCreateOrCall then do
    let ex ← A.extract e.tx s.vtx
    let (aal, results) ← ByteCodeExec.performByteCode H A.aalEnv N.vm N.tipHeight .committed env
      ex.txs s.aal
    let r ← ByteCodeExec.processingResults H ex.txs results
    let refundSender := wrap64 (s.refundSender + r.refundSender)
    let refundOutputs := s.refundOutputs ++ r.refundOutputs
    return {
      aal, nFees, refundSender, refundOutputs
      vtx := (s.vtx ++ e.tx :: r.valueTransfers).set p
        (A.rewardTx N p nFees refundSender refundOutputs) }
  else some { s with vtx := s.vtx ++ [e.tx], nFees }

/-- The transactions of a list executed one after the other. -/
def execAll (p : ℕ) (env : EnvInfo) (s : SequentialBlock) (es : List CTxMemPoolEntry) :
    Option SequentialBlock :=
  es.foldlM (A.execIncluded H N p env) s

end BlockAssembler

/-- The database stores the two tries of a state under their roots. -/
def Node.Stores (N : Node) (s : SilubiumState) : Prop :=
  N.accountsAt s.trie.root = s.trie.find ∧ N.vinsAt s.stateUTXO.root = s.stateUTXO.find

namespace BlockAssembler

variable {H : Hashes} {N : Node} {A : BlockAssembler} {a a' : Assembly} {e : CTxMemPoolEntry}
variable {now : ℤ} {added : Bool}

/-! ## What the operations do -/

theorem foldl_pushTransfer (l : List CTransaction) (a : Assembly) :
    ∃ nBlockWeight nBlockSigOpsCost nBlockTx, l.foldl A.pushTransfer a =
      { a with
        block := { a.block with vtx := a.block.vtx ++ l }
        nBlockWeight, nBlockSigOpsCost, nBlockTx } := by
  induction l generalizing a with
  | nil => exact ⟨a.nBlockWeight, a.nBlockSigOpsCost, a.nBlockTx, by simp⟩
  | cons t l ih =>
    obtain ⟨x, y, z, h⟩ := ih (A.pushTransfer a t)
    refine ⟨x, y, z, ?_⟩
    rw [foldl_cons, h]
    simp [pushTransfer]

/-- What a contract that fits changes, apart from the counters. -/
structure Applied (N : Node) (A : BlockAssembler) (e : CTxMemPoolEntry) (w : AalState)
    (r : ByteCodeExecResult) (a a' : Assembly) : Prop where
  block : a'.block = { a.block with
    vtx := (a.block.vtx ++ e.tx :: r.valueTransfers).set (refundtx a.block)
      (A.rewardTx N (refundtx a.block) a'.nFees a'.bceResult.refundSender
        a'.bceResult.refundOutputs) }
  nFees : a'.nFees = wrap64 (a.nFees + e.nFee)
  inBlock : a'.inBlock = a.inBlock ++ [e]
  refundSender : a'.bceResult.refundSender = wrap64 (a.bceResult.refundSender + r.refundSender)
  refundOutputs : a'.bceResult.refundOutputs = a.bceResult.refundOutputs ++ r.refundOutputs
  aal : a'.aal = w
  attempts : a'.attempts = a.attempts

theorem applyContract_applied (w : AalState) (r : ByteCodeExecResult) :
    Applied N A e w r a (A.applyContract N e w r a) := by
  unfold applyContract
  dsimp only
  obtain ⟨x, y, z, h⟩ := foldl_pushTransfer (A := A) r.valueTransfers
    (push e { a with
      bceResult := ⟨(a.bceResult.usedGas + r.usedGas) % 2 ^ 64,
        wrap64 (a.bceResult.refundSender + r.refundSender),
        a.bceResult.refundOutputs ++ r.refundOutputs, []⟩
      aal := w })
  rw [h]
  refine ⟨?_, rfl, rfl, rfl, rfl, rfl, rfl⟩
  simp only [push, append_assoc]
  rfl

/-- Every way an attempt can end: given up before anything is executed,
undone, or applied. -/
theorem attempt_cases
    (h : A.attemptToAddContractToBlock H N now e a = .ok (added, a')) :
    (added = false ∧ a' = a) ∨
      ∃ ex w results, A.extract e.tx a.block.vtx = some ex ∧
        ByteCodeExec.tryByteCode H A.aalEnv N.vm N.tipHeight .committed (A.env N a.block) ex.txs
          a.aal = some (w, results) ∧
        ((added = false ∧ a' = { a with aal := putBackRoots N a.aal w }) ∨
          ∃ rs r, results = some rs ∧ ByteCodeExec.processingResults H ex.txs rs = some r ∧
            added = true ∧ Applied N A e w r a a') := by
  unfold attemptToAddContractToBlock at h
  split at h
  · obtain ⟨⟩ := h
    exact .inl ⟨rfl, rfl⟩
  split at h
  · obtain ⟨⟩ := h
    exact .inl ⟨rfl, rfl⟩
  rename_i ex hex
  split at h
  · obtain ⟨⟩ := h
    exact .inl ⟨rfl, rfl⟩
  simp only [bind_eq_ok, orThrow_eq_ok, Prod.exists] at h
  obtain ⟨w, results, htry, h⟩ := h
  refine .inr ⟨ex, w, results, hex, htry, ?_⟩
  split at h
  · obtain ⟨⟩ := h
    exact .inl ⟨rfl, rfl⟩
  rename_i r hr
  obtain ⟨rs, rfl, hr⟩ := Option.bind_eq_some_iff.1 hr
  split at h
  · obtain ⟨⟩ := h
    exact .inl ⟨rfl, rfl⟩
  · obtain ⟨⟩ := h
    exact .inr ⟨rs, r, rfl, hr, rfl, applyContract_applied w r⟩

/-- **A failed attempt changes nothing but the contract state, and there
not the roots.** -/
theorem attempt_failed (h : A.attemptToAddContractToBlock H N now e a = .ok (false, a')) :
    a' = { a with aal := a'.aal } ∧ a'.aal.state.trie.root = a.aal.state.trie.root ∧
      a'.aal.state.stateUTXO.root = a.aal.state.stateUTXO.root := by
  obtain ⟨-, rfl⟩ | ⟨ex, w, results, -, -, ⟨-, rfl⟩ | ⟨rs, r, -, -, hadded, -⟩⟩ := attempt_cases h
  · exact ⟨rfl, rfl, rfl⟩
  · exact ⟨rfl, rfl, rfl⟩
  · cases hadded

/-! ## The reward, and the environment -/

/-- The environment of contracts in a block whose reward pays to whom the
original one does. -/
def rewardEnv (N : Node) (A : BlockAssembler) (p : ℕ) : EnvInfo :=
  ⟨N.ethAddrFromScript (((A.originalRewardTx.vout[p]?).map CTxOut.scriptPubKey).getD []),
    A.pindexPrev.nHeight + 1, A.dgp.blockGasLimit⟩

/-- The reward is at its place and pays to whom the original one does. -/
structure Rewards (A : BlockAssembler) (p : ℕ) (block : CBlock) : Prop where
  place : refundtx block = p
  pays : ∃ t, block.vtx[p]? = some t ∧
    (t.vout[p]?).map CTxOut.scriptPubKey = (A.originalRewardTx.vout[p]?).map CTxOut.scriptPubKey

variable {p : ℕ} {block : CBlock}

theorem Rewards.env_eq (h : Rewards A p block) : A.env N block = A.rewardEnv N p := by
  obtain ⟨t, ht, hpays⟩ := h.pays
  have henv : A.env N block = ⟨N.ethAddrFromScript ((((block.vtx[refundtx block]?).bind fun t =>
      t.vout[refundtx block]?).map CTxOut.scriptPubKey).getD []),
        A.pindexPrev.nHeight + 1, A.dgp.blockGasLimit⟩ := rfl
  rw [henv, h.place, ht, Option.bind_some, hpays]
  rfl

/-- Transactions added at the end leave the reward alone. -/
theorem Rewards.append (h : Rewards A p block) (l : List CTransaction) :
    Rewards A p { block with vtx := block.vtx ++ l } := by
  obtain ⟨t, ht, hpays⟩ := h.pays
  have hlt : p < block.vtx.length := (List.getElem?_eq_some_iff.1 ht).1
  refine ⟨h.place, t, ?_, hpays⟩
  rw [List.getElem?_append_left hlt, ht]

/-- So does rebuilding it, as to whom it pays. -/
theorem Rewards.rebuild (h : Rewards A p block) (hp : p < A.originalRewardTx.vout.length)
    (nFees refundSender : ℤ) (refundOutputs : List CTxOut) :
    Rewards A p { block with
      vtx := block.vtx.set p (A.rewardTx N p nFees refundSender refundOutputs) } := by
  obtain ⟨t, ht, -⟩ := h.pays
  have hlt : p < block.vtx.length := (List.getElem?_eq_some_iff.1 ht).1
  refine ⟨h.place, _, List.getElem?_set_self hlt, ?_⟩
  have hlen : p < (A.originalRewardTx.vout.modify p fun out => { out with
      nValue := wrap64 (wrap64 (nFees + getBlockSubsidy A.nHeight N.consensus) - refundSender) }
      ).length := by
    rwa [length_modify]
  simp only [rewardTx, getElem?_append_left hlen, getElem?_modify_eq, Option.map_eq_map,
    Option.map_map]
  rfl

/-! ## One step -/

/-- What was made in order is what the template has. -/
structure Agrees (s : SequentialBlock) (a : Assembly) : Prop where
  aal : a.aal.SameButLog s.aal
  vtx : a.block.vtx = s.vtx
  nFees : a.nFees = s.nFees
  refundSender : a.bceResult.refundSender = s.refundSender
  refundOutputs : a.bceResult.refundOutputs = s.refundOutputs

/-- The invariant: the template agrees with its entries executed in order
from `start`. -/
structure Mirrors (H : Hashes) (N : Node) (A : BlockAssembler) (p : ℕ) (start : SequentialBlock)
    (a : Assembly) : Prop where
  idle : a.aal.Idle
  coins : A.aalEnv.nFixUTXOCacheHFHeight ≤ N.tipHeight → ∀ b, a.aal.state.cacheUTXO b = none
  noted : a.aal.deleteAddresses = []
  rewards : Rewards A p a.block
  agrees : ∃ s, A.execAll H N p (A.rewardEnv N p) start a.inBlock = some s ∧ Agrees s a

variable {start : SequentialBlock}

theorem execAll_append {env : EnvInfo} {es : List CTxMemPoolEntry} {s : SequentialBlock}
    (h : A.execAll H N p env start es = some s) (e : CTxMemPoolEntry) :
    A.execAll H N p env start (es ++ [e]) = A.execIncluded H N p env s e := by
  unfold execAll at h ⊢
  rw [foldlM_append, h]
  simp

theorem Mirrors.addToBlock (h : Mirrors H N A p start a) (hc : e.tx.hasCreateOrCall = false) :
    Mirrors H N A p start (addToBlock e a) := by
  obtain ⟨s, hs, hagrees⟩ := h.agrees
  have hstep : A.execIncluded H N p (A.rewardEnv N p) s e =
      some { s with vtx := s.vtx ++ [e.tx], nFees := wrap64 (s.nFees + e.nFee) } := by
    rw [execIncluded, hc]
    rfl
  refine ⟨h.idle, h.coins, h.noted, h.rewards.append [e.tx], _, (execAll_append hs e).trans hstep,
    ?_⟩
  exact ⟨hagrees.aal, congrArg (· ++ [e.tx]) hagrees.vtx,
    congrArg (fun x => wrap64 (x + e.nFee)) hagrees.nFees, hagrees.refundSender,
    hagrees.refundOutputs⟩

variable {ex : ExtractSilubiumTX} {w : AalState}

/-- An applied attempt is the execution of its transaction. -/
theorem Mirrors.applied {rs : List ResultExecute}
    {r : ByteCodeExecResult} (h : Mirrors H N A p start a) (hvm : N.vm.LogBlind)
    (hp : p < A.originalRewardTx.vout.length) (hc : e.tx.hasCreateOrCall = true)
    (hex : A.extract e.tx a.block.vtx = some ex)
    (htry : ByteCodeExec.tryByteCode H A.aalEnv N.vm N.tipHeight .committed (A.env N a.block)
      ex.txs a.aal = some (w, some rs))
    (hr : ByteCodeExec.processingResults H ex.txs rs = some r) (happ : Applied N A e w r a a') :
    Mirrors H N A p start a' := by
  obtain ⟨s, hs, hagrees⟩ := h.agrees
  have hperf := performByteCode_of_try htry
  rw [h.rewards.env_eq] at hperf
  obtain ⟨w', hw', hsame⟩ := performByteCode_sameButLog hvm hagrees.aal hperf
  rw [hagrees.vtx] at hex
  have hstep : A.execIncluded H N p (A.rewardEnv N p) s e = some ⟨w',
      (s.vtx ++ e.tx :: r.valueTransfers).set p (A.rewardTx N p (wrap64 (s.nFees + e.nFee))
        (wrap64 (s.refundSender + r.refundSender)) (s.refundOutputs ++ r.refundOutputs)),
      wrap64 (s.nFees + e.nFee), wrap64 (s.refundSender + r.refundSender),
      s.refundOutputs ++ r.refundOutputs⟩ := by
    simp only [execIncluded, hc, hex, hw', hr, Option.bind_eq_bind, Option.bind_some]
    rfl
  have hnFees := happ.nFees
  have hsender := happ.refundSender
  have houts := happ.refundOutputs
  rw [hagrees.nFees] at hnFees
  rw [hagrees.refundSender] at hsender
  rw [hagrees.refundOutputs] at houts
  have hblock := happ.block
  rw [h.rewards.place] at hblock
  have hseq := (execAll_append hs e).trans hstep
  rw [← happ.inBlock] at hseq
  refine ⟨?_, ?_, ?_, ?_, _, hseq, ?_⟩
  · exact happ.aal ▸ tryByteCode_idle h.idle htry
  · intro hfork
    have hrest := tryByteCode_atRest (h.idle.atRest (h.coins hfork)) hfork htry
    exact happ.aal ▸ hrest.cacheUTXO
  · exact happ.aal ▸ tryByteCode_deleteAddresses htry
  · rw [hblock]
    exact (h.rewards.append _).rebuild hp ..
  · refine ⟨happ.aal ▸ hsame, ?_, hnFees, hsender, houts⟩
    rw [hblock, hnFees, hsender, houts, hagrees.vtx]

/-- Putting the roots back undoes what an attempt did to a state at rest. -/
theorem putBackRoots_sameButLog {v : AalState} (hdb : N.Stores w.state) (hw : w.state.AtRest)
    (hv : v.Idle) (hd : v.deleteAddresses = w.deleteAddresses) :
    (putBackRoots N w v).SameButLog w := by
  refine ⟨?_, hd⟩
  obtain ⟨hfind, hfindUTXO⟩ := hdb
  have hcache : w.state.cache = fun _ => none := funext hw.cache
  have hcacheUTXO : w.state.cacheUTXO = fun _ => none := funext hw.cacheUTXO
  simp [putBackRoots, SilubiumState.setRoots, SilubiumState.cleared, hfind, hfindUTXO, hcache,
    hcacheUTXO, hv.newAddress, hv.transfers, hw.newAddress, hw.transfers]

/-- **The condition on an attempt that fails:** the fork height is reached
or the coin cache was empty before it, and nothing is executed before an
output for another version. -/
def Restorable (N : Node) (A : BlockAssembler) (r : Attempt) : Prop :=
  (A.aalEnv.nFixUTXOCacheHFHeight ≤ N.tipHeight ∨ ∀ a, r.found.state.cacheUTXO a = none) ∧
    ByteCodeExec.StopsUnexecuted r.txs r.found

/-- An attempt that was undone leaves the template in agreement. -/
theorem Mirrors.undone {results : Option (List ResultExecute)} (h : Mirrors H N A p start a)
    (hdb : N.Stores a.aal.state) (hcoins : ∀ b, a.aal.state.cacheUTXO b = none)
    (hstops : ByteCodeExec.StopsUnexecuted ex.txs a.aal)
    (htry : ByteCodeExec.tryByteCode H A.aalEnv N.vm N.tipHeight .committed (A.env N a.block)
      ex.txs a.aal = some (w, results)) :
    Mirrors H N A p start { a with aal := putBackRoots N a.aal w } := by
  have hdel : w.deleteAddresses = a.aal.deleteAddresses := by
    cases results with
    | none => rw [tryByteCode_stopped hstops htry]
    | some rs => rw [tryByteCode_deleteAddresses htry, h.noted]
  have hidle := tryByteCode_idle h.idle htry
  have hback := putBackRoots_sameButLog hdb (h.idle.atRest hcoins) hidle hdel
  obtain ⟨s, hs, hagrees⟩ := h.agrees
  exact ⟨⟨fun _ => rfl, hidle.newAddress, hidle.transfers⟩, fun _ _ => rfl, hdel.trans h.noted,
    h.rewards, s, hs, hback.trans hagrees.aal, hagrees.vtx, hagrees.nFees, hagrees.refundSender,
    hagrees.refundOutputs⟩

/-- Every failed attempt of a run could be undone by putting the roots back,
and the database stores the state that it found. -/
def Undoable (N : Node) (A : BlockAssembler) (l : List Attempt) : Prop :=
  ∀ r ∈ l, r.added = false → Restorable N A r ∧ N.Stores r.found.state

/-- An attempt keeps the agreement, if it can be undone where it fails. -/
theorem Mirrors.attempt (h : Mirrors H N A p start a) (hvm : N.vm.LogBlind)
    (hp : p < A.originalRewardTx.vout.length) (hc : e.tx.hasCreateOrCall = true)
    (hu : Undoable N A [⟨e, a.aal, A.outputs e a, added⟩])
    (hx : A.attemptToAddContractToBlock H N now e a = .ok (added, a')) :
    Mirrors H N A p start a' := by
  obtain ⟨-, rfl⟩ | ⟨ex, w, results, hex, htry, hend⟩ := attempt_cases hx
  · exact h
  obtain ⟨rfl, rfl⟩ | ⟨rs, r, rfl, hres, -, happ⟩ := hend
  · obtain ⟨⟨hcoins, hstops⟩, hdb⟩ := hu _ (mem_singleton_self _) rfl
    have houts : A.outputs e a = ex.txs := by simp [outputs, hex]
    exact h.undone hdb (hcoins.elim h.coins id) (houts ▸ hstops) htry
  · exact h.applied hvm hp hc hex htry hres happ

/-! ## Every run -/

/-- What one turn of the loop over a package does. -/
theorem visit_cases {v : Visit} {b b' : Bool} (h : A.visit H N (a, b) v = .ok (a', b')) :
    a' = a ∨ (v.entry.tx.hasCreateOrCall = false ∧ a' = addToBlock v.entry a) ∨
      (v.entry.tx.hasCreateOrCall = true ∧ ∃ a₁,
        A.attemptToAddContractToBlock H N v.attemptNow v.entry a = .ok (b', a₁) ∧
        a' = { a₁ with attempts := a₁.attempts ++ [⟨v.entry, a.aal, A.outputs v.entry a, b'⟩] }) := by
  unfold visit at h
  split at h
  · obtain ⟨⟩ := h
    exact .inl rfl
  split at h
  · rename_i hc
    simp only [bind_eq_ok, Prod.exists] at h
    obtain ⟨added, a₁, hx, rfl, rfl⟩ := h
    exact .inr (.inr ⟨hc, a₁, hx, rfl⟩)
  · rename_i hc
    obtain ⟨⟩ := h
    exact .inr (.inl ⟨Bool.eq_false_iff.2 hc, rfl⟩)

/-- An attempt does not touch the record of attempts. -/
theorem attempt_attempts (h : A.attemptToAddContractToBlock H N now e a = .ok (added, a')) :
    a'.attempts = a.attempts := by
  obtain ⟨-, rfl⟩ | ⟨ex, w, results, -, -, ⟨-, rfl⟩ | ⟨rs, r, -, -, -, happ⟩⟩ := attempt_cases h
  · rfl
  · rfl
  · exact happ.attempts

variable {cs : List Candidate}

/-- **What every turn preserves, the assembling preserves.** -/
theorem addPackageTxs_induct {P : Assembly → Prop}
    (hvisit : ∀ a b v a' b', P a → A.visit H N (a, b) v = .ok (a', b') → P a') (h : P a)
    (hx : A.addPackageTxs H N cs a = .ok a') : P a' := by
  induction cs generalizing a with
  | nil =>
    obtain ⟨⟩ := hx
    exact h
  | cons c cs ih =>
    unfold addPackageTxs at hx
    split at hx
    · obtain ⟨⟩ := hx
      exact h
    split at hx
    · exact ih h hx
    simp only [bind_eq_ok, Prod.exists] at hx
    obtain ⟨a₁, b, hfold, hrest⟩ := hx
    refine ih ?_ hrest
    exact foldlM_induct (motive := fun _ s => P s.1) hfold h
      fun _ v s s' _ hs hv => hvisit s.1 s.2 v s'.1 s'.2 hs hv

/-- **One turn keeps the agreement.** -/
theorem visit_mirrors {v : Visit} {b b' : Bool} (hvm : N.vm.LogBlind)
    (hp : p < A.originalRewardTx.vout.length)
    (h : Undoable N A a.attempts → Mirrors H N A p start a)
    (hx : A.visit H N (a, b) v = .ok (a', b')) :
    Undoable N A a'.attempts → Mirrors H N A p start a' := by
  intro hu
  obtain rfl | ⟨hc, rfl⟩ | ⟨hc, a₁, hattempt, rfl⟩ := visit_cases hx
  · exact h hu
  · exact (h hu).addToBlock hc
  have hsame := attempt_attempts hattempt
  have hbefore : Undoable N A a.attempts := fun r hmem => hu r (by simp [hsame, hmem])
  have hlast : Undoable N A [⟨v.entry, a.aal, A.outputs v.entry a, b'⟩] := fun r hmem =>
    hu r (mem_append_right _ hmem)
  have hm := (h hbefore).attempt hvm hp hc hlast hattempt
  obtain ⟨s, hs, hagrees⟩ := hm.agrees
  exact ⟨hm.idle, hm.coins, hm.noted, hm.rewards, s, hs, hagrees.aal, hagrees.vtx,
    hagrees.nFees, hagrees.refundSender, hagrees.refundOutputs⟩

/-- **Every list of candidates keeps the agreement.** -/
theorem addPackageTxs_mirrors (hvm : N.vm.LogBlind) (hp : p < A.originalRewardTx.vout.length)
    (h : Mirrors H N A p start a) (hx : A.addPackageTxs H N cs a = .ok a')
    (hu : Undoable N A a'.attempts) : Mirrors H N A p start a' :=
  addPackageTxs_induct (P := fun a => Undoable N A a.attempts → Mirrors H N A p start a)
    (fun _ _ _ _ _ h hx => visit_mirrors hvm hp h hx) (fun _ => h) hx hu

/-- The first attempt of a run finds the state the run started from. -/
theorem addPackageTxs_first (h : a.attempts = []) (hx : A.addPackageTxs H N cs a = .ok a') :
    (a'.attempts = [] ∧ a'.aal = a.aal) ∨ ∃ r l, a'.attempts = r :: l ∧ r.found = a.aal := by
  refine addPackageTxs_induct (P := fun b => (b.attempts = [] ∧ b.aal = a.aal) ∨
    ∃ r l, b.attempts = r :: l ∧ r.found = a.aal) (fun b _ v b' _ hb hv => ?_) (.inl ⟨h, rfl⟩) hx
  obtain rfl | ⟨-, rfl⟩ | ⟨-, b₁, hattempt, rfl⟩ := visit_cases hv
  · exact hb
  · exact hb
  refine .inr ?_
  obtain ⟨hnil, haal⟩ | ⟨r, l, hcons, hr⟩ := hb
  · exact ⟨_, [], by rw [attempt_attempts hattempt, hnil]; rfl, haal⟩
  · exact ⟨r, _, by rw [attempt_attempts hattempt, hcons]; rfl, hr⟩

end BlockAssembler

end Slucore

import Slucore.Common.Failures
import Slucore.Validation.Delivery
import Slucore.Validation.Unique
/-!
# Validation — what shuts a node down

Of the failures of block validation one ends the node: `AbortNode`. It is
meant for broken disks. In `ConnectBlock` it answers a body that does not
match its header, which cannot be on disk when the body was checked
before it was stored, and, for the version with its own path, every body
that fails `CheckBlockSW`.
-/


namespace Slucore

namespace Failure

/-- The failure does not shut the node down. -/
def NotAbort : Failure → Prop
  | abortNode _ => False
  | _ => True

@[simp] theorem notAbort_dos {level reason corruption} : (dos level reason corruption).NotAbort :=
  trivial

@[simp] theorem notAbort_error {msg} : (error msg).NotAbort := trivial

@[simp] theorem notAbort_fatal {msg} : (fatal msg).NotAbort := trivial

variable {f : Failure}

theorem NotAbort.ofReward (h : f.NotAbort) : f.ofReward.NotAbort := by
  cases f with
  | abortNode msg => exact h.elim
  | _ => trivial

/-- The failure marks a block as invalid, or is the bare error that
`CheckBlock` ends with when the clock is behind. -/
def MarksUnless (behind : Prop) (f : Failure) : Prop :=
  f.marksInvalid = true ∨ behind ∧ ∃ msg, f = .error msg

variable {behind : Prop}

@[simp] theorem marksUnless_dos {level reason corruption} :
    (dos level reason corruption).MarksUnless behind ↔ corruption = false := by
  simp [MarksUnless, marksInvalid]

/-- `ConnectBlock` passes such a failure of `CheckBlock` on as it is. -/
theorem MarksUnless.ofCheckBlock (h : f.MarksUnless behind) :
    f.ofCheckBlock = f := by
  rcases h with h | ⟨-, msg, rfl⟩
  · cases f with
    | dos level reason corruption =>
      cases corruption with
      | true => cases h
      | false => rfl
    | _ => cases h
  · rfl

theorem MarksUnless.notAbort (h : f.MarksUnless behind) :
    f.NotAbort := by
  rcases h with h | ⟨-, msg, rfl⟩
  · cases f with
    | abortNode msg => cases h
    | _ => trivial
  · trivial

end Failure

open Failure ChainState Call

/-- The parts of the node that are not modelled do not shut it down, and
its disk writes succeed. -/
structure Node.Sound (N : Node) : Prop where
  checkProofOfStake : ∀ block view, FailsOnly NotAbort (N.checkProofOfStake block view)
  checkInputs : ∀ tx view, FailsOnly NotAbort (N.checkInputs tx view)
  writeIndexes : ∀ block, N.writeIndexes block = true

/-- The clock of the node is behind the time of a proof-of-stake block. -/
def Node.ClockBehind (N : Node) (block : CBlock) : Prop :=
  block.isProofOfStake = true ∧ futureDrift N.getAdjustedTime < block.nTime

variable {H : Hashes} {N : Node} {lim : BlockLimits} {block : CBlock} {tx : CTransaction}

/-! ## `CheckBlock` -/

section CheckBlock

variable {P : Failure → Prop} (hdos : ∀ level reason, P (.dos level reason))

include hdos

theorem failsOnly_checkTransaction : FailsOnly P (checkTransaction N lim tx) := by
  have hout : FailsOnly P (tx.vout.foldlM (checkOutput N tx) 0) :=
    failsOnly_foldlM (fun _ _ _ => by simp [checkOutput, hdos]) _
  simp [checkTransaction, checkPrevouts, hout, hdos]

theorem failsOnly_checkCoinbase {vtx : List CTransaction} : FailsOnly P (checkCoinbase vtx) := by
  cases vtx <;> simp [checkCoinbase, hdos]

theorem failsOnly_checkCoinstake (h : block.vtx ≠ []) : FailsOnly P (checkCoinstake block) := by
  unfold checkCoinstake
  split
  · exact absurd ‹_› h
  · rw [failsOnly_bind]
    refine ⟨by simp [hdos], fun _ _ => ?_⟩
    split <;> simp [hdos]

/-- **How `CheckBlock` fails:** with a mark against the block, apart from
the check of the root and the time of a proof-of-stake block. -/
theorem failsOnly_checkBlock {fCheckPOW fCheckMerkleRoot fCheckSig : Bool}
    (hroot : FailsOnly P (checkMerkleRoot H block))
    (htime : N.ClockBehind block → ∀ msg, P (.error msg)) :
    FailsOnly P (checkBlock H N lim block fCheckPOW fCheckMerkleRoot fCheckSig) := by
  have hloop : FailsOnly P (block.vtx.foldlM (checkBlockTransaction N lim) false) :=
    failsOnly_foldlM (fun _ _ _ => by
      simp [checkBlockTransaction, failsOnly_checkTransaction hdos, hdos]) _
  have hstake : checkCoinbase block.vtx = .ok () → FailsOnly P (checkCoinstake block) := by
    intro hcb
    obtain ⟨coinbase, rest, hfirst⟩ := coinbaseFirst_of_checkCoinbase hcb
    exact failsOnly_checkCoinstake hdos (by simp [hfirst.vtx_eq])
  have hlate : block.isProofOfStake = true → futureDrift N.getAdjustedTime < block.nTime →
      P (.error "CheckBlock() : block timestamp too far in the future") :=
    fun hpos hlt => htime ⟨hpos, hlt⟩ _
  have hbody : FailsOnly P
      (checkBlockBody H N lim false block fCheckPOW fCheckMerkleRoot fCheckSig) := by
    simp +contextual [checkBlockBody, checkBlockHeader, hroot, failsOnly_checkCoinbase hdos,
      hstake, hloop, hdos, hlate]
  simp [checkBlock, checkBlockWith, hbody]

end CheckBlock

theorem notAbort_checkBlock {fCheckPOW fCheckMerkleRoot fCheckSig : Bool} :
    FailsOnly NotAbort (checkBlock H N lim block fCheckPOW fCheckMerkleRoot fCheckSig) :=
  failsOnly_checkBlock (fun _ _ => trivial) (by simp [checkMerkleRoot]) (fun _ _ => trivial)

variable {fJustCheck : Bool}

/-- **The call of `CheckBlock` in `ConnectBlock`**, for a body that its
Merkle root commits to, fails with a mark against the block unless the
clock is behind. -/
theorem marksUnless_recheckBlock (h : block.RootCommits H) (hne : block.nVersion ≠ swVersion) :
    FailsOnly (MarksUnless (N.ClockBehind block)) (recheckBlock H N lim block fJustCheck) := by
  have hroot : checkMerkleRoot H block = .ok () := by
    simp [checkMerkleRoot, h.1, h.2]
  have hcheck : FailsOnly (MarksUnless (N.ClockBehind block))
      (checkBlock H N lim block (!fJustCheck) (!fJustCheck) true) :=
    failsOnly_checkBlock (fun _ _ => .inl rfl) (by simp [hroot]) (fun hb _ => .inr ⟨hb, _, rfl⟩)
  unfold recheckBlock
  rw [if_pos hne, failsOnly_mapError]
  intro f hf
  have hmarks := hcheck f hf
  rwa [hmarks.ofCheckBlock]

/-! ## `ConnectBlock` -/

section Loop

variable {C : BlockContext} {s : ConnectState}

variable {view : CCoinsViewCache}

theorem CCoinsViewCache.notAbort_addCoin {o : COutPoint} {coin : Coin} {possibleOverwrite : Bool} :
    FailsOnly NotAbort (view.addCoin o coin possibleOverwrite) := by
  simp [addCoin]

theorem CCoinsViewCache.notAbort_updateCoins {nHeight : ℕ} :
    FailsOnly NotAbort (view.updateCoins H tx nHeight) := by
  have hspend : FailsOnly NotAbort (view.spendInputs tx) := by
    unfold spendInputs
    rw [failsOnly_ite]
    refine ⟨fun _ => failsOnly_ok, fun _ => failsOnly_foldlM (fun s i _ => ?_) _⟩
    unfold spendInput
    split <;> simp
  have hadd : ∀ v : CCoinsViewCache, FailsOnly NotAbort (v.addCoins H tx nHeight) := fun v =>
    failsOnly_foldlM (fun s p _ => notAbort_addCoin) _
  simp [updateCoins, hspend, hadd]

namespace BlockContext

theorem notAbort_checkTxInputs {inputs : CCoinsViewCache} {nSpendHeight : ℕ} :
    FailsOnly NotAbort (checkTxInputs inputs nSpendHeight tx) := by
  have hin : FailsOnly NotAbort (tx.vin.foldlM (checkInput inputs nSpendHeight) 0) :=
    failsOnly_foldlM (fun _ _ _ => by simp [checkInput]) _
  simp [checkTxInputs, hin]

theorem notAbort_verifyInputs (hN : N.Sound) : FailsOnly NotAbort (verifyInputs N tx s) := by
  have hstake : FailsOnly NotAbort (readStake N tx s) := by simp [readStake]
  simp [verifyInputs, hstake, hN.checkInputs]

theorem notAbort_runContracts : FailsOnly NotAbort (runContracts H N C tx s) := by
  have hcheck : FailsOnly NotAbort (checkContracts N C tx s) := by
    have hloop : ∀ nTxFee g (txs : List SilubiumTransaction),
        FailsOnly NotAbort (txs.foldlM (checkContractOutput C nTxFee) g) := fun _ g _ =>
      failsOnly_foldlM (fun _ _ _ => by simp [checkContractOutput]) g
    simp [checkContracts, hloop]
  have hexec : ∀ txs w, FailsOnly NotAbort (executeContracts H N C txs w) := fun txs w => by
    simp [executeContracts]
  simp [runContracts, hcheck, hexec]

/-- **No transaction shuts the node down.** -/
theorem notAbort_connectTx (hN : N.Sound) {p : CTransaction × ℕ} :
    FailsOnly NotAbort (C.connectTx H N s p) := by
  simp [connectTx, chargeFee, notAbort_checkTxInputs, countSigOps, notAbort_verifyInputs hN,
    countValues, notAbort_runContracts, applyCoins, CCoinsViewCache.notAbort_updateCoins]

end BlockContext

end Loop

theorem notAbort_checkReward {nHeight : ℕ} {nFees gasRefunds nActualStakeReward utxoInterest : ℤ}
    {vouts : List CTxOut} : FailsOnly NotAbort ((checkReward N block nHeight nFees gasRefunds
      nActualStakeReward vouts utxoInterest).mapError Failure.ofReward) := by
  have hreward : FailsOnly NotAbort
      (checkReward N block nHeight nFees gasRefunds nActualStakeReward vouts utxoInterest) := by
    unfold checkReward
    split
    · rename_i result hearly
      unfold checkRewardEarly at hearly
      have : result = .ok () ∨ result = .error (.error "") := by
        repeat' split at hearly
        all_goals simp_all
      rcases this with rfl | rfl <;> simp
    · simp [checkMPoSShares]
  rw [failsOnly_mapError]
  exact fun f hf => (hreward f hf).ofReward

variable {pindex : CBlockIndex}

/-- **A block of any other version whose body is the one its header commits
to does not shut the node down.** -/
theorem notAbort_connectBlock {pprev : Option CBlockIndex}
    {view : CCoinsViewCache} {aal : AalState} (hN : N.Sound)
    (h : block.RootCommits H) (hne : block.nVersion ≠ swVersion) :
    FailsOnly NotAbort (connectBlock H N lim block pindex pprev view aal fJustCheck) := by
  have hprelude : ∀ lim, FailsOnly NotAbort
      (connectPrelude H N lim block pindex pprev view fJustCheck) := fun lim => by
    have hcheck : FailsOnly NotAbort (recheckBlock H N lim block fJustCheck) :=
      fun f hf => (marksUnless_recheckBlock h hne f hf).notAbort
    simp [connectPrelude, hcheck]
  have hproof : FailsOnly NotAbort (updateHashProof N block pindex.nHeight view) := by
    simp [updateHashProof, hN.checkProofOfStake]
  have hloop : ∀ C, FailsOnly NotAbort (connectTransactions H N C view aal) := fun C =>
    failsOnly_foldlM (fun _ _ _ => BlockContext.notAbort_connectTx hN) _
  have hafter : ∀ s, FailsOnly NotAbort
      (checkConnected H N block pindex.nHeight s fJustCheck) := fun s => by
    simp [checkConnected, notAbort_checkReward]
  have hbody : ∀ lim pprev, FailsOnly NotAbort
      (connectBody H N lim block pindex pprev view aal fJustCheck) := fun lim pprev => by
    simp [connectBody, checkBIP30, hloop, hafter, hN.writeIndexes]
  simp [connectBlock, hprelude, hproof, hbody]

/-- **A block that fails `CheckBlock` is marked when it is connected.** -/
theorem marks_connectBlock (pprev : Option CBlockIndex)
    (view : CCoinsViewCache) {aal : AalState} {e : Failure} (h : block.RootCommits H)
    (hne : block.nVersion ≠ swVersion) (hclock : ¬ N.ClockBehind block)
    (hhash : pindex.blockHash = block.getHash H)
    (hcheck : recheckBlock H N (nextLimits lim (N.dgp aal.state (pindex.nHeight + 1))) block false =
      .error e) :
    ∃ f, connectBlock H N lim block pindex pprev view aal false = .error f ∧
      f.marksInvalid = true := by
  have hmarks := marksUnless_recheckBlock h hne e hcheck
  have hprelude : FailsOnly (MarksUnless (N.ClockBehind block)) (connectPrelude H N
      (nextLimits lim (N.dgp aal.state (pindex.nHeight + 1))) block pindex pprev view false) := by
    simp [connectPrelude, hcheck, hmarks, hhash]
  cases hp : connectPrelude H N (nextLimits lim (N.dgp aal.state (pindex.nHeight + 1))) block pindex
      pprev view false with
  | error f =>
    refine ⟨f, by simp [connectBlock, hp], ?_⟩
    exact (hprelude f hp).resolve_right fun hb => hclock hb.1
  | ok u => simp [connectPrelude, hcheck] at hp

/-! ## `AcceptBlock` -/

section Accept

variable {I : Intake} {st : ChainState} {fRequested : Bool} {P : Failure → Prop}

/-- The failures of `AcceptBlock` beside those of the checks of the coinbase
and the body: what it calls fails with one of `P`, and so does every
rejection. -/
structure Intake.FailsOnly (P : Failure → Prop) (I : Intake) : Prop where
  dos : ∀ level reason corruption, P (.dos level reason corruption)
  error : ∀ msg, P (.error msg)
  checkNewHeader : ∀ header, Slucore.FailsOnly P (I.checkNewHeader header)

theorem failsOnly_acceptBlockHeader (hI : I.FailsOnly P) :
    FailsOnly P (st.acceptBlockHeader H I block) := by
  unfold acceptBlockHeader
  split
  · exact failsOnly_ok
  · split
    · simp [hI.dos]
    · simp [hI.checkNewHeader, Intake.contextualCheckBlockHeader, checkBlockHeader, hI.dos]

/-- The proof of stake is not checked before the block is connected. -/
theorem failsOnly_checkArrival {pindex : CBlockIndex} (hI : I.FailsOnly P)
    (hheight : FailsOnly P (checkCoinbaseHeight I.consensus block pindex.nHeight)) :
    FailsOnly P (checkArrival I st block pindex) := by
  have hproof : block.isProofOfWork = true →
      FailsOnly P (updateHashProof I.toNode block pindex.nHeight I.pcoinsTip) := by
    intro hpow
    have hpos : block.isProofOfStake = false := by simpa [CBlockHeader.isProofOfWork] using hpow
    simp [updateHashProof, hpos, hI.dos]
  simpa [checkArrival, hheight, hI.dos, hI.error] using hproof

/-- **How `AcceptBlock` fails.** -/
theorem failsOnly_acceptBlock (hI : I.FailsOnly P)
    (hheight : ∀ nHeight, FailsOnly P (checkCoinbaseHeight I.consensus block nHeight))
    (hbody : FailsOnly P (checkBody H I lim block)) :
    FailsOnly P (acceptBlock H I lim st block fRequested).2 := by
  unfold acceptBlock
  split
  · rename_i f hf
    exact failsOnly_error.2 (failsOnly_acceptBlockHeader hI f hf)
  split
  · rename_i f hf
    exact failsOnly_error.2 (failsOnly_checkArrival hI (hheight _) f hf)
  split
  · split
    · rename_i f hf
      exact failsOnly_error.2 (hbody f hf)
    · split <;> simp [hI.error]
  · exact failsOnly_ok

/-- As for `Node.Sound`, of what `AcceptBlock` calls. -/
structure Intake.Sound (I : Intake) : Prop extends I.FailsOnly NotAbort where
  contextualCheckBlock : ∀ block, Slucore.FailsOnly NotAbort (I.contextualCheckBlock block)

/-- `AcceptBlock` never shuts the node down. -/
theorem notAbort_acceptBlock (hI : I.Sound) :
    FailsOnly NotAbort (acceptBlock H I lim st block fRequested).2 :=
  failsOnly_acceptBlock hI.toFailsOnly (fun _ => by simp [checkCoinbaseHeight])
    (by simp [checkBody, notAbort_checkBlock, hI.contextualCheckBlock])

theorem notAbort_processNewBlock (hI : I.Sound) :
    FailsOnly NotAbort (processNewBlock H I lim st block fRequested).2 := by
  unfold processNewBlock
  split
  · split
    · rename_i f hf
      exact failsOnly_error.2 (notAbort_checkBlock f hf)
    · exact notAbort_acceptBlock hI
  · repeat' split
    all_goals simp [notAbort_acceptBlock hI]

end Accept

/-! ## Whole runs -/

/-- A body of another version that its header commits to, with its proof of
work. -/
structure Genuine (H : Hashes) (pow : CBlockHeader → Bool) (block : CBlock) : Prop where
  version : block.nVersion ≠ swVersion
  root : block.RootCommits H
  proof : block.isProofOfStake = true ∨ pow block.toCBlockHeader = true

/-- The node can read what it has: the index knows its hashes, a header
with a body has one on disk that was checked, and so has every block of
the active chain. -/
structure NodeState.Sturdy (H : Hashes) (pow : CBlockHeader → Bool) (g : NodeState) : Prop where
  index : ∀ hash e, g.chain.entry hash = some e → e.blockHash = hash
  stored : ∀ hash body, g.chain.stored hash = some body → body.getHash H = hash ∧ Genuine H pow body
  present : ∀ hash, g.chain.haveData hash = true → (g.chain.stored hash).isSome = true
  active : ∀ block ∈ g.active, (g.chain.stored (block.getHash H)).isSome = true
  pblock : ∀ block, g.pblock = some block → Genuine H pow block

/-- The calls of a node whose disk works and whose proof of work is `pow`,
and that is sent no block of the version with its own path. A block has
the flag `fChecked` only when it was checked. -/
def Call.Fair (H : Hashes) (pow : CBlockHeader → Bool) : Call → Prop
  | .process I block _ | .accept I block => I.Sound ∧ I.checkHeaderPoW = pow ∧
      block.nVersion ≠ swVersion ∧ (block.fChecked = true → Genuine H pow block)
  | .connectTip N _ _ => N.Sound ∧ N.checkHeaderPoW = pow
  | .disconnectTip N => N.checkHeaderPoW = pow

section Runs

variable {pow : CBlockHeader → Bool} {g : NodeState} {call : Call}

variable {block' : CBlock}

theorem Genuine.congr (h : Genuine H pow block)
    (hheader : block'.toCBlockHeader = block.toCBlockHeader) (hvtx : block'.vtx = block.vtx) :
    Genuine H pow block' := by
  obtain ⟨hv, hroot, hproof⟩ := h
  refine ⟨by rwa [hheader], ?_, by rwa [hheader]⟩
  rw [CBlock.RootCommits, hheader, hvtx]
  exact hroot

/-- A block that `CheckBlock` accepts is genuine. -/
theorem genuine_of_checkBlock (hpow : N.checkHeaderPoW = pow)
    (hne : block.nVersion ≠ swVersion) (hflag : block.fChecked = true → Genuine H pow block)
    (h : checkBlock H N lim block true true true = .ok block') : Genuine H pow block := by
  rcases Bool.eq_false_or_eq_true block.fChecked with hf | hf
  · exact hflag hf
  have hroot := (shape_of_checkBlockWith (fun hc => absurd hc (by simp [hf])) h).2 rfl
  refine ⟨hne, hroot, ?_⟩
  simp only [checkBlock, checkBlockWith, hf, checkBlockBody, checkBlockHeader, bind_eq_ok,
    require_eq_ok, Bool.false_eq_true, if_false] at h
  obtain ⟨-, ⟨-, ⟨-, hproof, -⟩, -⟩, -⟩ := h
  subst hpow
  cases hpos : block.isProofOfStake with
  | true => exact .inl rfl
  | false => right; simpa [CBlockHeader.isProofOfWork, hpos] using hproof

theorem Call.Fair.delivered {I : Intake} (h : call.Fair H pow)
    (hdel : call.delivers = some (I, block)) : I.Sound ∧ I.checkHeaderPoW = pow ∧
      block.nVersion ≠ swVersion ∧ (block.fChecked = true → Genuine H pow block) := by
  cases call with
  | process I' block' f =>
    obtain ⟨⟩ := hdel
    exact h
  | accept I' block' =>
    obtain ⟨⟩ := hdel
    exact h
  | _ => cases hdel

/-- What a fair call delivers is genuine if it passes `CheckBlock`. -/
theorem Call.Fair.genuine {I : Intake} (h : call.Fair H pow)
    (hdel : call.delivers = some (I, block))
    (hcheck : checkBlock H I.toNode lim block true true true = .ok block') :
    Genuine H pow block := by
  obtain ⟨-, hpow, hne, hflag⟩ := h.delivered hdel
  exact genuine_of_checkBlock hpow hne hflag hcheck

variable {hash : UInt256}

/-- A hash that has a body keeps having one. -/
theorem Call.run_stored_isSome (h : (g.chain.stored hash).isSome = true) :
    ((call.run H g).1.chain.stored hash).isSome = true := by
  rcases call.run_bodies H g with ⟨hst, -⟩ | ⟨I, block, body, hs⟩
  · rwa [hst]
  rw [hs.stores.stored]
  by_cases hh : hash = body.getHash H
  · subst hh
    simp
  · rwa [Function.update_of_ne hh]

/-- **The step lemma:** a fair call keeps the node able to read what it
has. -/
theorem NodeState.Sturdy.step (h : g.Sturdy H pow) (henabled : call.Enabled g)
    (hfair : call.Fair H pow) : (call.run H g).1.Sturdy H pow := by
  have hbodies := call.run_bodies H g
  refine ⟨fun hash e he => ?_, fun hash body hbody => ?_, fun hash hdata => ?_, fun block hmem => ?_,
    fun block hblock => ?_⟩
  · rcases run_entry he with he | ⟨I, block, -, rfl, rfl⟩
    · exact h.index hash e he
    cases hm : g.chain.mapBlockIndex (block.getHash H) with
    | none => simp [addToBlockIndex, hm, CBlockIndex.fixed]
    | some p =>
      have hp := h.index _ p.fixed (by rw [entry, hm]; rfl)
      simpa [addToBlockIndex, hm] using hp
  · rcases hbodies with ⟨hst, -⟩ | ⟨I, block, body', hs⟩
    · exact h.stored hash body (hst ▸ hbody)
    rcases hs.stores.cases hbody with ⟨rfl, rfl⟩ | ⟨-, hbody⟩
    · obtain ⟨block', hcheck⟩ := (hs.checked (hfair.delivered hs.delivers).2.2.1).1
      exact ⟨rfl, (hfair.genuine hs.delivers hcheck).congr hs.header hs.vtx⟩
    · exact h.stored hash body hbody
  · rcases hbodies with ⟨hst, hd⟩ | ⟨I, block, body, hs⟩
    · rw [hst]
      exact h.present hash (hd ▸ hdata)
    by_cases hh : hash = body.getHash H
    · subst hh
      rw [hs.stores.stored_self]
      rfl
    · rw [hs.stores.haveData, Function.update_of_ne hh] at hdata
      exact run_stored_isSome (h.present hash hdata)
  · refine run_stored_isSome ?_
    rcases mem_run_active hmem with hmem | ⟨N, hash, pindex, c, hj⟩
    · exact h.active block hmem
    · -- the index of a block that is connected has its body
      obtain ⟨passed, rfl⟩ := hj.call_eq
      obtain ⟨p, hp, hdata, -⟩ := henabled
      rw [hj.candidate.1]
      exact h.present hash (by simp [haveData, hp, hdata])
  · rcases run_pblock hblock with ⟨-, hp⟩ | ⟨I, block₁, f, rfl, hheader, hvtx, hcheck⟩
    · exact h.pblock block hp
    · obtain ⟨hcheck, -⟩ := hcheck (hfair.delivered rfl).2.2.1
      exact (hfair.genuine rfl hcheck).congr hheader hvtx

/-- **The run lemma.** -/
theorem NodeState.Sturdy.run {g₀ : NodeState} (h : g₀.Sturdy H pow)
    (hrun : Run H (fun _ call => call.Fair H pow) g₀ g) : g.Sturdy H pow :=
  hrun.induct h fun _ _ henabled hfair hg => hg.step henabled hfair

/-- What the node has on disk it can read. -/
theorem NodeState.Sturdy.readBlockFromDisk_ne_none (h : g.Sturdy H pow)
    (hpow : N.checkHeaderPoW = pow) (hs : (g.chain.stored hash).isSome = true) :
    g.readBlockFromDisk H N hash ≠ none := by
  obtain ⟨body, hbody⟩ := Option.isSome_iff_exists.1 hs
  obtain ⟨hhash, hgen⟩ := h.stored hash body hbody
  have hproof : (body.isProofOfStake || N.checkHeaderPoW body.toCBlockHeader) = true := by
    rw [hpow]
    simpa using hgen.proof
  simp only [readBlockFromDisk, hbody, Option.bind_some, hproof, hhash, beq_self_eq_true]
  exact Option.some_ne_none _

/-- A candidate of a node that can read what it has is genuine. -/
theorem NodeState.Sturdy.genuine (h : g.Sturdy H pow)
    (hc : g.Candidate H hash block) : Genuine H pow block := by
  obtain ⟨-, hp | ⟨body, hbody, rfl⟩⟩ := hc
  · exact h.pblock block hp
  · exact (h.stored hash body hbody).2.congr rfl rfl

/-- **No enabled call of such a node shuts it down.** -/
theorem NodeState.Sturdy.notAbort (h : g.Sturdy H pow) (henabled : call.Enabled g)
    (hfair : call.Fair H pow) : FailsOnly NotAbort (call.run H g).2 := by
  have hmap : ∀ {α : Type} {r : Except Failure α}, FailsOnly NotAbort r →
      FailsOnly NotAbort (r.map fun _ => ()) := failsOnly_map.2
  cases call with
  | process I block f => exact hmap (notAbort_processNewBlock hfair.1)
  | accept I block => exact hmap (notAbort_acceptBlock hfair.1)
  | connectTip N hash passed =>
    obtain ⟨hN, hpow⟩ := hfair
    obtain ⟨p, hp, hdata, -⟩ := henabled
    change FailsOnly NotAbort (g.connectTip H N hash passed).2
    rcases g.connectTip_cases H N hash passed with
      ⟨-, f, hf, hwhy⟩ | ⟨block, pindex, hblock, -, -, heq⟩
    · rw [hf, failsOnly_error]
      rcases hwhy with ⟨msg, rfl⟩ | hnone
      · trivial
      · have hs := h.present hash (by simp [haveData, hp, hdata])
        exact absurd hnone (h.readBlockFromDisk_ne_none hpow hs)
    · have hgen := h.genuine (candidate_of_blockToConnect hblock)
      rw [heq]
      rcases g.connectTipWith_cases N hash block pindex with ⟨f, hf, hr, -⟩ | ⟨c, -, hr, -⟩
      · rw [hr, failsOnly_error]
        exact notAbort_connectBlock hN hgen.root hgen.version f hf
      · rw [hr]
        exact failsOnly_ok
  | disconnectTip N =>
    change FailsOnly NotAbort (g.disconnectTip H N).2
    rcases (disconnectTip_cases (g := g)).2.2 with
      ⟨f, hf, -, hwhy⟩ | ⟨tip, rest, pprev, -, -, hr, -⟩
    · rw [hf, failsOnly_error]
      rcases hwhy with ⟨msg, rfl | rfl⟩ | ⟨tip, htip, hnone⟩
      · trivial
      · trivial
      · exact absurd hnone (h.readBlockFromDisk_ne_none hfair (h.active tip htip))
    · rw [hr]
      exact failsOnly_ok

/-- A block that fails `CheckBlock` does not get in: `ProcessNewBlock`
leaves it, `AcceptBlock` does not store it, and `ConnectTip` marks its
index, where the tip and its coins stay. -/
def Call.RejectsBad (H : Hashes) (g : NodeState) (call : Call) : Prop :=
  match call with
  | .process I block _ => ∀ e, checkBlock H I.toNode g.lim block true true true = .error e →
      (call.run H g).1 = { g with pblock := none }
  | .accept I block => ∀ e, checkBlock H I.toNode g.lim block true true true = .error e →
      LeavesBodies g.chain (call.run H g).1.chain ∧ (call.run H g).1.active = g.active ∧
        (call.run H g).1.coinsTip = g.coinsTip
  | .connectTip N hash passed => ∀ block pindex e,
      g.blockToConnect H N hash passed = some block → g.chain.mapBlockIndex hash = some pindex →
      block.hashPrevBlock = g.tipHash H → ¬ N.ClockBehind block →
      recheckBlock H N (nextLimits g.lim (N.dgp g.aal.state (pindex.nHeight + 1))) block false =
        .error e →
      (call.run H g).1.chain.mapBlockIndex hash = some { pindex with failedValid := true } ∧
        (call.run H g).1.active = g.active ∧ (call.run H g).1.coinsTip = g.coinsTip
  | .disconnectTip _ => True

theorem NodeState.Sturdy.rejectsBad (h : g.Sturdy H pow) (hfair : call.Fair H pow) :
    call.RejectsBad H g := by
  cases call with
  | process I block f =>
    intro e he
    obtain ⟨-, -, hne, -⟩ := hfair
    simp [Call.run, processNewBlock, activationBlock, hne, he, Except.toOption]
  | accept I block =>
    intro e he
    obtain ⟨-, -, hne, -⟩ := hfair
    refine ⟨?_, rfl, rfl⟩
    rcases acceptBlock_cases (r := (acceptBlock H I g.lim g.chain block true).2) rfl with
      ⟨hleaves, -⟩ | ⟨-, hbody⟩
    · exact hleaves
    · simp [checkBody, hne, he] at hbody
  | connectTip N hash passed =>
    intro block pindex e hblock hindex hprev hclock he
    have hcand := candidate_of_blockToConnect hblock
    have hgen := h.genuine hcand
    have hhash : pindex.blockHash = block.getHash H := by
      rw [hcand.1]
      exact h.index hash pindex.fixed (by rw [entry, hindex]; rfl)
    obtain ⟨f, hf, hmarks⟩ := marks_connectBlock (g.tipIndex H)
      (.ofBase g.coinsTip) hgen.root hgen.version hclock hhash he
    have hrun : (Call.connectTip N hash passed).run H g =
        g.connectTipWith H N hash block pindex := by
      simp [Call.run, connectTip, hblock, hindex, hprev]
    rw [hrun]
    rcases g.connectTipWith_cases N hash block pindex with
      ⟨f', hf', -, hact, hcoins, -, hchain⟩ | ⟨c, hc, -⟩
    · obtain rfl : f = f' := by
        rw [hf] at hf'
        exact Except.error.inj hf'
      refine ⟨?_, hact, hcoins⟩
      rw [hchain, if_pos hmarks]
      simp [setIndex]
    · rw [hf] at hc
      cases hc
  | disconnectTip N => trivial

end Runs

/-- **In every run that delivers no block of the version with its own path
no call shuts the node down**, and no block that fails `CheckBlock` gets
in. -/
theorem run_rejects_without_abort {H : Hashes} {pow : CBlockHeader → Bool} {g₀ g : NodeState}
    (call : Call) (h : g₀.Sturdy H pow) (hrun : Run H (fun _ call => call.Fair H pow) g₀ g)
    (henabled : call.Enabled g) (hfair : call.Fair H pow) :
    (∀ msg, (call.run H g).2 ≠ .error (.abortNode msg)) ∧ call.RejectsBad H g := by
  have hg := h.run hrun
  exact ⟨fun msg hmsg => hg.notAbort henabled hfair _ hmsg, hg.rejectsBad hfair⟩

/-! ## A block that shuts the node down -/

/-- The first block of the sample chain, of hash 7. -/
def genesisBlock : CBlock := coinbaseBlock 0 7 0

/-- A node that has the genesis block only. -/
def genesisState : NodeState where
  chain :=
    { mapBlockIndex := fun hash => if hash = 7 then some { sampleParent with nHeight := 0 } else none
      stored := fun hash => if hash = 7 then some genesisBlock else none }
  active := [genesisBlock]
  coinsTip := ⟨fun _ => none, 7, CCoinsView.unspent_none⟩
  aal := idleWorld
  lim := sampleLimits
  undo := fun _ => none
  pblock := none

theorem genesisBlock_genuine : Genuine coinbaseHashes (fun _ => true) genesisBlock :=
  ⟨by decide, ⟨by decide, by decide⟩, .inr rfl⟩

theorem genesisState_sturdy : genesisState.Sturdy coinbaseHashes fun _ => true where
  index := by
    intro hash e he
    simp only [entry, genesisState] at he
    split at he
    · rename_i h7
      obtain ⟨⟩ := he
      exact h7.symm
    · cases he
  stored := by
    intro hash body hbody
    simp only [genesisState] at hbody
    split at hbody
    · rename_i h7
      obtain ⟨⟩ := hbody
      exact ⟨h7.symm, genesisBlock_genuine⟩
    · cases hbody
  present := by
    intro hash hdata
    by_cases h7 : hash = 7
    · simp [genesisState, h7]
    · simp [haveData, genesisState, h7] at hdata
  active := by
    intro block hmem
    rw [List.mem_singleton.1 hmem]
    rfl
  pblock := by
    intro block h
    cases h

theorem sampleIntake_sound : sampleIntake.Sound where
  dos _ _ _ := trivial
  error _ := trivial
  checkNewHeader _ := failsOnly_ok
  contextualCheckBlock _ := failsOnly_ok

/-- A block with two coinbases, which `CheckBlock` refuses. -/
def twinBlock (nVersion : ℤ) : CBlock :=
  { coinbaseBlock 1 901 7 with nVersion := nVersion, vtx := [coinbaseAt 1, coinbaseAt 1] }

theorem twinBlock_rejected : ((Call.process sampleIntake (twinBlock 0x20000000) true).run
    coinbaseHashes genesisState).1 = genesisState := by
  refine (run_rejects_without_abort (.process sampleIntake (twinBlock 0x20000000) true)
    genesisState_sturdy .start trivial
    ⟨sampleIntake_sound, rfl, by decide, (fun h => by cases h)⟩).2 (.dos 100 "bad-txnmrklroot" true) ?_
  decide

/-- The node after a block of the version with its own path was processed. -/
def twinState : NodeState :=
  ((Call.process sampleIntake (twinBlock swVersion) true).run coinbaseHashes genesisState).1

theorem twinState_index : twinState.chain.mapBlockIndex 901 = some
    { sampleParent with
      nHeight := 1, blockHash := 901, nTime := 901, nChainWork := 1, nTx := 2, haveData := true } := by
  decide

/-- An abort of `ConnectTip` leaves the index as it is. -/
theorem NodeState.connectTip_chain_of_abort {g : NodeState} {hash : UInt256} {passed : Bool}
    {msg : String} (h : (g.connectTip H N hash passed).2 = .error (.abortNode msg)) :
    (g.connectTip H N hash passed).1.chain = g.chain := by
  rcases g.connectTip_cases H N hash passed with ⟨hg, -⟩ | ⟨block, pindex, -, -, -, heq⟩
  · rw [hg]
  rw [heq] at h ⊢
  rcases g.connectTipWith_cases N hash block pindex with
    ⟨f, -, hr, -, -, -, hchain⟩ | ⟨c, -, hr, -⟩
  · obtain rfl : f = .abortNode msg := Except.error.inj (hr.symm.trans h)
    exact hchain
  · rw [hr] at h
    cases h

theorem twinState_aborts : (twinState.connectTip coinbaseHashes sampleNode 901 true).2 =
    .error (.abortNode "Corrupt SWblock found indicating potential hardware failure") := by
  decide

/-- **A block can shut the node down.** It fails `CheckBlock` and has the
version with its own path; it is stored all the same, and connecting it
ends in `AbortNode` with its index not marked. -/
theorem bad_block_shuts_down : ∃ (H : Hashes) (pow : CBlockHeader → Bool) (g₀ : NodeState)
    (I : Intake) (block : CBlock) (msg : String), g₀.Sturdy H pow ∧ I.Sound ∧
      I.checkHeaderPoW = pow ∧ block.fChecked = false ∧
      (checkBlock H I.toNode g₀.lim block true true true).toOption = none ∧
      let g := ((Call.process I block true).run H g₀).1
      let call := connectTip I.toNode (block.getHash H) true
      call.Enabled g ∧ (call.run H g).2 = .error (.abortNode msg) ∧
        g.chain.stored (block.getHash H) = some block ∧
        (call.run H g).1.chain = g.chain := by
  exact ⟨coinbaseHashes, fun _ => true, genesisState, sampleIntake, twinBlock swVersion, _,
    genesisState_sturdy, sampleIntake_sound, rfl, rfl, by decide,
    ⟨_, twinState_index, rfl, rfl⟩, twinState_aborts, by decide,
    NodeState.connectTip_chain_of_abort twinState_aborts⟩

end Slucore

import Slucore.Validation.NoAbort
import Slucore.Validation.WitnessBinding
/-!
# Validation — which blocks are indexed out of range

The source reads `vtx[1]->vout[1]` and `vtx[0]->vin[0]` of a block that
arrives. In the model an access out of range is a failure of the kind
`fatal`. What guards the accesses is `CheckBlock`, which the version with
its own path is spared, and which `AcceptBlock` calls only after it has
read the coinbase. Before that it looks at the header alone, which has to
be of version 4 at least.
-/


namespace Slucore

open Failure

/-- The failure is not an access out of range, a failed assertion or an
exception. -/
def Failure.NotFatal : Failure → Prop
  | fatal _ => False
  | _ => True

@[simp] theorem Failure.notFatal_dos {level reason corruption} :
    (dos level reason corruption).NotFatal := trivial

@[simp] theorem Failure.notFatal_error {msg} : (error msg).NotFatal := trivial

theorem Failure.NotFatal.withReason {f : Failure} {reason : String} (h : f.NotFatal) :
    (f.withReason reason).NotFatal := by
  cases f with
  | fatal msg => exact h.elim
  | _ => trivial

/-- `vtx[0]->vin[0]` is in range. -/
def CBlock.HasCoinbaseInput (block : CBlock) : Prop :=
  ∃ coinbase rest i vin, block.vtx = coinbase :: rest ∧ coinbase.vin = i :: vin

/-- A node whose parts that are not modelled end in no fatal failure, whose
contextual check is the one of the source, and for which versions below 4
are outdated from the start, as on the three networks. -/
structure Intake.Quiet (H : Hashes) (parentOf : UInt256 → ParentContext) (I : Intake) : Prop where
  failsOnly : I.FailsOnly NotFatal
  contextual : I.Contextual H parentOf
  upgraded : I.consensus.bip65Height ≤ 0

/-- The block is not the genesis block, and its header is in the index only
if it is of a version that gets there. -/
structure ChainState.Meets (H : Hashes) (I : Intake) (st : ChainState) (block : CBlock) : Prop where
  notGenesis : block.getHash H ≠ I.consensus.hashGenesisBlock
  indexed : (st.mapBlockIndex (block.getHash H)).isSome = true → 4 ≤ block.nVersion

variable {H : Hashes} {N : Node} {I : Intake} {lim : BlockLimits} {st : ChainState}
variable {block : CBlock} {fRequested : Bool} {parentOf : UInt256 → ParentContext}

/-! ## Guarded accesses -/

theorem notFatal_checkBlock : FailsOnly NotFatal (checkBlock H N lim block true true true) :=
  failsOnly_checkBlock (fun _ _ => trivial) (by simp [checkMerkleRoot]) (fun _ _ => trivial)

theorem CBlock.HasCoinbaseInput.notFatal {P : ConsensusParams} {nHeight : ℕ}
    (h : block.HasCoinbaseInput) : FailsOnly NotFatal (checkCoinbaseHeight P block nHeight) := by
  obtain ⟨coinbase, rest, i, vin, hvtx, hvin⟩ := h
  simp [checkCoinbaseHeight, hvtx, hvin]

/-- A checked block has the input. -/
theorem Shape.hasCoinbaseInput (h : Shape block) : block.HasCoinbaseInput := by
  obtain ⟨⟨coinbase, rest, hfirst, -⟩, hchecked⟩ := h
  have hmem : coinbase ∈ block.vtx := by simp [hfirst.vtx_eq]
  obtain ⟨i, vin, hvin⟩ := List.exists_cons_of_ne_nil (hchecked coinbase hmem).vin_ne_nil
  exact ⟨coinbase, rest, i, vin, hfirst.vtx_eq, hvin⟩

/-- **`ContextualCheckBlock` stays in range on a checked block.** -/
theorem Shape.notFatal_contextualCheckBlock (h : Shape block) {P : ConsensusParams}
    {Q : ParentContext} : FailsOnly NotFatal (contextualCheckBlock H P Q block) := by
  have hheight : FailsOnly NotFatal (checkContextualHeight P Q.nHeight block) := by
    unfold checkContextualHeight
    rw [failsOnly_mapError]
    exact fun f hf => (h.hasCoinbaseInput.notFatal f hf).withReason
  have hwitness : FailsOnly NotFatal (checkWitness H Q block) := by
    rcases checkWitness_cases (H := H) (P := Q) h with ⟨hok, -⟩ | ⟨reason, hbad⟩
    · simp [hok]
    · simp [hbad]
  simp [contextualCheckBlock, hheight, hwitness]

/-- **`AcceptBlock` stays in range on a block with an input in its first
transaction**, if a block that passes `CheckBlock` has the shape it
should. -/
theorem CBlock.HasCoinbaseInput.notFatal_acceptBlock (h : block.HasCoinbaseInput)
    (hI : I.Quiet H parentOf)
    (hshape : ∀ block', checkBlock H I.toNode lim block true true true = .ok block' → Shape block) :
    FailsOnly NotFatal (acceptBlock H I lim st block fRequested).2 := by
  refine failsOnly_acceptBlock hI.failsOnly (fun _ => h.notFatal) ?_
  simp only [checkBody, failsOnly_checkWhen, failsOnly_bind]
  refine fun _ => ⟨notFatal_checkBlock, fun block' hcheck => ?_⟩
  rw [hI.contextual]
  exact (hshape block' hcheck).notFatal_contextualCheckBlock

/-- A block of any other version is checked before it is read. -/
theorem notFatal_processNewBlock (hv : block.Vouched H) (hI : I.Quiet H parentOf)
    (h : block.nVersion ≠ swVersion ∨ block.mainNodeOutput.isSome = true ∧ block.HasCoinbaseInput) :
    FailsOnly NotFatal (processNewBlock H I lim st block fRequested).2 := by
  unfold processNewBlock
  split
  · split
    · rename_i f hf
      exact failsOnly_error.2 (notFatal_checkBlock f hf)
    rename_i block' hcheck
    obtain ⟨hheader, hvtx⟩ := checkBlock_body hcheck
    have hshape := (shape_of_checkBlockWith hv hcheck).1.congr hheader hvtx
    exact hshape.hasCoinbaseInput.notFatal_acceptBlock hI fun _ _ => hshape
  · rename_i hsw
    obtain ⟨hout, hin⟩ := h.resolve_left hsw
    have haccept : FailsOnly NotFatal (acceptBlock H I lim st block fRequested).2 :=
      hin.notFatal_acceptBlock hI fun _ hcheck => (shape_of_checkBlockWith hv hcheck).1
    split
    · split
      · rename_i hnone
        simp [hnone] at hout
      · split
        · exact haccept
        · simp
    · exact haccept

/-- **A header of an outdated version is not indexed.** -/
theorem version_of_acceptBlockHeader {r : ChainState × CBlockIndex} (hI : I.Quiet H parentOf)
    (hst : st.Meets H I block) (h : st.acceptBlockHeader H I block = .ok r) :
    4 ≤ block.nVersion := by
  unfold ChainState.acceptBlockHeader at h
  rw [if_neg hst.notGenesis] at h
  split at h
  · rename_i hindex
    exact hst.indexed (by simp [hindex])
  simp only [Intake.contextualCheckBlockHeader, bind_eq_ok, require_eq_ok] at h
  obtain ⟨-, -, p, -, -, -, _, ⟨-, -, -, -, -, -, -, -, -, -, -, -, hversion⟩, -⟩ := h
  have hheight := hI.upgraded
  simp only [ConsensusParams.outdated, Bool.not_eq_true', Bool.or_eq_false_iff,
    Bool.and_eq_false_iff, decide_eq_false_iff_not] at hversion
  omega

theorem notFatal_of_outdated (hI : I.Quiet H parentOf) (hst : st.Meets H I block)
    (h : block.nVersion < 4) : FailsOnly NotFatal (acceptBlock H I lim st block fRequested).2 := by
  unfold acceptBlock
  split
  · rename_i f hf
    exact failsOnly_error.2 (failsOnly_acceptBlockHeader hI.failsOnly f hf)
  · rename_i hok
    exact absurd (version_of_acceptBlockHeader hI hst hok) (not_le.2 h)

/-! ## Accesses that are not guarded -/

/-- The context of a block on a parent at height 199. -/
def readingContext : ParentContext := ⟨some 199, 0, false, false⟩

/-- A node whose chain is `tipHeight` high, with the clock and the proofs
that this block needs. -/
def readingIntake (H : Hashes) (block : CBlock) (tipHeight : ℕ) : Intake :=
  let consensus := { sampleParams with hashGenesisBlock := block.getHash H + 1 }
  { sampleIntake with
    consensus
    tipHeight
    getAdjustedTime := block.nTime
    getNextWorkRequired := fun b => b.nBits
    contextualCheckBlock := contextualCheckBlock H consensus readingContext }

/-- The index with the parent of the block. -/
def readingChain (block : CBlock) : ChainState where
  mapBlockIndex hash :=
    if hash = block.hashPrevBlock then some { sampleParent with nHeight := 199, blockHash := hash }
    else none
  stored _ := none

theorem readingIntake_quiet {n : ℕ} :
    (readingIntake H block n).Quiet H fun _ => readingContext where
  failsOnly := ⟨fun _ _ _ => trivial, fun _ => trivial, fun _ => failsOnly_ok⟩
  contextual _ := rfl
  upgraded := le_refl 0

/-- Without the input the read of the coinbase is out of range. -/
theorem fatal_checkCoinbaseHeight {P : ConsensusParams} (hP : P.bip34Height = 0)
    (h : ¬ block.HasCoinbaseInput) (nHeight : ℕ) :
    checkCoinbaseHeight P block nHeight = .error (.fatal "block.vtx[0]->vin[0]") := by
  have hnone : (block.vtx.head?.bind fun tx => tx.vin.head?.map CTxIn.scriptSig) = none := by
    cases hvtx : block.vtx with
    | nil => rfl
    | cons coinbase rest =>
      cases hvin : coinbase.vin with
      | nil => simp [hvin]
      | cons i vin => exact absurd ⟨coinbase, rest, i, vin, hvtx, hvin⟩ h
  simp [checkCoinbaseHeight, hnone, hP, checkWhen, orThrow]

/-- What a block needs to get past the checks of its header: a version that
is in use, a parent that it is not itself, and a time in range. -/
structure CBlock.Presentable (H : Hashes) (block : CBlock) : Prop where
  version : 4 ≤ block.nVersion
  parent : block.getHash H ≠ block.hashPrevBlock
  time : 0 < block.nTime ∧ block.nTime + 15 < 2 ^ 32

theorem readingChain_parent : (readingChain block).mapBlockIndex block.hashPrevBlock =
    some { sampleParent with nHeight := 199, blockHash := block.hashPrevBlock } := if_pos rfl

section Reading

variable {n : ℕ} (hp : block.Presentable H)
include hp

theorem CBlock.Presentable.meets :
    (readingChain block).Meets H (readingIntake H block n) block where
  notGenesis := (Nat.lt_succ_self _).ne
  indexed := fun _ => hp.version

theorem CBlock.Presentable.unknown : (readingChain block).mapBlockIndex (block.getHash H) = none :=
  if_neg hp.parent

/-- The header is accepted at height 200. -/
theorem CBlock.Presentable.acceptBlockHeader :
    (readingChain block).acceptBlockHeader H (readingIntake H block n) block =
      .ok ((readingChain block).addToBlockIndex H (readingIntake H block n) block) := by
  have hcontext : (readingIntake H block n).contextualCheckBlockHeader H block
      { sampleParent with nHeight := 199, blockHash := block.hashPrevBlock } = .ok () := by
    have hdrift : futureDrift block.nTime = block.nTime + 15 := Nat.mod_eq_of_lt hp.time.2
    have hversion := hp.version
    have htime : ¬ block.nTime ≤ 0 := not_le.2 hp.time.1
    simp only [Intake.contextualCheckBlockHeader, bind_eq_ok, require_eq_ok]
    refine ⟨(), beq_self_eq_true _, (), rfl, (), rfl, (), rfl, (), ?_, (), ?_, ?_⟩
    · show (!(block.isProofOfStake && decide (block.nTime ≤ 0))) = true
      simp [htime]
    · show (!(block.isProofOfStake && decide (futureDrift block.nTime < block.nTime))) = true
      simp [hdrift]
    · simp only [ConsensusParams.outdated, Bool.not_eq_true', Bool.or_eq_false_iff,
        Bool.and_eq_false_iff, decide_eq_false_iff_not]
      omega
  simp only [ChainState.acceptBlockHeader, if_neg hp.meets.notGenesis, hp.unknown, bind_eq_ok,
    require_eq_ok, orThrow_eq_ok, pure_eq_ok]
  refine ⟨(), rfl, _, readingChain_parent, (), rfl, (), hcontext, (), rfl, (), ?_, (), ?_, (), ?_,
    (), ?_, trivial⟩
  · show (!(block.isProofOfWork && false)) = true
    simp
  · show (!(block.isProofOfStake && false)) = true
    simp
  · show (!(block.isProofOfStake && false)) = true
    simp
  · simp [checkBlockHeader, readingIntake, sampleIntake, sampleNode]

/-- **`AcceptBlock` reads the coinbase of every presentable block**, at a
node where nothing else stops it. -/
theorem CBlock.Presentable.fatal_acceptBlock (h : ¬ block.HasCoinbaseInput) :
    (acceptBlock H (readingIntake H block n) lim (readingChain block) block fRequested).2 =
      .error (.fatal "block.vtx[0]->vin[0]") := by
  obtain ⟨st', pindex, hadded, hheight, hprev⟩ : ∃ st' pindex,
      (readingChain block).addToBlockIndex H (readingIntake H block n) block = (st', pindex) ∧
      pindex.nHeight = 200 ∧ st'.mapBlockIndex block.hashPrevBlock =
        some { sampleParent with nHeight := 199, blockHash := block.hashPrevBlock } := by
    simp only [ChainState.addToBlockIndex, hp.unknown, readingChain_parent]
    exact ⟨_, _, rfl, rfl, (Function.update_of_ne hp.parent.symm _ _).trans readingChain_parent⟩
  have harrival : checkArrival (readingIntake H block n) st' block pindex =
      .error (.fatal "block.vtx[0]->vin[0]") := by
    have hproof : checkWhen block.isProofOfWork (updateHashProof (readingIntake H block n).toNode
        block 200 (readingIntake H block n).pcoinsTip) = .ok () := by
      rw [checkWhen_eq_ok]
      intro hpow
      have hpos : block.isProofOfStake = false := by simpa [CBlockHeader.isProofOfWork] using hpow
      simp [updateHashProof, hpos, readingIntake, sampleParams]
    have hdrift : futureDrift block.nTime = block.nTime + 15 := Nat.mod_eq_of_lt hp.time.2
    have htime : ¬ block.nTime ≤ 0 := not_le.2 hp.time.1
    have hlast : (200 : ℤ) ≤ (readingIntake H block n).consensus.nLastPOWBlock :=
      (by decide : (200 : ℤ) ≤ 10000)
    have hsync : (readingIntake H block n).checkSync 200 = true := rfl
    have hclock : (readingIntake H block n).getAdjustedTime = block.nTime := rfl
    have hread := fatal_checkCoinbaseHeight (P := (readingIntake H block n).consensus) rfl h 200
    simp [checkArrival, hheight, hprev, hproof, hdrift, htime, hlast, hsync, hclock, hread, require,
      sampleParent]
  simp [acceptBlock, hp.acceptBlockHeader, hadded, harrival]

end Reading

/-- A block with no transaction, as it can arrive. -/
def emptyBlock (nVersion : ℤ) : CBlock := { sampleBlock .null [] with nVersion := nVersion }

end Slucore

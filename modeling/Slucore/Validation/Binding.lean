import Slucore.Validation.AcceptBlock
import Slucore.Validation.Undo
/-!
# Validation — bodies in the store are bound to their headers

The store keeps one body for each header and never replaces it, so what
`AcceptBlock` checks before it stores a body is all that ties the two
together. `acceptBlock_cases` says what one call can do to the store;
along any sequence of calls every stored body is then one whose Merkle
root was checked, unless blocks of the version that is spared the check
are among those that arrive.
-/


namespace Slucore

open Function

variable {H : Hashes} {I : Intake} {lim : BlockLimits} {st st' : ChainState} {block : CBlock}
variable {pindex : CBlockIndex} {fRequested : Bool}

namespace ChainState

/-- Whether the index of a header says that its body is there. -/
def haveData (st : ChainState) (hash : UInt256) : Bool :=
  (st.mapBlockIndex hash).any CBlockIndex.haveData

theorem setIndex_haveData {hash : UInt256} :
    (st.setIndex hash pindex).haveData =
      Function.update st.haveData hash pindex.haveData := by
  funext h
  by_cases hh : h = hash
  · subst hh
    simp [haveData, setIndex]
  · simp [haveData, setIndex, hh]

/-- Replacing an index by one with the same flag changes no flag. -/
theorem setIndex_haveData_of_eq {hash : UInt256} (h : pindex.haveData = st.haveData hash) :
    (st.setIndex hash pindex).haveData = st.haveData := by
  rw [setIndex_haveData, h, update_eq_self]

/-- What the search for the index of a header leaves: the same bodies, and
the index with the flag it had. -/
structure Found (H : Hashes) (st st' : ChainState) (block : CBlock) (pindex : CBlockIndex) :
    Prop where
  stored : st'.stored = st.stored
  haveData : st'.haveData = st.haveData
  flag : pindex.haveData = st.haveData (block.getHash H)

theorem found_addToBlockIndex (H : Hashes) (I : Intake) (st : ChainState) (block : CBlock) :
    Found H st (st.addToBlockIndex H I block).1 block (st.addToBlockIndex H I block).2 := by
  unfold addToBlockIndex
  dsimp only
  cases hm : st.mapBlockIndex (block.getHash H) with
  | some pindex => exact ⟨rfl, rfl, by simp [haveData, hm]⟩
  | none =>
    have hflag : false = st.haveData (block.getHash H) := by simp [haveData, hm]
    exact ⟨rfl, setIndex_haveData_of_eq hflag, hflag⟩

/-- **A header that is accepted has the index that would be added for it.** -/
theorem eq_of_acceptBlockHeader {r : ChainState × CBlockIndex}
    (h : st.acceptBlockHeader H I block = .ok r) : r = st.addToBlockIndex H I block := by
  unfold acceptBlockHeader at h
  split at h
  · exact (Except.ok.inj h).symm
  split at h
  · rename_i p hm
    split at h
    · cases h
    · simpa [addToBlockIndex, hm] using (Except.ok.inj h).symm
  · simp only [bind_eq_ok, pure_eq_ok] at h
    obtain ⟨-, -, -, -, -, -, -, -, -, -, -, -, -, -, -, -, -, -, h⟩ := h
    exact h.symm

theorem found_of_acceptBlockHeader
    (h : st.acceptBlockHeader H I block = .ok (st', pindex)) : Found H st st' block pindex := by
  have hadd := found_addToBlockIndex H I st block
  rwa [← eq_of_acceptBlockHeader h] at hadd

end ChainState

/-! ## One call -/

/-- The call left the bodies and the flags as they were. -/
def LeavesBodies (st st' : ChainState) : Prop :=
  st'.stored = st.stored ∧ st'.haveData = st.haveData

/-- The call stored the body of the block, for a header that had none. -/
structure StoresBody (H : Hashes) (st st' : ChainState) (block : CBlock) : Prop where
  missing : st.haveData (block.getHash H) = false
  stored : st'.stored = Function.update st.stored (block.getHash H) (some block)
  haveData : st'.haveData = Function.update st.haveData (block.getHash H) true

/-- **What `AcceptBlock` can do to the store.** -/
theorem acceptBlock_cases {r : Except Failure Bool}
    (h : acceptBlock H I lim st block fRequested = (st', r)) :
    (LeavesBodies st st' ∧ r ≠ .ok true) ∨
      (StoresBody H st st' block ∧ checkBody H I lim block = .ok ()) := by
  unfold acceptBlock at h
  split at h
  · obtain ⟨⟩ := h
    exact .inl ⟨⟨rfl, rfl⟩, by simp⟩
  rename_i st₁ pindex hheader
  obtain ⟨hst, hdata, hflag⟩ := ChainState.found_of_acceptBlockHeader hheader
  split at h
  · obtain ⟨⟩ := h
    exact .inl ⟨⟨hst, hdata⟩, by simp⟩
  split at h
  · rename_i hwants
    split at h
    · obtain ⟨⟩ := h
      refine .inl ⟨?_, by simp⟩
      split
      · exact ⟨hst, (ChainState.setIndex_haveData_of_eq (by rw [hdata]; exact hflag)).trans
          hdata⟩
      · exact ⟨hst, hdata⟩
    · rename_i hbody
      split at h
      · obtain ⟨⟩ := h
        have hmissing : pindex.haveData = false := by
          unfold wantsBlock at hwants
          simp_all
        refine .inr ⟨⟨hflag ▸ hmissing, ?_, ?_⟩, hbody⟩
        · rw [← hst]
          rfl
        · rw [← hdata]
          exact ChainState.setIndex_haveData
      · obtain ⟨⟩ := h
        exact .inl ⟨⟨hst, hdata⟩, by simp⟩
  · obtain ⟨⟩ := h
    exact .inl ⟨⟨hst, hdata⟩, by simp⟩

/-- A body of any other version is checked against its header. -/
theorem rootCommits_of_checkBody (hv : block.Vouched H) (hne : block.nVersion ≠ swVersion)
    (h : checkBody H I lim block = .ok ()) : block.RootCommits H := by
  simp only [checkBody, checkWhen_eq_ok, decide_eq_true_eq, bind_eq_ok] at h
  obtain ⟨block', hcheck, -⟩ := h hne
  exact (shape_of_checkBlockWith hv hcheck).2 rfl

/-- **What the arrival of a block of version `nVersion` can do to the
store**, by either of the two calls. -/
def TakesIn (H : Hashes) (nVersion : ℤ) (st st' : ChainState) : Prop :=
  LeavesBodies st st' ∨
    ∃ body, StoresBody H st st' body ∧ (nVersion ≠ swVersion → body.RootCommits H)

theorem takesIn_acceptBlock (hv : block.Vouched H) :
    TakesIn H block.nVersion st (acceptBlock H I lim st block fRequested).1 := by
  rcases acceptBlock_cases (r := (acceptBlock H I lim st block fRequested).2) rfl with
    ⟨hleaves, -⟩ | ⟨hstores, hbody⟩
  · exact .inl hleaves
  · exact .inr ⟨block, hstores, fun hne => rootCommits_of_checkBody hv hne hbody⟩

/-- A block that passed `CheckBlock` is passed on as it is, its flag apart. -/
theorem checkBlock_body {N : Node} {block' : CBlock} {fCheckPOW fCheckMerkleRoot fCheckSig : Bool}
    (h : checkBlock H N lim block fCheckPOW fCheckMerkleRoot fCheckSig = .ok block') :
    block'.toCBlockHeader = block.toCBlockHeader ∧ block'.vtx = block.vtx := by
  unfold checkBlock checkBlockWith at h
  split at h
  · obtain ⟨⟩ := h
    exact ⟨rfl, rfl⟩
  · simp only [bind_eq_ok, pure_eq_ok] at h
    obtain ⟨-, -, rfl⟩ := h
    exact ⟨rfl, rfl⟩

/-- **`ProcessNewBlock` leaves the store as it is or calls `AcceptBlock`**,
with the block as it arrived but for its flag. -/
theorem processNewBlock_cases (H : Hashes) (I : Intake) (lim : BlockLimits) (st : ChainState)
    (block : CBlock) (fRequested : Bool) :
    (processNewBlock H I lim st block fRequested).1 = st ∨
      ∃ block', block'.toCBlockHeader = block.toCBlockHeader ∧ block'.vtx = block.vtx ∧
        (block.nVersion ≠ swVersion → checkBlock H I.toNode lim block true true true = .ok block') ∧
        processNewBlock H I lim st block fRequested = acceptBlock H I lim st block' fRequested := by
  unfold processNewBlock
  split
  · split
    · exact .inl rfl
    · rename_i block' hcheck
      obtain ⟨hheader, hvtx⟩ := checkBlock_body hcheck
      exact .inr ⟨block', hheader, hvtx, fun _ => hcheck, rfl⟩
  · rename_i hsw
    have hself : ∃ block' : CBlock, block'.toCBlockHeader = block.toCBlockHeader ∧
        block'.vtx = block.vtx ∧ (block.nVersion ≠ swVersion →
          checkBlock H I.toNode lim block true true true = .ok block') ∧
        acceptBlock H I lim st block fRequested = acceptBlock H I lim st block' fRequested :=
      ⟨block, rfl, rfl, fun h => absurd h hsw, rfl⟩
    repeat' split
    · exact .inl rfl
    · exact .inr hself
    · exact .inl rfl
    · exact .inr hself

theorem takesIn_processNewBlock (hv : block.Vouched H) :
    TakesIn H block.nVersion st (processNewBlock H I lim st block fRequested).1 := by
  rcases processNewBlock_cases H I lim st block fRequested with
    hst | ⟨block', hheader, hvtx, hcheck, heq⟩
  · exact .inl ⟨by rw [hst], by rw [hst]⟩
  rw [heq]
  rcases acceptBlock_cases (r := (acceptBlock H I lim st block' fRequested).2) rfl with
    ⟨hleaves, -⟩ | ⟨hstores, -⟩
  · exact .inl hleaves
  -- the root was checked before the block was passed on
  refine .inr ⟨block', hstores, fun hne => ?_⟩
  have hroot : block.RootCommits H := (shape_of_checkBlockWith hv (hcheck hne)).2 rfl
  rw [CBlock.RootCommits, hheader, hvtx]
  exact hroot

/-! ## All calls -/

/-- The states the store can get into when blocks of versions in `V`
arrive, in any order and any number of times, at a node that may change
between the calls. -/
inductive Arrivals (H : Hashes) (V : Set ℤ) (st₀ : ChainState) : ChainState → Prop
  | start : Arrivals H V st₀ st₀
  | accept {st : ChainState} {block : CBlock} (I : Intake) (lim : BlockLimits) (fRequested : Bool)
      (before : Arrivals H V st₀ st) (version : block.nVersion ∈ V) (vouched : block.Vouched H) :
      Arrivals H V st₀ (acceptBlock H I lim st block fRequested).1
  | process {st : ChainState} {block : CBlock} (I : Intake) (lim : BlockLimits)
      (fForceProcessing : Bool) (before : Arrivals H V st₀ st) (version : block.nVersion ∈ V)
      (vouched : block.Vouched H) :
      Arrivals H V st₀ (processNewBlock H I lim st block fForceProcessing).1

variable {V : Set ℤ} {st₀ : ChainState}

/-- The run lemma: what every call keeps holds of all states. -/
theorem Arrivals.induct {P : ChainState → Prop} (h : Arrivals H V st₀ st) (hstart : P st₀)
    (hstep : ∀ {nVersion st st'}, nVersion ∈ V → TakesIn H nVersion st st' → P st → P st') :
    P st := by
  induction h with
  | start => exact hstart
  | accept I lim fRequested before version vouched ih =>
    exact hstep version (takesIn_acceptBlock vouched) ih
  | process I lim fForceProcessing before version vouched ih =>
    exact hstep version (takesIn_processNewBlock vouched) ih

namespace ChainState

/-- A stored body belongs to its header, whose index knows of it. -/
def Tied (H : Hashes) (st : ChainState) : Prop :=
  ∀ hash body, st.stored hash = some body → st.haveData hash = true ∧ body.getHash H = hash

/-- Every stored body is the one its Merkle root commits to. -/
def Commits (H : Hashes) (st : ChainState) : Prop :=
  ∀ hash body, st.stored hash = some body → body.RootCommits H

end ChainState

theorem StoresBody.stored_self (h : StoresBody H st st' block) :
    st'.stored (block.getHash H) = some block := by
  rw [h.stored, update_self]

theorem StoresBody.haveData_self (h : StoresBody H st st' block) :
    st'.haveData (block.getHash H) = true := by
  rw [h.haveData, update_self]

/-- What is stored after a body was stored. -/
theorem StoresBody.cases {body' : CBlock} {hash : UInt256} (h : StoresBody H st st' block)
    (hs : st'.stored hash = some body') :
    (hash = block.getHash H ∧ body' = block) ∨
      (hash ≠ block.getHash H ∧ st.stored hash = some body') := by
  rw [h.stored] at hs
  by_cases hh : hash = block.getHash H
  · subst hh
    rw [update_self] at hs
    exact .inl ⟨rfl, (Option.some.inj hs).symm⟩
  · rw [update_of_ne hh] at hs
    exact .inr ⟨hh, hs⟩

/-- **A header is tied to its body for good:** once a body is stored, no
call replaces it. -/
theorem Arrivals.stored_kept (h : Arrivals H V st₀ st) (ht : st₀.Tied H) :
    st.Tied H ∧ ∀ hash body, st₀.stored hash = some body → st.stored hash = some body := by
  refine h.induct (P := fun st => st.Tied H ∧
    ∀ hash body, st₀.stored hash = some body → st.stored hash = some body) ⟨ht, fun _ _ => id⟩ ?_
  rintro nVersion s s' - (⟨hst, hdata⟩ | ⟨body, hstores, -⟩) ⟨htied, hkept⟩
  · exact ⟨fun hash b hb => hdata ▸ htied hash b (hst ▸ hb), fun hash b hb => hst ▸ hkept hash b hb⟩
  refine ⟨fun hash b hb => ?_, fun hash b hb => ?_⟩
  · rcases hstores.cases hb with ⟨rfl, rfl⟩ | ⟨hne, hb⟩
    · exact ⟨hstores.haveData_self, rfl⟩
    · rw [hstores.haveData, update_of_ne hne]
      exact htied hash b hb
  · -- the header of a body that is there is not one of those without
    have hne : hash ≠ body.getHash H := by
      rintro rfl
      have := (htied _ b (hkept _ b hb)).1
      rw [hstores.missing] at this
      cases this
    rw [hstores.stored, update_of_ne hne]
    exact hkept hash b hb

/-- **Without the spared version every stored body is bound to its header.** -/
theorem Arrivals.commits (h : Arrivals H V st₀ st) (hV : swVersion ∉ V) (hc : st₀.Commits H) :
    st.Commits H := by
  refine h.induct hc ?_
  rintro nVersion s s' hmem (⟨hst, -⟩ | ⟨body, hstores, hroot⟩) ih hash b hb
  · exact ih hash b (hst ▸ hb)
  rcases hstores.cases hb with ⟨-, rfl⟩ | ⟨-, hb⟩
  · refine hroot ?_
    rintro rfl
    exact hV hmem
  · exact ih hash b hb

/-! ## A body that is not bound -/

/-- The sample node with the header checks of its height. -/
def sampleIntake : Intake where
  toNode := sampleNode
  checkNewHeader _ := .ok ()
  lastCheckpoint := none
  getMedianTimePast p := p.nTime
  failedAncestor _ := false
  getBlockProof _ := 1
  pcoinsTip := sampleView 20000000
  checkSync _ := true
  tipChainWork := some 0
  nMinimumChainWork := 0
  contextualCheckBlock _ := .ok ()
  saveBlockToDisk _ := true
  paysMainNode _ := true

/-- A block of the spared version whose Merkle root is that of no body. -/
def looseBlock : CBlock := { strayBlock with hashMerkleRoot := 0 }

/-- The index with the parent of the sample blocks, and no body. -/
def sampleChain : ChainState :=
  ⟨fun hash => if hash = 7 then some sampleParent else none, fun _ => none⟩

theorem looseBlock_accepted : (acceptBlock (singlingHashes looseBlock.toCBlockHeader) sampleIntake
    sampleLimits sampleChain looseBlock false).2.toOption = some true := by
  decide

theorem looseBlock_loose :
    ¬ looseBlock.RootCommits (singlingHashes looseBlock.toCBlockHeader) := by
  rintro ⟨hroot, -⟩
  revert hroot
  decide

/-- What storing the block leaves. -/
theorem looseBlock_stored : ∃ st',
    acceptBlock (singlingHashes looseBlock.toCBlockHeader) sampleIntake sampleLimits sampleChain
      looseBlock false = (st', .ok true) ∧
    StoresBody (singlingHashes looseBlock.toCBlockHeader) sampleChain st' looseBlock := by
  have hok := eq_ok_of_toOption looseBlock_accepted
  rcases acceptBlock_cases (H := singlingHashes looseBlock.toCBlockHeader) (I := sampleIntake)
    (r := .ok true) (Prod.ext rfl hok) with ⟨-, hne⟩ | ⟨hstores, -⟩
  · exact absurd rfl hne
  · exact ⟨_, Prod.ext rfl hok, hstores⟩

/-- **Bodies are bound to their headers exactly without the spared
version.** For blocks of versions in `V`: a body that `AcceptBlock`
stores is one its header commits to, and so is every body of every state
that calls for such blocks lead to, if and only if `V` does not contain
that version. -/
theorem stored_bodies_bound_iff (V : Set ℤ) :
    ((∀ (H : Hashes) (I : Intake) (lim : BlockLimits) (st st' : ChainState) (block : CBlock)
        (fRequested : Bool), block.nVersion ∈ V → block.Vouched H →
        acceptBlock H I lim st block fRequested = (st', .ok true) → block.RootCommits H) ↔
      swVersion ∉ V) ∧
    ((∀ (H : Hashes) (st₀ st : ChainState), st₀.Commits H → Arrivals H V st₀ st → st.Commits H) ↔
      swVersion ∉ V) := by
  obtain ⟨st', hacc, hstores⟩ := looseBlock_stored
  have hv : looseBlock.Vouched (singlingHashes looseBlock.toCBlockHeader) := fun h => by cases h
  refine ⟨⟨fun h hmem => ?_, fun hV H I lim st s block fRequested hmem hv h => ?_⟩,
    ⟨fun h hmem => ?_, fun hV H s s' hc h => h.commits hV hc⟩⟩
  · exact looseBlock_loose (h _ _ _ _ _ looseBlock false hmem hv hacc)
  · rcases acceptBlock_cases h with ⟨-, hne⟩ | ⟨-, hbody⟩
    · exact absurd rfl hne
    · refine rootCommits_of_checkBody hv (fun hsw => ?_) hbody
      rw [hsw] at hmem
      exact hV hmem
  · have harr : Arrivals (singlingHashes looseBlock.toCBlockHeader) V sampleChain
        (acceptBlock (singlingHashes looseBlock.toCBlockHeader) sampleIntake sampleLimits
          sampleChain looseBlock false).1 := .accept _ _ _ .start hmem hv
    rw [hacc] at harr
    have hcommits := h _ sampleChain st' (fun _ _ hs => by cases hs) harr
    exact looseBlock_loose (hcommits _ looseBlock hstores.stored_self)

/-- **A header can be tied for good to a body it does not commit to.** -/
theorem unbound_body_stored : ∃ (H : Hashes) (I : Intake) (lim : BlockLimits)
    (st st' : ChainState) (block : CBlock), block.Vouched H ∧
      acceptBlock H I lim st block false = (st', .ok true) ∧ ¬ block.RootCommits H ∧
      ∀ st'', Arrivals H Set.univ st' st'' → st''.stored (block.getHash H) = some block := by
  obtain ⟨st', hacc, hstores⟩ := looseBlock_stored
  refine ⟨_, _, _, _, st', looseBlock, (fun h => by cases h), hacc, looseBlock_loose,
    fun st'' harr => ?_⟩
  have htied : st'.Tied (singlingHashes looseBlock.toCBlockHeader) := by
    intro hash b hb
    rcases hstores.cases hb with ⟨rfl, rfl⟩ | ⟨-, hb⟩
    · exact ⟨hstores.haveData_self, rfl⟩
    · cases hb
  exact (harr.stored_kept htied).2 _ _ hstores.stored_self

end Slucore

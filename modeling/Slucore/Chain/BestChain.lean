import Slucore.Chain.Checks
import Slucore.Common.Reach
/-!
# Chain — the best chain is selected, and when the index breaks

A node that starts with the genesis block receives headers and blocks,
activates the best chain and invalidates blocks on request, in any order.
Unless a block is stranded, the invariant holds throughout: every
`ActivateBestChain` returns, leaves a tip no block with data and without
failures has more work than, and an index `CheckBlockIndex` passes
(`best_chain_selected`). A block that arrives on an invalidated parent which
itself still waits for an ancestor is never linked, and once the ancestor
arrives `CheckBlockIndex` fails (`stranded_block_breaks_index`).
-/


namespace Slucore

open List CChainState

namespace CChainState

variable {T : BlockTree} {st : CChainState} {x y : UInt256} {xs : List UInt256}

/-! ## `InvalidateBlock` -/

theorem mem_foldl_insert (l : List UInt256) : ∀ acc : List UInt256,
    y ∈ l.foldl (fun xs x => xs.insert x) acc ↔ y ∈ acc ∨ y ∈ l := by
  induction l with
  | nil => simp
  | cons z l ih =>
    intro acc
    rw [foldl_cons, ih, mem_insert_iff, mem_cons]
    tauto

/-- The state in which `InvalidateBlock` looks for candidates. -/
def invalidated (st : CChainState) (xs : List UInt256) (x : UInt256) : CChainState :=
  ((st.markFailedChild xs).eraseCandidates xs).invalidBlockFound x

theorem kept_invalidated : Kept st (st.invalidated xs x) :=
  (kept_markFailedChild.trans kept_eraseCandidates).trans kept_invalidBlockFound

theorem invalidated_failedValid :
    ((st.invalidated xs x).entry y).failedValid = true ↔
      y = x ∨ (st.entry y).failedValid = true := by
  have hmark : ((st.markFailedChild xs).entry y).failedValid = (st.entry y).failedValid := by
    dsimp only [markFailedChild]
    split_ifs <;> rfl
  change (((st.markFailedChild xs).markFailedValid x).entry y).failedValid = true ↔ _
  by_cases hy : y = x
  · subst hy
    simp [markFailedValid]
  · rw [markFailedValid, setEntry_entry_of_ne hy, hmark]
    simp [hy]

theorem invalidated_failedChild :
    ((st.invalidated xs x).entry y).failedChild = true ↔
      y ∈ xs ∨ (st.entry y).failedChild = true := by
  have hmark : ((st.markFailedChild xs).entry y).failedChild = true ↔
      y ∈ xs ∨ (st.entry y).failedChild = true := by
    dsimp only [markFailedChild]
    split_ifs with h <;> simp [h]
  rw [← hmark]
  change (((st.markFailedChild xs).markFailedValid x).entry y).failedChild = true ↔ _
  by_cases hy : y = x
  · subst hy
    rw [markFailedValid, setEntry_entry_self]
  · rw [markFailedValid, setEntry_entry_of_ne hy]

theorem invalidated_level :
    ((st.invalidated xs x).entry y).validity = (st.entry y).validity ∧
      ((st.invalidated xs x).entry y).haveUndo = (st.entry y).haveUndo := by
  have hlevel : ((st.invalidated xs x).entry y).validity = _ ∧
      ((st.invalidated xs x).entry y).haveUndo = _ := invalidBlockFound_level y
  rw [hlevel.1, hlevel.2]
  change ((st.markFailedChild xs).entry y).validity = _ ∧
    ((st.markFailedChild xs).entry y).haveUndo = _
  dsimp only [markFailedChild]
  split_ifs <;> exact ⟨rfl, rfl⟩

section Invalidate

variable (C : st.Consistent T) (hx : x ∈ st.mapBlockIndex) (htip : ¬ T.Anc x st.tip)
  (hxs : ∀ y ∈ xs, T.Anc x y)
include C hx hxs

omit C hx in
/-- A chain without the block is as it was. -/
theorem unfailed_invalidated (hxy : ¬ T.Anc x y) (hu : st.Unfailed T y) :
    (st.invalidated xs x).Unfailed T y := by
  intro a hay
  have hax : ¬ T.Anc x a := fun h => hxy (h.trans hay)
  have hf := hu a hay
  rw [IndexEntry.failed, Bool.or_eq_false_iff] at hf ⊢
  rw [← Bool.not_eq_true, ← Bool.not_eq_true, invalidated_failedValid, invalidated_failedChild]
  refine ⟨?_, ?_⟩
  · rintro (rfl | h)
    · exact hax (Anc.refl a)
    · simp [hf.1] at h
  · rintro (h | h)
    · exact hax (hxs a h)
    · simp [hf.2] at h

theorem Marks.invalidated : (st.invalidated xs x).Marks T := by
  constructor
  · intro y hy hc
    rcases invalidated_failedChild.1 hc with h | h
    · exact ⟨x, hxs y h, invalidated_failedValid.2 (Or.inl rfl)⟩
    · obtain ⟨a, hay, hv⟩ := C.marks.child y hy h
      exact ⟨a, hay, invalidated_failedValid.2 (Or.inr hv)⟩
  · intro y hy
    rw [invalidated_failedValid]
    rcases mem_insert_iff.1 hy with rfl | hy
    · exact ⟨hx, Or.inl rfl⟩
    · exact ⟨(C.marks.failedBlocks y hy).1, Or.inr (C.marks.failedBlocks y hy).2⟩

include htip in
/-- **Marking a block off the active chain keeps the invariant**, with all blocks
that could be the tip put back: the tip is an anchor then. -/
theorem Consistent.invalidated :
    ((st.invalidated xs x).readdCandidates T).Consistent T := by
  have K : Kept st (st.invalidated xs x) := kept_invalidated
  have htop := unfailed_invalidated hxs htip C.onTop.unfailed
  have hcand : ∀ y, y ∈ ((st.invalidated xs x).readdCandidates T).setBlockIndexCandidates ↔
      y ∈ (st.invalidated xs x).setBlockIndexCandidates ∨ y ∈ st.mapBlockIndex ∧
        ((st.invalidated xs x).entry y).isValid .transactions = true ∧ st.Linked y ∧
        st.worse T y st.tip = false := by
    intro y
    change y ∈ List.foldl _ _ _ ↔ _
    rw [mem_foldl_insert, mem_filter]
    refine or_congr_right (and_congr_right fun _ => ?_)
    rw [Bool.and_eq_true, Bool.and_eq_true, decide_eq_true_eq, Bool.not_eq_true', and_assoc]
    exact and_congr_right fun _ => and_congr K.linked (by rw [K.worse]; rfl)
  have hold : ∀ y ∈ (st.invalidated xs x).setBlockIndexCandidates,
      y ∈ st.setBlockIndexCandidates := by
    intro y hy
    have hy' := (mem_candidates_invalidBlockFound.1 hy).1
    exact (mem_filter.1 hy').1
  -- a linked block without failures may be put back
  have hvalid : ∀ y ∈ st.mapBlockIndex, st.Linked y → (st.invalidated xs x).Unfailed T y →
      ((st.invalidated xs x).entry y).isValid .transactions = true := by
    intro y hy hl hu
    have hd := (C.stages.data y hy).1 (C.links.data y hy hl)
    have hr := (C.stages.transactions y hy).2 hd
    rw [IndexEntry.isValid, hu y (Anc.refl y), invalidated_level.1, decide_eq_true hr]
    rfl
  have S := K.treeShape C.shape
  have G := K.stages C.stages (fun _ => invalidated_level.1) fun _ => invalidated_level.2
  have L := K.links C.links
  have M := Marks.invalidated C hx hxs
  refine ⟨⟨S.1, S.2, S.3⟩, ⟨G.1, G.2, G.3, G.4, G.5, G.6⟩,
    ⟨L.1, L.2, L.3, L.4, L.5, L.6, L.7, L.8, L.9⟩, ⟨M.1, M.2⟩, ⟨C.onTop.mem,
    K.linked.2 C.onTop.linked, htop, C.onTop.connects, fun a hat hag => ?_⟩, ⟨?_, ?_, ?_,
    ⟨st.tip, ?_, htop, C.onTop.connects, ?_⟩⟩⟩
  · exact invalidated_level.1.trans (C.onTop.scripts a hat hag)
  · intro y hy
    rcases (hcand y).1 hy with hy | ⟨hy, -⟩
    · exact C.ranked.mem y (hold y hy)
    · exact hy
  · intro y hy
    rcases (hcand y).1 hy with hy | ⟨-, -, hl, -⟩
    · exact K.linked.2 (C.ranked.linked y (hold y hy))
    · exact K.linked.2 hl
  · intro y hy
    rcases (hcand y).1 hy with hy | ⟨-, -, -, hw⟩
    · exact K.worse.trans (C.ranked.not_worse y (hold y hy))
    · exact K.worse.trans hw
  · exact (hcand st.tip).2 (Or.inr ⟨C.onTop.mem, hvalid _ C.onTop.mem C.onTop.linked htop,
      C.onTop.linked, not_worse_self⟩)
  · intro y hy hl hu hw
    have hl' := K.linked.1 hl
    exact (hcand y).2 (Or.inr ⟨hy, hvalid y hy hl' hu, hl', K.worse.symm.trans hw⟩)

end Invalidate

/-- A block is active below a tip if it is an ancestor of it. -/
theorem Consistent.contains_setTip (C : st.Consistent T) {h : UInt256} (hh : T.Anc h st.tip) :
    ({ st with tip := h } : CChainState).contains T x = true ↔ T.Anc x h :=
  (C.setTip hh).shape.contains_iff (C.setTip hh).onTop.mem

/-- **`InvalidateBlock` keeps the invariant.** -/
theorem Consistent.invalidateBlock (C : st.Consistent T) (hx : x ∈ st.mapBlockIndex) :
    (st.invalidateBlock T x).1.Consistent T := by
  have S := C.shape
  unfold CChainState.invalidateBlock
  by_cases hxt : T.Anc x st.tip
  · by_cases hg : x = T.hashGenesisBlock
    · -- the genesis block cannot be disconnected
      subst hg
      obtain ⟨m, hdown⟩ := disconnectWhile_down S (fun st' => st'.contains T _) C.onTop.mem hxt
        (fun h hxh hh _ => (C.contains_setTip hh).2 hxh) (Nat.lt_succ_self _)
      rw [hdown, disconnectWhile, (C.contains_setTip hxt).2 (Anc.refl _), if_pos rfl,
        disconnectTip, if_pos rfl]
      exact C.setTip hxt
    · have hpt : T.Anc (T.hashPrevBlock x) st.tip := (anc_prev hg).trans hxt
      have hheight := S.rooted.height x hx hg
      -- the parent of the block is the first that does not have it below
      have hdown := C.disconnectWhile_eq (fun st' => st'.contains T x) hpt fun h hph hht => by
        rw [Bool.eq_iff_iff, C.contains_setTip hht, decide_eq_true_eq]
        have hhm := S.rooted.mem hht C.onTop.mem
        constructor
        · rintro hxh rfl
          have := S.rooted.height_le hxh hhm
          omega
        · intro hne
          refine S.rooted.anc_of_height_le hxt hht C.onTop.mem ?_
          by_contra hlt
          exact hne (S.rooted.eq_of_height_le hph hhm (by omega)).symm
      rw [hdown]
      refine Consistent.invalidated (C.setTip hpt) hx ?_ ?_
      · intro (hxp : T.Anc x (T.hashPrevBlock x))
        have := S.rooted.height_le hxp (S.rooted.prev_mem x hx hg)
        omega
      · intro y hy
        rw [if_pos ((S.contains_iff C.onTop.mem).2 hxt)] at hy
        exact (S.mem_above C.onTop.mem hxt hy).1
  · have hnot : st.contains T x = false := by
      rw [← Bool.not_eq_true, S.contains_iff C.onTop.mem]
      exact hxt
    simp only [hnot, disconnectWhile]
    exact Consistent.invalidated C hx hxt fun y hy => absurd hy not_mem_nil

/-! ## Runs -/

variable (T) in
/-- The node after `LoadGenesisBlock` and the activation of the genesis block. -/
def start : CChainState where
  mapBlockIndex := [T.hashGenesisBlock]
  entry _ :=
    { nHeight := 0
      nChainWork := T.getBlockProof T.hashGenesisBlock
      nTx := 1
      nChainTx := 1
      nSequenceId := 1
      validity := .transactions
      haveData := true
      haveUndo := false
      failedValid := false
      failedChild := false }
  tip := T.hashGenesisBlock
  setBlockIndexCandidates := [T.hashGenesisBlock]
  mapBlocksUnlinked := []
  failedBlocks := []
  nBlockSequenceId := 2

theorem consistent_start : (start T).Consistent T := by
  have hmem : ∀ x ∈ (start T).mapBlockIndex, x = T.hashGenesisBlock :=
    fun x hx => mem_singleton.1 hx
  have hlinked : ∀ x, (start T).Linked x := fun x => Nat.one_ne_zero
  have hunfailed : ∀ x, (start T).Unfailed T x := fun x a _ => rfl
  have hconnects : Connects T T.hashGenesisBlock :=
    fun a ha hag => absurd (anc_root_iff.1 ha) hag
  refine ⟨⟨⟨mem_singleton_self _, rfl, ?_, ?_⟩, nodup_singleton _, ?_⟩,
    ⟨?_, ?_, ?_, ?_, ?_, ?_⟩, ⟨hlinked _, fun x _ _ => rfl, fun x _ _ _ => hlinked _,
    fun x _ _ h => absurd (hlinked x) h, fun p x h => absurd h not_mem_nil,
    fun x h => absurd h not_mem_nil, nodup_nil, nodup_nil,
    fun x _ h => absurd (hlinked x) h⟩,
    ⟨fun x _ h => absurd h Bool.false_ne_true, fun x h => absurd h not_mem_nil⟩,
    ⟨mem_singleton_self _, hlinked _, hunfailed _, hconnects,
      fun a ha hag => absurd (anc_root_iff.1 ha) hag⟩,
    ⟨fun x hx => hx, fun x _ => hlinked x, ?_, ⟨T.hashGenesisBlock, mem_singleton_self _,
      hunfailed _, hconnects, fun x hx _ _ _ => hx⟩⟩⟩
  · exact fun x hx hg => absurd (hmem x hx) hg
  · exact fun x hx hg => absurd (hmem x hx) hg
  · exact fun x hx hg => absurd (hmem x hx) hg
  · exact fun x _ => by simp [start, BlockValidity.rank]
  · exact fun x _ => iff_of_true rfl Nat.one_ne_zero
  · exact fun x _ => iff_of_true le_rfl Nat.one_ne_zero
  · exact fun x _ h => absurd h Bool.false_ne_true
  · exact fun x _ h => absurd h (by simp [start, BlockValidity.rank])
  · exact fun x _ h => absurd h (by simp [start])
  · intro x hx
    rw [hmem x hx]
    exact not_worse_self

end CChainState

/-- The calls a node makes. -/
inductive ChainCall where
  | acceptBlockHeader (x : UInt256) (checks : HeaderChecks)
  | acceptBlock (b : Arrival)
  | activateBestChain
  /-- `InvalidateBlock`, of an indexed block. -/
  | invalidateBlock (x : UInt256)

namespace CChainState

variable (T : BlockTree) (nMinimumChainWork : ℕ)

/-- The state after a call, with no shutdown requested. -/
def step (st : CChainState) : ChainCall → CChainState
  | .acceptBlockHeader x checks => (st.acceptBlockHeader T x checks).1
  | .acceptBlock b => (st.acceptBlock T nMinimumChainWork b).1
  | .activateBestChain => (st.activateBestChain T false st.turns).getD st
  | .invalidateBlock x => if x ∈ st.mapBlockIndex then (st.invalidateBlock T x).1 else st

/-- The call hands `AcceptBlock` a block that it strands. -/
def Strands (st : CChainState) : ChainCall → Prop
  | .acceptBlock b => st.strands T b.hash = true
  | _ => False

instance (st : CChainState) : ∀ c, Decidable (st.Strands T c)
  | .acceptBlock b => inferInstanceAs (Decidable (st.strands T b.hash = true))
  | .acceptBlockHeader _ _ => isFalse id
  | .activateBestChain => isFalse id
  | .invalidateBlock _ => isFalse id

/-- The block and all its ancestors have data and are not marked failed. -/
def Eligible (st : CChainState) (x : UInt256) : Prop :=
  ∀ a ∈ st.chainTo T x, (st.entry a).haveData = true ∧ (st.entry a).failed = false

variable {T nMinimumChainWork} {st : CChainState}

/-- **Every call that strands no block keeps the invariant.** -/
theorem Consistent.step (C : st.Consistent T) {c : ChainCall} (hc : ¬ st.Strands T c) :
    (st.step T nMinimumChainWork c).Consistent T := by
  cases c with
  | acceptBlockHeader x checks => exact C.acceptBlockHeader x checks
  | acceptBlock b => exact C.acceptBlock nMinimumChainWork b fun _ => Bool.eq_false_iff.2 hc
  | activateBestChain =>
    obtain ⟨hspec, hsome⟩ := activateBestChain_spec C
    obtain ⟨st', h⟩ := Option.isSome_iff_exists.1 hsome
    rw [CChainState.step, h]
    exact (hspec _ _ h).1
  | invalidateBlock x =>
    rw [CChainState.step]
    split_ifs with hx
    · exact C.invalidateBlock hx
    · exact C

/-- An eligible block of a consistent index is linked, on a chain without
failures. -/
theorem Eligible.linked (C : st.Consistent T) {x : UInt256} (hx : x ∈ st.mapBlockIndex)
    (he : st.Eligible T x) : st.Linked x ∧ st.Unfailed T x := by
  have hall := fun a ha => he a ((C.shape.mem_chainTo hx).2 ha)
  exact ⟨(C.links.linked_iff C.shape hx).2 fun a ha => (hall a ha).1, fun a ha => (hall a ha).2⟩

/-- **The best chain is selected.** In every state a node reaches by calls that
strand no block, `ActivateBestChain` returns; and whenever it does, no indexed
block that has data and no mark of failure, on a chain of such blocks, has more
work than the tip, and all assertions of `CheckBlockIndex` hold. -/
theorem best_chain_selected (h : Reaches (CChainState.step T nMinimumChainWork)
      (fun st c => ¬ st.Strands T c) (start T) st) :
    (∀ n st', st.activateBestChain T false n = some st' →
      (∀ x ∈ st'.mapBlockIndex, st'.Eligible T x →
        (st'.entry x).nChainWork ≤ (st'.entry st'.tip).nChainWork) ∧
      st'.checkBlockIndex T = true) ∧
    (st.activateBestChain T false st.turns).isSome := by
  have C : st.Consistent T := h.induct consistent_start fun _ _ hc C => C.step hc
  obtain ⟨hspec, hsome⟩ := activateBestChain_spec C
  refine ⟨fun n st' hn => ?_, hsome⟩
  obtain ⟨C', -, ht⟩ := hspec n st' hn
  refine ⟨fun x hx he => ?_, C'.checkBlockIndex ht⟩
  obtain ⟨hl, hu⟩ := he.linked C' hx
  exact work_le_of_not_worse (ht.not_worse C' hx hl hu)

/-! Two branches above the genesis block: `1, 2, 3`, and `4, 5, 6`, of which the
last does not connect. -/

/-- The tree of the samples. -/
def sampleTree : BlockTree where
  hashGenesisBlock := 0
  hashPrevBlock x := if x = 4 then 0 else x - 1
  getBlockProof _ := 1
  getBlockProof_pos _ := Nat.one_pos
  address := id
  address_injective := Function.injective_id
  connects x := decide (x ≠ 6)

/-- A requested block that passes its checks. -/
def sampleArrival (x : UInt256) : Arrival where
  hash := x
  checks := ⟨true, true, true⟩
  timely := true
  fRequested := true
  body := .passes
  nTx := 1
  nTx_pos := Nat.one_pos

/-- A reorganisation that fails half-way, and one after an invalidation. -/
def sampleCalls : List ChainCall :=
  [.acceptBlock (sampleArrival 1), .acceptBlock (sampleArrival 2), .activateBestChain,
    .acceptBlockHeader 4 ⟨true, true, true⟩, .acceptBlock (sampleArrival 5),
    .acceptBlock (sampleArrival 4), .acceptBlock (sampleArrival 6), .activateBestChain,
    .invalidateBlock 1]

/-- After these calls the second branch is activated, up to its invalid block. -/
theorem second_branch_selected :
    ((sampleCalls.foldl (CChainState.step sampleTree 0) (start sampleTree)).activateBestChain
      sampleTree false 20).map CChainState.tip = some 5 ∧
    ∀ st', (sampleCalls.foldl (CChainState.step sampleTree 0)
      (start sampleTree)).activateBestChain sampleTree false 20 = some st' →
      st'.checkBlockIndex sampleTree = true :=
  have hreach : Reaches (step sampleTree 0) (fun st c => ¬ st.Strands sampleTree c)
      (start sampleTree) (sampleCalls.foldl (step sampleTree 0) (start sampleTree)) :=
    Reaches.start.events (by decide +kernel)
  ⟨rfl, fun st' h => ((best_chain_selected hreach).1 20 st' h).2⟩

/-- Block `2` arrives, is invalidated, then its child and its parent arrive. -/
def strandingCalls : List ChainCall :=
  [.acceptBlockHeader 1 ⟨true, true, true⟩, .acceptBlockHeader 2 ⟨true, true, true⟩,
    .acceptBlockHeader 3 ⟨true, true, true⟩, .acceptBlock (sampleArrival 2), .invalidateBlock 2,
    .acceptBlock (sampleArrival 3), .acceptBlock (sampleArrival 1)]

/-- **A stranded block breaks the index**: block `3` and all its ancestors have
data, and it is not linked. -/
theorem stranded_block_breaks_index : ¬ ∀ st,
    Reaches (CChainState.step sampleTree 0) (fun _ _ => True) (start sampleTree) st →
    ∀ n st', st.activateBestChain sampleTree false n = some st' →
      (∀ x ∈ st'.mapBlockIndex, st'.Eligible sampleTree x →
        (st'.entry x).nChainWork ≤ (st'.entry st'.tip).nChainWork) ∧
      st'.checkBlockIndex sampleTree = true := by
  intro hall
  have hmeets : MeetsAlong (step sampleTree 0) (fun _ _ => True) (start sampleTree)
      strandingCalls := by decide
  have hreach := hall _ (Reaches.start.events hmeets) 20
  have hfails : ((strandingCalls.foldl (step sampleTree 0)
      (start sampleTree)).activateBestChain sampleTree false 20).any
      (fun st' => !st'.checkBlockIndex sampleTree) = true := by decide
  obtain ⟨st', hst', hcheck⟩ := (Option.any_eq_true _ _).1 hfails
  rw [(hreach st' hst').2] at hcheck
  exact absurd hcheck (by simp)

end CChainState

end Slucore

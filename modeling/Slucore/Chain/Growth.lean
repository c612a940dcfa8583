import Slucore.Chain.Turns
/-!
# Chain — what an arrival adds to the index

A header or a block that arrives adds to the index and links blocks; it
changes no height, no work, no link and no mark that is there, and not the
tip. The blocks it links descend from the block that arrived (`Grown`). As
long as no block is invalidated on request, a block that is marked failed is
linked or will never be, so that no arrival strands a block
(`Settled.strands`).
-/


namespace Slucore

open List

namespace CChainState

variable {T : BlockTree} {st st' st'' : CChainState} {a f t x y : UInt256} {D E : UInt256 → Prop}

/-- The index grew: the blocks newly linked are among `D`. -/
structure Grown (D : UInt256 → Prop) (st st' : CChainState) : Prop where
  tip : st'.tip = st.tip
  map : ∀ y ∈ st.mapBlockIndex, y ∈ st'.mapBlockIndex
  height : ∀ y ∈ st.mapBlockIndex, (st'.entry y).nHeight = (st.entry y).nHeight
  work : ∀ y ∈ st.mapBlockIndex, (st'.entry y).nChainWork = (st.entry y).nChainWork
  failed : ∀ y ∈ st.mapBlockIndex, (st.entry y).failed = true → (st'.entry y).failed = true
  linked : ∀ y ∈ st.mapBlockIndex, st.Linked y →
    st'.Linked y ∧ (st'.entry y).nSequenceId = (st.entry y).nSequenceId
  fresh : ∀ y ∈ st'.mapBlockIndex, st'.Linked y → (y ∈ st.mapBlockIndex ∧ st.Linked y) ∨ D y

namespace Grown

theorem refl (D : UInt256 → Prop) (st : CChainState) : Grown D st st :=
  ⟨rfl, fun _ h => h, fun _ _ => rfl, fun _ _ => rfl, fun _ _ h => h, fun _ _ h => ⟨h, rfl⟩,
    fun _ h hl => Or.inl ⟨h, hl⟩⟩

theorem trans (h : Grown D st st') (h' : Grown D st' st'') : Grown D st st'' where
  tip := h'.tip.trans h.tip
  map y hy := h'.map y (h.map y hy)
  height y hy := (h'.height y (h.map y hy)).trans (h.height y hy)
  work y hy := (h'.work y (h.map y hy)).trans (h.work y hy)
  failed y hy hf := h'.failed y (h.map y hy) (h.failed y hy hf)
  linked y hy hl := by
    obtain ⟨hl', hs⟩ := h.linked y hy hl
    obtain ⟨hl'', hs'⟩ := h'.linked y (h.map y hy) hl'
    exact ⟨hl'', hs'.trans hs⟩
  fresh y hy hl := by
    rcases h'.fresh y hy hl with ⟨hy, hl⟩ | hD
    · exact h.fresh y hy hl
    · exact Or.inr hD

theorem mono (h : Grown D st st') (hDE : ∀ y, D y → E y) : Grown E st st' :=
  { h with fresh := fun y hy hl => (h.fresh y hy hl).imp_right (hDE y) }

end Grown

/-! ## Headers -/

theorem grown_addToBlockIndex (hx : x ∉ st.mapBlockIndex)
    (hp : T.hashPrevBlock x ∈ st.mapBlockIndex) : Grown D st (st.addToBlockIndex T x) := by
  have hold := addToBlockIndex_entry_of_mem (T := T) hx
  have hmap : (st.addToBlockIndex T x).mapBlockIndex = x :: st.mapBlockIndex :=
    addToBlockIndex_map hx
  refine ⟨?_, ?_, ?_, ?_, ?_, ?_, ?_⟩
  · simp only [addToBlockIndex, if_neg hx]
    rfl
  · intro y hy
    rw [hmap]
    exact mem_cons_of_mem _ hy
  · intro y hy
    rw [hold y hy]
  · intro y hy
    rw [hold y hy]
  · intro y hy
    rw [hold y hy]
    exact id
  · intro y hy
    rw [Linked, Linked, hold y hy]
    exact fun h => ⟨h, rfl⟩
  · intro y hy hl
    rw [hmap] at hy
    rcases mem_cons.1 hy with rfl | hy
    · rw [Linked, addToBlockIndex_entry_self hx hp] at hl
      exact absurd rfl hl
    · rw [Linked, hold y hy] at hl
      exact Or.inl ⟨hy, hl⟩

/-- Marks add nothing to the index. -/
theorem Kept.grown (K : Kept st st') (htip : st'.tip = st.tip) : Grown D st st' where
  tip := htip
  map _ hy := K.map ▸ hy
  height y _ := K.height y
  work y _ := K.work y
  failed y _ := K.failed y
  linked y _ hl := ⟨K.linked.2 hl, K.sequence y⟩
  fresh _ hy hl := Or.inl ⟨K.map ▸ hy, K.linked.1 hl⟩

theorem Consistent.grown_acceptBlockHeader (C : st.Consistent T) (x : UInt256)
    (checks : HeaderChecks) : Grown D st (st.acceptBlockHeader T x checks).1 := by
  rcases acceptBlockHeader_cases C x checks with ⟨h, -⟩ | h | ⟨h, hx, -, hp, -⟩ |
    ⟨f, -, -, -, h⟩ <;> rw [h]
  · exact Grown.refl D st
  · exact Grown.refl D st
  · exact grown_addToBlockIndex hx hp
  · exact kept_markFailedChild.grown rfl

/-! ## Data -/

theorem grown_receive {nTx : ℕ} (C : st.Consistent T) (hx : x ∈ st.mapBlockIndex)
    (hd : (st.entry x).haveData = false) (hf : (st.entry x).failed = false) :
    Grown D st (st.receive x nTx) := by
  refine ⟨rfl, fun _ hy => hy, fun y _ => (receive_entry_same C hx hd hf y).1,
    fun y _ => (receive_entry_same C hx hd hf y).2.1, ?_, ?_, ?_⟩
  · intro y _ hy
    rwa [receive_failed C hx hd hf]
  · exact fun y _ hl => ⟨(linked_receive C hx hd).2 hl,
      (receive_entry_same C hx hd hf y).2.2.1⟩
  · exact fun y hy hl => Or.inl ⟨hy, (linked_receive C hx hd).1 hl⟩

theorem grown_link {queue : List UInt256} (K : st.Linking T (x :: queue)) (hD : D x) :
    Grown D st (st.link T x) := by
  have hx := K.links.queued x mem_cons_self
  refine ⟨rfl, fun _ hy => hy, fun y _ => (link_entry_same K y).1,
    fun y _ => (link_entry_same K y).2.1, ?_, ?_, ?_⟩
  · intro y _ hy
    rwa [link_failed K]
  · intro y _ hl
    have hyx : y ≠ x := fun h => hx.2.2.2.1 (h ▸ hl)
    rw [link_entry_of_ne hyx]
    exact ⟨(linked_link K).2 (Or.inl hl), rfl⟩
  · intro y hy hl
    rcases (linked_link K).1 hl with hl | rfl
    · exact Or.inl ⟨hy, hl⟩
    · exact Or.inr hD

/-- The loop links blocks that descend from those of its queue. -/
theorem grown_linkQueue {n : ℕ} {queue : List UInt256} (K : st.Linking T queue)
    (hq : ∀ y ∈ queue, T.Anc x y) : Grown (T.Anc x) st (linkQueue T n queue st) := by
  fun_induction CChainState.linkQueue with
  | case1 => exact Grown.refl _ _
  | case2 => exact Grown.refl _ _
  | case3 n z queue st ih =>
    have hz := hq z mem_cons_self
    refine (grown_link K hz).trans (ih K.link fun y hy => ?_)
    rcases mem_append.1 hy with hy | hy
    · exact hq y (mem_cons_of_mem _ hy)
    · -- what waited for the block is its child
      obtain ⟨-, hyg, hp, -⟩ := K.links.unlinked z y (mem_unlinkedChildren.1 hy)
      exact Anc.up hyg (hp ▸ hz)

theorem Consistent.grown_receivedBlockTransactions {nTx : ℕ} (C : st.Consistent T)
    (hx : x ∈ st.mapBlockIndex) (hd : (st.entry x).haveData = false)
    (hf : (st.entry x).failed = false) (hg : x ≠ T.hashGenesisBlock) (hn : 0 < nTx) :
    Grown (T.Anc x) st (st.receivedBlockTransactions T x nTx) := by
  have G : Grown (T.Anc x) st (st.receive x nTx) := grown_receive C hx hd hf
  obtain ⟨K, h⟩ | ⟨unlinked, h⟩ := receivedBlockTransactions_cases C hx hd hf hn hg <;> rw [h]
  · refine G.trans (grown_linkQueue K fun y hy => ?_)
    rw [mem_singleton.1 hy]
    exact Anc.refl x
  · exact ⟨G.tip, G.map, G.height, G.work, G.failed, G.linked, G.fresh⟩

/-! ## The synchronized checkpoint -/

/-- The first block on the way down that is a span below `n`, or the genesis
block. -/
theorem TreeShape.find_checkpoint (S : st.TreeShape T) (n : ℕ) (hx : x ∈ st.mapBlockIndex) :
    ∃ c, (st.chainTo T x).find? (fun y => !((T.pprev y).isSome &&
        decide (n < (st.entry y).nHeight + nCheckpointSpan))) = some c ∧
      (st.entry c).nHeight = min (st.entry x).nHeight (n - nCheckpointSpan) := by
  induction hx using S.rooted.induct with
  | base =>
    refine ⟨T.hashGenesisBlock, ?_, ?_⟩
    · simp [chainTo_genesis, BlockTree.pprev]
    · have hroot : (st.entry T.hashGenesisBlock).nHeight = 0 := S.rooted.root_height
      omega
  | up x hx hg ih =>
    obtain ⟨c, hc, hheight⟩ := ih
    have hh : (st.entry x).nHeight = (st.entry (T.hashPrevBlock x)).nHeight + 1 :=
      S.rooted.height x hx hg
    rw [S.chainTo_prev hx hg]
    by_cases hn : n < (st.entry x).nHeight + nCheckpointSpan
    · refine ⟨c, ?_, ?_⟩
      · simpa [BlockTree.pprev, hg, hn] using hc
      · omega
    · refine ⟨x, ?_, ?_⟩
      · simp [hn]
      · omega

/-- **The synchronized checkpoint is a span below the tip**: what is checked
against it is the height alone. -/
theorem TreeShape.checkSync_iff (S : st.TreeShape T) (htip : st.tip ∈ st.mapBlockIndex) (n : ℕ) :
    st.checkSync T n = true ↔ n = 0 ∨ (st.entry st.tip).nHeight < n + nCheckpointSpan := by
  obtain ⟨c, hc, hheight⟩ := S.find_checkpoint (st.entry st.tip).nHeight htip
  have hauto : st.autoSelectSyncCheckpoint T = c := by
    rw [autoSelectSyncCheckpoint, hc, Option.getD_some]
  rw [checkSync, hauto]
  simp only [Bool.not_eq_true', Bool.and_eq_false_iff, decide_eq_false_iff_not]
  omega

variable (T st) in
/-- The data of the block would be new, on an indexed parent, and the
synchronized checkpoint lets it pass. -/
def Enters (x : UInt256) : Prop :=
  T.hashPrevBlock x ∈ st.mapBlockIndex ∧ ¬ (x ∈ st.mapBlockIndex ∧ (st.entry x).haveData = true) ∧
    st.checkSync T ((st.entry (T.hashPrevBlock x)).nHeight + 1) = true

instance (x : UInt256) : Decidable (st.Enters T x) :=
  inferInstanceAs (Decidable (_ ∧ ¬ (_ ∧ _ = true) ∧ _ = true))

/-- A block whose data is taken enters. -/
theorem Consistent.enters {checks : HeaderChecks} (C : st.Consistent T)
    (h : st.acceptBlockHeader T x checks = (st', true)) (hx : x ∈ st'.mapBlockIndex)
    (hg : x ≠ T.hashGenesisBlock) (hd : (st'.entry x).haveData = false)
    (hsync : st'.checkSync T (st'.entry x).nHeight = true) : st.Enters T x := by
  have C' := C.acceptBlockHeader x checks
  rcases acceptBlockHeader_cases C x checks with ⟨h', -⟩ | h' | ⟨h', hnew, -, hp, -⟩ |
    ⟨f, -, -, -, h'⟩ <;> rw [h'] at h C' <;> obtain ⟨rfl, hr⟩ := Prod.mk.inj h
  · refine ⟨C.shape.rooted.prev_mem x hx hg, ?_, C.shape.rooted.height x hx hg ▸ hsync⟩
    simp [hd]
  · exact absurd hr (by simp)
  · refine ⟨hp, fun h => hnew h.1, ?_⟩
    have G : Grown (fun _ => True) st (st.addToBlockIndex T x) := grown_addToBlockIndex hnew hp
    rw [C'.shape.checkSync_iff C'.onTop.mem, addToBlockIndex_entry_self hnew hp, G.tip,
      G.height _ C.onTop.mem] at hsync
    exact (C.shape.checkSync_iff C.onTop.mem _).2 hsync
  · exact absurd hr (by simp)

/-- **What `AcceptBlock` links descends from the block**, which entered and was
accepted. -/
theorem Consistent.grown_acceptBlock (C : st.Consistent T) (nMinimumChainWork : ℕ) (b : Arrival) :
    Grown (fun y => T.Anc b.hash y ∧ st.Enters T b.hash ∧ b.hash ≠ T.hashGenesisBlock ∧
      (st.acceptBlock T nMinimumChainWork b).2 = true) st
      (st.acceptBlock T nMinimumChainWork b).1 := by
  have C' := C.acceptBlockHeader b.hash b.checks
  have G : Grown (fun _ => False) st (st.acceptBlockHeader T b.hash b.checks).1 :=
    C.grown_acceptBlockHeader b.hash b.checks
  rcases acceptBlock_cases C nMinimumChainWork b with
    ⟨accepted, h⟩ | ⟨st₁, hheader, hx, hd, hf, hg, hsync, h | h⟩
  · rw [h]
    exact G.mono fun y hy => hy.elim
  all_goals rw [h]; rw [hheader] at C' G
  · exact (G.trans (kept_markFailedValid.grown rfl)).mono fun y hy => hy.elim
  · refine (G.mono fun y hy => hy.elim).trans
      ((C'.grown_receivedBlockTransactions hx hd hf hg b.nTx_pos).mono fun y hy => ?_)
    exact ⟨hy, C.enters hheader hx hg hd hsync, hg, rfl⟩

/-! ## Marks without requests -/

variable (T st) in
/-- A block that failed is linked or never will be. -/
structure Settled : Prop where
  failed : ∀ y ∈ st.mapBlockIndex, (st.entry y).failed = true → st.Linked y ∨ st.Doomed T y
  failedBlocks : ∀ f ∈ st.failedBlocks, st.Linked f

/-- **No arrival strands a block.** -/
theorem Settled.strands (S : st.Settled T) (C : st.Consistent T) (x : UInt256)
    (hg : x ≠ T.hashGenesisBlock) : st.strands T x = false := by
  by_contra hstrands
  rw [Bool.not_eq_false, CChainState.strands] at hstrands
  simp only [Bool.and_eq_true, decide_eq_true_eq, beq_iff_eq, List.all_eq_true] at hstrands
  obtain ⟨⟨⟨hx, hf⟩, hl⟩, hall⟩ := hstrands
  have hp := C.shape.rooted.prev_mem x hx hg
  rcases S.failed _ hp hf with hl' | ⟨a, hap, hd, hfa⟩
  · exact hl' hl
  · have hopen := hall a ((C.shape.mem_chainTo hp).2 hap)
    simp [hd, hfa] at hopen

/-- Of blocks above a linked block the first that is not linked has no data. -/
theorem Consistent.doomed_above (C : st.Consistent T) (hx : x ∈ st.mapBlockIndex)
    (hl : ¬ st.Linked x) (hfl : st.Linked f) (hfx : T.Anc f x) :
    ∃ a, T.Anc f a ∧ a ≠ f ∧ T.Anc a x ∧ (st.entry a).haveData = false := by
  rw [C.links.linked_iff C.shape hx] at hl
  push Not at hl
  obtain ⟨a, hax, hd⟩ := hl
  have hd := Bool.eq_false_iff.2 hd
  have hal : ¬ st.Linked a := not_linked_of_no_data C (C.shape.rooted.mem hax hx) hd
  rcases Anc.total hfx hax with hfa | haf
  · exact ⟨a, hfa, fun h => hal (h ▸ hfl), hax, hd⟩
  · exact absurd (C.links.linked_anc C.shape (C.shape.rooted.mem hfx hx) hfl haf) hal

section

variable (S : st.Settled T)
include S

theorem Settled.addToBlockIndex (C : st.Consistent T)
    (hx : x ∉ st.mapBlockIndex) (hp : T.hashPrevBlock x ∈ st.mapBlockIndex) :
    (st.addToBlockIndex T x).Settled T := by
  have hold := addToBlockIndex_entry_of_mem (T := T) hx
  constructor
  · intro y hy hf
    rw [addToBlockIndex_map hx] at hy
    rcases mem_cons.1 hy with rfl | hy
    · rw [addToBlockIndex_entry_self hx hp] at hf
      exact absurd hf (by simp [IndexEntry.failed])
    rw [hold y hy] at hf
    rcases S.failed y hy hf with hl | ⟨a, hay, hd, hfa⟩
    · left
      rw [Linked, hold y hy]
      exact hl
    · right
      refine ⟨a, hay, ?_, ?_⟩ <;> rwa [addToBlockIndex_entry_of_anc C hx hy hay]
  · intro f hf
    have hfb : f ∈ st.failedBlocks := by
      simp only [CChainState.addToBlockIndex, if_neg hx] at hf
      exact hf
    rw [Linked, hold f (C.marks.failedBlocks f hfb).1]
    exact S.failedBlocks f hfb

/-- The descendants of a failed block, up to a header. -/
theorem Settled.markAbove (C : st.Consistent T) (hx : x ∈ st.mapBlockIndex)
    (hf : f ∈ st.failedBlocks) (hfx : T.Anc f x) :
    (st.markFailedChild ((st.chainTo T x).takeWhile (· ≠ f))).Settled T := by
  have K : Kept st (st.markFailedChild ((st.chainTo T x).takeWhile (· ≠ f))) :=
    kept_markFailedChild
  have hmarked : ∀ y ∈ (st.chainTo T x).takeWhile (· ≠ f), ((st.markFailedChild
      ((st.chainTo T x).takeWhile (· ≠ f))).entry y).failed = true := by
    intro y hy
    dsimp only [markFailedChild]
    rw [if_pos hy, IndexEntry.failed, Bool.or_true]
  refine ⟨fun y hy hfy => ?_, fun f' hf' => K.linked.2 (S.failedBlocks f' hf')⟩
  by_cases hmem : y ∈ (st.chainTo T x).takeWhile (· ≠ f)
  · by_cases hl : st.Linked y
    · exact Or.inl (K.linked.2 hl)
    -- the first missing block above the failed one is marked with it
    obtain ⟨hfy, hyx, -⟩ := C.shape.mem_above hx hfx hmem
    obtain ⟨a, hfa, hne, hay, hd⟩ := C.doomed_above hy hl (S.failedBlocks f hf) hfy
    have ha := (C.shape.mem_above_iff hx hfx).2 ⟨hfa, hay.trans hyx, hne⟩
    exact Or.inr ⟨a, hay, (K.haveData a).trans hd, hmarked a ha⟩
  · have hfy' : (st.entry y).failed = true := by
      dsimp only [markFailedChild] at hfy
      rwa [if_neg hmem] at hfy
    exact (S.failed y hy hfy').imp K.linked.2 K.doomed

theorem Settled.acceptBlockHeader (C : st.Consistent T) (x : UInt256)
    (checks : HeaderChecks) : (st.acceptBlockHeader T x checks).1.Settled T := by
  rcases acceptBlockHeader_cases C x checks with ⟨h, -⟩ | h | ⟨h, hx, -, hp, -⟩ |
    ⟨f, hfb, hanc, hp, h⟩ <;> rw [h]
  · exact S
  · exact S
  · exact S.addToBlockIndex C hx hp
  · exact S.markAbove C hp hfb hanc

/-- A block without data that failed will never be linked. -/
theorem Settled.markMissing (hd : (st.entry x).haveData = false) :
    (st.markFailedValid x).Settled T := by
  have K : Kept st (st.markFailedValid x) := kept_markFailedValid
  refine ⟨fun y hy hf => ?_, fun f hf => K.linked.2 (S.failedBlocks f hf)⟩
  by_cases hyx : y = x
  · subst hyx
    exact Or.inr ⟨y, Anc.refl y, (K.haveData y).trans hd, hf⟩
  · rw [markFailedValid, setEntry_entry_of_ne hyx] at hf
    exact (S.failed y hy hf).imp K.linked.2 K.doomed

theorem Settled.receive {nTx : ℕ} (C : st.Consistent T)
    (hx : x ∈ st.mapBlockIndex) (hd : (st.entry x).haveData = false)
    (hf : (st.entry x).failed = false) : (st.receive x nTx).Settled T := by
  refine ⟨fun y hy hfy => ?_, fun f hfb => (linked_receive C hx hd).2 (S.failedBlocks f hfb)⟩
  rw [receive_failed C hx hd hf] at hfy
  exact (S.failed y hy hfy).imp (linked_receive C hx hd).2 (doomed_receive hx hd hf)

theorem Settled.link {queue : List UInt256} (K : st.Linking T (x :: queue)) :
    (st.link T x).Settled T := by
  refine ⟨fun y hy hf => ?_, fun f hf => (linked_link K).2 (Or.inl (S.failedBlocks f hf))⟩
  rw [link_failed K] at hf
  rcases S.failed y hy hf with hl | ⟨a, hay, hd, hfa⟩
  · exact Or.inl ((linked_link K).2 (Or.inl hl))
  · refine Or.inr ⟨a, hay, ?_, ?_⟩
    · rwa [(link_entry_same K a).2.2.2.2.1]
    · rwa [link_failed K]

end

theorem Settled.linkQueue {n : ℕ} {queue : List UInt256} (S : st.Settled T)
    (K : st.Linking T queue) : (linkQueue T n queue st).Settled T := by
  fun_induction CChainState.linkQueue with
  | case1 => exact S
  | case2 => exact S
  | case3 n z queue st ih => exact ih (S.link K) K.link

theorem Settled.receivedBlockTransactions {nTx : ℕ} (S : st.Settled T) (C : st.Consistent T)
    (hx : x ∈ st.mapBlockIndex) (hd : (st.entry x).haveData = false)
    (hf : (st.entry x).failed = false) (hg : x ≠ T.hashGenesisBlock) (hn : 0 < nTx) :
    (st.receivedBlockTransactions T x nTx).Settled T := by
  have S' : (st.receive x nTx).Settled T := S.receive C hx hd hf
  obtain ⟨K, h⟩ | ⟨unlinked, h⟩ := receivedBlockTransactions_cases C hx hd hf hn hg <;> rw [h]
  · exact S'.linkQueue K
  · exact ⟨S'.failed, S'.failedBlocks⟩

/-- **`AcceptBlock` keeps failed blocks settled.** -/
theorem Settled.acceptBlock (S : st.Settled T) (C : st.Consistent T) (nMinimumChainWork : ℕ)
    (b : Arrival) : (st.acceptBlock T nMinimumChainWork b).1.Settled T := by
  have C' := C.acceptBlockHeader b.hash b.checks
  have S' := S.acceptBlockHeader C b.hash b.checks
  rcases acceptBlock_cases C nMinimumChainWork b with
    ⟨accepted, h⟩ | ⟨st₁, hheader, hx, hd, hf, hg, -, h | h⟩
  · rw [h]
    exact S'
  all_goals rw [h]; rw [hheader] at C' S'
  · exact S'.markMissing hd
  · exact S'.receivedBlockTransactions C' hx hd hf hg b.nTx_pos

/-- `ActivateBestChain` marks linked blocks only. -/
theorem Settled.advance (S : st.Settled T) (A : Advance T st st') : st'.Settled T := by
  refine ⟨fun y hy hf => ?_, fun f hf => A.kept.linked.2 ?_⟩
  · rcases A.fresh y hf with hf | hl
    · exact (S.failed y (A.kept.map ▸ hy) hf).imp A.kept.linked.2 A.kept.doomed
    · exact Or.inl (A.kept.linked.2 hl)
  · exact (A.found f hf).elim (S.failedBlocks f) id

end CChainState

end Slucore

import Slucore.Chain.Marking
/-!
# Chain — headers keep the invariant

`AcceptBlockHeader` adds a leaf to the tree, which has no data and is no
candidate, or marks the descendants of a failed block.
-/


namespace Slucore

open List

namespace CChainState

variable {T : BlockTree} {st : CChainState} {a f x y : UInt256} {queue : List UInt256}

/-! ## A new leaf -/

section NewLeaf

variable (C : st.Consistent T) (hx : x ∉ st.mapBlockIndex) (hg : x ≠ T.hashGenesisBlock)
  (hp : T.hashPrevBlock x ∈ st.mapBlockIndex)
include C hx

omit C in
theorem addToBlockIndex_entry_of_mem (y : UInt256) (hy : y ∈ st.mapBlockIndex) :
    (st.addToBlockIndex T x).entry y = st.entry y := by
  have hyx : y ≠ x := fun h => hx (h ▸ hy)
  simp only [addToBlockIndex, if_neg hx]
  exact setEntry_entry_of_ne hyx

omit C in
@[simp] theorem addToBlockIndex_map :
    (st.addToBlockIndex T x).mapBlockIndex = x :: st.mapBlockIndex := by
  simp [addToBlockIndex, if_neg hx]

theorem addToBlockIndex_entry_of_anc (hy : y ∈ st.mapBlockIndex) (hay : T.Anc a y) :
    (st.addToBlockIndex T x).entry a = st.entry a :=
  addToBlockIndex_entry_of_mem hx a (C.shape.rooted.mem hay hy)

theorem unfailed_addToBlockIndex (hy : y ∈ st.mapBlockIndex) :
    (st.addToBlockIndex T x).Unfailed T y ↔ st.Unfailed T y := by
  refine forall_congr' fun a => imp_congr_right fun hay => ?_
  rw [addToBlockIndex_entry_of_anc C hx hy hay]

include hp in
omit C in
/-- The index of the new block. -/
theorem addToBlockIndex_entry_self : (st.addToBlockIndex T x).entry x =
    { nHeight := (st.entry (T.hashPrevBlock x)).nHeight + 1
      nChainWork := (st.entry (T.hashPrevBlock x)).nChainWork + T.getBlockProof x
      nTx := 0
      nChainTx := 0
      nSequenceId := 0
      validity := .tree
      haveData := false
      haveUndo := false
      failedValid := false
      failedChild := false } := by
  simp only [addToBlockIndex, if_neg hx, if_pos hp]
  exact setEntry_entry_self

omit C in
/-- An index is that of the new block, or one that was there. -/
theorem mem_addToBlockIndex (hy : y ∈ (st.addToBlockIndex T x).mapBlockIndex) :
    y = x ∨ y ∈ st.mapBlockIndex ∧ (st.addToBlockIndex T x).entry y = st.entry y := by
  rw [addToBlockIndex_map hx] at hy
  exact (mem_cons.1 hy).imp_right fun hy => ⟨hy, addToBlockIndex_entry_of_mem hx y hy⟩

include hg hp

theorem TreeShape.addToBlockIndex : (st.addToBlockIndex T x).TreeShape T := by
  have S := C.shape
  have hold := addToBlockIndex_entry_of_mem (T := T) hx
  have hself := addToBlockIndex_entry_self (T := T) hx hp
  have hmap := addToBlockIndex_map (T := T) hx
  have hprev : ∀ y ∈ x :: st.mapBlockIndex, y ≠ T.hashGenesisBlock →
      T.hashPrevBlock y ∈ st.mapBlockIndex := by
    intro y hy hyg
    rcases mem_cons.1 hy with rfl | hy
    · exact hp
    · exact S.rooted.prev_mem y hy hyg
  refine ⟨⟨?_, ?_, ?_, ?_⟩, ?_, ?_⟩
  · rw [hmap]
    exact mem_cons_of_mem _ S.rooted.root_mem
  · rw [hold _ S.rooted.root_mem]
    exact S.rooted.root_height
  · intro y hy hyg
    rw [hmap] at hy ⊢
    exact mem_cons_of_mem _ (hprev y hy hyg)
  · intro y hy hyg
    rw [hold _ (hprev y (hmap ▸ hy) hyg)]
    rcases mem_addToBlockIndex hx hy with rfl | ⟨hy, he⟩
    · rw [hself]
    · rw [he]
      exact S.rooted.height y hy hyg
  · rw [hmap]
    exact nodup_cons.2 ⟨hx, S.nodup⟩
  · intro y hy hyg
    rw [hold _ (hprev y (hmap ▸ hy) hyg)]
    rcases mem_addToBlockIndex hx hy with rfl | ⟨hy, he⟩
    · rw [hself]
    · rw [he]
      exact S.work y hy hyg

omit hg in
theorem Stages.addToBlockIndex : (st.addToBlockIndex T x).Stages T := by
  have G := C.stages
  have hself := addToBlockIndex_entry_self (T := T) hx hp
  -- the new block has no data, and no level above the tree
  refine ⟨?_, ?_, ?_, ?_, ?_, ?_⟩ <;> intro y hy <;>
    obtain rfl | ⟨hy, he⟩ := mem_addToBlockIndex hx hy <;> first | rw [he] | rw [hself]
  · exact G.tree y hy
  · simp
  · exact G.data y hy
  · simp [BlockValidity.rank]
  · exact G.transactions y hy
  · simp
  · exact G.undo y hy
  · simp [BlockValidity.rank]
  · exact G.chain y hy
  · simp
  · intro hv a hay
    rw [addToBlockIndex_entry_of_anc C hx hy hay]
    exact G.scripts y hy hv a hay

theorem Links.addToBlockIndex : (st.addToBlockIndex T x).Links T [] := by
  have S := C.shape
  have L := C.links
  have hold := addToBlockIndex_entry_of_mem (T := T) hx
  have hself := addToBlockIndex_entry_self (T := T) hx hp
  have hunl : (st.addToBlockIndex T x).mapBlocksUnlinked = st.mapBlocksUnlinked := by
    simp only [CChainState.addToBlockIndex, if_neg hx]
    rfl
  have hlinked : ∀ y ∈ st.mapBlockIndex, (st.addToBlockIndex T x).Linked y ↔ st.Linked y := by
    intro y hy
    rw [Linked, Linked, hold y hy]
  have hleaf : ¬ (st.addToBlockIndex T x).Linked x := by simp [Linked, hself]
  refine ⟨(hlinked _ S.rooted.root_mem).2 L.genesis, ?_, ?_, ?_, ?_, ?_, ?_, L.queue_nodup, ?_⟩
  · intro y hy hl
    obtain rfl | ⟨hy, he⟩ := mem_addToBlockIndex hx hy
    · exact absurd hl hleaf
    · rw [he]
      exact L.data y hy ((hlinked y hy).1 hl)
  · intro y hy hl hyg
    obtain rfl | ⟨hy, -⟩ := mem_addToBlockIndex hx hy
    · exact absurd hl hleaf
    · exact (hlinked _ (S.rooted.prev_mem y hy hyg)).2 (L.prev y hy ((hlinked y hy).1 hl) hyg)
  · intro y hy hd hl
    obtain rfl | ⟨hy, he⟩ := mem_addToBlockIndex hx hy
    · simp [hself] at hd
    rw [hunl]
    rcases L.waiting y hy (he ▸ hd) (fun h => hl ((hlinked y hy).2 h)) with h | h | h
    · exact Or.inl h
    · obtain ⟨a, hay, hda, hfa⟩ := h
      refine Or.inr (Or.inl ⟨a, hay, ?_, ?_⟩) <;>
        rwa [addToBlockIndex_entry_of_anc C hx hy hay]
    · exact Or.inr (Or.inr h)
  · intro p y hpy
    rw [hunl] at hpy
    obtain ⟨hy, hyg, rfl, hd, hl, hlp, hq⟩ := L.unlinked p y hpy
    rw [addToBlockIndex_map hx, hold y hy, hlinked y hy, hlinked _ (S.rooted.prev_mem y hy hyg)]
    exact ⟨mem_cons_of_mem _ hy, hyg, rfl, hd, hl, hlp, hq⟩
  · exact fun y hy => absurd hy not_mem_nil
  · rw [hunl]
    exact L.unlinked_nodup
  · intro y hy hl
    obtain rfl | ⟨hy, he⟩ := mem_addToBlockIndex hx hy
    · simp [hself]
    · rw [he]
      exact L.sequence y hy fun h => hl ((hlinked y hy).2 h)

omit hg in
theorem Marks.addToBlockIndex : (st.addToBlockIndex T x).Marks T := by
  have hfb : (st.addToBlockIndex T x).failedBlocks = st.failedBlocks := by
    simp only [CChainState.addToBlockIndex, if_neg hx]
    rfl
  constructor
  · intro y hy hc
    obtain rfl | ⟨hy, he⟩ := mem_addToBlockIndex hx hy
    · simp [addToBlockIndex_entry_self hx hp] at hc
    · obtain ⟨a, hay, hv⟩ := C.marks.child y hy (he ▸ hc)
      exact ⟨a, hay, by rwa [addToBlockIndex_entry_of_anc C hx hy hay]⟩
  · intro y hy
    rw [hfb] at hy
    obtain ⟨hmem, hv⟩ := C.marks.failedBlocks y hy
    rw [addToBlockIndex_map hx, addToBlockIndex_entry_of_mem hx y hmem]
    exact ⟨mem_cons_of_mem _ hmem, hv⟩

/-- **A new header keeps the invariant.** -/
theorem Consistent.addToBlockIndex : (st.addToBlockIndex T x).Consistent T := by
  have hold := addToBlockIndex_entry_of_mem (T := T) hx
  have hmap := addToBlockIndex_map (T := T) hx
  have htip : (st.addToBlockIndex T x).tip = st.tip := by
    simp only [CChainState.addToBlockIndex, if_neg hx]
    rfl
  have hcand : (st.addToBlockIndex T x).setBlockIndexCandidates = st.setBlockIndexCandidates := by
    simp only [CChainState.addToBlockIndex, if_neg hx]
    rfl
  have hworse : ∀ y ∈ st.mapBlockIndex, ∀ z ∈ st.mapBlockIndex,
      (st.addToBlockIndex T x).worse T y z = st.worse T y z := by
    intro y hy z hz
    exact worse_congr ⟨by rw [hold y hy], by rw [hold y hy]⟩ ⟨by rw [hold z hz], by rw [hold z hz]⟩
  refine ⟨TreeShape.addToBlockIndex C hx hg hp, Stages.addToBlockIndex C hx hp,
    Links.addToBlockIndex C hx hg hp, Marks.addToBlockIndex C hx hp, ?_, ?_⟩
  · have O := C.onTop
    refine ⟨?_, ?_, ?_, htip ▸ O.connects, ?_⟩ <;> rw [htip]
    · rw [hmap]
      exact mem_cons_of_mem _ O.mem
    · rw [Linked, hold _ O.mem]
      exact O.linked
    · exact (unfailed_addToBlockIndex C hx O.mem).2 O.unfailed
    · intro a hat
      rw [addToBlockIndex_entry_of_anc C hx O.mem hat]
      exact O.scripts a hat
  · have R := C.ranked
    refine ⟨?_, ?_, ?_, ?_⟩
    · intro y hy
      rw [hcand] at hy
      rw [hmap]
      exact mem_cons_of_mem _ (R.mem y hy)
    · intro y hy
      rw [hcand] at hy
      rw [Linked, hold y (R.mem y hy)]
      exact R.linked y hy
    · intro y hy
      rw [hcand] at hy
      rw [htip, hworse y (R.mem y hy) _ C.onTop.mem]
      exact R.not_worse y hy
    · obtain ⟨a, A⟩ := R.anchor
      have ha := R.mem a A.mem
      refine ⟨a, hcand ▸ A.mem, (unfailed_addToBlockIndex C hx ha).2 A.unfailed, A.connects, ?_⟩
      intro y hy hl hu hw
      obtain rfl | ⟨hy, he⟩ := mem_addToBlockIndex hx hy
      · simp [Linked, addToBlockIndex_entry_self hx hp] at hl
      rw [hcand]
      rw [Linked, he] at hl
      rw [hworse y hy a ha] at hw
      exact A.covers y hy hl ((unfailed_addToBlockIndex C hx hy).1 hu) hw

end NewLeaf

/-! ## `AcceptBlockHeader` -/

theorem mem_chainTo_of_getAncestor {n : ℕ} (h : st.getAncestor T x n = some f) :
    f ∈ st.chainTo T x := by
  unfold getAncestor at h
  split_ifs at h
  exact mem_of_getElem? h

/-- The failed block that is found is an ancestor. -/
theorem failedAncestor_eq_some (C : st.Consistent T) (hp : x ∈ st.mapBlockIndex)
    (h : st.failedAncestor T x = some f) : f ∈ st.failedBlocks ∧ T.Anc f x := by
  have hmem := argmin_mem h
  obtain ⟨hfb, hanc⟩ := mem_filter.1 hmem
  have hchain := mem_chainTo_of_getAncestor (beq_iff_eq.1 hanc)
  exact ⟨hfb, (C.shape.mem_chainTo hp).1 hchain⟩

/-- What `AcceptBlockHeader` can do. -/
theorem acceptBlockHeader_cases (C : st.Consistent T) (x : UInt256) (checks : HeaderChecks) :
    (st.acceptBlockHeader T x checks = (st, true) ∧ x ∈ st.mapBlockIndex ∧
      (x ≠ T.hashGenesisBlock → (st.entry x).failed = false)) ∨
    st.acceptBlockHeader T x checks = (st, false) ∨
    (st.acceptBlockHeader T x checks = (st.addToBlockIndex T x, true) ∧ x ∉ st.mapBlockIndex ∧
      x ≠ T.hashGenesisBlock ∧ T.hashPrevBlock x ∈ st.mapBlockIndex ∧
      (st.entry (T.hashPrevBlock x)).failed = false) ∨
    ∃ f ∈ st.failedBlocks, T.Anc f (T.hashPrevBlock x) ∧ T.hashPrevBlock x ∈ st.mapBlockIndex ∧
      st.acceptBlockHeader T x checks =
        (st.markFailedChild ((st.chainTo T (T.hashPrevBlock x)).takeWhile (· ≠ f)), false) := by
  unfold acceptBlockHeader
  by_cases hg : x = T.hashGenesisBlock
  · have hmem : x ∈ st.mapBlockIndex := hg ▸ C.shape.rooted.root_mem
    rw [if_pos hg, addToBlockIndex, if_pos hmem]
    exact Or.inl ⟨rfl, hmem, fun h => absurd hg h⟩
  rw [if_neg hg]
  by_cases hmem : x ∈ st.mapBlockIndex
  · rw [if_pos hmem]
    cases hf : (st.entry x).failed with
    | true => exact Or.inr (Or.inl rfl)
    | false => exact Or.inl ⟨rfl, hmem, fun _ => rfl⟩
  rw [if_neg hmem]
  by_cases hearly : (!checks.early || decide (T.hashPrevBlock x ∉ st.mapBlockIndex) ||
      (st.entry (T.hashPrevBlock x)).failed || !checks.contextual ||
      !st.checkSync T ((st.entry (T.hashPrevBlock x)).nHeight + 1)) = true
  · rw [if_pos hearly]
    exact Or.inr (Or.inl rfl)
  rw [if_neg hearly]
  simp only [Bool.or_eq_true, decide_eq_true_eq, not_or, Decidable.not_not,
    Bool.not_eq_true] at hearly
  obtain ⟨⟨⟨⟨-, hp⟩, hpf⟩, -⟩, -⟩ := hearly
  split
  · next f hf =>
    have hf' : st.failedAncestor T (T.hashPrevBlock x) = some f := by
      split_ifs at hf
      exact hf
    obtain ⟨hfb, hanc⟩ := failedAncestor_eq_some C hp hf'
    exact Or.inr (Or.inr (Or.inr ⟨f, hfb, hanc, hp, rfl⟩))
  · split_ifs
    · exact Or.inr (Or.inr (Or.inl ⟨rfl, hmem, hg, hp, hpf⟩))
    · exact Or.inr (Or.inl rfl)

/-- Marks above an invalid block keep the invariant. -/
theorem Consistent.markAbove (C : st.Consistent T) (hx : x ∈ st.mapBlockIndex)
    (hv : (st.entry f).failedValid = true) (hfx : T.Anc f x) :
    (st.markFailedChild ((st.chainTo T x).takeWhile (· ≠ f))).Consistent T := by
  have habove : ∀ y ∈ (st.chainTo T x).takeWhile (· ≠ f),
      ∃ f, T.Anc f y ∧ (st.entry f).failedValid = true :=
    fun y hy => ⟨f, (C.shape.mem_above hx hfx hy).1, hv⟩
  have hfailed : ∀ y ∈ (st.chainTo T x).takeWhile (· ≠ f),
      ∃ f, T.Anc f y ∧ (st.entry f).failed = true := by
    intro y hy
    obtain ⟨f, hfy, hv⟩ := habove y hy
    exact ⟨f, hfy, by rw [IndexEntry.failed, hv, Bool.true_or]⟩
  refine C.of_marked kept_markFailedChild rfl ?_ (C.marks.markFailedChild habove)
    (unfailed_markFailedChild hfailed C.onTop.unfailed) (List.Subset.refl _) (fun _ h _ => h)
    fun a A => unfailed_markFailedChild hfailed A.unfailed
  intro y
  dsimp only [markFailedChild]
  split_ifs <;> exact ⟨rfl, rfl⟩

/-- **`AcceptBlockHeader` keeps the invariant.** -/
theorem Consistent.acceptBlockHeader (C : st.Consistent T) (x : UInt256) (checks : HeaderChecks) :
    (st.acceptBlockHeader T x checks).1.Consistent T := by
  rcases acceptBlockHeader_cases C x checks with ⟨h, -⟩ | h | ⟨h, hx, hg, hp, -⟩ |
    ⟨f, hfb, hanc, hp, h⟩ <;> rw [h]
  · exact C
  · exact C
  · exact C.addToBlockIndex hx hg hp
  · exact C.markAbove hp (C.marks.failedBlocks f hfb).2 hanc

end CChainState

end Slucore

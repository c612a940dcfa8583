import Slucore.Chain.Consistent
/-!
# Chain — calls that only mark

Marking blocks as failed, taking candidates out and moving the tip leave the
tree, the data and the links as they are (`Kept`). A mark keeps the
invariant if it goes back to an invalid block and misses the active chain and
the anchor (`Consistent.of_marked`).
-/


namespace Slucore

namespace CChainState

variable {T : BlockTree} {st st' st'' : CChainState} {a b f x y : UInt256} {xs : List UInt256}

@[simp] theorem setEntry_entry_self {e : IndexEntry} : (st.setEntry x e).entry x = e := by
  simp [setEntry]

theorem setEntry_entry_of_ne {e : IndexEntry} (h : y ≠ x) :
    (st.setEntry x e).entry y = st.entry y := by
  simp [setEntry, h]

/-- The tree and the data are the same, and what failed still does. -/
structure Kept (st st' : CChainState) : Prop where
  map : st'.mapBlockIndex = st.mapBlockIndex
  unlinked : st'.mapBlocksUnlinked = st.mapBlocksUnlinked
  height : ∀ x, (st'.entry x).nHeight = (st.entry x).nHeight
  work : ∀ x, (st'.entry x).nChainWork = (st.entry x).nChainWork
  nTx : ∀ x, (st'.entry x).nTx = (st.entry x).nTx
  nChainTx : ∀ x, (st'.entry x).nChainTx = (st.entry x).nChainTx
  sequence : ∀ x, (st'.entry x).nSequenceId = (st.entry x).nSequenceId
  haveData : ∀ x, (st'.entry x).haveData = (st.entry x).haveData
  failed : ∀ x, (st.entry x).failed = true → (st'.entry x).failed = true

namespace Kept

theorem refl (st : CChainState) : Kept st st :=
  ⟨rfl, rfl, fun _ => rfl, fun _ => rfl, fun _ => rfl, fun _ => rfl, fun _ => rfl, fun _ => rfl,
    fun _ h => h⟩

theorem trans (h : Kept st st') (h' : Kept st' st'') : Kept st st'' where
  map := h'.map.trans h.map
  unlinked := h'.unlinked.trans h.unlinked
  height x := (h'.height x).trans (h.height x)
  work x := (h'.work x).trans (h.work x)
  nTx x := (h'.nTx x).trans (h.nTx x)
  nChainTx x := (h'.nChainTx x).trans (h.nChainTx x)
  sequence x := (h'.sequence x).trans (h.sequence x)
  haveData x := (h'.haveData x).trans (h.haveData x)
  failed x hx := h'.failed x (h.failed x hx)

/-- A change of one entry that touches neither its tree nor its data. -/
theorem setEntry {e : IndexEntry} (hh : e.nHeight = (st.entry x).nHeight)
    (hw : e.nChainWork = (st.entry x).nChainWork) (hn : e.nTx = (st.entry x).nTx)
    (hc : e.nChainTx = (st.entry x).nChainTx) (hs : e.nSequenceId = (st.entry x).nSequenceId)
    (hd : e.haveData = (st.entry x).haveData)
    (hf : (st.entry x).failed = true → e.failed = true) : Kept st (st.setEntry x e) := by
  have hentry : ∀ y, (st.setEntry x e).entry y = if y = x then e else st.entry y :=
    fun y => Function.update_apply _ _ _ _
  refine ⟨rfl, rfl, ?_, ?_, ?_, ?_, ?_, ?_, ?_⟩ <;> intro y <;> rw [hentry] <;> split_ifs with hy
  all_goals first | rfl | (subst hy; assumption) | exact id

variable (h : Kept st st')
include h

theorem linked : st'.Linked x ↔ st.Linked x := by
  rw [Linked, Linked, h.nChainTx]

theorem worse : st'.worse T a b = st.worse T a b :=
  worse_congr ⟨h.work a, h.sequence a⟩ ⟨h.work b, h.sequence b⟩

theorem unfailed (hu : st'.Unfailed T x) : st.Unfailed T x := by
  intro a hax
  rw [Bool.eq_false_iff]
  intro hf
  exact Bool.eq_false_iff.1 (hu a hax) (h.failed a hf)

theorem doomed (hd : st.Doomed T x) : st'.Doomed T x := by
  obtain ⟨a, hax, hd, hf⟩ := hd
  exact ⟨a, hax, (h.haveData a).trans hd, h.failed a hf⟩

theorem treeShape (S : st.TreeShape T) : st'.TreeShape T := S.congr h.map h.height h.work

theorem links (L : st.Links T []) : st'.Links T [] where
  genesis := h.linked.2 L.genesis
  data x hx hl := by
    rw [h.haveData]
    exact L.data x (h.map ▸ hx) (h.linked.1 hl)
  prev x hx hl hg := h.linked.2 (L.prev x (h.map ▸ hx) (h.linked.1 hl) hg)
  waiting x hx hd hl := by
    rw [h.unlinked]
    rcases L.waiting x (h.map ▸ hx) (h.haveData x ▸ hd) (fun hl' => hl (h.linked.2 hl')) with
      hw | hw | hw
    · exact Or.inl hw
    · exact Or.inr (Or.inl (h.doomed hw))
    · exact Or.inr (Or.inr hw)
  unlinked p x hpx := by
    rw [h.unlinked] at hpx
    rw [h.map, h.haveData, h.linked, h.linked]
    exact L.unlinked p x hpx
  queued x hx := absurd hx List.not_mem_nil
  unlinked_nodup := h.unlinked ▸ L.unlinked_nodup
  queue_nodup := L.queue_nodup
  sequence x hx hl := by
    rw [h.sequence]
    exact L.sequence x (h.map ▸ hx) fun hl' => hl (h.linked.2 hl')

/-- Levels that are the same keep their rules. -/
theorem stages (G : st.Stages T)
    (hv : ∀ x, (st'.entry x).validity = (st.entry x).validity)
    (hu : ∀ x, (st'.entry x).haveUndo = (st.entry x).haveUndo) : st'.Stages T where
  tree x hx := by
    rw [hv]
    exact G.tree x (h.map ▸ hx)
  data x hx := by
    rw [h.haveData, h.nTx]
    exact G.data x (h.map ▸ hx)
  transactions x hx := by
    rw [hv, h.nTx]
    exact G.transactions x (h.map ▸ hx)
  undo x hx := by
    rw [hu, h.haveData]
    exact G.undo x (h.map ▸ hx)
  chain x hx := by
    rw [hv]
    exact G.chain x (h.map ▸ hx)
  scripts x hx := by
    simp only [hv]
    exact G.scripts x (h.map ▸ hx)

end Kept

theorem kept_markFailedChild : Kept st (st.markFailedChild xs) := by
  refine ⟨rfl, rfl, ?_, ?_, ?_, ?_, ?_, ?_, ?_⟩ <;> intro y <;> dsimp only [markFailedChild] <;>
    split_ifs
  all_goals first | rfl | exact id | exact fun _ => by simp [IndexEntry.failed]

theorem kept_markFailedValid : Kept st (st.markFailedValid x) :=
  .setEntry rfl rfl rfl rfl rfl rfl fun _ => by simp [IndexEntry.failed]

theorem kept_eraseCandidates : Kept st (st.eraseCandidates xs) :=
  ⟨rfl, rfl, fun _ => rfl, fun _ => rfl, fun _ => rfl, fun _ => rfl, fun _ => rfl, fun _ => rfl,
    fun _ h => h⟩

/-! ## Marks that keep the invariant -/

/-- **Marking keeps the invariant**, if the marks go back to invalid blocks,
miss the active chain and an anchor, and only what failed is no candidate any
more. -/
theorem Consistent.of_marked (C : st.Consistent T) (K : Kept st st') (htip : st'.tip = st.tip)
    (hlevel : ∀ x, (st'.entry x).validity = (st.entry x).validity ∧
      (st'.entry x).haveUndo = (st.entry x).haveUndo)
    (hmarks : st'.Marks T) (htop : st'.Unfailed T st.tip)
    (hcand : st'.setBlockIndexCandidates ⊆ st.setBlockIndexCandidates)
    (hkeep : ∀ x ∈ st.setBlockIndexCandidates, st'.Unfailed T x →
      x ∈ st'.setBlockIndexCandidates)
    (hanchor : ∀ a, st.IsAnchor T a → st'.Unfailed T a) : st'.Consistent T where
  shape := K.treeShape C.shape
  stages := K.stages C.stages (fun x => (hlevel x).1) fun x => (hlevel x).2
  links := K.links C.links
  marks := hmarks
  onTop :=
    { mem := by rw [htip, K.map]; exact C.onTop.mem
      linked := by rw [htip, K.linked]; exact C.onTop.linked
      unfailed := htip ▸ htop
      connects := htip ▸ C.onTop.connects
      scripts := by
        intro a ha
        rw [htip] at ha
        rw [(hlevel a).1]
        exact C.onTop.scripts a ha }
  ranked :=
    { mem := fun x hx => K.map ▸ C.ranked.mem x (hcand hx)
      linked := fun x hx => K.linked.2 (C.ranked.linked x (hcand hx))
      not_worse := by
        intro x hx
        rw [htip, K.worse]
        exact C.ranked.not_worse x (hcand hx)
      anchor := by
        obtain ⟨a, A⟩ := C.ranked.anchor
        have ha := hanchor a A
        refine ⟨a, hkeep a A.mem ha, ha, A.connects, ?_⟩
        intro x hx hl hu hw
        have hmem := A.covers x (K.map ▸ hx) (K.linked.1 hl) (K.unfailed hu) (K.worse ▸ hw)
        exact hkeep x hmem hu }

/-- The blocks above `f` on the way down from `x`. -/
theorem TreeShape.mem_above (S : st.TreeShape T) (hx : x ∈ st.mapBlockIndex) (hf : T.Anc f x)
    (hy : y ∈ (st.chainTo T x).takeWhile (· ≠ f)) : T.Anc f y ∧ T.Anc y x ∧ y ≠ f := by
  induction hx using S.rooted.induct with
  | base =>
    obtain rfl := anc_root_iff.1 hf
    simp [chainTo_genesis] at hy
  | up x hx hg ih =>
    rw [S.chainTo_prev hx hg, List.takeWhile_cons] at hy
    by_cases hxf : x = f
    · simp [hxf] at hy
    rw [if_pos (by simpa using hxf), List.mem_cons] at hy
    rcases hy with rfl | hy
    · exact ⟨hf, Anc.refl y, hxf⟩
    · have hfp := (anc_iff.1 hf).resolve_left fun h => hxf h.symm
      obtain ⟨h₁, h₂, h₃⟩ := ih hfp.2 hy
      exact ⟨h₁, Anc.up hg h₂, h₃⟩

theorem TreeShape.mem_above_iff (S : st.TreeShape T) (hx : x ∈ st.mapBlockIndex) (hf : T.Anc f x) :
    y ∈ (st.chainTo T x).takeWhile (· ≠ f) ↔ T.Anc f y ∧ T.Anc y x ∧ y ≠ f := by
  refine ⟨S.mem_above hx hf, ?_⟩
  rintro ⟨hfy, hyx, hne⟩
  clear hf
  induction hx using S.rooted.induct with
  | base =>
    obtain rfl := anc_root_iff.1 hyx
    exact absurd (anc_root_iff.1 hfy).symm hne
  | up x hx hg ih =>
    have hxf : x ≠ f := by
      rintro rfl
      exact hne (S.rooted.antisymm hyx hfy hx)
    rw [S.chainTo_prev hx hg, List.takeWhile_cons, if_pos (by simpa using hxf), List.mem_cons]
    rcases anc_iff.1 hyx with rfl | ⟨-, hyp⟩
    · exact Or.inl rfl
    · exact Or.inr (ih hyp)

/-- Blocks above a failed block have no part in a chain without failures. -/
theorem unfailed_markFailedChild (hxs : ∀ y ∈ xs, ∃ f, T.Anc f y ∧ (st.entry f).failed = true)
    (hu : st.Unfailed T x) : (st.markFailedChild xs).Unfailed T x := by
  intro a hax
  dsimp only [markFailedChild]
  split_ifs with ha
  · obtain ⟨f, hfa, hf⟩ := hxs a ha
    exact absurd (hu f (hfa.trans hax)) (by simp [hf])
  · exact hu a hax

theorem Marks.markFailedChild (M : st.Marks T)
    (hxs : ∀ y ∈ xs, ∃ f, T.Anc f y ∧ (st.entry f).failedValid = true) :
    (st.markFailedChild xs).Marks T := by
  have hvalid : ∀ y, ((st.markFailedChild xs).entry y).failedValid = (st.entry y).failedValid := by
    intro y
    dsimp only [CChainState.markFailedChild]
    split_ifs <;> rfl
  constructor
  · intro x hx hc
    simp only [hvalid]
    by_cases hmem : x ∈ xs
    · exact hxs x hmem
    · refine M.child x hx ?_
      simpa only [CChainState.markFailedChild, if_neg hmem] using hc
  · intro x hx
    rw [hvalid]
    exact M.failedBlocks x hx

/-- A mark on a block changes no other entry. -/
theorem unfailed_markFailedValid (hx : ¬ T.Anc y x) (hu : st.Unfailed T x) :
    (st.markFailedValid y).Unfailed T x := by
  intro a hax
  have hay : a ≠ y := fun h => hx (h ▸ hax)
  rw [markFailedValid, setEntry_entry_of_ne hay]
  exact hu a hax

theorem Marks.markFailedValid (M : st.Marks T) : (st.markFailedValid x).Marks T := by
  have hvalid : ∀ y, (st.entry y).failedValid = true →
      ((st.markFailedValid x).entry y).failedValid = true := by
    intro y hy
    by_cases hyx : y = x
    · rw [hyx, CChainState.markFailedValid, setEntry_entry_self]
    · rwa [CChainState.markFailedValid, setEntry_entry_of_ne hyx]
  constructor
  · intro y hy hc
    have hc' : (st.entry y).failedChild = true := by
      by_cases hyx : y = x
      · rw [hyx, CChainState.markFailedValid, setEntry_entry_self] at hc
        exact hyx ▸ hc
      · rwa [CChainState.markFailedValid, setEntry_entry_of_ne hyx] at hc
    obtain ⟨a, ha, hv⟩ := M.child y hy hc'
    exact ⟨a, ha, hvalid a hv⟩
  · intro y hy
    obtain ⟨hmem, hv⟩ := M.failedBlocks y hy
    exact ⟨hmem, hvalid y hv⟩

end CChainState

end Slucore

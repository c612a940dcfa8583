import Slucore.Chain.Arrivals
/-!
# Chain — data keeps the invariant

`ReceivedBlockTransactions` records the data of a block. If its parent is
linked it links the block and, through a queue, the blocks that waited for
it; between two turns of the loop the invariant holds up to the blocks in
the queue (`Linking`).

A block whose parent is not linked waits for it, unless the parent is marked
failed. If such a parent has data and could still be linked, the block is
stranded: it will not be linked with its parent. These arrivals are left out
(`strands`).
-/


namespace Slucore

open List hiding le_refl not_le
open IndexEntry

namespace CChainState

variable {T : BlockTree} {st : CChainState} {a x y : UInt256} {queue : List UInt256} {nTx : ℕ}

variable (T st) in
/-- The invariant, with blocks still to be linked. -/
structure Linking (queue : List UInt256) : Prop where
  shape : st.TreeShape T
  stages : st.Stages T
  links : st.Links T queue
  marks : st.Marks T
  onTop : st.OnTop T
  ranked : st.Ranked T

theorem Linking.consistent (h : st.Linking T []) : st.Consistent T :=
  ⟨h.shape, h.stages, h.links, h.marks, h.onTop, h.ranked⟩

/-! ## Data is recorded -/

section Receive

variable (C : st.Consistent T) (hx : x ∈ st.mapBlockIndex)
  (hd : (st.entry x).haveData = false) (hf : (st.entry x).failed = false)
include C hx hd

theorem not_linked_of_no_data : ¬ st.Linked x := by
  intro hl
  rw [C.links.data x hx hl] at hd
  exact absurd hd (by simp)

theorem nTx_eq_zero_of_no_data : (st.entry x).nTx = 0 := by
  by_contra h
  rw [(C.stages.data x hx).2 h] at hd
  exact absurd hd (by simp)

include hf in
/-- The index of a block that had no data. -/
theorem receive_entry_self : (st.receive x nTx).entry x =
    { st.entry x with nTx := nTx, nChainTx := 0, haveData := true, validity := .transactions } := by
  have hlow : (st.entry x).validity.rank < BlockValidity.transactions.rank := by
    rw [← not_le, C.stages.transactions x hx]
    exact not_not.2 (nTx_eq_zero_of_no_data C hx hd)
  rw [receive, setEntry_entry_self, raiseValidity]
  have hf' : failed { st.entry x with nTx := nTx, nChainTx := 0, haveData := true } =
    false := hf
  rw [if_neg (by simp [hf']), if_pos hlow]

omit C hx hd in
theorem receive_entry_of_ne (hy : y ≠ x) : (st.receive x nTx).entry y = st.entry y :=
  setEntry_entry_of_ne hy

/-- Nothing is linked by it. -/
theorem linked_receive : (st.receive x nTx).Linked y ↔ st.Linked y := by
  by_cases hy : y = x
  · have hl := not_linked_of_no_data C hx hd
    subst hy
    refine iff_of_false (fun h => h ?_) hl
    rw [receive, setEntry_entry_self, raiseValidity]
    split_ifs <;> rfl
  · rw [Linked, receive_entry_of_ne hy, Linked]

include hf

/-- What recording data leaves of every entry. -/
theorem receive_entry_same (y : UInt256) :
    ((st.receive x nTx).entry y).nHeight = (st.entry y).nHeight ∧
    ((st.receive x nTx).entry y).nChainWork = (st.entry y).nChainWork ∧
    ((st.receive x nTx).entry y).nSequenceId = (st.entry y).nSequenceId ∧
    ((st.receive x nTx).entry y).failedValid = (st.entry y).failedValid ∧
    ((st.receive x nTx).entry y).failedChild = (st.entry y).failedChild := by
  by_cases hy : y = x
  · subst hy
    rw [receive_entry_self C hx hd hf]
    simp
  · rw [receive_entry_of_ne hy]
    simp

theorem receive_failed (y : UInt256) :
    ((st.receive x nTx).entry y).failed = (st.entry y).failed := by
  obtain ⟨-, -, -, hv, hc⟩ := receive_entry_same C hx hd hf y
  rw [failed, failed, hv, hc]

theorem unfailed_receive : (st.receive x nTx).Unfailed T y ↔ st.Unfailed T y := by
  refine forall_congr' fun a => imp_congr_right fun _ => ?_
  rw [receive_failed C hx hd hf]

omit C in
/-- What will never be linked is not the block that arrived. -/
theorem doomed_receive (h : st.Doomed T y) : (st.receive x nTx).Doomed T y := by
  obtain ⟨a, hay, hda, hfa⟩ := h
  have hax : a ≠ x := by
    rintro rfl
    rw [hf] at hfa
    exact absurd hfa (by simp)
  exact ⟨a, hay, by rwa [receive_entry_of_ne hax], by rwa [receive_entry_of_ne hax]⟩

theorem worse_receive {b : UInt256} :
    (st.receive x nTx).worse T a b = st.worse T a b := by
  obtain ⟨-, hwa, hsa, -⟩ := receive_entry_same C hx hd hf a
  obtain ⟨-, hwb, hsb, -⟩ := receive_entry_same C hx hd hf b
  exact worse_congr ⟨hwa, hsa⟩ ⟨hwb, hsb⟩

theorem TreeShape.receive : (st.receive x nTx).TreeShape T :=
  C.shape.congr rfl (fun y => (receive_entry_same C hx hd hf y).1)
    fun y => (receive_entry_same C hx hd hf y).2.1

theorem Stages.receive (hn : 0 < nTx) : (st.receive x nTx).Stages T := by
  have G := C.stages
  have hself : (st.receive x nTx).entry x = _ := receive_entry_self C hx hd hf
  refine ⟨?_, ?_, ?_, ?_, ?_, ?_⟩ <;> intro y hy <;> by_cases hyx : y = x
  · subst hyx
    rw [hself]
    simp [BlockValidity.rank]
  · rw [receive_entry_of_ne hyx]
    exact G.tree y hy
  · subst hyx
    rw [hself]
    simp only [true_iff]
    omega
  · rw [receive_entry_of_ne hyx]
    exact G.data y hy
  · subst hyx
    rw [hself]
    exact iff_of_true le_rfl hn.ne'
  · rw [receive_entry_of_ne hyx]
    exact G.transactions y hy
  · subst hyx
    rw [hself]
    exact fun _ => rfl
  · rw [receive_entry_of_ne hyx]
    exact G.undo y hy
  · subst hyx
    rw [hself]
    exact fun h => absurd h (by simp [BlockValidity.rank])
  · rw [receive_entry_of_ne hyx]
    exact G.chain y hy
  · subst hyx
    rw [hself]
    exact fun h => absurd h (by simp)
  · rw [receive_entry_of_ne hyx]
    intro hv a hay hag
    have hva := G.scripts y hy hv a hay hag
    -- a block with scripts checked had its data before
    have hax : a ≠ x := by
      rintro rfl
      have hle := (G.transactions a hx).1 (by rw [hva]; decide)
      exact hle (nTx_eq_zero_of_no_data C hx hd)
    rwa [receive_entry_of_ne hax]

theorem Marks.receive : (st.receive x nTx).Marks T := by
  constructor
  · intro y hy hc
    rw [(receive_entry_same C hx hd hf y).2.2.2.2] at hc
    obtain ⟨a, hay, hv⟩ := C.marks.child y hy hc
    exact ⟨a, hay, by rwa [(receive_entry_same C hx hd hf a).2.2.2.1]⟩
  · intro y hy
    rw [(receive_entry_same C hx hd hf y).2.2.2.1]
    exact C.marks.failedBlocks y hy

theorem OnTop.receive : (st.receive x nTx).OnTop T := by
  have O := C.onTop
  refine ⟨O.mem, (linked_receive C hx hd).2 O.linked, (unfailed_receive C hx hd hf).2 O.unfailed,
    O.connects, ?_⟩
  intro a hat hag
  have hax : a ≠ x := by
    rintro rfl
    exact not_linked_of_no_data C hx hd (C.links.linked_anc C.shape O.mem O.linked hat)
  rw [receive_entry_of_ne hax]
  exact O.scripts a hat hag

theorem Ranked.receive : (st.receive x nTx).Ranked T := by
  have R := C.ranked
  refine ⟨R.mem, fun y hy => (linked_receive C hx hd).2 (R.linked y hy), ?_, ?_⟩
  · intro y hy
    rw [worse_receive C hx hd hf]
    exact R.not_worse y hy
  · obtain ⟨a, A⟩ := R.anchor
    refine ⟨a, A.mem, (unfailed_receive C hx hd hf).2 A.unfailed, A.connects, ?_⟩
    intro y hy hl hu hw
    rw [worse_receive C hx hd hf] at hw
    exact A.covers y hy ((linked_receive C hx hd).1 hl) ((unfailed_receive C hx hd hf).1 hu) hw

theorem receive_haveData : ((st.receive x nTx).entry y).haveData = true ↔
    y = x ∨ (st.entry y).haveData = true := by
  by_cases hy : y = x
  · subst hy
    rw [receive_entry_self C hx hd hf]
    simp
  · rw [receive_entry_of_ne hy]
    simp [hy]

/-- The links after the data was recorded: the block waits in `unl` or in the
queue, or will never be linked. -/
theorem Links.receive {unl : List (UInt256 × UInt256)} (hg : x ≠ T.hashGenesisBlock)
    (hunl : ∀ p y, (p, y) ∈ unl → (p, y) ∈ st.mapBlocksUnlinked ∨
      p = T.hashPrevBlock x ∧ y = x ∧ ¬ st.Linked (T.hashPrevBlock x) ∧ x ∉ queue)
    (hsub : ∀ q ∈ st.mapBlocksUnlinked, q ∈ unl) (hnd : unl.Nodup)
    (hqueue : ∀ y ∈ queue, y = x ∧ st.Linked (T.hashPrevBlock x)) (hqnd : queue.Nodup)
    (hwait : (T.hashPrevBlock x, x) ∈ unl ∨ (st.receive x nTx).Doomed T x ∨ x ∈ queue) :
    ({ st.receive x nTx with mapBlocksUnlinked := unl } : CChainState).Links T queue := by
  have L := C.links
  have hlinked : ∀ y, ({ st.receive x nTx with mapBlocksUnlinked := unl } : CChainState).Linked y ↔
      st.Linked y := fun y => linked_receive (y := y) C hx hd
  have hdata : ∀ y, ((st.receive x nTx).entry y).haveData = true ↔
      y = x ∨ (st.entry y).haveData = true := fun y => receive_haveData C hx hd hf
  have hnl := not_linked_of_no_data C hx hd
  refine ⟨(hlinked _).2 L.genesis, ?_, ?_, ?_, ?_, ?_, hnd, hqnd, ?_⟩
  · intro y hy hl
    exact (hdata y).2 (Or.inr (L.data y hy ((hlinked y).1 hl)))
  · intro y hy hl hyg
    exact (hlinked _).2 (L.prev y hy ((hlinked y).1 hl) hyg)
  · intro y hy hyd hl
    by_cases hyx : y = x
    · exact hyx ▸ hwait
    rcases L.waiting y hy (((hdata y).1 hyd).resolve_left hyx) (fun h => hl ((hlinked y).2 h)) with
      h | h | h
    · exact Or.inl (hsub _ h)
    · exact Or.inr (Or.inl (doomed_receive hx hd hf h))
    · exact absurd h not_mem_nil
  · intro p y hpy
    rw [hlinked, hlinked, hdata]
    rcases hunl p y hpy with h | ⟨rfl, rfl, hlp, hq⟩
    · obtain ⟨hy, hyg, hpy, hyd, hl, hlp, -⟩ := L.unlinked p y h
      refine ⟨hy, hyg, hpy, Or.inr hyd, hl, hlp, fun hq => ?_⟩
      rw [(hqueue y hq).1, hd] at hyd
      exact absurd hyd (by simp)
    · exact ⟨hx, hg, rfl, Or.inl rfl, hnl, hlp, hq⟩
  · intro y hy
    obtain ⟨rfl, hlp⟩ := hqueue y hy
    rw [hlinked, hlinked, hdata]
    exact ⟨hx, hg, Or.inl rfl, hnl, hlp⟩
  · intro y hy hl
    rw [(receive_entry_same C hx hd hf y).2.2.1]
    exact L.sequence y hy fun h => hl ((hlinked y).2 h)

end Receive

/-! ## A turn of the loop -/

section Link

theorem link_entry_of_ne (hy : y ≠ x) : (st.link T x).entry y = st.entry y :=
  setEntry_entry_of_ne hy

theorem mem_unlinkedChildren : y ∈ st.unlinkedChildren x ↔ (x, y) ∈ st.mapBlocksUnlinked := by
  rw [unlinkedChildren, List.mem_map]
  constructor
  · rintro ⟨⟨p, z⟩, hpz, rfl⟩
    obtain ⟨hmem, hp⟩ := mem_filter.1 hpz
    rw [decide_eq_true_eq] at hp
    exact hp ▸ hmem
  · intro h
    exact ⟨(x, y), mem_filter.2 ⟨h, by simp⟩, rfl⟩

theorem worse_link {b : UInt256} (ha : a ≠ x) (hb : b ≠ x) :
    (st.link T x).worse T a b = st.worse T a b := by
  refine worse_congr ⟨?_, ?_⟩ ⟨?_, ?_⟩ <;> rw [link_entry_of_ne (by assumption)]

variable (K : st.Linking T (x :: queue))
include K

/-- The index of a block that is linked. -/
theorem link_entry_self : (st.link T x).entry x =
    { st.entry x with
      nChainTx := (st.entry (T.hashPrevBlock x)).nChainTx + (st.entry x).nTx
      nSequenceId := st.nBlockSequenceId } := by
  have hg := (K.links.queued x mem_cons_self).2.1
  dsimp only [link]
  rw [setEntry_entry_self, BlockTree.pprev, if_neg hg, Option.map_some, Option.getD_some]

/-- What linking a block leaves of every entry. -/
theorem link_entry_same (y : UInt256) :
    ((st.link T x).entry y).nHeight = (st.entry y).nHeight ∧
    ((st.link T x).entry y).nChainWork = (st.entry y).nChainWork ∧
    ((st.link T x).entry y).nTx = (st.entry y).nTx ∧
    ((st.link T x).entry y).validity = (st.entry y).validity ∧
    ((st.link T x).entry y).haveData = (st.entry y).haveData ∧
    ((st.link T x).entry y).haveUndo = (st.entry y).haveUndo ∧
    ((st.link T x).entry y).failedValid = (st.entry y).failedValid ∧
    ((st.link T x).entry y).failedChild = (st.entry y).failedChild := by
  by_cases hy : y = x
  · subst hy
    rw [link_entry_self K]
    simp
  · rw [link_entry_of_ne hy]
    simp

theorem link_failed (y : UInt256) : ((st.link T x).entry y).failed = (st.entry y).failed := by
  obtain ⟨-, -, -, -, -, -, hv, hc⟩ := link_entry_same K y
  rw [failed, failed, hv, hc]

theorem unfailed_link : (st.link T x).Unfailed T y ↔ st.Unfailed T y := by
  refine forall_congr' fun a => imp_congr_right fun _ => ?_
  rw [link_failed K]

/-- The block is linked, and no other. -/
theorem linked_link : (st.link T x).Linked y ↔ st.Linked y ∨ y = x := by
  by_cases hy : y = x
  · subst hy
    obtain ⟨hmem, -, hd, -⟩ := K.links.queued y mem_cons_self
    have hn := (K.stages.data y hmem).1 hd
    refine iff_of_true ?_ (Or.inr rfl)
    rw [Linked, link_entry_self K]
    simp only
    omega
  · rw [Linked, link_entry_of_ne hy, Linked]
    simp [hy]

theorem Links.link : (st.link T x).Links T (queue ++ st.unlinkedChildren x) := by
  have L := K.links
  obtain ⟨hx, hxg, hxd, hxl, hxp⟩ := L.queued x mem_cons_self
  have hlinked : ∀ y, (st.link T x).Linked y ↔ st.Linked y ∨ y = x := fun y => linked_link K
  have hdata : ∀ y, ((st.link T x).entry y).haveData = (st.entry y).haveData :=
    fun y => (link_entry_same K y).2.2.2.2.1
  obtain ⟨hxq, hqnd⟩ := nodup_cons.1 L.queue_nodup
  -- a block that waits in the map is not in the queue
  have hwaits : ∀ p y, (p, y) ∈ st.mapBlocksUnlinked → y ≠ x ∧ y ∉ queue := by
    intro p y hpy
    have hq := (L.unlinked p y hpy).2.2.2.2.2.2
    rw [mem_cons, not_or] at hq
    exact hq
  have hmap : ∀ p y, (p, y) ∈ (st.link T x).mapBlocksUnlinked ↔
      (p, y) ∈ st.mapBlocksUnlinked ∧ p ≠ x := by
    intro p y
    simp [CChainState.link]
  refine ⟨(hlinked _).2 (Or.inl L.genesis), ?_, ?_, ?_, ?_, ?_, L.unlinked_nodup.filter _, ?_, ?_⟩
  · intro y hy hl
    rw [hdata]
    rcases (hlinked y).1 hl with hl | rfl
    · exact L.data y hy hl
    · exact hxd
  · intro y hy hl hyg
    refine (hlinked _).2 (Or.inl ?_)
    rcases (hlinked y).1 hl with hl | rfl
    · exact L.prev y hy hl hyg
    · exact hxp
  · intro y hy hyd hl
    rw [hlinked, not_or] at hl
    rw [hdata] at hyd
    rcases L.waiting y hy hyd hl.1 with h | ⟨a, hay, hda, hfa⟩ | h
    · by_cases hp : T.hashPrevBlock y = x
      · rw [hp] at h
        exact Or.inr (Or.inr (mem_append_right _ (mem_unlinkedChildren.2 h)))
      · exact Or.inl ((hmap _ _).2 ⟨h, hp⟩)
    · exact Or.inr (Or.inl ⟨a, hay, by rwa [hdata], by rwa [link_failed K]⟩)
    · exact Or.inr (Or.inr (mem_append_left _ ((mem_cons.1 h).resolve_left hl.2)))
  · intro p y hpy
    obtain ⟨hpy, hpx⟩ := (hmap p y).1 hpy
    obtain ⟨hy, hyg, hp, hyd, hl, hlp, -⟩ := L.unlinked p y hpy
    obtain ⟨hyx, hyq⟩ := hwaits p y hpy
    rw [hlinked, hlinked, hdata]
    refine ⟨hy, hyg, hp, hyd, not_or.2 ⟨hl, hyx⟩, not_or.2 ⟨hlp, hpx⟩, ?_⟩
    intro hq
    rcases mem_append.1 hq with hq | hq
    · exact hyq hq
    · have hxy := (L.unlinked x y (mem_unlinkedChildren.1 hq)).2.2.1
      exact hpx (hp.trans hxy.symm)
  · intro y hy
    rw [hlinked, hlinked, hdata]
    rcases mem_append.1 hy with hy | hy
    · obtain ⟨hmem, hyg, hyd, hl, hlp⟩ := L.queued y (mem_cons_of_mem _ hy)
      have hyx : y ≠ x := fun h => hxq (h ▸ hy)
      exact ⟨hmem, hyg, hyd, not_or.2 ⟨hl, hyx⟩, Or.inl hlp⟩
    · have hxy := mem_unlinkedChildren.1 hy
      obtain ⟨hmem, hyg, hp, hyd, hl, -, -⟩ := L.unlinked x y hxy
      exact ⟨hmem, hyg, hyd, not_or.2 ⟨hl, (hwaits x y hxy).1⟩, Or.inr hp.symm⟩
  · refine nodup_append.2 ⟨hqnd, ?_, ?_⟩
    · refine (L.unlinked_nodup.filter _).map_on ?_
      rintro ⟨p, y⟩ hy ⟨q, z⟩ hz hyz
      have hp := (mem_filter.1 hy).2
      have hq := (mem_filter.1 hz).2
      rw [decide_eq_true_eq] at hp hq
      exact Prod.ext (hp.trans hq.symm) hyz
    · rintro y hy z hz rfl
      exact (hwaits x y (mem_unlinkedChildren.1 hz)).2 hy
  · intro y hy hl
    rw [hlinked, not_or] at hl
    rw [link_entry_of_ne hl.2]
    exact L.sequence y hy hl.1

theorem Ranked.link : (st.link T x).Ranked T := by
  have R := K.ranked
  obtain ⟨hx, -, -, hxl, -⟩ := K.links.queued x mem_cons_self
  have hne : ∀ y, st.Linked y → y ≠ x := fun y hl h => hxl (h ▸ hl)
  have htip : st.tip ≠ x := hne _ K.onTop.linked
  have hcand : ∀ y, y ∈ (st.link T x).setBlockIndexCandidates ↔
      y ∈ st.setBlockIndexCandidates ∨ y = x ∧ (st.link T x).worse T x st.tip = false := by
    intro y
    change y ∈ (if (st.link T x).worse T x st.tip = true then st.setBlockIndexCandidates
      else st.setBlockIndexCandidates.insert x) ↔ _
    split_ifs with hw
    · simp [hw]
    · rw [Bool.eq_false_iff.2 hw]
      simp [or_comm]
  refine ⟨?_, ?_, ?_, ?_⟩
  · intro y hy
    rcases (hcand y).1 hy with hy | ⟨rfl, -⟩
    · exact R.mem y hy
    · exact hx
  · intro y hy
    rw [linked_link K]
    rcases (hcand y).1 hy with hy | ⟨rfl, -⟩
    · exact Or.inl (R.linked y hy)
    · exact Or.inr rfl
  · intro y hy
    rcases (hcand y).1 hy with hy | ⟨rfl, hw⟩
    · exact (worse_link (hne y (R.linked y hy)) htip).trans (R.not_worse y hy)
    · exact hw
  · obtain ⟨a, A⟩ := R.anchor
    have hax : a ≠ x := hne a (R.linked a A.mem)
    refine ⟨a, (hcand a).2 (Or.inl A.mem), (unfailed_link K).2 A.unfailed, A.connects, ?_⟩
    intro y hy hl hu hw
    by_cases hyx : y = x
    · subst hyx
      -- the anchor does not sort below the tip
      have hat := (worse_link hax htip).trans (R.not_worse a A.mem)
      exact (hcand y).2 (Or.inr ⟨rfl, not_worse_trans hw hat⟩)
    · have hl' := ((linked_link K).1 hl).resolve_right hyx
      rw [worse_link hyx hax] at hw
      exact (hcand y).2 (Or.inl (A.covers y hy hl' ((unfailed_link K).1 hu) hw))

/-- **Linking a block of the queue keeps the invariant**, with what waited for
it in the queue. -/
theorem Linking.link : (st.link T x).Linking T (queue ++ st.unlinkedChildren x) where
  shape := K.shape.congr rfl (fun y => (link_entry_same K y).1) fun y => (link_entry_same K y).2.1
  stages := by
    have G := K.stages
    refine ⟨?_, ?_, ?_, ?_, ?_, ?_⟩ <;> intro y hy <;>
      obtain ⟨-, -, hn, hv, hd, hu, -, -⟩ := link_entry_same K y
    · exact hv ▸ G.tree y hy
    · rw [hd, hn]
      exact G.data y hy
    · rw [hv, hn]
      exact G.transactions y hy
    · rw [hu, hd]
      exact G.undo y hy
    · exact hv ▸ G.chain y hy
    · intro hvy a hay hag
      rw [(link_entry_same K a).2.2.2.1]
      exact G.scripts y hy (hv ▸ hvy) a hay hag
  links := Links.link K
  marks := by
    refine ⟨fun y hy hc => ?_, fun y hy => ?_⟩
    · rw [(link_entry_same K y).2.2.2.2.2.2.2] at hc
      obtain ⟨a, hay, hv⟩ := K.marks.child y hy hc
      exact ⟨a, hay, by rwa [(link_entry_same K a).2.2.2.2.2.2.1]⟩
    · rw [(link_entry_same K y).2.2.2.2.2.2.1]
      exact K.marks.failedBlocks y hy
  onTop := by
    have O := K.onTop
    refine ⟨O.mem, (linked_link K).2 (Or.inl O.linked), (unfailed_link K).2 O.unfailed,
      O.connects, ?_⟩
    intro a hat hag
    rw [(link_entry_same K a).2.2.2.1]
    exact O.scripts a hat hag
  ranked := Ranked.link K

end Link

/-! ## `ReceivedBlockTransactions` and `AcceptBlock` -/

/-- **The loop empties its queue**, if it may turn as often as there are
blocks that can get into it. -/
theorem Linking.linkQueue {n : ℕ} (K : st.Linking T queue)
    (hn : queue.length + st.mapBlocksUnlinked.length ≤ n) :
    (linkQueue T n queue st).Linking T [] := by
  fun_induction CChainState.linkQueue with
  | case1 queue st =>
    obtain rfl : queue = [] := eq_nil_of_length_eq_zero (by omega)
    exact K
  | case2 => exact K
  | case3 n x queue st ih =>
    refine ih K.link ?_
    have hsplit := length_eq_length_filter_add (l := st.mapBlocksUnlinked)
      fun q => decide (q.1 = x)
    have hrest : (st.link T x).mapBlocksUnlinked =
        st.mapBlocksUnlinked.filter fun q => !decide (q.1 = x) :=
      filter_congr fun q _ => by simp
    rw [hrest, length_append, unlinkedChildren, length_map]
    rw [length_cons] at hn
    omega

variable (T st) in
/-- The block has an index and its parent is marked failed, has data and is
not linked, but may be: no ancestor that is missing is marked. -/
def strands (x : UInt256) : Bool :=
  decide (x ∈ st.mapBlockIndex) && (st.entry (T.hashPrevBlock x)).failed &&
  (st.entry (T.hashPrevBlock x)).nChainTx == 0 &&
  (st.chainTo T (T.hashPrevBlock x)).all fun a => (st.entry a).haveData || !(st.entry a).failed

section Received

variable (C : st.Consistent T) (hx : x ∈ st.mapBlockIndex)
  (hd : (st.entry x).haveData = false) (hf : (st.entry x).failed = false) (hn : 0 < nTx)
include C hx hd hf hn

/-- The invariant of a state with new data, but for the links. -/
theorem Linking.of_links {unlinked : List (UInt256 × UInt256)}
    (hl : ({ st.receive x nTx with mapBlocksUnlinked := unlinked } : CChainState).Links T queue) :
    ({ st.receive x nTx with mapBlocksUnlinked := unlinked } : CChainState).Linking T queue := by
  have S : (st.receive x nTx).TreeShape T := TreeShape.receive C hx hd hf
  have G := Stages.receive C hx hd hf hn
  have M : (st.receive x nTx).Marks T := Marks.receive C hx hd hf
  have O : (st.receive x nTx).OnTop T := OnTop.receive C hx hd hf
  have R : (st.receive x nTx).Ranked T := Ranked.receive C hx hd hf
  exact ⟨⟨S.1, S.2, S.3⟩, ⟨G.1, G.2, G.3, G.4, G.5, G.6⟩, hl, ⟨M.1, M.2⟩,
    ⟨O.1, O.2, O.3, O.4, O.5⟩, ⟨R.1, R.2, R.3, R.4.imp fun a A => ⟨A.1, A.2, A.3, A.4⟩⟩⟩

/-- A block on a linked parent goes through the queue. -/
theorem Linking.receive (hg : x ≠ T.hashGenesisBlock) (hl : st.Linked (T.hashPrevBlock x)) :
    (st.receive x nTx).Linking T [x] := by
  have hlinks : (st.receive x nTx).Links T [x] :=
    Links.receive C hx hd hf hg (fun p y h => Or.inl h) (fun _ h => h) C.links.unlinked_nodup
      (fun y hy => ⟨mem_singleton.1 hy, hl⟩) (nodup_singleton x)
      (Or.inr (Or.inr (mem_singleton_self x)))
  exact Linking.of_links C hx hd hf hn hlinks

/-- What `ReceivedBlockTransactions` can do: link the block and what waited for
it, or leave the entries. -/
theorem receivedBlockTransactions_cases (hg : x ≠ T.hashGenesisBlock) :
    ((st.receive x nTx).Linking T [x] ∧ st.receivedBlockTransactions T x nTx =
      linkQueue T (st.mapBlocksUnlinked.length + 1) [x] (st.receive x nTx)) ∨
    ∃ unlinked, st.receivedBlockTransactions T x nTx =
      { st.receive x nTx with mapBlocksUnlinked := unlinked } := by
  have hprev : (st.receive x nTx).entry (T.hashPrevBlock x) = st.entry (T.hashPrevBlock x) :=
    receive_entry_of_ne (C.shape.prev_ne hx hg)
  unfold CChainState.receivedBlockTransactions
  simp only [BlockTree.pprev, if_neg hg, hprev]
  split_ifs with hl
  · exact Or.inl ⟨Linking.receive C hx hd hf hn hg hl, rfl⟩
  · exact Or.inr ⟨_, rfl⟩
  · exact Or.inr ⟨_, rfl⟩

end Received

section

variable (C : st.Consistent T)
include C

/-- **`ReceivedBlockTransactions` keeps the invariant** of a block that it does
not strand. -/
theorem Consistent.receivedBlockTransactions (hx : x ∈ st.mapBlockIndex)
    (hd : (st.entry x).haveData = false) (hf : (st.entry x).failed = false) (hn : 0 < nTx)
    (hs : st.strands T x = false) : (st.receivedBlockTransactions T x nTx).Consistent T := by
  have hg : x ≠ T.hashGenesisBlock := by
    rintro rfl
    exact not_linked_of_no_data C hx hd C.links.genesis
  have hp := C.shape.rooted.prev_mem x hx hg
  have hprev : (st.receive x nTx).entry (T.hashPrevBlock x) = st.entry (T.hashPrevBlock x) :=
    receive_entry_of_ne (C.shape.prev_ne hx hg)
  unfold CChainState.receivedBlockTransactions
  simp only [BlockTree.pprev, if_neg hg, hprev]
  split_ifs with hl hv
  · -- the parent is linked: the block goes through the queue
    refine (Linking.linkQueue (Linking.receive C hx hd hf hn hg hl) ?_).consistent
    exact (Nat.add_comm _ _).le
  · -- the parent is not, and has not failed: the block waits for it
    have hnew : (T.hashPrevBlock x, x) ∉ st.mapBlocksUnlinked := by
      intro h
      rw [(C.links.unlinked _ _ h).2.2.2.1] at hd
      exact absurd hd (by simp)
    refine (Linking.of_links C hx hd hf hn (Links.receive C hx hd hf hg ?_
      (fun q hq => mem_append_left _ hq) ?_ (fun y hy => absurd hy not_mem_nil)
      nodup_nil (Or.inl (mem_append_right _ (mem_singleton_self _))))).consistent
    · intro p y hpy
      rcases mem_append.1 hpy with h | h
      · exact Or.inl h
      · obtain ⟨rfl, rfl⟩ := Prod.mk.inj (mem_singleton.1 h)
        exact Or.inr ⟨rfl, rfl, hl, not_mem_nil⟩
    · refine nodup_append.2 ⟨C.links.unlinked_nodup, nodup_singleton _, ?_⟩
      rintro q hq r hr rfl
      exact hnew (mem_singleton.1 hr ▸ hq)
  · -- the parent has failed: some ancestor will never have data
    have hpf : (st.entry (T.hashPrevBlock x)).failed = true := by
      have htree := C.stages.tree _ hp
      rw [isValid] at hv
      simpa [htree] using hv
    have hdoomed : st.Doomed T x := by
      rw [strands, decide_eq_true hx, hpf] at hs
      simp only [Bool.true_and, not_not.1 hl, beq_self_eq_true, List.all_eq_false] at hs
      obtain ⟨a, ha, hs⟩ := hs
      rw [C.shape.mem_chainTo hp] at ha
      refine ⟨a, Anc.up hg ha, ?_⟩
      simpa using hs
    exact (Linking.of_links C hx hd hf hn (Links.receive C hx hd hf hg (fun p y h => Or.inl h)
      (fun _ h => h) C.links.unlinked_nodup (fun y hy => absurd hy not_mem_nil)
      nodup_nil (Or.inr (Or.inl (doomed_receive hx hd hf hdoomed))))).consistent

/-- A header that was accepted: the block is indexed, not marked, and not
about to be stranded if it was not before. -/
theorem acceptBlockHeader_accepted {checks : HeaderChecks} {st' : CChainState}
    (h : st.acceptBlockHeader T x checks = (st', true)) :
    x ∈ st'.mapBlockIndex ∧ (x ≠ T.hashGenesisBlock → (st'.entry x).failed = false) ∧
      (st.strands T x = false → st'.strands T x = false) := by
  rcases acceptBlockHeader_cases C x checks with ⟨h', hx, hf⟩ | h' | ⟨h', hx, hg, hp, hpf⟩ |
    ⟨f, -, -, -, h'⟩ <;> rw [h'] at h <;> obtain ⟨rfl, hr⟩ := Prod.mk.inj h
  · exact ⟨hx, hf, id⟩
  · exact absurd hr (by simp)
  · refine ⟨?_, fun _ => ?_, fun _ => ?_⟩
    · rw [addToBlockIndex_map hx]
      exact mem_cons_self
    · rw [addToBlockIndex_entry_self hx hp]
      rfl
    · rw [strands, addToBlockIndex_entry_of_mem hx _ hp, hpf]
      simp
  · exact absurd hr (by simp)

/-- A block without data that fails its checks. -/
theorem Consistent.markMissing (hx : x ∈ st.mapBlockIndex)
    (hd : (st.entry x).haveData = false) : (st.markFailedValid x).Consistent T := by
  -- the ancestors of a linked block have data
  have haway : ∀ y ∈ st.mapBlockIndex, st.Linked y → ¬ T.Anc x y := by
    intro y hy hl hxy
    exact not_linked_of_no_data C hx hd (C.links.linked_anc C.shape hy hl hxy)
  refine C.of_marked kept_markFailedValid rfl ?_ C.marks.markFailedValid
    (unfailed_markFailedValid (haway _ C.onTop.mem C.onTop.linked) C.onTop.unfailed)
    (List.Subset.refl _) (fun _ h _ => h) ?_
  · intro y
    by_cases hy : y = x
    · subst hy
      rw [markFailedValid, setEntry_entry_self]
      exact ⟨rfl, rfl⟩
    · rw [markFailedValid, setEntry_entry_of_ne hy]
      exact ⟨rfl, rfl⟩
  · intro a A
    exact unfailed_markFailedValid (haway a (C.ranked.mem a A.mem) (C.ranked.linked a A.mem))
      A.unfailed

/-- What `AcceptBlock` can do: stop after the header, mark the block, or take
its data. -/
theorem acceptBlock_cases (nMinimumChainWork : ℕ) (b : Arrival) :
    (∃ accepted, st.acceptBlock T nMinimumChainWork b =
      ((st.acceptBlockHeader T b.hash b.checks).1, accepted)) ∨
    ∃ st₁, st.acceptBlockHeader T b.hash b.checks = (st₁, true) ∧ b.hash ∈ st₁.mapBlockIndex ∧
      (st₁.entry b.hash).haveData = false ∧ (st₁.entry b.hash).failed = false ∧
      b.hash ≠ T.hashGenesisBlock ∧ st₁.checkSync T (st₁.entry b.hash).nHeight = true ∧
      (st.acceptBlock T nMinimumChainWork b = (st₁.markFailedValid b.hash, false) ∨
        st.acceptBlock T nMinimumChainWork b =
          (st₁.receivedBlockTransactions T b.hash b.nTx, true)) := by
  have C' := C.acceptBlockHeader b.hash b.checks
  unfold CChainState.acceptBlock
  split
  · next st₁ h => exact Or.inl ⟨false, by rw [h]⟩
  next st₁ h =>
  rw [h] at C'
  obtain ⟨hx, hf, -⟩ := acceptBlockHeader_accepted C h
  split_ifs with h₁ h₂
  · exact Or.inl ⟨false, by rw [h]⟩
  · exact Or.inl ⟨true, by rw [h]⟩
  have hd : (st₁.entry b.hash).haveData = false := by
    rw [Bool.or_eq_true, not_or] at h₂
    exact Bool.eq_false_iff.2 h₂.1
  have hg : b.hash ≠ T.hashGenesisBlock := by
    intro hg
    exact not_linked_of_no_data C' hx hd (hg ▸ C'.links.genesis)
  have hsync : st₁.checkSync T (st₁.entry b.hash).nHeight = true := by
    rw [Bool.or_eq_true, not_or] at h₁
    simpa using h₁.2
  split
  · exact Or.inr ⟨st₁, h, hx, hd, hf hg, hg, hsync, Or.inl rfl⟩
  · exact Or.inl ⟨false, by rw [h]⟩
  · exact Or.inr ⟨st₁, h, hx, hd, hf hg, hg, hsync, Or.inr rfl⟩

/-- **`AcceptBlock` keeps the invariant** of a block that it does not strand. -/
theorem Consistent.acceptBlock (nMinimumChainWork : ℕ) (b : Arrival)
    (hs : b.hash ≠ T.hashGenesisBlock → st.strands T b.hash = false) :
    (st.acceptBlock T nMinimumChainWork b).1.Consistent T := by
  have C' := C.acceptBlockHeader b.hash b.checks
  rcases acceptBlock_cases C nMinimumChainWork b with
    ⟨accepted, h⟩ | ⟨st₁, hheader, hx, hd, hf, hg, -, h | h⟩
  · rw [h]
    exact C'
  all_goals rw [h]; rw [hheader] at C'
  · exact C'.markMissing hx hd
  · exact C'.receivedBlockTransactions hx hd hf b.nTx_pos
      ((acceptBlockHeader_accepted C hheader).2.2 (hs hg))

end

end CChainState

end Slucore

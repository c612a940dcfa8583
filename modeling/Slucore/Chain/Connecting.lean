import Slucore.Chain.Linking
/-!
# Chain — moving the tip keeps the invariant

The parts of `ActivateBestChain`: going down to the fork, connecting the
next block and pruning, finding that it does not connect, and dropping a
chain with a failed block from the candidates.
-/


namespace Slucore

open List CChainState

namespace CChainState

variable {T : BlockTree} {st : CChainState} {a f x y : UInt256} {xs : List UInt256}

/-! ## Down to the fork -/

variable (st) in
theorem kept_setTip (f : UInt256) : Kept st { st with tip := f } :=
  ⟨rfl, rfl, fun _ => rfl, fun _ => rfl, fun _ => rfl, fun _ => rfl, fun _ => rfl, fun _ => rfl,
    fun _ h => h⟩

/-- **Going back to an ancestor of the tip keeps the invariant**: what does not
sort below the tip does not sort below the ancestor. -/
theorem Consistent.setTip (C : st.Consistent T) (hf : T.Anc f st.tip) :
    ({ st with tip := f } : CChainState).Consistent T := by
  have K := kept_setTip st f
  have O := C.onTop
  have R := C.ranked
  refine ⟨K.treeShape C.shape, K.stages C.stages (fun _ => rfl) fun _ => rfl, K.links C.links,
    ⟨C.marks.1, C.marks.2⟩, ?_, ?_⟩
  · exact ⟨C.shape.rooted.mem hf O.mem, C.links.linked_anc C.shape O.mem O.linked hf,
      O.unfailed.anc hf, fun a ha => O.connects a (ha.trans hf),
      fun a ha => O.scripts a (ha.trans hf)⟩
  · refine ⟨R.mem, R.linked, ?_, ?_⟩
    · intro x hx
      exact not_worse_trans (R.not_worse x hx) (C.shape.not_worse_anc hf O.mem)
    · obtain ⟨a, A⟩ := R.anchor
      exact ⟨a, A.mem, A.unfailed, A.connects, A.covers⟩

/-- A loop of `DisconnectTip` that does not stop above `f` gets there. -/
theorem disconnectWhile_down (S : st.TreeShape T) (cond : CChainState → Bool) {n : ℕ}
    {g : UInt256} (hg : g ∈ st.mapBlockIndex) (hfg : T.Anc f g)
    (hcond : ∀ h, T.Anc f h → T.Anc h g → h ≠ f → cond { st with tip := h } = true)
    (hn : (st.entry g).nHeight < n) :
    ∃ m, disconnectWhile T cond n { st with tip := g } =
      disconnectWhile T cond (m + 1) { st with tip := f } := by
  induction n generalizing g with
  | zero => omega
  | succ n ih =>
    by_cases hgf : g = f
    · exact ⟨n, by rw [hgf]⟩
    have hroot : g ≠ T.hashGenesisBlock := by
      rintro rfl
      exact hgf (anc_root_iff.1 hfg).symm
    have hfp := ((anc_iff.1 hfg).resolve_left fun h => hgf h.symm).2
    have hh := S.rooted.height g hg hroot
    rw [disconnectWhile, hcond g hfg (Anc.refl g) hgf]
    simp only [disconnectTip, hroot]
    exact ih (S.rooted.prev_mem g hg hroot) hfp
      (fun h hfh hh => hcond h hfh (Anc.up hroot hh)) (by omega)

/-- One that stops there first ends there. -/
theorem Consistent.disconnectWhile_eq (C : st.Consistent T) (cond : CChainState → Bool)
    (hf : T.Anc f st.tip) (hcond : ∀ h, T.Anc f h → T.Anc h st.tip →
      cond { st with tip := h } = decide (h ≠ f)) :
    disconnectWhile T cond ((st.entry st.tip).nHeight + 1) st = ({ st with tip := f }, true) := by
  obtain ⟨m, hdown⟩ := disconnectWhile_down C.shape cond C.onTop.mem hf
    (fun h hfh hh hne => (hcond h hfh hh).trans (decide_eq_true hne)) (Nat.lt_succ_self _)
  rw [hdown, disconnectWhile, hcond f (Anc.refl f) hf]
  simp

/-! ## The next block connects -/

section Connect

variable (C : st.Consistent T) (hx : x ∈ st.mapBlockIndex) (hg : x ≠ T.hashGenesisBlock)
  (hp : T.hashPrevBlock x = st.tip) (hl : st.Linked x) (hf : (st.entry x).failed = false)

variable (st x) in
/-- The state after a block connected, before `PruneBlockIndexCandidates`. -/
def connected : CChainState :=
  { st.setEntry x (IndexEntry.raiseValidity { st.entry x with haveUndo := true } .scripts) with
    tip := x }

theorem connected_entry_of_ne (hy : y ≠ x) : (connected st x).entry y = st.entry y :=
  setEntry_entry_of_ne hy

include hf in
theorem connected_entry_self : (connected st x).entry x =
    { st.entry x with haveUndo := true, validity := .scripts } := by
  change (st.setEntry x _).entry x = _
  have hf' : IndexEntry.failed { st.entry x with haveUndo := true } = false := hf
  rw [setEntry_entry_self, IndexEntry.raiseValidity, if_neg (by simp [hf'])]
  cases hv : (st.entry x).validity <;> simp [BlockValidity.rank, hv]

include hf

theorem kept_connected : Kept st (connected st x) := by
  refine ⟨rfl, rfl, ?_, ?_, ?_, ?_, ?_, ?_, ?_⟩ <;> intro y <;> by_cases hy : y = x
  all_goals first
    | (subst hy; rw [connected_entry_self hf]; done)
    | (rw [connected_entry_of_ne hy]; done)
    | skip
  · subst hy
    rw [hf]
    exact fun h => absurd h (by simp)
  · rw [connected_entry_of_ne hy]
    exact id

theorem connected_marks (y : UInt256) :
    ((connected st x).entry y).failedValid = (st.entry y).failedValid ∧
    ((connected st x).entry y).failedChild = (st.entry y).failedChild ∧
    ((connected st x).entry y).failed = (st.entry y).failed := by
  by_cases hy : y = x
  · subst hy
    rw [connected_entry_self hf]
    exact ⟨rfl, rfl, rfl⟩
  · rw [connected_entry_of_ne hy]
    exact ⟨rfl, rfl, rfl⟩

theorem unfailed_connected : (connected st x).Unfailed T y ↔ st.Unfailed T y := by
  refine forall_congr' fun a => imp_congr_right fun _ => ?_
  rw [(connected_marks hf a).2.2]

include C hx hp hl

/-- All but the genesis block below the new tip had their scripts checked. -/
theorem connected_scripts (hax : T.Anc a x) (hag : a ≠ T.hashGenesisBlock) :
    ((connected st x).entry a).validity = .scripts := by
  by_cases ha : a = x
  · subst ha
    rw [connected_entry_self hf]
  · have hat := ((anc_iff.1 hax).resolve_left ha).2
    rw [connected_entry_of_ne ha]
    exact C.onTop.scripts a (hp ▸ hat) hag

theorem Stages.connected : (connected st x).Stages T := by
  have G := C.stages
  have hself := connected_entry_self hf
  have hd := C.links.data x hx hl
  refine ⟨?_, ?_, ?_, ?_, ?_, ?_⟩ <;> intro y hy <;> by_cases hyx : y = x
  · subst hyx
    rw [hself]
    simp [BlockValidity.rank]
  · rw [connected_entry_of_ne hyx]
    exact G.tree y hy
  · subst hyx
    rw [hself]
    exact G.data y hx
  · rw [connected_entry_of_ne hyx]
    exact G.data y hy
  · subst hyx
    rw [hself]
    exact iff_of_true (by simp [BlockValidity.rank]) ((G.data y hx).1 hd)
  · rw [connected_entry_of_ne hyx]
    exact G.transactions y hy
  · subst hyx
    rw [hself]
    exact fun _ => hd
  · rw [connected_entry_of_ne hyx]
    exact G.undo y hy
  · subst hyx
    rw [hself]
    exact fun _ => rfl
  · rw [connected_entry_of_ne hyx]
    exact G.chain y hy
  · subst hyx
    exact fun _ a hay hag => connected_scripts C hx hp hl hf hay hag
  · rw [connected_entry_of_ne hyx]
    intro hv a hay hag
    by_cases hax : a = x
    · subst hax
      rw [hself]
    · rw [connected_entry_of_ne hax]
      exact G.scripts y hy hv a hay hag

include hg in
/-- A block without failed ancestors sorts on top of the tip. -/
theorem unfailed_next : st.Unfailed T x := by
  intro a hax
  rcases anc_iff.1 hax with rfl | ⟨-, hat⟩
  · exact hf
  · exact C.onTop.unfailed a (hp ▸ hat)

include hg in
/-- **Connecting the next block, and pruning, keeps the invariant.** The anchor
stays one unless it sorts below the new tip; then the tip is one. -/
theorem Consistent.connect (hc : T.connects x = true) :
    ((connected st x).pruneBlockIndexCandidates T).Consistent T := by
  have K : Kept st (connected st x) := kept_connected hf
  have hux := unfailed_next C hx hg hp hl hf
  have hcx : Connects T x := by
    intro a hax hag
    rcases anc_iff.1 hax with rfl | ⟨-, hat⟩
    · exact hc
    · exact C.onTop.connects a (hp ▸ hat) hag
  have hcand : ∀ y, y ∈ ((connected st x).pruneBlockIndexCandidates
      T).setBlockIndexCandidates ↔
      y ∈ st.setBlockIndexCandidates ∧ st.worse T y x = false := by
    intro y
    change y ∈ List.filter (fun y => !(connected st x).worse T y x)
      st.setBlockIndexCandidates ↔ _
    rw [mem_filter, K.worse, Bool.not_eq_true']
  have S := K.treeShape C.shape
  have G := Stages.connected C hx hp hl hf
  have L := K.links C.links
  refine ⟨⟨S.1, S.2, S.3⟩, ⟨G.1, G.2, G.3, G.4, G.5, G.6⟩,
    ⟨L.1, L.2, L.3, L.4, L.5, L.6, L.7, L.8, L.9⟩, ⟨?_, ?_⟩, ⟨hx, K.linked.2 hl,
    (unfailed_connected hf).2 hux, hcx, fun a hax hag => connected_scripts C hx hp hl hf hax hag⟩,
    ⟨?_, ?_, ?_, ?_⟩⟩
  · intro y hy hfc
    obtain ⟨a, hay, hv⟩ := C.marks.child y hy ((connected_marks hf y).2.1 ▸ hfc)
    exact ⟨a, hay, (connected_marks hf a).1 ▸ hv⟩
  · intro y hy
    obtain ⟨hmem, hv⟩ := C.marks.failedBlocks y hy
    exact ⟨hmem, (connected_marks hf y).1 ▸ hv⟩
  · intro y hy
    exact C.ranked.mem y ((hcand y).1 hy).1
  · intro y hy
    exact K.linked.2 (C.ranked.linked y ((hcand y).1 hy).1)
  · intro y hy
    exact K.worse.trans ((hcand y).1 hy).2
  · obtain ⟨a, A⟩ := C.ranked.anchor
    -- a block that covers what the old anchor covered, and is not pruned
    have hnew : ∀ b, st.worse T b a = false → st.worse T b x = false → st.Unfailed T b →
        Connects T b → b ∈ st.mapBlockIndex → st.Linked b →
        ((connected st x).pruneBlockIndexCandidates T).IsAnchor T b := by
      intro b hba hbx hub hcb hbm hlb
      refine ⟨(hcand b).2 ⟨A.covers b hbm hlb hub hba, hbx⟩, (unfailed_connected hf).2 hub, hcb, ?_⟩
      intro y hy hly huy hyb
      have hyb' : st.worse T y b = false := K.worse.symm.trans hyb
      exact (hcand y).2 ⟨A.covers y hy (K.linked.1 hly) ((unfailed_connected hf).1 huy)
        (not_worse_trans hyb' hba), not_worse_trans hyb' hbx⟩
    cases hax : st.worse T a x with
    | false =>
      exact ⟨a, hnew a not_worse_self hax A.unfailed A.connects (C.ranked.mem a A.mem)
        (C.ranked.linked a A.mem)⟩
    | true => exact ⟨x, hnew x (not_worse_of_worse hax) not_worse_self hux hcx hx hl⟩

end Connect

/-! ## It does not connect -/

theorem kept_invalidBlockFound : Kept st (st.invalidBlockFound x) := by
  have K : Kept st ((st.markFailedValid x).eraseCandidates [x]) :=
    kept_markFailedValid.trans kept_eraseCandidates
  exact ⟨K.1, K.2, K.3, K.4, K.5, K.6, K.7, K.8, K.9⟩

theorem invalidBlockFound_failed : ((st.invalidBlockFound x).entry x).failed = true := by
  change ((st.markFailedValid x).entry x).failed = true
  rw [markFailedValid, setEntry_entry_self]
  rfl

theorem mem_candidates_invalidBlockFound :
    y ∈ (st.invalidBlockFound x).setBlockIndexCandidates ↔
      y ∈ st.setBlockIndexCandidates ∧ y ≠ x := by
  change y ∈ List.filter (· ∉ [x]) st.setBlockIndexCandidates ↔ _
  rw [mem_filter, decide_eq_true_eq, mem_singleton]

theorem Marks.invalidBlockFound (M : st.Marks T) (hx : x ∈ st.mapBlockIndex) :
    (st.invalidBlockFound x).Marks T := by
  have M' : (st.markFailedValid x).Marks T := M.markFailedValid
  refine ⟨M'.child, ?_⟩
  intro y hy
  rcases mem_insert_iff.1 hy with rfl | hy
  · refine ⟨hx, ?_⟩
    change ((st.markFailedValid y).entry y).failedValid = true
    rw [CChainState.markFailedValid, setEntry_entry_self]
  · exact M'.failedBlocks y hy

theorem invalidBlockFound_level (y : UInt256) :
    ((st.invalidBlockFound x).entry y).validity = (st.entry y).validity ∧
      ((st.invalidBlockFound x).entry y).haveUndo = (st.entry y).haveUndo := by
  change ((st.markFailedValid x).entry y).validity = _ ∧
    ((st.markFailedValid x).entry y).haveUndo = _
  by_cases hy : y = x
  · subst hy
    rw [markFailedValid, setEntry_entry_self]
    exact ⟨rfl, rfl⟩
  · rw [markFailedValid, setEntry_entry_of_ne hy]
    exact ⟨rfl, rfl⟩

/-- **A block that does not connect is marked, and the invariant holds**: the
anchor and the active chain connected. -/
theorem Consistent.invalidBlockFound (C : st.Consistent T) (hx : x ∈ st.mapBlockIndex)
    (hg : x ≠ T.hashGenesisBlock) (hc : T.connects x = false) :
    (st.invalidBlockFound x).Consistent T := by
  have haway : ∀ y, Connects T y → ¬ T.Anc x y := by
    intro y hy hxy
    rw [hy x hxy hg] at hc
    exact absurd hc (by simp)
  refine C.of_marked kept_invalidBlockFound rfl invalidBlockFound_level
    (C.marks.invalidBlockFound hx)
    (unfailed_markFailedValid (haway _ C.onTop.connects) C.onTop.unfailed) ?_ ?_ ?_
  · exact fun y hy => (mem_candidates_invalidBlockFound.1 hy).1
  · intro y hy hu
    refine mem_candidates_invalidBlockFound.2 ⟨hy, ?_⟩
    rintro rfl
    have hf := hu y (Anc.refl y)
    rw [invalidBlockFound_failed] at hf
    exact absurd hf (by simp)
  · exact fun a A => unfailed_markFailedValid (haway a A.connects) A.unfailed

/-! ## A chain with a failed block is dropped -/

theorem removeChain_eq (hf : (st.entry y).failed = true) : st.removeChain T x y =
    (st.markFailedChild ((st.chainTo T x).takeWhile (· ≠ y))).eraseCandidates
      (y :: (st.chainTo T x).takeWhile (· ≠ y)) := by
  simp [removeChain, hf]

theorem kept_removeChain (hf : (st.entry y).failed = true) : Kept st (st.removeChain T x y) := by
  rw [removeChain_eq hf]
  exact kept_markFailedChild.trans kept_eraseCandidates

/-- **Dropping a chain with a failed block keeps the invariant.** -/
theorem Consistent.removeChain (C : st.Consistent T) (hx : x ∈ st.mapBlockIndex) (hyx : T.Anc y x)
    (hf : (st.entry y).failed = true) : (st.removeChain T x y).Consistent T := by
  obtain ⟨f, hfy, hv⟩ := C.marks.exists_failedValid C.shape (C.shape.rooted.mem hyx hx)
    (Anc.refl y) hf
  have habove : ∀ z ∈ (st.chainTo T x).takeWhile (· ≠ y), T.Anc y z :=
    fun z hz => (C.shape.mem_above hx hyx hz).1
  have hvalid : ∀ z ∈ (st.chainTo T x).takeWhile (· ≠ y),
      ∃ f, T.Anc f z ∧ (st.entry f).failedValid = true :=
    fun z hz => ⟨f, hfy.trans (habove z hz), hv⟩
  have hfailed : ∀ z ∈ (st.chainTo T x).takeWhile (· ≠ y),
      ∃ f, T.Anc f z ∧ (st.entry f).failed = true := fun z hz => ⟨y, habove z hz, hf⟩
  have K := kept_removeChain (T := T) (x := x) hf
  rw [removeChain_eq hf] at K ⊢
  refine C.of_marked K rfl ?_ ?_ (unfailed_markFailedChild hfailed C.onTop.unfailed) ?_ ?_
    fun a A => unfailed_markFailedChild hfailed A.unfailed
  · intro z
    change ((st.markFailedChild _).entry z).validity = _ ∧
      ((st.markFailedChild _).entry z).haveUndo = _
    dsimp only [markFailedChild]
    split_ifs <;> exact ⟨rfl, rfl⟩
  · have M := C.marks.markFailedChild hvalid
    exact ⟨M.1, M.2⟩
  · exact filter_subset_self _
  · intro z hz hu
    refine mem_filter.2 ⟨hz, decide_eq_true ?_⟩
    intro hmem
    -- a block that is erased has the failed block among its ancestors
    have hyz : T.Anc y z := by
      rcases mem_cons.1 hmem with rfl | hmem
      · exact Anc.refl z
      · exact habove z hmem
    have hy := K.unfailed hu y hyz
    rw [hf] at hy
    exact absurd hy (by simp)

end CChainState

end Slucore

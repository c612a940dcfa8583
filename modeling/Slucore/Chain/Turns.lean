import Slucore.Chain.Connecting
/-!
# Chain — the loops of `ActivateBestChain`

Each turn looks for the best candidate, unless it still has one, and makes a
step towards it. The step ends with a block that was found invalid, or
closer to the candidate: a count of the blocks that have not failed, with
the distance to the candidate, gets smaller every turn (`effort`), and the
loops end. They end with the best candidate as the tip.
-/


namespace Slucore

open List

namespace CChainState

variable {T : BlockTree} {st st' st'' : CChainState} {a f t x y : UInt256}

/-! ## What a turn may change -/

variable (T) in
/-- The tree and the data are kept; no chain that connects is marked, and only
linked blocks are. -/
structure Advance (st st' : CChainState) : Prop where
  kept : Kept st st'
  spares : ∀ y, Connects T y → st.Unfailed T y → st'.Unfailed T y
  fresh : ∀ y, (st'.entry y).failed = true → (st.entry y).failed = true ∨ st.Linked y
  found : ∀ f ∈ st'.failedBlocks, f ∈ st.failedBlocks ∨ st.Linked f

theorem Advance.refl (st : CChainState) : Advance T st st :=
  ⟨Kept.refl st, fun _ _ h => h, fun _ h => Or.inl h, fun _ h => Or.inl h⟩

theorem Advance.trans (h : Advance T st st') (h' : Advance T st' st'') : Advance T st st'' where
  kept := h.kept.trans h'.kept
  spares y hc hu := h'.spares y hc (h.spares y hc hu)
  fresh y hf := by
    rcases h'.fresh y hf with hf | hl
    · exact h.fresh y hf
    · exact Or.inr (h.kept.linked.1 hl)
  found f hf := by
    rcases h'.found f hf with hf | hl
    · exact h.found f hf
    · exact Or.inr (h.kept.linked.1 hl)

variable (st) in
theorem advance_setTip (f : UInt256) : Advance T st { st with tip := f } :=
  ⟨kept_setTip st f, fun _ _ h => h, fun _ h => Or.inl h, fun _ h => Or.inl h⟩

/-- A connected block changes no mark. -/
theorem advance_connected (hf : (st.entry x).failed = false) :
    Advance T st ((connected st x).pruneBlockIndexCandidates T) := by
  have K := kept_connected hf
  refine ⟨⟨K.1, K.2, K.3, K.4, K.5, K.6, K.7, K.8, K.9⟩,
    fun y _ hu => (unfailed_connected hf).2 hu, fun y hy => Or.inl ?_, fun _ h => Or.inl h⟩
  exact (connected_marks hf y).2.2 ▸ hy

theorem advance_invalidBlockFound (hg : x ≠ T.hashGenesisBlock) (hc : T.connects x = false)
    (hl : st.Linked x) : Advance T st (st.invalidBlockFound x) := by
  refine ⟨kept_invalidBlockFound, fun y hy hu => unfailed_markFailedValid ?_ hu, ?_, ?_⟩
  · intro hxy
    rw [hy x hxy hg] at hc
    exact absurd hc (by simp)
  · intro y hy
    by_cases hyx : y = x
    · exact Or.inr (hyx ▸ hl)
    · change ((st.markFailedValid x).entry y).failed = true at hy
      rw [markFailedValid, setEntry_entry_of_ne hyx] at hy
      exact Or.inl hy
  · intro f hf
    rcases mem_insert_iff.1 hf with rfl | hf
    · exact Or.inr hl
    · exact Or.inl hf

theorem advance_removeChain (C : st.Consistent T) (hx : x ∈ st.mapBlockIndex) (hl : st.Linked x)
    (hyx : T.Anc y x) (hf : (st.entry y).failed = true) :
    Advance T st (st.removeChain T x y) := by
  have habove := fun z hz => C.shape.mem_above (y := z) hx hyx hz
  refine ⟨kept_removeChain hf, ?_, ?_, ?_⟩ <;> rw [removeChain_eq hf]
  · intro z _ hu
    exact unfailed_markFailedChild (fun w hw => ⟨y, (habove w hw).1, hf⟩) hu
  · intro z hz
    change ((st.markFailedChild _).entry z).failed = true at hz
    dsimp only [markFailedChild] at hz
    split_ifs at hz with hmem
    · exact Or.inr (C.links.linked_anc C.shape hx hl (habove z hmem).2.1)
    · exact Or.inl hz
  · exact fun f hf => Or.inl hf

variable (st) in
/-- How many blocks are not marked failed. -/
def unfailedCount : ℕ := st.mapBlockIndex.countP fun x => !(st.entry x).failed

/-- Marks only take blocks from the count. -/
theorem Kept.unfailedCount_le (K : Kept st st') : st'.unfailedCount ≤ st.unfailedCount := by
  rw [unfailedCount, K.map]
  refine countP_mono_left fun x _ hx => ?_
  rw [Bool.not_eq_true', Bool.eq_false_iff] at hx ⊢
  exact fun h => hx (K.failed x h)

/-- A new mark takes one. -/
theorem Kept.unfailedCount_lt (K : Kept st st') (hx : x ∈ st.mapBlockIndex)
    (hf : (st.entry x).failed = false) (hf' : (st'.entry x).failed = true) :
    st'.unfailedCount < st.unfailedCount := by
  obtain ⟨l₁, l₂, hl⟩ := append_of_mem hx
  have hmono : ∀ l : List UInt256, l.countP (fun x => !(st'.entry x).failed) ≤
      l.countP fun x => !(st.entry x).failed := by
    intro l
    refine countP_mono_left fun x _ hx => ?_
    rw [Bool.not_eq_true', Bool.eq_false_iff] at hx ⊢
    exact fun h => hx (K.failed x h)
  have h₁ := hmono l₁
  have h₂ := hmono l₂
  rw [unfailedCount, unfailedCount, K.map, hl]
  simp only [countP_append, countP_cons, hf, hf', Bool.not_true, Bool.not_false,
    if_true, Bool.false_eq_true, if_false]
  omega

/-! ## The chain above the active one -/

section OffChain

variable (S : st.TreeShape T) (htip : st.tip ∈ st.mapBlockIndex)
include S htip

/-- Up from the active chain: a block is on it, or it is next after the blocks
off the chain that lead to its parent. -/
@[elab_as_elim]
theorem offChain_induct {motive : (x : UInt256) → x ∈ st.mapBlockIndex → Prop}
    (on : ∀ x hx, T.Anc x st.tip → st.offChain T x = [] → st.findFork T x = some x → motive x hx)
    (off : ∀ x hx hg, ¬ T.Anc x st.tip →
      st.offChain T x = x :: st.offChain T (T.hashPrevBlock x) →
      st.findFork T x = st.findFork T (T.hashPrevBlock x) →
      motive (T.hashPrevBlock x) (S.rooted.prev_mem x hx hg) → motive x hx)
    {x : UInt256} (hx : x ∈ st.mapBlockIndex) : motive x hx := by
  have hon := fun y => S.contains_iff (a := y) htip
  induction hx using S.rooted.induct with
  | base =>
    have hroot := S.rooted.root_anc htip
    refine on _ _ hroot ?_ ?_ <;> simp [offChain, findFork, chainTo_genesis, (hon _).2 hroot]
  | up x hx hg ih =>
    by_cases hc : T.Anc x st.tip
    · refine on x hx hc ?_ ?_ <;> simp [offChain, findFork, S.chainTo_prev hx hg, (hon x).2 hc]
    · have hc' := Bool.eq_false_iff.2 fun h => hc ((hon x).1 h)
      refine off x hx hg hc ?_ ?_ ih <;>
        simp [offChain, findFork, S.chainTo_prev hx hg, hc']

/-- The blocks off the active chain. -/
theorem mem_offChain (hx : x ∈ st.mapBlockIndex) :
    a ∈ st.offChain T x ↔ T.Anc a x ∧ ¬ T.Anc a st.tip := by
  induction hx using offChain_induct S htip with
  | on x hx hxt ho =>
    rw [ho]
    exact iff_of_false not_mem_nil fun h => h.2 (h.1.trans hxt)
  | off x hx hg hxt ho _ ih =>
    have hax : T.Anc a x ↔ _ := anc_iff
    rw [ho, mem_cons, ih, hax]
    constructor
    · rintro (rfl | ⟨h, h'⟩)
      · exact ⟨Or.inl rfl, hxt⟩
      · exact ⟨Or.inr ⟨hg, h⟩, h'⟩
    · rintro ⟨rfl | ⟨-, h⟩, h'⟩
      · exact Or.inl rfl
      · exact Or.inr ⟨h, h'⟩

/-- **The fork**: a block of the active chain from which the blocks off it lead
up to `x`; the tip, if `x` descends from it. -/
theorem exists_fork (hx : x ∈ st.mapBlockIndex) : ∃ f, st.findFork T x = some f ∧
    T.Anc f st.tip ∧ (T.Anc st.tip x → f = st.tip) ∧
    Ascends T.hashGenesisBlock T.hashPrevBlock f (st.offChain T x).reverse x := by
  induction hx using offChain_induct S htip with
  | on x hx hxt ho hf =>
    refine ⟨x, hf, hxt, fun htx => S.rooted.antisymm hxt htx htip, ?_⟩
    rw [ho]
    exact .nil x
  | off x hx hg hxt ho hfork ih =>
    obtain ⟨f, hf, hft, htx, hasc⟩ := ih
    refine ⟨f, hfork.trans hf, hft, fun h => htx ?_, ?_⟩
    · refine ((anc_iff.1 h).resolve_left ?_).2
      rintro rfl
      exact hxt (Anc.refl _)
    · rw [ho, reverse_cons]
      exact hasc.snoc hg

end OffChain

/-! ## `FindMostWorkChain` -/

variable (T st) in
/-- The block `ActivateBestChain` works towards: the best candidate, on a chain
without failures. -/
structure Target (x : UInt256) : Prop where
  mem : x ∈ st.setBlockIndexCandidates
  best : ∀ y ∈ st.setBlockIndexCandidates, st.worse T x y = false
  unfailed : st.Unfailed T x

/-- A candidate that is dropped is not a candidate. -/
theorem length_candidates_removeChain (C : st.Consistent T) (hx : x ∈ st.setBlockIndexCandidates)
    (hf : (st.entry y).failed = true) (hyx : T.Anc y x) :
    (st.removeChain T x y).setBlockIndexCandidates.length <
      st.setBlockIndexCandidates.length := by
  rw [removeChain_eq hf]
  change (st.setBlockIndexCandidates.filter _).length < _
  rw [length_filter_lt_length_iff_exists]
  refine ⟨x, hx, ?_⟩
  have hmem : x ∈ y :: (st.chainTo T x).takeWhile (· ≠ y) := by
    by_cases hxy : x = y
    · exact hxy ▸ mem_cons_self
    refine mem_cons_of_mem _ ?_
    have hg : x ≠ T.hashGenesisBlock := by
      rintro rfl
      exact hxy (anc_root_iff.1 hyx).symm
    rw [C.shape.chainTo_prev (C.ranked.mem x hx) hg, takeWhile_cons,
      if_pos (by simpa using hxy)]
    exact mem_cons_self
  rw [decide_eq_true_eq, not_not]
  exact hmem

/-- **`FindMostWorkChain` finds a target**, and drops only chains that have
failed. -/
theorem findMostWorkChainLoop_spec (n : ℕ) (C : st.Consistent T)
    (hn : st.setBlockIndexCandidates.length ≤ n) :
    ∃ x st', findMostWorkChainLoop T n st = (st', some x) ∧
      st'.Consistent T ∧ Advance T st st' ∧ st'.tip = st.tip ∧ st'.Target T x := by
  induction n generalizing st with
  | zero =>
    obtain ⟨a, A⟩ := C.ranked.anchor
    have := length_pos_of_mem A.mem
    omega
  | succ n ih =>
    rw [findMostWorkChainLoop]
    cases hb : st.bestCandidate T with
    | none =>
      obtain ⟨a, A⟩ := C.ranked.anchor
      have hmem := A.mem
      rw [bestCandidate_eq_none hb] at hmem
      exact absurd hmem not_mem_nil
    | some x =>
      obtain ⟨hx, hbest⟩ := bestCandidate_eq_some hb
      have hxm := C.ranked.mem x hx
      have hoff := fun a => mem_offChain (a := a) C.shape C.onTop.mem hxm
      dsimp only
      split
      · next hfind =>
        refine ⟨x, st, rfl, C, Advance.refl st, rfl, hx, hbest, ?_⟩
        -- below the fork the chain is active, above it nothing was found
        intro a hax
        by_cases hat : T.Anc a st.tip
        · exact C.onTop.unfailed a hat
        · have hnf := List.find?_eq_none.1 hfind a ((hoff a).2 ⟨hax, hat⟩)
          rw [Bool.or_eq_true, not_or] at hnf
          exact Bool.eq_false_iff.2 hnf.1
      · next y hfind =>
        have hyx := ((hoff y).1 (List.mem_of_find?_eq_some hfind)).1
        -- a candidate is linked: what is wrong with the block is that it failed
        have hd := C.links.data y (C.shape.rooted.mem hyx hxm)
          (C.links.linked_anc C.shape hxm (C.ranked.linked x hx) hyx)
        have hf : (st.entry y).failed = true := by
          have h := List.find?_some hfind
          simpa [hd] using h
        have hlen := length_candidates_removeChain C hx hf hyx
        obtain ⟨t, st', h, C', A', htip, ht⟩ := ih (C.removeChain hxm hyx hf) (by omega)
        have A := advance_removeChain C hxm (C.ranked.linked x hx) hyx hf
        refine ⟨t, st', h, C', A.trans A', ?_, ht⟩
        rw [htip, removeChain_eq hf]
        rfl

theorem findMostWorkChain_spec (C : st.Consistent T) :
    ∃ x st', st.findMostWorkChain T = (st', some x) ∧ st'.Consistent T ∧ Advance T st st' ∧
      st'.tip = st.tip ∧ st'.Target T x :=
  findMostWorkChainLoop_spec _ C le_rfl

/-! ## `ActivateBestChainStep` -/

/-- What connecting blocks on the way up to `t` leads to: an invalid block was
found, or the tip is closer to `t`, which is still a candidate. -/
theorem connectBlocks_spec (nOldWork : ℕ) (cs : List UInt256) (C : st.Consistent T)
    (hasc : Ascends T.hashGenesisBlock T.hashPrevBlock st.tip cs t) (ht : t ∈ st.mapBlockIndex)
    (hl : st.Linked t) (hu : st.Unfailed T t) :
    ∃ st' fInvalid, connectBlocks T nOldWork cs st = (st', fInvalid) ∧ st'.Consistent T ∧
      Advance T st st' ∧
      (fInvalid = true → st'.unfailedCount < st.unfailedCount) ∧
      (fInvalid = false → st'.Unfailed T t ∧ T.Anc st'.tip t ∧
        (st.entry st.tip).nHeight ≤ (st.entry st'.tip).nHeight ∧
        (cs ≠ [] → (st.entry st.tip).nHeight < (st.entry st'.tip).nHeight) ∧
        (t ∈ st.setBlockIndexCandidates → t ∈ st'.setBlockIndexCandidates) ∧
        st'.setBlockIndexCandidates ⊆ st.setBlockIndexCandidates) := by
  induction cs generalizing st with
  | nil =>
    refine ⟨st, false, rfl, C, Advance.refl st, fun h => absurd h (by simp), fun _ => ?_⟩
    exact ⟨hu, hasc.anc, le_rfl, fun h => absurd rfl h, id, List.Subset.refl _⟩
  | cons c cs ih =>
    cases hasc with
    | cons hc hp hcs =>
    have hct : T.Anc c t := hcs.anc
    have hcm := C.shape.rooted.mem hct ht
    have hcl := C.links.linked_anc C.shape ht hl hct
    have hcf := hu c hct
    have hch := C.shape.rooted.height c hcm hc
    rw [connectBlocks, connectTip]
    cases hconn : T.connects c with
    | false =>
      -- the block is found invalid
      refine ⟨st.invalidBlockFound c, true, by simp, C.invalidBlockFound hcm hc hconn,
        advance_invalidBlockFound hc hconn hcl, ?_, fun h => absurd h (by simp)⟩
      exact fun _ => kept_invalidBlockFound.unfailedCount_lt hcm hcf invalidBlockFound_failed
    | true =>
      have C' := C.connect hcm hc hp hcl hcf hconn
      have A := advance_connected (T := T) hcf
      have K := A.kept
      have hu' : ((connected st c).pruneBlockIndexCandidates T).Unfailed T t :=
        (unfailed_connected hcf).2 hu
      have hcand : t ∈ st.setBlockIndexCandidates →
          t ∈ ((connected st c).pruneBlockIndexCandidates T).setBlockIndexCandidates := by
        intro htc
        refine mem_filter.2 ⟨htc, ?_⟩
        change (!(connected st c).worse T t c) = true
        rw [(kept_connected hcf).worse, C.shape.not_worse_anc hct ht]
        rfl
      have hsub : ((connected st c).pruneBlockIndexCandidates T).setBlockIndexCandidates ⊆
          st.setBlockIndexCandidates := filter_subset_self _
      have hstep : (st.entry st.tip).nHeight < (st.entry c).nHeight := by
        rw [hp] at hch
        omega
      simp only [if_true]
      split_ifs with hmore
      · refine ⟨_, false, rfl, C', A, fun h => absurd h (by simp), fun _ => ?_⟩
        exact ⟨hu', hct, hstep.le, fun _ => hstep, hcand, hsub⟩
      obtain ⟨st', fInvalid, h, C'', A', hinv, hok⟩ := ih C' hcs ht (K.linked.2 hl) hu'
      refine ⟨st', fInvalid, h, C'', A.trans A', ?_, ?_⟩
      · exact fun hi => (hinv hi).trans_le K.unfailedCount_le
      intro hi
      obtain ⟨hut, hanc, hle, -, hmem, hsub'⟩ := hok hi
      change ((connected st c).entry c).nHeight ≤ ((connected st c).entry st'.tip).nHeight at hle
      rw [(kept_connected hcf).height, (kept_connected hcf).height] at hle
      exact ⟨hut, hanc, hstep.le.trans hle, fun _ => hstep.trans_le hle,
        fun htc => hmem (hcand htc), List.Subset.trans hsub' hsub⟩

variable (T st) in
/-- How far the tip is from a block, in steps of `ActivateBestChainStep`: one to
get on its chain, and one for each block from there. -/
def distance (x : UInt256) : ℕ :=
  if st.tip ∈ st.chainTo T x then (st.entry x).nHeight - (st.entry st.tip).nHeight
  else (st.entry x).nHeight + 1

/-- **A step finds an invalid block, or gets closer to the target.** -/
theorem activateBestChainStep_spec (C : st.Consistent T) (ht : st.Target T t) (hne : t ≠ st.tip) :
    ∃ st' fInvalid, st.activateBestChainStep T t = (st', fInvalid) ∧ st'.Consistent T ∧
      Advance T st st' ∧
      (fInvalid = true → st'.unfailedCount < st.unfailedCount) ∧
      (fInvalid = false → st'.Target T t ∧ st'.distance T t < st.distance T t) := by
  have S := C.shape
  have htm := C.ranked.mem t ht.mem
  have htl := C.ranked.linked t ht.mem
  obtain ⟨f, hfork, hft, hftip, hasc⟩ := exists_fork S C.onTop.mem htm
  -- down to the fork
  have hdown : disconnectWhile T (fun st' => decide (some st'.tip ≠ st.findFork T t))
      ((st.entry st.tip).nHeight + 1) st = ({ st with tip := f }, true) := by
    refine C.disconnectWhile_eq _ hft fun h _ _ => ?_
    rw [hfork]
    simp
  rw [activateBestChainStep, hdown]
  -- the target is not active: there is a block to connect
  have hcs : (st.offChain T t).reverse ≠ [] := by
    intro hnil
    rw [hnil] at hasc
    cases hasc
    have hlt := S.work_lt hft C.onTop.mem hne
    have hle := work_le_of_not_worse (C.ranked.not_worse t ht.mem)
    omega
  obtain ⟨st', fInvalid, h, C', A', hinv, hok⟩ := connectBlocks_spec (st.entry st.tip).nChainWork
    _ (C.setTip hft) hasc htm htl ht.unfailed
  refine ⟨st', fInvalid, h, C', (advance_setTip st f).trans A', hinv, ?_⟩
  intro hi
  obtain ⟨hut, hanc, -, hlt, hmem, hsub⟩ := hok hi
  have K : Kept st st' := (kept_setTip st f).trans A'.kept
  refine ⟨⟨hmem ht.mem, fun y hy => K.worse.trans (ht.best y (hsub hy)), hut⟩, ?_⟩
  have htip' : st'.tip ∈ st'.chainTo T t := by
    rw [C'.shape.mem_chainTo (K.map ▸ htm)]
    exact hanc
  have hlt : (st.entry f).nHeight < (st.entry st'.tip).nHeight := hlt hcs
  have hle := C'.shape.rooted.height_le hanc (K.map ▸ htm)
  simp only [K.height] at hle
  rw [distance, K.height, K.height, distance]
  split_ifs with hon
  · have hft := hftip ((S.mem_chainTo htm).1 hon)
    rw [hft] at hlt
    omega
  · omega

/-! ## The loops -/

/-- A block is lower than there are blocks. -/
theorem TreeShape.height_lt (S : st.TreeShape T) (hx : x ∈ st.mapBlockIndex) :
    (st.entry x).nHeight < st.mapBlockIndex.length := by
  have hnodup : (st.chainTo T x).Nodup := by
    induction hx using S.rooted.induct with
    | base =>
      rw [chainTo_genesis]
      exact nodup_singleton _
    | up x hx hg ih =>
      rw [S.chainTo_prev hx hg]
      refine nodup_cons.2 ⟨fun hmem => ?_, ih⟩
      have hp := S.rooted.prev_mem x hx hg
      have hle := S.rooted.height_le ((S.mem_chainTo hp).1 hmem) hp
      have hh := S.rooted.height x hx hg
      omega
  have hsub : st.chainTo T x ⊆ st.mapBlockIndex :=
    fun a ha => S.rooted.mem ((S.mem_chainTo hx).1 ha) hx
  have hlen := (hnodup.subperm hsub).length_le
  have hwalk : (st.chainTo T x).length = (st.entry x).nHeight + 1 := S.rooted.length_walk hx
  omega

variable (T st) in
/-- What is left to do in the loops: in the worst case every block fails, after
as many steps as lead to it. -/
def effort (pindexMostWork : Option UInt256) : ℕ :=
  st.unfailedCount * (st.mapBlockIndex.length + 3) +
    match pindexMostWork with
    | none => st.mapBlockIndex.length + 2
    | some x => st.distance T x

theorem TreeShape.distance_lt (S : st.TreeShape T) (hx : x ∈ st.mapBlockIndex) :
    st.distance T x < st.mapBlockIndex.length + 2 := by
  have hlt := S.height_lt hx
  rw [distance]
  split_ifs <;> omega

/-- An invalid block takes more effort away than a new search adds. -/
theorem effort_none_lt (K : Kept st st') (h : st'.unfailedCount < st.unfailedCount)
    (most : Option UInt256) : st'.effort T none < st.effort T most := by
  have hmul := Nat.mul_le_mul_right (st.mapBlockIndex.length + 3) (Nat.succ_le_of_lt h)
  rw [Nat.succ_mul] at hmul
  simp only [effort, K.map]
  omega

/-- Getting closer to the target takes effort away. -/
theorem effort_some_lt (K : Kept st st') (h : st'.distance T x < st.distance T x) :
    st'.effort T (some x) < st.effort T (some x) := by
  have hmul := Nat.mul_le_mul_right (st.mapBlockIndex.length + 3) K.unfailedCount_le
  simp only [effort, K.map]
  omega

variable (T st) in
/-- What holds at the head of the loops. -/
structure Working (pindexMostWork : Option UInt256) : Prop where
  consistent : st.Consistent T
  target : ∀ x, pindexMostWork = some x → st.Target T x

/-- The target a turn begins with: the one it has, or the one it finds. -/
theorem Working.exists_target {most : Option UInt256} (W : st.Working T most) :
    ∃ x st', st.mostWork T most = (st', some x) ∧ st'.Consistent T ∧ Advance T st st' ∧
      st'.Target T x ∧ st'.effort T (some x) ≤ st.effort T most := by
  cases most with
  | some x => exact ⟨x, st, rfl, W.consistent, Advance.refl st, W.target x rfl, le_rfl⟩
  | none =>
    obtain ⟨x, st', h, C', A, -, ht⟩ := findMostWorkChain_spec W.consistent
    refine ⟨x, st', h, C', A, ht, ?_⟩
    have hmul := Nat.mul_le_mul_right (st.mapBlockIndex.length + 3) A.kept.unfailedCount_le
    have hd := C'.shape.distance_lt (C'.ranked.mem x ht.mem)
    rw [A.kept.map] at hd
    simp only [effort, A.kept.map]
    omega

/-- A turn of the inner loop: there is nothing to do, or a step is made and less
is left to do. -/
theorem activateInner_turn {most : Option UInt256} (W : st.Working T most) (start : UInt256)
    (n : ℕ) (connected : Bool) :
    ∃ st' most', st'.Working T most' ∧ Advance T st st' ∧ st'.effort T most' ≤ st.effort T most ∧
      ((activateInner T start (n + 1) st most connected = some (st', most', connected) ∧
          most' = some st'.tip) ∨
        (activateInner T start (n + 1) st most connected =
            (if st'.worse T st'.tip start then activateInner T start n st' most' true
            else some (st', most', true)) ∧
          st'.effort T most' < st.effort T most)) := by
  obtain ⟨x, st₁, hfound, C₁, A₁, ht, he₁⟩ := W.exists_target
  by_cases hx : x = st₁.tip
  · refine ⟨st₁, some x, ⟨C₁, fun y hy => Option.some.inj hy ▸ ht⟩, A₁, he₁, Or.inl ⟨?_, ?_⟩⟩
    · simp [activateInner, hfound, if_pos hx]
    · rw [hx]
  · obtain ⟨st₂, fInvalid, hstep, C₂, A₂, hinv, hok⟩ := activateBestChainStep_spec C₁ ht hx
    have he₂ : st₂.effort T (if fInvalid then none else some x) < st₁.effort T (some x) := by
      cases fInvalid with
      | true => exact effort_none_lt A₂.kept (hinv rfl) _
      | false => exact effort_some_lt A₂.kept (hok rfl).2
    refine ⟨st₂, if fInvalid then none else some x, ⟨C₂, ?_⟩, A₁.trans A₂, he₂.le.trans he₁,
      Or.inr ⟨?_, he₂.trans_le he₁⟩⟩
    · intro y hy
      cases fInvalid with
      | true => exact absurd hy (by simp)
      | false => exact Option.some.inj hy ▸ (hok rfl).1
    · simp [activateInner, hfound, if_neg hx, hstep]

/-- **The inner loop keeps the invariant**, and returns if it has enough turns. -/
theorem activateInner_spec (start : UInt256) (n : ℕ) {most : Option UInt256}
    (connected : Bool) (W : st.Working T most) :
    (∀ st' most' connected',
      activateInner T start n st most connected = some (st', most', connected') →
      st'.Working T most' ∧ Advance T st st' ∧
      (connected' = false → connected = false ∧ most' = some st'.tip) ∧
      st'.effort T most' ≤ st.effort T most ∧
      (connected = false → connected' = true → st'.effort T most' < st.effort T most)) ∧
    (st.effort T most < n → (activateInner T start n st most connected).isSome) := by
  induction n generalizing st most connected with
  | zero =>
    exact ⟨fun st' most' connected' h => absurd h (by simp [activateInner]), fun h => by omega⟩
  | succ n ih =>
    obtain ⟨st₁, most₁, W₁, A₁, hle, ⟨heq, hdone⟩ | ⟨heq, hlt⟩⟩ :=
      activateInner_turn W start n connected
    · refine ⟨fun st' most' connected' h => ?_, fun _ => by rw [heq]; rfl⟩
      rw [heq] at h
      obtain ⟨rfl, rfl, rfl⟩ := h
      exact ⟨W₁, A₁, fun hc => ⟨hc, hdone⟩, hle, fun hc hc' => absurd (hc.symm.trans hc') (by simp)⟩
    · obtain ⟨ihspec, ihsome⟩ := ih true W₁
      rw [heq]
      split_ifs
      · refine ⟨fun st' most' connected' h => ?_, fun hn => ihsome (by omega)⟩
        obtain ⟨W', A', hc, hle', -⟩ := ihspec st' most' connected' h
        exact ⟨W', A₁.trans A', fun h => absurd (hc h).1 (by simp), hle'.trans hle,
          fun _ _ => hle'.trans_lt hlt⟩
      · refine ⟨fun st' most' connected' h => ?_, fun _ => rfl⟩
        obtain ⟨rfl, rfl, rfl⟩ := h
        exact ⟨W₁, A₁, fun hc => absurd hc (by simp), hle, fun _ _ => hlt⟩

/-- **The outer loop ends with the target as the tip**, and returns if it has
enough turns. -/
theorem activateOuter_spec (n : ℕ) {most : Option UInt256} (W : st.Working T most) :
    (∀ st', activateOuter T false n st most = some st' →
      st'.Consistent T ∧ Advance T st st' ∧ st'.Target T st'.tip) ∧
    (st.effort T most + 1 < n → (activateOuter T false n st most).isSome) := by
  induction n generalizing st most with
  | zero => exact ⟨fun st' h => absurd h (by simp [activateOuter]), fun h => by omega⟩
  | succ n ih =>
    obtain ⟨hspec, hsome⟩ := activateInner_spec st.tip n false W
    rw [activateOuter]
    cases hinner : activateInner T st.tip n st most false with
    | none =>
      refine ⟨fun st' h => absurd h (by simp), fun hn => ?_⟩
      rw [hinner] at hsome
      exact absurd (hsome (by omega)) (by simp)
    | some r =>
      obtain ⟨st₁, most₁, connected⟩ := r
      obtain ⟨W₁, A₁, hdone, -, hlt⟩ := hspec st₁ most₁ connected hinner
      cases connected with
      | false =>
        refine ⟨fun st' h => ?_, fun _ => rfl⟩
        obtain ⟨⟩ := h
        exact ⟨W₁.consistent, A₁, W₁.target _ (hdone rfl).2⟩
      | true =>
        simp only [Bool.false_eq_true, if_false]
        have hlt := hlt rfl rfl
        split_ifs with hmost
        · refine ⟨fun st' h => ?_, fun _ => rfl⟩
          obtain ⟨⟩ := h
          exact ⟨W₁.consistent, A₁, W₁.target _ hmost⟩
        · obtain ⟨ihspec, ihsome⟩ := ih W₁
          refine ⟨fun st' h => ?_, fun hn => ihsome (by omega)⟩
          obtain ⟨C', A', ht⟩ := ihspec st' h
          exact ⟨C', A₁.trans A', ht⟩

variable (st) in
/-- As many turns as the loops of `ActivateBestChain` can take. -/
def turns : ℕ :=
  (st.mapBlockIndex.length + 1) * (st.mapBlockIndex.length + 3) + 2

/-- **`ActivateBestChain` makes the best candidate the tip**, and returns. -/
theorem activateBestChain_spec (C : st.Consistent T) :
    (∀ n st', st.activateBestChain T false n = some st' →
      st'.Consistent T ∧ Advance T st st' ∧ st'.Target T st'.tip) ∧
    (st.activateBestChain T false st.turns).isSome := by
  have W : st.Working T none := ⟨C, fun x hx => absurd hx (by simp)⟩
  refine ⟨fun n => (activateOuter_spec n W).1, (activateOuter_spec _ W).2 ?_⟩
  have hcount : st.unfailedCount ≤ st.mapBlockIndex.length := countP_le_length
  have hmul := Nat.mul_le_mul_right (st.mapBlockIndex.length + 3) hcount
  rw [effort, turns, Nat.add_mul]
  omega

/-- What could be the tip does not sort above it. -/
theorem Target.not_worse (C : st.Consistent T) (ht : st.Target T st.tip)
    (hx : x ∈ st.mapBlockIndex) (hl : st.Linked x) (hu : st.Unfailed T x) :
    st.worse T st.tip x = false := by
  obtain ⟨a, A⟩ := C.ranked.anchor
  by_contra hw
  rw [Bool.not_eq_false] at hw
  -- the block sorts above the tip, and so above the anchor: it is a candidate
  have hxa := not_worse_trans (not_worse_of_worse hw) (ht.best a A.mem)
  rw [ht.best x (A.covers x hx hl hu hxa)] at hw
  exact absurd hw (by simp)

end CChainState

end Slucore

import Slucore.Chain.Turns
/-!
# Chain — `CheckBlockIndex` passes

With the invariant, and the best candidate as the tip, all assertions of
`CheckBlockIndex` hold. What the search remembers of the path from the
genesis block is read off the ancestors of a block.
-/


namespace Slucore

open Option List BlockValidity BlockTree

namespace CChainState

variable {T : BlockTree} {st : CChainState} {a x y : UInt256} {p q : UInt256 → Bool}

/-! ## The path from the genesis block -/

section

variable (S : st.TreeShape T) (hx : x ∈ st.mapBlockIndex)
include S hx

/-- A property is met on the path if an ancestor has it. -/
theorem TreeShape.firstOnPath_isSome :
    (st.firstOnPath T x p).isSome = true ↔ ∃ a, T.Anc a x ∧ p a = true := by
  rw [firstOnPath, find?_isSome]
  simp only [mem_reverse]
  exact exists_congr fun a => and_congr_left' (S.mem_chainTo hx)

theorem TreeShape.firstOnPath_isNone :
    (st.firstOnPath T x p).isNone = true ↔ ∀ a, T.Anc a x → p a = false := by
  rw [← not_isSome, Bool.not_eq_true', ← Bool.not_eq_true, S.firstOnPath_isSome hx]
  push Not
  exact forall_congr' fun a => imp_congr_right fun _ => by rw [ne_eq, Bool.not_eq_true]

/-- Properties that agree on the indexed blocks are met at the same block. -/
theorem TreeShape.firstOnPath_congr
    (h : ∀ y ∈ st.mapBlockIndex, p y = q y) : st.firstOnPath T x p = st.firstOnPath T x q := by
  refine find?_congr fun y hy => h y ?_
  exact S.rooted.mem ((S.mem_chainTo hx).1 (mem_reverse.1 hy)) hx

end

theorem pprev_isSome : (T.pprev x).isSome = true ↔ x ≠ T.hashGenesisBlock := by
  rw [pprev]
  split_ifs with h <;> simp [h]

/-- The first block below a level is no genesis block. -/
theorem TreeShape.firstBelow_isSome (S : st.TreeShape T) (hx : x ∈ st.mapBlockIndex)
    (level : BlockValidity) : (st.firstBelow T x level).isSome = true ↔
      ∃ a, T.Anc a x ∧ a ≠ T.hashGenesisBlock ∧ (st.entry a).validity.rank < level.rank := by
  rw [firstBelow, S.firstOnPath_isSome hx]
  simp [pprev_isSome]

/-- No block is below a level that all but the genesis block have. -/
theorem TreeShape.firstBelow_isNone (S : st.TreeShape T) (hx : x ∈ st.mapBlockIndex)
    {level : BlockValidity} (h : ∀ a, T.Anc a x → a ≠ T.hashGenesisBlock →
      level.rank ≤ (st.entry a).validity.rank) : (st.firstBelow T x level).isNone = true := by
  rw [← not_isSome, Bool.not_eq_true', ← Bool.not_eq_true, S.firstBelow_isSome hx]
  rintro ⟨a, hax, hag, hlt⟩
  exact absurd (h a hax hag) (by omega)

/-! ## Skips -/

theorem invertLowestOne_le (n : ℕ) : invertLowestOne n ≤ n - 1 := Nat.and_le_right

/-- A skip goes below the parent, or to it. -/
theorem getSkipHeight_lt {n : ℕ} (hn : 2 ≤ n) : getSkipHeight n ≤ n - 1 := by
  have h₁ := invertLowestOne_le n
  have h₂ := invertLowestOne_le (n - 1)
  have h₃ := invertLowestOne_le (invertLowestOne (n - 1))
  rw [getSkipHeight]
  split_ifs <;> omega

/-- Every block but the first two has a skip, to a lower block. -/
theorem TreeShape.pskip_lower (S : st.TreeShape T) (hx : x ∈ st.mapBlockIndex)
    (hh : 2 ≤ (st.entry x).nHeight) :
    (st.pskip T x).any (fun y => decide ((st.entry y).nHeight < (st.entry x).nHeight)) = true := by
  have hg : x ≠ T.hashGenesisBlock := by
    rintro rfl
    have := S.rooted.root_height
    omega
  have hp := S.rooted.prev_mem x hx hg
  have hheight := S.rooted.height x hx hg
  have hskip := getSkipHeight_lt hh
  have hlen : (st.chainTo T (T.hashPrevBlock x)).length =
      (st.entry (T.hashPrevBlock x)).nHeight + 1 := S.rooted.length_walk hp
  have hle : getSkipHeight (st.entry x).nHeight ≤ (st.entry (T.hashPrevBlock x)).nHeight := by
    omega
  rw [pskip, pprev, if_neg hg, bind_some, getAncestor, if_pos hle,
    getElem?_eq_getElem (by omega), any_some, decide_eq_true_eq]
  have hmem : (st.chainTo T (T.hashPrevBlock x))[(st.entry (T.hashPrevBlock x)).nHeight -
      getSkipHeight (st.entry x).nHeight] ∈ st.chainTo T (T.hashPrevBlock x) :=
    getElem_mem _
  have hanc := S.rooted.height_le ((S.mem_chainTo hp).1 hmem) hp
  omega

/-! ## The assertions -/

section Checks

variable (C : st.Consistent T) (hx : x ∈ st.mapBlockIndex)
include C hx

/-- An ancestor without data, or below the level of its transactions: the block
is not linked. -/
theorem exists_missing_iff : (∃ a, T.Anc a x ∧ (st.entry a).haveData = false) ↔ ¬ st.Linked x := by
  rw [C.links.linked_iff C.shape hx]
  push Not
  exact exists_congr fun a => and_congr_right fun _ => by rw [ne_eq, Bool.not_eq_true]

theorem neverProcessed_eq_missing : st.firstOnPath T x (fun y => !(st.entry y).haveData) =
    st.firstOnPath T x fun y => (st.entry y).nTx == 0 := by
  refine C.shape.firstOnPath_congr hx fun y hy => ?_
  have h := C.stages.data y hy
  rw [Bool.eq_iff_iff, Bool.not_eq_true', ← Bool.not_eq_true, h, not_not, beq_iff_eq]

theorem firstMissing_isSome :
    (st.firstOnPath T x fun y => !(st.entry y).haveData).isSome = true ↔ ¬ st.Linked x := by
  rw [C.shape.firstOnPath_isSome hx, ← exists_missing_iff C hx]
  simp

theorem firstBelow_transactions :
    (st.firstBelow T x .transactions).isSome = true ↔ ¬ st.Linked x := by
  rw [C.shape.firstBelow_isSome hx, ← exists_missing_iff C hx]
  refine exists_congr fun a => and_congr_right fun hax => ?_
  have ha := C.shape.rooted.mem hax hx
  rw [← not_le, C.stages.transactions a ha, ← C.stages.data a ha, Bool.not_eq_true]
  refine and_iff_right_of_imp fun hd hag => ?_
  rw [C.links.data a ha (hag ▸ C.links.genesis)] at hd
  exact absurd hd (by simp)

theorem firstInvalid_isNone :
    (st.firstOnPath T x fun y => (st.entry y).failedValid).isNone = true ↔ st.Unfailed T x := by
  rw [C.shape.firstOnPath_isNone hx]
  constructor
  · intro h a hax
    by_contra hf
    rw [Bool.not_eq_false] at hf
    obtain ⟨b, hbx, hv⟩ := C.marks.exists_failedValid C.shape hx hax hf
    rw [h b hbx] at hv
    exact absurd hv (by simp)
  · intro h a hax
    have hf := h a hax
    rw [IndexEntry.failed, Bool.or_eq_false_iff] at hf
    exact hf.1

omit hx in
theorem foundInUnlinked_iff : ((T.pprev x).any fun p => decide ((p, x) ∈ st.mapBlocksUnlinked)) =
    true ↔ (T.hashPrevBlock x, x) ∈ st.mapBlocksUnlinked := by
  rw [pprev]
  split_ifs with hg
  · refine iff_of_false (by simp) fun h => ?_
    exact (C.links.unlinked _ _ h).2.1 hg
  · simp

/-- **The assertions of `CheckBlockIndex` hold of every block.** -/
theorem checkEntry_true (ht : st.Target T st.tip) : st.checkEntry T x = true := by
  have S := C.shape
  have G := C.stages
  have L := C.links
  have hmissing := firstMissing_isSome C hx
  have hnever := neverProcessed_eq_missing C hx
  have hbelow := firstBelow_transactions C hx
  have hinvalid := firstInvalid_isNone C hx
  have hfound := foundInUnlinked_iff (x := x) C
  simp only [checkEntry, ← hnever]
  generalize hM : st.firstOnPath T x (fun y => !(st.entry y).haveData) = missing at hmissing ⊢
  generalize hI : st.firstOnPath T x (fun y => (st.entry y).failedValid) = invalid at hinvalid ⊢
  generalize hU : ((T.pprev x).any fun p => decide ((p, x) ∈ st.mapBlocksUnlinked)) = found
    at hfound ⊢
  simp only [Bool.and_eq_true]
  refine ⟨⟨⟨⟨⟨⟨⟨⟨⟨⟨⟨⟨⟨⟨⟨⟨⟨⟨⟨?_, ?_⟩, ?_⟩, ?_⟩, ?_⟩, ?_⟩, ?_⟩, ?_⟩, ?_⟩, ?_⟩, ?_⟩, ?_⟩, ?_⟩, ?_⟩,
    ?_⟩, ?_⟩, ?_⟩, ?_⟩, ?_⟩, ?_⟩
  · -- the parent, or the genesis block
    by_cases hg : x = T.hashGenesisBlock
    · subst hg
      have hlast : (st.chainTo T st.tip).getLast? = some T.hashGenesisBlock :=
        S.rooted.getLast?_walk C.onTop.mem
      simp [hlast]
    · simp [pprev_isSome.2 hg]
  · -- the sequence number of a block that is not linked
    by_cases hl : st.Linked x
    · simp [decide_eq_true (show (st.entry x).nChainTx ≠ 0 from hl)]
    · simp [L.sequence x hx hl]
  · -- data and transactions
    have h := G.data x hx
    rw [beq_iff_eq, Bool.eq_iff_iff, Bool.not_eq_true', ← Bool.not_eq_true, h, not_not, beq_iff_eq]
  · -- what is missing was never processed
    simp
  · -- undo data
    cases hu : (st.entry x).haveUndo with
    | false => rfl
    | true => simp [G.undo x hx hu]
  · -- the level of the transactions
    have h := G.transactions x hx
    rw [beq_iff_eq, Bool.eq_iff_iff, decide_eq_true_eq, decide_eq_true_eq, h, Nat.pos_iff_ne_zero]
  · -- links
    rw [beq_iff_eq, Bool.eq_iff_iff, hmissing, beq_iff_eq, Linked, not_not]
  · rw [beq_iff_eq, Bool.eq_iff_iff, hbelow, beq_iff_eq, Linked, not_not]
  · -- the height
    exact decide_eq_true (S.rooted.length_walk hx)
  · -- the work of the parent
    rw [pprev]
    split_ifs with hg
    · rfl
    · have hw := S.work x hx hg
      rw [all_some, decide_eq_true_eq]
      omega
  · -- the skip
    by_cases hh : (st.entry x).nHeight < 2
    · simp [hh]
    · rw [S.pskip_lower hx (by omega), Bool.or_true]
  · -- levels
    exact S.firstBelow_isNone hx fun a hax _ => G.tree a (S.rooted.mem hax hx)
  · by_cases hr : (st.entry x).validity.rank < chain.rank
    · simp [hr]
    have hv := G.chain x hx (by omega)
    rw [S.firstBelow_isNone hx, Bool.or_true]
    intro a hax hag
    rw [G.scripts x hx hv a hax hag]
    simp [rank]
  · by_cases hr : (st.entry x).validity.rank < scripts.rank
    · simp [hr]
    have hv := G.chain x hx (by simp only [rank] at hr ⊢; omega)
    rw [S.firstBelow_isNone hx, Bool.or_true]
    intro a hax hag
    rw [G.scripts x hx hv a hax hag]
  · -- marks
    cases hi : invalid with
    | some f => simp
    | none =>
      have hu := hinvalid.1 (by simp [hi])
      simp [hu x (Anc.refl x)]
  · -- candidates
    have hnone : missing.isNone = true ↔ st.Linked x := by
      rw [← not_isSome, Bool.not_eq_true', ← Bool.not_eq_true, hmissing, not_not]
    split_ifs with hcond
    · rw [Bool.not_eq_true', hnone] at hcond
      cases hi : invalid with
      | some f => simp
      | none =>
        have hu := hinvalid.1 (by simp [hi])
        obtain ⟨a, A⟩ := C.ranked.anchor
        have hcand := A.covers x hx hcond.2 hu (not_worse_trans hcond.1 (ht.best a A.mem))
        simp [hcand]
    · rw [decide_eq_true_eq]
      intro hcand
      rw [Bool.not_eq_true', hnone] at hcond
      exact hcond ⟨C.ranked.not_worse x hcand, C.ranked.linked x hcand⟩
  · -- blocks that wait
    by_cases hcond : ((T.pprev x).isSome && (st.entry x).haveData && missing.isSome &&
        invalid.isNone) = true
    · simp only [Bool.and_eq_true, hmissing, hinvalid] at hcond
      obtain ⟨⟨⟨hg, hd⟩, hl⟩, hu⟩ := hcond
      rcases L.waiting x hx hd hl with h | ⟨a, hax, -, hf⟩ | h
      · simp [hfound.2 h]
      · rw [hu a hax] at hf
        exact absurd hf (by simp)
      · exact absurd h not_mem_nil
    · rw [Bool.not_eq_true] at hcond
      rw [hcond]
      rfl
  · cases hu : found with
    | false => simp
    | true => simp [(L.unlinked _ _ (hfound.1 hu)).2.2.2.1]
  · cases hu : found with
    | false => simp
    | true => simp [hmissing.2 (L.unlinked _ _ (hfound.1 hu)).2.2.2.2.1]
  · cases missing <;> simp

end Checks

/-- **All assertions of `CheckBlockIndex` hold**, with the invariant and the best
candidate as the tip. -/
theorem Consistent.checkBlockIndex (C : st.Consistent T) (ht : st.Target T st.tip) :
    st.checkBlockIndex T = true := by
  have S := C.shape
  simp only [CChainState.checkBlockIndex, Bool.and_eq_true, List.all_eq_true, decide_eq_true_eq]
  refine ⟨⟨?_, fun x hx => checkEntry_true C hx ht⟩, fun x hx => ⟨S.rooted.getLast?_walk hx, ?_⟩⟩
  · have hfilter : (st.mapBlockIndex.filter fun x => (T.pprev x).isNone) =
        st.mapBlockIndex.filter (· = T.hashGenesisBlock) := by
      refine filter_congr fun x _ => ?_
      rw [pprev]
      split_ifs with h <;> simp [h]
    have hcount := count_eq_one_of_mem S.nodup S.rooted.root_mem
    rw [hfilter, ← countP_eq_length_filter]
    rw [← hcount]
    exact List.countP_congr fun x _ => by simp
  · exact fun a ha => S.rooted.mem ((S.mem_chainTo hx).1 ha) hx

end CChainState

end Slucore

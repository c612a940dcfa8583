import Slucore.Chain.Activation
/-!
# Chain — the order of the candidates

`CBlockIndexWorkComparator` is a strict linear order on blocks: addresses
tell apart what work and arrival do not. The best candidate is the last of
the candidates in it.
-/


namespace Slucore

open List

variable {T : BlockTree} {st st' : CChainState} {a b c x y : UInt256}

namespace CChainState

/-- The comparator, written out. -/
theorem worse_iff : st.worse T a b = true ↔
    (st.entry a).nChainWork < (st.entry b).nChainWork ∨
    (st.entry a).nChainWork = (st.entry b).nChainWork ∧
      ((st.entry b).nSequenceId < (st.entry a).nSequenceId ∨
        (st.entry a).nSequenceId = (st.entry b).nSequenceId ∧ T.address b < T.address a) := by
  unfold worse
  dsimp only
  split_ifs <;> simp only [decide_eq_true_eq, true_iff, false_iff] <;> omega

theorem not_worse_self : st.worse T a a = false := by
  rw [← Bool.not_eq_true, worse_iff]
  omega

/-- What sorts no lower than `b` sorts no lower than what `b` sorts no lower
than. -/
theorem not_worse_trans (hab : st.worse T a b = false) (hbc : st.worse T b c = false) :
    st.worse T a c = false := by
  rw [← Bool.not_eq_true, worse_iff] at *
  omega

theorem not_worse_of_worse (h : st.worse T a b = true) : st.worse T b a = false := by
  rw [← Bool.not_eq_true, worse_iff]
  rw [worse_iff] at h
  omega

/-- Of two blocks that sort no lower than each other there is one. -/
theorem eq_of_not_worse (hab : st.worse T a b = false) (hba : st.worse T b a = false) : a = b := by
  rw [← Bool.not_eq_true, worse_iff] at hab hba
  exact T.address_injective (by omega)

theorem work_le_of_not_worse (h : st.worse T a b = false) :
    (st.entry b).nChainWork ≤ (st.entry a).nChainWork := by
  rw [← Bool.not_eq_true, worse_iff] at h
  omega

theorem not_worse_of_work_lt (h : (st.entry b).nChainWork < (st.entry a).nChainWork) :
    st.worse T a b = false := by
  rw [← Bool.not_eq_true, worse_iff]
  omega

/-- The comparator reads work and arrival. -/
theorem worse_congr
    (ha : (st'.entry a).nChainWork = (st.entry a).nChainWork ∧
      (st'.entry a).nSequenceId = (st.entry a).nSequenceId)
    (hb : (st'.entry b).nChainWork = (st.entry b).nChainWork ∧
      (st'.entry b).nSequenceId = (st.entry b).nSequenceId) :
    st'.worse T a b = st.worse T a b := by
  rw [Bool.eq_iff_iff, worse_iff, worse_iff, ha.1, ha.2, hb.1, hb.2]

theorem later_eq_or : st.later T a b = a ∨ st.later T a b = b := by
  unfold later
  split_ifs
  · exact Or.inr rfl
  · exact Or.inl rfl

theorem later_not_worse : st.worse T (st.later T a b) a = false ∧
    st.worse T (st.later T a b) b = false := by
  unfold later
  split_ifs with h
  · exact ⟨not_worse_of_worse h, not_worse_self⟩
  · exact ⟨not_worse_self, Bool.eq_false_iff.2 h⟩

/-- The last of a list, in the fold that looks for it. -/
theorem foldl_later (xs : List UInt256) : ∀ x : UInt256,
    xs.foldl (st.later T) x ∈ x :: xs ∧
      ∀ y ∈ x :: xs, st.worse T (xs.foldl (st.later T) x) y = false := by
  induction xs with
  | nil =>
    intro x
    refine ⟨mem_singleton_self x, fun y hy => ?_⟩
    rw [mem_singleton.1 hy]
    exact not_worse_self
  | cons z zs ih =>
    intro x
    obtain ⟨hmem, hmax⟩ := ih (st.later T x z)
    refine ⟨?_, fun y hy => ?_⟩
    · rcases mem_cons.1 hmem with h | h
      · rw [foldl_cons, h]
        have hlater : st.later T x z = x ∨ st.later T x z = z := later_eq_or
        rcases hlater with h | h <;> simp [h]
      · exact mem_cons_of_mem _ (mem_cons_of_mem _ h)
    · have hl := hmax _ mem_cons_self
      rcases mem_cons.1 hy with rfl | hy
      · exact not_worse_trans hl later_not_worse.1
      rcases mem_cons.1 hy with rfl | hy
      · exact not_worse_trans hl later_not_worse.2
      · exact hmax y (mem_cons_of_mem _ hy)

/-- **The best candidate is the one no candidate sorts above.** -/
theorem bestCandidate_eq_some (h : st.bestCandidate T = some x) :
    x ∈ st.setBlockIndexCandidates ∧
      ∀ y ∈ st.setBlockIndexCandidates, st.worse T x y = false := by
  unfold bestCandidate at h
  split at h
  · exact absurd h (by simp)
  next z zs hz =>
  obtain ⟨⟩ := h
  rw [hz]
  exact foldl_later zs z

theorem bestCandidate_eq_none (h : st.bestCandidate T = none) :
    st.setBlockIndexCandidates = [] := by
  unfold bestCandidate at h
  split at h
  · assumption
  · exact absurd h (by simp)

end CChainState

end Slucore

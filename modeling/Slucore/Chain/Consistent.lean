import Slucore.Chain.Order
/-!
# Chain — the invariant of the block index

What holds of the index in every state: its blocks form a tree with heights
and work (`TreeShape`); data, levels and marks of failure fit together
(`Stages`, `Marks`); a block is linked when its ancestors all have data, and
waits in `mapBlocksUnlinked` until then (`Links`); the active chain is made
of blocks that connected (`OnTop`); and the candidates hold every block that
could be the tip (`Ranked`).

The last is said relative to an anchor, a candidate that connected before:
in the middle of a reorganisation the tip is lower than the blocks that were
removed for it, and the anchor is not.
-/


namespace Slucore

/-- `a` is `x` or one of its ancestors. -/
abbrev BlockTree.Anc (T : BlockTree) : UInt256 → UInt256 → Prop :=
  Slucore.Anc T.hashGenesisBlock T.hashPrevBlock

namespace CChainState

variable (T : BlockTree) (st : CChainState)

/-- The data of the block and of all its ancestors was received. -/
def Linked (x : UInt256) : Prop := (st.entry x).nChainTx ≠ 0

/-- Neither the block nor an ancestor of it is marked failed. -/
def Unfailed (x : UInt256) : Prop := ∀ a, T.Anc a x → (st.entry a).failed = false

/-- The block will never be linked: an ancestor without data is marked
failed, and `AcceptBlock` refuses such blocks. -/
def Doomed (x : UInt256) : Prop :=
  ∃ a, T.Anc a x ∧ (st.entry a).haveData = false ∧ (st.entry a).failed = true

/-- The block and its ancestors connect. -/
def Connects (x : UInt256) : Prop :=
  ∀ a, T.Anc a x → a ≠ T.hashGenesisBlock → T.connects a = true

/-- The index is a tree, with heights and work. -/
structure TreeShape : Prop where
  rooted : Rooted T.hashGenesisBlock T.hashPrevBlock (· ∈ st.mapBlockIndex)
    fun x => (st.entry x).nHeight
  nodup : st.mapBlockIndex.Nodup
  work : ∀ x ∈ st.mapBlockIndex, x ≠ T.hashGenesisBlock →
    (st.entry x).nChainWork = (st.entry (T.hashPrevBlock x)).nChainWork + T.getBlockProof x

/-- Data and levels. -/
structure Stages : Prop where
  tree : ∀ x ∈ st.mapBlockIndex, BlockValidity.tree.rank ≤ (st.entry x).validity.rank
  data : ∀ x ∈ st.mapBlockIndex, (st.entry x).haveData = true ↔ (st.entry x).nTx ≠ 0
  transactions : ∀ x ∈ st.mapBlockIndex,
    BlockValidity.transactions.rank ≤ (st.entry x).validity.rank ↔ (st.entry x).nTx ≠ 0
  undo : ∀ x ∈ st.mapBlockIndex, (st.entry x).haveUndo = true → (st.entry x).haveData = true
  chain : ∀ x ∈ st.mapBlockIndex, BlockValidity.chain.rank ≤ (st.entry x).validity.rank →
    (st.entry x).validity = .scripts
  scripts : ∀ x ∈ st.mapBlockIndex, (st.entry x).validity = .scripts → ∀ a, T.Anc a x →
    a ≠ T.hashGenesisBlock → (st.entry a).validity = .scripts

/-- Linked blocks and blocks that wait, with a queue of blocks about to be
linked. -/
structure Links (queue : List UInt256) : Prop where
  genesis : st.Linked T.hashGenesisBlock
  data : ∀ x ∈ st.mapBlockIndex, st.Linked x → (st.entry x).haveData = true
  prev : ∀ x ∈ st.mapBlockIndex, st.Linked x → x ≠ T.hashGenesisBlock →
    st.Linked (T.hashPrevBlock x)
  waiting : ∀ x ∈ st.mapBlockIndex, (st.entry x).haveData = true → ¬ st.Linked x →
    (T.hashPrevBlock x, x) ∈ st.mapBlocksUnlinked ∨ st.Doomed T x ∨ x ∈ queue
  unlinked : ∀ p x, (p, x) ∈ st.mapBlocksUnlinked → x ∈ st.mapBlockIndex ∧
    x ≠ T.hashGenesisBlock ∧ p = T.hashPrevBlock x ∧ (st.entry x).haveData = true ∧
    ¬ st.Linked x ∧ ¬ st.Linked p ∧ x ∉ queue
  queued : ∀ x ∈ queue, x ∈ st.mapBlockIndex ∧ x ≠ T.hashGenesisBlock ∧
    (st.entry x).haveData = true ∧ ¬ st.Linked x ∧ st.Linked (T.hashPrevBlock x)
  unlinked_nodup : st.mapBlocksUnlinked.Nodup
  queue_nodup : queue.Nodup
  sequence : ∀ x ∈ st.mapBlockIndex, ¬ st.Linked x → (st.entry x).nSequenceId ≤ 0

/-- A mark of failure goes back to a block that was found invalid. -/
structure Marks : Prop where
  child : ∀ x ∈ st.mapBlockIndex, (st.entry x).failedChild = true →
    ∃ a, T.Anc a x ∧ (st.entry a).failedValid = true
  failedBlocks : ∀ x ∈ st.failedBlocks, x ∈ st.mapBlockIndex ∧ (st.entry x).failedValid = true

/-- The active chain. -/
structure OnTop : Prop where
  mem : st.tip ∈ st.mapBlockIndex
  linked : st.Linked st.tip
  unfailed : st.Unfailed T st.tip
  connects : Connects T st.tip
  scripts : ∀ a, T.Anc a st.tip → a ≠ T.hashGenesisBlock → (st.entry a).validity = .scripts

/-- The block connected before, and everything that does not sort below it
and could be the tip is a candidate. -/
structure IsAnchor (a : UInt256) : Prop where
  mem : a ∈ st.setBlockIndexCandidates
  unfailed : st.Unfailed T a
  connects : Connects T a
  covers : ∀ x ∈ st.mapBlockIndex, st.Linked x → st.Unfailed T x → st.worse T x a = false →
    x ∈ st.setBlockIndexCandidates

/-- The candidates. -/
structure Ranked : Prop where
  mem : ∀ x ∈ st.setBlockIndexCandidates, x ∈ st.mapBlockIndex
  linked : ∀ x ∈ st.setBlockIndexCandidates, st.Linked x
  not_worse : ∀ x ∈ st.setBlockIndexCandidates, st.worse T x st.tip = false
  anchor : ∃ a, st.IsAnchor T a

/-- The invariant of the block index. -/
structure Consistent : Prop where
  shape : st.TreeShape T
  stages : st.Stages T
  links : st.Links T []
  marks : st.Marks T
  onTop : st.OnTop T
  ranked : st.Ranked T

end CChainState

/-! ## Reading the invariant -/

namespace CChainState

variable {T : BlockTree} {st st' : CChainState} {a b x y : UInt256}

theorem Unfailed.anc (h : st.Unfailed T x) (hax : T.Anc a x) : st.Unfailed T a :=
  fun b hb => h b (hb.trans hax)

theorem chainTo_genesis : st.chainTo T T.hashGenesisBlock = [T.hashGenesisBlock] := walk_root _

namespace TreeShape

variable (S : st.TreeShape T)
include S

theorem mem_chainTo (hx : x ∈ st.mapBlockIndex) : a ∈ st.chainTo T x ↔ T.Anc a x :=
  S.rooted.mem_walk_iff hx

theorem contains_iff (htip : st.tip ∈ st.mapBlockIndex) :
    st.contains T a = true ↔ T.Anc a st.tip := by
  rw [contains, decide_eq_true_eq]
  exact S.mem_chainTo htip

theorem chainTo_prev (hx : x ∈ st.mapBlockIndex) (hg : x ≠ T.hashGenesisBlock) :
    st.chainTo T x = x :: st.chainTo T (T.hashPrevBlock x) :=
  S.rooted.walk_height hx hg

theorem prev_ne (hx : x ∈ st.mapBlockIndex) (hg : x ≠ T.hashGenesisBlock) :
    T.hashPrevBlock x ≠ x := by
  intro h
  have hh := S.rooted.height x hx hg
  simp only [h] at hh
  omega

/-- A proper ancestor has less work. -/
theorem work_lt (hax : T.Anc a x) (hx : x ∈ st.mapBlockIndex) (hne : a ≠ x) :
    (st.entry a).nChainWork < (st.entry x).nChainWork := by
  induction hx using S.rooted.induct with
  | base => exact absurd (anc_root_iff.1 hax) hne
  | up x hx hg ih =>
    have hw := S.work x hx hg
    have hp := T.getBlockProof_pos x
    rcases anc_iff.1 hax with rfl | ⟨-, hap⟩
    · exact absurd rfl hne
    by_cases hap' : a = T.hashPrevBlock x
    · subst hap'
      omega
    · have := ih hap hap'
      omega

/-- A block does not sort below an ancestor. -/
theorem not_worse_anc (hax : T.Anc a x) (hx : x ∈ st.mapBlockIndex) : st.worse T x a = false := by
  by_cases hne : a = x
  · rw [hne]
    exact not_worse_self
  · exact not_worse_of_work_lt (S.work_lt hax hx hne)

end TreeShape

/-- The shape of the tree is read from heights and work. -/
theorem TreeShape.congr (S : st.TreeShape T) (hmap : st'.mapBlockIndex = st.mapBlockIndex)
    (hh : ∀ x, (st'.entry x).nHeight = (st.entry x).nHeight)
    (hw : ∀ x, (st'.entry x).nChainWork = (st.entry x).nChainWork) : st'.TreeShape T where
  rooted := by
    have hh' : (fun x => (st'.entry x).nHeight) = fun x => (st.entry x).nHeight := funext hh
    rw [hh', hmap]
    exact S.rooted
  nodup := hmap ▸ S.nodup
  work x hx hg := by
    rw [hw, hw]
    exact S.work x (hmap ▸ hx) hg

/-- The ancestors of a linked block are linked. -/
theorem Links.linked_anc {queue : List UInt256} (L : st.Links T queue) (S : st.TreeShape T)
    (hx : x ∈ st.mapBlockIndex) (hl : st.Linked x) (hax : T.Anc a x) : st.Linked a := by
  induction hx using S.rooted.induct with
  | base => exact anc_root_iff.1 hax ▸ hl
  | up x hx hg ih =>
    rcases anc_iff.1 hax with rfl | ⟨-, hap⟩
    · exact hl
    · exact ih (L.prev x hx hl hg) hap

/-- A block is linked when it and all its ancestors have data. -/
theorem Links.linked_iff (L : st.Links T []) (S : st.TreeShape T) (hx : x ∈ st.mapBlockIndex) :
    st.Linked x ↔ ∀ a, T.Anc a x → (st.entry a).haveData = true := by
  constructor
  · intro hl a hax
    exact L.data a (S.rooted.mem hax hx) (L.linked_anc S hx hl hax)
  intro hall
  induction hx using S.rooted.induct with
  | base => exact L.genesis
  | up x hx hg ih =>
    by_contra hl
    have hp : st.Linked (T.hashPrevBlock x) := ih fun a ha => hall a (Anc.up hg ha)
    rcases L.waiting x hx (hall x (Anc.refl x)) hl with h | ⟨a, hax, hd, -⟩ | h
    · exact (L.unlinked _ _ h).2.2.2.2.2.1 hp
    · rw [hall a hax] at hd
      exact absurd hd (by simp)
    · exact absurd h List.not_mem_nil

/-- A block with a failed ancestor has one that was found invalid. -/
theorem Marks.exists_failedValid (M : st.Marks T) (S : st.TreeShape T) (hx : x ∈ st.mapBlockIndex)
    (hax : T.Anc a x) (hf : (st.entry a).failed = true) :
    ∃ b, T.Anc b x ∧ (st.entry b).failedValid = true := by
  rw [IndexEntry.failed, Bool.or_eq_true] at hf
  rcases hf with hv | hc
  · exact ⟨a, hax, hv⟩
  · obtain ⟨b, hb, hv⟩ := M.child a (S.rooted.mem hax hx) hc
    exact ⟨b, hb.trans hax, hv⟩

end CChainState

end Slucore

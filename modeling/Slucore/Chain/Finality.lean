import Slucore.Chain.Growth
import Slucore.Chain.BestChain
/-!
# Chain — finality by the synchronized checkpoint

A node takes headers and blocks, and activates the best chain after each
block. `CheckSync` refuses what is not above the synchronized checkpoint,
which is a span of blocks below the tip. Unless a block enters on a branch
that leaves the active chain more than a span below the highest tip there
was, a block that was a span below the tip stays on the active chain
(`deep_block_stays`). The check compares heights only: a branch whose first
blocks came early is followed from any depth (`deep_fork_replaces_block`).
-/


namespace Slucore

open List Option CChainState

variable {T : BlockTree} {nMinimumChainWork : ℕ}

namespace CChainState

variable {st st' st'' : CChainState} {x y : UInt256} {D : UInt256 → Prop}

variable (T nMinimumChainWork) in
/-- `ProcessNewBlock`. For a block of version `0x20000002` the check before
`AcceptBlock` is that of the main node's address, and the best chain is
activated also if the block is not accepted. -/
def processNewBlock (st : CChainState) (b : Arrival) (checked mainNode : Bool) : CChainState :=
  if checked then
    let (st', accepted) := st.acceptBlock T nMinimumChainWork b
    if accepted || mainNode then (st'.activateBestChain T false st'.turns).getD st' else st'
  else st

variable (T st) in
/-- The invariant between two deliveries: the tip is best. -/
structure Steady : Prop where
  consistent : st.Consistent T
  settled : st.Settled T
  best : ∀ y ∈ st.mapBlockIndex, st.Linked y → st.Unfailed T y → st.worse T st.tip y = false

/-- Growth marks no chain that has been there without failures. -/
theorem Grown.unfailed (G : Grown D st st') (C : st.Consistent T) (hx : x ∈ st.mapBlockIndex)
    (hu : st'.Unfailed T x) : st.Unfailed T x := by
  intro a hax
  have ha := C.shape.rooted.mem hax hx
  rw [Bool.eq_false_iff]
  intro hf
  exact Bool.eq_false_iff.1 (hu a hax) (G.failed a ha hf)

/-- Growth does not change the order of linked blocks. -/
theorem Grown.worse (G : Grown D st st') (hx : x ∈ st.mapBlockIndex) (hxl : st.Linked x)
    (hy : y ∈ st.mapBlockIndex) (hyl : st.Linked y) : st'.worse T x y = st.worse T x y :=
  worse_congr ⟨G.work x hx, (G.linked x hx hxl).2⟩ ⟨G.work y hy, (G.linked y hy hyl).2⟩

/-- An arrival that links nothing leaves the tip best. -/
theorem Steady.grown (S : st.Steady T) (G : Grown (fun _ => False) st st')
    (C' : st'.Consistent T) (S' : st'.Settled T) : st'.Steady T := by
  refine ⟨C', S', fun y hy hl hu => ?_⟩
  obtain ⟨hym, hyl⟩ := (G.fresh y hy hl).resolve_right id
  have C := S.consistent
  rw [G.tip, G.worse C.onTop.mem C.onTop.linked hym hyl]
  exact S.best y hym hyl (G.unfailed C hym hu)

/-- **The tip moves only to a block that was just linked**: what was linked
before does not sort above the old tip, which still connects. -/
theorem Steady.tip_of_advance (S : st.Steady T) (G : Grown D st st') (C' : st'.Consistent T)
    (A : Advance T st' st'') (C'' : st''.Consistent T) (ht : st''.Target T st''.tip) :
    st''.tip = st.tip ∨ D st''.tip := by
  have C := S.consistent
  have hmem : st''.tip ∈ st'.mapBlockIndex := A.kept.map ▸ C''.onTop.mem
  rcases G.fresh _ hmem (A.kept.linked.1 C''.onTop.linked) with ⟨hold, hl⟩ | hD
  · left
    have hu : st.Unfailed T st''.tip := G.unfailed C hold (A.kept.unfailed C''.onTop.unfailed)
    have hle : st.worse T st.tip st''.tip = false := S.best _ hold hl hu
    have htip : st''.Unfailed T st.tip :=
      A.spares _ C.onTop.connects (G.tip ▸ C'.onTop.unfailed)
    have hge : st''.worse T st''.tip st.tip = false :=
      ht.not_worse C'' (A.kept.map ▸ G.map _ C.onTop.mem)
        (A.kept.linked.2 (G.linked _ C.onTop.mem C.onTop.linked).1) htip
    rw [A.kept.worse, G.worse hold hl C.onTop.mem C.onTop.linked] at hge
    exact eq_of_not_worse hge hle
  · exact Or.inr hD

variable (T) in
/-- What a delivery does: the index grows, and the tip stays or moves to a
block among `D`. -/
structure Delivered (D : UInt256 → Prop) (st st' : CChainState) : Prop where
  steady : st'.Steady T
  map : ∀ y ∈ st.mapBlockIndex, y ∈ st'.mapBlockIndex
  height : ∀ y ∈ st.mapBlockIndex, (st'.entry y).nHeight = (st.entry y).nHeight
  tip : st'.tip = st.tip ∨ D st'.tip

theorem Steady.acceptBlockHeader (S : st.Steady T) (x : UInt256) (checks : HeaderChecks) :
    Delivered T (fun _ => False) st (st.acceptBlockHeader T x checks).1 := by
  have G : Grown (fun _ => False) st (st.acceptBlockHeader T x checks).1 :=
    S.consistent.grown_acceptBlockHeader x checks
  exact ⟨S.grown G (S.consistent.acceptBlockHeader x checks)
    (S.settled.acceptBlockHeader S.consistent x checks), G.map, G.height, Or.inl G.tip⟩

/-- **A block that is delivered** leaves the tip where it is, or enters and moves
it to a descendant of itself. -/
theorem Steady.processNewBlock (S : st.Steady T) (b : Arrival) (checked mainNode : Bool) :
    Delivered T (fun t => T.Anc b.hash t ∧ st.Enters T b.hash ∧ b.hash ≠ T.hashGenesisBlock) st
      (st.processNewBlock T nMinimumChainWork b checked mainNode) := by
  have C := S.consistent
  unfold CChainState.processNewBlock
  cases checked with
  | false => exact ⟨S, fun _ h => h, fun _ _ => rfl, Or.inl rfl⟩
  | true =>
    have G := C.grown_acceptBlock nMinimumChainWork b
    have C' := C.acceptBlock nMinimumChainWork b (S.settled.strands C b.hash)
    have S' := S.settled.acceptBlock C nMinimumChainWork b
    revert G C' S'
    generalize st.acceptBlock T nMinimumChainWork b = r
    obtain ⟨st', accepted⟩ := r
    intro G C' S'
    simp only [if_true]
    split_ifs with hactivate
    · obtain ⟨hspec, hsome⟩ := activateBestChain_spec C'
      obtain ⟨st'', h⟩ := isSome_iff_exists.1 hsome
      obtain ⟨C'', A, ht⟩ := hspec _ _ h
      rw [h]
      refine ⟨⟨C'', S'.advance A, fun y hy hl hu => ht.not_worse C'' hy hl hu⟩, ?_, ?_, ?_⟩
      · exact fun y hy => A.kept.map ▸ G.map y hy
      · exact fun y hy => (A.kept.height y).trans (G.height y hy)
      · exact (S.tip_of_advance G C' A C'' ht).imp_right fun hD => ⟨hD.1, hD.2.1, hD.2.2.1⟩
    · have haccepted : accepted = false := by
        rw [Bool.or_eq_true, not_or] at hactivate
        exact Bool.eq_false_iff.2 hactivate.1
      have G' := G.mono (E := fun _ => False) fun y hy => by
        rw [haccepted] at hy
        exact absurd hy.2.2.2 (by simp)
      exact ⟨S.grown G' C' S', G.map, G.height, Or.inl G.tip⟩

/-- **A block that does not connect leaves the previous tip**, or the tip is
put back where the reorganisation towards it fails half-way. -/
theorem Steady.tip_restored (S : st.Steady T) (b : Arrival) (checked mainNode : Bool)
    (hbad : T.connects b.hash = false) :
    (st.processNewBlock T nMinimumChainWork b checked mainNode).tip = st.tip := by
  have hd : Delivered T _ st (st.processNewBlock T nMinimumChainWork b checked mainNode) :=
    S.processNewBlock b checked mainNode
  refine hd.tip.resolve_right fun h => ?_
  obtain ⟨hanc, -, hg⟩ := h
  have hconnects := hd.steady.consistent.onTop.connects b.hash hanc hg
  rw [hbad] at hconnects
  cases hconnects

/-! ## The work of the tip -/

/-- The work of the active chain. -/
def tipWork (st : CChainState) : ℕ := (st.entry st.tip).nChainWork

theorem Grown.tipWork_eq (G : Grown D st st') (C : st.Consistent T) : st'.tipWork = st.tipWork := by
  rw [tipWork, G.tip, G.work _ C.onTop.mem, tipWork]

/-- No call but an invalidation takes work from the tip. -/
theorem Consistent.tipWork_le (C : st.Consistent T) {c : ChainCall}
    (hc : ∀ x, c ≠ .invalidateBlock x) : st.tipWork ≤ (st.step T nMinimumChainWork c).tipWork := by
  cases c with
  | acceptBlockHeader x checks =>
    exact ((C.grown_acceptBlockHeader (D := fun _ => False) x checks).tipWork_eq C).ge
  | acceptBlock b => exact ((C.grown_acceptBlock nMinimumChainWork b).tipWork_eq C).ge
  | activateBestChain =>
    obtain ⟨hspec, hsome⟩ := activateBestChain_spec C
    obtain ⟨st', h⟩ := isSome_iff_exists.1 hsome
    obtain ⟨C', A, ht⟩ := hspec _ _ h
    rw [CChainState.step, h, getD_some, tipWork, ← A.kept.work]
    -- the old tip still connects, so the new one does not sort below it
    exact work_le_of_not_worse (ht.not_worse C' (A.kept.map ▸ C.onTop.mem)
      (A.kept.linked.2 C.onTop.linked) (A.spares _ C.onTop.connects C.onTop.unfailed))
  | invalidateBlock x => exact absurd rfl (hc x)

/-- **The work of the tip never falls** in a run without invalidations,
whatever arrives, fails to connect and is reorganised. -/
theorem tip_work_never_falls
    (h : Reaches (step T nMinimumChainWork) (fun st c => ¬ st.Strands T c) (start T) st)
    (h' : Reaches (step T nMinimumChainWork)
      (fun st c => ¬ st.Strands T c ∧ ∀ x, c ≠ .invalidateBlock x) st st') :
    st.tipWork ≤ st'.tipWork := by
  have C : st.Consistent T := h.induct consistent_start fun _ _ hc C => C.step hc
  exact (h'.induct (Q := fun u => u.Consistent T ∧ st.tipWork ≤ u.tipWork) ⟨C, le_rfl⟩
    fun _ _ hc hu => ⟨hu.1.step hc.1, hu.2.trans (hu.1.tipWork_le hc.2)⟩).2

/-- A reorganisation that fails half-way. -/
theorem failed_reorganisation_keeps_work : ∃ st : CChainState, st.tip = 2 ∧
    st.tipWork ≤ (st.step sampleTree 0 .activateBestChain).tipWork := by
  obtain ⟨st, hreach, htip⟩ : ∃ st, Reaches (step sampleTree 0)
      (fun st c => ¬ st.Strands sampleTree c) (start sampleTree) st ∧ st.tip = 2 :=
    ⟨(sampleCalls.take 7).foldl (step sampleTree 0) (start sampleTree),
      Reaches.start.events (by decide), by decide⟩
  exact ⟨st, htip, tip_work_never_falls hreach (Reaches.start.event _ ⟨id, nofun⟩)⟩

end CChainState

/-! ## Runs -/

/-- What a peer delivers. -/
inductive Delivery where
  | header (x : UInt256) (checks : HeaderChecks)
  | block (b : Arrival) (checked mainNode : Bool)

/-- A node, and the height of the highest tip it had. -/
structure TipHistory where
  chain : CChainState
  highest : ℕ

namespace TipHistory

variable (T nMinimumChainWork)

/-- The node with the genesis block alone. -/
def start : TipHistory := ⟨CChainState.start T, 0⟩

/-- The node with another state. -/
def update (n : TipHistory) (chain : CChainState) : TipHistory :=
  ⟨chain, max n.highest (chain.entry chain.tip).nHeight⟩

/-- A delivery. -/
def step (n : TipHistory) : Delivery → TipHistory
  | .header x checks => n.update (n.chain.acceptBlockHeader T x checks).1
  | .block b checked mainNode =>
    n.update (n.chain.processNewBlock T nMinimumChainWork b checked mainNode)

/-- The block enters on a branch that leaves the active chain more than a span
below the highest tip there was. -/
def ForksBelow (n : TipHistory) : Delivery → Prop
  | .header _ _ => False
  | .block b _ _ => n.chain.Enters T b.hash ∧ (n.chain.findFork T (T.hashPrevBlock b.hash)).any
      (fun f => decide ((n.chain.entry f).nHeight + nCheckpointSpan < n.highest)) = true

variable {T nMinimumChainWork} {n n' : TipHistory} {x : UInt256}

/-- What is kept of a run: the tip is not above the highest there was. -/
structure Sound (T : BlockTree) (n : TipHistory) : Prop where
  steady : n.chain.Steady T
  highest : (n.chain.entry n.chain.tip).nHeight ≤ n.highest

variable (T n) in
/-- The block is active, and was a span below the tip. -/
def Deep (x : UInt256) : Prop :=
  T.Anc x n.chain.tip ∧ (n.chain.entry x).nHeight + nCheckpointSpan ≤ n.highest

theorem sound_start : (start T).Sound T := by
  refine ⟨⟨consistent_start, ⟨fun y _ h => ?_, fun f h => ?_⟩, ?_⟩, le_rfl⟩
  · exact absurd h (by simp [start, CChainState.start, IndexEntry.failed])
  · exact absurd h not_mem_nil
  · intro y hy _ _
    obtain rfl := mem_singleton.1 hy
    exact not_worse_self

variable (nMinimumChainWork) in
/-- Each delivery is one of the node's state. -/
theorem Sound.delivered (S : n.Sound T) (d : Delivery) : ∃ st D,
    n.step T nMinimumChainWork d = n.update st ∧ CChainState.Delivered T D n.chain st ∧
    ∀ t, D t → ∃ b checked mainNode, d = .block b checked mainNode ∧ T.Anc b.hash t ∧
      n.chain.Enters T b.hash ∧ b.hash ≠ T.hashGenesisBlock := by
  cases d with
  | header x checks =>
    exact ⟨_, _, rfl, S.steady.acceptBlockHeader x checks, fun t ht => ht.elim⟩
  | block b checked mainNode =>
    exact ⟨_, _, rfl, S.steady.processNewBlock b checked mainNode,
      fun t ht => ⟨b, checked, mainNode, rfl, ht⟩⟩

theorem Sound.step (S : n.Sound T) (d : Delivery) : (n.step T nMinimumChainWork d).Sound T := by
  obtain ⟨st, D, h, hd, -⟩ := S.delivered nMinimumChainWork d
  rw [h]
  exact ⟨hd.steady, le_max_right _ _⟩

/-- **A deep block stays deep** unless the delivery forks below it. -/
theorem Deep.step (S : n.Sound T) {d : Delivery} (hcond : ¬ n.ForksBelow T d) (h : n.Deep T x) :
    (n.step T nMinimumChainWork d).Deep T x := by
  obtain ⟨hxt, hdeep⟩ := h
  obtain ⟨st, D, hstep, hd, hD⟩ := S.delivered nMinimumChainWork d
  have C := S.steady.consistent
  have hx := C.shape.rooted.mem hxt C.onTop.mem
  rw [hstep]
  refine ⟨?_, ?_⟩
  · change T.Anc x st.tip
    rcases hd.tip with htip | htip
    · rw [htip]
      exact hxt
    -- the new tip is above the fork, and the fork above the deep block
    obtain ⟨b, checked, mainNode, rfl, hbt, henters, hg⟩ := hD _ htip
    obtain ⟨f, hfork, hft, -, hasc⟩ := exists_fork C.shape C.onTop.mem henters.1
    have hhigh : n.highest ≤ (n.chain.entry f).nHeight + nCheckpointSpan := by
      by_contra hlow
      refine hcond ⟨henters, ?_⟩
      rw [hfork, any_some, decide_eq_true_eq]
      omega
    have hxf : T.Anc x f :=
      C.shape.rooted.anc_of_height_le hxt hft C.onTop.mem (by omega)
    exact hxf.trans ((Anc.up hg hasc.anc).trans hbt)
  · change (st.entry x).nHeight + nCheckpointSpan ≤ max n.highest _
    rw [hd.height x hx]
    exact hdeep.trans (le_max_left _ _)

/-- **Finality by the synchronized checkpoint.** In every run of deliveries none of
which enters on a branch that forks off too far below, a block that is a span
below the tip stays on the active chain. -/
theorem deep_block_stays
    (h : Reaches (TipHistory.step T nMinimumChainWork) (fun n d => ¬ n.ForksBelow T d) (start T) n)
    (hactive : n.chain.contains T x = true)
    (hdeep : (n.chain.entry x).nHeight + nCheckpointSpan ≤ (n.chain.entry n.chain.tip).nHeight)
    (h' : Reaches (TipHistory.step T nMinimumChainWork) (fun n d => ¬ n.ForksBelow T d) n n') :
    n'.chain.contains T x = true := by
  have S : n.Sound T := h.induct sound_start fun _ d _ S => S.step d
  have hd : n.Deep T x :=
    ⟨(S.steady.consistent.shape.contains_iff S.steady.consistent.onTop.mem).1 hactive,
      hdeep.trans S.highest⟩
  obtain ⟨S', hd'⟩ : n'.Sound T ∧ n'.Deep T x :=
    h'.induct (Q := fun n => n.Sound T ∧ n.Deep T x) ⟨S, hd⟩
      fun _ d hc h => ⟨h.1.step d, h.2.step h.1 hc⟩
  exact (S'.steady.consistent.shape.contains_iff S'.steady.consistent.onTop.mem).2 hd'.1

end TipHistory

/-! ## Blocks that arrive in order

Where every block connects, and each arrives after its parent, all are linked
and the tip moves to the block that arrives whenever it has more work. -/

namespace CChainState

variable {st : CChainState} {x : UInt256}

/-- The loop of `ReceivedBlockTransactions` marks nothing and takes no data. -/
theorem linkQueue_same (n : ℕ) {queue : List UInt256} (K : st.Linking T queue) :
    (linkQueue T n queue st).mapBlockIndex = st.mapBlockIndex ∧
      ∀ y, ((linkQueue T n queue st).entry y).failed = (st.entry y).failed ∧
        ((linkQueue T n queue st).entry y).haveData = (st.entry y).haveData := by
  fun_induction CChainState.linkQueue with
  | case1 => exact ⟨rfl, fun y => ⟨rfl, rfl⟩⟩
  | case2 => exact ⟨rfl, fun y => ⟨rfl, rfl⟩⟩
  | case3 n z queue st ih =>
    obtain ⟨hmap, hsame⟩ := ih K.link
    refine ⟨hmap, fun y => ?_⟩
    obtain ⟨hf, hd⟩ := hsame y
    exact ⟨hf.trans (link_failed K y), hd.trans (link_entry_same K y).2.2.2.2.1⟩

/-- `ReceivedBlockTransactions` marks nothing, and takes the data of the block. -/
theorem receivedBlockTransactions_same {nTx : ℕ} (C : st.Consistent T) (hx : x ∈ st.mapBlockIndex)
    (hd : (st.entry x).haveData = false) (hf : (st.entry x).failed = false) (hn : 0 < nTx)
    (hg : x ≠ T.hashGenesisBlock) :
    let st' := st.receivedBlockTransactions T x nTx
    st'.mapBlockIndex = st.mapBlockIndex ∧ ∀ y, (st'.entry y).failed = (st.entry y).failed ∧
      ((st'.entry y).haveData = true ↔ y = x ∨ (st.entry y).haveData = true) := by
  have hfailed (y) : ((st.receive x nTx).entry y).failed = _ := receive_failed C hx hd hf y
  have hdata (y) : ((st.receive x nTx).entry y).haveData = true ↔ _ := receive_haveData C hx hd hf
  simp only [← hfailed, ← hdata]
  obtain ⟨K, h⟩ | ⟨unlinked, h⟩ := receivedBlockTransactions_cases C hx hd hf hn hg <;> rw [h]
  · obtain ⟨hmap, hsame⟩ := linkQueue_same (st.mapBlocksUnlinked.length + 1) K
    exact ⟨hmap, fun y => ⟨(hsame y).1, by rw [(hsame y).2]⟩⟩
  · exact ⟨rfl, fun y => ⟨rfl, Iff.rfl⟩⟩

/-- After a block that was accepted the best chain is activated. -/
theorem advance_processNewBlock {st₁ : CChainState} {b : Arrival} {mainNode : Bool}
    (h : st.acceptBlock T nMinimumChainWork b = (st₁, true)) (C : st₁.Consistent T) :
    Advance T st₁ (st.processNewBlock T nMinimumChainWork b true mainNode) := by
  obtain ⟨hspec, hsome⟩ := activateBestChain_spec C
  obtain ⟨st₂, h₂⟩ := isSome_iff_exists.1 hsome
  simp only [CChainState.processNewBlock, h, h₂]
  exact (hspec _ _ h₂).2.1

variable (T st) in
/-- Every indexed block is linked and none failed. -/
structure Quiet : Prop where
  steady : st.Steady T
  linked : ∀ y ∈ st.mapBlockIndex, st.Linked y
  unfailed : ∀ y ∈ st.mapBlockIndex, (st.entry y).failed = false

theorem quiet_start : (start T).Quiet T :=
  ⟨TipHistory.sound_start.steady, fun _ _ => Nat.one_ne_zero, fun _ _ => rfl⟩

namespace Quiet

variable (Q : st.Quiet T) (hx : x ∉ st.mapBlockIndex) (hg : x ≠ T.hashGenesisBlock)
  (hp : T.hashPrevBlock x ∈ st.mapBlockIndex)
include Q hx hg hp

variable (nMinimumChainWork) in
/-- The next block is taken. -/
theorem acceptBlock
    (hsync : (st.entry st.tip).nHeight <
      (st.entry (T.hashPrevBlock x)).nHeight + 1 + nCheckpointSpan) :
    st.acceptBlock T nMinimumChainWork (sampleArrival x) =
      ((st.addToBlockIndex T x).receivedBlockTransactions T x 1, true) := by
  have C := Q.steady.consistent
  have C' := C.addToBlockIndex hx hg hp
  have hfb : st.failedBlocks = [] := by
    refine eq_nil_iff_forall_not_mem.2 fun f hf => ?_
    obtain ⟨hfm, hfv⟩ := C.marks.failedBlocks f hf
    have := Q.unfailed f hfm
    simp [IndexEntry.failed, hfv] at this
  have hs : st.checkSync T ((st.entry (T.hashPrevBlock x)).nHeight + 1) = true :=
    (C.shape.checkSync_iff C.onTop.mem _).2 (Or.inr hsync)
  have hheader : st.acceptBlockHeader T x ⟨true, true, true⟩ = (st.addToBlockIndex T x, true) := by
    simp [CChainState.acceptBlockHeader, hx, hp, Q.unfailed _ hp, hs, failedAncestor, hfb]
  have hself := addToBlockIndex_entry_self hx hp
  have G : Grown (fun _ => False) st (st.addToBlockIndex T x) := grown_addToBlockIndex hx hp
  have hs' : (st.addToBlockIndex T x).checkSync T ((st.addToBlockIndex T x).entry x).nHeight =
      true := by
    rw [C'.shape.checkSync_iff C'.onTop.mem, hself, G.tip, G.height _ C.onTop.mem]
    exact Or.inr hsync
  have hd' : ((st.addToBlockIndex T x).entry x).haveData = false := by rw [hself]
  unfold CChainState.acceptBlock
  simp only [sampleArrival, hheader]
  simp [hs', hd', wants]

/-- The state in which the next block is taken: all blocks have data. -/
theorem receivedBlockTransactions :
    let st' := (st.addToBlockIndex T x).receivedBlockTransactions T x 1
    (∀ y, y ∈ st'.mapBlockIndex ↔ y = x ∨ y ∈ st.mapBlockIndex) ∧
      ∀ y ∈ st'.mapBlockIndex, (st'.entry y).failed = false ∧ (st'.entry y).haveData = true := by
  intro st'
  have C := Q.steady.consistent
  have C₁ := C.addToBlockIndex hx hg hp
  have hself := addToBlockIndex_entry_self hx hp
  have hmap₁ : (st.addToBlockIndex T x).mapBlockIndex = x :: st.mapBlockIndex :=
    addToBlockIndex_map hx
  have hx₁ : x ∈ (st.addToBlockIndex T x).mapBlockIndex := hmap₁ ▸ mem_cons_self
  have hd₁ : ((st.addToBlockIndex T x).entry x).haveData = false := by rw [hself]
  have hf₁ : ((st.addToBlockIndex T x).entry x).failed = false := by
    rw [hself]
    rfl
  obtain ⟨hmap, hsame⟩ := receivedBlockTransactions_same C₁ hx₁ hd₁ hf₁ Nat.one_pos hg
  have hmem : ∀ y, y ∈ st'.mapBlockIndex ↔ y = x ∨ y ∈ st.mapBlockIndex := by
    intro y
    rw [hmap, hmap₁, mem_cons]
  refine ⟨hmem, fun y hy => ?_⟩
  rw [(hsame y).1, (hsame y).2]
  rcases (hmem y).1 hy with rfl | hy
  · exact ⟨hf₁, Or.inl rfl⟩
  · rw [addToBlockIndex_entry_of_mem hx y hy]
    exact ⟨Q.unfailed y hy, Or.inr (C.links.data y hy (Q.linked y hy))⟩

/-- **The next block is the new tip if it has more work**, the tip stays if it
has less, and no other block becomes the tip. -/
theorem processNewBlock (hconnects : ∀ y, T.connects y = true)
    (hsync : (st.entry st.tip).nHeight <
      (st.entry (T.hashPrevBlock x)).nHeight + 1 + nCheckpointSpan) :
    let st' := st.processNewBlock T nMinimumChainWork (sampleArrival x) true false
    st'.Quiet T ∧ (∀ y, y ∈ st'.mapBlockIndex ↔ y = x ∨ y ∈ st.mapBlockIndex) ∧
      ((st'.entry st.tip).nChainWork < (st'.entry x).nChainWork → st'.tip = x) ∧
      ((st'.entry x).nChainWork < (st'.entry st.tip).nChainWork → st'.tip = st.tip) ∧
      (st'.tip = st.tip ∨ st'.tip = x) := by
  intro st'
  have C := Q.steady.consistent
  have hd : Delivered T _ st st' := Q.steady.processNewBlock (sampleArrival x) true false
  have C' := hd.steady.consistent
  obtain ⟨hmem, hentry⟩ := Q.receivedBlockTransactions hx hg hp
  have haccept := Q.acceptBlock nMinimumChainWork hx hg hp hsync
  have haccepted := C.acceptBlock nMinimumChainWork (sampleArrival x)
    (Q.steady.settled.strands C x)
  rw [haccept] at haccepted
  have A : Advance T _ st' := advance_processNewBlock haccept haccepted
  have hmem' : ∀ y, y ∈ st'.mapBlockIndex ↔ y = x ∨ y ∈ st.mapBlockIndex := by
    intro y
    rw [A.kept.map]
    exact hmem y
  have hunfailed' : ∀ y ∈ st'.mapBlockIndex, st'.Unfailed T y := by
    intro y hy
    rw [A.kept.map] at hy
    exact A.spares y (fun a _ _ => hconnects a)
      fun a ha => (hentry a (haccepted.shape.rooted.mem ha hy)).1
  have hlinked' : ∀ y ∈ st'.mapBlockIndex, st'.Linked y := by
    intro y hy
    rw [A.kept.map] at hy
    rw [A.kept.linked, haccepted.links.linked_iff haccepted.shape hy]
    exact fun a ha => (hentry a (haccepted.shape.rooted.mem ha hy)).2
  have hbest : ∀ y ∈ st'.mapBlockIndex,
      (st'.entry y).nChainWork ≤ (st'.entry st'.tip).nChainWork := fun y hy =>
    work_le_of_not_worse (hd.steady.best y hy (hlinked' y hy) (hunfailed' y hy))
  have htip : st'.tip = st.tip ∨ st'.tip = x := by
    refine hd.tip.imp_right fun hanc => ?_
    refine ((hmem' _).1 C'.onTop.mem).resolve_right fun hold => hx ?_
    exact C.shape.rooted.mem hanc.1 hold
  refine ⟨⟨hd.steady, hlinked', fun y hy => hunfailed' y hy y (Anc.refl y)⟩, hmem', ?_, ?_,
    htip⟩
  · intro hw
    refine htip.resolve_left fun h => ?_
    have hle := hbest x ((hmem' x).2 (Or.inl rfl))
    rw [h] at hle
    omega
  · intro hw
    refine htip.resolve_right fun h => ?_
    have hle := hbest st.tip ((hmem' _).2 (Or.inr C.onTop.mem))
    rw [h] at hle
    omega

end Quiet

end CChainState

/-! ## Two branches

The odd blocks and the even blocks, above the genesis block `0`. All have the
same work, and the even block of a height comes after the odd block of the next,
so that the odd branch is ahead by a block. -/

/-- The tree of the two branches. -/
def forkTree : BlockTree where
  hashGenesisBlock := 0
  hashPrevBlock x := x - 2
  getBlockProof _ := 2
  getBlockProof_pos _ := Nat.two_pos
  address := id
  address_injective := Function.injective_id
  connects _ := true

namespace forkTree

variable {st : CChainState} {x : ℕ}

theorem height_eq (S : st.TreeShape forkTree) (hx : x ∈ st.mapBlockIndex) :
    (st.entry x).nHeight = (x + 1) / 2 := by
  refine S.rooted.induct (motive := fun (x : ℕ) _ => (st.entry x).nHeight = (x + 1) / 2) ?_ ?_ hx
  · exact S.rooted.root_height
  intro (x : ℕ) hx (hg : x ≠ 0) ih
  have hh : (st.entry x).nHeight = (st.entry (x - 2)).nHeight + 1 := S.rooted.height x hx hg
  change (st.entry (x - 2)).nHeight = (x - 2 + 1) / 2 at ih
  omega

/-- The work of a block above that of the genesis block. -/
def work (x : ℕ) : ℕ := (x + 1) / 2 * 2

theorem work_eq (S : st.TreeShape forkTree) (hx : x ∈ st.mapBlockIndex) :
    (st.entry x).nChainWork = (st.entry 0).nChainWork + work x := by
  refine S.rooted.induct (motive := fun (x : ℕ) _ => (st.entry x).nChainWork =
    (st.entry 0).nChainWork + (x + 1) / 2 * 2) ?_ ?_ hx
  · exact rfl
  intro (x : ℕ) hx (hg : x ≠ 0) ih
  have hw : (st.entry x).nChainWork = (st.entry (x - 2)).nChainWork + 2 := S.work x hx hg
  change (st.entry (x - 2)).nChainWork = (st.entry 0).nChainWork + (x - 2 + 1) / 2 * 2 at ih
  omega

/-- The first odd block is below every odd block, and below no even one. -/
theorem anc_one (x : ℕ) : forkTree.Anc 1 x ↔ x % 2 = 1 := by
  induction x using Nat.strong_induction_on with
  | _ x ih =>
    have hanc : forkTree.Anc 1 x ↔ 1 = x ∨ x ≠ 0 ∧ forkTree.Anc 1 (x - 2) := anc_iff
    rw [hanc]
    by_cases hx : x < 2
    · constructor
      · rintro (h | ⟨hx0, h⟩)
        · omega
        · omega
      · intro h
        omega
    · rw [ih (x - 2) (by omega)]
      omega

/-- A block of the tree that arrives. -/
def delivery (x : UInt256) : Delivery := .block (CChainState.sampleArrival x) true false

/-- **The next block of the tree arrives**: the tip moves if it has more work. -/
theorem deliver {n : TipHistory} (Q : n.chain.Quiet forkTree) (hx : x ∉ n.chain.mapBlockIndex)
    (hg : x ≠ 0) (hp : x - 2 ∈ n.chain.mapBlockIndex) {t : ℕ} (htip : n.chain.tip = t)
    (hlow : t < x + 900) :
    ∃ n', n.step forkTree 0 (delivery x) = n' ∧ n'.chain.Quiet forkTree ∧
      (∀ y : ℕ, y ∈ n'.chain.mapBlockIndex ↔ y = x ∨ y ∈ n.chain.mapBlockIndex) ∧
      (work t < work x → n'.chain.tip = x) ∧ (work x < work t → n'.chain.tip = t) ∧
      (n'.chain.tip = t ∨ n'.chain.tip = x) ∧
      ∀ s : ℕ, n'.chain.tip = s → n'.highest = max n.highest ((s + 1) / 2) := by
  have C := Q.steady.consistent
  have hsync : (n.chain.entry n.chain.tip).nHeight <
      (n.chain.entry (forkTree.hashPrevBlock x)).nHeight + 1 + nCheckpointSpan := by
    have ht := height_eq C.shape C.onTop.mem
    have hp' := height_eq C.shape hp
    change (n.chain.entry n.chain.tip).nHeight < (n.chain.entry (x - 2)).nHeight + 1 + 500
    rw [htip] at ht ⊢
    omega
  obtain ⟨Q', hmem, hmore, hless, hor⟩ : (n.chain.processNewBlock forkTree 0
      (CChainState.sampleArrival x) true false).Quiet forkTree ∧ _ :=
    Q.processNewBlock hx hg hp (fun _ => rfl) hsync
  have S' := Q'.steady.consistent.shape
  have hxw := work_eq S' ((hmem x).2 (Or.inl rfl))
  have htw := work_eq S' ((hmem _).2 (Or.inr C.onTop.mem))
  rw [htip] at hmore hless htw hor
  refine ⟨_, rfl, Q', hmem, fun h => hmore ?_, fun h => hless ?_, hor, fun s hs => ?_⟩
  · exact htw.trans_lt ((Nat.add_lt_add_left h _).trans_eq hxw.symm)
  · exact hxw.trans_lt ((Nat.add_lt_add_left h _).trans_eq htw.symm)
  · rw [← hs]
    exact congrArg (max n.highest) (height_eq S' Q'.steady.consistent.onTop.mem)

/-- No fork is too low while the tip is not above the span. -/
theorem not_forksBelow {n : TipHistory} (h : n.highest ≤ 500) (x : UInt256) :
    ¬ n.ForksBelow forkTree (delivery x) := by
  rintro ⟨-, hfork⟩
  obtain ⟨f, -, hf⟩ := (Option.any_eq_true _ _).1 hfork
  have hlow : _ + 500 < n.highest := of_decide_eq_true hf
  omega

/-- Both branches arrive: in each round the next odd block, which becomes the
tip, and then the even block below it. -/
theorem reaches_both (k : ℕ) : ∃ n, Reaches (TipHistory.step forkTree 0)
      (fun n d => k ≤ 499 → ¬ n.ForksBelow forkTree d) (TipHistory.start forkTree) n ∧
      n.chain.Quiet forkTree ∧ (∀ y : ℕ, y ∈ n.chain.mapBlockIndex ↔ y ≤ 2 * k + 1) ∧
      n.chain.tip = 2 * k + 1 ∧ n.highest = k + 1 := by
  induction k with
  | zero =>
    have hmap : ∀ y : ℕ, y ∈ (TipHistory.start forkTree).chain.mapBlockIndex ↔ y = 0 :=
      fun y => mem_singleton
    obtain ⟨n, hn, Q, hmem, hmore, -, -, hhigh⟩ := deliver (x := 1) (t := 0) quiet_start
      (fun h => absurd ((hmap 1).1 h) Nat.one_ne_zero) (by decide) ((hmap _).2 rfl) rfl (by decide)
    have htip := hmore (by decide)
    have hlow : (TipHistory.start forkTree).highest ≤ 500 := Nat.zero_le 500
    refine ⟨n, hn ▸ .event (delivery 1) .start fun _ => not_forksBelow hlow 1, Q,
      fun y => ?_, htip, hhigh 1 htip⟩
    rw [hmem, hmap]
    omega
  | succ k ih =>
    obtain ⟨n, hreach, Q, hmap, htip, hhigh⟩ := ih
    obtain ⟨n₁, hn₁, Q₁, hmem₁, hmore₁, -, -, hhigh₁⟩ := deliver (x := 2 * k + 3) Q
      (by simp [hmap]) (by omega) ((hmap _).2 (by omega)) htip (by omega)
    have htip₁ := hmore₁ (by unfold work; omega)
    replace hhigh₁ := hhigh₁ _ htip₁
    obtain ⟨n₂, hn₂, Q₂, hmem₂, -, hless₂, -, hhigh₂⟩ := deliver (x := 2 * k + 2) Q₁
      (by rw [hmem₁, hmap]; omega) (by omega) ((hmem₁ _).2 (.inr ((hmap _).2 (by omega)))) htip₁
      (by omega)
    have htip₂ := hless₂ (by unfold work; omega)
    have hreach₁ : Reaches (TipHistory.step forkTree 0)
        (fun n d => k + 1 ≤ 499 → ¬ n.ForksBelow forkTree d) (TipHistory.start forkTree) n₁ :=
      hn₁ ▸ (hreach.mono fun n d hc (h : k + 1 ≤ 499) => hc (by omega)).event _
        fun h => not_forksBelow (by omega) _
    refine ⟨n₂, hn₂ ▸ hreach₁.event _ fun h => not_forksBelow (by omega) _, Q₂, fun y => ?_,
      htip₂, ?_⟩
    · rw [hmem₂, hmem₁, hmap]
      omega
    · rw [hhigh₂ _ htip₂]
      omega

/-- With the first odd block a span below the tip. -/
theorem first_block_deep {n : TipHistory} (C : n.chain.Consistent forkTree)
    (hone : 1 ∈ n.chain.mapBlockIndex) (htip : n.chain.tip = (1001 : ℕ)) :
    n.chain.contains forkTree 1 = true ∧ (n.chain.entry 1).nHeight + nCheckpointSpan ≤
      (n.chain.entry n.chain.tip).nHeight := by
  rw [C.shape.contains_iff C.onTop.mem, height_eq C.shape C.onTop.mem, height_eq C.shape hone, htip]
  exact ⟨(anc_one 1001).2 (by decide), by decide⟩

/-- The first odd block is final once the odd branch is long enough. -/
theorem first_block_final : ∃ n, Reaches (TipHistory.step forkTree 0)
      (fun n d => ¬ n.ForksBelow forkTree d) (TipHistory.start forkTree) n ∧
    (n.chain.entry 1).nHeight + nCheckpointSpan ≤ (n.chain.entry n.chain.tip).nHeight ∧
    ∀ n', Reaches (TipHistory.step forkTree 0) (fun n d => ¬ n.ForksBelow forkTree d) n n' →
      n'.chain.contains forkTree 1 = true := by
  obtain ⟨n, hreach, Q, hmap, htip, hhigh⟩ := reaches_both 499
  obtain ⟨n₁, hn₁, Q₁, hmem, hmore, -⟩ := deliver (x := 1001) Q (by simp [hmap]) (by decide)
    ((hmap _).2 (by decide)) htip (by decide)
  have hreach₁ : Reaches (TipHistory.step forkTree 0) (fun n d => ¬ n.ForksBelow forkTree d)
      (TipHistory.start forkTree) n₁ :=
    hn₁ ▸ (hreach.mono fun _ _ hc => hc le_rfl).event _ (not_forksBelow hhigh.le _)
  obtain ⟨hactive, hdeep⟩ := first_block_deep Q₁.steady.consistent
    ((hmem 1).2 (.inr ((hmap 1).2 (by decide)))) (hmore (by decide))
  exact ⟨n₁, hreach₁, hdeep, fun n' h' => TipHistory.deep_block_stays hreach₁ hactive hdeep h'⟩

/-- **A fork from below the checkpoint is followed.** When both branches have come
up to the same height, and the first odd block is a span below the tip, the next
even block passes the checkpoint and takes the odd blocks off the chain. -/
theorem deep_fork_replaces_block : ¬ ∀ (n n' : TipHistory) (x : UInt256),
    Reaches (TipHistory.step forkTree 0) (fun _ _ => True) (TipHistory.start forkTree) n →
    n.chain.contains forkTree x = true →
    (n.chain.entry x).nHeight + nCheckpointSpan ≤ (n.chain.entry n.chain.tip).nHeight →
    Reaches (TipHistory.step forkTree 0) (fun _ _ => True) n n' →
    n'.chain.contains forkTree x = true := by
  intro hall
  obtain ⟨n, hreach, Q, hmap, htip, -⟩ := reaches_both 500
  obtain ⟨hactive, hdeep⟩ := first_block_deep Q.steady.consistent ((hmap 1).2 (by decide)) htip
  -- the even block of the height of the tip has the work of the tip
  obtain ⟨n₁, hn₁, Q₁, hmem₁, -, -, hor₁, -⟩ := deliver (x := 1002) Q (by simp [hmap]) (by decide)
    ((hmap _).2 (by decide)) htip (by decide)
  obtain ⟨t₁, htip₁, ht₁⟩ : ∃ t₁ : ℕ, n₁.chain.tip = t₁ ∧ (t₁ = 1001 ∨ t₁ = 1002) :=
    hor₁.elim (fun h => ⟨1001, h, .inl rfl⟩) fun h => ⟨1002, h, .inr rfl⟩
  obtain ⟨n₂, hn₂, Q₂, -, hmore₂, -⟩ := deliver (x := 1004) Q₁ (by rw [hmem₁, hmap]; omega)
    (by decide) ((hmem₁ _).2 (.inl rfl)) htip₁ (by omega)
  have hreach₁ : Reaches (TipHistory.step forkTree 0) (fun _ _ => True) n n₁ :=
    hn₁ ▸ .event (delivery 1002) .start trivial
  have hstays := hall n n₂ 1 (hreach.mono fun _ _ _ => trivial) hactive hdeep
    (hn₂ ▸ hreach₁.event (delivery 1004) trivial)
  have C₂ := Q₂.steady.consistent
  rw [C₂.shape.contains_iff C₂.onTop.mem, hmore₂ (by unfold work; omega)] at hstays
  exact absurd ((anc_one 1004).1 hstays) (by decide)

end forkTree

end Slucore

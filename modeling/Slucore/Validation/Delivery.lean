import Slucore.Validation.Activate
import Slucore.Validation.Binding
/-!
# Validation — what the calls of a node change

One lemma for each part of the state, read off the calls once: an entry
of the index keeps what it was made with (`acceptBlock_entry`), a body is
stored under the hash of a header that had none (`Call.run_bodies`), and
the active chain grows by a block that `ConnectBlock` accepted or loses
its tip (`Call.run_active`).
-/


namespace Slucore

open Option NodeState Function ChainState

variable {H : Hashes} {I : Intake} {N : Node} {lim : BlockLimits} {st st' : ChainState}
variable {block : CBlock} {pindex : CBlockIndex} {fRequested : Bool} {hash : UInt256}

/-! ## The index -/

/-- The part of an index that does not change once it is made. -/
def CBlockIndex.fixed (pindex : CBlockIndex) : CBlockIndex :=
  { pindex with nMoneySupply := 0, nTx := 0, haveData := false, failedValid := false }

namespace ChainState

/-- The unchanging part of the index of a header. -/
def entry (st : ChainState) (hash : UInt256) : Option CBlockIndex :=
  (st.mapBlockIndex hash).map CBlockIndex.fixed

theorem entry_setIndex :
    (st.setIndex hash pindex).entry = Function.update st.entry hash (some pindex.fixed) := by
  funext h
  by_cases hh : h = hash
  · subst hh
    simp [entry, setIndex]
  · simp [entry, setIndex, hh]

/-- What the search for the index of a header makes of the entries. -/
structure FoundEntry (H : Hashes) (I : Intake) (st st' : ChainState) (block : CBlock)
    (pindex : CBlockIndex) : Prop where
  entry : st'.entry = Function.update st.entry (block.getHash H)
    (some (st.addToBlockIndex H I block).2.fixed)
  pindex : pindex.fixed = (st.addToBlockIndex H I block).2.fixed

/-- An index that is there is the one that would be added. -/
theorem foundEntry_of_mem (h : st.mapBlockIndex (block.getHash H) = some pindex) :
    FoundEntry H I st st block pindex := by
  have hadd : st.addToBlockIndex H I block = (st, pindex) := by simp [addToBlockIndex, h]
  refine ⟨?_, by rw [hadd]⟩
  rw [hadd]
  simp [entry, h]

theorem foundEntry_addToBlockIndex (H : Hashes) (I : Intake) (st : ChainState) (block : CBlock) :
    FoundEntry H I st (st.addToBlockIndex H I block).1 block
    (st.addToBlockIndex H I block).2 := by
  cases hm : st.mapBlockIndex (block.getHash H) with
  | some pindex =>
    have hadd : st.addToBlockIndex H I block = (st, pindex) := by simp [addToBlockIndex, hm]
    rw [hadd]
    exact foundEntry_of_mem hm
  | none =>
    refine ⟨?_, rfl⟩
    rw [← entry_setIndex]
    simp [addToBlockIndex, hm]

theorem foundEntry_of_acceptBlockHeader
    (h : st.acceptBlockHeader H I block = .ok (st', pindex)) :
    FoundEntry H I st st' block pindex := by
  have hadd := foundEntry_addToBlockIndex H I st block
  rwa [← eq_of_acceptBlockHeader h] at hadd

/-- Replacing the index by one with the same unchanging part keeps the
entries. -/
theorem FoundEntry.setIndex {p : CBlockIndex} (h : FoundEntry H I st st' block pindex)
    (hp : p.fixed = pindex.fixed) : (st'.setIndex (block.getHash H) p).entry =
      Function.update st.entry (block.getHash H)
        (some (st.addToBlockIndex H I block).2.fixed) := by
  rw [entry_setIndex, h.entry, update_idem, hp, h.pindex]

end ChainState

/-- **What `AcceptBlock` makes of the entries of the index:** nothing, or
there is now one for the header of the block, made from it and from the
index of its parent unless it was there. -/
theorem acceptBlock_entry : (acceptBlock H I lim st block fRequested).1.entry = st.entry ∨
    (acceptBlock H I lim st block fRequested).1.entry = Function.update st.entry (block.getHash H)
      (some (st.addToBlockIndex H I block).2.fixed) := by
  unfold acceptBlock
  split
  · exact .inl rfl
  rename_i st₁ pindex hheader
  have hfound := foundEntry_of_acceptBlockHeader hheader
  right
  split
  · exact hfound.entry
  split
  · split
    · split
      · exact hfound.setIndex rfl
      · exact hfound.entry
    · split
      · exact hfound.setIndex rfl
      · exact hfound.entry
  · exact hfound.entry

/-! ## The calls -/

/-- What a call delivers to the node. -/
def Call.delivers : Call → Option (Intake × CBlock)
  | .process I block _ => some (I, block)
  | .accept I block => some (I, block)
  | _ => none

namespace NodeState

variable {g : NodeState} {passed : Bool}

/-- A block that `ConnectTip` can use for a hash: the block passed along,
or the stored body, read again. -/
def Candidate (H : Hashes) (g : NodeState) (hash : UInt256) (block : CBlock) : Prop :=
  block.getHash H = hash ∧ (g.pblock = some block ∨
    ∃ body, g.chain.stored hash = some body ∧ block = { body with fChecked := false })

theorem candidate_of_blockToConnect (h : g.blockToConnect H N hash passed = some block) :
    g.Candidate H hash block := by
  rcases or_eq_some_iff.1 h with hpass | ⟨-, hread⟩
  · obtain ⟨hp, hhash⟩ := filter_eq_some_iff.1 hpass
    exact ⟨by simpa using (Bool.and_eq_true_iff.1 hhash).2, .inl hp⟩
  simp only [readBlockFromDisk, bind_eq_some_iff, ite_none_right_eq_some,
    Bool.and_eq_true, beq_iff_eq] at hread
  obtain ⟨body, hbody, ⟨-, hhash⟩, hblock⟩ := hread
  obtain ⟨⟩ := hblock
  exact ⟨hhash, .inr ⟨body, hbody, rfl⟩⟩

/-- **`ConnectTip` leaves the node as it is, or connects a candidate on the
tip.** It shuts the node down before that only when it cannot read the
block. -/
theorem connectTip_cases (g : NodeState) (H : Hashes) (N : Node) (hash : UInt256) (passed : Bool) :
    ((g.connectTip H N hash passed).1 = g ∧ ∃ f, (g.connectTip H N hash passed).2 = .error f ∧
      ((∃ msg, f = .fatal msg) ∨ g.readBlockFromDisk H N hash = none)) ∨
    ∃ block pindex, g.blockToConnect H N hash passed = some block ∧
      g.chain.mapBlockIndex hash = some pindex ∧ block.hashPrevBlock = g.tipHash H ∧
      g.connectTip H N hash passed = g.connectTipWith H N hash block pindex := by
  unfold connectTip
  split
  · rename_i hnone
    exact .inl ⟨rfl, _, rfl, .inr (or_eq_none_iff.1 hnone).2⟩
  · exact .inl ⟨rfl, _, rfl, .inl ⟨_, rfl⟩⟩
  rename_i block pindex hblock hindex
  split
  · rename_i hprev
    exact .inr ⟨block, pindex, hblock, hindex, hprev, rfl⟩
  · exact .inl ⟨rfl, _, rfl, .inl ⟨_, rfl⟩⟩

/-- What `ConnectTip` with a block and its index does. -/
theorem connectTipWith_cases (g : NodeState) (N : Node) (hash : UInt256) (block : CBlock)
    (pindex : CBlockIndex) :
    (∃ f, connectBlock H N g.lim block pindex (g.tipIndex H) (.ofBase g.coinsTip) g.aal false =
        .error f ∧ (g.connectTipWith H N hash block pindex).2 = .error f ∧
      (g.connectTipWith H N hash block pindex).1.active = g.active ∧
      (g.connectTipWith H N hash block pindex).1.coinsTip = g.coinsTip ∧
      (g.connectTipWith H N hash block pindex).1.pblock = g.pblock ∧
      (g.connectTipWith H N hash block pindex).1.chain =
        if f.marksInvalid then g.chain.setIndex hash { pindex with failedValid := true }
        else g.chain) ∨
    ∃ c, connectBlock H N g.lim block pindex (g.tipIndex H) (.ofBase g.coinsTip) g.aal false =
        .ok c ∧ (g.connectTipWith H N hash block pindex).2 = .ok () ∧
      (g.connectTipWith H N hash block pindex).1 =
        { g with
          active := block :: g.active
          coinsTip := c.view.flushed
          aal := c.aal
          lim := c.lim
          undo := Function.update g.undo hash
            (some ((g.undo hash).getD (writeUndo c.vtxundo))) } := by
  unfold connectTipWith
  split
  · rename_i f hf
    exact .inl ⟨f, hf, rfl, rfl, rfl, rfl, rfl⟩
  · rename_i c hc
    exact .inr ⟨c, hc, rfl, rfl⟩

/-- **`DisconnectTip` changes the active chain only by taking the tip
off**, and shuts the node down only when it cannot read the tip. -/
theorem disconnectTip_cases : (g.disconnectTip H N).1.chain = g.chain ∧
    (g.disconnectTip H N).1.pblock = g.pblock ∧
    ((∃ f, (g.disconnectTip H N).2 = .error f ∧ (g.disconnectTip H N).1.active = g.active ∧
        ((∃ msg, f = .fatal msg ∨ f = .error msg) ∨
          ∃ tip ∈ g.active, g.readBlockFromDisk H N (tip.getHash H) = none)) ∨
      ∃ tip rest pprev, g.active = tip :: rest ∧
        g.chain.mapBlockIndex tip.hashPrevBlock = some pprev ∧
        (g.disconnectTip H N).2 = .ok () ∧ (g.disconnectTip H N).1.active = rest ∧
        (g.disconnectTip H N).1.aal =
          { g.aal with
            state := g.aal.state.setRoots N pprev.hashStateRoot pprev.hashUTXORoot }) := by
  unfold disconnectTip
  split
  · rename_i tip rest pindex hactive htip
    split
    · rename_i hnone
      exact ⟨rfl, rfl, .inl ⟨_, rfl, rfl, .inr ⟨tip, hactive ▸ List.mem_cons_self, hnone⟩⟩⟩
    · exact ⟨rfl, rfl, .inl ⟨_, rfl, rfl, .inl ⟨_, .inl rfl⟩⟩⟩
    rename_i block pprev hread hprev
    split
    · exact ⟨rfl, rfl, .inl ⟨_, rfl, rfl, .inl ⟨_, .inl rfl⟩⟩⟩
    · exact ⟨rfl, rfl, .inl ⟨_, rfl, rfl, .inl ⟨_, .inr rfl⟩⟩⟩
    rename_i d hd
    split
    · refine ⟨rfl, rfl, .inr ⟨tip, rest, pprev, hactive, hprev, rfl, rfl, ?_⟩⟩
      simp only [disconnectBlock, bind_eq_ok, pure_eq_ok] at hd
      obtain ⟨-, -, -, -, -, -, -, -, rfl⟩ := hd
      rfl
    · exact ⟨rfl, rfl, .inl ⟨_, rfl, rfl, .inl ⟨_, .inr rfl⟩⟩⟩
  · exact ⟨rfl, rfl, .inl ⟨_, rfl, rfl, .inl ⟨_, .inl rfl⟩⟩⟩

end NodeState

section Calls

variable {g : NodeState} {call : Call}

/-- The body a call stores, and what was checked of it. -/
structure Stored (H : Hashes) (g g' : NodeState) (call : Call) (I : Intake)
    (block body : CBlock) : Prop where
  delivers : call.delivers = some (I, block)
  header : body.toCBlockHeader = block.toCBlockHeader
  vtx : body.vtx = block.vtx
  stores : StoresBody H g.chain g'.chain body
  checked : block.nVersion ≠ swVersion →
    (∃ block', checkBlock H I.toNode g.lim block true true true = .ok block') ∧
      I.contextualCheckBlock body = .ok ()

/-- A call hands the block it delivers on to `AcceptBlock`, checked or as it
is. -/
structure HandsOn (H : Hashes) (g : NodeState) (call : Call) (I : Intake)
    (block block' : CBlock) (fRequested : Bool) : Prop where
  delivers : call.delivers = some (I, block)
  header : block'.toCBlockHeader = block.toCBlockHeader
  vtx : block'.vtx = block.vtx
  checked : block.nVersion ≠ swVersion →
    (∃ b, checkBlock H I.toNode g.lim block' true true true = .ok b) →
      ∃ b, checkBlock H I.toNode g.lim block true true true = .ok b
  chain : (call.run H g).1.chain = (acceptBlock H I g.lim g.chain block' fRequested).1

/-- **What a call makes of the index and the bodies**: nothing, or an index is
marked, or a block is handed on. -/
theorem Call.run_chain (H : Hashes) (g : NodeState) (call : Call) :
    (call.run H g).1.chain = g.chain ∨
    (∃ hash pindex, g.chain.mapBlockIndex hash = some pindex ∧
      (call.run H g).1.chain = g.chain.setIndex hash { pindex with failedValid := true }) ∨
    ∃ I block block' fRequested, HandsOn H g call I block block' fRequested := by
  cases call with
  | process I block fForceProcessing =>
    rcases processNewBlock_cases H I g.lim g.chain block fForceProcessing with
      hst | ⟨block', hheader, hvtx, hcheck, heq⟩
    · exact .inl hst
    · exact .inr (.inr ⟨I, block, block', _, rfl, hheader, hvtx,
        fun hne _ => ⟨block', hcheck hne⟩, congrArg Prod.fst heq⟩)
  | accept I block => exact .inr (.inr ⟨I, block, block, _, rfl, rfl, rfl, fun _ h => h, rfl⟩)
  | connectTip N hash passed =>
    change (g.connectTip H N hash passed).1.chain = _ ∨ (∃ _ _, _ ∧
      (g.connectTip H N hash passed).1.chain = _) ∨ _
    rcases g.connectTip_cases H N hash passed with ⟨hg, -⟩ | ⟨block, pindex, -, hindex, -, heq⟩
    · exact .inl (by rw [hg])
    rw [heq]
    rcases g.connectTipWith_cases N hash block pindex with
      ⟨f, -, -, -, -, -, hchain⟩ | ⟨c, -, -, hg⟩
    · split at hchain
      · exact .inr (.inl ⟨hash, pindex, hindex, hchain⟩)
      · exact .inl hchain
    · exact .inl (by rw [hg])
  | disconnectTip N => exact .inl (disconnectTip_cases (g := g)).1

/-- **A call stores at most the body it delivers**, under a hash that had
none. -/
theorem Call.run_bodies (H : Hashes) (g : NodeState) (call : Call) :
    LeavesBodies g.chain (call.run H g).1.chain ∨
    ∃ I block body, Stored H g (call.run H g).1 call I block body := by
  rcases call.run_chain H g with hchain | ⟨hash, pindex, hindex, hchain⟩ |
    ⟨I, block, block', fRequested, h⟩
  · rw [hchain]
    exact .inl ⟨rfl, rfl⟩
  · rw [hchain]
    refine .inl ⟨rfl, setIndex_haveData_of_eq ?_⟩
    simp [ChainState.haveData, hindex]
  rcases acceptBlock_cases (r := (acceptBlock H I g.lim g.chain block' fRequested).2) rfl with
    ⟨hleaves, -⟩ | ⟨hstores, hbody⟩
  · rw [h.chain]
    exact .inl hleaves
  refine .inr ⟨I, block, block', h.delivers, h.header, h.vtx, by rwa [h.chain], fun hne => ?_⟩
  have hne' : block'.nVersion ≠ swVersion := by rwa [h.header]
  simp only [checkBody, checkWhen_eq_ok, decide_eq_true_eq, bind_eq_ok] at hbody
  obtain ⟨b, hb, hctx⟩ := hbody hne'
  exact ⟨h.checked hne ⟨b, hb⟩, hctx⟩

/-- The index that would be added depends on the header only. -/
theorem ChainState.addToBlockIndex_congr {block' : CBlock}
    (h : block'.toCBlockHeader = block.toCBlockHeader) :
    st.addToBlockIndex H I block' = st.addToBlockIndex H I block := by
  simp [addToBlockIndex, CBlock.getHash, h]

/-- **A call makes at most one entry of the index**, for the header it
delivers. -/
theorem Call.run_entries (H : Hashes) (g : NodeState) (call : Call) :
    (call.run H g).1.chain.entry = g.chain.entry ∨
    ∃ I block, call.delivers = some (I, block) ∧ (call.run H g).1.chain.entry =
      Function.update g.chain.entry (block.getHash H)
        (some (g.chain.addToBlockIndex H I block).2.fixed) := by
  rcases call.run_chain H g with hchain | ⟨hash, pindex, hindex, hchain⟩ |
    ⟨I, block, block', fRequested, h⟩
  · exact .inl (congrArg ChainState.entry hchain)
  · -- marking an index leaves its entry
    left
    rw [hchain, entry_setIndex, update_eq_self_iff, ChainState.entry, hindex]
    rfl
  rw [h.chain]
  refine acceptBlock_entry.imp_right fun hnew => ⟨I, block, h.delivers, ?_⟩
  rw [hnew, addToBlockIndex_congr h.header, CBlock.getHash, h.header, CBlock.getHash]

/-- An entry that is there after a call was there, or is the one made for
the header delivered. -/
theorem Call.run_entry {e : CBlockIndex} (h : (call.run H g).1.chain.entry hash = some e) :
    g.chain.entry hash = some e ∨ ∃ I block, call.delivers = some (I, block) ∧
      hash = block.getHash H ∧ e = (g.chain.addToBlockIndex H I block).2.fixed := by
  rcases call.run_entries H g with hsame | ⟨I, block, hdel, hnew⟩
  · exact .inl (hsame ▸ h)
  rw [hnew] at h
  by_cases hh : hash = block.getHash H
  · subst hh
    rw [update_self] at h
    exact .inr ⟨I, block, hdel, rfl, (Option.some.inj h).symm⟩
  · rw [update_of_ne hh] at h
    exact .inl h

/-- An entry stays for good. -/
theorem Call.run_entry_kept {e : CBlockIndex} (h : g.chain.entry hash = some e) :
    (call.run H g).1.chain.entry hash = some e := by
  rcases call.run_entries H g with hsame | ⟨I, block, -, hnew⟩
  · rwa [hsame]
  rw [hnew]
  by_cases hh : hash = block.getHash H
  · subst hh
    obtain ⟨pindex, hp, rfl⟩ := map_eq_some_iff.1 h
    simp [ChainState.addToBlockIndex, hp]
  · rwa [update_of_ne hh]

/-- **The block passed along is the last one processed**, its flag apart. -/
theorem Call.run_pblock {b : CBlock} (h : (call.run H g).1.pblock = some b) :
    call.delivers = none ∧ g.pblock = some b ∨ ∃ I block f, call = .process I block f ∧
      b.toCBlockHeader = block.toCBlockHeader ∧ b.vtx = block.vtx ∧
      (block.nVersion ≠ swVersion → checkBlock H I.toNode g.lim block true true true = .ok b ∧
        (acceptBlock H I g.lim g.chain b f).2.toOption.isSome = true) := by
  cases call with
  | process I block f =>
    refine .inr ⟨I, block, f, rfl, ?_⟩
    change activationBlock H I g.lim g.chain block f = some b at h
    unfold activationBlock at h
    split at h
    · obtain ⟨hcheck, hacc⟩ := filter_eq_some_iff.1 h
      have hcheck := eq_ok_of_toOption hcheck
      obtain ⟨hheader, hvtx⟩ := checkBlock_body hcheck
      exact ⟨hheader, hvtx, fun _ => ⟨hcheck, hacc⟩⟩
    · rename_i hsw
      have hb : block = b := by
        repeat' split at h
        all_goals simp_all
      subst hb
      exact ⟨rfl, rfl, fun hne => absurd hne hsw⟩
  | accept I block => cases h
  | connectTip N hash passed =>
    refine .inl ⟨rfl, ?_⟩
    change (g.connectTip H N hash passed).1.pblock = some b at h
    rcases g.connectTip_cases H N hash passed with ⟨hg, -⟩ | ⟨block, pindex, -, -, -, heq⟩
    · rwa [hg] at h
    rw [heq] at h
    rcases g.connectTipWith_cases N hash block pindex with
      ⟨f, -, -, -, -, hpb, -⟩ | ⟨c, -, -, hg⟩
    · rwa [hpb] at h
    · rwa [hg] at h
  | disconnectTip N =>
    have hpb : ((Call.disconnectTip N).run H g).1.pblock = g.pblock :=
      (disconnectTip_cases (g := g)).2.1
    rw [hpb] at h
    exact .inl ⟨rfl, h⟩

/-- A block joins the active chain: `ConnectBlock` accepts a candidate for
its index on the tip. -/
structure Joins (H : Hashes) (g : NodeState) (call : Call) (N : Node) (hash : UInt256)
    (block : CBlock) (pindex : CBlockIndex) (c : Connected) : Prop where
  call_eq : ∃ passed, call = .connectTip N hash passed
  candidate : g.Candidate H hash block
  index : g.chain.mapBlockIndex hash = some pindex
  hashPrevBlock : block.hashPrevBlock = g.tipHash H
  connected : connectBlock H N g.lim block pindex (g.tipIndex H) (.ofBase g.coinsTip) g.aal false =
    .ok c

/-- **The active chain stays, loses its tip, or grows by a block that
joins it.** -/
theorem Call.run_active (H : Hashes) (g : NodeState) (call : Call) :
    (call.run H g).1.active = g.active ∨
    (∃ tip, g.active = tip :: (call.run H g).1.active) ∨
    ∃ N hash block pindex c, Joins H g call N hash block pindex c ∧
      (call.run H g).1.active = block :: g.active := by
  cases call with
  | process I block f => exact .inl rfl
  | accept I block => exact .inl rfl
  | connectTip N hash passed =>
    change (g.connectTip H N hash passed).1.active = _ ∨ _ ∨ ∃ _ _ _ _ _, _ ∧
      (g.connectTip H N hash passed).1.active = _
    rcases g.connectTip_cases H N hash passed with
      ⟨hg, -⟩ | ⟨block, pindex, hblock, hindex, hprev, heq⟩
    · exact .inl (by rw [hg])
    rw [heq]
    rcases g.connectTipWith_cases N hash block pindex with
      ⟨f, -, -, hact, -⟩ | ⟨c, hc, -, hg⟩
    · exact .inl hact
    · exact .inr (.inr ⟨N, hash, block, pindex, c,
        ⟨⟨passed, rfl⟩, candidate_of_blockToConnect hblock, hindex, hprev, hc⟩, by rw [hg]⟩)
  | disconnectTip N =>
    rcases (disconnectTip_cases (g := g)).2.2 with
      ⟨f, -, hact, -⟩ | ⟨tip, rest, pprev, hact, -, -, hrest, -⟩
    · exact .inl hact
    · refine .inr (.inl ⟨tip, ?_⟩)
      change g.active = tip :: (g.disconnectTip H N).1.active
      rw [hrest, hact]

/-- A block of the active chain was there before, or joins it. -/
theorem Call.mem_run_active {H : Hashes} {g : NodeState} {call : Call} {block : CBlock}
    (hmem : block ∈ (call.run H g).1.active) :
    block ∈ g.active ∨ ∃ N hash pindex c, Joins H g call N hash block pindex c := by
  rcases call.run_active H g with hact | ⟨tip, hact⟩ | ⟨N, hash, b, pindex, c, hj, hact⟩
  · exact .inl (hact ▸ hmem)
  · exact .inl (hact ▸ List.mem_cons_of_mem tip hmem)
  rw [hact] at hmem
  rcases List.mem_cons.1 hmem with rfl | hmem
  · exact .inr ⟨N, hash, pindex, c, hj⟩
  · exact .inl hmem

end Calls

end Slucore

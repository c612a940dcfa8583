import Slucore.Validation.Verdict
/-!
# Validation — the rule on the main node

A block of the version with its own path has to pay the main node that
the governance contract names. `ProcessNewBlock` checks this once, when
the block arrives, against the contract state of the tip it then has;
neither `AcceptBlock`, which the import of block files calls, nor
`ConnectBlock` checks it. The rule speaks of the state of the block's
parent, so it holds of the blocks that arrive as children of the tip.
-/


namespace Slucore

/-- **The rule on the main node**, for a block of the version with its own
path whose parent is above height 10000: the second output of its second
transaction pays the key that the contract names in the state of the
parent. `mainNode` is that answer, for the two roots of a state and a
height. -/
def PaysMainNode (mainNode : UInt256 → UInt256 → ℕ → CScript → Bool) (st : ChainState)
    (block : CBlock) : Prop :=
  block.nVersion = swVersion → ∃ e, st.entry block.hashPrevBlock = some e ∧
    (10000 < e.nHeight → ∃ out, block.mainNodeOutput = some out ∧
      mainNode e.hashStateRoot e.hashUTXORoot e.nHeight out.scriptPubKey = true)

/-- A call that delivers such a block does so through `ProcessNewBlock`,
with the parent of the block as the tip and the contract state at the
roots of the tip. The contract is asked in that state. -/
def Call.OnTip (H : Hashes) (mainNode : UInt256 → UInt256 → ℕ → CScript → Bool) (g : NodeState)
    (call : Call) : Prop :=
  ∀ I block, call.delivers = some (I, block) → block.nVersion = swVersion →
    (∃ f, call = .process I block f) ∧ block.hashPrevBlock = g.tipHash H ∧
    (∀ s, I.paysMainNode s = mainNode g.aal.state.trie.root g.aal.state.stateUTXO.root
      I.tipHeight s) ∧
    ∃ e, g.chain.entry (g.tipHash H) = some e ∧ I.tipHeight = e.nHeight ∧
      g.aal.state.trie.root = e.hashStateRoot ∧ g.aal.state.stateUTXO.root = e.hashUTXORoot

/-- The rule holds of everything the node has. -/
structure NodeState.PaysMain (mainNode : UInt256 → UInt256 → ℕ → CScript → Bool)
    (g : NodeState) : Prop where
  stored : ∀ hash body, g.chain.stored hash = some body → PaysMainNode mainNode g.chain body
  pblock : ∀ block, g.pblock = some block → PaysMainNode mainNode g.chain block
  active : ∀ block ∈ g.active, PaysMainNode mainNode g.chain block

variable {H : Hashes} {mainNode : UInt256 → UInt256 → ℕ → CScript → Bool} {g : NodeState}
variable {call : Call} {I : Intake} {block : CBlock}

theorem PaysMainNode.congr {st : ChainState} {block' : CBlock} (h : PaysMainNode mainNode st block)
    (hheader : block'.toCBlockHeader = block.toCBlockHeader) (hvtx : block'.vtx = block.vtx) :
    PaysMainNode mainNode st block' := by
  unfold PaysMainNode CBlock.mainNodeOutput at h ⊢
  rwa [hheader, hvtx]

/-- Entries stay, so the rule does. -/
theorem PaysMainNode.run (h : PaysMainNode mainNode g.chain block) :
    PaysMainNode mainNode (call.run H g).1.chain block := by
  intro hsw
  obtain ⟨e, he, hpays⟩ := h hsw
  exact ⟨e, Call.run_entry_kept he, hpays⟩

/-- A block that does not pay is left where it is. -/
theorem processNewBlock_eq_of_unpaid {lim : BlockLimits} {st : ChainState} {f : Bool}
    (hsw : block.nVersion = swVersion) (hheight : 10000 < I.tipHeight)
    (hpays : ∀ out, block.mainNodeOutput = some out → I.paysMainNode out.scriptPubKey = false) :
    (processNewBlock H I lim st block f).1 = st ∧ activationBlock H I lim st block f = none := by
  unfold processNewBlock activationBlock
  rw [if_neg (not_not.2 hsw), if_neg (not_not.2 hsw), if_pos hheight, if_pos hheight]
  cases hout : block.mainNodeOutput with
  | none => exact ⟨rfl, rfl⟩
  | some out => simp [hpays out hout]

/-- **A block delivered on the tip pays, or the call leaves everything as
it is.** -/
theorem Call.OnTip.pays (h : call.OnTip H mainNode g) (hdel : call.delivers = some (I, block)) :
    PaysMainNode mainNode g.chain block ∨
      (call.run H g).1.chain = g.chain ∧ (call.run H g).1.pblock = none := by
  by_cases hsw : block.nVersion = swVersion
  · obtain ⟨⟨f, rfl⟩, hprev, hasks, e, he, hheight, hroot, hutxo⟩ := h I block hdel hsw
    by_cases hpaid : 10000 < I.tipHeight → ∃ out, block.mainNodeOutput = some out ∧
        I.paysMainNode out.scriptPubKey = true
    · refine .inl fun _ => ⟨e, hprev ▸ he, fun hlt => ?_⟩
      obtain ⟨out, hout, hpays⟩ := hpaid (hheight ▸ hlt)
      refine ⟨out, hout, ?_⟩
      rwa [hasks, hroot, hutxo, hheight] at hpays
    · obtain ⟨hlt, hno⟩ := Classical.not_imp.1 hpaid
      refine .inr (processNewBlock_eq_of_unpaid hsw hlt fun out hout => ?_)
      exact Bool.eq_false_iff.2 fun hp => hno ⟨out, hout, hp⟩
  · exact .inl fun hc => absurd hc hsw

/-- The step lemma. -/
theorem NodeState.PaysMain.step (h : g.PaysMain mainNode) (hcall : call.OnTip H mainNode g) :
    (call.run H g).1.PaysMain mainNode := by
  refine ⟨fun hash body hbody => ?_, fun b hb => ?_, fun block hmem => ?_⟩
  · rcases call.run_bodies H g with ⟨hst, -⟩ | ⟨I, block, body', hs⟩
    · exact (h.stored hash body (hst ▸ hbody)).run
    rcases hs.stores.cases hbody with ⟨-, rfl⟩ | ⟨-, hbody⟩
    · rcases hcall.pays hs.delivers with hpays | ⟨hchain, -⟩
      · exact (hpays.congr hs.header hs.vtx).run
      · have hmissing := hs.stores.missing
        rw [← hchain, hs.stores.haveData_self] at hmissing
        cases hmissing
    · exact (h.stored hash body hbody).run
  · rcases Call.run_pblock hb with ⟨-, hp⟩ | ⟨I, block, f, rfl, hheader, hvtx, -⟩
    · exact (h.pblock b hp).run
    rcases hcall.pays rfl with hpays | ⟨-, hnone⟩
    · exact (hpays.congr hheader hvtx).run
    · rw [hnone] at hb
      cases hb
  · refine PaysMainNode.run ?_
    rcases Call.mem_run_active hmem with hmem | ⟨N, hash, pindex, c, hj⟩
    · exact h.active block hmem
    · rcases hj.candidate with ⟨-, hpass | ⟨body, hbody, rfl⟩⟩
      · exact h.pblock block hpass
      · exact (h.stored hash body hbody).congr rfl rfl

/-- **Every block of the active chain pays the main node of its parent**, in
every state of every run that delivers the blocks of the version with
its own path on the tip. -/
theorem active_blocks_pay_main_node {g₀ : NodeState} (h : g₀.PaysMain mainNode)
    (hrun : Run H (fun g call => call.OnTip H mainNode g) g₀ g) :
    ∀ block ∈ g.active, PaysMainNode mainNode g.chain block :=
  (hrun.induct h fun _ _ _ hcall hg => hg.step hcall).active

/-! ## A block that is imported -/

/-- The answer of a contract that names the owner of the script `OP_1`. -/
def namedScript (_ _ : UInt256) (_ : ℕ) (s : CScript) : Bool := s == [0x51]

/-- A node at height 10001 of a chain with proof of work. -/
def tallIntake : Intake :=
  { sampleIntake with
    consensus := { sampleParams with nLastPOWBlock := 20000 }
    tipHeight := 10001
    paysMainNode := namedScript 0 0 10001 }

/-- The node with a tip at that height, of hash 7, and one coin. -/
def tallState : NodeState :=
  { genesisState with
    chain :=
      { mapBlockIndex := fun hash =>
          if hash = 7 then some { sampleParent with nHeight := 10001 } else none
        stored := fun hash => if hash = 7 then some genesisBlock else none }
    coinsTip := (sampleView 20000000).base }

theorem tallState_pays : tallState.PaysMain namedScript := by
  have hgenesis : PaysMainNode namedScript tallState.chain genesisBlock := fun h => by cases h
  refine ⟨fun hash body hbody => ?_, (fun b hb => by cases hb), fun block hmem => ?_⟩
  · simp only [tallState] at hbody
    split at hbody
    · obtain ⟨⟩ := hbody
      exact hgenesis
    · cases hbody
  · obtain rfl := List.mem_singleton.1 hmem
    exact hgenesis

/-- A transaction that pays the named script with its second output. -/
def payingTx : CTransaction where
  vin := [{ prevout := ⟨100, 0⟩, scriptSig := [1] }]
  vout := [⟨10, [0x52]⟩, ⟨20, [0x51]⟩]

/-- A block at height 10002 of the version with its own path, with these
transactions after the coinbase. -/
def tallBlock (txs : List CTransaction) : CBlock :=
  { coinbaseBlock 10002 901 7 with
    nVersion := swVersion
    vtx := coinbaseAt 10002 :: txs
    hashMerkleRoot := (blockMerkleRoot coinbaseHashes (coinbaseAt 10002 :: txs)).1 }

/-- The index a block at this height gets. -/
def tallIndex (nTx : ℕ) : CBlockIndex :=
  { sampleParent with
    nHeight := 10002, blockHash := 901, nTime := 901, nChainWork := 1, nTx := nTx, haveData := true }

/-- The node after a call delivered a block and the block was connected. -/
def tallConnected (call : Call) : NodeState :=
  ((Call.connectTip tallIntake.toNode 901 true).run coinbaseHashes
    (call.run coinbaseHashes tallState).1).1

theorem payingBlock_pays : PaysMainNode namedScript
    (tallConnected (.process tallIntake (tallBlock [payingTx]) true)).chain
    (tallBlock [payingTx]) := by
  have hrun : Run coinbaseHashes (fun g call => call.OnTip coinbaseHashes namedScript g) tallState
      (tallConnected (.process tallIntake (tallBlock [payingTx]) true)) := by
    refine .call _ (.call _ .start trivial ?_) ⟨tallIndex 2, by decide, rfl, rfl⟩ ?_
    · intro I block hdel _
      obtain ⟨⟩ := hdel
      exact ⟨⟨true, rfl⟩, rfl, fun _ => rfl,
        ({ sampleParent with nHeight := 10001 } : CBlockIndex).fixed, rfl, rfl, rfl, rfl⟩
    · intro I block hdel
      cases hdel
  have hhead : (tallConnected (.process tallIntake (tallBlock [payingTx]) true)).active.head? =
      some (tallBlock [payingTx]) := by decide
  exact active_blocks_pay_main_node tallState_pays hrun _ (List.mem_of_mem_head? hhead)

/-- **An imported block need not pay the main node:** a block with nothing
but a coinbase gets on the active chain at height 10002. -/
theorem unpaid_block_active : ∃ (H : Hashes)
    (mainNode : UInt256 → UInt256 → ℕ → CScript → Bool) (g₀ g : NodeState) (I : Intake)
    (block : CBlock), g₀.PaysMain mainNode ∧
      (∀ s, I.paysMainNode s = mainNode g₀.aal.state.trie.root g₀.aal.state.stateUTXO.root
        I.tipHeight s) ∧
      Run H (fun _ call => ∀ I' block', call.delivers = some (I', block') →
        call = .accept I block) g₀ g ∧
      block ∈ g.active ∧ ¬ PaysMainNode mainNode g.chain block := by
  refine ⟨coinbaseHashes, namedScript, tallState, tallConnected (.accept tallIntake (tallBlock [])),
    tallIntake, tallBlock [], tallState_pays, fun _ => rfl,
    .call _ (.call _ .start trivial fun _ _ _ => rfl) ?_ (fun _ _ hdel => by cases hdel), ?_,
    fun hpays => ?_⟩
  · exact ⟨tallIndex 1, by decide, rfl, rfl⟩
  · have hhead : (tallConnected (.accept tallIntake (tallBlock []))).active.head? =
        some (tallBlock []) := by decide
    exact List.mem_of_mem_head? hhead
  · obtain ⟨e, he, hheight⟩ := hpays rfl
    have hentry : (tallConnected (.accept tallIntake (tallBlock []))).chain.entry 7 =
        some ({ sampleParent with nHeight := 10001 } : CBlockIndex).fixed :=
      Call.run_entry_kept (Call.run_entry_kept rfl)
    obtain rfl := Option.some.inj (hentry.symm.trans he)
    obtain ⟨out, hout, -⟩ := hheight (by decide)
    cases hout

end Slucore

import Slucore.Validation.Verdict
import Slucore.Validation.WitnessBinding
/-!
# Validation — the contextual rules on the active chain

`ConnectBlock` does not call `ContextualCheckBlock` again, so that the
transactions of the active chain are final and their witness data stands
under commitments rests on what was checked when the bodies arrived.
Two kinds of bodies arrive without that check: those of the version with
its own path, and those for a header that has a body already, which are
not stored but are passed on to `ActivateBestChain`.
-/


namespace Slucore

/-- The rules of `ContextualCheckBlock` on finality and witness data. -/
structure ContextualRules (H : Hashes) (P : ParentContext) (block : CBlock) : Prop where
  final : ∀ tx ∈ block.vtx, tx.isFinalTx P.nHeight (P.lockTimeCutoff block) = true
  witness : P.segwitActive = true → (∃ tx ∈ block.vtx, tx.hasWitness = true) →
    ∃ commitpos coinbase i reserved out, getWitnessCommitmentIndex block = some commitpos ∧
      Committed H block commitpos coinbase i reserved out

variable {H : Hashes} {parentOf : UInt256 → ParentContext} {block : CBlock} {g : NodeState}
variable {call : Call}

theorem Committed.congr {block' : CBlock} {commitpos : ℕ} {coinbase : CTransaction} {i : CTxIn}
    {reserved : List UInt8} {out : CTxOut} (h : Committed H block commitpos coinbase i reserved out)
    (hheader : block'.toCBlockHeader = block.toCBlockHeader) (hvtx : block'.vtx = block.vtx) :
    Committed H block' commitpos coinbase i reserved out := by
  obtain ⟨hhead, hvin, hwit, hlen, hvout, hcommit⟩ := h
  refine ⟨by rw [hvtx, hhead], hvin, hwit, hlen, hvout, ?_⟩
  rw [hcommit, blockWitnessMerkleRoot, blockWitnessMerkleRoot, hheader, hvtx]

theorem ContextualRules.congr {P : ParentContext} {block' : CBlock} (h : ContextualRules H P block)
    (hheader : block'.toCBlockHeader = block.toCBlockHeader) (hvtx : block'.vtx = block.vtx) :
    ContextualRules H P block' := by
  refine ⟨?_, fun hactive hex => ?_⟩
  · rw [hvtx, ParentContext.lockTimeCutoff, hheader]
    exact h.final
  rw [hvtx] at hex
  obtain ⟨pos, coinbase, i, reserved, out, hpos, hc⟩ := h.witness hactive hex
  refine ⟨pos, coinbase, i, reserved, out, ?_, hc.congr hheader hvtx⟩
  rw [← hpos, getWitnessCommitmentIndex, getWitnessCommitmentIndex, hvtx]

/-- **A body that passes both checks keeps the rules.** -/
theorem contextualRules_of_check {P : ParentContext} {consensus : ConsensusParams}
    (hshape : Shape block) (h : contextualCheckBlock H consensus P block = .ok ()) :
    ContextualRules H P block := by
  simp only [contextualCheckBlock, bind_eq_ok, require_eq_ok, List.all_eq_true] at h
  obtain ⟨-, hfinal, -, -, hwitness⟩ := h
  refine ⟨hfinal, fun hactive hex => ?_⟩
  rcases checkWitness_cases (H := H) (P := P) hshape with ⟨-, hcases⟩ | ⟨reason, hbad⟩
  · rcases hcases with ⟨-, hcommitted⟩ | ⟨-, hno⟩
    · exact hcommitted
    · obtain ⟨tx, hmem, hwit⟩ := hex
      rw [hno tx hmem] at hwit
      cases hwit
  · rw [hwitness] at hbad
    cases hbad

/-! ## Whole runs -/

/-- The rules hold of what the node has: of the stored bodies, of the
active chain, and of the block passed along where its header has a
body. -/
structure NodeState.KeepsRules (H : Hashes) (parentOf : UInt256 → ParentContext) (g : NodeState) :
    Prop where
  stored : ∀ hash body, g.chain.stored hash = some body →
    ContextualRules H (parentOf body.hashPrevBlock) body
  present : ∀ hash, g.chain.haveData hash = (g.chain.stored hash).isSome
  active : ∀ block ∈ g.active, ContextualRules H (parentOf block.hashPrevBlock) block
  pblock : ∀ block, g.pblock = some block → g.chain.haveData (block.getHash H) = true →
    ContextualRules H (parentOf block.hashPrevBlock) block

/-- A call that delivers a block of another version than the one with its
own path, to a header that has no body or this one. -/
def Call.Ordinary (H : Hashes) (parentOf : UInt256 → ParentContext) (g : NodeState)
    (call : Call) : Prop :=
  ∀ I block, call.delivers = some (I, block) → I.Contextual H parentOf ∧ block.Vouched H ∧
    block.nVersion ≠ swVersion ∧
    ∀ body, g.chain.stored (block.getHash H) = some body →
      body.toCBlockHeader = block.toCBlockHeader ∧ body.vtx = block.vtx

/-- What an ordinary call stores keeps the rules. -/
theorem Stored.contextualRules {g' : NodeState} {I : Intake} {body : CBlock}
    (h : Stored H g g' call I block body) (hcall : call.Ordinary H parentOf g) :
    ContextualRules H (parentOf body.hashPrevBlock) body := by
  obtain ⟨hctx, hv, hne, -⟩ := hcall I block h.delivers
  obtain ⟨⟨block', hcheck⟩, hcontextual⟩ := h.checked hne
  rw [hctx] at hcontextual
  exact contextualRules_of_check ((shape_of_checkBlockWith hv hcheck).1.congr h.header h.vtx)
    hcontextual

/-- The step lemma. -/
theorem NodeState.KeepsRules.step (h : g.KeepsRules H parentOf) (henabled : call.Enabled g)
    (hcall : call.Ordinary H parentOf g) : (call.run H g).1.KeepsRules H parentOf := by
  have hbodies := call.run_bodies H g
  refine ⟨fun hash body hbody => ?_, fun hash => ?_, fun block hmem => ?_, fun b hb hdata => ?_⟩
  · rcases hbodies with ⟨hst, -⟩ | ⟨I, block, body', hs⟩
    · exact h.stored hash body (hst ▸ hbody)
    · rcases hs.stores.cases hbody with ⟨rfl, rfl⟩ | ⟨-, hbody⟩
      · exact hs.contextualRules hcall
      · exact h.stored hash body hbody
  · rcases hbodies with ⟨hst, hd⟩ | ⟨I, block, body, hs⟩
    · rw [hst, hd]
      exact h.present hash
    rw [hs.stores.haveData, hs.stores.stored]
    by_cases hh : hash = body.getHash H
    · simp [hh]
    · simp only [Function.update_of_ne hh]
      exact h.present hash
  · rcases Call.mem_run_active hmem with hmem | ⟨N, hash, pindex, c, hj⟩
    · exact h.active block hmem
    · -- a block that is connected was passed along or is read from disk
      obtain ⟨passed, rfl⟩ := hj.call_eq
      obtain ⟨p, hp, hdata, -⟩ := henabled
      rcases hj.candidate with ⟨rfl, hpass | ⟨body, hbody, rfl⟩⟩
      · exact h.pblock block hpass (by simp [ChainState.haveData, hp, hdata])
      · exact (h.stored _ body hbody).congr rfl rfl
  · rcases Call.run_pblock hb with ⟨hnone, hp⟩ | ⟨I, block, f, rfl, hheader, hvtx, -⟩
    · rcases hbodies with ⟨-, hd⟩ | ⟨I, block, body, hs⟩
      · exact h.pblock b hp (hd ▸ hdata)
      · rw [hs.delivers] at hnone
        cases hnone
    · have hhash : b.getHash H = block.getHash H := by rw [CBlock.getHash, hheader, CBlock.getHash]
      rcases hbodies with ⟨-, hd⟩ | ⟨I', block', body, hs⟩
      · -- the header has a body, which is this one
        rw [hd, h.present, hhash] at hdata
        obtain ⟨body, hbody⟩ := Option.isSome_iff_exists.1 hdata
        obtain ⟨hheader', hvtx'⟩ := (hcall I block rfl).2.2.2 body hbody
        have hrules : ContextualRules H (parentOf body.hashPrevBlock) b :=
          (h.stored _ body hbody).congr (hheader.trans hheader'.symm) (hvtx.trans hvtx'.symm)
        rwa [hheader', ← hheader] at hrules
      · obtain ⟨rfl, rfl⟩ := Prod.mk.inj (Option.some.inj hs.delivers)
        have hrules : ContextualRules H (parentOf body.hashPrevBlock) b :=
          (hs.contextualRules hcall).congr (hheader.trans hs.header.symm) (hvtx.trans hs.vtx.symm)
        rwa [hs.header, ← hheader] at hrules

/-- **Every block of the active chain keeps the contextual rules**, in every
state of every run whose calls are ordinary. -/
theorem active_blocks_keep_rules {g₀ : NodeState} (h : g₀.KeepsRules H parentOf)
    (hrun : Run H (fun g call => call.Ordinary H parentOf g) g₀ g) :
    ∀ block ∈ g.active, ContextualRules H (parentOf block.hashPrevBlock) block :=
  (hrun.induct h fun _ _ henabled hcall hg => hg.step henabled hcall).active

/-! ## A block that is not final -/

theorem genesisState_keepsRules :
    genesisState.KeepsRules coinbaseHashes fun _ => genesisContext := by
  have hrules : ContextualRules coinbaseHashes genesisContext genesisBlock :=
    ⟨by decide, fun h => by cases h⟩
  refine ⟨fun hash body hbody => ?_, fun hash => ?_, fun block hmem => ?_, fun b hb => by cases hb⟩
  · simp only [genesisState] at hbody
    split at hbody
    · obtain ⟨⟩ := hbody
      exact hrules
    · cases hbody
  · by_cases h7 : hash = 7
    · simp [ChainState.haveData, genesisState, h7, sampleParent]
    · simp [ChainState.haveData, genesisState, h7]
  · obtain rfl := List.mem_singleton.1 hmem
    exact hrules

theorem coinbaseBlock_keeps_rules : ContextualRules coinbaseHashes genesisContext
    { coinbaseBlock 1 901 7 with fChecked := true } := by
  have hrun : Run coinbaseHashes (fun g call => call.Ordinary coinbaseHashes (fun _ => genesisContext) g)
      genesisState (connectedState (coinbaseBlock 1 901 7)) := by
    refine .call _ (.call _ .start trivial ?_) ?_ (fun _ _ hdel => by cases hdel)
    · intro I block hdel
      obtain ⟨⟩ := hdel
      exact ⟨fun _ => rfl, (fun h => by cases h), by decide, fun body hbody => by cases hbody⟩
    · exact ⟨{ sampleParent with nHeight := 1, blockHash := 901, nTime := 901, nChainWork := 1 },
        by decide, rfl, rfl⟩
  have hhead : (connectedState (coinbaseBlock 1 901 7)).active.head? =
      some { coinbaseBlock 1 901 7 with fChecked := true } := by decide
  exact active_blocks_keep_rules genesisState_keepsRules hrun _ (List.mem_of_mem_head? hhead)

/-- A coinbase that is final from height 100 on. -/
def lateCoinbase : CTransaction where
  vin := [{ prevout := .null, scriptSig := pushInt64 1 ++ [0], nSequence := 0 }]
  vout := [⟨0, [0x51]⟩]
  nLockTime := 100

/-- A block of the version with its own path at height 1, with it. -/
def lateBlock : CBlock :=
  { coinbaseBlock 1 901 7 with nVersion := swVersion, vtx := [lateCoinbase] }

/-- **A transaction that is not final gets on the active chain.** -/
theorem nonfinal_block_active : ∃ (H : Hashes) (parentOf : UInt256 → ParentContext)
    (g₀ g : NodeState) (block : CBlock) (tx : CTransaction), g₀.KeepsRules H parentOf ∧
      Run H (fun _ call => ∀ I block, call.delivers = some (I, block) →
        I.Contextual H parentOf ∧ block.fChecked = false) g₀ g ∧
      block ∈ g.active ∧ tx ∈ block.vtx ∧
      tx.isFinalTx (parentOf block.hashPrevBlock).nHeight
        ((parentOf block.hashPrevBlock).lockTimeCutoff block) = false := by
  refine ⟨coinbaseHashes, fun _ => genesisContext, genesisState, connectedState lateBlock, lateBlock,
    lateCoinbase, genesisState_keepsRules, .call _ (.call _ .start trivial ?_) ?_ ?_, ?_,
    List.mem_singleton_self _, by decide⟩
  · intro I block hdel
    obtain ⟨⟩ := hdel
    exact ⟨fun _ => rfl, rfl⟩
  · exact ⟨{ sampleParent with nHeight := 1, blockHash := 901, nTime := 901, nChainWork := 1 },
      by decide, rfl, rfl⟩
  · intro I block hdel
    cases hdel
  · have hhead : (connectedState lateBlock).active.head? = some lateBlock := by decide
    exact List.mem_of_mem_head? hhead

end Slucore

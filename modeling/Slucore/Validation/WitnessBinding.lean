import Slucore.Validation.Contextual
import Slucore.Validation.Issuance
/-!
# Validation — witness data is bound to the header

The Merkle root of the header determines the transactions without their
witnesses, and with them the commitment of the coinbase; the commitment
determines the witness tree and the reserved value in the coinbase, and
the tree determines the witness of every transaction that has a leaf of
its own. The coinstake of a proof-of-stake block has none: its leaf is
null, so its witness is the one thing that can change.
-/


namespace Slucore

open List CTransaction Option

namespace CTransaction

variable {H : Hashes} {tx t t' : CTransaction}

/-- A transaction without witness data is what its id is computed from. -/
theorem stripWitness_of_hasWitness_eq_false (h : tx.hasWitness = false) :
    tx.stripWitness = tx := by
  have hvin : tx.vin.map (fun i => { i with scriptWitness := [] }) = tx.vin := by
    refine (map_congr_left fun i hi => ?_).trans (List.map_id _)
    have hnone : i.scriptWitness = [] := by
      simpa using List.any_eq_false.1 h i hi
    rw [id, ← hnone]
  rw [stripWitness, hvin]

/-- The witness hash is that of the whole transaction, with or without
witness data. -/
theorem getWitnessHash_eq : tx.getWitnessHash H = H.serializeHash tx := by
  unfold getWitnessHash
  split
  · rfl
  · rename_i h
    rw [getHash, stripWitness_of_hasWitness_eq_false (by simpa using h)]

theorem vout_eq_of_stripWitness (h : t.stripWitness = t'.stripWitness) : t.vout = t'.vout :=
  congrArg (fun t => t.vout) h

/-- Finality does not look at witness data. -/
theorem isFinalTx_stripWitness {nBlockHeight : ℕ} {nBlockTime : ℤ} :
    tx.stripWitness.isFinalTx nBlockHeight nBlockTime = tx.isFinalTx nBlockHeight nBlockTime := by
  have hall : tx.stripWitness.vin.all (fun i => i.nSequence == sequenceFinal) =
      tx.vin.all fun i => i.nSequence == sequenceFinal := by
    simp [stripWitness, Function.comp_def]
  unfold isFinalTx
  rw [hall]
  rfl

/-- A transaction with one input is the transaction without witness data
and the witness of that input. -/
theorem eq_of_stripWitness_of_single {i i' : CTxIn} (h : t.stripWitness = t'.stripWitness)
    (hi : t.vin = [i]) (hi' : t'.vin = [i']) (hw : i.scriptWitness = i'.scriptWitness) :
    t = t' := by
  obtain ⟨vin, vout, nVersion, nLockTime⟩ := t
  obtain ⟨vin', vout', nVersion', nLockTime'⟩ := t'
  obtain ⟨prevout, scriptSig, nSequence, scriptWitness⟩ := i
  obtain ⟨prevout', scriptSig', nSequence', scriptWitness'⟩ := i'
  subst hi hi' hw
  simpa [stripWitness] using h

end CTransaction

variable {H : Hashes}

/-- The bytes of one length that spell a number are determined by it. -/
theorem readLE_inj {l l' : List UInt8} (hlen : l.length = l'.length)
    (h : readLE l = readLE l') : l = l' := by
  induction l generalizing l' with
  | nil => exact (length_eq_zero_iff.1 hlen.symm).symm
  | cons b l ih =>
    obtain ⟨b', l', rfl⟩ := exists_cons_of_length_eq_add_one hlen.symm
    rw [readLE, readLE] at h
    have hb : b.toNat < 256 := b.toNat_lt
    have hb' : b'.toNat < 256 := b'.toNat_lt
    obtain rfl : b = b' := UInt8.toNat_inj.1 (by omega)
    rw [ih (by simpa using hlen) (by omega)]

/-- The hash of a transaction tells these transactions apart, with witness
data and without. -/
def TellsApart (H : Hashes) (txs : List CTransaction) : Prop :=
  ∀ t ∈ txs ++ txs.map CTransaction.stripWitness,
    ∀ t' ∈ txs ++ txs.map CTransaction.stripWitness,
      H.serializeHash t = H.serializeHash t' → t = t'

/-- Two bodies of one header, of one length, that their Merkle root commits
to: without witness data they are equal. -/
theorem stripWitness_eq_of_rootCommits {block block' : CBlock}
    (hH : Function.Injective2 H.sha256D64) (htx : TellsApart H (block.vtx ++ block'.vtx))
    (hheader : block.toCBlockHeader = block'.toCBlockHeader)
    (hlen : block.vtx.length = block'.vtx.length)
    (h : block.RootCommits H) (h' : block'.RootCommits H) :
    block.vtx.map CTransaction.stripWitness = block'.vtx.map CTransaction.stripWitness := by
  have hroots : (blockMerkleRoot H block.vtx).1 = (blockMerkleRoot H block'.vtx).1 := by
    rw [← h.1, ← h'.1, hheader]
  have hids := computeMerkleRoot_inj hH (by simpa using hlen) hroots
  -- compare the two bodies position by position
  refine ext_getElem (by simpa using hlen) fun n hn hn' => ?_
  simp only [length_map] at hn hn'
  have hid : (block.vtx[n]).getHash H = (block'.vtx[n]).getHash H := by
    have := getElem_of_eq hids (i := n) (by simpa using hn)
    simpa using this
  simp only [getElem_map]
  refine htx _ ?_ _ ?_ hid <;> simp only [map_append, mem_append]
  · exact .inr (.inl (List.mem_map_of_mem (getElem_mem hn)))
  · exact .inr (.inr (List.mem_map_of_mem (getElem_mem hn')))

/-! ## What does not depend on witness data -/

section Stripped

variable {block block' : CBlock} {consensus : ConsensusParams} {P : ParentContext}

/-- Two bodies that are equal without witness data. -/
def SameStripped (block block' : CBlock) : Prop :=
  block.vtx.map CTransaction.stripWitness = block'.vtx.map CTransaction.stripWitness

section

variable (h : SameStripped block block')
include h

theorem SameStripped.head? :
    block.vtx.head?.map CTransaction.stripWitness =
      block'.vtx.head?.map CTransaction.stripWitness := by
  have := congrArg List.head? h
  simpa using this

theorem SameStripped.final_eq {nBlockHeight : ℕ}
    {nBlockTime : ℤ} : (block.vtx.all fun tx => tx.isFinalTx nBlockHeight nBlockTime) =
      block'.vtx.all fun tx => tx.isFinalTx nBlockHeight nBlockTime := by
  have := congrArg (fun l => l.all fun tx => tx.isFinalTx nBlockHeight nBlockTime) h
  simpa [Function.comp_def, isFinalTx_stripWitness] using this

/-- A field of the coinbase that stripping keeps. -/
theorem SameStripped.coinbase_eq {α : Type}
    {f : CTransaction → Option α} (hf : ∀ tx, f tx.stripWitness = f tx) :
    block.vtx.head?.bind f = block'.vtx.head?.bind f := by
  have hbind : ∀ b : CBlock,
      (b.vtx.head?.map CTransaction.stripWitness).bind f = b.vtx.head?.bind f := by
    intro b
    cases b.vtx.head? with
    | none => rfl
    | some tx => exact hf tx
  rw [← hbind block, h.head?, hbind block']

theorem SameStripped.commitmentIndex_eq :
    getWitnessCommitmentIndex block = getWitnessCommitmentIndex block' := by
  have hvout : block.vtx.head?.map CTransaction.vout = block'.vtx.head?.map CTransaction.vout := by
    simpa [map_eq_bind] using
      h.coinbase_eq (f := some ∘ CTransaction.vout) fun tx => rfl
  rw [getWitnessCommitmentIndex, getWitnessCommitmentIndex, hvout]

theorem SameStripped.height_eq {nHeight : ℕ} :
    checkContextualHeight consensus nHeight block =
      checkContextualHeight consensus nHeight block' := by
  have hsig : (block.vtx.head?.bind fun tx => tx.vin.head?.map CTxIn.scriptSig) =
      block'.vtx.head?.bind fun tx => tx.vin.head?.map CTxIn.scriptSig := by
    refine h.coinbase_eq fun tx => ?_
    cases hvin : tx.vin <;> simp [CTransaction.stripWitness, hvin]
  rw [checkContextualHeight, checkCoinbaseHeight, hsig]
  rfl

/-- Of two such bodies under one header, the second can only fail in the
check of its witness data. -/
theorem SameStripped.contextual_eq (hheader : block.toCBlockHeader = block'.toCBlockHeader)
    (hok : contextualCheckBlock H consensus P block = .ok ()) :
    contextualCheckBlock H consensus P block' = checkWitness H P block' := by
  simp only [contextualCheckBlock, bind_eq_ok] at hok
  obtain ⟨⟨⟩, hfinal, ⟨⟩, hheight, -⟩ := hok
  have hcutoff : P.lockTimeCutoff block = P.lockTimeCutoff block' := by
    rw [ParentContext.lockTimeCutoff, ParentContext.lockTimeCutoff, hheader]
  rw [h.final_eq, hcutoff] at hfinal
  rw [h.height_eq] at hheight
  rw [contextualCheckBlock, hfinal, hheight]
  rfl

end

end Stripped

/-! ## The check of witness data -/

theorem CTransaction.exists_vin_of_isCoinBase {tx : CTransaction} (h : tx.isCoinBase = true) :
    ∃ i, tx.vin = [i] := by
  unfold CTransaction.isCoinBase at h
  split at h
  · exact ⟨_, ‹_›⟩
  · cases h

/-- What a body is like whose coinbase commits to its witness data. -/
structure Committed (H : Hashes) (block : CBlock) (commitpos : ℕ) (coinbase : CTransaction)
    (i : CTxIn) (reserved : List UInt8) (out : CTxOut) : Prop where
  head : block.vtx.head? = some coinbase
  vin : coinbase.vin = [i]
  witness : i.scriptWitness = [reserved]
  length : reserved.length = 32
  vout : coinbase.vout[commitpos]? = some out
  commitment : readLE ((out.scriptPubKey.drop 6).take 32) =
    H.sha256D64 (blockWitnessMerkleRoot H block).1 (readLE reserved)

variable {block block' : CBlock} {commitpos : ℕ} {P : ParentContext}

/-- The commitment of a block with the right shape is checked or found
wrong; nothing is read out of range. -/
theorem checkWitnessCommitment_cases (hshape : Shape block)
    (hpos : getWitnessCommitmentIndex block = some commitpos) :
    (checkWitnessCommitment H block commitpos = .ok () ∧
      ∃ coinbase i reserved out, Committed H block commitpos coinbase i reserved out) ∨
    ∃ reason, checkWitnessCommitment H block commitpos = .error (.dos 100 reason true) := by
  obtain ⟨⟨coinbase, rest, hfirst, hcs⟩, -⟩ := hshape
  obtain ⟨i, hi⟩ := exists_vin_of_isCoinBase hfirst.isCoinBase
  have hhead : block.vtx.head? = some coinbase := by rw [hfirst.vtx_eq, List.head?_cons]
  have hlen : (!block.isProofOfStake || decide (2 ≤ block.vtx.length)) = true := by
    cases hps : block.isProofOfStake with
    | false => rfl
    | true =>
      obtain ⟨coinstake, others, hsecond⟩ := hcs hps
      simp [hfirst.vtx_eq, hsecond.rest_eq]
  have hwit : coinbaseWitness block = some i.scriptWitness := by
    simp [coinbaseWitness, hhead, hi]
  obtain ⟨out, hout⟩ : ∃ out, coinbase.vout[commitpos]? = some out := by
    simp only [getWitnessCommitmentIndex, hhead, map_eq_some_iff] at hpos
    obtain ⟨⟨out, n⟩, hlast, rfl⟩ := hpos
    have hmem := (mem_filter.1 (List.mem_of_getLast? hlast)).1
    exact ⟨out, List.mem_zipIdx_iff_getElem?.1 hmem⟩
  have hvout : (block.vtx.head?.bind fun tx => tx.vout[commitpos]?) = some out := by
    rw [hhead, bind_some, hout]
  unfold checkWitnessCommitment
  simp only [hlen, hwit, hvout, require, orThrow, ok_bind]
  -- the witness of the coinbase is one value of 32 bytes, and it matches
  match hstack : i.scriptWitness with
  | [] => exact .inr ⟨_, rfl⟩
  | _ :: _ :: _ => exact .inr ⟨_, rfl⟩
  | [reserved] =>
    by_cases h32 : reserved.length = 32
    · by_cases hmatch : readLE ((out.scriptPubKey.drop 6).take 32) =
          H.sha256D64 (blockWitnessMerkleRoot H block).1 (readLE reserved)
      · refine .inl ⟨?_, coinbase, i, reserved, out, hhead, hi, hstack, h32, hout, hmatch⟩
        simp [h32, hmatch]
      · refine .inr ⟨"bad-witness-merkle-match", ?_⟩
        simp [h32, beq_eq_false_iff_ne.2 hmatch]
    · refine .inr ⟨"bad-witness-nonce-size", ?_⟩
      simp [beq_eq_false_iff_ne.2 h32]

/-- The witness data of a block with the right shape passes, under a
commitment or because there is none, or is rejected as possibly
corrupted. -/
theorem checkWitness_cases (hshape : Shape block) :
    (checkWitness H P block = .ok () ∧
      ((P.segwitActive = true ∧ ∃ commitpos coinbase i reserved out,
          getWitnessCommitmentIndex block = some commitpos ∧
          Committed H block commitpos coinbase i reserved out) ∨
        ((P.segwitActive = true → getWitnessCommitmentIndex block = none) ∧
          ∀ tx ∈ block.vtx, tx.hasWitness = false))) ∨
    ∃ reason, checkWitness H P block = .error (.dos 100 reason true) := by
  unfold checkWitness
  split
  · rename_i commitpos hif
    obtain ⟨hactive, hpos⟩ : P.segwitActive = true ∧
        getWitnessCommitmentIndex block = some commitpos := by
      split at hif
      · exact ⟨‹_›, hif⟩
      · cases hif
    rcases checkWitnessCommitment_cases (H := H) hshape hpos with
      ⟨hok, coinbase, i, reserved, out, hcommitted⟩ | hbad
    · exact .inl ⟨hok, .inl ⟨hactive, commitpos, coinbase, i, reserved, out, hpos, hcommitted⟩⟩
    · exact .inr hbad
  · rename_i hif
    unfold require
    split
    · rename_i hall
      refine .inl ⟨rfl, .inr ⟨fun hactive => ?_, fun tx htx => ?_⟩⟩
      · rwa [if_pos hactive] at hif
      · simpa using List.all_eq_true.1 hall tx htx
    · exact .inr ⟨_, rfl⟩

/-- The transactions at position `n` are equal, other than at the position
of a coinstake. -/
def SameButCoinstake (block block' : CBlock) : Prop :=
  ∀ n, (block.isProofOfStake = true → n ≠ 1) → block.vtx[n]? = block'.vtx[n]?

/-- A proof-of-work block has no coinstake. -/
theorem SameButCoinstake.vtx_eq (h : SameButCoinstake block block')
    (hpow : block.isProofOfWork = true) : block.vtx = block'.vtx := by
  have hps : block.isProofOfStake = false := by simpa [CBlockHeader.isProofOfWork] using hpow
  refine ext_getElem? fun n => h n fun hn => ?_
  rw [hps] at hn
  cases hn

/-- **Two bodies with commitments that match.** -/
theorem Committed.sameButCoinstake {coinbase coinbase' : CTransaction} {i i' : CTxIn}
    {reserved reserved' : List UInt8} {out out' : CTxOut}
    (h : Committed H block commitpos coinbase i reserved out)
    (h' : Committed H block' commitpos coinbase' i' reserved' out')
    (hH : Function.Injective2 H.sha256D64) (htx : TellsApart H (block.vtx ++ block'.vtx))
    (hheader : block.toCBlockHeader = block'.toCBlockHeader) (hs : SameStripped block block') :
    SameButCoinstake block block' := by
  have hlen : block.vtx.length = block'.vtx.length := by
    simpa using congrArg List.length hs
  have hcoinbase : coinbase.stripWitness = coinbase'.stripWitness := by
    have := hs.head?
    rw [h.head, h'.head] at this
    exact some.inj this
  -- the commitment is the same, so are the tree and the reserved value
  obtain rfl : out = out' := by
    have := h.vout
    rw [vout_eq_of_stripWitness hcoinbase, h'.vout] at this
    exact (some.inj this).symm
  obtain ⟨hroot, hreserved⟩ := hH (h.commitment.symm.trans h'.commitment)
  obtain rfl : reserved = reserved' :=
    readLE_inj (by rw [h.length, h'.length]) hreserved
  have hcb : coinbase = coinbase' := eq_of_stripWitness_of_single hcoinbase h.vin
    h'.vin (by rw [h.witness, h'.witness])
  have hleaves := computeMerkleRoot_inj hH (by simpa using hlen) hroot
  intro n hn
  by_cases hlt : n < block.vtx.length
  · have hlt' : n < block'.vtx.length := hlen ▸ hlt
    rw [List.getElem?_eq_getElem hlt, List.getElem?_eq_getElem hlt']
    rcases Nat.eq_zero_or_pos n with rfl | hpos
    · have h0 := h.head
      have h0' := h'.head
      rw [List.head?_eq_getElem?, List.getElem?_eq_getElem hlt] at h0
      rw [List.head?_eq_getElem?, List.getElem?_eq_getElem hlt'] at h0'
      rw [h0, h0', hcb]
    · -- every other leaf is the hash of the whole transaction
      have hleaf : witnessLeaf H block.isProofOfStake (block.vtx[n], n) =
          witnessLeaf H block'.isProofOfStake (block'.vtx[n], n) := by
        have := getElem_of_eq hleaves (i := n) (by simpa using hlt)
        simpa using this
      have hps : block.isProofOfStake = block'.isProofOfStake := by rw [hheader]
      have hnot : ¬ (n = 0 ∨ (block'.isProofOfStake = true ∧ n = 1)) := by
        rintro (h0 | ⟨hstake, h1⟩)
        · omega
        · exact hn (hps.trans hstake) h1
      rw [witnessLeaf, witnessLeaf, hps, if_neg hnot, if_neg hnot,
        getWitnessHash_eq, getWitnessHash_eq] at hleaf
      refine congrArg some (htx _ ?_ _ ?_ hleaf) <;> simp only [mem_append]
      · exact .inl (.inl (getElem_mem hlt))
      · exact .inl (.inr (getElem_mem hlt'))
  · rw [List.getElem?_eq_none (by omega), List.getElem?_eq_none (by omega)]

/-- Two bodies whose witness data passes. -/
theorem sameButCoinstake_of_checkWitness (hshape : Shape block) (hshape' : Shape block')
    (hH : Function.Injective2 H.sha256D64) (htx : TellsApart H (block.vtx ++ block'.vtx))
    (hheader : block.toCBlockHeader = block'.toCBlockHeader) (hs : SameStripped block block')
    (h : checkWitness H P block = .ok ()) (h' : checkWitness H P block' = .ok ()) :
    SameButCoinstake block block' := by
  have hplain : ∀ b : CBlock, (∀ tx ∈ b.vtx, tx.hasWitness = false) →
      b.vtx.map CTransaction.stripWitness = b.vtx := fun b hb =>
    (map_congr_left fun tx htx =>
      stripWitness_of_hasWitness_eq_false (hb tx htx)).trans (List.map_id _)
  have hcases := checkWitness_cases (H := H) (P := P) hshape
  have hcases' := checkWitness_cases (H := H) (P := P) hshape'
  rw [h] at hcases
  rw [h'] at hcases'
  obtain ⟨-, hcases⟩ | ⟨_, hbad⟩ := hcases
  swap
  · cases hbad
  obtain ⟨-, hcases'⟩ | ⟨_, hbad⟩ := hcases'
  swap
  · cases hbad
  rw [← hs.commitmentIndex_eq] at hcases'
  rcases hcases with ⟨hactive, pos, coinbase, i, reserved, out, hpos, hc⟩ | ⟨hnone, hno⟩
  · -- under the same commitment
    rcases hcases' with ⟨-, pos', coinbase', i', reserved', out', hpos', hc'⟩ | ⟨hnone', -⟩
    · obtain rfl := some.inj (hpos.symm.trans hpos')
      exact hc.sameButCoinstake hc' hH htx hheader hs
    · rw [hnone' hactive] at hpos
      cases hpos
  · -- without commitment there is no witness data
    rcases hcases' with ⟨hactive, pos', _, _, _, _, hpos', -⟩ | ⟨-, hno'⟩
    · rw [hnone hactive] at hpos'
      cases hpos'
    · intro n _
      have heq : block.vtx = block'.vtx := by rw [← hplain block hno, ← hplain block' hno', hs]
      rw [heq]

variable {N M : Node} {lim lim' : BlockLimits} {b b' : CBlock} {consensus : ConsensusParams}

/-- **Witness data is bound to the header, that of a coinstake apart.** Of
two bodies with the same header and the same number of transactions that
pass `CheckBlock`, of which one passes `ContextualCheckBlock`: without
witness data they are equal; if the other passes as well they are equal,
in a proof-of-stake block except for the witness of the coinstake; and
if they differ elsewhere, the other is rejected as possibly corrupted. -/
theorem witness_bound_to_header (hH : Function.Injective2 H.sha256D64)
    (htx : TellsApart H (block.vtx ++ block'.vtx))
    (hheader : block.toCBlockHeader = block'.toCBlockHeader)
    (hlen : block.vtx.length = block'.vtx.length)
    (hv : block.Vouched H) (hv' : block'.Vouched H)
    (hcheck : checkBlock H N lim block true true true = .ok b)
    (hcheck' : checkBlock H M lim' block' true true true = .ok b')
    (hok : contextualCheckBlock H consensus P block = .ok ()) :
    SameStripped block block' ∧
      (contextualCheckBlock H consensus P block' = .ok () → SameButCoinstake block block' ∧
        (block.isProofOfWork = true → block.vtx = block'.vtx)) ∧
      (¬ SameButCoinstake block block' → ∃ reason,
        contextualCheckBlock H consensus P block' = .error (.dos 100 reason true)) := by
  obtain ⟨hshape, hroot⟩ := shape_of_checkBlockWith hv hcheck
  obtain ⟨hshape', hroot'⟩ := shape_of_checkBlockWith hv' hcheck'
  have hs : SameStripped block block' :=
    stripWitness_eq_of_rootCommits hH htx hheader hlen (hroot rfl) (hroot' rfl)
  have hwit : checkWitness H P block = .ok () := by
    simp only [contextualCheckBlock, bind_eq_ok] at hok
    obtain ⟨⟨⟩, -, ⟨⟩, -, hwit⟩ := hok
    exact hwit
  rw [hs.contextual_eq hheader hok]
  refine ⟨hs, fun hok' => ?_, fun hdiff => ?_⟩
  · have hsame := sameButCoinstake_of_checkWitness hshape hshape' hH htx hheader hs hwit hok'
    exact ⟨hsame, hsame.vtx_eq⟩
  rcases checkWitness_cases (H := H) (P := P) hshape' with ⟨hok', -⟩ | hbad
  · exact absurd
      (sameButCoinstake_of_checkWitness hshape hshape' hH htx hheader hs hwit hok') hdiff
  · exact hbad

/-! ## A proof-of-stake block with two witnesses -/

/-- The coinbase of a proof-of-stake block with its commitment: both leaves
are null. -/
def committingCoinbase : CTransaction where
  vin := [{ prevout := .null, scriptSig := [0x5a, 0],
            scriptWitness := [List.replicate 32 0] }]
  vout := [⟨0, []⟩, ⟨0, [0x6a, 0x24, 0xaa, 0x21, 0xa9, 0xed] ++ List.replicate 32 0⟩]

/-- A coinstake with this much witness data. -/
def witnessCoinstake (n : ℕ) : CTransaction where
  vin := [{ prevout := ⟨100, 0⟩, scriptSig := [], scriptWitness := [List.replicate n 1] }]
  vout := [⟨0, []⟩, ⟨1050, [0x51]⟩]

/-- A proof-of-stake block with such a coinstake. -/
def witnessBlock (n : ℕ) : CBlock :=
  { sampleBlock ⟨100, 0⟩ [committingCoinbase, witnessCoinstake n] with
    hashMerkleRoot := Nat.pair (Nat.pair 0 0) (Nat.pair 1050 0) }

/-- The parent of these blocks, with everything active. -/
def activeParent : ParentContext := ⟨some 9, 800, true, true⟩

theorem witnessBlock_passes : ∀ n ∈ [1, 2],
    (checkBlock pairingHashes sampleNode sampleLimits (witnessBlock n) true true
      true).toOption.isSome = true ∧
    contextualCheckBlock pairingHashes sampleParams activeParent (witnessBlock n) = .ok () := by
  decide

theorem witnessBlocks_told_apart :
    TellsApart pairingHashes ((witnessBlock 1).vtx ++ (witnessBlock 2).vtx) := by
  unfold TellsApart
  decide

/-- **The witness of a coinstake is not bound:** two valid blocks differ in
it. -/
theorem coinstake_witness_free :
    ¬ ∀ (H : Hashes) (N : Node) (lim : BlockLimits) (consensus : ConsensusParams)
      (P : ParentContext) (block block' b b' : CBlock), Function.Injective2 H.sha256D64 →
      TellsApart H (block.vtx ++ block'.vtx) → P.segwitActive = true →
      block.toCBlockHeader = block'.toCBlockHeader → block.vtx.length = block'.vtx.length →
      block.Vouched H → block'.Vouched H →
      checkBlock H N lim block true true true = .ok b →
      checkBlock H N lim block' true true true = .ok b' →
      contextualCheckBlock H consensus P block = .ok () →
      contextualCheckBlock H consensus P block' = .ok () → block.vtx = block'.vtx := by
  intro h
  obtain ⟨hcheck, hok⟩ := witnessBlock_passes 1 (by decide)
  obtain ⟨hcheck', hok'⟩ := witnessBlock_passes 2 (by decide)
  obtain ⟨b, hb⟩ := exists_ok_of_isSome hcheck
  obtain ⟨b', hb'⟩ := exists_ok_of_isSome hcheck'
  have heq := h _ _ _ _ _ _ _ b b' pairingHashes_injective2 witnessBlocks_told_apart rfl rfl rfl
    (fun hn => by cases hn) (fun hn => by cases hn) hb hb' hok hok'
  revert heq
  decide

theorem witnessBlocks_same_but_coinstake :
    SameStripped (witnessBlock 1) (witnessBlock 2) ∧
      SameButCoinstake (witnessBlock 1) (witnessBlock 2) := by
  obtain ⟨hcheck, hok⟩ := witnessBlock_passes 1 (by decide)
  obtain ⟨hcheck', hok'⟩ := witnessBlock_passes 2 (by decide)
  obtain ⟨b, hb⟩ := exists_ok_of_isSome hcheck
  obtain ⟨b', hb'⟩ := exists_ok_of_isSome hcheck'
  obtain ⟨hs, hsame, -⟩ := witness_bound_to_header pairingHashes_injective2
    witnessBlocks_told_apart rfl rfl (fun hn => by cases hn) (fun hn => by cases hn) hb hb' hok
  exact ⟨hs, (hsame hok').1⟩

end Slucore

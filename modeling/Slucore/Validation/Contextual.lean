import Slucore.Primitives.Merkle
import Slucore.Validation.AcceptBlock
/-!
# Validation — the checks of a block against its parent

`ContextualCheckBlock` makes the checks that depend on the parent: that
every transaction is final, that the coinbase starts with the height of
the block, and that witness data stands only under a commitment of the
coinbase to it. Of the parent they read the height, the median time past
and which deployments are active, collected in `ParentContext`.
-/


namespace Slucore

/-- What `ContextualCheckBlock` reads of the parent of a block. -/
structure ParentContext where
  /-- The height of the parent; `none` for the genesis block. -/
  prevHeight : Option ℕ
  medianTimePast : ℤ
  /-- `DEPLOYMENT_CSV` is active. -/
  csvActive : Bool
  /-- `DEPLOYMENT_SEGWIT` is active. -/
  segwitActive : Bool
deriving DecidableEq, Repr

namespace ParentContext

/-- The height of the block. -/
def nHeight (P : ParentContext) : ℕ := (P.prevHeight.map (· + 1)).getD 0

/-- `nLockTimeCutoff`. -/
def lockTimeCutoff (P : ParentContext) (block : CBlock) : ℤ :=
  if P.csvActive then P.medianTimePast else block.nTime

end ParentContext

namespace CTransaction

/-- `LOCKTIME_THRESHOLD`. -/
def lockTimeThreshold : ℕ := 500000000

/-- `CTxIn::SEQUENCE_FINAL`. -/
def sequenceFinal : ℕ := 2 ^ 32 - 1

/-- `IsFinalTx`. -/
def isFinalTx (tx : CTransaction) (nBlockHeight : ℕ) (nBlockTime : ℤ) : Bool :=
  tx.nLockTime == 0 ||
    decide ((tx.nLockTime : ℤ) <
      if tx.nLockTime < lockTimeThreshold then (nBlockHeight : ℤ) else nBlockTime) ||
    tx.vin.all fun i => i.nSequence == sequenceFinal

end CTransaction

variable (H : Hashes)

/-- The leaf of the witness tree at position `s`: null for the coinbase, and
for the coinstake of a proof-of-stake block. -/
def witnessLeaf (fProofOfStake : Bool) (p : CTransaction × ℕ) : UInt256 :=
  if p.2 = 0 ∨ (fProofOfStake = true ∧ p.2 = 1) then 0 else p.1.getWitnessHash H

/-- `BlockWitnessMerkleRoot`. -/
def blockWitnessMerkleRoot (block : CBlock) : UInt256 × Bool :=
  computeMerkleRoot H (block.vtx.zipIdx.map (witnessLeaf H block.isProofOfStake))

/-- The stack of the witness of the coinbase. -/
def coinbaseWitness (block : CBlock) : Option (List (List UInt8)) :=
  block.vtx.head?.bind fun tx => tx.vin.head?.map CTxIn.scriptWitness

/-- The check of the witness data against the commitment at output
`commitpos` of the coinbase. The hash of two hashes is the one the tree is
made of. -/
def checkWitnessCommitment (block : CBlock) (commitpos : ℕ) : Except Failure Unit := do
  require (!block.isProofOfStake || decide (2 ≤ block.vtx.length)) (.fatal "leaves[1]")
  let stack ← orThrow (coinbaseWitness block) (.fatal "block.vtx[0]->vin[0]")
  let hashWitness := (blockWitnessMerkleRoot H block).1
  match stack with
  | [reserved] => do
    require (reserved.length == 32) (.dos 100 "bad-witness-nonce-size" true)
    let out ← orThrow (block.vtx.head?.bind fun tx => tx.vout[commitpos]?)
      (.fatal "block.vtx[0]->vout[commitpos]")
    require (readLE ((out.scriptPubKey.drop 6).take 32) ==
      H.sha256D64 hashWitness (readLE reserved)) (.dos 100 "bad-witness-merkle-match" true)
  | _ => .error (.dos 100 "bad-witness-nonce-size" true)

/-- The validation of witness commitments. -/
def checkWitness (P : ParentContext) (block : CBlock) : Except Failure Unit :=
  match if P.segwitActive then getWitnessCommitmentIndex block else none with
  | some commitpos => checkWitnessCommitment H block commitpos
  | none => require (block.vtx.all fun tx => !tx.hasWitness) (.dos 100 "unexpected-witness" true)

/-- The failure with another reason. -/
def Failure.withReason (reason : String) : Failure → Failure
  | .dos level _ corruption => .dos level reason corruption
  | f => f

/-- The rule on the height in the coinbase, as `ContextualCheckBlock` makes
it once more. -/
def checkContextualHeight (consensus : ConsensusParams) (nHeight : ℕ) (block : CBlock) :
    Except Failure Unit :=
  (checkCoinbaseHeight consensus block nHeight).mapError (Failure.withReason "bad-cb-height")

/-- `ContextualCheckBlock`. -/
def contextualCheckBlock (consensus : ConsensusParams) (P : ParentContext) (block : CBlock) :
    Except Failure Unit := do
  require (block.vtx.all fun tx => tx.isFinalTx P.nHeight (P.lockTimeCutoff block))
    (.dos 10 "bad-txns-nonfinal")
  checkContextualHeight consensus P.nHeight block
  checkWitness H P block

/-- A node whose contextual check is this one. What it reads of the parent
is read off the ancestors, which the hash of the parent names. -/
def Intake.Contextual (I : Intake) (parentOf : UInt256 → ParentContext) : Prop :=
  ∀ block, I.contextualCheckBlock block =
    Slucore.contextualCheckBlock H I.consensus (parentOf block.hashPrevBlock) block

end Slucore

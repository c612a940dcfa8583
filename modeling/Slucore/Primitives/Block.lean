import Slucore.Primitives.Transaction
/-!
# Primitives — blocks, hashes and the Merkle tree

A block is a header and a list of transactions; `fChecked` is the
memory-only flag that a block has passed the context-free checks. The
hash functions are parameters (`Hashes`): nothing in the development
computes a SHA-256, and what is assumed of one is stated where it is
used. The Merkle tree is the source's own, with its duplication of an
odd last entry and its detection of repeated pairs.
-/


namespace Slucore

/-- `CBlockHeader`. -/
structure CBlockHeader where
  nVersion : ℤ
  hashPrevBlock : UInt256
  hashMerkleRoot : UInt256
  nTime : ℕ
  nBits : ℕ
  nNonce : ℕ
  hashStateRoot : UInt256
  hashUTXORoot : UInt256
  prevoutStake : COutPoint
  vchBlockSig : List UInt8
deriving DecidableEq, Repr

namespace CBlockHeader

/-- `CBlockHeader::IsNull`. -/
def isNull (h : CBlockHeader) : Bool := h.nBits == 0

/-- `CBlockHeader::IsProofOfStake`. -/
def isProofOfStake (h : CBlockHeader) : Bool := !h.prevoutStake.isNull

/-- `CBlockHeader::IsProofOfWork`. -/
def isProofOfWork (h : CBlockHeader) : Bool := !h.isProofOfStake

end CBlockHeader

/-- `CBlock`. -/
structure CBlock extends CBlockHeader where
  vtx : List CTransaction
  fChecked : Bool := false
deriving DecidableEq, Repr

/-- The hash functions the node uses: `SerializeHash` of a transaction
without witness, the hash of a header, and one step `SHA256D64` of the
Merkle tree. -/
structure Hashes where
  serializeHash : CTransaction → UInt256
  headerHash : CBlockHeader → UInt256
  sha256D64 : UInt256 → UInt256 → UInt256

variable (H : Hashes)

/-- `CTransaction::GetHash`, the transaction id. -/
def CTransaction.getHash (tx : CTransaction) : UInt256 := H.serializeHash tx.stripWitness

/-- `CTransaction::GetWitnessHash`. -/
def CTransaction.getWitnessHash (tx : CTransaction) : UInt256 :=
  if tx.hasWitness then H.serializeHash tx else tx.getHash H

/-- `CBlockHeader::GetHash`. -/
def CBlock.getHash (block : CBlock) : UInt256 := H.headerHash block.toCBlockHeader

/-! ## The Merkle tree -/

/-- Whether two entries that are hashed together are equal. -/
def hasEqualPair : List UInt256 → Bool
  | a :: b :: rest => a == b || hasEqualPair rest
  | _ => false

/-- One level of the tree: the entries hashed in pairs, an odd last entry
with itself. -/
def merkleLevel : List UInt256 → List UInt256
  | a :: b :: rest => H.sha256D64 a b :: merkleLevel rest
  | [a] => [H.sha256D64 a a]
  | [] => []

/-- The loop of `ComputeMerkleRoot`. A level of more than one entry has a
shorter one above it, so the number of leaves bounds the number of
turns. -/
def merkleLoop : ℕ → Bool → List UInt256 → UInt256 × Bool
  | fuel + 1, mutation, a :: b :: rest =>
    merkleLoop fuel (mutation || hasEqualPair (a :: b :: rest)) (merkleLevel H (a :: b :: rest))
  | _, mutation, hashes => (hashes.headD 0, mutation)

/-- `ComputeMerkleRoot`: the root, and whether the tree was mutated. -/
def computeMerkleRoot (hashes : List UInt256) : UInt256 × Bool :=
  merkleLoop H hashes.length false hashes

/-- `BlockMerkleRoot`. -/
def blockMerkleRoot (vtx : List CTransaction) : UInt256 × Bool :=
  computeMerkleRoot H (vtx.map fun tx => tx.getHash H)

end Slucore

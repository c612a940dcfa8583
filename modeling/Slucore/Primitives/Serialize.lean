import Slucore.Primitives.Block
/-!
# Primitives — transactions and blocks as bytes

The network format: numbers with the least significant byte first,
vectors behind their length, and a transaction with or without its
witnesses. Sizes and weights are lengths of these byte strings. No
transaction takes less than ten bytes, which bounds how many fit into a
block of a given size (`length_vtx_le`).
-/


namespace Slucore

open List

/-- `count` bytes of a number, the least significant first. -/
def writeLE : ℕ → ℕ → List UInt8
  | 0, _ => []
  | count + 1, n => UInt8.ofNat n :: writeLE count (n / 256)

@[simp] theorem length_writeLE (count n : ℕ) : (writeLE count n).length = count := by
  induction count generalizing n with
  | zero => rfl
  | succ count ih => rw [writeLE, length_cons, ih]

/-- `WriteCompactSize`. -/
def writeCompactSize (nSize : ℕ) : List UInt8 :=
  if nSize < 253 then writeLE 1 nSize
  else if nSize ≤ 0xffff then writeLE 1 253 ++ writeLE 2 nSize
  else if nSize ≤ 0xffffffff then writeLE 1 254 ++ writeLE 4 nSize
  else writeLE 1 255 ++ writeLE 8 nSize

theorem length_writeCompactSize_pos (nSize : ℕ) : 1 ≤ (writeCompactSize nSize).length := by
  unfold writeCompactSize
  split_ifs <;> simp

theorem length_writeCompactSize_le (nSize : ℕ) : (writeCompactSize nSize).length ≤ 9 := by
  unfold writeCompactSize
  split_ifs <;> simp

/-- A vector: its length, and its entries. -/
def serializeVector {α : Type} (serialize : α → List UInt8) (v : List α) : List UInt8 :=
  writeCompactSize v.length ++ v.flatMap serialize

theorem length_serializeVector {α : Type} (serialize : α → List UInt8) (v : List α) :
    (serializeVector serialize v).length =
      (writeCompactSize v.length).length + (v.map fun a => (serialize a).length).sum := by
  rw [serializeVector, length_append, length_flatMap]

/-- A string of bytes behind its length. -/
def serializeBytes (bytes : List UInt8) : List UInt8 :=
  writeCompactSize bytes.length ++ bytes

def COutPoint.serialize (o : COutPoint) : List UInt8 := writeLE 32 o.hash ++ writeLE 4 o.n

def CTxIn.serialize (i : CTxIn) : List UInt8 :=
  i.prevout.serialize ++ serializeBytes i.scriptSig ++ writeLE 4 i.nSequence

def CTxOut.serialize (out : CTxOut) : List UInt8 :=
  writeLE 8 (out.nValue % 2 ^ 64).toNat ++ serializeBytes out.scriptPubKey

namespace CTransaction

/-- `SerializeTransaction`; with `SERIALIZE_TRANSACTION_NO_WITNESS`,
`fAllowWitness` is false. -/
def serialize (fAllowWitness : Bool) (tx : CTransaction) : List UInt8 :=
  let flags := fAllowWitness && tx.hasWitness
  writeLE 4 (tx.nVersion % 2 ^ 32).toNat ++
    (if flags then serializeVector CTxIn.serialize [] ++ [1] else []) ++
    serializeVector CTxIn.serialize tx.vin ++ serializeVector CTxOut.serialize tx.vout ++
    (if flags then tx.vin.flatMap fun i => serializeVector serializeBytes i.scriptWitness
     else []) ++
    writeLE 4 tx.nLockTime

/-- No transaction takes less than ten bytes. -/
theorem ten_le_length_serialize (fAllowWitness : Bool) (tx : CTransaction) :
    10 ≤ (tx.serialize fAllowWitness).length := by
  have hin := length_writeCompactSize_pos tx.vin.length
  have hout := length_writeCompactSize_pos tx.vout.length
  simp only [serialize, length_append, length_serializeVector, length_writeLE]
  omega

end CTransaction

namespace CBlockHeader

def serialize (h : CBlockHeader) : List UInt8 :=
  writeLE 4 (h.nVersion % 2 ^ 32).toNat ++ writeLE 32 h.hashPrevBlock ++
    writeLE 32 h.hashMerkleRoot ++ writeLE 4 h.nTime ++ writeLE 4 h.nBits ++ writeLE 4 h.nNonce ++
    writeLE 32 h.hashStateRoot ++ writeLE 32 h.hashUTXORoot ++ h.prevoutStake.serialize ++
    serializeBytes h.vchBlockSig

end CBlockHeader

namespace CBlock

def serialize (fAllowWitness : Bool) (block : CBlock) : List UInt8 :=
  block.toCBlockHeader.serialize ++ serializeVector (CTransaction.serialize fAllowWitness) block.vtx

/-- `GetBlockWeight`. -/
def weight (block : CBlock) : ℕ :=
  (block.serialize false).length * 3 + (block.serialize true).length

/-- **A block has at most a tenth as many transactions as bytes.** -/
theorem length_vtx_le (fAllowWitness : Bool) (block : CBlock) :
    block.vtx.length * 10 ≤ (block.serialize fAllowWitness).length := by
  have hsum : (block.vtx.map fun _ => 10).sum ≤
      (block.vtx.map fun tx => (tx.serialize fAllowWitness).length).sum :=
    sum_le_sum fun tx _ => tx.ten_le_length_serialize fAllowWitness
  rw [map_const', sum_replicate, smul_eq_mul] at hsum
  rw [serialize, length_append, length_serializeVector]
  omega

end CBlock

end Slucore

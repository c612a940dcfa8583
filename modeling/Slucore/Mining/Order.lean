import Slucore.Primitives.Destination
import Slucore.Primitives.Transaction
import Mathlib.Data.Prod.Lex
/-!
# Mining — the order of the mempool

`CompareTxMemPoolEntryByAncestorFeeOrGasPrice`, by which the miner goes
through the mempool, in exact arithmetic. It has one rule for transactions
with contracts and another for those without, but both go by one key: the
class of the transaction, its rank in the class, and its id
(`byAncestorFeeOrGasPrice_iff`). So it is a strict total order.
-/


namespace Slucore

namespace CTransaction

/-- `HasOpCreate`. -/
def hasOpCreate (tx : CTransaction) : Bool := tx.vout.any fun v => v.scriptPubKey.hasOpCreate

/-- `HasOpCall`. -/
def hasOpCall (tx : CTransaction) : Bool := tx.vout.any fun v => v.scriptPubKey.hasOpCall

/-- `OpCode`: a transaction that both calls and creates has the sum. -/
abbrev OpCode.none : ℕ := 0

@[inherit_doc OpCode.none] abbrev OpCode.call : ℕ := 1

@[inherit_doc OpCode.none] abbrev OpCode.create : ℕ := 2

/-- `GetCreateOrCall`. -/
def getCreateOrCall (tx : CTransaction) : ℕ :=
  (if tx.hasOpCall then OpCode.call else 0) + if tx.hasOpCreate then OpCode.create else 0

end CTransaction

open CTransaction

/-- The bytes of a hash, as `memcmp` compares them. -/
def Blob.bytes {n : ℕ} (hash : Blob n) : List ℕ := hash.1.map UInt8.toNat

/-- `CTxMemPoolEntry`, as far as it is compared. The sizes are positive. -/
structure ComparedEntry where
  tx : CTransaction
  modifiedFee : ℤ
  txSize : ℕ
  modFeesWithAncestors : ℤ
  sizeWithAncestors : ℕ
  countWithAncestors : ℕ
  minGasPrice : ℤ
  txSize_pos : 0 < txSize
  sizeWithAncestors_pos : 0 < sizeWithAncestors

namespace ComparedEntry

/-- `GetModFeeAndSize`. -/
def getModFeeAndSize (a : ComparedEntry) : ℤ × ℕ :=
  let f1 := a.modifiedFee * a.sizeWithAncestors
  let f2 := a.modFeesWithAncestors * a.txSize
  if f1 > f2 then (a.modFeesWithAncestors, a.sizeWithAncestors) else (a.modifiedFee, a.txSize)

variable (getHash : CTransaction → Blob 32) (a b : ComparedEntry)

/-- `CompareTxMemPoolEntryByAncestorFee`. -/
def byAncestorFee : Bool :=
  let (aModFee, aSize) := a.getModFeeAndSize
  let (bModFee, bSize) := b.getModFeeAndSize
  let f1 := aModFee * bSize
  let f2 := aSize * bModFee
  if f1 = f2 then (getHash a.tx).bytes < (getHash b.tx).bytes else f1 > f2

/-- `CompareTxMemPoolEntryByAncestorFeeOrGasPrice`. -/
def byAncestorFeeOrGasPrice : Bool :=
  let fA := a.tx.getCreateOrCall
  let fB := b.tx.getCreateOrCall
  if fA ≠ 0 ∨ fB ≠ 0 then
    -- transactions without contracts come first, then those that create
    if decide (fA > OpCode.none) ≠ decide (fB > OpCode.none) then
      if fA > OpCode.none then false else true
    else if fA > OpCode.none ∧ fB > OpCode.none ∧ fA ≠ fB ∧
        (fA = OpCode.call ∨ fB = OpCode.call) then
      if fA = OpCode.call then false else true
    else if a.countWithAncestors ≠ b.countWithAncestors then
      a.countWithAncestors < b.countWithAncestors
    else if a.minGasPrice ≠ b.minGasPrice then a.minGasPrice > b.minGasPrice
    else if a.txSize ≠ b.txSize then a.txSize < b.txSize
    else (getHash a.tx).bytes < (getHash b.tx).bytes
  else a.byAncestorFee getHash b

/-! ## The key -/

/-- The class: without contracts, with a creation, with calls alone. -/
def txClass : ℕ := if a.tx.hasOpCreate then 1 else if a.tx.hasOpCall then 2 else 0

/-- The fee for a byte. -/
def rate : ℚ := a.getModFeeAndSize.1 / a.getModFeeAndSize.2

/-- What an entry is compared by within its class. -/
def rank : ℚ ×ₗ ℤ ×ₗ ℕ ×ₗ List ℕ :=
  if a.txClass = 0 then toLex (-a.rate, toLex (0, toLex (0, (getHash a.tx).bytes)))
  else toLex (a.countWithAncestors, toLex (-a.minGasPrice, toLex (a.txSize, (getHash a.tx).bytes)))

/-- What an entry is compared by. -/
def key : ℕ ×ₗ ℚ ×ₗ ℤ ×ₗ ℕ ×ₗ List ℕ := toLex (a.txClass, a.rank getHash)

variable {getHash a b}

theorem getModFeeAndSize_pos (a : ComparedEntry) : 0 < a.getModFeeAndSize.2 := by
  unfold getModFeeAndSize
  dsimp only
  split
  · exact a.sizeWithAncestors_pos
  · exact a.txSize_pos

/-- Cross-multiplied, **the fees for a byte are compared**. -/
theorem byAncestorFee_iff : a.byAncestorFee getHash b = true ↔
    b.rate < a.rate ∨ a.rate = b.rate ∧ (getHash a.tx).bytes < (getHash b.tx).bytes := by
  have ha : (0 : ℚ) < a.getModFeeAndSize.2 := by exact_mod_cast a.getModFeeAndSize_pos
  have hb : (0 : ℚ) < b.getModFeeAndSize.2 := by exact_mod_cast b.getModFeeAndSize_pos
  rw [rate, rate, div_lt_div_iff₀ hb ha, div_eq_div_iff ha.ne' hb.ne',
    mul_comm (b.getModFeeAndSize.1 : ℚ)]
  norm_cast
  unfold byAncestorFee
  dsimp only
  split_ifs with h
  · simp [h]
  · simp [h]

theorem rank_lt_of_plain (ha : a.txClass = 0) (hb : b.txClass = 0) :
    a.rank getHash < b.rank getHash ↔ a.byAncestorFee getHash b = true := by
  simp [rank, ha, hb, byAncestorFee_iff, Prod.Lex.toLex_lt_toLex]

theorem rank_lt_of_contract (ha : a.txClass ≠ 0) (hb : b.txClass ≠ 0) :
    a.rank getHash < b.rank getHash ↔
      if a.countWithAncestors = b.countWithAncestors then
        if a.minGasPrice = b.minGasPrice then
          if a.txSize = b.txSize then (getHash a.tx).bytes < (getHash b.tx).bytes
          else a.txSize < b.txSize
        else b.minGasPrice < a.minGasPrice
      else a.countWithAncestors < b.countWithAncestors := by
  split_ifs <;> simp [rank, Prod.Lex.toLex_lt_toLex, *]

/-- **The order is that of the keys.** -/
theorem byAncestorFeeOrGasPrice_iff : a.byAncestorFeeOrGasPrice getHash b = true ↔
    a.key getHash < b.key getHash := by
  unfold byAncestorFeeOrGasPrice key
  rw [Prod.Lex.toLex_lt_toLex]
  -- each side is decided by the classes, and within a class by the rank
  cases hA : a.tx.hasOpCall <;> cases hA' : a.tx.hasOpCreate <;>
    cases hB : b.tx.hasOpCall <;> cases hB' : b.tx.hasOpCreate <;>
      simp [txClass, getCreateOrCall, rank_lt_of_plain, rank_lt_of_contract, hA, hA', hB, hB']

theorem getHash_eq_of_key (h : a.key getHash = b.key getHash) : getHash a.tx = getHash b.tx := by
  have hid (c : ComparedEntry) :
      (ofLex (ofLex (ofLex (ofLex (c.key getHash)).2).2).2).2 = (getHash c.tx).bytes := by
    simp only [key, rank]
    split <;> rfl
  have hbytes := hid a
  rw [h, hid b] at hbytes
  exact Subtype.ext (List.map_injective_iff.2 (fun _ _ => UInt8.toNat_inj.1) hbytes.symm)

end ComparedEntry

/-- **The order of the mempool is strict and total** on entries with distinct
ids, whatever they hold and pay. -/
theorem mining_order_strict_total (getHash : CTransaction → Blob 32) :
    (∀ a : ComparedEntry, a.byAncestorFeeOrGasPrice getHash a = false) ∧
    (∀ a b c : ComparedEntry, a.byAncestorFeeOrGasPrice getHash b = true →
      b.byAncestorFeeOrGasPrice getHash c = true → a.byAncestorFeeOrGasPrice getHash c = true) ∧
    ∀ a b : ComparedEntry, getHash a.tx ≠ getHash b.tx →
      a.byAncestorFeeOrGasPrice getHash b = true ∨ b.byAncestorFeeOrGasPrice getHash a = true := by
  simp only [← Bool.not_eq_true, ComparedEntry.byAncestorFeeOrGasPrice_iff]
  exact ⟨fun a => lt_irrefl _, fun a b c => lt_trans,
    fun a b hne => lt_or_gt_of_ne fun hkey => hne (ComparedEntry.getHash_eq_of_key hkey)⟩

end Slucore

import Slucore.Common.MachineInt
import Slucore.Primitives.Script
/-!
# Primitives — amounts, outpoints and transactions

The data of a transaction as the source has it, with the predicates that
consensus code asks of its shape. A hash is the number its 256 bits
spell, and an amount (`CAmount`) is an integer in the signed 64-bit
range. The transaction id is computed from the transaction without its
witness; the hash function itself is a parameter of the development, and
`CTransaction.stripWitness` is the part of a transaction it is applied
to.
-/


namespace Slucore

/-- A 256-bit hash; `0` is the null hash. -/
abbrev UInt256 := ℕ

/-- `COIN`. -/
def coin : ℤ := 100000000

/-- `CENT`. -/
def cent : ℤ := 1000000

/-- `MAX_MONEY`. -/
def maxMoney : ℤ := 107822406 * coin + 25 * cent

/-- `MoneyRange`. -/
def moneyRange (nValue : ℤ) : Bool := decide (0 ≤ nValue ∧ nValue ≤ maxMoney)

/-- `COutPoint`. -/
structure COutPoint where
  hash : UInt256
  n : ℕ
deriving DecidableEq, Repr

namespace COutPoint

/-- `COutPoint::SetNull`. -/
def null : COutPoint := ⟨0, 2 ^ 32 - 1⟩

/-- `COutPoint::IsNull`. -/
def isNull (o : COutPoint) : Bool := o == null

end COutPoint

/-- `CTxIn`. -/
structure CTxIn where
  prevout : COutPoint
  scriptSig : CScript
  nSequence : ℕ := 2 ^ 32 - 1
  scriptWitness : List (List UInt8) := []
deriving DecidableEq, Repr

/-- `CTxOut`. -/
structure CTxOut where
  nValue : ℤ
  scriptPubKey : CScript
deriving DecidableEq, Repr

namespace CTxOut

/-- `CTxOut::SetNull`. -/
def null : CTxOut := ⟨-1, []⟩

/-- `CTxOut::IsNull`. -/
def isNull (o : CTxOut) : Bool := o.nValue == -1

/-- `CTxOut::IsEmpty`. -/
def isEmpty (o : CTxOut) : Bool := o.nValue == 0 && o.scriptPubKey.isEmpty

end CTxOut

/-- `CTransaction`. -/
structure CTransaction where
  vin : List CTxIn
  vout : List CTxOut
  nVersion : ℤ := 2
  nLockTime : ℕ := 0
deriving DecidableEq, Repr

namespace CTransaction

/-- What `SERIALIZE_TRANSACTION_NO_WITNESS` keeps of a transaction. -/
def stripWitness (tx : CTransaction) : CTransaction :=
  { tx with vin := tx.vin.map fun i => { i with scriptWitness := [] } }

/-- `CTransaction::IsNull`. -/
def isNull (tx : CTransaction) : Bool := tx.vin.isEmpty && tx.vout.isEmpty

/-- `CTransaction::HasWitness`. -/
def hasWitness (tx : CTransaction) : Bool := tx.vin.any fun i => !i.scriptWitness.isEmpty

/-- `CTransaction::IsCoinBase`. -/
def isCoinBase (tx : CTransaction) : Bool :=
  match tx.vin with
  | [i] => i.prevout.isNull && decide (1 ≤ tx.vout.length)
  | _ => false

/-- `CTransaction::IsCoinStake`: a first input that spends a coin and an
empty first output of at least two. -/
def isCoinStake (tx : CTransaction) : Bool :=
  match tx.vin, tx.vout with
  | i :: _, o :: _ :: _ => !i.prevout.isNull && o.isEmpty
  | _, _ => false

/-- `CTransaction::HasCreateOrCall`. -/
def hasCreateOrCall (tx : CTransaction) : Bool :=
  tx.vout.any fun v => v.scriptPubKey.hasOpCreate || v.scriptPubKey.hasOpCall

/-- `CTransaction::HasOpSpend`. -/
def hasOpSpend (tx : CTransaction) : Bool :=
  tx.vin.any fun i => i.scriptSig.hasOpSpend

/-- The loop of `CTransaction::GetValueOut`, which throws as soon as an
output or the running sum leaves the money range. -/
def valueOutFrom : ℤ → List CTxOut → Option ℤ
  | nValueOut, [] => some nValueOut
  | nValueOut, o :: os =>
    let sum := wrap64 (nValueOut + o.nValue)
    if !moneyRange o.nValue || !moneyRange sum then none else valueOutFrom sum os

/-- `CTransaction::GetValueOut`; `none` is the exception. -/
def getValueOut (tx : CTransaction) : Option ℤ := valueOutFrom 0 tx.vout

/-- The outputs' value in exact integers. -/
def valueOut (tx : CTransaction) : ℤ := (tx.vout.map CTxOut.nValue).sum

end CTransaction

/-! ## Shapes and sums -/

theorem moneyRange_iff {v : ℤ} : moneyRange v = true ↔ 0 ≤ v ∧ v ≤ maxMoney := by
  simp [moneyRange]

theorem moneyRange_zero : moneyRange 0 = true := by decide

theorem maxMoney_val : maxMoney = 10782240625000000 := by decide

/-- The money range is far inside the 64-bit range: one addition of two
amounts in it is exact. -/
theorem wrap64_add_of_moneyRange {a b : ℤ} (ha : moneyRange a = true)
    (hb : moneyRange b = true) : wrap64 (a + b) = a + b := by
  rw [moneyRange_iff, maxMoney_val] at ha hb
  exact wrap64_eq_self ⟨by omega, by omega⟩

/-- A transaction is not a coinbase and a coinstake at once. -/
theorem CTransaction.isCoinBase_eq_false_of_isCoinStake {tx : CTransaction}
    (h : tx.isCoinStake = true) : tx.isCoinBase = false := by
  unfold CTransaction.isCoinStake at h
  unfold CTransaction.isCoinBase
  split at h
  · rename_i i is o p os hin hout
    cases is <;> simp_all
  · cases h

/-- The loop's sum is exact, and stays in the money range. -/
theorem CTransaction.valueOutFrom_eq {os : List CTxOut} {v w : ℤ}
    (hv : moneyRange v = true) (h : valueOutFrom v os = some w) :
    w = v + (os.map CTxOut.nValue).sum ∧ moneyRange w = true := by
  induction os generalizing v with
  | nil =>
    obtain rfl : v = w := by simpa [valueOutFrom] using h
    exact ⟨by simp, hv⟩
  | cons o os ih =>
    simp only [valueOutFrom, Bool.or_eq_true, Bool.not_eq_true'] at h
    split at h
    · cases h
    rename_i hr
    simp only [not_or, Bool.not_eq_false] at hr
    obtain ⟨hw, hm⟩ := ih hr.2 h
    rw [wrap64_add_of_moneyRange hv hr.1] at hw
    exact ⟨by simp only [hw, List.map_cons, List.sum_cons]; ring, hm⟩

/-- **`GetValueOut` is exact.** When it does not throw it returns the
outputs' sum, with no wrap, in the money range. -/
theorem CTransaction.getValueOut_eq {tx : CTransaction} {w : ℤ}
    (h : tx.getValueOut = some w) : w = tx.valueOut ∧ moneyRange w = true := by
  have := valueOutFrom_eq (by decide) h
  simpa [CTransaction.valueOut] using this

end Slucore

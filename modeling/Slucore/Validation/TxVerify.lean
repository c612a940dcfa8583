import Slucore.Validation.Node
import Slucore.Coins.Content
/-!
# Validation — the checks of one transaction

`CheckTransaction`, which needs no context, and `CheckTxInputs`, which
reads the coins a transaction spends. Each has one lemma that says what
holds of a transaction that passes (`Checked`, `PaysFee`).
-/


namespace Slucore

open CoinSet CCoinsViewCache

/-- `MAX_TRANSACTION_BASE_SIZE`. -/
def maxTransactionBaseSize : ℕ := 1000000

variable (N : Node) (lim : BlockLimits)

/-- One turn of the loop of `CheckTransaction` over the outputs, with the
running sum. -/
def checkOutput (tx : CTransaction) (nValueOut : ℤ) (txout : CTxOut) : Except Failure ℤ := do
  require (!(txout.isEmpty && !tx.isCoinBase && !tx.isCoinStake))
    (.dos 100 "bad-txns-vout-empty")
  require (decide (0 ≤ txout.nValue)) (.dos 100 "bad-txns-vout-negative")
  require (decide (txout.nValue ≤ maxMoney)) (.dos 100 "bad-txns-vout-toolarge")
  let nValueOut := wrap64 (nValueOut + txout.nValue)
  require (moneyRange nValueOut) (.dos 100 "bad-txns-txouttotal-toolarge")
  require (!(txout.scriptPubKey.hasOpCall || txout.scriptPubKey.hasOpCreate) ||
    N.solver txout.scriptPubKey) (.dos 100 "bad-txns-contract-nonstandard")
  return nValueOut

/-- The last part of `CheckTransaction`, on the inputs. -/
def checkPrevouts (tx : CTransaction) : Except Failure Unit :=
  if tx.isCoinBase then
    let size := (tx.vin.headD ⟨COutPoint.null, [], 0, []⟩).scriptSig.length
    require (decide (2 ≤ size ∧ size ≤ 100)) (.dos 100 "bad-cb-length")
  else
    require (tx.vin.all fun i => !i.prevout.isNull) (.dos 10 "bad-txns-prevout-null")

/-- `CheckTransaction`, with the check for duplicate inputs. -/
def checkTransaction (tx : CTransaction) : Except Failure Unit := do
  require (!tx.vin.isEmpty) (.dos 10 "bad-txns-vin-empty")
  require (!tx.vout.isEmpty) (.dos 10 "bad-txns-vout-empty")
  require (decide (N.txSerializeSize tx ≤ maxTransactionBaseSize ∧
    N.txSerializeSize tx * witnessScaleFactor ≤ lim.dgpMaxBlockWeight))
    (.dos 100 "bad-txns-oversize")
  let _ ← tx.vout.foldlM (checkOutput N tx) 0
  require (decide (tx.vin.map CTxIn.prevout).Nodup) (.dos 100 "bad-txns-inputs-duplicate")
  checkPrevouts tx

/-- One turn of the loop of `Consensus::CheckTxInputs`, with the running
sum. -/
def checkInput (inputs : CCoinsViewCache) (nSpendHeight : ℕ) (nValueIn : ℤ) (i : CTxIn) :
    Except Failure ℤ := do
  let coin := inputs.accessCoin i.prevout
  require (!coin.isSpent) (.fatal "assert(!coin.IsSpent())")
  require (!((coin.fCoinBase || coin.fCoinStake) &&
    decide ((nSpendHeight : ℤ) - coin.nHeight < coinbaseMaturity)))
    (.dos 0 "bad-txns-premature-spend-of-coinbase")
  let nValueIn := wrap64 (nValueIn + coin.out.nValue)
  require (moneyRange coin.out.nValue && moneyRange nValueIn)
    (.dos 100 "bad-txns-inputvalues-outofrange")
  return nValueIn

/-- `Consensus::CheckTxInputs`, with the fee. A coinstake pays none and may
create value. -/
def checkTxInputs (inputs : CCoinsViewCache) (nSpendHeight : ℕ) (tx : CTransaction) :
    Except Failure ℤ := do
  require (inputs.haveInputs tx) (.dos 100 "bad-txns-inputs-missingorspent")
  let nValueIn ← tx.vin.foldlM (checkInput inputs nSpendHeight) 0
  if tx.isCoinStake then return 0
  else
    let valueOut ← orThrow tx.getValueOut (.fatal "CTransaction::GetValueOut")
    require (decide (valueOut ≤ nValueIn)) (.dos 100 "bad-txns-in-belowout")
    let txfee := wrap64 (nValueIn - valueOut)
    require (moneyRange txfee) (.dos 100 "bad-txns-fee-outofrange")
    return txfee

/-! ## What a transaction that passes is like -/

variable {N lim}

/-- The loop over the outputs computes the exact sum, which stays in the
money range, of outputs that are in it. -/
theorem foldlM_checkOutput_eq {tx : CTransaction} {vout : List CTxOut} {v w : ℤ}
    (hv : moneyRange v = true) (h : vout.foldlM (checkOutput N tx) v = .ok w) :
    w = v + (vout.map CTxOut.nValue).sum ∧ moneyRange w = true ∧
      ∀ out ∈ vout, moneyRange out.nValue = true := by
  induction vout generalizing v with
  | nil =>
    obtain rfl := foldlM_nil_eq_ok.1 h
    exact ⟨by simp, hv, by simp⟩
  | cons out vout ih =>
    obtain ⟨t, ht, hrest⟩ := foldlM_cons_eq_ok.1 h
    simp only [checkOutput, bind_eq_ok, require_eq_ok, pure_eq_ok, decide_eq_true_eq] at ht
    obtain ⟨-, -, -, hpos, -, hmax, -, hr, -, -, rfl⟩ := ht
    have hout : moneyRange out.nValue = true := moneyRange_iff.2 ⟨hpos, hmax⟩
    obtain ⟨hw, hm, hall⟩ := ih hr hrest
    rw [wrap64_add_of_moneyRange hv hout] at hw
    refine ⟨by rw [hw, List.map_cons, List.sum_cons]; ring, hm, ?_⟩
    simpa using ⟨hout, hall⟩

/-- What `CheckTransaction` guarantees. -/
structure Checked (tx : CTransaction) : Prop where
  vin_ne_nil : tx.vin ≠ []
  nValue : ∀ out ∈ tx.vout, moneyRange out.nValue = true
  valueOut : moneyRange tx.valueOut = true
  nodup : (tx.vin.map CTxIn.prevout).Nodup

theorem checked_of_checkTransaction {tx : CTransaction}
    (h : checkTransaction N lim tx = .ok ()) : Checked tx := by
  simp only [checkTransaction, bind_eq_ok, require_eq_ok, decide_eq_true_eq] at h
  obtain ⟨-, hin, -, -, -, -, w, hout, -, hnd, -⟩ := h
  obtain ⟨hw, hm, hall⟩ := foldlM_checkOutput_eq (by decide) hout
  refine ⟨by simpa using hin, hall, ?_, hnd⟩
  rw [zero_add] at hw
  rwa [CTransaction.valueOut, ← hw]

namespace CoinSet

/-- The value held at an outpoint, zero where there is no coin. -/
def valueAt (C : CoinSet) (o : COutPoint) : ℤ := ((C o).map fun c => c.out.nValue).getD 0

/-- The value of the coins a transaction spends, in exact integers. -/
def valueIn (C : CoinSet) (tx : CTransaction) : ℤ :=
  if tx.isCoinBase then 0 else (tx.vin.map fun i => C.valueAt i.prevout).sum

end CoinSet

variable {inputs : CCoinsViewCache} {nSpendHeight : ℕ} {tx : CTransaction}

/-- The loop over the inputs computes the exact sum of coins that are
there, in the money range. -/
theorem foldlM_checkInput_eq {vin : List CTxIn} {v w : ℤ} (hv : moneyRange v = true)
    (hhave : ∀ i ∈ vin, inputs.haveCoin i.prevout = true)
    (h : vin.foldlM (checkInput inputs nSpendHeight) v = .ok w) :
    w = v + (vin.map fun i => valueAt inputs.getCoin i.prevout).sum ∧
      moneyRange w = true := by
  induction vin generalizing v with
  | nil =>
    obtain rfl := foldlM_nil_eq_ok.1 h
    exact ⟨by simp, hv⟩
  | cons i vin ih =>
    obtain ⟨t, ht, hrest⟩ := foldlM_cons_eq_ok.1 h
    simp only [checkInput, bind_eq_ok, require_eq_ok, pure_eq_ok, Bool.and_eq_true] at ht
    obtain ⟨-, -, -, -, -, ⟨hc, hr⟩, rfl⟩ := ht
    obtain ⟨c, hget⟩ := Option.isSome_iff_exists.1
      (haveCoin_eq ▸ hhave i List.mem_cons_self)
    rw [accessCoin_of_getCoin hget] at hc hr hrest
    obtain ⟨hw, hm⟩ := ih hr (fun j hj => hhave j (List.mem_cons_of_mem i hj)) hrest
    rw [wrap64_add_of_moneyRange hv hc] at hw
    refine ⟨?_, hm⟩
    have hval : valueAt inputs.getCoin i.prevout = c.out.nValue := by
      simp [valueAt, hget]
    rw [hw, List.map_cons, List.sum_cons, hval]
    ring

/-- The loop computes what the loop of `GetValueIn` does. -/
theorem foldl_eq_of_foldlM_checkInput {vin : List CTxIn} {v w : ℤ}
    (h : vin.foldlM (checkInput inputs nSpendHeight) v = .ok w) :
    vin.foldl (fun nResult i => wrap64 (nResult + (inputs.accessCoin i.prevout).out.nValue)) v
      = w := by
  induction vin generalizing v with
  | nil => exact foldlM_nil_eq_ok.1 h
  | cons i vin ih =>
    obtain ⟨t, ht, hrest⟩ := foldlM_cons_eq_ok.1 h
    simp only [checkInput, bind_eq_ok, pure_eq_ok] at ht
    obtain ⟨-, -, -, -, -, -, rfl⟩ := ht
    exact ih hrest

/-- What `CheckTxInputs` guarantees of a transaction that is no coinbase:
the coins are there, their value is an amount, and unless the transaction
is shaped as a coinstake it pays what it does not create. -/
structure PaysFee (inputs : CCoinsViewCache) (tx : CTransaction) (txfee : ℤ) : Prop where
  have_inputs : ∀ i ∈ tx.vin, inputs.haveCoin i.prevout = true
  valueIn : moneyRange (CoinSet.valueIn inputs.getCoin tx) = true
  getValueIn : inputs.getValueIn tx = CoinSet.valueIn inputs.getCoin tx
  coinstake : tx.isCoinStake = true → txfee = 0
  fee : tx.isCoinStake = false →
    txfee = CoinSet.valueIn inputs.getCoin tx - tx.valueOut ∧ moneyRange txfee = true

theorem paysFee_of_checkTxInputs {txfee : ℤ} (hcb : tx.isCoinBase = false)
    (h : checkTxInputs inputs nSpendHeight tx = .ok txfee) : PaysFee inputs tx txfee := by
  simp only [checkTxInputs, bind_eq_ok, require_eq_ok] at h
  obtain ⟨-, hhave, v, hloop, hrest⟩ := h
  have hhave' : ∀ i ∈ tx.vin, inputs.haveCoin i.prevout = true := by
    simpa [haveInputs, hcb] using hhave
  obtain ⟨hv, hm⟩ := foldlM_checkInput_eq (by decide) hhave' hloop
  have hin : v = valueIn inputs.getCoin tx := by
    simp [valueIn, hcb, hv]
  subst hin
  have hget : inputs.getValueIn tx = valueIn inputs.getCoin tx := by
    simpa [getValueIn, hcb] using foldl_eq_of_foldlM_checkInput hloop
  refine ⟨hhave', hm, hget, fun hcs => ?_, fun hcs => ?_⟩
  · rw [if_pos hcs, pure_eq_ok] at hrest
    exact hrest.symm
  simp only [hcs, Bool.false_eq_true, if_false, bind_eq_ok, orThrow_eq_ok, require_eq_ok,
    pure_eq_ok] at hrest
  obtain ⟨out, hout, -, hle, -, hr, rfl⟩ := hrest
  obtain ⟨rfl, hmo⟩ := CTransaction.getValueOut_eq hout
  have hexact : wrap64 (valueIn inputs.getCoin tx - tx.valueOut) =
      valueIn inputs.getCoin tx - tx.valueOut := by
    rw [moneyRange_iff, maxMoney_val] at hm hmo
    exact wrap64_eq_self ⟨by omega, by omega⟩
  exact ⟨hexact, hr⟩

end Slucore

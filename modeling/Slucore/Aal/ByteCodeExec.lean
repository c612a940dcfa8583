import Slucore.Aal.Execute
/-!
# Aal — all contract outputs of one transaction

`ByteCodeExec` executes the contract outputs of a transaction one after
the other and turns the results into value transfers, refunds of gas and
the gas used. The virtual machine is the parameter `vm`: what it does for
an output may depend on everything it is shown.
-/


namespace Slucore

/-- The virtual machine, as the oracle it is here. -/
abbrev Vm := AalState → EnvInfo → SilubiumTransaction → EvmTrace

/-- `ByteCodeExecResult`. -/
structure ByteCodeExecResult where
  usedGas : ℕ
  refundSender : ℤ
  refundOutputs : List CTxOut
  valueTransfers : List CTransaction
deriving DecidableEq, Repr

namespace ByteCodeExecResult

def empty : ByteCodeExecResult := ⟨0, 0, [], []⟩

end ByteCodeExecResult

namespace ByteCodeExec

variable (H : Hashes) (E : AalEnv) (vm : Vm) (tipHeight : ℕ) (p : Permanence) (env : EnvInfo)

/-- A call of an address that is not in use is skipped. -/
def skips (t : SilubiumTransaction) (w : AalState) : Bool :=
  !t.isCreation && !w.state.addressInUse t.receiveAddress

/-- The result of an output that is skipped. -/
def skipped : ResultExecute := ⟨.unknown, 0, 0, none⟩

/-- `ByteCodeExec::performByteCode`; `none` when it returns false. -/
def performByteCode : List SilubiumTransaction → AalState →
    Option (AalState × List ResultExecute)
  | [], w => some ({ w with deleteAddresses := [] }, [])
  | t :: txs, w =>
    if t.version ≠ VersionVM.evmDefault then none
    else if skips t w then
      (performByteCode txs w).map fun q => (q.1, skipped :: q.2)
    else
      (SilubiumState.execute H E tipHeight p env t (vm w env t) w).bind fun q =>
        (performByteCode txs q.1).map fun q' => (q'.1, q.2 :: q'.2)

/-- `performByteCode` with the state it leaves also where it returns false,
which is `none` in the second place; `none` is what nothing catches. -/
def tryByteCode : List SilubiumTransaction → AalState →
    Option (AalState × Option (List ResultExecute))
  | [], w => some ({ w with deleteAddresses := [] }, some [])
  | t :: txs, w =>
    if t.version ≠ VersionVM.evmDefault then some (w, none)
    else if skips t w then
      (tryByteCode txs w).map fun q => (q.1, q.2.map (skipped :: ·))
    else
      (SilubiumState.execute H E tipHeight p env t (vm w env t) w).bind fun q =>
        (tryByteCode txs q.1).map fun q' => (q'.1, q'.2.map (q.2 :: ·))

/-- The transaction that sends the value of a failed output back. -/
def refundTx (t : SilubiumTransaction) : CTransaction where
  vin := [{ prevout := ⟨t.hashWith, t.nVout⟩, scriptSig := spendScript }]
  vout := [⟨toCAmount t.value, payToPubkeyHash t.sender⟩]

/-- The first part of a turn of `ByteCodeExec::processingResults`: the
refund of a failed output, or the refund of gas. -/
def refund (t : SilubiumTransaction) (r : ResultExecute) (out : ByteCodeExecResult) :
    Option ByteCodeExecResult :=
  let gasUsed : ℕ := r.gasUsed.toNat % 2 ^ 64
  if r.excepted ≠ .none then
    some { out with
      valueTransfers :=
        if 0 < t.value then out.valueTransfers ++ [refundTx t] else out.valueTransfers
      usedGas := (out.usedGas + gasUsed) % 2 ^ 64 }
  else if 2 ^ 64 ≤ t.gas.toNat ∨ 2 ^ 64 ≤ r.gasUsed.toNat ∨ 2 ^ 64 ≤ t.gasPrice.toNat then none
  else
    let amount := wrap64 ((t.gas.toNat - gasUsed : ℤ) * t.gasPrice.toNat)
    let out' := { out with usedGas := (out.usedGas + gasUsed) % 2 ^ 64 }
    if amount < 0 then none
    else if 0 < amount then
      some { out' with
        refundOutputs := out.refundOutputs ++ [⟨amount, payToPubkeyHash t.sender⟩]
        refundSender := wrap64 (out.refundSender + amount) }
    else some out'

/-- The second part: the transaction of the result, if it is not null. -/
def pushTransfer (r : ResultExecute) (out : ByteCodeExecResult) : ByteCodeExecResult :=
  match r.tx with
  | some tx =>
    if tx.getHash H ≠ 0 then { out with valueTransfers := out.valueTransfers ++ [tx] } else out
  | none => out

/-- One turn of the loop of `ByteCodeExec::processingResults`. -/
def processResult (t : SilubiumTransaction) (r : ResultExecute) (out : ByteCodeExecResult) :
    Option ByteCodeExecResult :=
  (refund t r out).map (pushTransfer H r)

/-- `ByteCodeExec::processingResults`; `none` when it returns false. -/
def processingResults (txs : List SilubiumTransaction) (results : List ResultExecute) :
    Option ByteCodeExecResult :=
  (txs.zip results).foldlM (fun out q => processResult H q.1 q.2 out) ByteCodeExecResult.empty

end ByteCodeExec

end Slucore

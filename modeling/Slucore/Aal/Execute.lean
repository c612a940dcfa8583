import Slucore.Aal.Condensing
/-!
# Aal — executing one contract output

`SilubiumState::execute` as the source has it: the sender is given the
money of the output and of the gas, the executive runs, accounts noted
for deletion are killed with their coins, the transfers are condensed
and both tries are committed; an exception on the way drops the caches.
What the byte code does is the trace, an argument of the function.
-/


namespace Slucore

/-- What executing contracts needs to know of the node. -/
structure AalEnv extends EvmEnv where
  /-- `SilubiumState::createSilubiumAddress`. -/
  createSilubiumAddress : UInt256 → ℕ → Address
  /-- `Transaction::baseGasRequired` under the current schedule. -/
  baseGasRequired : SilubiumTransaction → ℕ
  /-- The root of a trie that stores these accounts. -/
  accountRoot : (Address → Option Account) → UInt256
  /-- The root of a trie that stores these coins. -/
  vinRoot : (Address → Option Vin) → UInt256
  /-- `nFixUTXOCacheHFHeight` of the chain. -/
  nFixUTXOCacheHFHeight : ℕ

/-- What the virtual machine did for one output: the operations of the
outermost frame, how it ended, and the gas left with refunds included.
`outOfGas` is read when the receiver is a precompiled contract. -/
structure EvmTrace where
  outOfGas : Bool
  body : List Op
  ending : Ending
  gasLeft : U256

/-- `Permanence`. -/
inductive Permanence where
  | reverted | committed
deriving DecidableEq, Repr

/-- `ResultExecute`, as far as the node reads it. `none` as transaction is
`CTransaction()`. -/
structure ResultExecute where
  excepted : TransactionException
  gasUsed : U256
  newAddress : Address
  tx : Option CTransaction
deriving DecidableEq, Repr

/-- The global contract state: the state and the seal engine's
`deleteAddresses`. -/
structure AalState where
  state : SilubiumState
  deleteAddresses : List Address

namespace SilubiumState

variable (s : SilubiumState)

/-- `SilubiumState::kill`, of every address that satisfies `p`: the account
and its coin, where there are any. -/
def killAll (p : Address → Bool) : SilubiumState :=
  { s with
    cache := fun a => if p a then (s.account a).map Account.kill else s.cache a
    cacheUTXO := fun a =>
      if p a then (s.vin a).map fun v => { v with alive := false } else s.cacheUTXO a }

/-- `SilubiumState::deleteAccounts`. -/
def deleteAccounts (addrs : List Address) : SilubiumState := s.killAll addrs.contains

/-- `SilubiumState::updateUTXO`. -/
def updateUTXO (vins : Address → Option Vin) : SilubiumState :=
  { s with
    cacheUTXO := fun a =>
      match vins a, s.vin a with
      | none, _ => s.cacheUTXO a
      | some v, some _ => some v
      | some v, none => if v.alive then some v else s.cacheUTXO a }

/-- `silubium::commit`, and the cache cleared. -/
def commitUTXO (E : AalEnv) : SilubiumState :=
  let find := fun a =>
    match s.cacheUTXO a with
    | some v => if v.alive then some v else none
    | none => s.stateUTXO.find a
  { s with stateUTXO := ⟨E.vinRoot find, find⟩, cacheUTXO := fun _ => none }

/-- An account as the trie gives it back. -/
def stored (acc : Account) : Account := { acc with isUnchanged := true }

/-- `State::commit`: dirty accounts are written, dead ones removed, and with
`removeEmpty` dirty empty ones count as dead. -/
def commit (E : AalEnv) (removeEmpty : Bool) : SilubiumState :=
  let find := fun a =>
    match s.cache a with
    | some acc =>
      if acc.isDirty then
        if !acc.isAlive || (removeEmpty && acc.isEmpty) then none else some (stored acc)
      else s.trie.find a
    | none => s.trie.find a
  { s with trie := ⟨E.accountRoot find, find⟩, cache := fun _ => none, changeLog := [] }

/-- Both caches dropped. -/
def dropCaches : SilubiumState := { s with cache := fun _ => none, cacheUTXO := fun _ => none }

end SilubiumState

namespace SilubiumState

variable (H : Hashes) (E : AalEnv)

/-- `Executive::initialize`: the exception it throws, if any. The block has
used no gas yet. -/
def executiveInitialize (env : EnvInfo) (t : SilubiumTransaction) (s : SilubiumState) :
    Option TransactionException :=
  if env.gasLimit < t.gas.toNat then some .blockGasLimitReached
  else if t.gas.toNat < E.baseGasRequired t then some .outOfGasBase
  else if t.nonce ≠ s.getNonce t.sender then some .invalidNonce
  else if (s.balance t.sender).toNat < t.value.toNat + t.gas.toNat * t.gasPrice.toNat then
    some .notEnoughCash
  else none

/-- What `Executive::execute` and `Executive::go` leave: the configuration
at the savepoint, the one at the end, whether byte code was run, and the
address of a creation. -/
structure TopRun where
  start : EvmConfig
  final : EvmConfig
  ran : Bool
  newAddress : Address

/-- The outermost frame: `Executive::execute`, then `go`. The gas is paid
and the nonce raised before the savepoint. -/
def runTop (env : EnvInfo) (t : SilubiumTransaction) (trace : EvmTrace) (c : EvmConfig) :
    Option TopRun :=
  match c.state.subBalance t.sender (t.gas * t.gasPrice) with
  | none => none
  | some s =>
    let c₀ := { c with state := s.incNonce t.sender }
    if t.isCreation then
      match Executive.create E.toEvmEnv env t.sender (s.getNonce t.sender) t.value
          (!t.data.isEmpty) c₀ with
      | none => none
      | some (c₁, newAddr, false) => some ⟨c₀, c₁, false, newAddr⟩
      | some (c₁, newAddr, true) =>
        (Executive.execOps E.toEvmEnv env ⟨newAddr, t.sender, 0⟩ trace.body c₁).bind fun c₂ =>
          (Executive.close c₀ newAddr true trace.ending c₂).map fun c₃ => ⟨c₀, c₃, true, newAddr⟩
    else
      match Executive.call E.toEvmEnv env t.sender t.receiveAddress t.receiveAddress t.value
          trace.outOfGas c₀ with
      | none => none
      | some (c₁, false) => some ⟨c₀, c₁, false, 0⟩
      | some (c₁, true) =>
        (Executive.execOps E.toEvmEnv env ⟨t.receiveAddress, t.sender, 0⟩ trace.body c₁).bind
          fun c₂ => (Executive.close c₀ t.receiveAddress false trace.ending c₂).map
            fun c₃ => ⟨c₀, c₃, true, 0⟩

/-- The exception the outermost frame ended with. -/
def exceptedOf : Ending → TransactionException
  | .throw e => e.toTransactionException
  | _ => .none

/-- The gas left: none after an exception. -/
def gasLeftOf (trace : EvmTrace) : U256 :=
  match trace.ending with
  | .throw _ => 0
  | _ => trace.gasLeft

/-- `Executive::finalize`: gas back to the sender, fees to the author, and
the suicides killed. -/
def finalize (env : EnvInfo) (t : SilubiumTransaction) (gasLeft : U256) (suicides : List Address)
    (s : SilubiumState) : SilubiumState :=
  let s₁ := (s.addBalance t.sender (gasLeft * t.gasPrice)).1
  let s₂ := (s₁.addBalance env.author ((t.gas - gasLeft) * t.gasPrice)).1
  s₂.killAll suicides.contains

/-- The `catch` of `execute`: before the fork height the deletions are
committed and the coins' cache is left, after it both caches are dropped. -/
def handleException (tipHeight : ℕ) (p : Permanence) (deleteAddresses : List Address)
    (s : SilubiumState) : SilubiumState :=
  if tipHeight < E.nFixUTXOCacheHFHeight ∧ p ≠ .reverted then
    (s.deleteAccounts deleteAddresses).commit E true
  else s.dropCaches

/-- The refund of an output that condensed into too many outputs. -/
def voutLimitRefund (t : SilubiumTransaction) : Option CTransaction :=
  if 0 < t.value then
    some {
      vin := [{ prevout := ⟨t.hashWith, t.nVout⟩, scriptSig := spendScript }]
      vout := [⟨wrap64 (t.value.toNat % 2 ^ 64), payToPubkeyHash t.sender⟩] }
  else none

/-- The hash of a transaction that may be `CTransaction()`. -/
def nullableHash (tx : Option CTransaction) : UInt256 :=
  match tx with
  | some tx => tx.getHash H
  | none => 0

/-- What `execute` leaves behind in the members it resets. -/
def reset (s : SilubiumState) : SilubiumState := { s with newAddress := 0, transfers := [] }

/-- What the executive is given: the sender has the money of the output and
of the gas, and sender and author are noted for deletion. -/
def prologue (env : EnvInfo) (t : SilubiumTransaction) (w : AalState) : EvmConfig :=
  let s := (w.state.addBalance t.sender (t.value + t.gas * t.gasPrice)).1
  { state := { s with
      newAddress := if t.isCreation then E.createSilubiumAddress t.hashWith t.nVout else 0 }
    deleteAddresses := t.sender :: env.author :: w.deleteAddresses
    suicides := []
    undone := []
    opened := [] }

/-- The state after `finalize` and `deleteAccounts`. -/
def concluded (env : EnvInfo) (t : SilubiumTransaction) (trace : EvmTrace) (run : TopRun) :
    SilubiumState :=
  (finalize env t (gasLeftOf trace) run.final.suicides run.final.state).deleteAccounts
    run.final.deleteAddresses

/-- The `CondensingTX` that `execute` constructs. -/
def condensing (env : EnvInfo) (t : SilubiumTransaction) (trace : EvmTrace) (run : TopRun) :
    CondensingTX :=
  let s := concluded env t trace run
  ⟨s, s.transfers, t, run.final.deleteAddresses⟩

/-- `SilubiumState::execute`; `none` is an assertion or an exception that
nothing catches. -/
def execute (tipHeight : ℕ) (p : Permanence) (env : EnvInfo) (t : SilubiumTransaction)
    (trace : EvmTrace) (w : AalState) : Option (AalState × ResultExecute) :=
  if t.version ≠ VersionVM.evmDefault then none
  else
    let c := prologue E env t w
    let receiver := if t.isCreation then 0 else t.receiveAddress
    let failed (deleteAddresses : List Address) (s : SilubiumState) (e : TransactionException) :=
      some (⟨(s.handleException E tipHeight p deleteAddresses).reset, deleteAddresses⟩,
        (⟨e, t.gas, receiver, none⟩ : ResultExecute))
    if t.isCreation ∧ t.value ≠ 0 then failed c.deleteAddresses c.state .createWithValue
    else
      match executiveInitialize E env t c.state with
      | some e => failed c.deleteAddresses c.state e
      | none =>
        match runTop E env t trace c with
        | none => none
        | some run =>
          let deleteAddresses := run.final.deleteAddresses
          let back := fun (s : SilubiumState) => s.rollback run.start.state.savepoint
          if !run.ran then failed deleteAddresses (back run.final.state) .unknown
          else
            let excepted := exceptedOf trace.ending
            let newAddress :=
              if t.isCreation then (if excepted = .none then run.newAddress else 0)
              else t.receiveAddress
            let result := fun tx =>
              (⟨excepted, t.gas - gasLeftOf trace, newAddress, tx⟩ : ResultExecute)
            if p = .reverted then
              let s := finalize env t (gasLeftOf trace) run.final.suicides run.final.state
              some (⟨s.dropCaches.reset, deleteAddresses⟩, result none)
            else
              let removeEmpty := decide (E.eip158ForkBlock ≤ env.number)
              let s := concluded env t trace run
              if excepted = .none then
                let ctx := condensing env t trace run
                let tx := ctx.createCondensingTX
                if ctx.reachedVoutLimit then
                  let s' := (back s).handleException E tipHeight p deleteAddresses
                  some (⟨s'.reset, deleteAddresses⟩, ⟨.none, t.gas, 0, voutLimitRefund t⟩)
                else
                  let s' := s.updateUTXO (ctx.createVin (nullableHash H tx))
                  some (⟨((s'.commitUTXO E).commit E removeEmpty).reset, deleteAddresses⟩, result tx)
              else
                some (⟨((s.commitUTXO E).commit E removeEmpty).reset, deleteAddresses⟩, result none)

end SilubiumState

end Slucore

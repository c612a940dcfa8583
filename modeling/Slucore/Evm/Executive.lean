import Slucore.Evm.State
/-!
# Evm — the executive: frames, calls, creations and reverts

The EVM proper is an oracle. What the byte code of a frame does to the
state is a list of operations (`Op`), each of which may open a frame of
its own, and the way the frame ends; which operations those are is
arbitrary. This file models what the executive makes of them: the tests
in front of a call, the nonce, the savepoint, the transfer, the frame's
end, and the rollback of a frame that threw.

Two fields of the configuration are ghosts, written here and read
nowhere in the model: `undone` collects the transfers recorded inside
frames that were undone, and `opened` the addresses at which the frames
that stand created or touched an account.
-/


namespace Slucore

/-- `TransactionException`. -/
inductive TransactionException where
  | none | unknown | badRLP | invalidFormat | outOfGasIntrinsic | invalidSignature | invalidNonce
  | notEnoughCash | outOfGasBase | blockGasLimitReached | badInstruction | badJumpDestination
  | outOfGas | outOfStack | stackUnderflow | createWithValue | noInformation
deriving DecidableEq, Repr

/-- The exceptions the virtual machine throws. -/
inductive VMException where
  | badInstruction | badJumpDestination | outOfGas | outOfStack | stackUnderflow
  | createWithValue | other
deriving DecidableEq, Repr

/-- `toTransactionException`, on the exceptions of the virtual machine. -/
def VMException.toTransactionException : VMException → TransactionException
  | badInstruction => .badInstruction
  | badJumpDestination => .badJumpDestination
  | outOfGas => .outOfGas
  | outOfStack => .outOfStack
  | stackUnderflow => .stackUnderflow
  | createWithValue => .createWithValue
  | other => .unknown

/-- The three instructions that call. -/
inductive CallKind where
  | call | callcode | delegatecall
deriving DecidableEq, Repr

/-- How a frame ends. -/
inductive Ending where
  /-- `STOP` or `RETURN`; a creation deploys `out`. -/
  | ret (out : List UInt8)
  /-- `SUICIDE`, paying everything to `dest`. -/
  | suicide (dest : Address)
  /-- An exception of the virtual machine, running out of gas included. -/
  | throw (e : VMException)
deriving DecidableEq, Repr

/-- What the byte code of a frame does to the state. -/
inductive Op where
  | sstore (key value : ℕ)
  /-- One of the call instructions. `outOfGas` is read when the target is a
  precompiled contract, the body when it has code. -/
  | call (kind : CallKind) (codeAddress : Address) (value : U256) (outOfGas : Bool)
      (body : List Op) (ending : Ending)
  /-- `CREATE` without endowment (with one it throws). -/
  | create (hasInit : Bool) (body : List Op) (ending : Ending)

/-- What the executive knows of the node: the address a creation computes,
the precompiled contracts, and the block from which empty accounts are
removed. -/
structure EvmEnv where
  contractAddress : Address → ℕ → Address
  isPrecompiled : Address → ℕ → Bool
  eip158ForkBlock : ℕ

/-- `EnvInfo`, as far as the executive reads it. -/
structure EnvInfo where
  author : Address
  number : ℕ
  gasLimit : ℕ
deriving DecidableEq, Repr

/-- A running frame: an `ExtVM`. -/
structure Frame where
  myAddress : Address
  caller : Address
  depth : ℕ
deriving DecidableEq, Repr

/-- The state during execution, the seal engine's `deleteAddresses`, the
running frame's `sub.suicides`, and the ghosts. -/
structure EvmConfig where
  state : SilubiumState
  deleteAddresses : List Address
  suicides : List Address
  undone : List TransferInfo
  opened : List Address

namespace Executive

variable (E : EvmEnv) (env : EnvInfo)

/-- Note an address that is not in use for deletion. -/
def noteUnused (a : Address) (c : EvmConfig) : EvmConfig :=
  if c.state.addressInUse a then c else { c with deleteAddresses := a :: c.deleteAddresses }

/-- `transferBalance` on a configuration. -/
def transfer (src dst : Address) (value : U256) (c : EvmConfig) : Option EvmConfig :=
  (c.state.transferBalance src dst value).map fun p => { c with state := p.1 }

/-- `Executive::call` from its savepoint on: the configuration, and whether
there is byte code to run. -/
def call (sender receive codeAddress : Address) (value : U256) (outOfGas : Bool) (c : EvmConfig) :
    Option (EvmConfig × Bool) :=
  if E.isPrecompiled codeAddress env.number && outOfGas then
    if E.eip158ForkBlock ≤ env.number then
      let p := c.state.addBalance codeAddress 0
      some ({ c with state := p.1, opened := p.2 :: c.opened }, false)
    else some (c, false)
  else
    let hasExt := !E.isPrecompiled codeAddress env.number && c.state.addressHasCode codeAddress
    (transfer sender receive value (noteUnused receive c)).map fun c' => (c', hasExt)

/-- `Executive::create` from its savepoint on, with the nonce read before:
the configuration, the new address, and whether there is code to run. -/
def create (sender : Address) (nonce : ℕ) (endowment : U256) (hasInit : Bool) (c : EvmConfig) :
    Option (EvmConfig × Address × Bool) :=
  (c.state.transferBalance sender (E.contractAddress sender nonce) endowment).map fun p =>
    let newAddr := p.2
    let s := if E.eip158ForkBlock ≤ env.number then p.1.incNonce newAddr else p.1
    let s' := if !hasInit && s.addressHasCode newAddr then s.setNewCode newAddr [] else s
    ({ c with state := s', opened := newAddr :: c.opened }, newAddr, hasInit)

/-- The end of a frame: what `Executive::go` does when the byte code stops,
and `ExtVM` with what the frame leaves. `c₀` is the configuration at the
frame's savepoint. -/
def close (c₀ : EvmConfig) (my : Address) (isCreation : Bool) (ending : Ending) (c : EvmConfig) :
    Option EvmConfig :=
  match ending with
  | .ret out =>
    some { c with
      state := if isCreation then c.state.setNewCode my out else c.state
      suicides := c₀.suicides ++ c.suicides }
  | .suicide dest =>
    (transfer my dest (c.state.balance my) (noteUnused dest c)).map fun c' =>
      { c' with
        state := if isCreation then c'.state.setNewCode my [] else c'.state
        suicides := c₀.suicides ++ c.suicides ++ [my] }
  | .throw _ =>
    -- `revert`: the transfers recorded in the frame stay in the list
    some { c with
      state := c.state.rollback c₀.state.savepoint
      suicides := c₀.suicides
      undone := c₀.undone ++ c.state.transfers.drop c₀.state.transfers.length
      opened := c₀.opened }

mutual

/-- One operation of a running frame. -/
def execOp (f : Frame) : Op → EvmConfig → Option EvmConfig
  | .sstore key value, c => some { c with state := c.state.setStorage f.myAddress key value }
  | .call kind codeAddress value outOfGas body ending, c =>
    let valueTransfer := if kind = .delegatecall then 0 else value
    if c.state.balance f.myAddress < valueTransfer ∨ 1024 ≤ f.depth then some c
    else
      let sender := if kind = .delegatecall then f.caller else f.myAddress
      let receive := if kind = .call then codeAddress else f.myAddress
      match call E env sender receive codeAddress valueTransfer outOfGas c with
      | none => none
      | some (c₁, false) => some c₁
      | some (c₁, true) =>
        match execOps ⟨receive, sender, f.depth + 1⟩ body { c₁ with suicides := [] } with
        | none => none
        | some c₂ => close c receive false ending c₂
  | .create hasInit body ending, c =>
    if 1024 ≤ f.depth then some c
    else
      let nonce := c.state.getNonce f.myAddress
      let c₀ := { c with state := c.state.incNonce f.myAddress }
      match create E env f.myAddress nonce 0 hasInit c₀ with
      | none => none
      | some (c₁, _, false) => some c₁
      | some (c₁, newAddr, true) =>
        match execOps ⟨newAddr, f.myAddress, f.depth + 1⟩ body { c₁ with suicides := [] } with
        | none => none
        | some c₂ => close c₀ newAddr true ending c₂

/-- The operations of a frame, in order. -/
def execOps (f : Frame) : List Op → EvmConfig → Option EvmConfig
  | [], c => some c
  | op :: ops, c =>
    match execOp f op c with
    | none => none
    | some c' => execOps f ops c'

end

end Executive

end Slucore

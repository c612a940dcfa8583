import Slucore.Validation.Dgp
/-!
# Validation — contract calls and the block gas limit

`CallContract` asks the governance contracts for the block gas limit. With
`fGettingValuesDGP` the limit is the answer of a contract, which
`initDataTemplate` gets through `CallContract`: this call asks for the limit
again, in the same state, and calls the same contract. `callContract` follows
the calls down to a depth; the calls come to an end at some depth exactly
where no contract is asked (`callContract_terminates_iff`).
-/


namespace Slucore

/-- What a call comes to. -/
inductive CallOutcome (α : Type) where
  | returned (value : α)
  /-- An entry that is not stored was read. -/
  | undefined
  /-- There are more calls in one another than were followed. -/
  | unfinished
deriving DecidableEq, Repr

def CallOutcome.bind {α β : Type} : CallOutcome α → (α → CallOutcome β) → CallOutcome β
  | returned a, f => f a
  | undefined, _ => undefined
  | unfinished, _ => unfinished

/-- The transaction of a call; its value is zero and its gas price one. -/
structure CallTransaction where
  gasLimit : ℕ
  sender : Address
  receiver : Address
  data : List UInt8
deriving DecidableEq, Repr

/-- What `CallContract` reads: the flag, the contract state and the height of
the tip. The run on the tip's block, with this block gas limit, gives the
output of its only result; it always ends. -/
structure CallNode where
  fGettingValuesDGP : Bool
  sha3 : U256 → U256
  storage : Address → U256 → Option (U256 × U256)
  tipHeight : ℕ
  performByteCode : ℕ → CallTransaction → List UInt8

namespace CallNode

variable (N : CallNode)

/-- `SilubiumDGP`, with the output of the one call that it makes. -/
def silubiumDGP (output : List UInt8) : SilubiumDGP where
  dgpevm := N.fGettingValuesDGP
  sha3 := N.sha3
  storage := N.storage
  callContract _ _ := output

/-- `getBlockGasLimit` of the next height. `initStorages` makes a call if an
address is in effect and the flag is set. -/
def getBlockGasLimit (callContract : Address → List UInt8 → CallOutcome (List UInt8)) :
    CallOutcome ℕ :=
  match (N.silubiumDGP []).paramsInstance DgpContract.blockGasLimit.address with
  | none => .undefined
  | some l =>
    let address := SilubiumDGP.getAddressForBlock l (N.tipHeight + 1)
    if address ≠ 0 ∧ N.fGettingValuesDGP then
      (callContract address DgpContract.blockGasLimit.data).bind fun output =>
        .returned ((N.silubiumDGP output).blockGasLimitAt address)
    else .returned ((N.silubiumDGP []).blockGasLimitAt address)

/-- `CallContract`, followed down to a depth. -/
def callContract : ℕ → Address → List UInt8 → Address → ℕ → CallOutcome (List UInt8)
  | 0, _, _, _, _ => .unfinished
  | depth + 1, addrContract, opcode, sender, gasLimit =>
    (N.getBlockGasLimit fun addr data => callContract depth addr data 0 0).bind
      fun blockGasLimit =>
        let gasLimit := if gasLimit = 0 then blockGasLimit - 1 else gasLimit
        let senderAddress := if sender = 0 then 2 ^ 160 - 1 else sender
        .returned (N.performByteCode blockGasLimit ⟨gasLimit, senderAddress, addrContract, opcode⟩)

/-- The block gas limit of the next height is asked of a contract. -/
def AsksContract : Prop :=
  N.fGettingValuesDGP = true ∧
    ∃ l, (N.silubiumDGP []).paramsInstance DgpContract.blockGasLimit.address = some l ∧
      SilubiumDGP.getAddressForBlock l (N.tipHeight + 1) ≠ 0

variable {N}

/-! ## Depth -/

/-- Where a contract is asked, the limit is what becomes of the call. -/
theorem AsksContract.exists_call (h : N.AsksContract) :
    ∃ (address : Address) (f : List UInt8 → ℕ), ∀ call, N.getBlockGasLimit call =
      (call address DgpContract.blockGasLimit.data).bind fun output => .returned (f output) := by
  obtain ⟨hflag, l, hl, haddr⟩ := h
  let address := SilubiumDGP.getAddressForBlock l (N.tipHeight + 1)
  refine ⟨address, fun output => (N.silubiumDGP output).blockGasLimitAt address, fun call => ?_⟩
  rw [getBlockGasLimit, hl]
  exact if_pos ⟨haddr, hflag⟩

/-- Where none is asked, the limit is there without a call. -/
theorem getBlockGasLimit_of_not_asks (h : ¬ N.AsksContract)
    (call : Address → List UInt8 → CallOutcome (List UInt8)) :
    N.getBlockGasLimit call = .undefined ∨ ∃ limit, N.getBlockGasLimit call = .returned limit := by
  rw [getBlockGasLimit]
  cases hl : (N.silubiumDGP []).paramsInstance DgpContract.blockGasLimit.address with
  | none => exact .inl rfl
  | some l =>
    refine .inr ⟨_, if_neg ?_⟩
    rintro ⟨haddr, hflag⟩
    exact h ⟨hflag, l, hl, haddr⟩

/-- Each call makes the next one. -/
theorem AsksContract.callContract_unfinished (h : N.AsksContract) :
    ∀ (depth : ℕ) (addrContract : Address) (opcode : List UInt8) (sender : Address) (gasLimit : ℕ),
      N.callContract depth addrContract opcode sender gasLimit = .unfinished := by
  obtain ⟨address, f, hcall⟩ := h.exists_call
  intro depth
  induction depth with
  | zero => intros; rfl
  | succ depth ih =>
    intro addrContract opcode sender gasLimit
    rw [callContract, hcall, ih]
    rfl

/-- **Contract calls end exactly where no contract is asked for the limit.** For
every contract state, either value of the flag and every call. -/
theorem callContract_terminates_iff (N : CallNode) (addrContract : Address) (opcode : List UInt8)
    (sender : Address) (gasLimit : ℕ) :
    (∃ depth, N.callContract depth addrContract opcode sender gasLimit ≠ .unfinished) ↔
      ¬ N.AsksContract := by
  constructor
  · rintro ⟨depth, hend⟩ hasks
    exact hend (hasks.callContract_unfinished depth addrContract opcode sender gasLimit)
  intro hasks
  refine ⟨1, ?_⟩
  rw [callContract]
  rcases getBlockGasLimit_of_not_asks hasks
    (fun addr data => N.callContract 0 addr data 0 0) with hlim | ⟨limit, hlim⟩
  · rw [hlim]
    simp [CallOutcome.bind]
  · rw [hlim]
    simp [CallOutcome.bind]

/-! ## A limit that is asked for -/

/-- From height 1 on the block gas limit is governed by the contract at 0x99,
which answers with 0x2000000. -/
def governedNode (fGettingValuesDGP : Bool) : CallNode where
  fGettingValuesDGP := fGettingValuesDGP
  sha3 key := key + 1000
  storage addr hash :=
    if addr = DgpContract.blockGasLimit.address then
      if hash = 1000 then some (0, 1)
      else if hash = 2000 then some (1000, 1)
      else if hash = 2001 then some (1001, 0x99)
      else none
    else if addr = 0x99 ∧ hash = 1000 then some (0, 0x2000000)
    else none
  tipHeight := 600
  performByteCode _ _ := List.replicate 28 0 ++ [2, 0, 0, 0]

/-- **The call does not end.** With the flag set, a call of any contract asks
for the limit, and this call asks again. -/
theorem governed_call_endless :
    ¬ ∀ (N : CallNode) (addrContract : Address) (opcode : List UInt8) (sender : Address)
      (gasLimit : ℕ), ∃ depth,
        N.callContract depth addrContract opcode sender gasLimit ≠ .unfinished := by
  intro h
  obtain ⟨depth, hend⟩ := h (governedNode true) 0x77 [] 0 0
  have hasks : (governedNode true).AsksContract :=
    ⟨rfl, [(1, 0x99)], by decide, by decide⟩
  exact hend (hasks.callContract_unfinished depth 0x77 [] 0 0)

/-- Without the flag the same call is over at once. -/
example : (governedNode false).callContract 1 0x77 [] 0 0 =
    .returned (List.replicate 28 0 ++ [2, 0, 0, 0]) := by decide

end CallNode

end Slucore

import Slucore.Common.Checked
import Slucore.Primitives.ScriptNum
/-!
# Script — the interpreter

`EvalScript` as the source has it: a loop that reads one operation, makes
the checks that come before it, and executes it on two stacks. A stack is
a list with its top first. The caller keeps the stack however the loop
ends, so every way to stop carries the stack at that moment, also in the
middle of an operation. The flags, the signature checker and the hash
functions are parameters (`ScriptEnv`).
-/


namespace Slucore

/-- An element of a stack. -/
abbrev Valtype := List UInt8

/-- `ScriptError`, as far as `EvalScript` and the checks it calls set it. -/
inductive ScriptError where
  | unknownError | opReturn
  | scriptSize | pushSize | opCount | stackSize | sigCount | pubkeyCount
  | verify | equalVerify | checkMultiSigVerify | checkSigVerify | numEqualVerify
  | badOpcode | disabledOpcode | invalidStackOperation | invalidAltStackOperation
  | unbalancedConditional | negativeLockTime | unsatisfiedLockTime
  | sigHashType | sigDer | minimalData | sigHighS | sigNullDummy | pubkeyType | minimalIf
  | sigNullFail | discourageUpgradableNops | witnessPubkeyType
  | opCodeSeparator | sigFindAndDelete
deriving DecidableEq, Repr

/-- How `EvalScript` ends. -/
inductive ScriptExit where
  | success
  | error (serror : ScriptError)
deriving DecidableEq, Repr

/-- The hash functions that scripts can call. -/
structure ScriptHashes where
  ripemd160 : Valtype → Valtype
  sha1 : Valtype → Valtype
  sha256 : Valtype → Valtype
  hash160 : Valtype → Valtype
  hash256 : Valtype → Valtype

/-- The flags, the checker and the hash functions. -/
structure ScriptEnv extends ScriptHashes where
  minimalData : Bool
  checkLockTimeVerify : Bool
  checkSequenceVerify : Bool
  discourageUpgradableNops : Bool
  minimalIf : Bool
  nullFail : Bool
  nullDummy : Bool
  constScriptCode : Bool
  /-- The script is a witness script (`SigVersion::WITNESS_V0`). -/
  witnessV0 : Bool
  /-- `CheckSignatureEncoding` and `CheckPubKeyEncoding` under the flags:
  the error, if one fails. -/
  checkEncoding : Valtype → Valtype → Option ScriptError
  checkSig : Valtype → Valtype → CScript → Bool
  checkLockTime : ℤ → Bool
  checkSequence : ℤ → Bool

/-! ## Reading operations and numbers -/

/-- `MAX_SCRIPT_ELEMENT_SIZE`. -/
def maxScriptElementSize : ℕ := 128000

/-- `MAX_OPS_PER_SCRIPT`. -/
def maxOpsPerScript : ℕ := 201

/-- `MAX_PUBKEYS_PER_MULTISIG`. -/
def maxPubkeysPerMultisig : ℤ := 20

/-- `MAX_STACK_SIZE`. -/
def maxStackSize : ℕ := 1000

/-- `CScript::GetOp`: the next opcode, its operand, and the rest of the
script. -/
def getOp : CScript → Option (ℕ × Valtype × CScript)
  | [] => none
  | b :: pc =>
    match pushSize b.toNat pc with
    | none => none
    | some (nSize, pc') =>
      if pc'.length < nSize then none else some (b.toNat, pc'.take nSize, pc'.drop nSize)

/-- `CastToBool`: negative zero is false. -/
def castToBool : Valtype → Bool
  | [] => false
  | [b] => b != 0 && b != 0x80
  | b :: rest => b != 0 || castToBool rest

/-- `CScriptNum::set_vch`. -/
def setVch (vch : Valtype) : ℤ :=
  match vch.getLast? with
  | none => 0
  | some top =>
    if 0x80 ≤ top.toNat then -((readLE vch : ℤ) - 0x80 * 256 ^ (vch.length - 1)) else readLE vch

/-- A number is written with as few bytes as its sign allows. -/
def minimallyEncoded (vch : Valtype) : Bool :=
  match vch.reverse with
  | [] => true
  | [top] => top.toNat % 0x80 != 0
  | top :: below :: _ => top.toNat % 0x80 != 0 || decide (0x80 ≤ below.toNat)

/-- `CScriptNum`, of an element; `none` is the exception. -/
def scriptNum (fRequireMinimal : Bool) (nMaxNumSize : ℕ) (vch : Valtype) : Option ℤ :=
  if nMaxNumSize < vch.length then none
  else if fRequireMinimal && !minimallyEncoded vch then none
  else some (setVch vch)

/-- `CheckMinimalPush`. -/
def checkMinimalPush (data : Valtype) (opcode : ℕ) : Bool :=
  match data with
  | [] => opcode == 0
  | [b] => !(decide (1 ≤ b.toNat ∧ b.toNat ≤ 16) || b == 0x81) && opcode == 1
  | _ =>
    if data.length ≤ 75 then opcode == data.length
    else if data.length ≤ 255 then opcode == opPushData1
    else if data.length ≤ 65535 then opcode == opPushData2
    else true

/-- `vchTrue` and `vchFalse`. -/
def ofBool (b : Bool) : Valtype := if b then [1] else []

/-! ## Operations -/

/-- The operations that rearrange the stack. -/
inductive StackOp where
  | drop2 | dup2 | dup3 | over2 | rot2 | swap2 | ifDup | depth | drop | dup | nip | over | rot
  | swap | tuck | size
deriving DecidableEq, Repr

/-- The operations on one number. -/
inductive UnaryOp where
  | add1 | sub1 | negate | abs | not | notEqual0
deriving DecidableEq, Repr

/-- The operations on two numbers. -/
inductive BinaryOp where
  | add | sub | boolAnd | boolOr | numEqual | numEqualVerify | numNotEqual | lessThan | greaterThan
  | lessThanOrEqual | greaterThanOrEqual | min | max
deriving DecidableEq, Repr

inductive HashOp where
  | ripemd160 | sha1 | sha256 | hash160 | hash256
deriving DecidableEq, Repr

/-- What an opcode does. A flag tells the variants of one operation apart:
`OP_NOTIF`, `OP_ROLL`, and those that end with `VERIFY`. -/
inductive Operation where
  | push
  | num (n : ℤ)
  | nop | checkLockTimeVerify | checkSequenceVerify | upgradableNop
  | ifOp (negated : Bool) | elseOp | endIf | verify | returnOp
  | toAltStack | fromAltStack
  | stack (op : StackOp)
  | pick (roll : Bool)
  | equal (verify : Bool)
  | unary (op : UnaryOp)
  | binary (op : BinaryOp)
  | within
  | hash (op : HashOp)
  | codeSeparator
  | checkSig (verify : Bool)
  | checkMultiSig (verify : Bool)
  | spend
  | contract
  | disabled
  | bad
deriving DecidableEq, Repr

/-- The operation of an opcode. -/
def operation (opcode : ℕ) : Operation :=
  if opcode ≤ opPushData4 then .push
  else if 0x51 ≤ opcode ∧ opcode ≤ 0x60 then .num (opcode - 0x50)
  else match opcode with
  | 0x4f => .num (-1)
  | 0x61 => .nop
  | 0x63 => .ifOp false
  | 0x64 => .ifOp true
  | 0x67 => .elseOp
  | 0x68 => .endIf
  | 0x69 => .verify
  | 0x6a => .returnOp
  | 0x6b => .toAltStack
  | 0x6c => .fromAltStack
  | 0x6d => .stack .drop2
  | 0x6e => .stack .dup2
  | 0x6f => .stack .dup3
  | 0x70 => .stack .over2
  | 0x71 => .stack .rot2
  | 0x72 => .stack .swap2
  | 0x73 => .stack .ifDup
  | 0x74 => .stack .depth
  | 0x75 => .stack .drop
  | 0x76 => .stack .dup
  | 0x77 => .stack .nip
  | 0x78 => .stack .over
  | 0x79 => .pick false
  | 0x7a => .pick true
  | 0x7b => .stack .rot
  | 0x7c => .stack .swap
  | 0x7d => .stack .tuck
  | 0x82 => .stack .size
  | 0x87 => .equal false
  | 0x88 => .equal true
  | 0x8b => .unary .add1
  | 0x8c => .unary .sub1
  | 0x8f => .unary .negate
  | 0x90 => .unary .abs
  | 0x91 => .unary .not
  | 0x92 => .unary .notEqual0
  | 0x93 => .binary .add
  | 0x94 => .binary .sub
  | 0x9a => .binary .boolAnd
  | 0x9b => .binary .boolOr
  | 0x9c => .binary .numEqual
  | 0x9d => .binary .numEqualVerify
  | 0x9e => .binary .numNotEqual
  | 0x9f => .binary .lessThan
  | 0xa0 => .binary .greaterThan
  | 0xa1 => .binary .lessThanOrEqual
  | 0xa2 => .binary .greaterThanOrEqual
  | 0xa3 => .binary .min
  | 0xa4 => .binary .max
  | 0xa5 => .within
  | 0xa6 => .hash .ripemd160
  | 0xa7 => .hash .sha1
  | 0xa8 => .hash .sha256
  | 0xa9 => .hash .hash160
  | 0xaa => .hash .hash256
  | 0xab => .codeSeparator
  | 0xac => .checkSig false
  | 0xad => .checkSig true
  | 0xae => .checkMultiSig false
  | 0xaf => .checkMultiSig true
  | 0xb1 => .checkLockTimeVerify
  | 0xb2 => .checkSequenceVerify
  | 0xc1 => .contract
  | 0xc2 => .contract
  | 0xc3 => .spend
  | _ =>
    -- `OP_CAT` to `OP_RIGHT`, the bitwise operations, and the disabled arithmetic
    if opcode ∈ [0x7e, 0x7f, 0x80, 0x81, 0x83, 0x84, 0x85, 0x86, 0x8d, 0x8e, 0x95, 0x96, 0x97, 0x98,
      0x99] then .disabled
    -- `OP_NOP1` and `OP_NOP4` to `OP_NOP10`
    else if opcode = 0xb0 ∨ (0xb3 ≤ opcode ∧ opcode ≤ 0xb9) then .upgradableNop
    else .bad

/-- The variables of the loop. -/
structure ScriptState where
  stack : List Valtype
  altstack : List Valtype
  vfExec : List Bool
  nOpCount : ℕ
  /-- The script from `pbegincodehash` on. -/
  codeHash : CScript

/-- What an operation leads to: the next state, or the end with the stack
that is left. -/
abbrev ScriptStep := Except (ScriptExit × List Valtype) ScriptState

namespace ScriptState

/-- Stop with an error, and the stack as it is. -/
def fail (s : ScriptState) (serror : ScriptError) : ScriptStep := .error (.error serror, s.stack)

/-- Go on with another stack. -/
def next (s : ScriptState) (stack : List Valtype) : ScriptStep := .ok { s with stack }

/-- Leave a truth value on the stack; the `VERIFY` variants take it off
again, or stop with it. -/
def leave (s : ScriptState) (b verify : Bool) (serror : ScriptError) (stack : List Valtype) :
    ScriptStep :=
  if verify then
    if b then s.next stack else .error (.error serror, ofBool b :: stack)
  else s.next (ofBool b :: stack)

end ScriptState

/-- The new stack; `none` if there are too few elements. -/
def StackOp.run : StackOp → List Valtype → Option (List Valtype)
  | .drop2, _ :: _ :: st => some st
  | .dup2, x2 :: x1 :: st => some (x2 :: x1 :: x2 :: x1 :: st)
  | .dup3, x3 :: x2 :: x1 :: st => some (x3 :: x2 :: x1 :: x3 :: x2 :: x1 :: st)
  | .over2, x4 :: x3 :: x2 :: x1 :: st => some (x2 :: x1 :: x4 :: x3 :: x2 :: x1 :: st)
  | .rot2, x6 :: x5 :: x4 :: x3 :: x2 :: x1 :: st => some (x2 :: x1 :: x6 :: x5 :: x4 :: x3 :: st)
  | .swap2, x4 :: x3 :: x2 :: x1 :: st => some (x2 :: x1 :: x4 :: x3 :: st)
  | .ifDup, x :: st => some (if castToBool x then x :: x :: st else x :: st)
  | .depth, st => some (scriptNumSerialize st.length :: st)
  | .drop, _ :: st => some st
  | .dup, x :: st => some (x :: x :: st)
  | .nip, x2 :: _ :: st => some (x2 :: st)
  | .over, x2 :: x1 :: st => some (x1 :: x2 :: x1 :: st)
  | .rot, x3 :: x2 :: x1 :: st => some (x1 :: x3 :: x2 :: st)
  | .swap, x2 :: x1 :: st => some (x1 :: x2 :: st)
  | .tuck, x2 :: x1 :: st => some (x2 :: x1 :: x2 :: st)
  | .size, x :: st => some (scriptNumSerialize x.length :: x :: st)
  | _, _ => none

def UnaryOp.run : UnaryOp → ℤ → ℤ
  | .add1, bn => bn + 1
  | .sub1, bn => bn - 1
  | .negate, bn => -bn
  | .abs, bn => if bn < 0 then -bn else bn
  | .not, bn => if bn = 0 then 1 else 0
  | .notEqual0, bn => if bn ≠ 0 then 1 else 0

def BinaryOp.run : BinaryOp → ℤ → ℤ → ℤ
  | .add, bn1, bn2 => bn1 + bn2
  | .sub, bn1, bn2 => bn1 - bn2
  | .boolAnd, bn1, bn2 => if bn1 ≠ 0 ∧ bn2 ≠ 0 then 1 else 0
  | .boolOr, bn1, bn2 => if bn1 ≠ 0 ∨ bn2 ≠ 0 then 1 else 0
  | .numEqual, bn1, bn2 => if bn1 = bn2 then 1 else 0
  | .numEqualVerify, bn1, bn2 => if bn1 = bn2 then 1 else 0
  | .numNotEqual, bn1, bn2 => if bn1 ≠ bn2 then 1 else 0
  | .lessThan, bn1, bn2 => if bn1 < bn2 then 1 else 0
  | .greaterThan, bn1, bn2 => if bn2 < bn1 then 1 else 0
  | .lessThanOrEqual, bn1, bn2 => if bn1 ≤ bn2 then 1 else 0
  | .greaterThanOrEqual, bn1, bn2 => if bn2 ≤ bn1 then 1 else 0
  | .min, bn1, bn2 => if bn1 < bn2 then bn1 else bn2
  | .max, bn1, bn2 => if bn2 < bn1 then bn1 else bn2

/-! ### Signatures -/

/-- The inner loop of `FindAndDelete`: the script behind the copies of `b`
it starts with, and their number. -/
def dropCopies (b : CScript) : ℕ → CScript → CScript × ℕ
  | 0, pc => (pc, 0)
  | fuel + 1, pc =>
    if b.isPrefixOf pc then
      let (pc', nFound) := dropCopies b fuel (pc.drop b.length)
      (pc', nFound + 1)
    else (pc, 0)

/-- The outer loop of `FindAndDelete`. -/
def findAndDeleteFrom (b : CScript) : ℕ → CScript → CScript × ℕ
  | 0, pc => (pc, 0)
  | fuel + 1, pc =>
    let (pc, nFound) := dropCopies b pc.length pc
    match getOp pc with
    | none => (pc, nFound)
    | some (_, _, pc') =>
      let (result, nFound') := findAndDeleteFrom b fuel pc'
      (pc.take (pc.length - pc'.length) ++ result, nFound + nFound')

/-- `FindAndDelete`: the script without `b` where an operation starts, and
how often it was there. -/
def findAndDelete (script b : CScript) : CScript × ℕ :=
  if b.isEmpty then (script, 0) else findAndDeleteFrom b (script.length + 1) script

namespace ScriptEnv

variable (E : ScriptEnv)

/-- A number of an element of the stack, of the default size. -/
def readNum (vch : Valtype) : Option ℤ := scriptNum E.minimalData 4 vch

/-- The script that the signatures sign: they are dropped from it unless it
is a witness script. `none` where that is an error. -/
def scriptCode (codeHash : CScript) (sigs : List Valtype) : Option CScript :=
  sigs.foldlM (fun code vchSig =>
    if E.witnessV0 then some code
    else
      let (code', found) := findAndDelete code (pushData vchSig)
      if 0 < found && E.constScriptCode then none else some code') codeHash

/-- `OP_CHECKSIG`. -/
def execCheckSig (verify : Bool) (s : ScriptState) : ScriptStep :=
  match s.stack with
  | vchPubKey :: vchSig :: st =>
    match E.scriptCode s.codeHash [vchSig] with
    | none => s.fail .sigFindAndDelete
    | some code =>
      match E.checkEncoding vchSig vchPubKey with
      | some serror => s.fail serror
      | none =>
        let fSuccess := E.checkSig vchSig vchPubKey code
        if !fSuccess && E.nullFail && !vchSig.isEmpty then s.fail .sigNullFail
        else s.leave fSuccess verify .checkSigVerify st
  | _ => s.fail .invalidStackOperation

/-- The loop over the signatures and the keys. -/
def verifySigs (code : CScript) : List Valtype → List Valtype → Except ScriptError Bool
  | [], _ => .ok true
  | _ :: _, [] => .ok false
  | vchSig :: sigs, vchPubKey :: keys =>
    match E.checkEncoding vchSig vchPubKey with
    | some serror => .error serror
    | none =>
      let sigs := if E.checkSig vchSig vchPubKey code then sigs else vchSig :: sigs
      if keys.length < sigs.length then .ok false else verifySigs code sigs keys

/-- `OP_CHECKMULTISIG` from the check of the signatures on: they and the
element below them are still to be taken off the stack. -/
def finishMultiSig (verify : Bool) (s : ScriptState) (keys sigs below : List Valtype) :
    ScriptStep :=
  match E.scriptCode s.codeHash sigs with
  | none => s.fail .sigFindAndDelete
  | some code =>
    match E.verifySigs code sigs keys with
    | .error serror => s.fail serror
    | .ok fSuccess =>
      -- with the flag, a signature that failed must be empty
      let left := if !fSuccess && E.nullFail then sigs.dropWhile List.isEmpty else []
      if !left.isEmpty then .error (.error .sigNullFail, left ++ below)
      else match below with
        | [] => .error (.error .invalidStackOperation, [])
        | dummy :: st =>
          if E.nullDummy && !dummy.isEmpty then .error (.error .sigNullDummy, below)
          else s.leave fSuccess verify .checkMultiSigVerify st

/-- `OP_CHECKMULTISIG`. -/
def execCheckMultiSig (verify : Bool) (s : ScriptState) : ScriptStep :=
  match s.stack with
  | [] => s.fail .invalidStackOperation
  | top :: st =>
    match E.readNum top with
    | none => s.fail .unknownError
    | some nKeysCount =>
      if nKeysCount < 0 ∨ maxPubkeysPerMultisig < nKeysCount then s.fail .pubkeyCount
      else
        let nKeys := nKeysCount.toNat
        let s := { s with nOpCount := s.nOpCount + nKeys }
        if maxOpsPerScript < s.nOpCount then s.fail .opCount
        else match st.drop nKeys with
          | [] => s.fail .invalidStackOperation
          | second :: st' =>
            match E.readNum second with
            | none => s.fail .unknownError
            | some nSigsCount =>
              if nSigsCount < 0 ∨ nKeysCount < nSigsCount then s.fail .sigCount
              else if st'.length < nSigsCount.toNat + 1 then s.fail .invalidStackOperation
              else E.finishMultiSig verify s (st.take nKeys) (st'.take nSigsCount.toNat)
                (st'.drop nSigsCount.toNat)

/-! ### One operation -/

/-- `OP_CHECKLOCKTIMEVERIFY`, whose operand may have five bytes. -/
def execCheckLockTime (s : ScriptState) : ScriptStep :=
  if !E.checkLockTimeVerify then .ok s
  else match s.stack with
    | [] => s.fail .invalidStackOperation
    | x :: _ =>
      match scriptNum E.minimalData 5 x with
      | none => s.fail .unknownError
      | some nLockTime =>
        if nLockTime < 0 then s.fail .negativeLockTime
        else if !E.checkLockTime nLockTime then s.fail .unsatisfiedLockTime
        else .ok s

/-- `OP_CHECKSEQUENCEVERIFY`; an operand with the bit `1 << 31` asks for
nothing. -/
def execCheckSequence (s : ScriptState) : ScriptStep :=
  if !E.checkSequenceVerify then .ok s
  else match s.stack with
    | [] => s.fail .invalidStackOperation
    | x :: _ =>
      match scriptNum E.minimalData 5 x with
      | none => s.fail .unknownError
      | some nSequence =>
        if nSequence < 0 then s.fail .negativeLockTime
        else if nSequence.toNat.testBit 31 then .ok s
        else if !E.checkSequence nSequence then s.fail .unsatisfiedLockTime
        else .ok s

/-- `OP_IF` and `OP_NOTIF`. -/
def execIf (negated fExec : Bool) (s : ScriptState) : ScriptStep :=
  if !fExec then .ok { s with vfExec := false :: s.vfExec }
  else match s.stack with
    | [] => s.fail .unbalancedConditional
    | vch :: st =>
      if E.witnessV0 && E.minimalIf && !(vch.isEmpty || vch == [1]) then s.fail .minimalIf
      else .ok { s with stack := st, vfExec := (castToBool vch != negated) :: s.vfExec }

/-- `OP_PICK` and `OP_ROLL`. -/
def execPick (roll : Bool) (s : ScriptState) : ScriptStep :=
  match s.stack with
  | x :: y :: st =>
    match E.readNum x with
    | none => s.fail .unknownError
    | some n =>
      match if n < 0 then none else (y :: st)[n.toNat]? with
      | none => .error (.error .invalidStackOperation, y :: st)
      | some vch => s.next (vch :: if roll then (y :: st).eraseIdx n.toNat else y :: st)
  | _ => s.fail .invalidStackOperation

def execUnary (op : UnaryOp) (s : ScriptState) : ScriptStep :=
  match s.stack with
  | [] => s.fail .invalidStackOperation
  | x :: st =>
    match E.readNum x with
    | none => s.fail .unknownError
    | some bn => s.next (scriptNumSerialize (op.run bn) :: st)

def execBinary (op : BinaryOp) (s : ScriptState) : ScriptStep :=
  match s.stack with
  | x2 :: x1 :: st =>
    match E.readNum x1, E.readNum x2 with
    | some bn1, some bn2 =>
      let bn := op.run bn1 bn2
      if op = .numEqualVerify then s.leave (decide (bn ≠ 0)) true .numEqualVerify st
      else s.next (scriptNumSerialize bn :: st)
    | _, _ => s.fail .unknownError
  | _ => s.fail .invalidStackOperation

def execWithin (s : ScriptState) : ScriptStep :=
  match s.stack with
  | x3 :: x2 :: x1 :: st =>
    match E.readNum x1, E.readNum x2, E.readNum x3 with
    | some bn1, some bn2, some bn3 => s.next (ofBool (decide (bn2 ≤ bn1 ∧ bn1 < bn3)) :: st)
    | _, _, _ => s.fail .unknownError
  | _ => s.fail .invalidStackOperation

def hash : HashOp → Valtype → Valtype
  | .ripemd160 => E.ripemd160
  | .sha1 => E.sha1
  | .sha256 => E.sha256
  | .hash160 => E.hash160
  | .hash256 => E.hash256

/-- The `switch` of `EvalScript`. The script is cut in two: `scriptRest`
starts with the operation, `pc` behind it. -/
def exec (fExec : Bool) (scriptRest pc : CScript) (s : ScriptState) : Operation → ScriptStep
  | .push => .ok s
  | .num n => s.next (scriptNumSerialize n :: s.stack)
  | .nop => .ok s
  | .checkLockTimeVerify => E.execCheckLockTime s
  | .checkSequenceVerify => E.execCheckSequence s
  | .upgradableNop =>
    if E.discourageUpgradableNops then s.fail .discourageUpgradableNops else .ok s
  | .ifOp negated => E.execIf negated fExec s
  | .elseOp =>
    match s.vfExec with
    | [] => s.fail .unbalancedConditional
    | b :: vfExec => .ok { s with vfExec := (!b) :: vfExec }
  | .endIf =>
    match s.vfExec with
    | [] => s.fail .unbalancedConditional
    | _ :: vfExec => .ok { s with vfExec }
  | .verify =>
    match s.stack with
    | [] => s.fail .invalidStackOperation
    | x :: st => if castToBool x then s.next st else s.fail .verify
  | .returnOp => s.fail .opReturn
  | .toAltStack =>
    match s.stack with
    | [] => s.fail .invalidStackOperation
    | x :: st => .ok { s with stack := st, altstack := x :: s.altstack }
  | .fromAltStack =>
    match s.altstack with
    | [] => s.fail .invalidAltStackOperation
    | x :: altstack => .ok { s with stack := x :: s.stack, altstack }
  | .stack op =>
    match op.run s.stack with
    | none => s.fail .invalidStackOperation
    | some st => s.next st
  | .pick roll => E.execPick roll s
  | .equal verify =>
    match s.stack with
    | x2 :: x1 :: st => s.leave (x1 == x2) verify .equalVerify st
    | _ => s.fail .invalidStackOperation
  | .unary op => E.execUnary op s
  | .binary op => E.execBinary op s
  | .within => E.execWithin s
  | .hash op =>
    match s.stack with
    | [] => s.fail .invalidStackOperation
    | x :: st => s.next (E.hash op x :: st)
  | .codeSeparator => .ok { s with codeHash := pc }
  | .checkSig verify => E.execCheckSig verify s
  | .checkMultiSig verify => E.execCheckMultiSig verify s
  | .spend => .error (.success, s.stack)
  -- the interpreter stops here, with the rest of the script on the stack
  | .contract => .error (.success, scriptRest :: s.stack)
  | .disabled => s.fail .disabledOpcode
  | .bad => s.fail .badOpcode

/-! ## The loop -/

/-- One turn of the loop: the script that is left, and the state. -/
def step (script : CScript) (s : ScriptState) :
    Except (ScriptExit × List Valtype) (CScript × ScriptState) := do
  let fExec := s.vfExec.all id
  let stop (serror : ScriptError) := (ScriptExit.error serror, s.stack)
  let (opcode, vchPushValue, pc) ← orThrow (getOp script) (stop .badOpcode)
  require (decide (vchPushValue.length ≤ maxScriptElementSize)) (stop .pushSize)
  let s := { s with nOpCount := if 0x60 < opcode then s.nOpCount + 1 else s.nOpCount }
  require (decide (opcode ≤ 0x60 ∨ s.nOpCount ≤ maxOpsPerScript)) (stop .opCount)
  let op := operation opcode
  require (op != .disabled) (stop .disabledOpcode)
  require (!(op == .codeSeparator && !E.witnessV0 && E.constScriptCode)) (stop .opCodeSeparator)
  let s ←
    if fExec && decide (opcode ≤ opPushData4) then do
      require (!E.minimalData || checkMinimalPush vchPushValue opcode) (stop .minimalData)
      s.next (vchPushValue :: s.stack)
    else if fExec || decide (0x63 ≤ opcode ∧ opcode ≤ 0x68) then E.exec fExec script pc s op
    else pure s
  require (decide (s.stack.length + s.altstack.length ≤ maxStackSize))
    (ScriptExit.error .stackSize, s.stack)
  return (pc, s)

/-- The loop; every turn takes at least one byte of the script. -/
def run : ℕ → CScript → ScriptState → ScriptStep
  | 0, _, s => .ok s
  | fuel + 1, script, s =>
    if script.isEmpty then .ok s
    else do
      let (pc, s) ← E.step script s
      run fuel pc s

/-- `EvalScript`: how it ends, and the stack it leaves. -/
def evalScript (stack : List Valtype) (script : CScript) : ScriptExit × List Valtype :=
  if maxScriptSize < script.length then (.error .scriptSize, stack)
  else match E.run script.length script ⟨stack, [], [], 0, script⟩ with
    | .error (ended, stack) => (ended, stack)
    | .ok s =>
      if s.vfExec.isEmpty then (.success, s.stack) else (.error .unbalancedConditional, s.stack)

end ScriptEnv

end Slucore

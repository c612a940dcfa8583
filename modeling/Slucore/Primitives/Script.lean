import Mathlib.Tactic
/-!
# Primitives — scripts and the pushes the node writes

A script is its byte string. This file models the part of the script
class that consensus code outside the interpreter reads: stepping over
one operation, counting an opcode, the contract tests, the test for
outputs that can never be spent, and the encoding of an integer push
(the form in which a coinbase states its height).
-/


namespace Slucore

/-- A serialized script. -/
abbrev CScript := List UInt8

def opReturn : ℕ := 0x6a
def opCreate : ℕ := 0xc1
def opCall : ℕ := 0xc2
def opSpend : ℕ := 0xc3
def opCheckSig : ℕ := 0xac
def opCheckSigVerify : ℕ := 0xad
def opCheckMultiSig : ℕ := 0xae
def opCheckMultiSigVerify : ℕ := 0xaf
def opPushData1 : ℕ := 0x4c
def opPushData2 : ℕ := 0x4d
def opPushData4 : ℕ := 0x4e

/-- `MAX_SCRIPT_SIZE`. -/
def maxScriptSize : ℕ := 129000

/-- The number a little-endian byte string spells. -/
def readLE : List UInt8 → ℕ
  | [] => 0
  | b :: bs => b.toNat + 256 * readLE bs

/-- The operand length that follows `opcode`, and the bytes after the
length field; `none` when the field is cut short. Opcodes above
`OP_PUSHDATA4` carry no operand. -/
def pushSize (opcode : ℕ) (pc : CScript) : Option (ℕ × CScript) :=
  if opcode < opPushData1 then some (opcode, pc)
  else if opcode = opPushData1 then
    if pc.length < 1 then none else some (readLE (pc.take 1), pc.drop 1)
  else if opcode = opPushData2 then
    if pc.length < 2 then none else some (readLE (pc.take 2), pc.drop 2)
  else if opcode = opPushData4 then
    if pc.length < 4 then none else some (readLE (pc.take 4), pc.drop 4)
  else some (0, pc)

/-- `GetScriptOp`: the next opcode and the rest of the script after its
operand; `none` at the end or when an operand is cut short. -/
def getScriptOp : CScript → Option (ℕ × CScript)
  | [] => none
  | b :: pc =>
    match pushSize b.toNat pc with
    | none => none
    | some (nSize, pc') =>
      if pc'.length < nSize then none else some (b.toNat, pc'.drop nSize)

/-- The loop of `CScript::Find`, which stops at the end of the script or
at the first operation that does not parse. Each turn consumes a byte,
so the length of the script bounds the number of turns. -/
def findFrom (op : ℕ) : ℕ → CScript → ℕ
  | 0, _ => 0
  | fuel + 1, pc =>
    match getScriptOp pc with
    | none => 0
    | some (opcode, pc') => (if opcode = op then 1 else 0) + findFrom op fuel pc'

namespace CScript

/-- `CScript::Find`: how many operations of the script are `op`. -/
def find (s : CScript) (op : ℕ) : ℕ := findFrom op s.length s

/-- `CScript::GetSigOpCount(false)`: a multisignature counts as 20. -/
def getSigOpCount (s : CScript) : ℕ :=
  s.find opCheckSig + s.find opCheckSigVerify +
    20 * (s.find opCheckMultiSig + s.find opCheckMultiSigVerify)

/-- `CScript::HasOpCreate`. -/
def hasOpCreate (s : CScript) : Bool := s.find opCreate == 1

/-- `CScript::HasOpCall`. -/
def hasOpCall (s : CScript) : Bool := s.find opCall == 1

/-- `CScript::HasOpSpend`: the whole script is the one byte `OP_SPEND`. -/
def hasOpSpend (s : CScript) : Bool := s.map UInt8.toNat == [opSpend]

/-- `CScript::IsUnspendable`. -/
def isUnspendable (s : CScript) : Bool :=
  (s.head?.map UInt8.toNat == some opReturn) || decide (maxScriptSize < s.length)

end CScript

/-! ## Pushing an integer -/

/-- The bytes of `n`, least significant first, with no leading zero byte:
the loop `while (absvalue)` of `CScriptNum::serialize`. A 64-bit value has
at most eight bytes. -/
def absBytes : ℕ → ℕ → List UInt8
  | 0, _ => []
  | fuel + 1, n => if n = 0 then [] else UInt8.ofNat n :: absBytes fuel (n / 256)

/-- `CScriptNum::serialize`: the magnitude's bytes, and the sign in the
top bit of the last byte, for which a byte is added when it is taken. -/
def scriptNumSerialize (value : ℤ) : List UInt8 :=
  let neg := decide (value < 0)
  let result := absBytes 8 value.natAbs
  match result.getLast? with
  | none => []
  | some top =>
    if 0x80 ≤ top.toNat then result ++ [if neg then 0x80 else 0]
    else if neg then result.dropLast ++ [top + 0x80]
    else result

/-- `CScript::operator<<` on a byte vector. -/
def pushData (b : List UInt8) : CScript :=
  let n := b.length
  (if n < opPushData1 then [UInt8.ofNat n]
   else if n ≤ 0xff then [UInt8.ofNat opPushData1, UInt8.ofNat n]
   else if n ≤ 0xffff then
     [UInt8.ofNat opPushData2, UInt8.ofNat n, UInt8.ofNat (n / 256)]
   else
     [UInt8.ofNat opPushData4, UInt8.ofNat n, UInt8.ofNat (n / 256),
      UInt8.ofNat (n / 256 ^ 2), UInt8.ofNat (n / 256 ^ 3)]) ++ b

/-- `CScript() << n`, through `push_int64`. -/
def pushInt64 (n : ℤ) : CScript :=
  if n = -1 ∨ (1 ≤ n ∧ n ≤ 16) then [UInt8.ofNat (n + 0x50).toNat]
  else if n = 0 then [0]
  else pushData (scriptNumSerialize n)

end Slucore

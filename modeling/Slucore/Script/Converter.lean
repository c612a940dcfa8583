import Slucore.Script.Interpreter
import Slucore.Validation.Node
/-!
# Script — contract outputs as transactions of the virtual machine

`SilubiumTxConverter` runs the script of every contract output, with a
checker that accepts no signature, and takes the parameters of the call
off the stack. The stack is a member of the converter: what a script
leaves on it is there when the next one runs, and whether a script runs
to its contract opcode at all is not looked at.
-/


namespace Slucore

/-- The environment of the converter: `SCRIPT_EXEC_BYTE_CODE` is the only
flag, and `BaseSignatureChecker` accepts nothing. -/
def ScriptEnv.execByteCode (hashes : ScriptHashes) : ScriptEnv where
  toScriptHashes := hashes
  minimalData := false
  checkLockTimeVerify := false
  checkSequenceVerify := false
  discourageUpgradableNops := false
  minimalIf := false
  nullFail := false
  nullDummy := false
  constScriptCode := false
  witnessV0 := false
  checkEncoding _ _ := none
  checkSig _ _ _ := false
  checkLockTime _ := false
  checkSequence _ := false

/-- `CScriptNum::vch_to_uint64`; `none` is the exception. -/
def vchToUint64 (vch : Valtype) : Option ℕ :=
  if 8 < vch.length then none
  else match vch.getLast? with
    | none => some 0
    | some top => if 0x80 ≤ top.toNat then none else some (readLE vch)

namespace VersionVM

/-- `VersionVM::toRaw`: two bits, six bits, one byte and two bytes. -/
def toRaw (v : VersionVM) : ℕ :=
  v.format + 4 * v.rootVM + 2 ^ 8 * v.vmVersion + 2 ^ 16 * v.flagOptions

/-- `VersionVM::fromRaw`. -/
def fromRaw (val : ℕ) : VersionVM :=
  ⟨val % 4, val / 4 % 64, val / 2 ^ 8 % 2 ^ 8, val / 2 ^ 16 % 2 ^ 16⟩

/-- `VersionVM::GetNoExec`. -/
def noExec : VersionVM := ⟨0, 0, 0, 0⟩

end VersionVM

/-- `dev::Address` of a string of bytes: zero unless there are twenty. -/
def addressOfBytes (bytes : List UInt8) : Address :=
  if bytes.length = 20 then bytes.foldl (fun n b => 256 * n + b.toNat) 0 else 0

/-- `EthTransactionParams`. -/
structure EthTransactionParams where
  version : VersionVM
  gasLimit : U256
  gasPrice : U256
  code : List UInt8
  receiveAddress : Address
deriving DecidableEq, Repr

/-- The test for contract outputs, `HasOpCreate() || HasOpCall()`. -/
def CScript.isContract (script : CScript) : Bool := script.hasOpCreate || script.hasOpCall

/-- `INT64_MAX`. -/
def int64Max : ℕ := 2 ^ 63 - 1

/-- `SilubiumTxConverter`: the transaction, the address of its sender
(`GetSenderAddress`), and the byte that is read off an empty element. -/
structure SilubiumTxConverter where
  hashes : ScriptHashes
  txBit : CTransaction
  sender : Address
  unread : ℕ

namespace SilubiumTxConverter

variable (H : Hashes) (T : SilubiumTxConverter)

/-- `receiveStack`: the opcode that ended the script, and the stack below
the rest of the script. Where it returns false the stack is no longer
used. -/
def receiveStack (stack : List Valtype) (scriptPubKey : CScript) : Option (ℕ × List Valtype) :=
  match ((ScriptEnv.execByteCode T.hashes).evalScript stack scriptPubKey).2 with
  | [] => none
  | scriptRest :: stack =>
    let opcode := (scriptRest.head?.map UInt8.toNat).getD T.unread
    if (opcode = opCreate ∧ stack.length < 4) ∨ (opcode = opCall ∧ stack.length < 5) then none
    else some (opcode, stack)

/-- The parameters below the receiver. -/
def parseParams (receiveAddress : Address) :
    List Valtype → Option (EthTransactionParams × List Valtype)
  | code :: gasPrice :: gasLimit :: version :: stack => do
    guard (!code.isEmpty)
    let gasPrice ← vchToUint64 gasPrice
    let gasLimit ← vchToUint64 gasLimit
    guard (gasPrice ≤ int64Max ∧ gasLimit ≤ int64Max)
    guard (gasPrice = 0 ∨ gasLimit ≤ int64Max / gasPrice)
    guard (version.length ≤ 4)
    let version ← vchToUint64 version
    return (⟨.fromRaw (version % 2 ^ 32), gasLimit, gasPrice, code, receiveAddress⟩, stack)
  | _ => none

/-- `parseEthTXParams`, with the stack it leaves. -/
def parseEthTXParams (opcode : ℕ) (stack : List Valtype) :
    Option (EthTransactionParams × List Valtype) :=
  if opcode = opCall then
    match stack with
    | [] => none
    | vecAddr :: stack => parseParams (addressOfBytes vecAddr) stack
  else parseParams 0 stack

/-- `createEthTX`, for the output at position `nOut`. -/
def createEthTX (opcode : ℕ) (etp : EthTransactionParams) (nOut : ℕ) (out : CTxOut) :
    SilubiumTransaction where
  sender := T.sender
  receiveAddress := etp.receiveAddress
  isCreation := etp.receiveAddress == 0 && opcode != opCall
  value := BitVec.ofInt 256 out.nValue
  gas := etp.gasLimit
  gasPrice := etp.gasPrice
  nonce := 0
  data := etp.code
  hashWith := T.txBit.getHash H
  nVout := nOut
  version := etp.version

/-- `ExtractSilubiumTX`, pair by pair. -/
abbrev Extracted := List (SilubiumTransaction × EthTransactionParams)

/-- One turn of the loop over the outputs: the stack, and what was
extracted so far. -/
def extractOutput (s : List Valtype × Extracted) (p : CTxOut × ℕ) :
    Option (List Valtype × Extracted) :=
  if p.1.scriptPubKey.isContract then do
    let (opcode, stack) ← T.receiveStack s.1 p.1.scriptPubKey
    let (params, stack) ← parseEthTXParams opcode stack
    return (stack, s.2 ++ [(T.createEthTX H opcode params p.2 p.1, params)])
  else some s

/-- `extractionSilubiumTransactions`. -/
def extraction : Option Extracted :=
  (T.txBit.vout.zipIdx.foldlM (T.extractOutput H) ([], [])).map Prod.snd

end SilubiumTxConverter

/-- `GetSenderAddress`, with the key that a script pays to: the coin is
looked up in the block first. -/
def getSenderAddress (H : Hashes) (keyID : CScript → Address) (tx : CTransaction)
    (coinsView : CCoinsViewCache) (blockTxs : List CTransaction) : Address :=
  match tx.vin with
  | [] => 0
  | i :: _ => keyID <|
    match blockTxs.find? fun btx => btx.getHash H == i.prevout.hash with
    | some btx => ((btx.vout[i.prevout.n]?).map CTxOut.scriptPubKey).getD []
    | none => (coinsView.accessCoin i.prevout).out.scriptPubKey

/-- What the callers of the converter take of the pairs. -/
def ExtractSilubiumTX.of (extracted : SilubiumTxConverter.Extracted) : ExtractSilubiumTX :=
  ⟨extracted.map Prod.fst, extracted.map fun p => p.2.gasPrice⟩

/-- `extractionSilubiumTransactions`, as `ConnectBlock` calls it. -/
def extractSilubiumTX (H : Hashes) (hashes : ScriptHashes) (keyID : CScript → Address)
    (tx : CTransaction) (view : CCoinsViewCache) (vtx : List CTransaction) :
    Option ExtractSilubiumTX :=
  (SilubiumTxConverter.extraction H ⟨hashes, tx, getSenderAddress H keyID tx view vtx, 0⟩).map
    ExtractSilubiumTX.of

end Slucore

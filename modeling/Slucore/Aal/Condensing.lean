import Slucore.Evm.Executive
import Slucore.Primitives.Block
import Std.Data.TreeMap.Lemmas
/-!
# Aal — the condensing transaction

After a successful execution the account abstraction layer settles the
recorded value transfers in coins: one transaction spends the coins of
every address that took part and pays each its new balance. The ordered
maps of the source are ordered maps here.
-/


namespace Slucore

/-- An ordered map keyed by addresses (`std::map<dev::Address, …>`). -/
abbrev AddrMap (α : Type) := Std.TreeMap Address α

/-- `VersionVM`. -/
structure VersionVM where
  format : ℕ
  rootVM : ℕ
  vmVersion : ℕ
  flagOptions : ℕ
deriving DecidableEq, Repr

/-- `VersionVM::GetEVMDefault`. -/
def VersionVM.evmDefault : VersionVM := ⟨0, 1, 0, 0⟩

/-- `SilubiumTransaction`: one contract output of a transaction. -/
structure SilubiumTransaction where
  sender : Address
  receiveAddress : Address
  isCreation : Bool
  value : U256
  gas : U256
  gasPrice : U256
  nonce : ℕ
  data : List UInt8
  hashWith : UInt256
  nVout : ℕ
  version : VersionVM
deriving DecidableEq, Repr

/-- `MAX_CONTRACT_VOUTS`. -/
def maxContractVouts : ℕ := 1000

/-- `Address::asBytes`: twenty bytes, most significant first. -/
def addressBytes (a : Address) : List UInt8 :=
  (List.range 20).map fun i => UInt8.ofNat (a / 256 ^ (19 - i))

/-- `CScript() << OP_DUP << OP_HASH160 << a << OP_EQUALVERIFY << OP_CHECKSIG`. -/
def payToPubkeyHash (a : Address) : CScript :=
  [0x76, 0xa9] ++ pushData (addressBytes a) ++ [0x88, 0xac]

/-- The no-exec contract output
`CScript() << {0} << {0} << {0} << {0} << a << OP_CALL`. -/
def noExecCall (a : Address) : CScript :=
  pushData [0] ++ pushData [0] ++ pushData [0] ++ pushData [0] ++ pushData (addressBytes a) ++
    [UInt8.ofNat opCall]

/-- `CScript() << OP_SPEND`. -/
def spendScript : CScript := [UInt8.ofNat opSpend]

/-- `CAmount(v)` of a 256-bit number. -/
def toCAmount (v : U256) : ℤ := wrap64 v.toNat

/-- `CondensingTX`: what its constructor is given. -/
structure CondensingTX where
  state : SilubiumState
  transfers : List TransferInfo
  transaction : SilubiumTransaction
  deleteAddresses : List Address

namespace CondensingTX

variable (ctx : CondensingTX)

/-- `CondensingTX::checkDeleteAddress`. -/
def checkDeleteAddress (a : Address) : Bool := ctx.deleteAddresses.contains a

/-- The coin that carries the value of the executed output. -/
def transactionVin : Vin :=
  ⟨ctx.transaction.hashWith, ctx.transaction.nVout, ctx.transaction.value, true⟩

/-- Enter the state's coin of `a` into the map. -/
def insertVin (vins : AddrMap Vin) (a : Address) : AddrMap Vin :=
  match ctx.state.vin a with
  | some v => vins.insert a v
  | none => vins

/-- One turn of `CondensingTX::selectionVin`. -/
def selectVin (vins : AddrMap Vin) (ti : TransferInfo) : AddrMap Vin :=
  let vins₁ :=
    if vins.contains ti.src then vins
    else if ti.src = ctx.transaction.sender ∧ 0 < ctx.transaction.value then
      (ctx.insertVin vins ti.src).insert ti.src ctx.transactionVin
    else ctx.insertVin vins ti.src
  if vins₁.contains ti.dst then vins₁ else ctx.insertVin vins₁ ti.dst

/-- `CondensingTX::selectionVin`. -/
def selectionVin : AddrMap Vin := ctx.transfers.foldl ctx.selectVin {}

/-- One turn of `CondensingTX::calculatePlusAndMinus`. -/
def plusMinus (m : AddrMap (U256 × U256)) (ti : TransferInfo) : AddrMap (U256 × U256) :=
  let p := m.getD ti.src (0, 0)
  let m₁ := m.insert ti.src (p.1, p.2 + ti.value)
  let q := m₁.getD ti.dst (0, 0)
  m₁.insert ti.dst (q.1 + ti.value, q.2)

/-- `CondensingTX::calculatePlusAndMinus`. -/
def calculatePlusAndMinus : AddrMap (U256 × U256) := ctx.transfers.foldl plusMinus {}

/-- The coin of `a` among those selected, or the empty one. -/
def vinOf (a : Address) : Vin := ctx.selectionVin.getD a ⟨0, 0, 0, false⟩

/-- Whether a selected coin may be spent: it is alive, or was killed in
this execution without its address being noted for deletion. -/
def spendable (a : Address) (v : Vin) : Bool := v.alive || !ctx.checkDeleteAddress a

/-- The value `a` starts from in `CondensingTX::createNewBalances`. -/
def startBalance (a : Address) : U256 :=
  if ctx.spendable a (ctx.vinOf a) then (ctx.vinOf a).value else 0

/-- The loop of `CondensingTX::createNewBalances`: the balances entered so
far, and whether no address fell short. -/
def newBalancesFrom : List (Address × (U256 × U256)) → AddrMap U256 → AddrMap U256 × Bool
  | [], balances => (balances, true)
  | (a, plus, minus) :: rest, balances =>
    let balance := ctx.startBalance a + plus
    if balance < minus then (balances, false)
    else newBalancesFrom rest (balances.insert a (balance - minus))

/-- `CondensingTX::createNewBalances`. -/
def createNewBalances : AddrMap U256 × Bool :=
  ctx.newBalancesFrom ctx.calculatePlusAndMinus.toList {}

/-- `CondensingTX::createVins`. -/
def createVins : List CTxIn :=
  (ctx.selectionVin.toList.filter fun p => decide (0 < p.2.value) && ctx.spendable p.1 p.2).map
    fun p => { prevout := ⟨p.2.hash, p.2.nVout⟩, scriptSig := spendScript }

/-- The script that pays `a`. -/
def payScript (a : Address) : CScript :=
  match ctx.state.account a with
  | some acc => if acc.isAlive then noExecCall a else payToPubkeyHash a
  | none => payToPubkeyHash a

/-- What `CondensingTX::createVout` has made: the outputs, the index of each
paid address, and whether there were too many. -/
structure Vouts where
  outs : List CTxOut
  nVouts : AddrMap ℕ
  overflow : Bool

/-- The loop of `CondensingTX::createVout`; the count of outputs is their
number. -/
def voutsFrom : List (Address × U256) → Vouts → Vouts
  | [], r => r
  | (a, b) :: rest, r =>
    let r' : Vouts :=
      if 0 < b then
        ⟨r.outs ++ [⟨toCAmount b, ctx.payScript a⟩], r.nVouts.insert a r.outs.length, r.overflow⟩
      else r
    if maxContractVouts < r'.outs.length then { r' with overflow := true }
    else voutsFrom rest r'

/-- `CondensingTX::createVout`. -/
def createVout : Vouts := ctx.voutsFrom ctx.createNewBalances.1.toList ⟨[], {}, false⟩

/-- `CondensingTX::createCondensingTX`; `none` is the null transaction
`CTransaction()`. -/
def createCondensingTX : Option CTransaction :=
  if ctx.createNewBalances.2 then
    let vin := ctx.createVins
    let vout := ctx.createVout.outs
    if vin.isEmpty || vout.isEmpty then none else some { vin := vin, vout := vout }
  else none

/-- `CondensingTX::reachedVoutLimit`, after `createCondensingTX`. -/
def reachedVoutLimit : Bool := ctx.createNewBalances.2 && ctx.createVout.overflow

/-- `nVouts[a]`, after `createCondensingTX`. -/
def nVoutOf (a : Address) : ℕ :=
  if ctx.createNewBalances.2 then ctx.createVout.nVouts.getD a 0 else 0

/-- `CondensingTX::createVin`: the coin each address owns afterwards, for
the transaction with hash `txid`. -/
def createVin (txid : UInt256) (a : Address) : Option Vin :=
  if a = ctx.transaction.sender then none
  else (ctx.createNewBalances.1.get? a).map fun b =>
    if 0 < b then ⟨txid, ctx.nVoutOf a, b, true⟩ else ⟨txid, 0, 0, false⟩

end CondensingTX

end Slucore

import Slucore.Validation.ShadowBlock
/-!
# Validation — the governance contracts

`SilubiumDGP` reads the block size, the minimum gas price, the block gas
limit and the gas schedule from contracts. Each of the four contracts
keeps a list of heights and addresses; the last entry of the list whose
height is reached names the contract with the value, and a value out of
its range gives way to a default.

A block is assembled with the values of its own height, and connected
with the values of the height after it (`createNewBlockParams`,
`connectBlockParams`). So the two differ exactly where an entry takes
effect at the height in between (`params_agree_iff`).
-/


namespace Slucore

/-! ## Lists with activation heights -/

section Activation

variable {α : Type}

/-- The last entry whose height is reached. -/
def latestEntry (l : List (ℕ × α)) (height : ℕ) : Option (ℕ × α) :=
  l.reverse.find? fun p => decide (p.1 ≤ height)

/-- An entry of the list takes over at exactly this height. -/
def TakesEffect (l : List (ℕ × α)) (height : ℕ) (a : α) : Prop :=
  latestEntry l height = some (height, a)

/-- **From one height to the next either an entry takes over or nothing
changes.** -/
theorem latestEntry_succ (l : List (ℕ × α)) (height : ℕ) :
    (∃ a, TakesEffect l (height + 1) a) ∨ latestEntry l (height + 1) = latestEntry l height := by
  unfold TakesEffect latestEntry
  induction l.reverse with
  | nil => exact Or.inr rfl
  | cons p rest ih =>
    obtain ⟨first, a⟩ := p
    rcases Nat.lt_trichotomy first (height + 1) with hlt | rfl | hgt
    · have hle : first ≤ height := by omega
      exact Or.inr (by simp [hle, hlt.le])
    · exact Or.inl ⟨a, by simp⟩
    · have hno : ¬ first ≤ height + 1 := by omega
      have hno' : ¬ first ≤ height := by omega
      simpa [hno, hno'] using ih

end Activation

/-! ## Reading the contracts -/

/-- The gas values of `EIP158Schedule`, in the order of `initDataEIP158`. -/
def dataEIP158Schedule : List ℕ :=
  [0, 2, 3, 5, 8, 10, 20, 0, 10, 50, 30, 6, 200, 20000, 5000, 15000, 1, 375, 8, 375, 32000, 700,
    2300, 9000, 25000, 24000, 3, 512, 200, 21000, 53000, 4, 68, 3, 700, 700, 400, 5000, 24576]

/-- `SilubiumDGP`: the flag, and what it reads of the contract state. -/
structure SilubiumDGP where
  dgpevm : Bool
  sha3 : U256 → U256
  /-- `State::storage` of an address: key and value by the hash of the key. -/
  storage : Address → U256 → Option (U256 × U256)
  /-- The output of `CallContract`. -/
  callContract : Address → List UInt8 → List UInt8

/-- The governance contracts. -/
inductive DgpContract where
  | gasSchedule | blockSize | gasPrice | blockGasLimit
deriving DecidableEq, Repr

/-- Their addresses. -/
def DgpContract.address : DgpContract → Address
  | .gasSchedule => 0x80
  | .blockSize => 0x81
  | .gasPrice => 0x82
  | .blockGasLimit => 0x84

/-- The call that asks a contract for its value. -/
def DgpContract.data : DgpContract → List UInt8
  | .gasSchedule => [0x26, 0xfa, 0xdb, 0xe2]
  | .blockSize => [0x92, 0xac, 0x3c, 0x62]
  | .gasPrice => [0x3f, 0xb5, 0x88, 0x19]
  | .blockGasLimit => [0x2c, 0xc8, 0x37, 0x7d]

/-- `dev::toUint64`. -/
def toUint64 (v : U256) : ℕ := v.toNat % 2 ^ 64

/-- `u256(h256(bytes))` of 32 bytes. -/
def ofBytes (bytes : List UInt8) : U256 :=
  BitVec.ofNat 256 (bytes.foldl (fun n b => 256 * n + b.toNat) 0)

/-- The eight numbers of 32 bits in a word, the lowest first. -/
def uint32Values (v : U256) : List ℕ := (List.range 8).map fun i => v.toNat / 2 ^ (32 * i) % 2 ^ 32

/-- `checkLimitSchedule`, in 32-bit arithmetic. -/
def checkLimitSchedule (defaultData checkData : List ℕ) : Bool :=
  defaultData.length == 39 && checkData.length == 39 &&
    (defaultData.zip checkData).all fun p =>
      let max := if 0 < p.1 * 1000 % 2 ^ 32 then p.1 * 1000 % 2 ^ 32 else 1000
      let min := if 0 < p.1 / 100 then p.1 / 100 else 1
      decide (p.2 ≤ max) && decide (min ≤ p.2)

namespace SilubiumDGP

variable (D : SilubiumDGP)

/-- The loop of `createParamsInstance`. An entry that is not stored is read
all the same, which is undefined: `none`. -/
def paramsFrom (addr : Address) : ℕ → U256 → Option (List (ℕ × Address))
  | 0, _ => some []
  | n + 1, hash => do
    let first ← D.storage addr (D.sha3 hash)
    let second ← D.storage addr (D.sha3 (hash + 1))
    let rest ← paramsFrom addr n (hash + 2)
    return (toUint64 first.2 % 2 ^ 32, second.2.toNat % 2 ^ 160) :: rest

/-- `createParamsInstance`, of a contract. -/
def paramsInstance (addr : Address) : Option (List (ℕ × Address)) :=
  let paramsInstanceHash := D.sha3 0
  match D.storage addr paramsInstanceHash with
  | none => some []
  | some (_, size) => D.paramsFrom addr (toUint64 size) paramsInstanceHash

/-- `getAddressForBlock`; the null address if no height is reached. -/
def getAddressForBlock (paramsInstance : List (ℕ × Address)) (blockHeight : ℕ) : Address :=
  ((latestEntry paramsInstance blockHeight).map Prod.snd).getD 0

/-- The number that the contract at an address holds, or answers. -/
def parseOneUint64 (address : Address) (data : List UInt8) : ℕ :=
  if D.dgpevm then
    let dataTemplate := D.callContract address data
    if dataTemplate.length = 32 then toUint64 (ofBytes dataTemplate) else 0
  else ((D.storage address (D.sha3 0)).map fun entry => toUint64 entry.2).getD 0

/-- `parseStorageScheduleContract`. -/
def parseStorageScheduleContract (address : Address) : List ℕ :=
  let data := (List.range 5).filterMap fun i => D.storage address (D.sha3 (BitVec.ofNat 256 i))
  (data.mergeSort fun a b => decide (a.1 ≤ b.1)).flatMap fun d => uint32Values d.2

/-- `parseDataScheduleContract`. -/
def parseDataScheduleContract (address : Address) (data : List UInt8) : List ℕ :=
  let dataTemplate := D.callContract address data
  (List.range (dataTemplate.length / 32)).map fun i =>
    toUint64 (ofBytes ((dataTemplate.drop (i * 32)).take 32)) % 2 ^ 32

/-- `createEVMSchedule`: the 39 gas values; the other fields of the schedule
are those of `EIP158Schedule`. -/
def createEVMSchedule (address : Address) (data : List UInt8) : List ℕ :=
  let values := if D.dgpevm then D.parseDataScheduleContract address data
    else D.parseStorageScheduleContract address
  if checkLimitSchedule dataEIP158Schedule values then values else dataEIP158Schedule

/-- A number of one of the contracts, `0` without an address, and its
default where it is out of range. -/
def boundedAt (contract : DgpContract) (lo hi default : ℕ) (address : Address) : ℕ :=
  let value := if address = 0 then 0 else D.parseOneUint64 address contract.data
  if value ≤ hi ∧ lo ≤ value then value else default

/-- The gas schedule while this address is in effect. -/
def scheduleAt (address : Address) : List ℕ :=
  if address = 0 then dataEIP158Schedule
  else D.createEVMSchedule address DgpContract.gasSchedule.data

/-- The block size while this address is in effect. It is a number of 32
bits, and cut to it before its range is checked. -/
def blockSizeAt (address : Address) : ℕ :=
  let blockSize :=
    (if address = 0 then 0 else D.parseOneUint64 address DgpContract.blockSize.data) % 2 ^ 32
  if blockSize ≤ 32000000 ∧ 8000000 ≤ blockSize then blockSize else 8000000

def minGasPriceAt : Address → ℕ := D.boundedAt .gasPrice 1 10000 10

def blockGasLimitAt : Address → ℕ := D.boundedAt .blockGasLimit 1000000 1000000000 40000000

/-- What a contract gives at a height, with the address in effect there. -/
def valueAtHeight {α : Type} (contract : DgpContract) (value : Address → α) (blockHeight : ℕ) :
    Option α :=
  (D.paramsInstance contract.address).map fun l => value (getAddressForBlock l blockHeight)

def getGasSchedule : ℕ → Option (List ℕ) := D.valueAtHeight .gasSchedule D.scheduleAt

def getBlockSize : ℕ → Option ℕ := D.valueAtHeight .blockSize D.blockSizeAt

def getMinGasPrice : ℕ → Option ℕ := D.valueAtHeight .gasPrice D.minGasPriceAt

def getBlockGasLimit : ℕ → Option ℕ := D.valueAtHeight .blockGasLimit D.blockGasLimitAt

end SilubiumDGP

/-- The governed values that a block is assembled or connected with; `none`
where reading them is undefined. -/
structure GovernedParams where
  gasSchedule : Option (List ℕ)
  blockSize : Option ℕ
  minGasPrice : Option ℕ
  blockGasLimit : Option ℕ
deriving DecidableEq, Repr

/-- The values at a height. -/
def SilubiumDGP.params (D : SilubiumDGP) (blockHeight : ℕ) : GovernedParams :=
  ⟨D.getGasSchedule blockHeight, D.getBlockSize blockHeight, D.getMinGasPrice blockHeight,
    D.getBlockGasLimit blockHeight⟩

/-- The values that `CreateNewBlock` uses, for a block on `pindexPrev` and
without `-staker-min-tx-gas-price`. -/
def createNewBlockParams (D : SilubiumDGP) (pindexPrev : CBlockIndex) : GovernedParams :=
  let nHeight := pindexPrev.nHeight + 1
  D.params nHeight

/-- The values that `ConnectBlock` uses for a block. -/
def connectBlockParams (D : SilubiumDGP) (pindex : CBlockIndex) : GovernedParams :=
  D.params (pindex.nHeight + 1)

/-! ## Two heights in a row -/

namespace SilubiumDGP

variable {D : SilubiumDGP}

theorem getAddressForBlock_of_takesEffect {l : List (ℕ × Address)} {height : ℕ} {a : Address}
    (h : TakesEffect l height a) : getAddressForBlock l height = a := by
  rw [getAddressForBlock, show latestEntry l height = _ from h]
  rfl

/-- A contract gives the same at two heights in a row exactly if no entry
takes over in between, or the one that does holds the same value. -/
theorem valueAtHeight_succ_iff {α : Type} {contract : DgpContract} {value : Address → α}
    {height : ℕ} :
    D.valueAtHeight contract value height = D.valueAtHeight contract value (height + 1) ↔
      ∀ l a, D.paramsInstance contract.address = some l → TakesEffect l (height + 1) a →
        value a = value (getAddressForBlock l height) := by
  unfold valueAtHeight
  cases hl : D.paramsInstance contract.address with
  | none => simp
  | some l =>
    simp only [Option.map_some, Option.some.injEq]
    constructor
    · rintro heq _ a rfl hnow
      rw [heq, getAddressForBlock_of_takesEffect hnow]
    intro hsame
    rcases latestEntry_succ l height with ⟨a, hnow⟩ | hsucc
    · rw [getAddressForBlock_of_takesEffect hnow]
      exact (hsame l a rfl hnow).symm
    · rw [getAddressForBlock, getAddressForBlock, hsucc]

/-- Two addresses stand for the same value of a contract. -/
def SameValue (D : SilubiumDGP) : DgpContract → Address → Address → Prop
  | .gasSchedule, a, b => D.scheduleAt a = D.scheduleAt b
  | .blockSize, a, b => D.blockSizeAt a = D.blockSizeAt b
  | .gasPrice, a, b => D.minGasPriceAt a = D.minGasPriceAt b
  | .blockGasLimit, a, b => D.blockGasLimitAt a = D.blockGasLimitAt b

/-- No contract gets another value at this height. -/
def Settled (D : SilubiumDGP) (height : ℕ) : Prop :=
  ∀ contract l a, D.paramsInstance (DgpContract.address contract) = some l →
    TakesEffect l (height + 1) a → D.SameValue contract a (getAddressForBlock l height)

end SilubiumDGP

/-- **A block is assembled and connected with the same values exactly if
nothing takes effect at the height after it.** -/
theorem params_agree_iff (D : SilubiumDGP) (pindexPrev pindex : CBlockIndex)
    (hheight : pindex.nHeight = pindexPrev.nHeight + 1) :
    createNewBlockParams D pindexPrev = connectBlockParams D pindex ↔ D.Settled pindex.nHeight := by
  rw [createNewBlockParams, connectBlockParams, ← hheight]
  unfold SilubiumDGP.params
  rw [GovernedParams.mk.injEq]
  unfold SilubiumDGP.getGasSchedule SilubiumDGP.getBlockSize SilubiumDGP.getMinGasPrice
    SilubiumDGP.getBlockGasLimit
  simp only [SilubiumDGP.valueAtHeight_succ_iff]
  constructor
  · rintro ⟨hschedule, hsize, hprice, hlimit⟩ contract l a
    cases contract with
    | gasSchedule => exact hschedule l a
    | blockSize => exact hsize l a
    | gasPrice => exact hprice l a
    | blockGasLimit => exact hlimit l a
  · intro h
    exact ⟨h .gasSchedule, h .blockSize, h .gasPrice, h .blockGasLimit⟩

/-! ## A gas price that rises -/

/-- From height 101 on the minimum gas price is 50. -/
def risingDGP : SilubiumDGP where
  dgpevm := false
  sha3 key := key + 1000
  storage addr hash :=
    if addr = 0x82 then
      if hash = 1000 then some (0, 1)
      else if hash = 2000 then some (1000, 101)
      else if hash = 2001 then some (1001, 0x99)
      else none
    else if addr = 0x99 ∧ hash = 1000 then some (0, 50)
    else none
  callContract _ _ := []

/-- Below that height the values agree. -/
theorem risingDGP_agrees_below :
    createNewBlockParams risingDGP (sampleIndex 98) = connectBlockParams risingDGP (sampleIndex 99) := by
  refine (params_agree_iff risingDGP (sampleIndex 98) (sampleIndex 99) rfl).2 ?_
  intro contract l a hl hnow
  have hnone : (risingDGP.paramsInstance contract.address).all
      (fun l => (latestEntry l 100).isNone) = true := by
    cases contract <;> decide
  rw [hl, Option.all_some, show latestEntry l 100 = _ from hnow] at hnone
  cases hnone

/-- **The block before the rise is assembled with the old price and
connected with the new one.** -/
theorem rising_price_disagrees :
    (createNewBlockParams risingDGP (sampleIndex 99)).minGasPrice = some 10 ∧
    (connectBlockParams risingDGP (sampleIndex 100)).minGasPrice = some 50 := by
  decide

end Slucore

import Slucore.Validation.Dgp
/-!
# Validation — what the governance contracts say

The lists and the values of the governance contracts are words of 256
bits. `SilubiumDGP` cuts the heights of a list to 32 bits and a value to
64, the block size to 32, before it looks at their ranges; so a word can
stand for another one (`governed_iff`). It also reads the words of a list
without a test whether they are stored, and a storage keeps no zero words
(`paramsInstance_iff`).

The contract of the main nodes has two slots, each with an address and a
height. `getParamAddress` looks at the second one only once the first is
reached (`getParamAddress_iff`).
-/


namespace Slucore

namespace SilubiumDGP

variable (D : SilubiumDGP) (addr : Address)

/-! ## The list of a contract -/

/-- A word of the storage, by its key; what is not stored is zero. -/
def word (key : U256) : U256 := ((D.storage addr (D.sha3 key)).map Prod.snd).getD 0

/-- The heights and addresses from a key on. -/
def entriesFrom : ℕ → U256 → List (U256 × U256)
  | 0, _ => []
  | n + 1, hash => (D.word addr hash, D.word addr (hash + 1)) :: entriesFrom n (hash + 2)

/-- The list of a contract in full. -/
def entries : List (U256 × U256) := D.entriesFrom addr (toUint64 (D.word addr 0)) (D.sha3 0)

/-- The words from a key on are stored. -/
def storedFrom : ℕ → U256 → Bool
  | 0, _ => true
  | n + 1, hash => (D.storage addr (D.sha3 hash)).isSome &&
      (D.storage addr (D.sha3 (hash + 1))).isSome && storedFrom n (hash + 2)

/-- Every word of the list is stored. -/
def Stored : Prop := D.storedFrom addr (toUint64 (D.word addr 0)) (D.sha3 0) = true

/-- An entry as the code keeps it. -/
def narrow (p : U256 × U256) : ℕ × Address := (p.1.toNat % 2 ^ 32, p.2.toNat % 2 ^ 160)

/-- The storage is that of a trie. -/
def NoZeros : Prop := ∀ hash p, D.storage addr hash = some p → p.2 ≠ 0

variable {D addr}

theorem paramsFrom_eq (n : ℕ) (hash : U256) : D.paramsFrom addr n hash =
    if D.storedFrom addr n hash then some ((D.entriesFrom addr n hash).map narrow) else none := by
  induction n generalizing hash with
  | zero => rfl
  | succ n ih =>
    rw [paramsFrom, storedFrom, entriesFrom, ih, word, word]
    cases D.storage addr (D.sha3 hash) with
    | none => rfl
    | some first =>
      cases D.storage addr (D.sha3 (hash + 1)) with
      | none => rfl
      | some second =>
        have hheight : toUint64 first.2 % 2 ^ 32 = first.2.toNat % 2 ^ 32 := by
          unfold toUint64
          omega
        cases D.storedFrom addr n (hash + 2) with
        | false => rfl
        | true => exact congrArg (fun m => some ((m, _) :: _)) hheight

/-- The list is read if its words are stored. -/
theorem paramsInstance_eq : D.paramsInstance addr =
    if D.storedFrom addr (toUint64 (D.word addr 0)) (D.sha3 0) then
      some ((D.entries addr).map narrow) else none := by
  rw [entries, ← paramsFrom_eq, paramsInstance, word]
  cases D.storage addr (D.sha3 0) with
  | none => rfl
  | some p => rfl

theorem length_entriesFrom (n : ℕ) (hash : U256) : (D.entriesFrom addr n hash).length = n := by
  induction n generalizing hash with
  | zero => rfl
  | succ n ih => rw [entriesFrom, List.length_cons, ih]

/-- A word is stored unless it is zero. -/
theorem isSome_storage_iff (hz : D.NoZeros addr) (key : U256) :
    (D.storage addr (D.sha3 key)).isSome = true ↔ D.word addr key ≠ 0 := by
  unfold word
  cases h : D.storage addr (D.sha3 key) with
  | none => simp
  | some p => simpa using hz _ _ h

theorem storedFrom_iff (hz : D.NoZeros addr) (n : ℕ) (hash : U256) :
    D.storedFrom addr n hash = true ↔ ∀ p ∈ D.entriesFrom addr n hash, p.1 ≠ 0 ∧ p.2 ≠ 0 := by
  induction n generalizing hash with
  | zero => simp [storedFrom, entriesFrom]
  | succ n ih =>
    rw [storedFrom, entriesFrom, Bool.and_eq_true, Bool.and_eq_true, isSome_storage_iff hz,
      isSome_storage_iff hz, ih, List.forall_mem_cons]

/-- **A list is read, with zeros for the words that are not stored, exactly
if it has no zero words.** -/
theorem paramsInstance_iff (D : SilubiumDGP) (addr : Address) (hz : D.NoZeros addr)
    (hn : (D.word addr 0).toNat < 2 ^ 64) :
    (D.entries addr).length = (D.word addr 0).toNat ∧
      (D.paramsInstance addr = some ((D.entries addr).map narrow) ↔
        ∀ p ∈ D.entries addr, p.1 ≠ 0 ∧ p.2 ≠ 0) := by
  refine ⟨?_, ?_⟩
  · rw [entries, length_entriesFrom]
    exact Nat.mod_eq_of_lt hn
  rw [paramsInstance_eq, entries, ← storedFrom_iff hz]
  split_ifs with hstored
  · exact iff_of_true rfl hstored
  · exact iff_of_false (by simp) hstored

/-- A list with an activation at height 0, whose word is not stored. -/
def genesisListDGP : SilubiumDGP :=
  { risingDGP with storage := fun addr hash =>
      if hash = 2000 then none else risingDGP.storage addr hash }

/-- **The word is read all the same**, where zero should be. -/
theorem genesisList_not_read :
    genesisListDGP.entries 0x82 = [(0, 0x99)] ∧ genesisListDGP.paramsInstance 0x82 = none := by
  decide

theorem noZeros_risingDGP : risingDGP.NoZeros 0x82 := by
  intro hash p h
  simp only [risingDGP] at h
  split_ifs at h <;> cases h <;> decide

theorem entries_risingDGP : risingDGP.entries 0x82 = [(101, 0x99)] := by decide

theorem risingDGP_list_read :
    risingDGP.paramsInstance 0x82 = some ((risingDGP.entries 0x82).map narrow) := by
  refine (paramsInstance_iff risingDGP 0x82 noZeros_risingDGP (by decide)).2.2 ?_
  rw [entries_risingDGP, List.forall_mem_singleton]
  decide

end SilubiumDGP

/-! ## The governed values -/

/-- The values that are numbers. -/
inductive GovernedValue where
  | blockSize | minGasPrice | blockGasLimit
deriving DecidableEq, Repr

namespace GovernedValue

def contract : GovernedValue → DgpContract
  | .blockSize => .blockSize
  | .minGasPrice => .gasPrice
  | .blockGasLimit => .blockGasLimit

/-- The least value, the greatest and the default. -/
def range : GovernedValue → ℕ × ℕ × ℕ
  | .blockSize => (8000000, 32000000, 8000000)
  | .minGasPrice => (1, 10000, 10)
  | .blockGasLimit => (1000000, 1000000000, 40000000)

/-- The bits of the variable that is checked. -/
def bits : GovernedValue → ℕ
  | .blockSize => 32
  | _ => 64

/-- A value in its range, and the default otherwise. -/
def checked (g : GovernedValue) (n : ℕ) : ℕ :=
  if n ≤ g.range.2.1 ∧ g.range.1 ≤ n then n else g.range.2.2

/-- A number that stands for the default. -/
def MeansDefault (g : GovernedValue) (n : ℕ) : Prop := g.checked n = g.range.2.2

variable {g : GovernedValue} {m n : ℕ}

/-- Two numbers give the same value if they are the same or both stand for
the default. -/
theorem checked_eq_iff :
    g.checked m = g.checked n ↔ m = n ∨ (g.MeansDefault m ∧ g.MeansDefault n) := by
  unfold MeansDefault
  refine ⟨fun h => ?_, ?_⟩
  · by_cases hm : g.checked m = g.range.2.2
    · exact .inr ⟨hm, h ▸ hm⟩
    left
    have hn : g.checked n ≠ g.range.2.2 := h ▸ hm
    unfold checked at h hm hn
    split_ifs at h hm hn <;> first | exact h | exact absurd rfl hm | exact absurd rfl hn
  · rintro (rfl | ⟨hm, hn⟩)
    · rfl
    · rw [hm, hn]

end GovernedValue

namespace SilubiumDGP

variable (D : SilubiumDGP) (g : GovernedValue) (height : ℕ)

/-- `getBlockSize`, `getMinGasPrice` or `getBlockGasLimit`. -/
def get : Option ℕ :=
  match g with
  | .blockSize => D.getBlockSize height
  | .minGasPrice => D.getMinGasPrice height
  | .blockGasLimit => D.getBlockGasLimit height

/-- The number that the contract at an address holds, or answers, in full. -/
def valueAt (address : Address) : ℕ :=
  if address = 0 then 0
  else if D.dgpevm then
    let dataTemplate := D.callContract address g.contract.data
    if dataTemplate.length = 32 then (ofBytes dataTemplate).toNat else 0
  else (D.word address 0).toNat

/-- The address of the last entry whose height is reached. -/
def addressAt : Address :=
  getAddressForBlock ((D.entries g.contract.address).map fun p => (p.1.toNat, (narrow p).2)) height

/-- The same with the heights cut to 32 bits. -/
def cutAddressAt : Address :=
  getAddressForBlock ((D.entries g.contract.address).map narrow) height

/-- The value that the contracts say. -/
def governed : ℕ := g.checked (D.valueAt g (D.addressAt g height))

variable {D g height}

/-- What is read at an address is the number there, cut to 64 bits. -/
theorem parse_eq (address : Address) :
    (if address = 0 then 0 else D.parseOneUint64 address g.contract.data) =
      D.valueAt g address % 2 ^ 64 := by
  unfold valueAt parseOneUint64 word
  dsimp only
  split_ifs
  · rfl
  · rfl
  · rfl
  · cases D.storage address (D.sha3 0) <;> rfl

/-- The code checks the number cut to the bits of its variable, at the
address that the cut heights give. -/
theorem get_eq : D.get g height =
    if D.storedFrom g.contract.address (toUint64 (D.word g.contract.address 0)) (D.sha3 0) then
      some (g.checked (D.valueAt g (D.cutAddressAt g height) % 2 ^ g.bits)) else none := by
  have hcut : ∀ address, D.valueAt .blockSize address % 2 ^ 64 % 2 ^ 32 =
      D.valueAt .blockSize address % 2 ^ 32 := by
    intro address
    omega
  cases g with
  | blockSize =>
    simp only [get, getBlockSize, valueAtHeight, paramsInstance_eq, blockSizeAt,
      show DgpContract.blockSize = GovernedValue.blockSize.contract from rfl, parse_eq, hcut]
    split_ifs <;> rfl
  | minGasPrice =>
    simp only [get, getMinGasPrice, valueAtHeight, paramsInstance_eq, minGasPriceAt, boundedAt,
      show DgpContract.gasPrice = GovernedValue.minGasPrice.contract from rfl, parse_eq]
    split_ifs <;> rfl
  | blockGasLimit =>
    simp only [get, getBlockGasLimit, valueAtHeight, paramsInstance_eq, blockGasLimitAt, boundedAt,
      show DgpContract.blockGasLimit = GovernedValue.blockGasLimit.contract from rfl, parse_eq]
    split_ifs <;> rfl

/-- The list is stored, and cutting does not change what the value means. -/
def Exact (D : SilubiumDGP) (g : GovernedValue) (height : ℕ) : Prop :=
  D.Stored g.contract.address ∧
    (D.valueAt g (D.cutAddressAt g height) % 2 ^ g.bits = D.valueAt g (D.addressAt g height) ∨
      (g.MeansDefault (D.valueAt g (D.cutAddressAt g height) % 2 ^ g.bits) ∧
        g.MeansDefault (D.valueAt g (D.addressAt g height))))

/-- Heights that fit into 32 bits are not cut. -/
theorem cutAddressAt_eq (h : ∀ p ∈ D.entries g.contract.address, p.1.toNat < 2 ^ 32) :
    D.cutAddressAt g height = D.addressAt g height := by
  unfold cutAddressAt
  congr 1
  refine List.map_congr_left fun p hp => ?_
  rw [narrow, Nat.mod_eq_of_lt (h p hp)]

/-- **A governed value is the stored one, checked in full, exactly if the
list is stored and cutting does not change what the value means.** -/
theorem governed_iff (D : SilubiumDGP) (g : GovernedValue) (height : ℕ) :
    (D.get g height = some (D.governed g height) ↔ D.Exact g height) ∧
      (D.Stored g.contract.address →
        (∀ p ∈ D.entries g.contract.address, p.1.toNat < 2 ^ 32) →
        D.valueAt g (D.addressAt g height) < 2 ^ g.bits → D.Exact g height) := by
  refine ⟨?_, fun hstored hheights hvalue => ⟨hstored, .inl ?_⟩⟩
  · rw [get_eq, governed]
    split_ifs with hstored
    · rw [Option.some.injEq, GovernedValue.checked_eq_iff]
      exact (and_iff_right hstored).symm
    · exact iff_of_false (by simp) fun h => hstored h.1
  · rw [cutAddressAt_eq hheights, Nat.mod_eq_of_lt hvalue]

/-- The minimum gas price is far out of its range. -/
def widePriceDGP : SilubiumDGP :=
  { risingDGP with storage := fun addr hash =>
      if addr = 0x99 ∧ hash = 1000 then some (0, 2 ^ 64 + 7) else risingDGP.storage addr hash }

/-- **A price out of range is taken for one in range.** -/
theorem widePrice_taken :
    widePriceDGP.get .minGasPrice 200 = some 7 ∧ widePriceDGP.governed .minGasPrice 200 = 10 ∧
      widePriceDGP.valueAt .minGasPrice 0x99 = 2 ^ 64 + 7 := by
  decide +kernel

theorem risingDGP_governed : risingDGP.get .minGasPrice 200 = some 50 := by
  have h := governed_iff risingDGP .minGasPrice 200
  have hstored : risingDGP.Stored GovernedValue.minGasPrice.contract.address := by
    unfold Stored
    decide
  refine h.1.2 (h.2 hstored ?_ (by decide))
  intro p hp
  obtain rfl := List.mem_singleton.1 (entries_risingDGP ▸ hp)
  decide

end SilubiumDGP

/-! ## The contract of the main nodes -/

/-- The answers of the main contract: the addresses and the heights of its
two slots. -/
structure MainContract where
  address₁ : List UInt8
  address₂ : List UInt8
  height₁ : List UInt8
  height₂ : List UInt8

/-- `silkworm_paramcontractaddr` and `bFindAddress`. -/
structure ParamAddress where
  paramcontractaddr : Address := 0
  bFindAddress : Bool := false

namespace MainContract

/-- `u256(h256(output))`, which is zero unless there are 32 bytes. -/
def ofOutput (output : List UInt8) : ℕ := if output.length = 32 then (ofBytes output).toNat else 0

/-- `dev::Address(getAddress(..))`. -/
def getAddress (output : List UInt8) : Address := ofOutput output % 2 ^ 160

/-- `getHeight`. -/
def getHeight (output : List UInt8) : ℕ := ofOutput output % 2 ^ 64 % 2 ^ 32

variable (M : MainContract) (blockHeight : ℕ)

/-- `getParamAddress`. -/
def getParamAddress (s : ParamAddress) : Address × ParamAddress :=
  if 10050 ≤ blockHeight ∧ s.bFindAddress = false then
    if s.paramcontractaddr ≠ 0 then (s.paramcontractaddr, s)
    else
      let nParamHeight1 := getHeight M.height₁
      let nParamHeight2 := getHeight M.height₂
      let s' : ParamAddress :=
        if nParamHeight1 = 0 then ⟨0, false⟩
        else if nParamHeight2 ≤ nParamHeight1 then
          if nParamHeight1 ≤ blockHeight then ⟨getAddress M.address₁, true⟩ else ⟨0, false⟩
        else if blockHeight < nParamHeight1 then ⟨0, false⟩
        else if nParamHeight1 ≤ blockHeight ∧ blockHeight < nParamHeight2 then
          ⟨getAddress M.address₁, true⟩
        else ⟨getAddress M.address₂, true⟩
      (s'.paramcontractaddr, s')
  else (s.paramcontractaddr, s)

/-- A slot with this height is set and reached. -/
def Reached (height : ℕ) : Prop := 0 < height ∧ height ≤ blockHeight

instance (height : ℕ) : Decidable (Reached blockHeight height) :=
  inferInstanceAs (Decidable (_ ∧ _))

/-- The address of the slot with the greatest height that is reached, of the
first one if they are equal. -/
def inEffect : Address :=
  let h₁ := ofOutput M.height₁
  let h₂ := ofOutput M.height₂
  if Reached blockHeight h₂ ∧ (¬ Reached blockHeight h₁ ∨ h₁ < h₂) then getAddress M.address₂
  else if Reached blockHeight h₁ then getAddress M.address₁ else 0

/-- The same with heights of 32 bits, where the second slot counts only once
the first is reached. -/
def inEffectAfterFirst : Address :=
  let h₁ := getHeight M.height₁
  let h₂ := getHeight M.height₂
  if Reached blockHeight h₁ then
    if Reached blockHeight h₂ ∧ h₁ < h₂ then getAddress M.address₂ else getAddress M.address₁
  else 0

variable {M blockHeight}

theorem getParamAddress_fresh (h : 10050 ≤ blockHeight) :
    (M.getParamAddress blockHeight {}).1 = M.inEffectAfterFirst blockHeight := by
  unfold getParamAddress inEffectAfterFirst
  generalize getHeight M.height₁ = h₁
  generalize getHeight M.height₂ = h₂
  rcases Nat.eq_zero_or_pos h₁ with rfl | hpos
  · simp [Reached]
  rcases Nat.lt_or_ge blockHeight h₁ with hlt | hle
  · simp [Reached, hlt, Nat.not_le.mpr hlt]
  rcases Nat.lt_or_ge h₁ h₂ with hlt₂ | hle₂
  · simp [Reached, hlt₂]
    split_ifs <;> first | rfl | omega
  · simp [h, Reached, hpos.ne', hle, hle₂, Nat.not_lt.mpr hle₂]

/-- A slot whose height is not reached, but is once it is cut to 32 bits. -/
def Feigned (blockHeight : ℕ) (output : List UInt8) : Prop :=
  ¬ Reached blockHeight (ofOutput output) ∧ Reached blockHeight (getHeight output)

/-- What keeps the choice of the code from doing harm. -/
structure Harmless (M : MainContract) (blockHeight : ℕ) : Prop where
  /-- Behind a first slot that is not reached, the second is not looked at. -/
  second_missed : ¬ Reached blockHeight (getHeight M.height₁) →
    Reached blockHeight (ofOutput M.height₂) → getAddress M.address₂ = 0
  /-- A first slot that is not reached may be taken for the second one. -/
  first_taken : Feigned blockHeight M.height₁ → Reached blockHeight (ofOutput M.height₂) →
    ofOutput M.height₂ ≤ getHeight M.height₁ → getAddress M.address₁ = getAddress M.address₂
  /-- Or where none is reached; and so may the second one. -/
  none_due : Feigned blockHeight M.height₁ → ¬ Reached blockHeight (ofOutput M.height₂) →
    (if Reached blockHeight (getHeight M.height₂) ∧ getHeight M.height₁ < getHeight M.height₂
      then getAddress M.address₂ else getAddress M.address₁) = 0
  /-- A second slot that is not reached may be taken for the first one. -/
  second_taken : Reached blockHeight (ofOutput M.height₁) → Feigned blockHeight M.height₂ →
    ofOutput M.height₁ < getHeight M.height₂ → getAddress M.address₁ = getAddress M.address₂

theorem getHeight_of_reached {output : List UInt8} (hb : blockHeight < 2 ^ 32)
    (h : Reached blockHeight (ofOutput output)) : getHeight output = ofOutput output := by
  have hle := h.2
  unfold getHeight
  omega

/-- Where the first slot is reached, only a second one that is not can be in
the way. -/
theorem Harmless.iff_of_reached (hb : blockHeight < 2 ^ 32)
    (hr₁ : Reached blockHeight (ofOutput M.height₁)) :
    M.inEffectAfterFirst blockHeight = M.inEffect blockHeight ↔ M.Harmless blockHeight := by
  have hcut₁ := getHeight_of_reached hb hr₁
  unfold inEffectAfterFirst inEffect
  rw [hcut₁, if_pos hr₁]
  by_cases hr₂ : Reached blockHeight (ofOutput M.height₂)
  · rw [getHeight_of_reached hb hr₂]
    refine iff_of_true (by simp [hr₁]) ⟨?_, ?_, ?_, ?_⟩ <;> simp_all [Feigned]
  rw [if_neg (c := _ ∧ (_ ∨ _)) fun h => hr₂ h.1, if_pos hr₁]
  constructor
  · intro heq
    refine ⟨?_, ?_, ?_, fun _ hf hlt => ?_⟩ <;> simp_all [Feigned]
  · intro h
    split
    · rename_i hboth
      exact (h.second_taken hr₁ ⟨hr₂, hboth.1⟩ hboth.2).symm
    · rfl

/-- Where it is not, the second one is in effect or none is. -/
theorem Harmless.iff_of_not_reached (hb : blockHeight < 2 ^ 32)
    (hr₁ : ¬ Reached blockHeight (ofOutput M.height₁)) :
    M.inEffectAfterFirst blockHeight = M.inEffect blockHeight ↔ M.Harmless blockHeight := by
  have hdue : M.inEffect blockHeight =
      if Reached blockHeight (ofOutput M.height₂) then getAddress M.address₂ else 0 := by
    simp [inEffect, hr₁]
  rw [hdue, inEffectAfterFirst]
  by_cases hc₁ : Reached blockHeight (getHeight M.height₁)
  · simp only [if_pos hc₁]
    constructor
    · intro heq
      refine ⟨fun hn => absurd hc₁ hn, fun _ hr₂ hle => ?_, fun _ hr₂ => ?_, fun hn => absurd hn hr₁⟩
      · rwa [if_pos hr₂, getHeight_of_reached hb hr₂, if_neg fun h => Nat.not_lt.2 hle h.2] at heq
      · rwa [if_neg hr₂] at heq
    · intro h
      by_cases hr₂ : Reached blockHeight (ofOutput M.height₂)
      · rw [if_pos hr₂, getHeight_of_reached hb hr₂]
        split
        · rfl
        · exact h.first_taken ⟨hr₁, hc₁⟩ hr₂ (by simp_all)
      · rw [if_neg hr₂]
        exact h.none_due ⟨hr₁, hc₁⟩ hr₂
  · simp only [if_neg hc₁]
    constructor
    · intro heq
      refine ⟨fun _ hr₂ => ?_, fun hf => absurd hf.2 hc₁, fun hf => absurd hf.2 hc₁,
        fun hn => absurd hn hr₁⟩
      rw [heq, if_pos hr₂]
    · intro h
      split
      · rename_i hr₂
        exact (h.second_missed hc₁ hr₂).symm
      · rfl
/-- **A fresh object takes the slot in effect** exactly if its choice does no
harm; with heights of 32 bits, exactly unless the second slot is reached, and
not zero, and the first is not. -/
theorem getParamAddress_iff (M : MainContract) (blockHeight : ℕ) (h : 10050 ≤ blockHeight) :
    (blockHeight < 2 ^ 32 →
      ((M.getParamAddress blockHeight {}).1 = M.inEffect blockHeight ↔ M.Harmless blockHeight)) ∧
    (ofOutput M.height₁ < 2 ^ 32 → ofOutput M.height₂ < 2 ^ 32 →
      ((M.getParamAddress blockHeight {}).1 = M.inEffect blockHeight ↔
        (Reached blockHeight (ofOutput M.height₂) → ¬ Reached blockHeight (ofOutput M.height₁) →
          getAddress M.address₂ = 0))) := by
  rw [getParamAddress_fresh h]
  refine ⟨fun hb => ?_, fun h₁ h₂ => ?_⟩
  · by_cases hr₁ : Reached blockHeight (ofOutput M.height₁)
    · exact Harmless.iff_of_reached hb hr₁
    · exact Harmless.iff_of_not_reached hb hr₁
  have hcut : ∀ {output}, ofOutput output < 2 ^ 32 → getHeight output = ofOutput output := by
    intro output hlt
    unfold getHeight
    omega
  unfold inEffectAfterFirst inEffect
  rw [hcut h₁, hcut h₂]
  by_cases hr₁ : Reached blockHeight (ofOutput M.height₁)
  · simp [hr₁]
  · by_cases hr₂ : Reached blockHeight (ofOutput M.height₂)
    · simp [hr₁, eq_comm]
    · simp [hr₂]

/-- A word of 32 bytes with the given last one. -/
def wordOf (b : UInt8) : List UInt8 := List.replicate 30 0 ++ [0x20, b]

/-- **A slot that is in effect is not taken** before the first one is. -/
theorem second_slot_missed :
    let M : MainContract := ⟨wordOf 1, wordOf 2, List.replicate 32 0, wordOf 0⟩
    (M.getParamAddress 10050 {}).1 = 0 ∧ M.inEffect 10050 = 0x2002 := by
  decide

theorem both_slots_reached :
    let M : MainContract := ⟨wordOf 1, wordOf 2, wordOf 0, wordOf 9⟩
    (M.getParamAddress 10050 {}).1 = M.inEffect 10050 ∧ M.inEffect 10050 = 0x2002 :=
  ⟨((getParamAddress_iff ⟨wordOf 1, wordOf 2, wordOf 0, wordOf 9⟩ 10050 le_rfl).2
    (by decide) (by decide)).2 (by decide), by decide⟩

end MainContract

end Slucore

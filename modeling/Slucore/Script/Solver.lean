import Slucore.Script.Converter
import Slucore.Script.Pushes
/-!
# Script — the kinds of outputs

`Solver` tells what kind of output a script is, by three special cases
and then by templates, which it tries in the order of their kinds. An
operation of a template is compared with one of the script; a mismatch
goes on to the next template, and a contract with a bad parameter is
refused at once. The places for the parameters of a contract also accept
operations that push nothing: their operand is empty, which reads as
zero.
-/


namespace Slucore

open List hiding le_trans
open CScript

/-- `txnouttype`, without `TX_NONSTANDARD`, for which `Solver` returns
false. -/
inductive OutputKind where
  | pubkey | pubkeyHash | scriptHash | multisig | nullData
  | witnessV0ScriptHash | witnessV0KeyHash | witnessUnknown | create | call
deriving DecidableEq, Repr

/-! ## Scripts of a fixed form -/

/-- `CScript::DecodeOP_N`. -/
def decodeOpN (opcode : ℕ) : ℕ := if opcode = 0 then 0 else opcode - 0x50

namespace CScript

/-- `CScript::IsPayToScriptHash`. -/
def isPayToScriptHash (script : CScript) : Bool :=
  script.length == 23 && script[0]? == some 0xa9 && script[1]? == some 0x14 &&
    script[22]? == some 0x87

/-- `CScript::IsWitnessProgram`: the version and the program. -/
def isWitnessProgram : CScript → Option (ℕ × Valtype)
  | b₀ :: b₁ :: program =>
    if program.length < 2 ∨ 40 < program.length then none
    else if b₀.toNat ≠ 0 ∧ (b₀.toNat < 0x51 ∨ 0x60 < b₀.toNat) then none
    else if b₁.toNat = program.length then some (decodeOpN b₀.toNat, program)
    else none
  | _ => none

/-- The loop of `CScript::IsPushOnly`. -/
def isPushOnlyFrom : ℕ → CScript → Bool
  | 0, _ => true
  | fuel + 1, pc =>
    pc.isEmpty || match getOp pc with
      | none => false
      | some (opcode, _, pc) => decide (opcode ≤ 0x60) && isPushOnlyFrom fuel pc

/-- `CScript::IsPushOnly`. -/
def isPushOnly (script : CScript) : Bool := isPushOnlyFrom script.length script

end CScript

/-! ## Templates -/

/-- An operation of a template, for one of the script. -/
inductive TemplateOp where
  | opcode (opcode : ℕ)
  | pubkey | pubkeyHash | smallInteger
  | version | gasLimit | gasPrice | data
deriving DecidableEq, Repr

/-- `OP_PUBKEYS` stands for any number of operations. -/
inductive TemplateItem where
  | pubkeys
  | single (op : TemplateOp)
deriving DecidableEq, Repr

/-- Why a template does not match: the next one is tried, or `Solver`
returns false. -/
inductive Mismatch where
  | next | refused
deriving DecidableEq, Repr

/-- `MAX_BLOCK_GAS_LIMIT_DGP`. -/
def maxBlockGasLimitDGP : ℕ := 1000000000

/-- `DEFAULT_BLOCK_GAS_LIMIT_DGP`. -/
def defaultBlockGasLimitDGP : ℕ := 40000000

/-- `STANDARD_MINIMUM_GAS_LIMIT`. -/
def standardMinimumGasLimit : ℕ := 10000

/-- `STANDARD_MINIMUM_GAS_PRICE`. -/
def standardMinimumGasPrice : ℕ := 1

section Matching

variable (contractConsensus : Bool)

/-- The version, if it is one that is allowed; an operation that is not a
push leaves it as it was. -/
def matchVersion (rootVM opcode : ℕ) (vch : Valtype) : Except Mismatch ℕ :=
  if opcode ≤ opPushData4 then do
    require (!vch.isEmpty && decide (vch.length ≤ 4)) .refused
    let raw ← orThrow (vchToUint64 vch) .refused
    let version := VersionVM.fromRaw raw
    require (version.toRaw == VersionVM.evmDefault.toRaw || version.toRaw == VersionVM.noExec.toRaw)
      .refused
    return version.rootVM
  else return rootVM

def matchGasLimit (rootVM : ℕ) (vch : Valtype) : Except Mismatch Unit := do
  let val ← orThrow (vchToUint64 vch) .refused
  if contractConsensus then
    require (rootVM == 0 || decide (1 ≤ val)) .refused
    require (decide (val ≤ maxBlockGasLimitDGP)) .refused
  else
    require (rootVM == 0 || decide (standardMinimumGasLimit ≤ val)) .refused
    require (decide (val ≤ defaultBlockGasLimitDGP / 2)) .refused

def matchGasPrice (rootVM : ℕ) (vch : Valtype) : Except Mismatch Unit := do
  let val ← orThrow (vchToUint64 vch) .refused
  require (rootVM == 0 || decide ((if contractConsensus then 1 else standardMinimumGasPrice) ≤ val))
    .refused

/-- One operation of a template against one of the script: the root of the
version so far, and the solutions it adds. -/
def matchOp (rootVM opcode : ℕ) (vch : Valtype) : TemplateOp → Except Mismatch (ℕ × List Valtype)
  | .opcode opcode₂ => do
    require (opcode == opcode₂ && vch.isEmpty) .next
    return (rootVM, [])
  | .pubkey => do
    require (decide (33 ≤ vch.length ∧ vch.length ≤ 65)) .next
    return (rootVM, [vch])
  | .pubkeyHash => do
    require (vch.length == 20) .next
    return (rootVM, [vch])
  | .smallInteger => do
    require (opcode == 0 || decide (0x51 ≤ opcode ∧ opcode ≤ 0x60)) .next
    return (rootVM, [[UInt8.ofNat (decodeOpN opcode)]])
  | .version => do
    let rootVM ← matchVersion rootVM opcode vch
    return (rootVM, [])
  | .gasLimit => do
    matchGasLimit contractConsensus rootVM vch
    return (rootVM, [])
  | .gasPrice => do
    matchGasPrice contractConsensus rootVM vch
    return (rootVM, [])
  | .data => do
    require (!(decide (opcode ≤ opPushData4) && vch.isEmpty)) .next
    return (rootVM, [])

/-- The loop of `OP_PUBKEYS`: the keys, and the script behind them. -/
def takeKeys : ℕ → CScript → List Valtype × CScript
  | 0, pc => ([], pc)
  | fuel + 1, pc =>
    match getOp pc with
    | none => ([], pc)
    | some (_, vch, pc') =>
      if 33 ≤ vch.length ∧ vch.length ≤ 65 then
        let (keys, rest) := takeKeys fuel pc'
        (vch :: keys, rest)
      else ([], pc)

/-- The comparison of a template with a script: the solutions. -/
def matchTemplate (rootVM : ℕ) : List TemplateItem → CScript → Except Mismatch (List Valtype)
  | [], script => if script.isEmpty then .ok [] else .error .next
  | .pubkeys :: template, script => do
    let (keys, pc) := takeKeys script.length script
    let vSolutions ← matchTemplate rootVM template pc
    return keys ++ vSolutions
  | .single op :: template, script => do
    let (opcode, vch, pc) ← orThrow (getOp script) .next
    let (rootVM, solution) ← matchOp contractConsensus rootVM opcode vch op
    let vSolutions ← matchTemplate rootVM template pc
    return solution ++ vSolutions

/-- `mTemplates`, in the order of its keys. -/
def mTemplates : List (OutputKind × List TemplateItem) :=
  [(.pubkey, [.single .pubkey, .single (.opcode 0xac)]),
   (.pubkeyHash, [.single (.opcode 0x76), .single (.opcode 0xa9), .single .pubkeyHash,
     .single (.opcode 0x88), .single (.opcode 0xac)]),
   (.multisig, [.single .smallInteger, .pubkeys, .single .smallInteger, .single (.opcode 0xae)]),
   (.create, [.single .version, .single .gasLimit, .single .gasPrice, .single .data,
     .single (.opcode opCreate)]),
   (.call, [.single .version, .single .gasLimit, .single .gasPrice, .single .data,
     .single .pubkeyHash, .single (.opcode opCall)])]

/-- The check of the numbers of keys and of signatures. -/
def multisigCounts (vSolutions : List Valtype) : Bool :=
  match vSolutions.head?.bind List.head?, vSolutions.getLast?.bind List.head? with
  | some m, some n =>
    decide (1 ≤ m.toNat ∧ 1 ≤ n.toNat ∧ m.toNat ≤ n.toNat ∧ vSolutions.length - 2 = n.toNat)
  | _, _ => false

/-- The scan of the templates; the root of the version starts with an
invalid value. -/
def scanTemplates (script : CScript) :
    List (OutputKind × List TemplateItem) → Option (OutputKind × List Valtype)
  | [] => none
  | (kind, template) :: rest =>
    match matchTemplate contractConsensus 20 template script with
    | .ok vSolutions =>
      if kind = .multisig ∧ multisigCounts vSolutions = false then none else some (kind, vSolutions)
    | .error .next => scanTemplates script rest
    | .error .refused => none

/-- `Solver`: the kind of the output and its solutions, or false. -/
def solver (script : CScript) : Option (OutputKind × List Valtype) :=
  if script.isPayToScriptHash then some (.scriptHash, [(script.drop 2).take 20])
  else match script.isWitnessProgram with
    | some (version, program) =>
      if version = 0 ∧ program.length = 20 then some (.witnessV0KeyHash, [program])
      else if version = 0 ∧ program.length = 32 then some (.witnessV0ScriptHash, [program])
      else if version ≠ 0 then some (.witnessUnknown, [[UInt8.ofNat version], program])
      else none
    | none =>
      if script.head?.map UInt8.toNat == some opReturn && CScript.isPushOnly (script.drop 1) then
        some (.nullData, [])
      else scanTemplates contractConsensus script mTemplates

end Matching

/-! ## What a template says of a script -/

/-- The operations fit the template, one by one, but for the keys. -/
inductive Fits (contractConsensus : Bool) : List TemplateItem → List (ℕ × Valtype) → Prop
  | nil : Fits contractConsensus [] []
  | pubkeys {template : List TemplateItem} {keys ops : List (ℕ × Valtype)}
      (hkeys : ∀ o ∈ keys, o.2 ≠ []) (h : Fits contractConsensus template ops) :
      Fits contractConsensus (.pubkeys :: template) (keys ++ ops)
  | single {op : TemplateOp} {template : List TemplateItem} {o : ℕ × Valtype}
      {ops : List (ℕ × Valtype)} {rootVM : ℕ} {r : ℕ × List Valtype}
      (hop : matchOp contractConsensus rootVM o.1 o.2 op = .ok r)
      (h : Fits contractConsensus template ops) :
      Fits contractConsensus (.single op :: template) (o :: ops)

theorem takeKeys_reads (fuel : ℕ) (script : CScript) :
    ∃ keys, Reads script keys (takeKeys fuel script).2 ∧ ∀ o ∈ keys, o.2 ≠ [] := by
  induction fuel generalizing script with
  | zero => exact ⟨[], .nil _, by simp⟩
  | succ fuel ih =>
    rw [takeKeys]
    cases hop : getOp script with
    | none => exact ⟨[], .nil _, by simp⟩
    | some r =>
      obtain ⟨opcode, vch, pc⟩ := r
      by_cases hlen : 33 ≤ vch.length ∧ vch.length ≤ 65
      · obtain ⟨keys, hkeys, hne⟩ := ih pc
        simp only [hlen]
        refine ⟨(opcode, vch) :: keys, .cons hop hkeys, ?_⟩
        intro o ho
        rcases mem_cons.mp ho with rfl | ho
        · rintro rfl
          simp at hlen
        · exact hne o ho
      · simp only [hlen]
        exact ⟨[], .nil _, by simp⟩

variable {contractConsensus : Bool} {template : List TemplateItem} {script : CScript}
variable {vSolutions : List Valtype}

/-- **A script that matches a template is read to its end**, and its
operations fit. -/
theorem matchTemplate_fits {rootVM : ℕ}
    (h : matchTemplate contractConsensus rootVM template script = .ok vSolutions) :
    ∃ ops, Reads script ops [] ∧ Fits contractConsensus template ops := by
  induction template generalizing rootVM script vSolutions with
  | nil =>
    cases script with
    | nil => exact ⟨[], .nil _, .nil⟩
    | cons b pc => simp [matchTemplate] at h
  | cons item template ih =>
    cases item with
    | pubkeys =>
      obtain ⟨keys, hkeys, hne⟩ := takeKeys_reads script.length script
      simp only [matchTemplate, bind_eq_ok] at h
      obtain ⟨_, hmatch, -⟩ := h
      obtain ⟨ops, hops, hfits⟩ := ih hmatch
      exact ⟨keys ++ ops, hkeys.append hops, .pubkeys hne hfits⟩
    | single op =>
      simp only [matchTemplate, bind_eq_ok, orThrow_eq_ok] at h
      obtain ⟨⟨opcode, vch, pc⟩, hop, r, hr, _, hmatch, -⟩ := h
      obtain ⟨ops, hops, hfits⟩ := ih hmatch
      exact ⟨(opcode, vch) :: ops, .cons hop hops, .single hr hfits⟩

variable {kind : OutputKind}

/-- What is solved by a template matches one of that kind. -/
theorem scanTemplates_mem {templates : List (OutputKind × List TemplateItem)}
    (h : scanTemplates contractConsensus script templates = some (kind, vSolutions)) :
    ∃ template, (kind, template) ∈ templates ∧
      matchTemplate contractConsensus 20 template script = .ok vSolutions := by
  induction templates with
  | nil => cases h
  | cons t templates ih =>
    obtain ⟨kind₁, template⟩ := t
    rw [scanTemplates] at h
    split at h
    · rename_i hmatch
      split_ifs at h
      cases h
      exact ⟨template, mem_cons_self, hmatch⟩
    · obtain ⟨template', hmem, hmatch⟩ := ih h
      exact ⟨template', mem_cons_of_mem _ hmem, hmatch⟩
    · cases h

/-! ## Contract outputs -/

/-- An operation that is neither a creation nor a call. -/
def Plain (o : ℕ × Valtype) : Prop := o.1 ≠ opCreate ∧ o.1 ≠ opCall

theorem plain_of_le {o : ℕ × Valtype} (h : o.1 ≤ 0x60) : Plain o := by
  unfold Plain opCreate opCall
  omega

theorem not_contract_of_plain (h : ∀ o ∈ script.operations, Plain o) :
    script.isContract = false := by
  have hcount : ∀ op, (∀ o ∈ script.operations, o.1 ≠ op) → script.find op = 0 := by
    intro op hne
    rw [find_eq_countP, countP_eq_zero]
    intro o ho
    simpa using hne o ho
  simp [isContract, hasOpCreate, hasOpCall, hcount _ fun o ho => (h o ho).1,
    hcount _ fun o ho => (h o ho).2]

/-- An opcode without an operand. -/
theorem getOp_of_gt {b : UInt8} (h : opPushData4 < b.toNat) (pc : CScript) :
    getOp (b :: pc) = some (b.toNat, [], pc) := by
  have hsize : pushSize b.toNat pc = some (0, pc) := by
    unfold pushSize opPushData1 opPushData2
    unfold opPushData4 at h ⊢
    rw [if_neg (by omega), if_neg (by omega), if_neg (by omega), if_neg (by omega)]
  simp [getOp, hsize]

/-- An operand whose length is the opcode. -/
theorem getOp_of_lt {b : UInt8} (h : b.toNat < opPushData1) {vch : Valtype}
    (hlen : vch.length = b.toNat) (pc : CScript) :
    getOp (b :: (vch ++ pc)) = some (b.toNat, vch, pc) := by
  have hsize : pushSize b.toNat ([] ++ (vch ++ pc)) = some (vch.length, vch ++ pc) := by
    rw [hlen]
    simp [pushSize, h]
  exact getOp_of_pushSize hsize

theorem plain_of_isPayToScriptHash (h : script.isPayToScriptHash = true) :
    ∀ o ∈ script.operations, Plain o := by
  simp only [isPayToScriptHash, Bool.and_eq_true] at h
  obtain ⟨⟨⟨hlen, h0⟩, h1⟩, h22⟩ := h
  obtain ⟨hash, hhash, rfl⟩ : ∃ hash : List UInt8, hash.length = 20 ∧
      script = 0xa9 :: 0x14 :: (hash ++ [0x87]) := by
    rcases script with _ | ⟨b₀, _ | ⟨b₁, rest⟩⟩
    · cases h0
    · cases h1
    rcases eq_nil_or_concat rest with rfl | ⟨hash, b₂, rfl⟩
    · cases h22
    have hhash : hash.length = 20 := by simpa using hlen
    have hb₂ : b₂ = 0x87 := by simpa [hhash] using h22
    obtain rfl : b₀ = 0xa9 := by simpa using h0
    obtain rfl : b₁ = 0x14 := by simpa using h1
    exact ⟨hash, hhash, by rw [hb₂, concat_eq_append]⟩
  have hreads : Reads (0xa9 :: 0x14 :: (hash ++ [0x87])) [(0xa9, []), (0x14, hash), (0x87, [])] [] :=
    .cons (getOp_of_gt (by decide) _) (.cons (getOp_of_lt (by decide) hhash _)
      (.cons (getOp_of_gt (by decide) _) (.nil _)))
  rw [hreads.operations]
  simp [Plain, opCreate, opCall]

theorem plain_of_isWitnessProgram {r : ℕ × Valtype}
    (h : script.isWitnessProgram = some r) : ∀ o ∈ script.operations, Plain o := by
  unfold isWitnessProgram at h
  split at h
  · rename_i b₀ b₁ program
    split_ifs at h with hlen hver hb
    have hb₁ : getOp (b₁ :: (program ++ [])) = some (b₁.toNat, program, []) :=
      getOp_of_lt (by unfold opPushData1; omega) hb.symm []
    rw [append_nil] at hb₁
    -- the version is pushed by an opcode without an operand
    have hb₀ : getOp (b₀ :: b₁ :: program) = some (b₀.toNat, [], b₁ :: program) := by
      rcases Nat.eq_zero_or_pos b₀.toNat with hzero | hpos
      · have hnil : ([] : Valtype).length = b₀.toNat := hzero.symm
        exact getOp_of_lt (by rw [hzero]; decide) hnil (b₁ :: program)
      · exact getOp_of_gt (by unfold opPushData4; omega) _
    have hreads : Reads (b₀ :: b₁ :: program) [(b₀.toNat, []), (b₁.toNat, program)] [] :=
      .cons hb₀ (.cons hb₁ (.nil _))
    rw [hreads.operations]
    intro o ho
    apply plain_of_le
    rcases mem_pair.mp ho with rfl | rfl
    · omega
    · omega
  · cases h

theorem le_of_isPushOnlyFrom {fuel : ℕ} {pc : CScript} (h : isPushOnlyFrom fuel pc = true) :
    ∀ o ∈ operationsFrom fuel pc, o.1 ≤ 0x60 := by
  induction fuel generalizing pc with
  | zero => simp [operationsFrom]
  | succ fuel ih =>
    cases hop : getOp pc with
    | none => simp [operationsFrom, hop]
    | some r =>
      have hne : pc.isEmpty = false := by
        cases pc with
        | nil => cases hop
        | cons b pc₀ => rfl
      simp only [isPushOnlyFrom, hne, hop, Bool.false_or, Bool.and_eq_true,
        decide_eq_true_eq] at h
      simp only [operationsFrom, hop, mem_cons]
      rintro o (rfl | ho)
      · exact h.1
      · exact ih h.2 o ho

theorem plain_of_nullData (h0 : script.head?.map UInt8.toNat = some opReturn)
    (h : isPushOnly (script.drop 1) = true) : ∀ o ∈ script.operations, Plain o := by
  cases script with
  | nil => cases h0
  | cons b pc =>
    have hb : b.toNat = opReturn := by simpa using h0
    have hop : getOp (b :: pc) = some (b.toNat, [], pc) := getOp_of_gt (by rw [hb]; decide) pc
    simp only [operations, length_cons, operationsFrom, hop, mem_cons]
    rintro o (rfl | ho)
    · simp [Plain, hb, opReturn, opCreate, opCall]
    · exact plain_of_le (le_of_isPushOnlyFrom h o ho)

/-- No operation that this item of a template fits is a contract opcode. -/
def TemplateItem.isPlain : TemplateItem → Bool
  | .pubkeys => true
  | .single (.opcode opcode) => opcode != opCreate && opcode != opCall
  | .single op => op == .pubkey || op == .pubkeyHash || op == .smallInteger

section Kinds

variable {o : ℕ × Valtype} {ops : List (ℕ × Valtype)} {rootVM : ℕ} {r : ℕ × List Valtype}

theorem matchOp_opcode {opcode₂ : ℕ}
    (h : matchOp contractConsensus rootVM o.1 o.2 (.opcode opcode₂) = .ok r) :
    o = (opcode₂, []) := by
  simp only [matchOp, bind_eq_ok, require_eq_ok, Bool.and_eq_true, beq_iff_eq,
    List.isEmpty_iff] at h
  obtain ⟨-, ⟨hop, hvch⟩, -⟩ := h
  exact Prod.ext hop hvch

theorem matchOp_plain {op : TemplateOp} (hitem : (TemplateItem.single op).isPlain = true)
    (hpush : o.2 ≠ [] → Plain o) (h : matchOp contractConsensus rootVM o.1 o.2 op = .ok r) :
    Plain o := by
  cases op with
  | opcode opcode₂ =>
    obtain rfl := matchOp_opcode h
    simpa [TemplateItem.isPlain, Plain] using hitem
  | pubkey =>
    simp only [matchOp, bind_eq_ok, require_eq_ok, decide_eq_true_eq] at h
    exact hpush (length_pos_iff.mp (by omega))
  | pubkeyHash =>
    simp only [matchOp, bind_eq_ok, require_eq_ok, beq_iff_eq] at h
    exact hpush (length_pos_iff.mp (by omega))
  | smallInteger =>
    simp only [matchOp, bind_eq_ok, require_eq_ok, Bool.or_eq_true, beq_iff_eq,
      decide_eq_true_eq] at h
    exact plain_of_le (by omega)
  | _ => cases hitem

theorem Fits.plain (h : Fits contractConsensus template ops)
    (hitems : ∀ item ∈ template, item.isPlain = true) (hpush : ∀ o ∈ ops, o.2 ≠ [] → Plain o) :
    ∀ o ∈ ops, Plain o := by
  induction h with
  | nil => simp
  | pubkeys hkeys _ ih =>
    rw [forall_mem_append] at hpush ⊢
    exact ⟨fun o ho => hpush.1 o ho (hkeys o ho), ih (forall_mem_cons.1 hitems).2 hpush.2⟩
  | single hop _ ih =>
    rw [forall_mem_cons] at hitems hpush ⊢
    exact ⟨matchOp_plain hitems.1 hpush.1 hop, ih hitems.2 hpush.2⟩

/-- The operations of a template that ends with an opcode. -/
theorem Fits.closed {opcode : ℕ} (items : List TemplateOp)
    (h : Fits contractConsensus (items.map .single ++ [.single (.opcode opcode)]) ops) :
    ∃ params, ops = params ++ [(opcode, [])] ∧ params.length = items.length := by
  induction items generalizing ops with
  | nil =>
    obtain _ | _ | ⟨hop, h⟩ := h
    cases h
    exact ⟨[], congrArg (· :: []) (matchOp_opcode hop), rfl⟩
  | cons op items ih =>
    obtain _ | _ | ⟨_, h⟩ := h
    obtain ⟨params, rfl, hlen⟩ := ih h
    exact ⟨_ :: params, rfl, congrArg (· + 1) hlen⟩

end Kinds

/-- The number of parameters that a contract opcode needs: a call has a
receiver. -/
def NeedsValues (opcode n : ℕ) : Prop := (opcode = opCreate ∧ n = 4) ∨ (opcode = opCall ∧ n = 5)

namespace NeedsValues

variable {opcode n : ℕ}

theorem opcode_eq (h : NeedsValues opcode n) : opcode = opCreate ∨ opcode = opCall :=
  h.imp And.left And.left

theorem le_five (h : NeedsValues opcode n) : n ≤ 5 := by
  rcases h with ⟨-, rfl⟩ | ⟨-, rfl⟩ <;> decide

theorem unique {m : ℕ} (h : NeedsValues opcode m) (h' : NeedsValues opcode n) : m = n := by
  unfold NeedsValues opCreate opCall at h h'
  omega

end NeedsValues

/-- The operations of a contract output: one for each parameter, and the
opcode. -/
def ContractForm (ops : List (ℕ × Valtype)) : Prop :=
  ∃ params opcode, ops = params ++ [(opcode, [])] ∧ NeedsValues opcode params.length

/-- A script of a kind that has a template either has no contract opcode or
the form of a contract. -/
theorem form_of_fits {ops : List (ℕ × Valtype)} (hmem : (kind, template) ∈ mTemplates)
    (hreads : Reads script ops []) (hfits : Fits contractConsensus template ops) :
    (∀ o ∈ ops, Plain o) ∨ ContractForm ops := by
  -- an operation with an operand is a push
  have hpush : ∀ o ∈ ops, o.2 ≠ [] → Plain o := by
    intro o ho hne
    by_contra hplain
    refine hne (hreads.operand ho ?_)
    by_contra hle
    exact hplain (plain_of_le (le_trans (Nat.le_of_not_lt hle) (by decide)))
  simp only [mTemplates, mem_cons, not_mem_nil, or_false] at hmem
  rcases hmem with ⟨-, rfl⟩ | ⟨-, rfl⟩ | ⟨-, rfl⟩ | ⟨-, rfl⟩ | ⟨-, rfl⟩
  -- a public key, its hash, and a number of keys
  · exact .inl (hfits.plain (by decide) hpush)
  · exact .inl (hfits.plain (by decide) hpush)
  · exact .inl (hfits.plain (by decide) hpush)
  · -- the creation of a contract
    obtain ⟨params, rfl, hlen⟩ := hfits.closed [.version, .gasLimit, .gasPrice, .data]
    exact .inr ⟨params, opCreate, rfl, .inl ⟨rfl, hlen⟩⟩
  · -- a call of a contract
    obtain ⟨params, rfl, hlen⟩ := hfits.closed [.version, .gasLimit, .gasPrice, .data, .pubkeyHash]
    exact .inr ⟨params, opCall, rfl, .inr ⟨rfl, hlen⟩⟩

/-- **A contract output that passes `Solver` has the form of a contract.** -/
theorem solver_contract (h : (solver contractConsensus script).isSome = true)
    (hcontract : script.isContract = true) :
    ∃ ops, Reads script ops [] ∧ ContractForm ops := by
  have hplain : ¬ ∀ o ∈ script.operations, Plain o := by
    intro hplain
    rw [not_contract_of_plain hplain] at hcontract
    cases hcontract
  obtain ⟨⟨kind, vSolutions⟩, hsolver⟩ := Option.isSome_iff_exists.mp h
  have hhash : ¬ script.isPayToScriptHash = true := fun hhash =>
    hplain (plain_of_isPayToScriptHash hhash)
  rw [solver, if_neg hhash] at hsolver
  split at hsolver
  · rename_i hwitness
    exact absurd (plain_of_isWitnessProgram hwitness) hplain
  split_ifs at hsolver with hnull
  · rw [Bool.and_eq_true, beq_iff_eq] at hnull
    exact absurd (plain_of_nullData hnull.1 hnull.2) hplain
  obtain ⟨template, hmem, hmatch⟩ := scanTemplates_mem hsolver
  obtain ⟨ops, hreads, hfits⟩ := matchTemplate_fits hmatch
  rcases form_of_fits hmem hreads hfits with hops | hform
  · exact absurd (by rwa [hreads.operations]) hplain
  · exact ⟨ops, hreads, hform⟩

end Slucore

import Slucore.Script.Interpreter
/-!
# Script — runs of pushes

A push that `CScript::operator<<` writes is read back by `GetOp`
(`getOp_pushData`). A script that starts with push operations runs by
putting their values on the stack, one by one (`run_pushes`), and one of
them that is too long stops it (`run_stops`); so what such a script
leaves can be read off it without running it.
-/


namespace Slucore

open List hiding le_trans
open UInt8

/-! ## What is written is read -/

/-- Reading an operation without its operand. -/
theorem getScriptOp_eq (script : CScript) :
    getScriptOp script = (getOp script).map fun r => (r.1, r.2.2) := by
  cases script with
  | nil => rfl
  | cons b pc =>
    simp only [getScriptOp, getOp]
    cases pushSize b.toNat pc with
    | none => rfl
    | some r => by_cases hlt : r.2.length < r.1 <;> simp [hlt]

/-- The length of the operand is all there is to read. -/
theorem getOp_of_pushSize {hd : UInt8} {size b rest : List UInt8}
    (h : pushSize hd.toNat (size ++ (b ++ rest)) = some (b.length, b ++ rest)) :
    getOp (hd :: (size ++ (b ++ rest))) = some (hd.toNat, b, rest) := by
  simp [getOp, h]

/-- **A push is read back**, with an opcode of a push. -/
theorem getOp_pushData {b : Valtype} (h : b.length < 2 ^ 32) (rest : CScript) :
    ∃ opcode ≤ opPushData4, getOp (pushData b ++ rest) = some (opcode, b, rest) := by
  have hbyte : ∀ n, (ofNat n).toNat = n % 256 := by simp
  by_cases h1 : b.length < opPushData1
  · have hpush : pushData b ++ rest = ofNat b.length :: ([] ++ (b ++ rest)) := by
      simp [pushData, h1]
    have hlen : (ofNat b.length).toNat = b.length := by
      rw [hbyte]
      unfold opPushData1 at h1
      omega
    refine ⟨(ofNat b.length).toNat, ?_, ?_⟩
    · rw [hlen]
      exact le_trans h1.le (by decide)
    · rw [hpush]
      apply getOp_of_pushSize
      simp [pushSize, hlen, h1]
  by_cases h2 : b.length ≤ 0xff
  · have hpush : pushData b ++ rest = 0x4c :: ([ofNat b.length] ++ (b ++ rest)) := by
      simp only [pushData, if_neg h1, if_pos h2]
      rfl
    refine ⟨0x4c, by decide, ?_⟩
    rw [hpush]
    apply getOp_of_pushSize
    simp [pushSize, opPushData1, readLE]
    omega
  by_cases h3 : b.length ≤ 0xffff
  · have hpush : pushData b ++ rest =
        0x4d :: ([ofNat b.length, ofNat (b.length / 256)] ++ (b ++ rest)) := by
      simp only [pushData, if_neg h1, if_neg h2, if_pos h3]
      rfl
    refine ⟨0x4d, by decide, ?_⟩
    rw [hpush]
    apply getOp_of_pushSize
    simp [pushSize, opPushData1, opPushData2, readLE]
    omega
  · have hpush : pushData b ++ rest =
        0x4e :: ([ofNat b.length, ofNat (b.length / 256),
          ofNat (b.length / 256 ^ 2), ofNat (b.length / 256 ^ 3)] ++ (b ++ rest)) := by
      simp only [pushData, if_neg h1, if_neg h2, if_neg h3]
      rfl
    refine ⟨0x4e, by decide, ?_⟩
    rw [hpush]
    apply getOp_of_pushSize
    simp [pushSize, opPushData1, opPushData2, opPushData4, readLE]
    omega

/-! ## The operations of a script -/

/-- The value an operation pushes, if it is one of those that only push. -/
def pushedValue (opcode : ℕ) (vch : Valtype) : Option Valtype :=
  match operation opcode with
  | .push => some vch
  | .num n => some (scriptNumSerialize n)
  | _ => none

/-- Operations that only push, and their values. -/
def PushValues (ops : List (ℕ × Valtype)) (vs : List Valtype) : Prop :=
  List.Forall₂ (fun o v => pushedValue o.1 o.2 = some v) ops vs

/-- From `script` the operations `ops` are read, up to `rest`. -/
inductive Reads : CScript → List (ℕ × Valtype) → CScript → Prop
  | nil (rest : CScript) : Reads rest [] rest
  | cons {script pc rest : CScript} {opcode : ℕ} {vch : Valtype} {ops : List (ℕ × Valtype)}
      (h : getOp script = some (opcode, vch, pc)) (hops : Reads pc ops rest) :
      Reads script ((opcode, vch) :: ops) rest

/-- The operations of a script up to the first that does not parse. -/
def operationsFrom : ℕ → CScript → List (ℕ × Valtype)
  | 0, _ => []
  | fuel + 1, script =>
    match getOp script with
    | none => []
    | some (opcode, vch, pc) => (opcode, vch) :: operationsFrom fuel pc

def CScript.operations (script : CScript) : List (ℕ × Valtype) :=
  operationsFrom script.length script

variable {opcode : ℕ} {pc : CScript}

theorem length_of_pushSize {nSize : ℕ} {pc' : CScript}
    (h : pushSize opcode pc = some (nSize, pc')) : pc'.length ≤ pc.length := by
  unfold pushSize at h
  split_ifs at h <;> cases h <;> simp

variable {script : CScript} {vch : Valtype}

section

variable (h : getOp script = some (opcode, vch, pc))
include h

/-- What `GetOp` reads is the opcode, and as many bytes as the length says. -/
theorem getOp_eq_some :
    ∃ (b : UInt8) (pc₀ pc₁ : CScript) (nSize : ℕ), script = b :: pc₀ ∧
      pushSize b.toNat pc₀ = some (nSize, pc₁) ∧ nSize ≤ pc₁.length ∧
      opcode = b.toNat ∧ vch = pc₁.take nSize ∧ pc = pc₁.drop nSize := by
  cases script with
  | nil => cases h
  | cons b pc₀ =>
    cases hsize : pushSize b.toNat pc₀ with
    | none => simp [getOp, hsize] at h
    | some r =>
      by_cases hlt : r.2.length < r.1
      · simp [getOp, hsize, hlt] at h
      · simp only [getOp, hsize, hlt, if_false, Option.some.injEq, Prod.mk.injEq] at h
        exact ⟨b, pc₀, r.2, r.1, rfl, hsize, Nat.le_of_not_lt hlt, h.1.symm, h.2.1.symm,
          h.2.2.symm⟩

/-- Reading an operation takes at least its opcode. -/
theorem length_of_getOp : pc.length < script.length := by
  obtain ⟨b, pc₀, pc₁, nSize, rfl, hsize, -, -, -, rfl⟩ := getOp_eq_some h
  have := length_of_pushSize hsize
  rw [length_drop, length_cons]
  omega

/-- Only pushes have an operand. -/
theorem operand_of_getOp (hop : opPushData4 < opcode) : vch = [] := by
  obtain ⟨b, pc₀, pc₁, nSize, rfl, hsize, -, rfl, rfl, -⟩ := getOp_eq_some h
  unfold pushSize opPushData1 opPushData2 at hsize
  unfold opPushData4 at hsize hop
  rw [if_neg (by omega), if_neg (by omega), if_neg (by omega), if_neg (by omega)] at hsize
  cases hsize
  rfl

end

namespace Reads

variable {script rest : CScript} {ops : List (ℕ × Valtype)}

theorem length_le (h : Reads script ops rest) : ops.length + rest.length ≤ script.length := by
  induction h with
  | nil => simp
  | cons h _ ih =>
    have := length_of_getOp h
    rw [length_cons]
    omega

/-- The operations that are read come first. -/
theorem operationsFrom (h : Reads script ops rest) (fuel : ℕ) :
    Slucore.operationsFrom (ops.length + fuel) script = ops ++ Slucore.operationsFrom fuel rest := by
  induction h with
  | nil => simp
  | cons h _ ih =>
    rw [length_cons, Nat.add_right_comm, Slucore.operationsFrom, h]
    simp [ih]

/-- A script that is read to its end is its operations. -/
theorem operations (h : Reads script ops []) : script.operations = ops := by
  obtain ⟨fuel, hfuel⟩ := Nat.exists_eq_add_of_le (Nat.le_of_add_right_le h.length_le)
  rw [CScript.operations, hfuel, h.operationsFrom]
  cases fuel <;> simp [Slucore.operationsFrom, getOp]

variable {ops' : List (ℕ × Valtype)}

theorem append {pc : CScript} (h : Reads script ops pc)
    (h' : Reads pc ops' rest) : Reads script (ops ++ ops') rest := by
  induction h with
  | nil => exact h'
  | cons hop _ ih => exact .cons hop (ih h')

theorem split (h : Reads script (ops ++ ops') rest) :
    ∃ pc, Reads script ops pc ∧ Reads pc ops' rest := by
  induction ops generalizing script with
  | nil => exact ⟨script, .nil _, h⟩
  | cons o ops ih =>
    cases h with
    | cons hop hops =>
      obtain ⟨pc, hfirst, hlast⟩ := ih hops
      exact ⟨pc, .cons hop hfirst, hlast⟩

theorem operand (h : Reads script ops rest) {o : ℕ × Valtype} (ho : o ∈ ops)
    (hlt : opPushData4 < o.1) : o.2 = [] := by
  induction h with
  | nil => cases ho
  | cons hop _ ih =>
    rcases mem_cons.mp ho with rfl | ho
    · exact operand_of_getOp hop hlt
    · exact ih ho

end Reads

/-- `CScript::Find` counts operations. -/
theorem CScript.find_eq_countP (script : CScript) (op : ℕ) :
    script.find op = script.operations.countP fun o => o.1 == op := by
  have hfrom : ∀ (fuel : ℕ) (pc : CScript),
      findFrom op fuel pc = (operationsFrom fuel pc).countP fun o => o.1 == op := by
    intro fuel
    induction fuel with
    | zero => simp [findFrom, operationsFrom]
    | succ fuel ih =>
      intro pc
      cases hop : getOp pc with
      | none => simp [findFrom, operationsFrom, getScriptOp_eq, hop]
      | some r =>
        simp only [findFrom, operationsFrom, getScriptOp_eq, hop, ih, countP_cons, beq_iff_eq]
        exact Nat.add_comm _ _
  exact hfrom _ _

/-! ## Running pushes -/

/-- The opcodes that push come first. -/
theorem le_of_operation_eq_push (h : operation opcode = .push) :
    opcode ≤ opPushData4 := by
  by_contra hlt
  unfold operation at h
  rw [if_neg hlt] at h
  by_cases hnum : 0x51 ≤ opcode ∧ opcode ≤ 0x60
  · rw [if_pos hnum] at h
    cases h
  · rw [if_neg hnum] at h
    split at h <;> first | cases h | (split_ifs at h)

/-- The opcodes of numbers follow them, up to `OP_16`. -/
theorem le_of_operation_eq_num {n : ℤ} (h : operation opcode = .num n) :
    opPushData4 < opcode ∧ opcode ≤ 0x60 := by
  unfold operation at h
  by_cases hlt : opcode ≤ opPushData4
  · rw [if_pos hlt] at h
    cases h
  refine ⟨Nat.lt_of_not_le hlt, ?_⟩
  rw [if_neg hlt] at h
  by_cases hnum : 0x51 ≤ opcode ∧ opcode ≤ 0x60
  · exact hnum.2
  · rw [if_neg hnum] at h
    split at h <;> first | omega | cases h | (split_ifs at h)

theorem pushedValue_eq_some {v : Valtype} (h : pushedValue opcode vch = some v) :
    (opcode ≤ opPushData4 ∧ v = vch) ∨
      ∃ n, opPushData4 < opcode ∧ opcode ≤ 0x60 ∧ operation opcode = .num n ∧
        v = scriptNumSerialize n := by
  unfold pushedValue at h
  split at h
  · rename_i hop
    exact .inl ⟨le_of_operation_eq_push hop, (Option.some.inj h).symm⟩
  · rename_i n hop
    obtain ⟨hlt, hle⟩ := le_of_operation_eq_num hop
    exact .inr ⟨n, hlt, hle, hop, (Option.some.inj h).symm⟩
  · cases h

theorem pushedValue_of_le (h : opcode ≤ opPushData4) (vch : Valtype) :
    pushedValue opcode vch = some vch := by
  simp [pushedValue, operation, h]

namespace PushValues

variable {ops : List (ℕ × Valtype)} {vs : List Valtype}

theorem filterMap (h : PushValues ops vs) :
    ops.filterMap (fun o => pushedValue o.1 o.2) = vs := by
  induction h with
  | nil => rfl
  | cons hv _ ih => simp [hv, ih]

theorem le (h : PushValues ops vs) {o : ℕ × Valtype} (ho : o ∈ ops) : o.1 ≤ 0x60 := by
  induction h with
  | nil => cases ho
  | cons hv _ ih =>
    rcases mem_cons.mp ho with rfl | ho
    · rcases pushedValue_eq_some hv with ⟨hle, -⟩ | ⟨n, -, hle, -⟩
      · exact le_trans hle (by decide)
      · exact hle
    · exact ih ho

theorem exists_of_isSome (h : ∀ o ∈ ops, (pushedValue o.1 o.2).isSome = true) :
    ∃ vs, PushValues ops vs := by
  induction ops with
  | nil => exact ⟨[], .nil⟩
  | cons o ops ih =>
    obtain ⟨v, hv⟩ := Option.isSome_iff_exists.mp (h o mem_cons_self)
    obtain ⟨vs, hvs⟩ := ih fun o' ho => h o' (mem_cons_of_mem o ho)
    exact ⟨v :: vs, .cons hv hvs⟩

end PushValues

/-- What `operator<<` writes, value by value, is read as pushes. -/
theorem reads_pushData {vs : List Valtype} (h : ∀ v ∈ vs, v.length < 2 ^ 32) (rest : CScript) :
    ∃ ops, Reads (vs.flatMap pushData ++ rest) ops rest ∧ PushValues ops vs ∧
      ops.map Prod.snd = vs := by
  induction vs with
  | nil => exact ⟨[], .nil _, .nil, rfl⟩
  | cons v vs ih =>
    obtain ⟨ops, hreads, hvs, hops⟩ := ih fun w hw => h w (mem_cons_of_mem v hw)
    obtain ⟨opcode, hle, hop⟩ := getOp_pushData (h v mem_cons_self)
      (vs.flatMap pushData ++ rest)
    rw [flatMap_cons, List.append_assoc]
    exact ⟨(opcode, v) :: ops, .cons hop hreads, .cons (pushedValue_of_le hle v) hvs, by simp [hops]⟩

theorem length_pushData_le (b : List UInt8) : (pushData b).length ≤ b.length + 5 := by
  unfold pushData
  rw [length_append]
  split_ifs <;> simp <;> omega

namespace ScriptEnv

variable {E : ScriptEnv} {script pc rest : CScript} {opcode : ℕ} {vch v : Valtype} {s : ScriptState}

/-- A push that is not too long adds its value. -/
theorem step_of_push (hmin : E.minimalData = false)
    (hop : getOp script = some (opcode, vch, pc)) (hv : pushedValue opcode vch = some v)
    (hlen : vch.length ≤ maxScriptElementSize) (hexec : s.vfExec = [])
    (hroom : s.stack.length + s.altstack.length < maxStackSize) :
    E.step script s = .ok (pc, { s with stack := v :: s.stack }) := by
  have hroom' : s.stack.length + 1 + s.altstack.length ≤ maxStackSize := by omega
  obtain ⟨hle, rfl⟩ | ⟨n, hlt, hle, hnum, rfl⟩ := pushedValue_eq_some hv
  · have hpush : operation opcode = .push := by simp [operation, hle]
    have hcount : ¬ 0x60 < opcode := by
      unfold opPushData4 at hle
      omega
    simp [step, hop, require, hlen, hcount, hpush, hexec, hle, hmin, ScriptState.next, hroom']
  · have hnot : ¬ opcode ≤ opPushData4 := Nat.not_le.mpr hlt
    have hcount : ¬ 0x60 < opcode := Nat.not_lt.mpr hle
    simp [step, hop, require, hlen, hcount, hnum, hexec, hnot, exec, ScriptState.next, hroom']

section

variable (hop : getOp script = some (opcode, vch, pc))
include hop

/-- A push that is too long stops the script. -/
theorem step_of_long_push (hlen : ¬ vch.length ≤ maxScriptElementSize) :
    E.step script s = .error (.error .pushSize, s.stack) := by
  simp [step, hop, orThrow, require, hlen]

/-- A contract opcode ends the script, which is put on the stack from there
on. -/
theorem step_of_contract (hcontract : opcode = opCreate ∨ opcode = opCall) (hexec : s.vfExec = [])
    (hcount : s.nOpCount < maxOpsPerScript) :
    E.step script s = .error (.success, script :: s.stack) := by
  have hlt : opPushData4 < opcode := by rcases hcontract with rfl | rfl <;> decide
  have hop60 : 0x60 < opcode := by rcases hcontract with rfl | rfl <;> decide
  have hoperation : operation opcode = .contract := by rcases hcontract with rfl | rfl <;> rfl
  obtain rfl : vch = [] := operand_of_getOp hop hlt
  simp [step, hop, orThrow, require, hop60, Nat.not_le.mpr hlt, Nat.succ_le_of_lt hcount,
    hoperation, hexec, exec]

/-- One turn, where there is an operation to read. -/
theorem run_succ (fuel : ℕ) :
    E.run (fuel + 1) script s = E.step script s >>= fun r => E.run fuel r.1 r.2 := by
  have hne : script.isEmpty = false := by
    cases script with
    | nil => cases hop
    | cons b pc₀ => rfl
  simp [run, hne]

end

variable {ops : List (ℕ × Valtype)} {vs : List Valtype}

/-- **Pushes run by putting their values on the stack**, as many as it has
room for. -/
theorem run_pushes (hmin : E.minimalData = false) (h : Reads script ops rest)
    (hvs : PushValues ops vs) (hlen : ∀ o ∈ ops, o.2.length ≤ maxScriptElementSize)
    (hexec : s.vfExec = []) (hroom : s.stack.length + s.altstack.length + ops.length ≤ maxStackSize)
    (fuel : ℕ) :
    E.run (ops.length + fuel) script s =
      E.run fuel rest { s with stack := vs.reverse ++ s.stack } := by
  induction h generalizing s vs with
  | nil =>
    cases hvs
    simp
  | cons hop _ ih =>
    cases hvs with
    | @cons _ v _ vs hv hvs =>
      rw [length_cons] at hroom
      have hstep := step_of_push hmin hop hv (hlen _ mem_cons_self) hexec (by omega)
      have hrest := ih (s := { s with stack := v :: s.stack }) hvs
        (fun o ho => hlen o (mem_cons_of_mem _ ho)) hexec
        (by simp only [length_cons]; omega)
      rw [length_cons, Nat.add_right_comm, run_succ hop, hstep, ok_bind, hrest]
      simp

/-- **A push that is too long stops the script**, with the values before it
on the stack. -/
theorem run_stops (hmin : E.minimalData = false) (h : Reads script ops rest)
    (hvs : PushValues ops vs) (hlen : ∃ o ∈ ops, ¬ o.2.length ≤ maxScriptElementSize)
    (hexec : s.vfExec = []) (hroom : s.stack.length + s.altstack.length + ops.length ≤ maxStackSize)
    (fuel : ℕ) :
    ∃ k < ops.length, E.run (ops.length + fuel) script s =
      .error (.error .pushSize, (vs.take k).reverse ++ s.stack) := by
  induction h generalizing s vs with
  | nil => simp at hlen
  | @cons _ _ _ opcode vch ops hop _ ih =>
    rw [length_cons, Nat.add_right_comm, run_succ hop]
    by_cases hlong : vch.length ≤ maxScriptElementSize
    · cases hvs with
      | @cons _ v _ vs hv hvs =>
        rw [length_cons] at hroom
        have hstep := step_of_push hmin hop hv hlong hexec (by omega)
        have hlater : ∃ o ∈ ops, ¬ o.2.length ≤ maxScriptElementSize := by
          obtain ⟨o, ho, hlt⟩ := hlen
          rcases mem_cons.mp ho with rfl | ho
          · exact absurd hlong hlt
          · exact ⟨o, ho, hlt⟩
        obtain ⟨k, hk, hrun⟩ := ih (s := { s with stack := v :: s.stack }) hvs hlater hexec
          (by simp only [length_cons]; omega)
        refine ⟨k + 1, by omega, ?_⟩
        rw [hstep, ok_bind, hrun]
        simp
    · exact ⟨0, by omega, by rw [step_of_long_push hop hlong]; simp⟩

/-! ## A script of pushes that ends with a contract opcode -/

variable {stack : List Valtype}

/-- **Such a script leaves its values**, and on top the script from the
contract opcode on. -/
theorem evalScript_of_pushes (hmin : E.minimalData = false) (h : Reads script ops rest)
    (hvs : PushValues ops vs) (hlen : ∀ o ∈ ops, o.2.length ≤ maxScriptElementSize)
    (hop : getOp rest = some (opcode, vch, pc)) (hcontract : opcode = opCreate ∨ opcode = opCall)
    (hsize : script.length ≤ maxScriptSize) (hroom : stack.length + ops.length ≤ maxStackSize) :
    E.evalScript stack script = (.success, rest :: (vs.reverse ++ stack)) := by
  obtain ⟨fuel, hfuel⟩ : ∃ fuel, script.length = ops.length + (fuel + 1) := by
    have hle := h.length_le
    have hlt := length_of_getOp hop
    exact ⟨script.length - ops.length - 1, by omega⟩
  have hrun : E.run script.length script ⟨stack, [], [], 0, script⟩ =
      .error (.success, rest :: (vs.reverse ++ stack)) := by
    rw [hfuel, run_pushes (s := ⟨stack, [], [], 0, script⟩) hmin h hvs hlen rfl hroom,
      run_succ hop, step_of_contract hop hcontract rfl (by decide : 0 < maxOpsPerScript),
      error_bind]
  rw [evalScript, if_neg (Nat.not_lt.mpr hsize), hrun]

/-- Where a value is too long, only values before it are left. -/
theorem evalScript_of_long_push (hmin : E.minimalData = false) (h : Reads script ops rest)
    (hvs : PushValues ops vs) (hlen : ∃ o ∈ ops, ¬ o.2.length ≤ maxScriptElementSize)
    (hroom : stack.length + ops.length ≤ maxStackSize) :
    ∃ k < ops.length, (E.evalScript stack script).2 = (vs.take k).reverse ++ stack := by
  unfold evalScript
  split_ifs with hsize
  · obtain ⟨o, ho, -⟩ := hlen
    exact ⟨0, length_pos_of_mem ho, rfl⟩
  · obtain ⟨fuel, hfuel⟩ := Nat.exists_eq_add_of_le (Nat.le_of_add_right_le h.length_le)
    obtain ⟨k, hk, hrun⟩ := run_stops (s := ⟨stack, [], [], 0, script⟩) hmin h hvs hlen rfl hroom fuel
    exact ⟨k, hk, by rw [hfuel, hrun]⟩

end ScriptEnv

end Slucore

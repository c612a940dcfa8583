import Slucore.Evm.Executive
/-!
# Evm — the entries under a savepoint

The change log is cleared by a commit, but not when the caches are
dropped, so what an execution finds under its first savepoint depends on
what went wrong before it. It does not matter: every operation pushes
onto the log, and a rollback stops at a savepoint taken since. `onLog`
puts older entries under the log of a state, and everything the
executive does commutes with it.
-/


namespace Slucore

open SilubiumState

namespace SilubiumState

variable (s : SilubiumState) (l : List Change)

/-- The state with older entries under its log. -/
def onLog : SilubiumState := { s with changeLog := s.changeLog ++ l }

@[simp] theorem onLog_account (a : Address) : (s.onLog l).account a = s.account a := rfl

@[simp] theorem onLog_entry (a : Address) : (s.onLog l).entry a = s.entry a := rfl

@[simp] theorem onLog_addressInUse (a : Address) :
    (s.onLog l).addressInUse a = s.addressInUse a := rfl

@[simp] theorem onLog_addressHasCode (a : Address) :
    (s.onLog l).addressHasCode a = s.addressHasCode a := rfl

@[simp] theorem onLog_balance (a : Address) : (s.onLog l).balance a = s.balance a := rfl

@[simp] theorem onLog_getNonce (a : Address) : (s.onLog l).getNonce a = s.getNonce a := rfl

@[simp] theorem onLog_newAddress : (s.onLog l).newAddress = s.newAddress := rfl

@[simp] theorem onLog_transfers : (s.onLog l).transfers = s.transfers := rfl

@[simp] theorem onLog_savepoint : (s.onLog l).savepoint = s.savepoint + l.length :=
  List.length_append

@[simp] theorem write_onLog (a : Address) (acc : Account) (log : List Change) :
    (s.onLog l).write a acc log = (s.write a acc log).onLog l := by
  simp [write, onLog]

@[simp] theorem incNonce_onLog (a : Address) :
    (s.onLog l).incNonce a = (s.incNonce a).onLog l := by
  unfold incNonce
  rw [onLog_account]
  split
  · exact write_onLog ..
  · exact write_onLog ..

@[simp] theorem addBalance_onLog (a : Address) (amount : U256) :
    (s.onLog l).addBalance a amount =
      ((s.addBalance a amount).1.onLog l, (s.addBalance a amount).2) := by
  unfold addBalance
  rw [onLog_account, onLog_addressInUse, onLog_newAddress]
  split
  · exact congrArg (·, a) (write_onLog ..)
  · split
    · exact congrArg (·, s.newAddress) (write_onLog { s with newAddress := 0 } l ..)
    · exact congrArg (·, a) (write_onLog ..)

@[simp] theorem subBalance_onLog (a : Address) (value : U256) :
    (s.onLog l).subBalance a value = (s.subBalance a value).map (onLog · l) := by
  unfold subBalance
  rw [onLog_account, addBalance_onLog]
  by_cases hv : value = 0
  · simp [hv]
  rw [if_neg hv, if_neg hv]
  split
  · rfl
  · split <;> rfl

@[simp] theorem transferBalance_onLog (src dst : Address) (value : U256) :
    (s.onLog l).transferBalance src dst value =
      (s.transferBalance src dst value).map fun p => (p.1.onLog l, p.2) := by
  unfold transferBalance
  rw [subBalance_onLog, Option.map_map, Option.map_map]
  refine congrArg (Option.map · _) (funext fun s₁ => ?_)
  simp only [Function.comp_apply, addBalance_onLog]
  split <;> rfl

@[simp] theorem setStorage_onLog (a : Address) (key value : ℕ) :
    (s.onLog l).setStorage a key value = (s.setStorage a key value).onLog l :=
  write_onLog ..

@[simp] theorem setNewCode_onLog (a : Address) (code : List UInt8) :
    (s.onLog l).setNewCode a code = (s.setNewCode a code).onLog l :=
  write_onLog ..

@[simp] theorem rollback_onLog (savepoint : ℕ) :
    (s.onLog l).rollback (savepoint + l.length) = (s.rollback savepoint).onLog l := by
  simp only [rollback, onLog]
  rw [unwind_under]

end SilubiumState

namespace EvmConfig

/-- The configuration with older entries under the log of its state. -/
def onLog (c : EvmConfig) (l : List Change) : EvmConfig := { c with state := c.state.onLog l }

end EvmConfig

namespace Executive

variable (E : EvmEnv) (env : EnvInfo) (c : EvmConfig) (l : List Change)

@[simp] theorem noteUnused_onLog (a : Address) :
    noteUnused a (c.onLog l) = (noteUnused a c).onLog l := by
  unfold noteUnused
  split <;> simp_all [EvmConfig.onLog]

@[simp] theorem transfer_onLog (src dst : Address) (value : U256) :
    transfer src dst value (c.onLog l) = (transfer src dst value c).map (·.onLog l) := by
  simp only [transfer, EvmConfig.onLog, transferBalance_onLog, Option.map_map]
  rfl

theorem call_onLog (sender receive codeAddress : Address) (value : U256) (outOfGas : Bool) :
    call E env sender receive codeAddress value outOfGas (c.onLog l) =
      (call E env sender receive codeAddress value outOfGas c).map fun p => (p.1.onLog l, p.2) := by
  unfold call
  split
  · split
    · simp [EvmConfig.onLog]
    · rfl
  · rw [noteUnused_onLog, transfer_onLog, Option.map_map, Option.map_map]
    rfl

theorem create_onLog (sender : Address) (nonce : ℕ) (endowment : U256) (hasInit : Bool) :
    create E env sender nonce endowment hasInit (c.onLog l) =
      (create E env sender nonce endowment hasInit c).map fun p => (p.1.onLog l, p.2) := by
  unfold create
  simp only [EvmConfig.onLog, transferBalance_onLog, Option.map_map]
  refine congrArg (Option.map · _) (funext fun p => ?_)
  by_cases hfork : E.eip158ForkBlock ≤ env.number
  · simp only [Function.comp_apply, if_pos hfork, incNonce_onLog, onLog_addressHasCode]
    split <;> rfl
  · simp only [Function.comp_apply, if_neg hfork, onLog_addressHasCode,
      setNewCode_onLog]
    split <;> rfl

theorem close_onLog (c₀ : EvmConfig) (my : Address) (isCreation : Bool) (ending : Ending) :
    close (c₀.onLog l) my isCreation ending (c.onLog l) =
      (close c₀ my isCreation ending c).map (·.onLog l) := by
  cases ending with
  | ret out => cases isCreation <;> simp [close, EvmConfig.onLog]
  | suicide dest =>
    simp only [close, noteUnused_onLog, transfer_onLog, Option.map_map]
    cases isCreation <;>
      exact congrArg (Option.map · _) (funext fun c' => by simp [EvmConfig.onLog])
  | throw e => simp [close, EvmConfig.onLog]

/-- A body followed by the end of its frame. -/
theorem body_onLog {x y : Option EvmConfig} {f g : EvmConfig → Option EvmConfig}
    (hf : ∀ c, f (c.onLog l) = (g c).map (EvmConfig.onLog · l)) :
    x = y.map (EvmConfig.onLog · l) → (match x with | none => none | some c => f c) =
      Option.map (EvmConfig.onLog · l) (match y with | none => none | some c => g c) := by
  rintro rfl
  cases y with
  | none => rfl
  | some c => exact hf c

mutual

theorem execOp_onLog (f : Frame) (op : Op) (c : EvmConfig) :
    execOp E env f op (c.onLog l) = (execOp E env f op c).map (·.onLog l) := by
  match op with
  | .sstore key value => simp [execOp, EvmConfig.onLog]
  | .call kind codeAddress value outOfGas body ending =>
    have hb : (c.onLog l).state.balance f.myAddress = c.state.balance f.myAddress := rfl
    simp only [execOp, hb, call_onLog]
    generalize (if kind = .delegatecall then 0 else value) = v
    generalize (if kind = .delegatecall then f.caller else f.myAddress) = sender
    generalize (if kind = .call then codeAddress else f.myAddress) = receive
    by_cases hg : c.state.balance f.myAddress < v ∨ 1024 ≤ f.depth
    · rw [if_pos hg, if_pos hg]
      rfl
    rw [if_neg hg, if_neg hg]
    cases call E env sender receive codeAddress v outOfGas c with
    | none => rfl
    | some p =>
      obtain ⟨c₁, hasExt⟩ := p
      cases hasExt with
      | false => rfl
      | true =>
        have hbody := execOps_onLog ⟨receive, sender, f.depth + 1⟩ body { c₁ with suicides := [] }
        exact body_onLog l (fun c₂ => close_onLog c₂ l c receive false ending) hbody
  | .create hasInit body ending =>
    have hn : (c.onLog l).state.getNonce f.myAddress = c.state.getNonce f.myAddress := rfl
    have hinc : { (c.onLog l) with state := (c.onLog l).state.incNonce f.myAddress } =
        ({ c with state := c.state.incNonce f.myAddress } : EvmConfig).onLog l := by
      simp [EvmConfig.onLog]
    simp only [execOp, hn, hinc, create_onLog]
    by_cases hg : 1024 ≤ f.depth
    · rw [if_pos hg, if_pos hg]
      rfl
    rw [if_neg hg, if_neg hg]
    cases create E env f.myAddress (c.state.getNonce f.myAddress) 0 hasInit
        { c with state := c.state.incNonce f.myAddress } with
    | none => rfl
    | some p =>
      obtain ⟨c₁, newAddr, ran⟩ := p
      cases ran with
      | false => rfl
      | true =>
        have hbody :=
          execOps_onLog ⟨newAddr, f.myAddress, f.depth + 1⟩ body { c₁ with suicides := [] }
        exact body_onLog l (fun c₂ => close_onLog c₂ l _ newAddr true ending) hbody

theorem execOps_onLog (f : Frame) (ops : List Op) (c : EvmConfig) :
    execOps E env f ops (c.onLog l) = (execOps E env f ops c).map (·.onLog l) := by
  match ops with
  | [] => rfl
  | op :: ops =>
    rw [execOps, execOps, execOp_onLog f op c]
    cases execOp E env f op c with
    | none => rfl
    | some c' => exact execOps_onLog f ops c'

end

end Executive

end Slucore

import Slucore.Aal.ByteCodeExec
import Slucore.Evm.OldLog
/-!
# Aal — what an execution does not read

Two contract states that differ only in their change logs give the same
results when an output is executed, and leave states that differ only in
their change logs. So does a whole contract transaction, if the virtual
machine does not look at the log either (`Vm.LogBlind`), which it has no
way to.
-/


namespace Slucore

open Executive

/-! ## One output -/

namespace CondensingTX

variable (ctx : CondensingTX) (l : List Change)

/-- The condensing of a state with older entries under its log. -/
def onLog : CondensingTX := { ctx with state := ctx.state.onLog l }

-- the two loops read balances and scripts of the state: unfolded, both sides are one term
@[simp] theorem createNewBalances_onLog :
    (ctx.onLog l).createNewBalances = ctx.createNewBalances := by
  delta createNewBalances newBalancesFrom
  rfl

@[simp] theorem createVout_onLog : (ctx.onLog l).createVout = ctx.createVout := by
  rw [createVout, createNewBalances_onLog, createVout]
  delta voutsFrom
  rfl

@[simp] theorem createCondensingTX_onLog :
    (ctx.onLog l).createCondensingTX = ctx.createCondensingTX := by
  have hvins : (ctx.onLog l).createVins = ctx.createVins := rfl
  simp only [createCondensingTX, createNewBalances_onLog, createVout_onLog, hvins]

@[simp] theorem reachedVoutLimit_onLog : (ctx.onLog l).reachedVoutLimit = ctx.reachedVoutLimit := by
  simp only [reachedVoutLimit, createNewBalances_onLog, createVout_onLog]

@[simp] theorem createVin_onLog (txid : UInt256) :
    (ctx.onLog l).createVin txid = ctx.createVin txid := by
  funext a
  have hsender : (ctx.onLog l).transaction = ctx.transaction := rfl
  simp only [createVin, nVoutOf, createNewBalances_onLog, createVout_onLog, hsender]

end CondensingTX

namespace SilubiumState

variable {H : Hashes} {E : AalEnv} {env : EnvInfo} {t : SilubiumTransaction} {trace : EvmTrace}
variable (s : SilubiumState) (l : List Change)

/-- The state with an empty log. -/
def cleared : SilubiumState := { s with changeLog := [] }

theorem handleException_onLog (tipHeight : ℕ) (p : Permanence) (deleteAddresses : List Address) :
    ((s.onLog l).handleException E tipHeight p deleteAddresses).cleared =
      (s.handleException E tipHeight p deleteAddresses).cleared := by
  unfold handleException
  split <;> rfl

theorem finalize_onLog (gasLeft : U256) (suicides : List Address) :
    finalize env t gasLeft suicides (s.onLog l) = (finalize env t gasLeft suicides s).onLog l := by
  simp only [finalize, addBalance_onLog]
  rfl

/-- A run of the outermost frame with older entries under the log. -/
def TopRun.onLog (run : TopRun) : TopRun :=
  { run with start := run.start.onLog l, final := run.final.onLog l }

theorem body_onLog (f : Frame) (isCreation : Bool) (newAddress : Address) (c₀ c₁ : EvmConfig) :
    ((execOps E.toEvmEnv env f trace.body (c₁.onLog l)).bind fun c₂ =>
        (close (c₀.onLog l) f.myAddress isCreation trace.ending c₂).map fun c₃ =>
          (⟨c₀.onLog l, c₃, true, newAddress⟩ : TopRun)) =
      ((execOps E.toEvmEnv env f trace.body c₁).bind fun c₂ =>
        (close c₀ f.myAddress isCreation trace.ending c₂).map fun c₃ =>
          (⟨c₀, c₃, true, newAddress⟩ : TopRun)).map (TopRun.onLog l) := by
  rw [execOps_onLog]
  cases execOps E.toEvmEnv env f trace.body c₁ with
  | none => rfl
  | some c₂ =>
    simp only [Option.map_some, Option.bind_some, close_onLog, Option.map_map]
    rfl

theorem runTop_onLog (c : EvmConfig) :
    runTop E env t trace (c.onLog l) = (runTop E env t trace c).map (TopRun.onLog l) := by
  have hsub : (c.onLog l).state.subBalance t.sender (t.gas * t.gasPrice) =
      (c.state.subBalance t.sender (t.gas * t.gasPrice)).map (SilubiumState.onLog · l) :=
    subBalance_onLog ..
  unfold runTop
  rw [hsub]
  cases c.state.subBalance t.sender (t.gas * t.gasPrice) with
  | none => rfl
  | some s =>
    have hc₀ : ({ c.onLog l with state := (s.onLog l).incNonce t.sender } : EvmConfig) =
        ({ c with state := s.incNonce t.sender } : EvmConfig).onLog l := by
      simp [EvmConfig.onLog]
    simp only [Option.map_some, hc₀, onLog_getNonce, create_onLog, call_onLog]
    split
    · cases create E.toEvmEnv env t.sender (s.getNonce t.sender) t.value
        (!t.data.isEmpty) { c with state := s.incNonce t.sender } with
      | none => rfl
      | some p =>
        obtain ⟨c₁, newAddr, ran⟩ := p
        cases ran with
        | false => rfl
        | true => exact body_onLog l ⟨newAddr, t.sender, 0⟩ true newAddr _ c₁
    · cases call E.toEvmEnv env t.sender t.receiveAddress t.receiveAddress t.value
        trace.outOfGas { c with state := s.incNonce t.sender } with
      | none => rfl
      | some p =>
        obtain ⟨c₁, ran⟩ := p
        cases ran with
        | false => rfl
        | true => exact body_onLog l ⟨t.receiveAddress, t.sender, 0⟩ false 0 _ c₁

theorem concluded_onLog (run : TopRun) :
    concluded env t trace (run.onLog l) = (concluded env t trace run).onLog l := by
  have h : finalize env t (gasLeftOf trace) run.final.suicides (run.final.state.onLog l) =
      (finalize env t (gasLeftOf trace) run.final.suicides run.final.state).onLog l :=
    finalize_onLog ..
  exact congrArg (deleteAccounts · run.final.deleteAddresses) h

theorem condensing_onLog (run : TopRun) :
    condensing env t trace (run.onLog l) = (condensing env t trace run).onLog l := by
  simp only [condensing, concluded_onLog]
  rfl

theorem TopRun.rollback_onLog (run : TopRun) :
    (s.onLog l).rollback (run.onLog l).start.state.savepoint =
      (s.rollback run.start.state.savepoint).onLog l := by
  have hsave : (run.onLog l).start.state.savepoint = run.start.state.savepoint + l.length :=
    onLog_savepoint ..
  rw [hsave, SilubiumState.rollback_onLog]

/-- What is compared of the outcome of an execution. -/
def forgetLog (q : AalState × ResultExecute) : SilubiumState × List Address × ResultExecute :=
  (q.1.state.cleared, q.1.deleteAddresses, q.2)

/-- **An execution does not read the log it finds.** -/
theorem execute_onLog (tipHeight : ℕ) (p : Permanence) (deleteAddresses : List Address) :
    (execute H E tipHeight p env t trace ⟨s.onLog l, deleteAddresses⟩).map forgetLog =
      (execute H E tipHeight p env t trace ⟨s, deleteAddresses⟩).map forgetLog := by
  have hpro : prologue E env t ⟨s.onLog l, deleteAddresses⟩ =
      (prologue E env t ⟨s, deleteAddresses⟩).onLog l := by
    simp only [prologue, addBalance_onLog]
    rfl
  have hinit (c : EvmConfig) : executiveInitialize E env t (c.onLog l).state =
      executiveInitialize E env t c.state := rfl
  have hfail (s : SilubiumState) (d : List Address) (r : ResultExecute) :
      forgetLog (⟨((s.onLog l).handleException E tipHeight p d).reset, d⟩, r) =
        forgetLog (⟨(s.handleException E tipHeight p d).reset, d⟩, r) :=
    congrArg (fun s' : SilubiumState => (s'.reset, d, r)) (handleException_onLog s l tipHeight p d)
  unfold execute
  by_cases hv : t.version ≠ VersionVM.evmDefault
  · rw [if_pos hv, if_pos hv]
  rw [if_neg hv, if_neg hv, hpro]
  generalize prologue E env t ⟨s, deleteAddresses⟩ = c
  by_cases hcv : t.isCreation = true ∧ t.value ≠ 0
  · rw [if_pos hcv, if_pos hcv]
    exact congrArg some (hfail ..)
  rw [if_neg hcv, if_neg hcv, hinit]
  cases executiveInitialize E env t c.state with
  | some e => exact congrArg some (hfail ..)
  | none =>
    rw [runTop_onLog]
    cases runTop E env t trace c with
    | none => rfl
    | some run =>
      have hran : (run.onLog l).ran = run.ran := rfl
      have hfinal : (run.onLog l).final = run.final.onLog l := rfl
      have hst : (run.final.onLog l).state = run.final.state.onLog l := rfl
      simp only [Option.map_some, concluded_onLog, finalize_onLog, condensing_onLog, hran, hfinal,
        hst, TopRun.rollback_onLog, CondensingTX.reachedVoutLimit_onLog,
        CondensingTX.createCondensingTX_onLog, CondensingTX.createVin_onLog]
      split
      · exact congrArg some (hfail ..)
      split
      · rfl
      split
      · split
        · exact congrArg some (hfail ..)
        · rfl
      · rfl

end SilubiumState

/-! ## States told apart by their logs only -/

namespace AalState

/-- The two states differ in nothing but their change logs. -/
structure SameButLog (w w' : AalState) : Prop where
  state : w.state.cleared = w'.state.cleared
  deleteAddresses : w.deleteAddresses = w'.deleteAddresses

namespace SameButLog

variable {w w' w'' : AalState}

section

variable (h : SameButLog w w')
include h

theorem symm : SameButLog w' w := ⟨h.state.symm, h.deleteAddresses.symm⟩

theorem trans (h' : SameButLog w' w'') : SameButLog w w'' :=
  ⟨h.state.trans h'.state, h.deleteAddresses.trans h'.deleteAddresses⟩

theorem trie : w.state.trie = w'.state.trie :=
  (congrArg SilubiumState.trie h.state :)

theorem stateUTXO : w.state.stateUTXO = w'.state.stateUTXO :=
  (congrArg SilubiumState.stateUTXO h.state :)

theorem addressInUse (a : Address) :
    w.state.addressInUse a = w'.state.addressInUse a :=
  (congrArg (SilubiumState.addressInUse · a) h.state :)

/-- **Executing an output from either of them gives the same result.** -/
theorem execute {H : Hashes} {E : AalEnv} {tipHeight : ℕ} {p : Permanence} {env : EnvInfo}
    {t : SilubiumTransaction} {trace : EvmTrace} {v : AalState} {r : ResultExecute}
    (hx : SilubiumState.execute H E tipHeight p env t trace w = some (v, r)) :
    ∃ v', SilubiumState.execute H E tipHeight p env t trace w' = some (v', r) ∧
      SameButLog v v' := by
  have hmap (u : AalState) : (SilubiumState.execute H E tipHeight p env t trace u).map
      SilubiumState.forgetLog = (SilubiumState.execute H E tipHeight p env t trace
        ⟨u.state.cleared, u.deleteAddresses⟩).map SilubiumState.forgetLog :=
    SilubiumState.execute_onLog u.state.cleared u.state.changeLog tipHeight p u.deleteAddresses
  have heq := (hmap w).symm
  rw [h.state, h.deleteAddresses, ← hmap w', hx] at heq
  obtain ⟨q, hq, hforget⟩ := Option.map_eq_some_iff.1 heq
  obtain ⟨v', r'⟩ := q
  simp only [SilubiumState.forgetLog, Prod.mk.injEq] at hforget
  obtain ⟨hstate, hdel, rfl⟩ := hforget
  exact ⟨v', hq, hstate.symm, hdel.symm⟩

end

end SameButLog

end AalState

end Slucore

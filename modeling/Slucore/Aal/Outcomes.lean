import Slucore.Aal.Commit
import Slucore.Evm.CodeKept
/-!
# Aal — what an execution leaves on its way

Whichever way an execution ends (`Outcome`), along its way the code of an
account that was there is kept, and an address with an account is noted
for deletion only as the sender, as the author, or from an earlier output
(`Leaves`).
-/


namespace Slucore

namespace SilubiumState

open Executive

variable {H : Hashes} {E : AalEnv} {env : EnvInfo} {t : SilubiumTransaction} {trace : EvmTrace}
  {w w' : AalState} {run : TopRun} {a : Address} {tipHeight : ℕ} {p : Permanence}
  {r : ResultExecute} {c : EvmConfig}

/-! ## The outermost frame -/

/-- **The outermost frame keeps the code that no creation claims**, up to
its savepoint and from there on. -/
theorem runTop_guards (hsender : (c.state.account t.sender).isSome)
    (hs : (c.state.account a).isSome) (hun : Unclaimed E.toEvmEnv a c.state)
    (h : runTop E env t trace c = some run) :
    Guards a c run.start ∧ Guards a run.start run.final := by
  obtain ⟨s, hsub, hstart, my, c₁, hfirst, hrest⟩ := runTop_cases h
  have hk := subBalance_codeKept hs hsub
  have hsome : (s.account t.sender).isSome := (subBalance_codeKept hsender hsub).inUse
  have hg₀ : Guards a c run.start := by
    rw [hstart]
    refine ⟨fun x => ?_, hk.trans (incNonce_codeKept hk.inUse hsome), fun _ => .inl⟩
    rw [← subBalance_nonces hsub]
    exact incNonce_nonces x
  have hne : E.contractAddress t.sender (s.getNonce t.sender) ≠ a :=
    hun _ _ (le_of_eq (congrFun (subBalance_nonces hsub) _).symm)
  obtain ⟨he, hg, hmy, hnew⟩ : Evolves run.start c₁ ∧ Guards a run.start c₁ ∧
      (run.ran = true → (c₁.state.account my).isSome) ∧ (t.isCreation = true → my ≠ a) := by
    rcases hfirst with ⟨-, hc⟩ | ⟨hcr, rfl, hc⟩
    · obtain ⟨he, hmy⟩ := create_evolves hc
      obtain ⟨hg, hnew⟩ := create_guards hg₀.code.inUse hne hc
      exact ⟨he, hg, fun _ => hmy, fun _ => hnew⟩
    · obtain ⟨he, hmy⟩ := call_evolves hc
      exact ⟨he, call_guards hg₀.code.inUse hc, fun hran => he.stays _ (hmy hran), by simp [hcr]⟩
  refine ⟨hg₀, ?_⟩
  rcases hrest with ⟨-, rfl⟩ | ⟨hran, c₂, hbody, hclose⟩
  · exact hg
  · -- the byte code of the frame and its end
    have hb := execOps_evolves _ _ (hmy hran) hbody
    have hg₂ := execOps_guards _ _ (hmy hran) hg.code.inUse (hun.mono (hg₀.trans hg).nonces) hbody
    exact close_guards (he.trans hb) (hg.trans hg₂) hnew hclose

/-! ## What an execution leaves on the way -/

/-- What a configuration on the way has of the state the execution started
from. -/
structure Leaves (E : AalEnv) (env : EnvInfo) (t : SilubiumTransaction) (w : AalState)
    (c : EvmConfig) : Prop where
  tries : SameTries w.state c.state
  sender : t.sender ∈ c.deleteAddresses
  author : env.author ∈ c.deleteAddresses
  earlier : w.deleteAddresses ⊆ c.deleteAddresses
  kept : ∀ a, (w.state.trie.find a).isSome → Unclaimed E.toEvmEnv a w.state →
    CodeKept a w.state c.state ∧
      (a ∈ c.deleteAddresses → a = t.sender ∨ a = env.author ∨ a ∈ w.deleteAddresses)

theorem prologue_codeKept (hs : (w.state.account a).isSome) :
    CodeKept a w.state (prologue E env t w).state := by
  have hk := addBalance_codeKept (b := t.sender) (v := t.value + t.gas * t.gasPrice) hs
  exact ⟨hk.trie, hk.inUse, hk.code, hk.isAlive, hk.spared, hk.written⟩

theorem prologue_unclaimed (h : Unclaimed E.toEvmEnv a w.state) :
    Unclaimed E.toEvmEnv a (prologue E env t w).state := by
  refine h.mono fun x => le_of_eq ?_
  exact (congrFun (addBalance_nonces (s := w.state) (b := t.sender)
    (v := t.value + t.gas * t.gasPrice)) x).symm

theorem prologue_leaves : Leaves E env t w (prologue E env t w) where
  tries := prologue_sameTries
  sender := List.mem_cons_self
  author := List.mem_cons_of_mem _ List.mem_cons_self
  earlier := fun _ hx => List.mem_cons_of_mem _ (List.mem_cons_of_mem _ hx)
  kept a hs hun := by
    refine ⟨prologue_codeKept (isSome_of_trie hs), fun ha => ?_⟩
    simpa [prologue] using ha

theorem RunsFrom.guards (hn : w.state.newAddress = 0) (h : RunsFrom E env t trace w run)
    (hs : (w.state.account a).isSome) (hun : Unclaimed E.toEvmEnv a w.state) :
    Guards a (prologue E env t w) run.start ∧ Guards a run.start run.final :=
  runTop_guards (prologue_sender hn) (prologue_codeKept hs).inUse (prologue_unclaimed hun) h

/-- What the outermost frame leaves. -/
theorem RunsFrom.leaves (hn : w.state.newAddress = 0) (h : RunsFrom E env t trace w run) :
    Leaves E env t w run.final := by
  obtain ⟨hst, hent⟩ := runTop_entered (prologue_sender hn) h
  have hsub : (prologue E env t w).deleteAddresses ⊆ run.final.deleteAddresses := by
    rw [← hst.deleteAddresses]
    exact hent.evolves.deleteAddresses
  have hp : Leaves E env t w (prologue E env t w) := prologue_leaves
  refine ⟨h.final_sameTries hn, hsub hp.sender, hsub hp.author,
    fun _ hx => hsub (hp.earlier hx), fun a hs hun => ?_⟩
  obtain ⟨hg, hg'⟩ := h.guards hn (isSome_of_trie hs) hun
  obtain ⟨hk, hnoted⟩ := hp.kept a hs hun
  refine ⟨hk.trans (hg.trans hg').code, fun ha => ?_⟩
  rcases (hg.trans hg').noted a ha with hD | hnone
  · exact hnoted hD
  · rw [prologue_sameTries.trie] at hnone
    rw [hnone] at hs
    cases hs

theorem Caught.leaves (hn : w.state.newAddress = 0) (h : Caught E env t trace w c) :
    Leaves E env t w c := by
  cases h with
  | early => exact prologue_leaves
  | @late run hrun _ =>
    have hl := hrun.leaves hn
    refine ⟨⟨hl.tries.trie, hl.tries.stateUTXO, hl.tries.cacheUTXO⟩, hl.sender, hl.author,
      hl.earlier, fun a hs hun => ?_⟩
    obtain ⟨hg, hg'⟩ := hrun.guards hn (isSome_of_trie hs) hun
    exact ⟨((prologue_codeKept (isSome_of_trie hs)).trans hg.code).trans hg'.code.rollback,
      (hl.kept a hs hun).2⟩

end SilubiumState

end Slucore

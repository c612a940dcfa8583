import Slucore.Aal.OldLog
import Slucore.Aal.Solvency
/-!
# Aal — a contract transaction tried and perhaps undone

What is left when the contract outputs of a transaction were tried: the
results, if all outputs were executed, or the state at the output whose
version stopped the loop. A caller that gives the transaction up puts the
two roots back. That is enough if the coin cache was empty before, since
setting a root empties the caches, and if no output was executed before
one with another version, since that leaves addresses noted for deletion.
-/


namespace Slucore

open Option

open SilubiumState

/-- The virtual machine does not look at the change log. -/
def Vm.LogBlind (vm : Vm) : Prop :=
  ∀ w w' env t, AalState.SameButLog w w' → vm w env t = vm w' env t

/-- Between two executions, up to the coin cache. -/
structure AalState.Idle (w : AalState) : Prop where
  cache : ∀ a, w.state.cache a = none
  newAddress : w.state.newAddress = 0
  transfers : w.state.transfers = []

variable {w : AalState}

theorem SilubiumState.AtRest.idle (h : w.state.AtRest) : w.Idle :=
  ⟨h.cache, h.newAddress, h.transfers⟩

theorem AalState.Idle.atRest (h : w.Idle) (hc : ∀ a, w.state.cacheUTXO a = none) :
    w.state.AtRest :=
  ⟨h.cache, hc, h.newAddress, h.transfers⟩

/-- An execution ends between two executions, and from the fork height on
it empties the coin cache too. -/
theorem SilubiumState.execute_idle {H : Hashes} {E : AalEnv} {tipHeight : ℕ} {env : EnvInfo}
    {t : SilubiumTransaction} {trace : EvmTrace} {w' : AalState} {r : ResultExecute}
    (hw : w.Idle) (h : execute H E tipHeight .committed env t trace w = some (w', r)) :
    w'.Idle ∧ (E.nFixUTXOCacheHFHeight ≤ tipHeight → ∀ a, w'.state.cacheUTXO a = none) := by
  have hcatch (s : SilubiumState) (D : List Address) :
      (⟨(s.handleException E tipHeight .committed D).reset, D⟩ : AalState).Idle ∧
        (E.nFixUTXOCacheHFHeight ≤ tipHeight → ∀ a,
          (s.handleException E tipHeight .committed D).reset.cacheUTXO a = none) := by
    unfold handleException
    by_cases hfork : tipHeight < E.nFixUTXOCacheHFHeight ∧ Permanence.committed ≠ .reverted
    · rw [if_pos hfork]
      exact ⟨⟨fun _ => rfl, rfl, rfl⟩, fun hle => absurd hfork.1 (Nat.not_lt.2 hle)⟩
    · rw [if_neg hfork]
      exact ⟨⟨fun _ => rfl, rfl, rfl⟩, fun _ _ => rfl⟩
  cases execute_outcome hw.newAddress h with
  | caught => exact hcatch ..
  | limited => exact hcatch ..
  | excepted => exact ⟨⟨fun _ => rfl, rfl, rfl⟩, fun _ _ => rfl⟩
  | settled => exact ⟨⟨fun _ => rfl, rfl, rfl⟩, fun _ _ => rfl⟩

namespace ByteCodeExec

variable {H : Hashes} {E : AalEnv} {vm : Vm} {tipHeight : ℕ} {p : Permanence} {env : EnvInfo}
variable {txs : List SilubiumTransaction} {w w' v : AalState} {rs : List ResultExecute}

/-- `performByteCode` is `tryByteCode` where that goes through. -/
theorem performByteCode_eq :
    performByteCode H E vm tipHeight p env txs w =
      (tryByteCode H E vm tipHeight p env txs w).bind fun q => q.2.map fun rs => (q.1, rs) := by
  have hcons (r : ResultExecute) (x : Option (AalState × Option (List ResultExecute))) :
      (x.bind fun q => q.2.map fun rs => (q.1, rs)).map (fun q => (q.1, r :: q.2)) =
        (x.map fun q => (q.1, q.2.map (r :: ·))).bind fun q => q.2.map fun rs => (q.1, rs) := by
    rcases x with - | ⟨v, - | rs⟩ <;> rfl
  induction txs generalizing w with
  | nil => rfl
  | cons t txs ih =>
    unfold performByteCode tryByteCode
    split
    · rfl
    split
    · rw [ih, hcons]
    cases SilubiumState.execute H E tipHeight p env t (vm w env t) w with
    | none => rfl
    | some q =>
      simp only [bind_some]
      rw [ih, hcons]

theorem performByteCode_of_try (h : tryByteCode H E vm tipHeight p env txs w = some (v, some rs)) :
    performByteCode H E vm tipHeight p env txs w = some (v, rs) := by
  rw [performByteCode_eq, h]
  rfl

/-! ## States told apart by their logs only -/

theorem skips_sameButLog (h : w.SameButLog w') (t : SilubiumTransaction) :
    skips t w = skips t w' := by
  unfold skips
  rw [h.addressInUse]

/-- **Executing a contract transaction from either of them gives the same
results.** -/
theorem performByteCode_sameButLog (hvm : vm.LogBlind) (h : w.SameButLog w')
    (hx : performByteCode H E vm tipHeight p env txs w = some (v, rs)) :
    ∃ v', performByteCode H E vm tipHeight p env txs w' = some (v', rs) ∧ v.SameButLog v' := by
  induction txs generalizing w w' rs with
  | nil =>
    obtain ⟨⟩ := hx
    exact ⟨{ w' with deleteAddresses := [] }, rfl, h.state, rfl⟩
  | cons t txs ih =>
    unfold performByteCode at hx ⊢
    split at hx
    · cases hx
    rename_i hversion
    rw [if_neg hversion, ← skips_sameButLog h]
    split at hx
    · rename_i hskips
      obtain ⟨⟨u, rs'⟩, hu, hq⟩ := map_eq_some_iff.1 hx
      obtain ⟨⟩ := hq
      obtain ⟨v', hv', hsame⟩ := ih h hu
      exact ⟨v', by rw [if_pos hskips, hv']; rfl, hsame⟩
    · rename_i hskips
      obtain ⟨⟨u, r⟩, hu, hrest⟩ := bind_eq_some_iff.1 hx
      obtain ⟨⟨u', rs'⟩, hu', hq⟩ := map_eq_some_iff.1 hrest
      obtain ⟨⟩ := hq
      rw [hvm w w' env t h] at hu
      obtain ⟨x, hx', hxu⟩ := h.execute hu
      obtain ⟨v', hv', hsame⟩ := ih hxu hu'
      refine ⟨v', ?_, hsame⟩
      rw [if_neg hskips, hx', bind_some, hv']
      rfl

/-! ## What is left -/

/-- Whether an output is for the version the node executes. -/
def forEvm (t : SilubiumTransaction) : Bool := t.version = VersionVM.evmDefault

/-- An output is skipped, or executed. -/
def Turn (H : Hashes) (E : AalEnv) (vm : Vm) (tipHeight : ℕ) (p : Permanence) (env : EnvInfo)
    (t : SilubiumTransaction) (w u : AalState) (q : ResultExecute) : Prop :=
  (skips t w = true ∧ u = w ∧ q = skipped) ∨
    (skips t w = false ∧ SilubiumState.execute H E tipHeight p env t (vm w env t) w = some (u, q))

variable {r : Option (List ResultExecute)}

/-- What the first output of a transaction does. -/
theorem tryByteCode_cons {t : SilubiumTransaction}
    (h : tryByteCode H E vm tipHeight p env (t :: txs) w = some (v, r)) :
    (forEvm t = false ∧ v = w ∧ r = none) ∨
      (forEvm t = true ∧ ∃ u q r', Turn H E vm tipHeight p env t w u q ∧
        tryByteCode H E vm tipHeight p env txs u = some (v, r') ∧ r = r'.map (q :: ·)) := by
  unfold tryByteCode at h
  split at h
  · rename_i hversion
    obtain ⟨⟩ := h
    exact .inl ⟨decide_eq_false hversion, rfl, rfl⟩
  · rename_i hversion
    refine .inr ⟨decide_eq_true (not_not.1 hversion), ?_⟩
    split at h
    · rename_i hskips
      obtain ⟨⟨u, r'⟩, hu, hq⟩ := map_eq_some_iff.1 h
      obtain ⟨⟩ := hq
      exact ⟨w, skipped, r', .inl ⟨hskips, rfl, rfl⟩, hu, rfl⟩
    · rename_i hskips
      obtain ⟨⟨u, q⟩, hu, hrest⟩ := bind_eq_some_iff.1 h
      obtain ⟨⟨u', r'⟩, hu', hq⟩ := map_eq_some_iff.1 hrest
      obtain ⟨⟩ := hq
      exact ⟨u, q, r', .inr ⟨Bool.eq_false_iff.2 hskips, hu⟩, hu', rfl⟩

/-- What the outputs of a transaction leave, whether or not the loop over
them went through, if every execution keeps it. -/
theorem tryByteCode_induct {P : AalState → Prop} (hexec : ∀ u u' t trace q, P u →
      SilubiumState.execute H E tipHeight p env t trace u = some (u', q) → P u')
    (hclear : ∀ u, P u → P { u with deleteAddresses := [] }) (hw : P w)
    (h : tryByteCode H E vm tipHeight p env txs w = some (v, r)) : P v := by
  induction txs generalizing w r with
  | nil =>
    obtain ⟨⟩ := h
    exact hclear w hw
  | cons t txs ih =>
    obtain ⟨-, rfl, -⟩ | ⟨-, u, q, r', hturn, hu, -⟩ := tryByteCode_cons h
    · exact hw
    · obtain ⟨-, rfl, -⟩ | ⟨-, hx⟩ := hturn
      · exact ih hw hu
      · exact ih (hexec w u t _ q hw hx) hu

theorem tryByteCode_idle (hw : w.Idle)
    (h : tryByteCode H E vm tipHeight .committed env txs w = some (v, r)) : v.Idle :=
  tryByteCode_induct (fun _ _ _ _ _ hu hx => (execute_idle hu hx).1)
    (fun _ hu => ⟨hu.cache, hu.newAddress, hu.transfers⟩) hw h

/-- From the fork height on, nothing is left in the coin cache. -/
theorem tryByteCode_atRest (hw : w.state.AtRest) (htip : E.nFixUTXOCacheHFHeight ≤ tipHeight)
    (h : tryByteCode H E vm tipHeight .committed env txs w = some (v, r)) : v.state.AtRest := by
  refine tryByteCode_induct (P := fun u => u.state.AtRest) (fun u u' t trace q hu hx => ?_)
    (fun _ hu => hu) hw h
  obtain ⟨hidle, hcoins⟩ := execute_idle hu.idle hx
  exact hidle.atRest (hcoins htip)

/-- A loop that went through clears the noted addresses. -/
theorem tryByteCode_deleteAddresses
    (h : tryByteCode H E vm tipHeight p env txs w = some (v, some rs)) :
    v.deleteAddresses = [] := by
  induction txs generalizing w rs with
  | nil =>
    obtain ⟨⟩ := h
    rfl
  | cons t txs ih =>
    obtain ⟨-, -, hr⟩ | ⟨-, u, q, r', -, hu, hr⟩ := tryByteCode_cons h
    · cases hr
    · obtain ⟨rs', rfl, -⟩ := map_eq_some_iff.1 hr.symm
      exact ih hu

/-- Outputs for the right version do not stop the loop. -/
theorem tryByteCode_isSome (hall : txs.all forEvm = true)
    (h : tryByteCode H E vm tipHeight p env txs w = some (v, r)) : r.isSome = true := by
  induction txs generalizing w r with
  | nil =>
    obtain ⟨-, rfl⟩ := Prod.mk.inj (Option.some.inj h)
    rfl
  | cons t txs ih =>
    rw [List.all_cons, Bool.and_eq_true] at hall
    obtain ⟨hevm, -, -⟩ | ⟨-, u, q, r', -, hu, rfl⟩ := tryByteCode_cons h
    · rw [hall.1] at hevm
      cases hevm
    · rw [isSome_map]
      exact ih hall.2 hu

/-- Nothing is executed before an output for another version. -/
def StopsUnexecuted (txs : List SilubiumTransaction) (w : AalState) : Prop :=
  txs.all forEvm = true ∨ (txs.takeWhile forEvm).all (skips · w) = true

/-- **A loop stopped by a version leaves the state as it was,** if nothing
was executed before it. -/
theorem tryByteCode_stopped (hs : StopsUnexecuted txs w)
    (h : tryByteCode H E vm tipHeight p env txs w = some (v, none)) : v = w := by
  rcases hs with hall | hskips
  · cases tryByteCode_isSome hall h
  induction txs with
  | nil => cases h
  | cons t txs ih =>
    obtain ⟨-, rfl, -⟩ | ⟨hevm, u, q, r', hturn, hu, hr⟩ := tryByteCode_cons h
    · rfl
    rw [List.takeWhile_cons_of_pos hevm, List.all_cons, Bool.and_eq_true] at hskips
    obtain rfl := map_eq_none_iff.1 hr.symm
    obtain ⟨-, rfl, -⟩ | ⟨hexec, -⟩ := hturn
    · exact ih hu hskips.2
    · rw [hskips.1] at hexec
      cases hexec

end ByteCodeExec

end Slucore

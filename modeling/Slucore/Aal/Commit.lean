import Slucore.Aal.TopFrame
import Slucore.Aal.Netting
/-!
# Aal — what an execution commits

The end of `execute`, read off once: which accounts and coins `finalize`
and `deleteAccounts` leave, and what the two commits make of them. An
address noted for deletion and an address that committed suicide end
without an account and with a dead coin; every other address ends with
the account the outermost frame left it.
-/


namespace Slucore

namespace SilubiumState

open Executive Account

variable {s s' : SilubiumState} {p : Address → Bool} {a : Address}

/-- The value of a coin: what an alive one carries. -/
def vinValue : Option Vin → U256
  | some v => if v.alive then v.value else 0
  | none => 0

/-! ## Killing -/

theorem killAll_account :
    (s.killAll p).account a = if p a then (s.account a).map kill else s.account a := by
  unfold killAll
  simp only [account]
  split
  · cases hc : s.cache a with
    | some acc => simp
    | none => cases ht : s.trie.find a <;> simp
  · rfl

theorem killAll_vin :
    (s.killAll p).vin a =
      if p a then (s.vin a).map fun v => { v with alive := false } else s.vin a := by
  unfold killAll
  simp only [vin]
  split
  · cases hc : s.cacheUTXO a with
    | some v => simp
    | none => cases ht : s.stateUTXO.find a <;> simp
  · rfl

/-- A killed account is dirty, so killing keeps a state clean. -/
theorem killAll_clean (h : s.Clean) : (s.killAll p).Clean := by
  intro b acc hb hun
  rw [killAll_account] at hb
  split at hb
  · obtain ⟨acc₀, -, rfl⟩ := Option.map_eq_some_iff.1 hb
    cases hun
  · exact h b acc hb hun

/-- Where a killed address has an account, the cache says that it is dead. -/
theorem killAll_cache {acc : Account} (ha : p a = true)
    (h : (s.killAll p).account a = some acc) : (s.killAll p).cache a = some dead := by
  rw [killAll_account, if_pos ha] at h
  simp only [killAll, ha]
  obtain ⟨acc₀, hacc, -⟩ := Option.map_eq_some_iff.1 h
  rw [hacc]
  rfl

/-! ## Committing -/

/-- An account in the trie after the commit has the balance it had before,
and was not killed. -/
theorem commit_find {E : AalEnv} {removeEmpty : Bool} {acc' : Account} (hc : s.Clean)
    (h : (s.commit E removeEmpty).trie.find a = some acc') :
    ∃ acc, s.account a = some acc ∧ acc'.balance = acc.balance ∧
      s.cache a ≠ some dead := by
  simp only [commit] at h
  split at h
  · rename_i acc hcache
    have hacc : s.account a = some acc := by simp [account, hcache]
    refine ⟨acc, hacc, ?_⟩
    rw [hcache]
    split at h
    · split at h
      · cases h
      rename_i hdead
      obtain ⟨⟩ := h
      refine ⟨rfl, ?_⟩
      rintro ⟨⟩
      simp [dead] at hdead
    · rename_i hdirty
      have hun : acc.isUnchanged = true := by simpa [isDirty] using hdirty
      obtain ⟨acc₀, htrie, hbal⟩ := hc a acc hacc hun
      rw [htrie] at h
      obtain ⟨⟩ := h
      refine ⟨hbal, ?_⟩
      rintro ⟨⟩
      cases hun
  · rename_i hcache
    refine ⟨acc', by simp [account, hcache, h], rfl, ?_⟩
    rw [hcache]
    rintro ⟨⟩

/-- The commit of the coins keeps the value of every coin. -/
theorem vinValue_commitUTXO {E : AalEnv} :
    vinValue ((s.commitUTXO E).stateUTXO.find a) = vinValue (s.vin a) := by
  simp only [commitUTXO, vin]
  cases s.cacheUTXO a with
  | none => rfl
  | some v => cases hv : v.alive <;> simp [vinValue, hv]

/-- The coins written over those the state had. -/
theorem updateUTXO_vin {vins : Address → Option Vin} :
    (s.updateUTXO vins).vin a =
      match vins a with
      | none => s.vin a
      | some v => if (s.vin a).isSome || v.alive then some v else none := by
  unfold updateUTXO
  simp only [vin]
  obtain hv | ⟨v, hv⟩ := Option.eq_none_or_eq_some (vins a)
  · simp [hv]
  obtain hc | ⟨x, hc⟩ := Option.eq_none_or_eq_some (s.cacheUTXO a)
  · obtain ht | ⟨y, ht⟩ := Option.eq_none_or_eq_some (s.stateUTXO.find a)
    · cases ha : v.alive <;> simp [hv, hc, ht]
    · simp [hv, ht]
  · simp [hv, hc]

/-! ## The end of an execution -/

variable {env : EnvInfo} {t : SilubiumTransaction} {trace : EvmTrace} {run : TopRun}

/-- The gas handed back and the fees, for any other address. -/
structure FeesPaid (env : EnvInfo) (t : SilubiumTransaction) (s s' : SilubiumState) : Prop where
  trie : s'.trie = s.trie
  stateUTXO : s'.stateUTXO = s.stateUTXO
  cacheUTXO : s'.cacheUTXO = s.cacheUTXO
  transfers : s'.transfers = s.transfers
  account : ∀ a, a ≠ t.sender → a ≠ env.author → s'.account a = s.account a
  clean : s.Clean → s'.Clean

theorem feesPaid (v v' : U256) (hr : s.RedirectOff) :
    FeesPaid env t s (((s.addBalance t.sender v).1).addBalance env.author v').1 := by
  have hp := addBalance_paid (s := s) (a := t.sender) (v := v)
  obtain ⟨hd, hn⟩ := addBalance_home (a := t.sender) (v := v) hr
  rw [hd] at hp
  have hr' : (s.addBalance t.sender v).1.RedirectOff := by
    unfold RedirectOff
    rw [hn, hp.isSome_iff]
    exact hr.imp id .inl
  have hp' := addBalance_paid (s := (s.addBalance t.sender v).1) (a := env.author) (v := v')
  rw [(addBalance_home hr').1] at hp'
  refine ⟨hp'.undoes.1.trans hp.undoes.1, hp'.stateUTXO.trans hp.stateUTXO,
    hp'.cacheUTXO.trans hp.cacheUTXO, hp'.transfers.trans hp.transfers, fun a h₁ h₂ => ?_,
    fun hc => hp'.clean (hp.clean hc)⟩
  obtain ⟨_, -, -, hacc⟩ := hp.account
  obtain ⟨_, -, -, hacc'⟩ := hp'.account
  rw [hacc', if_neg h₂, hacc, if_neg h₁]

/-- What `finalize` and `deleteAccounts` leave. -/
structure Concludes (final : EvmConfig) (s : SilubiumState) : Prop where
  trie : s.trie = final.state.trie
  stateUTXO : s.stateUTXO = final.state.stateUTXO
  transfers : s.transfers = final.state.transfers
  survives : ∀ a acc, s.account a = some acc → s.cache a ≠ some Account.dead →
    final.state.account a = some acc ∧ a ∉ final.deleteAddresses ∧ a ∉ final.suicides
  vin : ∀ a, s.vin a =
    if a ∈ final.deleteAddresses ∨ a ∈ final.suicides then
      (final.state.vin a).map fun v => { v with alive := false }
    else final.state.vin a
  clean : final.state.Clean → s.Clean

/-- **Only accounts that were neither noted nor killed survive.** -/
theorem concluded_concludes (trace : EvmTrace) (hr : run.final.state.RedirectOff)
    (hsender : t.sender ∈ run.final.deleteAddresses)
    (hauthor : env.author ∈ run.final.deleteAddresses) :
    Concludes run.final (concluded env t trace run) := by
  unfold concluded finalize deleteAccounts
  have hf : FeesPaid env t run.final.state _ := feesPaid (gasLeftOf trace * t.gasPrice)
    ((t.gas - gasLeftOf trace) * t.gasPrice) hr
  simp only
  generalize ((run.final.state.addBalance t.sender (gasLeftOf trace * t.gasPrice)).1.addBalance
    env.author ((t.gas - gasLeftOf trace) * t.gasPrice)).1 = y at hf ⊢
  refine ⟨hf.trie, hf.stateUTXO, hf.transfers, ?_, ?_,
    fun hc => killAll_clean (killAll_clean (hf.clean hc))⟩
  · intro a acc hacc hcache
    have hnot : a ∉ run.final.deleteAddresses := fun hd =>
      hcache (killAll_cache (List.contains_iff_mem.2 hd) hacc)
    have hnot' : ¬ run.final.deleteAddresses.contains a = true :=
      fun h => hnot (List.contains_iff_mem.1 h)
    rw [killAll_account, if_neg hnot'] at hacc
    -- the cache entry is the one the suicides left
    have hcache' : (y.killAll run.final.suicides.contains).cache a ≠ some dead := by
      intro h
      refine hcache ?_
      simp only [killAll, if_neg hnot']
      simpa only [killAll] using h
    have hsui : ¬ run.final.suicides.contains a = true := fun h => hcache' (killAll_cache h hacc)
    rw [killAll_account, if_neg hsui, hf.account a] at hacc
    · exact ⟨hacc, hnot, fun h => hsui (List.contains_iff_mem.2 h)⟩
    · rintro rfl; exact hnot hsender
    · rintro rfl; exact hnot hauthor
  · intro a
    have hv : y.vin a = run.final.state.vin a := by
      simp only [SilubiumState.vin, hf.cacheUTXO, hf.stateUTXO]
    rw [killAll_vin, killAll_vin, hv]
    by_cases hd : a ∈ run.final.deleteAddresses <;> by_cases hs : a ∈ run.final.suicides <;>
      simp [hs, Function.comp_def]

/-! ## The outcomes of `execute` -/

variable {H : Hashes} {E : AalEnv} {tipHeight : ℕ} {w w' : AalState} {r : ResultExecute}

/-- The tries and the coins' cache are those of `s`. -/
structure SameTries (s s' : SilubiumState) : Prop where
  trie : s'.trie = s.trie
  stateUTXO : s'.stateUTXO = s.stateUTXO
  cacheUTXO : s'.cacheUTXO = s.cacheUTXO

theorem SameTries.trans {s'' : SilubiumState} (h : SameTries s s') (h' : SameTries s' s'') :
    SameTries s s'' :=
  ⟨h'.trie.trans h.trie, h'.stateUTXO.trans h.stateUTXO, h'.cacheUTXO.trans h.cacheUTXO⟩

theorem prologue_sameTries : SameTries w.state (prologue E env t w).state := by
  have hp := addBalance_paid (s := w.state) (a := t.sender) (v := t.value + t.gas * t.gasPrice)
  exact ⟨hp.undoes.1, hp.stateUTXO, hp.cacheUTXO⟩

/-- The outermost frame of an execution that starts from `w`. -/
def RunsFrom (E : AalEnv) (env : EnvInfo) (t : SilubiumTransaction) (trace : EvmTrace)
    (w : AalState) (run : TopRun) : Prop :=
  runTop E env t trace (prologue E env t w) = some run

/-- What is read off the frame is what is read off its evaluation. -/
theorem RunsFrom.of_map {α : Type} (f : TopRun → α) {x : α} (h : RunsFrom E env t trace w run)
    (hmap : (runTop E env t trace (prologue E env t w)).map f = some x) : f run = x :=
  Option.some.inj ((congrArg (Option.map f) h).symm.trans hmap)

theorem RunsFrom.start_sameTries (hn : w.state.newAddress = 0)
    (h : RunsFrom E env t trace w run) : SameTries w.state run.start.state := by
  obtain ⟨hst, -⟩ := runTop_entered (prologue_sender hn) h
  exact prologue_sameTries.trans ⟨hst.trie, hst.stateUTXO, hst.cacheUTXO⟩

theorem RunsFrom.final_sameTries (hn : w.state.newAddress = 0)
    (h : RunsFrom E env t trace w run) : SameTries w.state run.final.state := by
  obtain ⟨-, hent⟩ := runTop_entered (prologue_sender hn) h
  have he := hent.evolves
  exact (h.start_sameTries hn).trans ⟨he.undoes.1, he.stateUTXO, he.cacheUTXO⟩

/-- The condensing transaction finds the coin of the output first. -/
theorem RunsFrom.leads (hn : w.state.newAddress = 0) (ht : w.state.transfers = [])
    (h : RunsFrom E env t trace w run) (hcreate : t.isCreation → t.value = 0)
    (hran : run.ran = true) : (condensing env t trace run).Leads := by
  intro hv
  obtain ⟨hst, hent⟩ := runTop_entered (prologue_sender hn) h
  have hne : t.value ≠ 0 := (BitVec.pos_iff_ne_zero _).1 hv
  obtain ⟨d, us, hlead⟩ := hent.leads hran hcreate hne
  have ht₀ : run.start.state.transfers = [] := by
    rw [hst.transfers]
    exact addBalance_transfers.trans ht
  refine ⟨⟨t.sender, d, t.value⟩, us, ?_, rfl⟩
  rw [condensing_transfers, hlead, ht₀]
  rfl

/-- The condensing transaction an execution gets to compute, if it gets that
far. -/
def settlementOf (E : AalEnv) (env : EnvInfo) (t : SilubiumTransaction) (trace : EvmTrace)
    (w : AalState) : Option CondensingTX :=
  if t.isCreation ∧ t.value ≠ 0 then none
  else
    match executiveInitialize E env t (prologue E env t w).state with
    | some _ => none
    | none =>
      match runTop E env t trace (prologue E env t w) with
      | none => none
      | some run =>
        if run.ran = true ∧ exceptedOf trace.ending = .none then some (condensing env t trace run)
        else none

/-- The configuration an exception finds: that of the prologue, or that of
the outermost frame taken back. -/
inductive Caught (E : AalEnv) (env : EnvInfo) (t : SilubiumTransaction) (trace : EvmTrace)
    (w : AalState) : EvmConfig → Prop
  | early : Caught E env t trace w (prologue E env t w)
  | late {run : TopRun} (hrun : RunsFrom E env t trace w run) (hran : run.ran = false) :
      Caught E env t trace w
        { run.final with state := run.final.state.rollback run.start.state.savepoint }

theorem Caught.sameTries {c : EvmConfig} (hn : w.state.newAddress = 0)
    (h : Caught E env t trace w c) : SameTries w.state c.state := by
  cases h with
  | early => exact prologue_sameTries
  | late hrun _ =>
    have hfin := hrun.final_sameTries hn
    exact ⟨hfin.trie, hfin.stateUTXO, hfin.cacheUTXO⟩

/-- Every way an execution can end: caught before or after the outermost
frame, over the limit of outputs, dropped on request, ended by an exception
of the byte code, or settled in coins. -/
inductive Outcome (H : Hashes) (E : AalEnv) (tipHeight : ℕ) (env : EnvInfo)
    (t : SilubiumTransaction) (trace : EvmTrace) (w : AalState) :
    Permanence → AalState → ResultExecute → Prop
  | caught {p : Permanence} {c : EvmConfig} {e : TransactionException} {a : Address}
      (hc : Caught E env t trace w c) (he : e ≠ .none)
      (hnone : settlementOf E env t trace w = none) :
      Outcome H E tipHeight env t trace w p
        ⟨(c.state.handleException E tipHeight p c.deleteAddresses).reset, c.deleteAddresses⟩
        ⟨e, t.gas, a, none⟩
  | limited {run : TopRun} (hrun : RunsFrom E env t trace w run)
      (hsome : settlementOf E env t trace w = some (condensing env t trace run))
      (hlimit : (condensing env t trace run).reachedVoutLimit = true) :
      Outcome H E tipHeight env t trace w .committed
        ⟨(((concluded env t trace run).rollback run.start.state.savepoint).handleException E
          tipHeight .committed run.final.deleteAddresses).reset, run.final.deleteAddresses⟩
        ⟨.none, t.gas, 0, voutLimitRefund t⟩
  | dropped {run : TopRun} {r : ResultExecute} {s : SilubiumState}
      (hrun : RunsFrom E env t trace w run) (hs : s.trie = w.state.trie)
      (hu : s.stateUTXO = w.state.stateUTXO) :
      Outcome H E tipHeight env t trace w .reverted
        ⟨s.dropCaches.reset, run.final.deleteAddresses⟩ r
  | excepted {run : TopRun} {a : Address} (hrun : RunsFrom E env t trace w run)
      (hinit : executiveInitialize E env t (prologue E env t w).state = none)
      (hcreate : t.isCreation → t.value = 0)
      (hran : run.ran = true) (hend : exceptedOf trace.ending ≠ .none)
      (hnone : settlementOf E env t trace w = none) :
      Outcome H E tipHeight env t trace w .committed
        ⟨(((concluded env t trace run).commitUTXO E).commit E
          (decide (E.eip158ForkBlock ≤ env.number))).reset, run.final.deleteAddresses⟩
        ⟨exceptedOf trace.ending, t.gas - gasLeftOf trace, a, none⟩
  | settled {run : TopRun} {a : Address} (hrun : RunsFrom E env t trace w run)
      (hinit : executiveInitialize E env t (prologue E env t w).state = none)
      (hcreate : t.isCreation → t.value = 0)
      (hran : run.ran = true) (hend : exceptedOf trace.ending = .none)
      (hsome : settlementOf E env t trace w = some (condensing env t trace run))
      (hlimit : (condensing env t trace run).reachedVoutLimit = false) :
      Outcome H E tipHeight env t trace w .committed
        ⟨((((concluded env t trace run).updateUTXO ((condensing env t trace run).createVin
            (nullableHash H ((condensing env t trace run).createCondensingTX)))).commitUTXO
              E).commit E (decide (E.eip158ForkBlock ≤ env.number))).reset,
          run.final.deleteAddresses⟩
        ⟨.none, t.gas - gasLeftOf trace, a, (condensing env t trace run).createCondensingTX⟩

theorem executiveInitialize_ne_none {s : SilubiumState} {e : TransactionException}
    (h : executiveInitialize E env t s = some e) : e ≠ .none := by
  unfold executiveInitialize at h
  split_ifs at h <;> cases h <;> decide

/-- `finalize` touches no trie. -/
theorem finalize_tries {s : SilubiumState} {gasLeft : U256} {suicides : List Address} :
    (finalize env t gasLeft suicides s).trie = s.trie ∧
      (finalize env t gasLeft suicides s).stateUTXO = s.stateUTXO := by
  have h : ∀ (s : SilubiumState) a v, (s.addBalance a v).1.trie = s.trie ∧
      (s.addBalance a v).1.stateUTXO = s.stateUTXO := fun s a v =>
    ⟨addBalance_paid.undoes.1, addBalance_paid.stateUTXO⟩
  simp [finalize, killAll, h]

/-- Neither does `deleteAccounts`. -/
theorem concluded_tries :
    (concluded env t trace run).trie = run.final.state.trie ∧
      (concluded env t trace run).stateUTXO = run.final.state.stateUTXO := by
  simp [concluded, deleteAccounts, killAll, finalize_tries]

/-- **`execute` ends in one of these ways**, with either permanence. -/
theorem execute_outcome {p : Permanence} (hn : w.state.newAddress = 0)
    (h : execute H E tipHeight p env t trace w = some (w', r)) :
    Outcome H E tipHeight env t trace w p w' r := by
  unfold execute at h
  split at h
  · cases h
  simp only at h
  split at h
  · rename_i hvalue
    obtain ⟨⟩ := h
    exact .caught .early (by simp) (if_pos hvalue)
  rename_i hvalue
  have hcreate : t.isCreation → t.value = 0 := fun hc => by
    by_contra hv
    exact hvalue ⟨hc, hv⟩
  split at h
  · rename_i e he
    obtain ⟨⟩ := h
    refine .caught .early (executiveInitialize_ne_none he) ?_
    rw [settlementOf, if_neg hvalue, he]
  rename_i hinit
  split at h
  · cases h
  rename_i run hrun
  have hfin := RunsFrom.final_sameTries hn hrun
  have hsettle : settlementOf E env t trace w =
      if run.ran = true ∧ exceptedOf trace.ending = .none then some (condensing env t trace run)
      else none := by
    rw [settlementOf, if_neg hvalue, hinit, hrun]
  split at h
  · rename_i hran
    obtain ⟨⟩ := h
    rw [Bool.not_eq_true'] at hran
    refine .caught (.late hrun hran) (by simp) ?_
    rw [hsettle, hran, if_neg fun h => Bool.false_ne_true h.1]
  rename_i hran
  rw [Bool.not_eq_true, Bool.not_eq_false'] at hran
  split at h
  · rename_i hp
    subst hp
    obtain ⟨⟩ := h
    exact .dropped hrun (finalize_tries.1.trans hfin.trie) (finalize_tries.2.trans hfin.stateUTXO)
  rename_i hp
  obtain rfl : p = .committed := by cases p <;> simp_all
  split at h
  · rename_i hend
    rw [if_pos ⟨hran, hend⟩] at hsettle
    split at h
    · rename_i hlimit
      obtain ⟨⟩ := h
      exact .limited hrun hsettle hlimit
    · rename_i hlimit
      obtain ⟨⟩ := h
      rw [hend]
      exact .settled hrun hinit hcreate hran hend hsettle (Bool.eq_false_iff.2 hlimit)
  · rename_i hend
    rw [if_neg fun h => hend h.2] at hsettle
    obtain ⟨⟩ := h
    exact .excepted hrun hinit hcreate hran hend hsettle

end SilubiumState

end Slucore

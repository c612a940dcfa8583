import Slucore.Aal.Spending
/-!
# Aal — balances and coins

Between two executions every account should have exactly the balance its
coin carries (`Backed`). The balances follow the executive, the coins
follow the netted list of transfers; they stay together through every
execution that is `Settleable`, and so through every run of such
executions. One undone call is enough to part them.
-/


namespace Slucore

open Option CondensingTX BitVec

namespace SilubiumState

open Executive

variable {H : Hashes} {E : AalEnv} {env : EnvInfo} {t : SilubiumTransaction} {trace : EvmTrace}
  {w w' : AalState} {run : TopRun} {a : Address} {tipHeight : ℕ} {r : ResultExecute}

/-- The state between two executions. -/
structure AtRest (s : SilubiumState) : Prop where
  cache : ∀ a, s.cache a = none
  cacheUTXO : ∀ a, s.cacheUTXO a = none
  newAddress : s.newAddress = 0
  transfers : s.transfers = []

/-- Every account has the balance its coin carries. -/
def Backed (s : SilubiumState) : Prop :=
  ∀ a acc, s.trie.find a = some acc → acc.balance = vinValue (s.stateUTXO.find a)

/-- The trie of coins holds no dead one. -/
def CoinsAlive (s : SilubiumState) : Prop :=
  ∀ a v, s.stateUTXO.find a = some v → v.alive = true

/-- The invariant between two executions. -/
structure Sound (s : SilubiumState) : Prop where
  rest : s.AtRest
  backed : s.Backed
  alive : s.CoinsAlive

variable {s : SilubiumState}

theorem AtRest.account_eq (h : s.AtRest) : s.account a = s.trie.find a := by
  simp [account, h.cache a]

theorem AtRest.clean (h : s.AtRest) : s.Clean := by
  intro b acc hb _
  rw [h.account_eq] at hb
  exact ⟨acc, hb, rfl⟩

/-- A backed account has the balance of its coin, and one that is not
there has none. -/
theorem Sound.balance_eq (h : s.Sound) (hs : (s.trie.find a).isSome) :
    s.balance a = vinValue (s.stateUTXO.find a) := by
  obtain ⟨acc, hacc⟩ := isSome_iff_exists.1 hs
  rw [balance_of_account (h.rest.account_eq.trans hacc)]
  exact h.backed a acc hacc

theorem AtRest.balance_eq_zero (h : s.AtRest)
    (hs : ¬ (s.trie.find a).isSome) : s.balance a = 0 := by
  refine balance_of_none ?_
  rw [h.account_eq]
  simpa using hs

/-! ## The outermost frame, seen from the state at rest -/

/-- What the outermost frame did to the state it started from. -/
structure Ran (E : AalEnv) (env : EnvInfo) (t : SilubiumTransaction) (w : AalState)
    (final : EvmConfig) : Prop where
  tries : SameTries w.state final.state
  settles : ∀ a, Settles (w.state.balance a + if a = t.sender then t.value else 0)
    (final.state.balance a) (inflow final.state.transfers a) (outflow final.state.transfers a)
    (inflow final.undone a) (outflow final.undone a)
  arrives : ∀ a, (final.state.account a).isSome →
    (w.state.trie.find a).isSome ∨ a ∈ final.deleteAddresses ∨ a ∈ final.opened ∨
      (t.isCreation = true ∧ a = E.createSilubiumAddress t.hashWith t.nVout)
  sender : t.sender ∈ final.deleteAddresses
  author : env.author ∈ final.deleteAddresses
  clean : final.state.Clean

theorem prologue_paid (h : w.state.newAddress = 0) :
    Paid w.state (w.state.addBalance t.sender (t.value + t.gas * t.gasPrice)).1 t.sender
      (t.value + t.gas * t.gasPrice) := by
  have hp := addBalance_paid (s := w.state) (a := t.sender) (v := t.value + t.gas * t.gasPrice)
  rwa [(addBalance_home (.inl h)).1] at hp

theorem prologue_account (E : AalEnv) (env : EnvInfo) :
    (prologue E env t w).state.account a =
      (w.state.addBalance t.sender (t.value + t.gas * t.gasPrice)).1.account a := rfl

/-- The sender starts with the value of the output on top of its balance:
the gas is given and taken. -/
theorem start_balance (hrest : w.state.AtRest)
    (hst : Started t (prologue E env t w) run.start) (a : Address) :
    run.start.state.balance a =
      w.state.balance a + if a = t.sender then t.value else 0 := by
  have hp := (prologue_paid (t := t) hrest.newAddress).balance_eq a
  have hb : (prologue E env t w).state.balance a =
      w.state.balance a + if a = t.sender then t.value + t.gas * t.gasPrice else 0 := hp
  rw [hst.balance, hb]
  split
  · rw [← add_assoc, add_sub_cancel]
  · simp

/-- **What the outermost frame does, from a state at rest.** -/
theorem RunsFrom.ran (hrest : w.state.AtRest) (h : RunsFrom E env t trace w run) :
    Ran E env t w run.final := by
  obtain ⟨hst, hent⟩ := runTop_entered (prologue_sender hrest.newAddress) h
  have hev := hent.evolves
  have hD : t.sender ∈ run.final.deleteAddresses ∧ env.author ∈ run.final.deleteAddresses := by
    have hsub := hev.deleteAddresses
    rw [hst.deleteAddresses] at hsub
    exact ⟨hsub List.mem_cons_self, hsub (List.mem_cons_of_mem _ List.mem_cons_self)⟩
  have hp := prologue_paid (t := t) hrest.newAddress
  refine ⟨h.final_sameTries hrest.newAddress, fun a => ?_, fun a ha => ?_, hD.1, hD.2, ?_⟩
  · have hset := runTop_settles hrest.newAddress hrest.transfers h a
    rwa [start_balance hrest hst] at hset
  · rcases hev.arrives a ha with hs | hd | ho | ⟨hn, h0⟩
    · -- it was there at the savepoint: in the trie, or as the sender
      rw [hst.isSome, prologue_account, hp.isSome_iff, hrest.account_eq] at hs
      rcases hs with hs | rfl
      · exact .inl hs
      · exact .inr (.inl hD.1)
    · exact .inr (.inl hd)
    · exact .inr (.inr (.inl ho))
    · refine .inr (.inr (.inr ?_))
      rw [hst.newAddress] at hn
      simp only [prologue] at hn
      split at hn
      · exact ⟨‹_›, hn⟩
      · exact absurd hn h0
  · exact hev.clean (hst.clean (hp.clean hrest.clean))

/-! ## One execution -/

/-- A creation happens at an address that is new to accounts and coins. -/
def FreshCreation (E : AalEnv) (t : SilubiumTransaction) (w : AalState) : Prop :=
  t.isCreation = true →
    w.state.trie.find (E.contractAddress t.sender t.nonce) = none ∧
      E.contractAddress t.sender t.nonce ≠ t.sender ∧
      w.state.stateUTXO.find (E.createSilubiumAddress t.hashWith t.nVout) = none

/-- The execution can be settled in coins: undone frames moved nothing on
balance, amounts fit, accounts were opened only where no coin is left,
and an address noted for deletion that had an account before did not
spend from it. -/
structure Settleable (t : SilubiumTransaction) (w : AalState) (final : EvmConfig) : Prop where
  undone : ∀ a, inflow final.undone a = outflow final.undone a
  fits : ∀ a, (w.state.balance a).toNat + t.value.toNat +
    (vinValue (w.state.stateUTXO.find a)).toNat + inflow final.state.transfers a < 2 ^ 256
  free : ∀ a ∈ final.opened, w.state.stateUTXO.find a = none
  noted : ∀ a ∈ final.deleteAddresses, (w.state.trie.find a).isSome →
    outflow final.state.transfers a ≤
      (if a = t.sender then t.value.toNat else 0) + inflow final.state.transfers a

variable {removeEmpty : Bool}

/-- Committing a state whose living accounts have the balances of their
coins. -/
theorem commit_sound (hclean : s.Clean) (halive : s.CoinsAlive)
    (h : ∀ a acc, s.account a = some acc → s.cache a ≠ some Account.dead →
      acc.balance = vinValue (s.vin a)) :
    ((s.commitUTXO E).commit E removeEmpty).reset.Sound := by
  refine ⟨⟨fun _ => rfl, fun _ => rfl, rfl, rfl⟩, ?_, ?_⟩
  · intro a acc' ha
    -- the commit of the coins changes no account
    have hacc : ((s.commitUTXO E).commit E removeEmpty).trie.find a = some acc' := ha
    obtain ⟨acc, hacc, hbal, hdead⟩ := commit_find (s := s.commitUTXO E) hclean hacc
    rw [hbal, h a acc hacc hdead]
    exact vinValue_commitUTXO.symm
  · intro a v hv
    have hv' : (s.commitUTXO E).stateUTXO.find a = some v := hv
    simp only [commitUTXO] at hv'
    split at hv'
    · split at hv'
      · obtain ⟨⟩ := hv'
        assumption
      · cases hv'
    · exact halive a v hv'

/-- No redirection is pending when the fees are paid. -/
theorem RunsFrom.redirectOff (hrest : w.state.AtRest) (h : RunsFrom E env t trace w run)
    (hinit : executiveInitialize E env t (prologue E env t w).state = none)
    (hcreate : t.isCreation → t.value = 0) (hran : run.ran = true) (hfresh : FreshCreation E t w) :
    run.final.state.RedirectOff := by
  obtain ⟨hst, hent⟩ := runTop_entered (prologue_sender hrest.newAddress) h
  have hnonce : t.nonce = (prologue E env t w).state.getNonce t.sender := by
    unfold executiveInitialize at hinit
    split_ifs at hinit with h₁ h₂ h₃ h₄
    exact not_not.1 h₃
  rw [← hnonce] at hent
  refine hent.redirectOff hran (fun hc => ?_) fun hc => ⟨hcreate hc, ?_⟩
  · rw [hst.newAddress]
    exact if_neg hc
  obtain ⟨htrie, hne, -⟩ := hfresh hc
  have hp := (prologue_paid (t := t) hrest.newAddress).isSome_iff
    (E.contractAddress t.sender t.nonce)
  rw [hrest.account_eq, htrie, ← prologue_account E env, ← hst.isSome] at hp
  simpa [hne] using hp

section

variable (hw : w.state.Sound)
include hw

/-- **An exception of the byte code keeps the invariant.** -/
theorem excepted_sound (hrun : RunsFrom E env t trace w run)
    (hoff : run.final.state.RedirectOff) (hran : run.ran = true)
    (hend : exceptedOf trace.ending ≠ .none) :
    (((concluded env t trace run).commitUTXO E).commit E removeEmpty).reset.Sound := by
  have hr := hrun.ran hw.rest
  have hc := concluded_concludes trace hoff hr.sender hr.author
  refine commit_sound (hc.clean hr.clean) ?_ ?_
  · unfold CoinsAlive
    rw [hc.stateUTXO, hr.tries.stateUTXO]
    exact hw.alive
  · intro a acc hacc hdead
    obtain ⟨hfin, hD, hsui⟩ := hc.survives a acc hacc hdead
    obtain ⟨hst, hent⟩ := runTop_entered (prologue_sender hw.rest.newAddress) hrun
    have hbelow := hent.thrown hran hend a
    have hne : a ≠ t.sender := by
      rintro rfl
      exact hD hr.sender
    -- the account was there before, with the balance it has now
    have hsome : (w.state.trie.find a).isSome := by
      have hs := hbelow.isSome_iff.1 (by rw [hfin]; rfl)
      rw [hst.isSome, prologue_account, (prologue_paid hw.rest.newAddress).isSome_iff,
        hw.rest.account_eq] at hs
      exact hs.resolve_right hne
    have hbal : acc.balance = w.state.balance a := by
      have hg := hbelow.getD.balance
      rw [hfin] at hg
      have hstart := start_balance hw.rest hst a
      rw [if_neg hne] at hstart
      exact hg.trans (hstart.trans (add_zero _))
    rw [hbal, hw.balance_eq hsome, hc.vin, if_neg (by simp [hD, hsui])]
    simp [vin, hr.tries.cacheUTXO, hr.tries.stateUTXO, hw.rest.cacheUTXO]

/-! ## Settling in coins -/

/-- The coins the condensing transaction looks at. -/
theorem condensing_vin (hr : Ran E env t w run.final)
    (hc : Concludes run.final (concluded env t trace run)) (a : Address) :
    (condensing env t trace run).state.vin a =
      if a ∈ run.final.deleteAddresses ∨ a ∈ run.final.suicides then
        (w.state.stateUTXO.find a).map fun v => { v with alive := false }
      else w.state.stateUTXO.find a := by
  have hv : run.final.state.vin a = w.state.stateUTXO.find a := by
    simp [vin, hr.tries.cacheUTXO, hr.tries.stateUTXO, hw.rest.cacheUTXO]
  rw [← hv]
  exact hc.vin a

/-- The sender pays from the output. -/
theorem available_sender (hr : Ran E env t w run.final)
    (hc : Concludes run.final (concluded env t trace run)) :
    (condensing env t trace run).available t.sender = t.value := by
  unfold available selected
  by_cases hv : 0 < t.value
  · rw [if_pos ⟨rfl, hv⟩]
    rfl
  rw [if_neg fun h => hv h.2, condensing_vin hw hr hc, if_pos (.inl hr.sender)]
  have hzero : t.value = 0 := BitVec.le_zero_iff.1 (BitVec.not_lt.1 hv)
  cases w.state.stateUTXO.find t.sender with
  | none => exact hzero.symm
  | some v => simp [spendable, checkDeleteAddress, condensing, hr.sender, hzero]

/-- Anyone else noted for deletion has nothing to pay from. -/
theorem available_noted (hr : Ran E env t w run.final)
    (hc : Concludes run.final (concluded env t trace run)) (ha : a ∈ run.final.deleteAddresses)
    (hne : a ≠ t.sender) : (condensing env t trace run).available a = 0 := by
  unfold available selected
  rw [if_neg fun h => hne h.1, condensing_vin hw hr hc, if_pos (.inl ha)]
  cases w.state.stateUTXO.find a with
  | none => rfl
  | some v => simp [spendable, checkDeleteAddress, condensing, ha]

/-- Everyone else pays from its coin, suicides included. -/
theorem available_other (hr : Ran E env t w run.final)
    (hc : Concludes run.final (concluded env t trace run)) (ha : a ∉ run.final.deleteAddresses) :
    (condensing env t trace run).available a = vinValue (w.state.stateUTXO.find a) := by
  have hne : a ≠ t.sender := by
    rintro rfl
    exact ha hr.sender
  unfold available selected
  rw [if_neg fun h => hne h.1, condensing_vin hw hr hc]
  have hspend : ∀ v, (condensing env t trace run).spendable a v = true := fun v => by
    simp [spendable, checkDeleteAddress, condensing, ha]
  cases hv : w.state.stateUTXO.find a with
  | none =>
    rw [map_none, ite_self]
    rfl
  | some v =>
    have hal := hw.alive a v hv
    rw [map_some, ← apply_ite some]
    simp only [hspend, if_true, vinValue]
    split <;> rfl

end

/-- The books of one address, when the execution can be settled. -/
theorem Settleable.exact (h : Settleable t w run.final) (hr : Ran E env t w run.final)
    (a : Address) :
    (run.final.state.balance a).toNat + outflow run.final.state.transfers a =
      (w.state.balance a + if a = t.sender then t.value else 0).toNat +
        inflow run.final.state.transfers a := by
  have hb : (w.state.balance a + if a = t.sender then t.value else 0).toNat ≤
      (w.state.balance a).toNat + t.value.toNat := by
    refine (Nat.mod_le _ _).trans ?_
    split
    · exact le_rfl
    · simp
  have hu := h.undone a
  have hf := h.fits a
  have he := (hr.settles a).exact (by omega)
  omega

/-- **A settleable execution is covered by its coins.** -/
theorem Settleable.covered (h : Settleable t w run.final) (hw : w.state.Sound)
    (hr : Ran E env t w run.final) (hc : Concludes run.final (concluded env t trace run)) :
    (condensing env t trace run).Covered := by
  intro a _
  have he := h.exact hr a
  have hf := h.fits a
  -- everything but the sender's own account starts from its coin, or from nothing
  have hle : outflow run.final.state.transfers a ≤
      ((condensing env t trace run).available a).toNat + inflow run.final.state.transfers a ∧
      ((condensing env t trace run).available a).toNat ≤
        t.value.toNat + (vinValue (w.state.stateUTXO.find a)).toNat := by
    by_cases hs : a = t.sender
    · rw [hs, available_sender hw hr hc]
      rw [hs, if_pos rfl] at he
      refine ⟨?_, Nat.le_add_right _ _⟩
      by_cases htrie : (w.state.trie.find t.sender).isSome
      · have := h.noted t.sender hr.sender htrie
        rwa [if_pos rfl] at this
      · rw [hw.rest.balance_eq_zero htrie, zero_add] at he
        omega
    · rw [if_neg hs, add_zero] at he
      by_cases hD : a ∈ run.final.deleteAddresses
      · rw [available_noted hw hr hc hD hs]
        refine ⟨?_, Nat.zero_le _⟩
        by_cases htrie : (w.state.trie.find a).isSome
        · have := h.noted a hD htrie
          rwa [if_neg hs] at this
        · rw [hw.rest.balance_eq_zero htrie] at he
          omega
      · rw [available_other hw hr hc hD]
        refine ⟨?_, Nat.le_add_left _ _⟩
        by_cases htrie : (w.state.trie.find a).isSome
        · rw [hw.balance_eq htrie] at he
          omega
        · rw [hw.rest.balance_eq_zero htrie, show (0 : U256).toNat = 0 from rfl] at he
          omega
  rw [le_def, toNat_add, condensing_transfers]
  simp only [flows, toNat_ofNat]
  rw [Nat.mod_eq_of_lt (b := 2 ^ 256) (a := outflow run.final.state.transfers a) (by omega),
    Nat.mod_eq_of_lt (b := 2 ^ 256) (a := inflow run.final.state.transfers a) (by omega),
    Nat.mod_eq_of_lt (by omega)]
  exact hle.1

/-- The value of the coin an address ends with: its netted balance if it
took part, and what it was otherwise. -/
theorem vinValue_updateUTXO (ctx : CondensingTX) (txid : UInt256) (hlead : ctx.Leads)
    (hcov : ctx.Covered) (hne : a ≠ ctx.transaction.sender) :
    vinValue ((ctx.state.updateUTXO (ctx.createVin txid)).vin a) =
      if a ∈ parties ctx.transfers then ctx.netted a else vinValue (ctx.state.vin a) := by
  have hok := (createNewBalances_snd hlead).2 hcov
  have hget := createNewBalances_fst hlead hok a
  rw [updateUTXO_vin, createVin, if_neg hne, Std.TreeMap.get?_eq_getElem?, hget]
  by_cases hp : a ∈ parties ctx.transfers
  · simp only [if_pos hp, map_some]
    by_cases hb : 0 < ctx.netted a
    · simp only [if_pos hb, Bool.or_true, if_true, vinValue]
    · have hzero : ctx.netted a = 0 := BitVec.le_zero_iff.1 (BitVec.not_lt.1 hb)
      rw [if_neg hb, hzero]
      split <;> rfl
  · simp [if_neg hp]

/-- **A settleable execution keeps the invariant.** -/
theorem settled_sound (hw : w.state.Sound) (hrun : RunsFrom E env t trace w run)
    (hoff : run.final.state.RedirectOff) (hfresh : FreshCreation E t w)
    (hset : Settleable t w run.final) (hcreate : t.isCreation → t.value = 0)
    (hran : run.ran = true) {txid : UInt256} :
    ((((concluded env t trace run).updateUTXO ((condensing env t trace run).createVin txid)).commitUTXO
      E).commit E removeEmpty).reset.Sound := by
  have hr := hrun.ran hw.rest
  have hc := concluded_concludes trace hoff hr.sender hr.author
  refine commit_sound (hc.clean hr.clean) ?_ ?_
  · unfold CoinsAlive
    have hutxo : ((concluded env t trace run).updateUTXO
        ((condensing env t trace run).createVin txid)).stateUTXO = w.state.stateUTXO :=
      hc.stateUTXO.trans hr.tries.stateUTXO
    rw [hutxo]
    exact hw.alive
  · intro a acc hacc hdead
    obtain ⟨hfin, hD, hsui⟩ := hc.survives a acc hacc hdead
    have hne : a ≠ t.sender := by
      rintro rfl
      exact hD hr.sender
    have hbal : acc.balance = run.final.state.balance a := (balance_of_account hfin).symm
    have hcoin := vinValue_updateUTXO (a := a) (condensing env t trace run) txid
      (hrun.leads hw.rest.newAddress hw.rest.transfers hcreate hran) (hset.covered hw hr hc) hne
    have hstart : w.state.balance a = vinValue (w.state.stateUTXO.find a) := by
      by_cases htrie : (w.state.trie.find a).isSome
      · exact hw.balance_eq htrie
      -- an account that is new was opened where no coin was left
      have hnone : w.state.stateUTXO.find a = none := by
        rcases hr.arrives a (by rw [hfin]; rfl) with h | h | h | ⟨hcr, h⟩
        · exact absurd h htrie
        · exact absurd h hD
        · exact hset.free a h
        · rw [h]
          exact (hfresh hcr).2.2
      rw [hw.rest.balance_eq_zero htrie, hnone]
      rfl
    have he := hset.exact hr a
    rw [if_neg hne] at he
    refine hbal.trans (Eq.trans ?_ hcoin.symm)
    rw [condensing_transfers]
    split
    · -- a party: the netted balance is the balance
      rw [netted, available_other hw hr hc hD, ← hstart]
      refine (sub_eq_iff_eq_add.2 ?_).symm
      refine eq_of_toNat_eq ?_
      simp [flows, he]
    · -- no party: nothing moved
      rename_i hp
      rw [inflow_eq_zero hp, outflow_eq_zero hp] at he
      rw [condensing_vin hw hr hc, if_neg (by simp [hD, hsui]), ← hstart]
      exact eq_of_toNat_eq (by simpa using he)

/-! ## Runs of executions -/

/-- What one execution must satisfy: a creation is fresh, and an execution
the byte code does not throw out of can be settled. -/
def StepSettles (E : AalEnv) (env : EnvInfo) (t : SilubiumTransaction) (trace : EvmTrace)
    (w : AalState) : Prop :=
  FreshCreation E t w ∧ ∀ run, RunsFrom E env t trace w run → exceptedOf trace.ending = .none →
    Settleable t w run.final

/-- **One committed execution keeps the invariant.** -/
theorem execute_sound (hw : w.state.Sound) (htip : E.nFixUTXOCacheHFHeight ≤ tipHeight)
    (hstep : StepSettles E env t trace w)
    (h : execute H E tipHeight .committed env t trace w = some (w', r)) : w'.state.Sound := by
  obtain ⟨hfresh, hset⟩ := hstep
  -- an exception that `execute` catches drops the caches and nothing else
  have hdrop : ∀ (s : SilubiumState) (D : List Address), s.trie = w.state.trie →
      s.stateUTXO = w.state.stateUTXO →
      (s.handleException E tipHeight .committed D).reset.Sound := by
    intro s D ht hu
    unfold handleException
    rw [if_neg fun h => absurd h.1 (Nat.not_lt.2 htip)]
    refine ⟨⟨fun _ => rfl, fun _ => rfl, rfl, rfl⟩, ?_, ?_⟩
    · intro a acc ha
      have := hw.backed a acc (ht ▸ ha)
      rwa [← hu] at this
    · intro a v hv
      exact hw.alive a v (hu ▸ hv)
  cases execute_outcome hw.rest.newAddress h with
  | caught hc =>
    have hs := hc.sameTries hw.rest.newAddress
    exact hdrop _ _ hs.trie hs.stateUTXO
  | limited hrun =>
    have hs := hrun.final_sameTries hw.rest.newAddress
    exact hdrop _ _ (concluded_tries.1.trans hs.trie) (concluded_tries.2.trans hs.stateUTXO)
  | excepted hrun hinit hcreate hran hend _ =>
    exact excepted_sound hw hrun (hrun.redirectOff hw.rest hinit hcreate hran hfresh) hran hend
  | settled hrun hinit hcreate hran hend _ _ =>
    exact settled_sound hw hrun (hrun.redirectOff hw.rest hinit hcreate hran hfresh) hfresh
      (hset _ hrun hend) hcreate hran

/-- The state of a node that has executed nothing. -/
def empty : SilubiumState where
  trie := ⟨0, fun _ => none⟩
  cache _ := none
  changeLog := []
  newAddress := 0
  transfers := []
  stateUTXO := ⟨0, fun _ => none⟩
  cacheUTXO _ := none

/-- The states reached from the empty one by committed executions at or
above the fork height, each of them satisfying `P`; in between the noted
addresses may be cleared. -/
inductive Reachable (H : Hashes) (E : AalEnv)
    (P : EnvInfo → SilubiumTransaction → EvmTrace → AalState → Prop) : AalState → Prop
  | empty : Reachable H E P ⟨empty, []⟩
  | execute {w w' : AalState} {tipHeight : ℕ} {env : EnvInfo} {t : SilubiumTransaction}
      {trace : EvmTrace} {r : ResultExecute} (hw : Reachable H E P w)
      (htip : E.nFixUTXOCacheHFHeight ≤ tipHeight) (hP : P env t trace w)
      (h : execute H E tipHeight .committed env t trace w = some (w', r)) : Reachable H E P w'
  | clear {w : AalState} (hw : Reachable H E P w) : Reachable H E P ⟨w.state, []⟩

theorem Reachable.sound (h : Reachable H E (StepSettles E) w) : w.state.Sound := by
  induction h with
  | empty =>
    refine ⟨⟨fun _ => rfl, fun _ => rfl, rfl, rfl⟩, ?_, ?_⟩
    · intro a acc ha
      cases ha
    · intro a v hv
      cases hv
  | execute _ htip hP h ih => exact execute_sound ih htip hP h
  | clear _ ih => exact ih

/-- Every contract has the balance its coin carries. -/
def Solvent (s : SilubiumState) : Prop :=
  ∀ a acc, s.trie.find a = some acc → acc.code ≠ [] →
    acc.balance = vinValue (s.stateUTXO.find a)

/-- **Contract solvency.** In every run whose executions can be settled,
every contract has the balance its coin carries, in every state reached. -/
theorem solvent_of_settles (h : Reachable H E (StepSettles E) w) : w.state.Solvent :=
  fun a acc ha _ => h.sound.backed a acc ha

/-- Executions one after the other, the noted addresses cleared after each. -/
def executeAll (H : Hashes) (E : AalEnv) (tipHeight : ℕ) :
    List (EnvInfo × SilubiumTransaction × EvmTrace) → AalState → Option AalState
  | [], w => some w
  | (env, t, trace) :: rest, w =>
    (execute H E tipHeight .committed env t trace w).bind fun p =>
      executeAll H E tipHeight rest ⟨p.1.state, []⟩

theorem executeAll_reachable (htip : E.nFixUTXOCacheHFHeight ≤ tipHeight)
    {steps : List (EnvInfo × SilubiumTransaction × EvmTrace)}
    (hw : Reachable H E (fun _ _ _ _ => True) w) (h : executeAll H E tipHeight steps w = some w') :
    Reachable H E (fun _ _ _ _ => True) w' := by
  induction steps generalizing w with
  | nil => exact Option.some.inj h ▸ hw
  | cons step rest ih =>
    simp only [executeAll, bind_eq_some_iff, Prod.exists] at h
    obtain ⟨w₁, r, h₁, h⟩ := h
    exact ih (.clear (.execute hw htip trivial h₁)) h

/-! ## The way coins and balances part -/

/-- Transaction `h` creates a contract, whose address is `100 * h`. -/
def sampleCreate (h : UInt256) : SilubiumTransaction where
  sender := 1
  receiveAddress := 0
  isCreation := true
  value := 0
  gas := 100000
  gasPrice := 10
  nonce := 0
  data := [1]
  hashWith := h
  nVout := 0
  version := VersionVM.evmDefault

/-- The initialisation code does nothing and returns the code. -/
def sampleInit : EvmTrace := ⟨false, [], .ret [7], 40000⟩

/-- Two contracts are created, and then the first is called with 10, of
which it sends 4 to the second in a call that is undone. -/
def partingSteps : List (EnvInfo × SilubiumTransaction × EvmTrace) :=
  [(sampleInfo, sampleCreate 3, sampleInit), (sampleInfo, sampleCreate 4, sampleInit),
    (sampleInfo, sampleCall 300 0 10, undoneCall)]

theorem partingSteps_run :
    (executeAll sampleHashes sampleEnv 0 partingSteps ⟨empty, []⟩).isSome := by
  decide +kernel

/-- **An undone call parts coins and balances:** the first contract has a
balance of 10 and a coin of 6. -/
theorem not_solvent_of_undone_call :
    ¬ ∀ (H : Hashes) (E : AalEnv) (w : AalState), Reachable H E (fun _ _ _ _ => True) w →
      w.state.Solvent := by
  intro h
  have hsol := h _ _ _ (executeAll_reachable (Nat.zero_le _) .empty
    (some_get partingSteps_run).symm)
  have hfind : (((executeAll sampleHashes sampleEnv 0 partingSteps ⟨empty, []⟩).get
      partingSteps_run).state.trie.find 300).map (fun acc => (acc.balance, acc.code)) =
        some (10, [7]) := by
    decide +kernel
  obtain ⟨acc, hacc, heq⟩ := map_eq_some_iff.1 hfind
  obtain ⟨hbal, hcode⟩ := Prod.mk.inj heq
  have hcoin := hsol 300 acc hacc (by simp [hcode])
  rw [hbal] at hcoin
  revert hcoin
  decide +kernel

theorem sampleCreate_runs :
    (execute sampleHashes sampleEnv 0 .committed sampleInfo (sampleCreate 3) sampleInit
      ⟨empty, []⟩).isSome := by
  decide

/-- Creating a contract on an empty node can be settled. -/
theorem sampleCreate_settles :
    StepSettles sampleEnv sampleInfo (sampleCreate 3) sampleInit ⟨empty, []⟩ := by
  refine ⟨fun _ => ⟨rfl, by decide, rfl⟩, fun run hrun _ => ?_⟩
  obtain ⟨hu, ht⟩ := Prod.mk.inj (RunsFrom.of_map
    (fun run => (run.final.undone, run.final.state.transfers)) (x := ([], [])) hrun
      (by decide))
  refine ⟨fun a => by rw [hu]; rfl, fun a => ?_, fun a _ => rfl, fun a _ h => by cases h⟩
  rw [ht]
  exact Nat.two_pow_pos 256

/-- The node after the creation. -/
def createdWorld : AalState :=
  ⟨((execute sampleHashes sampleEnv 0 .committed sampleInfo (sampleCreate 3) sampleInit
    ⟨empty, []⟩).get sampleCreate_runs).1.state, []⟩

theorem createdWorld_reachable :
    Reachable sampleHashes sampleEnv (StepSettles sampleEnv) createdWorld :=
  .clear (.execute .empty (Nat.zero_le 0) sampleCreate_settles (some_get sampleCreate_runs).symm)

/-- Nobody has money there. -/
theorem createdWorld_unfunded (a : Address) : createdWorld.state.balance a = 0 ∧
    vinValue (createdWorld.state.stateUTXO.find a) = 0 := by
  have hcoins : createdWorld.state.Coins fun _ _ => False := by
    show ((execute sampleHashes sampleEnv 0 .committed sampleInfo (sampleCreate 3) sampleInit
      ⟨empty, []⟩).get sampleCreate_runs).1.state.Coins _
    refine execute_coins rfl ⟨fun _ _ h => (by cases h), fun _ _ h => (by cases h)⟩ ?_
      (some_get sampleCreate_runs).symm
    intro ctx hctx _ _ a v hv
    have htransfers : (settlementOf sampleEnv sampleInfo (sampleCreate 3) sampleInit
        ⟨empty, []⟩).map CondensingTX.transfers = some [] := by
      decide
    rw [hctx] at htransfers
    have hnone : ctx.createNewBalances.1[a]? = none := by
      refine CondensingTX.getElem?_createNewBalances_none fun h => ?_
      rw [show ctx.transfers = [] from Option.some.inj htransfers] at h
      cases h.1
    unfold CondensingTX.createVin at hv
    split at hv
    · cases hv
    · rw [Std.TreeMap.get?_eq_getElem?, hnone] at hv
      cases hv
  have hvin : vinValue (createdWorld.state.stateUTXO.find a) = 0 := by
    cases hfind : createdWorld.state.stateUTXO.find a with
    | none => rfl
    | some v =>
      have hzero : ¬ 0 < v.value := hcoins.stored a v hfind
      have hle := BitVec.le_zero_iff.1 (BitVec.not_lt.1 hzero)
      simp [vinValue, hle]
  refine ⟨?_, hvin⟩
  by_cases htrie : (createdWorld.state.trie.find a).isSome
  · rw [createdWorld_reachable.sound.balance_eq htrie, hvin]
  · exact createdWorld_reachable.sound.rest.balance_eq_zero htrie

theorem paidCall_runs : (execute sampleHashes sampleEnv 0 .committed sampleInfo
    (sampleCall 300 0 10) ByteCodeExec.keeping createdWorld).isSome := by
  rfl

/-- A call that pays the contract 10 can be settled. -/
theorem paidCall_settles :
    StepSettles sampleEnv sampleInfo (sampleCall 300 0 10) ByteCodeExec.keeping createdWorld := by
  refine ⟨nofun, fun run hrun _ => ?_⟩
  obtain ⟨hu, hrest⟩ := Prod.mk.inj (RunsFrom.of_map
    (fun run => (run.final.undone, run.final.state.transfers, run.final.opened))
    (x := ([], [⟨1, 300, 10⟩], [])) hrun rfl)
  obtain ⟨ht, ho⟩ := Prod.mk.inj hrest
  refine ⟨fun a => by rw [hu]; rfl, fun a => ?_, fun a ha => ?_, fun a _ _ => ?_⟩
  · obtain ⟨hbalance, hvin⟩ := createdWorld_unfunded a
    rw [hbalance, hvin, ht]
    simp only [inflow, keyedSum_cons, keyedSum_nil]
    split <;> decide
  · rw [ho] at ha
    cases ha
  · rw [ht]
    simp only [inflow, outflow, keyedSum_cons, keyedSum_nil, sampleCall, eq_comm (a := a)]
    split <;> split <;> decide

/-- A contract that was created and then paid 10 has a balance and a coin
of 10. -/
theorem solvent_after_paidCall :
    ∃ w, Reachable sampleHashes sampleEnv (StepSettles sampleEnv) w ∧
      (w.state.trie.find 300).map Account.balance = some 10 ∧
      (w.state.stateUTXO.find 300).map Vin.value = some 10 ∧ w.state.Solvent := by
  have hreach := Reachable.execute createdWorld_reachable (Nat.zero_le 0) paidCall_settles
    (some_get paidCall_runs).symm
  exact ⟨_, hreach, by decide +kernel, by decide, solvent_of_settles hreach⟩

end SilubiumState

end Slucore

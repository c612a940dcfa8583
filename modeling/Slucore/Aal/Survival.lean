import Slucore.Aal.Outcomes
import Slucore.Aal.Attempt
import Slucore.Aal.Spending
/-!
# Aal — which contracts survive an execution

After an execution every address noted for deletion loses its account and
its coin. The note is meant for addresses that were only paid, but sender
and author are noted as well, whatever they are: where one of them is a
contract, the contract is gone. And the coin of a contract goes where the
transfers that were noted leave it nothing, though some of them may have
been undone. Otherwise every account with code that did not destroy itself
is still there after each execution of a list of outputs
(`contracts_survive`), alive, with its code, with its storage as it was or
as the byte code left it, and with a living coin if it had one.
-/


namespace Slucore

open Option

namespace SilubiumState

open Executive

variable {H : Hashes} {E : AalEnv} {env : EnvInfo} {t : SilubiumTransaction} {trace : EvmTrace}
  {w w' : AalState} {run : TopRun} {a b : Address} {tipHeight : ℕ} {p : Permanence}
  {r : ResultExecute} {s s' : SilubiumState} {v : U256}

/-! ## What is done elsewhere -/

/-- A payment to someone else. -/
theorem addBalance_cache (hs : (s.account a).isSome) (hne : a ≠ b) :
    (s.addBalance b v).1.cache a = s.cache a := by
  rcases addBalance_cases s b v with ⟨acc, -, h⟩ | ⟨d, n, hd, -, -, h⟩ <;> rw [h]
  · exact Function.update_of_ne hne _ _
  · refine Function.update_of_ne ?_ _ _
    rintro rfl
    rw [hd] at hs
    cases hs

variable {q : Address → Bool}

theorem killAll_codeKept (hs : (s.account a).isSome) (hq : q a = false) :
    CodeKept a s (s.killAll q) := by
  have hc : (s.killAll q).cache a = s.cache a := by simp [killAll, hq]
  have hacc : (s.killAll q).account a = s.account a := by
    simp only [SilubiumState.account, hc]
    rfl
  refine ⟨rfl, hacc ▸ hs, by rw [entry, hacc, entry], by rw [entry, hacc, entry],
    ⟨[], rfl, by simp⟩, fun _ hw => ?_⟩
  unfold WrittenAt
  rw [hc]
  exact hw

/-- What `finalize` and `deleteAccounts` leave of an account that is not to
go. -/
theorem concluded_elsewhere (trace : EvmTrace) (hs : (run.final.state.account a).isSome)
    (hsender : a ≠ t.sender) (hauthor : a ≠ env.author) (hD : a ∉ run.final.deleteAddresses)
    (hsui : a ∉ run.final.suicides) :
    (concluded env t trace run).cache a = run.final.state.cache a ∧
      CodeKept a run.final.state (concluded env t trace run) ∧
      UndoesAt a run.final.state (concluded env t trace run) := by
  have hk₁ := addBalance_codeKept (b := t.sender) (v := gasLeftOf trace * t.gasPrice) hs
  have hc₁ := addBalance_cache (v := gasLeftOf trace * t.gasPrice) hs hsender
  have hu₁ := (addBalance_undoes (s := run.final.state) (a := t.sender)
    (v := gasLeftOf trace * t.gasPrice)).undoesAt (a := a)
  have hk₂ := hk₁.trans (addBalance_codeKept (b := env.author)
    (v := (t.gas - gasLeftOf trace) * t.gasPrice) hk₁.inUse)
  have hc₂ := (addBalance_cache (v := (t.gas - gasLeftOf trace) * t.gasPrice) hk₁.inUse
    hauthor).trans hc₁
  have hu₂ := hu₁.trans ((addBalance_undoes (a := env.author)
    (v := (t.gas - gasLeftOf trace) * t.gasPrice)).undoesAt (a := a))
  have hq : run.final.suicides.contains a = false := by simpa using hsui
  have hq' : run.final.deleteAddresses.contains a = false := by simpa using hD
  have hk₃ := hk₂.trans (killAll_codeKept (q := run.final.suicides.contains) hk₂.inUse hq)
  have hk₄ := hk₃.trans (killAll_codeKept (q := run.final.deleteAddresses.contains) hk₃.inUse hq')
  have hc₄ : (concluded env t trace run).cache a = run.final.state.cache a := by
    rw [← hc₂]
    simp [concluded, finalize, deleteAccounts, killAll, hsui, hD]
  refine ⟨hc₄, hk₄, hu₂.trans (undoesAt_of_cache rfl rfl ?_)⟩
  rw [hc₂]
  exact hc₄

/-- The coins `finalize` and `deleteAccounts` leave. -/
theorem concluded_cacheUTXO (hD : a ∉ run.final.deleteAddresses)
    (hsui : a ∉ run.final.suicides) :
    (concluded env t trace run).cacheUTXO a = run.final.state.cacheUTXO a := by
  have h : ∀ (s : SilubiumState) b v, (s.addBalance b v).1.cacheUTXO = s.cacheUTXO :=
    fun s b v => addBalance_paid.cacheUTXO
  simp [concluded, finalize, deleteAccounts, killAll, hsui, hD, h]

theorem addBalance_elsewhere (hd : (s.addBalance b v).2 = b) (hne : a ≠ b) :
    (s.addBalance b v).1.account a = s.account a := by
  obtain ⟨_, -, -, hacc⟩ := (addBalance_paid (s := s) (a := b) (v := v)).account
  rw [hacc, hd, if_neg hne]

/-- The money for the output goes to the sender. -/
theorem prologue_elsewhere (hn : w.state.newAddress = 0) (hsender : a ≠ t.sender) :
    (prologue E env t w).state.account a = w.state.account a :=
  addBalance_elsewhere (addBalance_home (.inl hn)).1 hsender

/-- The outermost savepoint finds every account but the sender's as it was. -/
theorem RunsFrom.start_account (hn : w.state.newAddress = 0) (h : RunsFrom E env t trace w run)
    (hsender : a ≠ t.sender) : run.start.state.account a = w.state.account a := by
  obtain ⟨s, hsub, hst, -⟩ := runTop_cases h
  have hsubacc : s.account a = w.state.account a := by
    rw [← show (prologue E env t w).state.account a = w.state.account a from
      prologue_elsewhere hn hsender]
    rcases subBalance_cases hsub with ⟨-, rfl⟩ | ⟨-, hsome, rfl⟩
    · rfl
    · exact addBalance_elsewhere (addBalance_snd_of_isSome hsome).1 hsender
  rw [hst, ← hsubacc]
  unfold incNonce
  split
  · rw [account_write, if_neg hsender]
  · rw [createAccount, account_write, if_neg hsender]

/-! ## What a commit keeps -/

/-- **A commit keeps an account with code that is alive and was written
where it was changed.** -/
theorem commit_keeps (removeEmpty : Bool) (hs : (s.account a).isSome) (hcode : HasCode a s)
    (halive : (s.entry a).isAlive = true) (hw : WrittenAt a s) :
    ∃ acc, (s.commit E removeEmpty).trie.find a = some acc ∧ acc.isAlive = true ∧
      acc.code = (s.entry a).code ∧ acc.storage = (s.entry a).storage := by
  cases hc : s.cache a with
  | some acc =>
    have hentry : s.entry a = acc := entry_of_account (by simp [SilubiumState.account, hc])
    have hdirty : acc.isDirty = true := by simp [Account.isDirty, hw acc hc]
    have hlive : acc.isAlive = true := hentry ▸ halive
    have hempty : acc.isEmpty = false := by
      have hne : acc.code ≠ [] := hentry ▸ hcode
      simp [Account.isEmpty, hne]
    refine ⟨stored acc, ?_, hlive, ?_, ?_⟩
    · simp [commit, hc, hdirty, hlive, hempty]
    · rw [hentry]
      rfl
    · rw [hentry]
      rfl
  | none =>
    obtain ⟨acc, hacc⟩ := isSome_iff_exists.1 hs
    have hentry : s.entry a = acc := entry_of_account hacc
    refine ⟨acc, ?_, hentry ▸ halive, by rw [hentry], by rw [hentry]⟩
    simpa [commit, hc, SilubiumState.account] using hacc

/-- A living coin is committed. -/
theorem commitUTXO_keeps {x : Vin} (h : s.vin a = some x) (hx : x.alive = true) :
    (s.commitUTXO E).stateUTXO.find a = some x := by
  simp only [vin] at h
  cases hc : s.cacheUTXO a with
  | none =>
    simpa [commitUTXO, hc] using h
  | some y =>
    rw [hc] at h
    obtain ⟨⟩ := h
    simp [commitUTXO, hc, hx]

/-! ## One execution -/

/-- The byte code of the output destroys the contract at `a`. -/
def SelfDestructs (E : AalEnv) (env : EnvInfo) (t : SilubiumTransaction) (trace : EvmTrace)
    (w : AalState) (a : Address) : Prop :=
  ∃ run, RunsFrom E env t trace w run ∧ a ∈ run.final.suicides

/-- The transfers that are noted for the output, those of undone calls among
them, leave the contract at `a` something of its coin if it takes part in
any. -/
def LeavesCoin (E : AalEnv) (env : EnvInfo) (t : SilubiumTransaction) (trace : EvmTrace)
    (w : AalState) (a : Address) : Prop :=
  ∀ run x, RunsFrom E env t trace w run → exceptedOf trace.ending = .none →
    w.state.vin a = some x → x.alive = true →
    a ∈ parties run.final.state.transfers →
      x.value + (CondensingTX.flows run.final.state.transfers a).1 ≠
        (CondensingTX.flows run.final.state.transfers a).2

/-- The contract at `a` is still there: alive, with its code, with its
storage as it was or as the byte code left it, and with a living coin if
it had one. -/
structure Survives (E : AalEnv) (env : EnvInfo) (t : SilubiumTransaction) (trace : EvmTrace)
    (w w' : AalState) (a : Address) : Prop where
  account : ∃ acc, w'.state.account a = some acc ∧ acc.isAlive = true ∧
    acc.code = (w.state.entry a).code ∧
    (acc.storage = (w.state.entry a).storage ∨
      ∃ run, RunsFrom E env t trace w run ∧ acc.storage = (run.final.state.entry a).storage)
  coin : ∀ x, w.state.vin a = some x → x.alive = true →
    ∃ y, w'.state.vin a = some y ∧ y.alive = true

/-- The coins that are cached between two executions are dead. -/
def CachedDead (s : SilubiumState) : Prop := ∀ a x, s.cacheUTXO a = some x → x.alive = false

theorem CachedDead.stored (h : s.CachedDead) {x : Vin} (hv : s.vin a = some x)
    (hx : x.alive = true) : s.stateUTXO.find a = some x := by
  simp only [vin] at hv
  cases hc : s.cacheUTXO a with
  | none =>
    rw [hc] at hv
    exact hv
  | some y =>
    rw [hc] at hv
    obtain rfl := Option.some.inj hv
    rw [h a y hc] at hx
    cases hx

/-- What is asked of the state before the execution, for the contract at
`a`. -/
structure Stands (E : AalEnv) (w : AalState) (a : Address) : Prop where
  idle : w.Idle
  cached : w.state.CachedDead
  hasCode : HasCode a w.state
  isAlive : (w.state.entry a).isAlive = true
  unclaimed : Unclaimed E.toEvmEnv a w.state

theorem Stands.inUse (h : Stands E w a) : (w.state.account a).isSome := by
  cases hacc : w.state.account a with
  | some acc => rfl
  | none =>
    refine absurd ?_ h.hasCode
    rw [entry, hacc]
    rfl

theorem Stands.inTrie (h : Stands E w a) : (w.state.trie.find a).isSome := by
  have hs := h.inUse
  simpa [SilubiumState.account, h.idle.cache a] using hs

theorem Stands.written (h : Stands E w a) : WrittenAt a w.state := by
  intro x hx
  rw [h.idle.cache a] at hx
  cases hx

variable {D : List Address}

section

variable (hst : Stands E w a) (ht : s.trie = w.state.trie) (hu : s.stateUTXO = w.state.stateUTXO)
include hst ht hu

/-- Where the caches are dropped, everything is as it was. -/
theorem survives_dropCaches :
    Survives E env t trace w ⟨s.dropCaches.reset, D⟩ a := by
  refine ⟨⟨w.state.entry a, ?_, hst.isAlive, rfl, .inl rfl⟩, fun x hx hal => ⟨x, ?_, hal⟩⟩
  · have hfind : s.dropCaches.reset.account a = w.state.account a := by
      simp [SilubiumState.account, dropCaches, reset, ht, hst.idle.cache a]
    obtain ⟨acc, hacc⟩ := isSome_iff_exists.1 hst.inUse
    rw [hfind, entry_of_account hacc, hacc]
  · have hfind : s.dropCaches.reset.vin a = w.state.stateUTXO.find a := by
      simp [vin, dropCaches, reset, hu]
    rw [hfind]
    exact hst.cached.stored hx hal

/-- An exception that is handled where the contract is as it was. -/
theorem survives_handleException
    (hc : s.cacheUTXO a = w.state.cacheUTXO a) (hk : CodeKept a w.state s)
    (hstorage : (s.entry a).storage = (w.state.entry a).storage) (hD : a ∉ D) :
    Survives E env t trace w ⟨(s.handleException E tipHeight p D).reset, D⟩ a := by
  unfold handleException
  split
  · -- before the fork height: the deletions are committed
    have hq : D.contains a = false := by simpa using hD
    have hk' := hk.trans (killAll_codeKept (q := D.contains) hk.inUse hq)
    obtain ⟨acc, hfind, hlive, hcode, hst'⟩ := commit_keeps (E := E) true hk'.inUse
      (hk'.hasCode.2 hst.hasCode) (hk'.isAlive.trans hst.isAlive) (hk'.written hst.hasCode hst.written)
    have hentry : (s.killAll D.contains).entry a = s.entry a := by
      rw [entry, killAll_account, hq, if_neg Bool.false_ne_true, entry]
    refine ⟨⟨acc, ?_, hlive, hcode.trans hk'.code, .inl ?_⟩, fun x hx hal => ⟨x, ?_, hal⟩⟩
    · exact hfind
    · rw [hst', hentry, hstorage]
    · rw [← hx]
      simp only [vin, reset, commit, deleteAccounts, killAll, hq, Bool.false_eq_true, if_false, hc,
        hu]
  · -- from the fork height on: the caches are dropped
    exact survives_dropCaches hst ht hu

end

variable {removeEmpty : Bool}

/-- What a commit makes of a state in which the byte code has run. -/
theorem survives_commit (hst : Stands E w a)
    (hrun : RunsFrom E env t trace w run) (hcache : s.cache = (concluded env t trace run).cache)
    (htrie : s.trie = (concluded env t trace run).trie)
    (hk : CodeKept a w.state (concluded env t trace run))
    (hentry : (concluded env t trace run).entry a = run.final.state.entry a)
    (hcoin : ∀ x, w.state.vin a = some x → x.alive = true →
      ∃ y, s.vin a = some y ∧ y.alive = true) :
    Survives E env t trace w ⟨((s.commitUTXO E).commit E removeEmpty).reset, D⟩ a := by
  have hacc : (s.commitUTXO E).account = (concluded env t trace run).account := by
    funext x
    simp [SilubiumState.account, commitUTXO, hcache, htrie]
  have hent : (s.commitUTXO E).entry a = (concluded env t trace run).entry a := by
    rw [entry, hacc, entry]
  obtain ⟨acc, hfind, hlive, hcode, hstorage⟩ := commit_keeps (s := s.commitUTXO E) (E := E)
    (a := a) removeEmpty (by rw [hacc]; exact hk.inUse)
    (by rw [HasCode, hent]; exact hk.hasCode.2 hst.hasCode)
    (by rw [hent]; exact hk.isAlive.trans hst.isAlive)
    (by
      have hw := hk.written hst.hasCode hst.written
      rwa [WrittenAt, ← hcache] at hw)
  refine ⟨⟨acc, hfind, hlive, ?_, .inr ⟨run, hrun, ?_⟩⟩, fun x hx hal => ?_⟩
  · rw [hcode, hent]
    exact hk.code
  · rw [hstorage, hent, hentry]
  · obtain ⟨y, hy, hyal⟩ := hcoin x hx hal
    exact ⟨y, commitUTXO_keeps hy hyal, hyal⟩

/-- A balance that is entered for a contract which keeps something is not
zero. -/
theorem LeavesCoin.entered_ne_zero {x : Vin} {b : U256} (hleaves : LeavesCoin E env t trace w a)
    (hrun : RunsFrom E env t trace w run) (hend : exceptedOf trace.ending = .none)
    (hsender : a ≠ t.sender) (hvin : (concluded env t trace run).vin a = w.state.vin a)
    (hx : w.state.vin a = some x) (hal : x.alive = true)
    (hb : (condensing env t trace run).createNewBalances.1[a]? = some b) : b ≠ 0 := by
  by_cases hentered : a ∈ parties (condensing env t trace run).transfers ∧
      (condensing env t trace run).Entered a
  · have hpicked : (condensing env t trace run).picked a = some x := by
      rw [CondensingTX.picked, if_neg (fun h => hsender h.1)]
      exact hvin.trans hx
    have hstart : (condensing env t trace run).start a = x.value := by
      simp [CondensingTX.start, hpicked, CondensingTX.spendable, hal]
    rw [CondensingTX.getElem?_createNewBalances hentered.1 hentered.2, CondensingTX.left, hstart,
      condensing_transfers, Option.some.injEq] at hb
    rw [condensing_transfers] at hentered
    rw [← hb, Ne, BitVec.sub_eq_iff_eq_add, show ∀ y : U256, 0 + y = y from BitVec.zero_add]
    exact hleaves run x hrun hend hx hal hentered.1
  · rw [CondensingTX.getElem?_createNewBalances_none hentered] at hb
    cases hb

/-- **A contract survives an execution** of an output that is not sent by
it, in a block that does not pay it, if it was not noted by an earlier
output, does not destroy itself and is left something of its coin. -/
theorem execute_survives (hst : Stands E w a) (hsender : a ≠ t.sender) (hauthor : a ≠ env.author)
    (hD : a ∉ w.deleteAddresses) (hno : ¬ SelfDestructs E env t trace w a)
    (hleaves : LeavesCoin E env t trace w a)
    (h : execute H E tipHeight p env t trace w = some (w', r)) :
    Survives E env t trace w w' a := by
  have hn := hst.idle.newAddress
  have hin := hst.inTrie
  -- no configuration on the way has the contract noted
  have hnoted : ∀ {c : EvmConfig}, Leaves E env t w c → a ∉ c.deleteAddresses := by
    intro c hl ha
    rcases (hl.kept a hin hst.unclaimed).2 ha with h | h | h
    · exact hsender h
    · exact hauthor h
    · exact hD h
  -- nor does concluding a run change it
  have hconc : ∀ {run : TopRun}, RunsFrom E env t trace w run →
      CodeKept a w.state (concluded env t trace run) ∧
      (concluded env t trace run).entry a = run.final.state.entry a ∧
      (concluded env t trace run).vin a = w.state.vin a := by
    intro run hrun
    have hl := hrun.leaves hn
    have hsui : a ∉ run.final.suicides := fun hs => hno ⟨run, hrun, hs⟩
    have hkept := (hl.kept a hin hst.unclaimed).1
    obtain ⟨hc, hk, -⟩ := concluded_elsewhere trace hkept.inUse hsender hauthor (hnoted hl) hsui
    refine ⟨hkept.trans hk, ?_, ?_⟩
    · simp [entry, SilubiumState.account, hc, concluded_tries.1]
    · simp [vin, concluded_cacheUTXO (hnoted hl) hsui, concluded_tries.2,
        congrFun hl.tries.cacheUTXO a, hl.tries.stateUTXO]
  cases execute_outcome hn h with
  | caught hc =>
    have hl := hc.leaves hn
    refine survives_handleException hst hl.tries.trie hl.tries.stateUTXO
      (congrFun hl.tries.cacheUTXO a) (hl.kept a hin hst.unclaimed).1 ?_ (hnoted hl)
    cases hc with
    | early =>
      rw [entry, prologue_elsewhere hn hsender, entry]
    | @late run hrun _ =>
      obtain ⟨-, hent⟩ := runTop_entered (prologue_sender hn) hrun
      have hb := (hent.evolves.undoes.rollback.2.2 a).getD.storage
      rwa [hrun.start_account hn hsender] at hb
  | @limited run hrun =>
    have hl := hrun.leaves hn
    have hsui : a ∉ run.final.suicides := fun hs => hno ⟨run, hrun, hs⟩
    obtain ⟨hg, hg'⟩ := hrun.guards hn hst.inUse hst.unclaimed
    obtain ⟨-, hk, hu⟩ := concluded_elsewhere trace hg'.code.inUse hsender hauthor (hnoted hl) hsui
    have hstart : CodeKept a w.state run.start.state := (prologue_codeKept hst.inUse).trans hg.code
    obtain ⟨-, hent⟩ := runTop_entered (prologue_sender hn) hrun
    have hback := ((hent.evolves.undoes.undoesAt (a := a)).trans hu).rollback.getD.storage
    rw [hrun.start_account hn hsender] at hback
    refine survives_handleException hst (concluded_tries.1.trans hl.tries.trie)
      (concluded_tries.2.trans hl.tries.stateUTXO) ?_
      (hstart.trans (hg'.code.trans hk).rollback) hback (hnoted hl)
    exact (concluded_cacheUTXO (hnoted hl) hsui).trans (congrFun hl.tries.cacheUTXO a)
  | dropped _ ht hu => exact survives_dropCaches hst ht hu
  | @excepted _ _ hrun =>
    obtain ⟨hk, hentry, hvin⟩ := hconc hrun
    exact survives_commit hst hrun rfl rfl hk hentry fun x hx hal => ⟨x, hvin.trans hx, hal⟩
  | @settled run _ hrun _ _ _ hend _ _ =>
    obtain ⟨hk, hentry, hvin⟩ := hconc hrun
    refine survives_commit hst hrun rfl rfl hk hentry fun x hx hal => ?_
    rw [updateUTXO_vin, hvin, hx]
    unfold CondensingTX.createVin
    rw [if_neg (show a ≠ (condensing env t trace run).transaction.sender from hsender),
      Std.TreeMap.get?_eq_getElem?]
    cases hb : (condensing env t trace run).createNewBalances.1[a]? with
    | none => exact ⟨x, rfl, hal⟩
    | some b =>
      have hne : b ≠ 0 := hleaves.entered_ne_zero hrun hend hsender hvin hx hal hb
      have hpos : 0 < b := BitVec.not_le.1 fun hle => hne (BitVec.le_zero_iff.1 hle)
      simp only [map_some, if_pos hpos]
      exact ⟨_, rfl, rfl⟩

/-! ## Between two executions -/

/-- Between two executions: nothing is cached but dead coins, the accounts
stored are alive, and no address noted for deletion has code. -/
structure Quiet (w : AalState) : Prop where
  idle : w.Idle
  cached : w.state.CachedDead
  isAlive : ∀ a acc, w.state.trie.find a = some acc → acc.isAlive = true
  noted : ∀ a ∈ w.deleteAddresses, ¬ HasCode a w.state

theorem account_of_idle (h : w.Idle) (a : Address) :
    w.state.account a = w.state.trie.find a := by
  simp [SilubiumState.account, h.cache a]

theorem Quiet.stands (hw : Quiet w) (hcode : HasCode a w.state)
    (hun : Unclaimed E.toEvmEnv a w.state) : Stands E w a := by
  refine ⟨hw.idle, hw.cached, hcode, ?_, hun⟩
  cases hacc : w.state.account a with
  | none =>
    refine absurd ?_ hcode
    rw [entry, hacc]
    rfl
  | some acc =>
    rw [entry_of_account hacc]
    exact hw.isAlive a acc (account_of_idle hw.idle a ▸ hacc)

/-- A killed account is not committed. -/
theorem killAll_commit (hq : q a = true)
    (hc : s'.cache = (s.killAll q).cache) (ht : s'.trie = s.trie) :
    (s'.commit E removeEmpty).trie.find a = none := by
  simp only [commit, hc, ht, killAll, hq]
  cases hacc : s.account a with
  | some acc => rfl
  | none => exact (or_eq_none_iff.1 hacc).2

/-- Only living accounts are committed. -/
theorem commit_isAlive {acc : Account}
    (hlive : ∀ a acc, s.trie.find a = some acc → acc.isAlive = true)
    (h : (s.commit E removeEmpty).trie.find a = some acc) : acc.isAlive = true := by
  simp only [commit] at h
  cases hc : s.cache a with
  | none =>
    rw [hc] at h
    exact hlive a acc h
  | some x =>
    rw [hc] at h
    simp only at h
    split at h
    · split at h
      · cases h
      rename_i hx
      obtain ⟨⟩ := h
      cases hal : x.isAlive with
      | true => exact hal
      | false => exact absurd (by simp [hal]) hx
    · exact hlive a acc h

theorem CachedDead.killAll (h : s.CachedDead) (q : Address → Bool) : (s.killAll q).CachedDead := by
  intro a x hx
  simp only [SilubiumState.killAll] at hx
  split at hx
  · obtain ⟨v, -, rfl⟩ := map_eq_some_iff.1 hx
    rfl
  · exact h a x hx

section

variable (hw : Quiet w) (ht : s.trie = w.state.trie)
include hw ht

theorem quiet_dropCaches (hD : ∀ a ∈ D, ¬ HasCode a w.state) : Quiet ⟨s.dropCaches.reset, D⟩ where
  idle := ⟨fun _ => rfl, rfl, rfl⟩
  cached := fun _ _ hx => by cases hx
  isAlive := fun a acc hacc => hw.isAlive a acc (ht ▸ hacc)
  noted := fun a ha => by
    have hfind : s.dropCaches.reset.account a = w.state.account a := by
      simp [SilubiumState.account, dropCaches, reset, ht, hw.idle.cache a]
    rw [HasCode, entry, hfind]
    exact hD a ha

theorem quiet_commit (hc : s'.cache = (s.deleteAccounts D).cache)
    (ht' : s'.trie = s.trie) (hdead : s'.CachedDead) :
    Quiet ⟨(s'.commit E removeEmpty).reset, D⟩ where
  idle := ⟨fun _ => rfl, rfl, rfl⟩
  cached := hdead
  isAlive := fun a acc hacc => commit_isAlive (by rw [ht', ht]; exact hw.isAlive) hacc
  noted := fun a ha => by
    have hfind : ((s'.commit E removeEmpty).reset).account a = none :=
      killAll_commit (List.contains_iff_mem.2 ha) hc ht'
    rw [HasCode, entry, hfind]
    exact not_not.2 rfl

theorem quiet_handleException (hdead : s.CachedDead) (hD : ∀ a ∈ D, ¬ HasCode a w.state) :
    Quiet ⟨(s.handleException E tipHeight p D).reset, D⟩ := by
  unfold handleException
  split
  · exact quiet_commit hw ht rfl rfl (hdead.killAll _)
  · exact quiet_dropCaches hw ht hD

end

/-- **An execution leaves the state quiet** where neither the sender nor the
author has code: no contract is ever noted. -/
theorem execute_quiet (hw : Quiet w)
    (hfresh : ∀ a, HasCode a w.state → Unclaimed E.toEvmEnv a w.state)
    (hsender : ¬ HasCode t.sender w.state) (hauthor : ¬ HasCode env.author w.state)
    (h : execute H E tipHeight p env t trace w = some (w', r)) : Quiet w' := by
  have hn := hw.idle.newAddress
  have hnoted : ∀ {c : EvmConfig}, Leaves E env t w c → ∀ a ∈ c.deleteAddresses,
      ¬ HasCode a w.state := by
    intro c hl a ha hcode
    have hst := hw.stands hcode (hfresh a hcode)
    rcases (hl.kept a hst.inTrie hst.unclaimed).2 ha with rfl | rfl | hD
    · exact hsender hcode
    · exact hauthor hcode
    · exact hw.noted a hD hcode
  have hdead : ∀ {c : EvmConfig}, Leaves E env t w c → c.state.CachedDead := by
    intro c hl a x hx
    rw [hl.tries.cacheUTXO] at hx
    exact hw.cached a x hx
  cases execute_outcome hn h with
  | caught hc =>
    have hl := hc.leaves hn
    exact quiet_handleException hw hl.tries.trie (hdead hl) (hnoted hl)
  | @limited run hrun =>
    have hl := hrun.leaves hn
    have hfinal : (finalize env t (gasLeftOf trace) run.final.suicides
        run.final.state).CachedDead := by
      refine CachedDead.killAll (fun a x hx => hdead hl a x ?_) _
      rwa [addBalance_paid.cacheUTXO, addBalance_paid.cacheUTXO] at hx
    exact quiet_handleException hw (concluded_tries.1.trans hl.tries.trie) (hfinal.killAll _)
      (hnoted hl)
  | dropped hrun ht => exact quiet_dropCaches hw ht (hnoted (hrun.leaves hn))
  | excepted hrun =>
    exact quiet_commit hw (finalize_tries.1.trans (hrun.leaves hn).tries.trie) rfl rfl
      fun _ _ hx => by cases hx
  | settled hrun =>
    exact quiet_commit hw (finalize_tries.1.trans (hrun.leaves hn).tries.trie) rfl rfl
      fun _ _ hx => by cases hx

end SilubiumState

/-! ## A list of outputs -/

namespace ByteCodeExec

open SilubiumState Executive

variable {H : Hashes} {E : AalEnv} {vm : Vm} {tipHeight : ℕ} {p : Permanence} {env : EnvInfo}
variable {txs : List SilubiumTransaction} {w : AalState}

/-- One call of `execute`: the state before, the output, the state after. -/
structure Execution where
  before : AalState
  output : SilubiumTransaction
  after : AalState

/-- The calls of `execute` that `performByteCode` makes, whether or not it
goes through. -/
def executions (H : Hashes) (E : AalEnv) (vm : Vm) (tipHeight : ℕ) (p : Permanence)
    (env : EnvInfo) : List SilubiumTransaction → AalState → List Execution
  | [], _ => []
  | t :: txs, w =>
    if t.version ≠ VersionVM.evmDefault then []
    else if skips t w then executions H E vm tipHeight p env txs w
    else
      match SilubiumState.execute H E tipHeight p env t (vm w env t) w with
      | none => []
      | some q => ⟨w, t, q.1⟩ :: executions H E vm tipHeight p env txs q.1

/-- What every call starts from and makes, if one that starts from `P` and
meets `C` ends in `P`. -/
theorem executions_induct {P : AalState → Prop} {C : AalState → SilubiumTransaction → Prop}
    (hstep : ∀ u t u' q, P u → C u t →
      SilubiumState.execute H E tipHeight p env t (vm u env t) u = some (u', q) → P u')
    (hw : P w) (hC : ∀ x ∈ executions H E vm tipHeight p env txs w, C x.before x.output) :
    ∀ x ∈ executions H E vm tipHeight p env txs w, P x.before ∧
      ∃ q, SilubiumState.execute H E tipHeight p env x.output (vm x.before env x.output)
        x.before = some (x.after, q) := by
  induction txs generalizing w with
  | nil => simp [executions]
  | cons t txs ih =>
    unfold executions at hC ⊢
    split
    · simp
    rename_i hversion
    rw [if_neg hversion] at hC
    split
    · rename_i hskips
      rw [if_pos hskips] at hC
      exact ih hw hC
    · rename_i hskips
      rw [if_neg hskips] at hC
      cases hx : SilubiumState.execute H E tipHeight p env t (vm w env t) w with
      | none => simp
      | some q =>
        simp only [hx, List.mem_cons, forall_eq_or_imp] at hC ⊢
        exact ⟨⟨hw, q.2, rfl⟩, ih (hstep w t q.1 q.2 hw hC.1 hx) hC.2⟩

/-- **Only contracts that destroy themselves are destroyed**, in every list
of outputs none of which is sent by, or executed in a block that pays, an
account with code, and among the contracts that are left something of their
coins. -/
theorem contracts_survive (hw : Quiet w)
    (hfresh : ∀ x ∈ executions H E vm tipHeight p env txs w, ∀ a, HasCode a x.before.state →
      Unclaimed E.toEvmEnv a x.before.state)
    (hparties : ∀ x ∈ executions H E vm tipHeight p env txs w,
      ¬ HasCode x.output.sender x.before.state ∧ ¬ HasCode env.author x.before.state) :
    ∀ x ∈ executions H E vm tipHeight p env txs w, ∀ a, HasCode a x.before.state →
      ¬ SelfDestructs E env x.output (vm x.before env x.output) x.before a →
      LeavesCoin E env x.output (vm x.before env x.output) x.before a →
      Survives E env x.output (vm x.before env x.output) x.before x.after a := by
  intro x hx a hcode hno hleaves
  have hrun := executions_induct (P := Quiet)
    (C := fun u t => (∀ a, HasCode a u.state → Unclaimed E.toEvmEnv a u.state) ∧
      ¬ HasCode t.sender u.state ∧ ¬ HasCode env.author u.state)
    (fun u t u' q hu hc hexec => execute_quiet hu hc.1 hc.2.1 hc.2.2 hexec) hw
    (fun y hy => ⟨hfresh y hy, hparties y hy⟩)
  obtain ⟨hquiet, q, hexec⟩ := hrun x hx
  obtain ⟨hsender, hauthor⟩ := hparties x hx
  refine execute_survives (hquiet.stands hcode (hfresh x hx a hcode)) ?_ ?_
    (fun hD => hquiet.noted a hD hcode) hno hleaves hexec
  · rintro rfl
    exact hsender hcode
  · rintro rfl
    exact hauthor hcode

/-! ### A contract as the author of a block -/

/-- New contracts are far from 300 and 400. -/
def farEnv : AalEnv := { sampleEnv with contractAddress := fun a n => 1000 * (a + 1) + n }

theorem farEnv_unclaimed {a : Address} (ha : a < 1000) (s : SilubiumState) :
    Unclaimed farEnv.toEvmEnv a s := by
  intro creator n _ h
  have hle : 1000 ≤ 1000 * (creator + 1) + n :=
    (Nat.le_mul_of_pos_right 1000 (Nat.succ_pos creator)).trans (Nat.le_add_right _ n)
  exact absurd (h ▸ hle) (Nat.not_le.2 ha)

/-- The two contracts with a balance of `v` each, and coins of that value. -/
def fundedWorld (v : U256) : AalState :=
  let contract : Account := ⟨true, true, 1, v, [7], fun _ => 0⟩
  { sampleWorld with
    state :=
      { sampleWorld.state with
        trie := ⟨0, fun a => if a = 300 ∨ a = 400 then some contract else none⟩
        stateUTXO := ⟨0, fun a => if a = 300 ∨ a = 400 then some ⟨a, 0, v, true⟩ else none⟩ } }

/-- **A block that pays contract 400 destroys it**: the output calls
contract 300, nothing destroys itself, and 400 is gone with its coin. And a
payment of 4 in a call that is undone takes the coin of contract 300, which
still has the balance of 4. -/
theorem author_contract_destroyed :
    (HasCode 400 (fundedWorld 4).state ∧
      ((runTop farEnv { sampleInfo with author := 400 } (sampleCall 300 0 10) keeping
        (prologue farEnv { sampleInfo with author := 400 } (sampleCall 300 0 10)
          (fundedWorld 4))).map fun run => run.final.suicides) = some [] ∧
      (performByteCode sampleHashes farEnv (fun _ _ _ => keeping) 0 .committed
        { sampleInfo with author := 400 } [sampleCall 300 0 10] (fundedWorld 4)).map
          (fun q => (q.2.map ResultExecute.excepted, (q.1.state.account 400).isSome,
            (q.1.state.vin 400).isSome)) =
        some ([.none], false, false)) ∧
    HasCode 300 (fundedWorld 4).state ∧
      ((runTop farEnv sampleInfo (sampleCall 300 0 0) undoneCall
        (prologue farEnv sampleInfo (sampleCall 300 0 0) (fundedWorld 4))).map
          fun run => run.final.suicides) = some [] ∧
      (performByteCode sampleHashes farEnv (fun _ _ _ => undoneCall) 0 .committed
        sampleInfo [sampleCall 300 0 0] (fundedWorld 4)).map
          (fun q => (q.2.map ResultExecute.excepted, (q.1.state.entry 300).balance,
            (q.1.state.vin 300).isSome)) =
        some ([.none], 4, false) := by
  refine ⟨⟨?_, by decide, rfl⟩, ?_, by decide, by decide +kernel⟩ <;>
  · unfold HasCode
    decide

theorem fundedWorld_hasCode {v : U256} {a : Address} (h : HasCode a (fundedWorld v).state) :
    a = 300 ∨ a = 400 := by
  by_contra hne
  refine h ?_
  have hacc : (fundedWorld v).state.account a = none := if_neg hne
  rw [entry, hacc]
  rfl

theorem fundedWorld_quiet (v : U256) : Quiet (fundedWorld v) where
  idle := ⟨fun _ => rfl, rfl, rfl⟩
  cached := fun _ _ hx => by cases hx
  isAlive := fun a acc hacc => by
    simp only [fundedWorld] at hacc
    split at hacc
    · exact Option.some.inj hacc ▸ rfl
    · cases hacc
  noted := fun _ ha => by cases ha

theorem fundedWorld_plain {v : U256} {a : Address} (h : a < 300) :
    ¬ HasCode a (fundedWorld v).state := by
  intro hcode
  rcases fundedWorld_hasCode hcode with rfl | rfl
  · exact absurd h (by decide)
  · exact absurd h (by decide)

/-- The call of contract 300 leaves both contracts a coin: it destroys nothing
and notes one transfer, to 300. -/
theorem keeping_leaves {a : Address} (ha : HasCode a (fundedWorld 4).state) :
    ¬ SelfDestructs farEnv sampleInfo (sampleCall 300 0 10) keeping (fundedWorld 4) a ∧
      LeavesCoin farEnv sampleInfo (sampleCall 300 0 10) keeping (fundedWorld 4) a := by
  have hnotes : ∀ run, RunsFrom farEnv sampleInfo (sampleCall 300 0 10) keeping (fundedWorld 4)
      run → (run.final.suicides, run.final.state.transfers) = ([], [⟨1, 300, 10⟩]) :=
    fun run hrun => RunsFrom.of_map (fun run => (run.final.suicides, run.final.state.transfers)) hrun
      (by decide)
  constructor
  · rintro ⟨run, hrun, hmem⟩
    rw [(Prod.mk.inj (hnotes run hrun)).1] at hmem
    cases hmem
  · intro run y hrun _ hy _ hparty
    rw [(Prod.mk.inj (hnotes run hrun)).2] at hparty ⊢
    obtain rfl : (⟨a, 0, 4, true⟩ : Vin) = y :=
      Option.some.inj ((if_pos (fundedWorld_hasCode ha)).symm.trans hy)
    rcases fundedWorld_hasCode ha with rfl | rfl
    · decide
    · exact absurd hparty (by decide)

/-- With 2 as the author both contracts survive. -/
theorem contracts_survive_keeping :
    ∃ x, executions sampleHashes farEnv (fun _ _ _ => keeping) 0 .committed sampleInfo
        [sampleCall 300 0 10] (fundedWorld 4) = [x] ∧
      Survives farEnv sampleInfo x.output keeping x.before x.after 300 ∧
      Survives farEnv sampleInfo x.output keeping x.before x.after 400 := by
  obtain ⟨q, hq⟩ := isSome_iff_exists.1
    (by decide : (SilubiumState.execute sampleHashes farEnv 0 .committed sampleInfo
      (sampleCall 300 0 10) keeping (fundedWorld 4)).isSome)
  have hlist : executions sampleHashes farEnv (fun _ _ _ => keeping) 0 .committed sampleInfo
      [sampleCall 300 0 10] (fundedWorld 4) = [⟨fundedWorld 4, sampleCall 300 0 10, q.1⟩] := by
    unfold executions
    rw [hq]
    rfl
  have hmem := List.mem_singleton_self (⟨fundedWorld 4, sampleCall 300 0 10, q.1⟩ : Execution)
  rw [← hlist] at hmem
  have hall : ∀ a, HasCode a (fundedWorld 4).state →
      Survives farEnv sampleInfo (sampleCall 300 0 10) keeping (fundedWorld 4) q.1 a := by
    intro a ha
    refine contracts_survive (fundedWorld_quiet 4) ?_ ?_ _ hmem a ha (keeping_leaves ha).1
      (keeping_leaves ha).2 <;> rw [hlist]
    · intro x hx a ha
      obtain rfl := List.mem_singleton.1 hx
      refine farEnv_unclaimed ?_ _
      rcases fundedWorld_hasCode ha with rfl | rfl <;> decide
    · intro x hx
      obtain rfl := List.mem_singleton.1 hx
      exact ⟨fundedWorld_plain (show 1 < 300 by decide), fundedWorld_plain (show 2 < 300 by decide)⟩
  have hcode : HasCode 300 (fundedWorld 4).state ∧ HasCode 400 (fundedWorld 4).state := by
    unfold HasCode
    decide
  exact ⟨_, hlist, hall 300 hcode.1, hall 400 hcode.2⟩

end ByteCodeExec

end Slucore

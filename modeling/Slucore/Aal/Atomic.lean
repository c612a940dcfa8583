import Slucore.Aal.Survival
/-!
# Aal — failed executions

A failed execution is meant to leave no trace. Three of the four ways to
fail drop both caches, and leave none: an exception that `execute` catches
(from the fork height on), too many outputs, and a trial run. The fourth,
an exception of the byte code, is committed. The rollback has taken back
what the byte code did to the accounts, but not what it noted for
deletion, so an address that was only called loses its coin. The roots are
those of before if and only if nothing noted has an account or a coin
(`failed_execution_atomic_iff`), as when every coin belongs to an account.
-/


namespace Slucore

open Option

namespace SilubiumState

open Executive

variable {H : Hashes} {E : AalEnv} {env : EnvInfo} {t : SilubiumTransaction} {trace : EvmTrace}
  {w w' : AalState} {run : TopRun} {a : Address} {tipHeight : ℕ} {p : Permanence}
  {r : ResultExecute} {s : SilubiumState}

/-! ## What is asked for -/

/-- The call has left nothing: the roots are the old ones, and nothing is
cached. -/
structure Atomic (w w' : AalState) : Prop where
  rootHash : w'.state.trie.root = w.state.trie.root
  rootHashUTXO : w'.state.stateUTXO.root = w.state.stateUTXO.root
  atRest : w'.state.AtRest

/-- The call fails: with an exception, thrown or as the result of the byte
code, at the limit of outputs, or because it was to be reverted. -/
def Fails (E : AalEnv) (p : Permanence) (env : EnvInfo) (t : SilubiumTransaction)
    (trace : EvmTrace) (w : AalState) (r : ResultExecute) : Prop :=
  r.excepted ≠ .none ∨
    (∃ ctx, settlementOf E env t trace w = some ctx ∧ ctx.reachedVoutLimit = true) ∨
    p = .reverted

/-- The tries as commits leave them: the roots belong to the contents, the
accounts are alive and clean, and where empty accounts are removed none is
empty. -/
structure Stored (E : AalEnv) (env : EnvInfo) (s : SilubiumState) : Prop where
  root : s.trie.root = E.accountRoot s.trie.find
  rootUTXO : s.stateUTXO.root = E.vinRoot s.stateUTXO.find
  account : ∀ a acc, s.trie.find a = some acc → acc.isAlive = true ∧ acc.isUnchanged = true ∧
    (E.eip158ForkBlock ≤ env.number → acc.isEmpty = false)

/-- What a commit stores is stored. -/
theorem stored_commit (h : Stored E env s) (s' : SilubiumState) (ht : s'.trie = s.trie)
    (hu : s'.stateUTXO.root = E.vinRoot s'.stateUTXO.find) {removeEmpty : Bool}
    (hr : E.eip158ForkBlock ≤ env.number → removeEmpty = true) :
    Stored E env (s'.commit E removeEmpty) := by
  refine ⟨rfl, hu, fun a acc hacc => ?_⟩
  simp only [commit] at hacc
  cases hc : s'.cache a with
  | none =>
    rw [hc, ht] at hacc
    exact h.account a acc hacc
  | some x =>
    rw [hc, ht] at hacc
    simp only at hacc
    split at hacc
    · split at hacc
      · cases hacc
      rename_i hx
      obtain ⟨⟩ := hacc
      rw [Bool.or_eq_true, not_or, Bool.not_eq_true', Bool.not_eq_false] at hx
      refine ⟨hx.1, rfl, fun hle => ?_⟩
      rw [hr hle, Bool.not_eq_true] at hx
      exact hx.2
    · exact h.account a acc hacc

/-- **Every execution leaves the tries as commits do.** -/
theorem execute_stored (hn : w.state.newAddress = 0) (hst : Stored E env w.state)
    (h : execute H E tipHeight p env t trace w = some (w', r)) : Stored E env w'.state := by
  have hsame : ∀ {s : SilubiumState}, s.trie = w.state.trie → s.stateUTXO = w.state.stateUTXO →
      Stored E env s := fun ht hu => by
    refine ⟨?_, ?_, ?_⟩
    · rw [ht]
      exact hst.root
    · rw [hu]
      exact hst.rootUTXO
    · rw [ht]
      exact hst.account
  have hcatch : ∀ {s : SilubiumState} {D : List Address}, s.trie = w.state.trie →
      s.stateUTXO = w.state.stateUTXO →
      Stored E env (s.handleException E tipHeight p D).reset := by
    intro s D ht hu
    have hs := hsame ht hu
    unfold handleException
    split
    · have hc := stored_commit hs (s.deleteAccounts D) rfl hs.rootUTXO fun _ => rfl
      exact ⟨hc.root, hc.rootUTXO, hc.account⟩
    · exact ⟨hs.root, hs.rootUTXO, hs.account⟩
  have hcommit : ∀ {s : SilubiumState}, s.trie = w.state.trie →
      Stored E env ((s.commitUTXO E).commit E (decide (E.eip158ForkBlock ≤ env.number))).reset := by
    intro s ht
    have hc := stored_commit hst (s.commitUTXO E) ht rfl decide_eq_true
    exact ⟨hc.root, hc.rootUTXO, hc.account⟩
  cases execute_outcome hn h with
  | caught hc =>
    have hs := hc.sameTries hn
    exact hcatch hs.trie hs.stateUTXO
  | limited hrun =>
    have hs := hrun.final_sameTries hn
    exact hcatch (concluded_tries.1.trans hs.trie) (concluded_tries.2.trans hs.stateUTXO)
  | dropped _ ht hu => exact hsame ht hu
  | excepted hrun => exact hcommit (concluded_tries.1.trans (hrun.final_sameTries hn).trie)
  | settled hrun => exact hcommit (concluded_tries.1.trans (hrun.final_sameTries hn).trie)

/-! ## An exception of the byte code -/

/-- The byte code of the output is run, throws, and is committed. -/
structure Throws (E : AalEnv) (p : Permanence) (env : EnvInfo) (t : SilubiumTransaction)
    (trace : EvmTrace) (w : AalState) (run : TopRun) : Prop where
  committed : p = .committed
  value : t.isCreation → t.value = 0
  accepted : executiveInitialize E env t (prologue E env t w).state = none
  runs : RunsFrom E env t trace w run
  ran : run.ran = true
  ending : exceptedOf trace.ending ≠ .none

/-- What `execute` leaves then. -/
theorem execute_throws (ht : Throws E p env t trace w run)
    (h : execute H E tipHeight p env t trace w = some (w', r)) :
    w' = ⟨(((concluded env t trace run).commitUTXO E).commit E
      (decide (E.eip158ForkBlock ≤ env.number))).reset, run.final.deleteAddresses⟩ := by
  have hrun : runTop E env t trace (prologue E env t w) = some run := ht.runs
  have hvalue : ¬ (t.isCreation = true ∧ t.value ≠ 0) := fun h => h.2 (ht.value h.1)
  unfold execute at h
  split at h
  · cases h
  simp only [ht.accepted, hrun, ht.ran, ht.committed, if_neg ht.ending, Bool.not_true, if_false,
    reduceCtorEq, Option.some.injEq, Prod.mk.injEq] at h
  exact h.1.symm

/-- Any other failure drops both caches. -/
theorem execute_drops (htip : E.nFixUTXOCacheHFHeight ≤ tipHeight)
    (hn : w.state.newAddress = 0) (hfail : Fails E p env t trace w r)
    (hno : ¬ ∃ run, Throws E p env t trace w run)
    (h : execute H E tipHeight p env t trace w = some (w', r)) : Atomic w w' := by
  have hdrop : ∀ {s : SilubiumState} {D : List Address}, s.trie = w.state.trie →
      s.stateUTXO = w.state.stateUTXO → Atomic w ⟨s.dropCaches.reset, D⟩ := fun ht hu =>
    ⟨congrArg SecureTrieDB.root ht, congrArg SecureTrieDB.root hu,
      fun _ => rfl, fun _ => rfl, rfl, rfl⟩
  have hcatch : ∀ {s : SilubiumState} {D : List Address}, s.trie = w.state.trie →
      s.stateUTXO = w.state.stateUTXO →
      Atomic w ⟨(s.handleException E tipHeight p D).reset, D⟩ := by
    intro s D ht hu
    rw [handleException, if_neg fun h => absurd h.1 (Nat.not_lt.2 htip)]
    exact hdrop ht hu
  cases execute_outcome hn h with
  | caught hc =>
    have hs := hc.sameTries hn
    exact hcatch hs.trie hs.stateUTXO
  | limited hrun =>
    have hs := hrun.final_sameTries hn
    exact hcatch (concluded_tries.1.trans hs.trie) (concluded_tries.2.trans hs.stateUTXO)
  | dropped _ ht hu => exact hdrop ht hu
  | @excepted run _ hrun hinit hvalue hran hend =>
    exact absurd ⟨run, rfl, hvalue, hinit, hrun, hran, hend⟩ hno
  | settled _ _ _ _ _ hsome hlimit =>
    rcases hfail with hr' | ⟨ctx, hctx, hover⟩ | hp'
    · exact absurd rfl hr'
    · rw [hsome] at hctx
      rw [← Option.some.inj hctx, hlimit] at hover
      cases hover
    · cases hp'

/-- An exception forgets the suicides of the frame. -/
theorem Throws.suicides (hn : w.state.newAddress = 0) (ht : Throws E p env t trace w run) :
    run.final.suicides = [] := by
  obtain ⟨hst, hent⟩ := runTop_entered (prologue_sender hn) ht.runs
  cases hent with
  | idle h => rw [ht.ran] at h; cases h
  | ran _ _ _ _ _ _ hclose =>
    cases hending : trace.ending with
    | ret out => exact absurd (by rw [hending]; rfl) ht.ending
    | suicide dest => exact absurd (by rw [hending]; rfl) ht.ending
    | throw e =>
      rw [hending] at hclose
      rw [← Option.some.inj hclose]
      exact hst.suicides

/-- The addresses of creations are free: neither an account of the state
nor the sender is at one. -/
def Fresh (E : AalEnv) (t : SilubiumTransaction) (s : SilubiumState) : Prop :=
  ∀ a, a = t.sender ∨ (s.trie.find a).isSome → Unclaimed E.toEvmEnv a s

/-- With free addresses the fees are paid where they should be. -/
theorem Throws.redirectOff (hw : w.Idle) (hfresh : Fresh E t w.state)
    (ht : Throws E p env t trace w run) : run.final.state.RedirectOff := by
  obtain ⟨hst, hent⟩ := runTop_entered (prologue_sender hw.newAddress) ht.runs
  refine hent.redirectOff ht.ran (fun hc => ?_) fun hc => ⟨ht.value hc, ?_⟩
  · rw [hst.newAddress]
    exact if_neg hc
  have hnonce : w.state.getNonce t.sender ≤ (prologue E env t w).state.getNonce t.sender :=
    (congrFun (addBalance_nonces (s := w.state)) t.sender).ge
  have hne := hfresh t.sender (.inl rfl) t.sender _ hnonce
  rw [ht.runs.start_account hw.newAddress hne, account_of_idle hw]
  by_contra hsome
  exact hfresh _ (.inr (ne_none_iff_isSome.1 hsome)) t.sender _ hnonce rfl

/-- **The rollback has taken everything back**, at every address that is
not noted. -/
theorem Throws.account (hw : w.Idle) (hfresh : Fresh E t w.state)
    (ht : Throws E p env t trace w run) (ha : a ∉ run.final.deleteAddresses) :
    FoundBelow ((concluded env t trace run).account a) (w.state.trie.find a) ∧
      ∀ acc, w.state.trie.find a = some acc →
        ((concluded env t trace run).entry a).code = acc.code := by
  have hn := hw.newAddress
  have hl := ht.runs.leaves hn
  have hsender : a ≠ t.sender := by
    rintro rfl
    exact ha hl.sender
  have hauthor : a ≠ env.author := by
    rintro rfl
    exact ha hl.author
  have hconcluded : (concluded env t trace run).account a = run.final.state.account a := by
    have hf : FeesPaid env t run.final.state _ := feesPaid (gasLeftOf trace * t.gasPrice)
      ((t.gas - gasLeftOf trace) * t.gasPrice) (ht.redirectOff hw hfresh)
    have ha' : run.final.deleteAddresses.contains a = false := by simpa using ha
    unfold concluded deleteAccounts
    rw [killAll_account, ha', ht.suicides hn]
    exact hf.account a hsender hauthor
  obtain ⟨-, hent⟩ := runTop_entered (prologue_sender hn) ht.runs
  have hback := hent.thrown ht.ran ht.ending a
  rw [ht.runs.start_account hn hsender, account_of_idle hw] at hback
  refine ⟨hconcluded ▸ hback, fun acc hacc => ?_⟩
  have hin : (w.state.trie.find a).isSome := by rw [hacc]; rfl
  have hcode := (hl.kept a hin (hfresh a (.inr hin))).1.code
  have hentry : w.state.entry a = acc := entry_of_account ((account_of_idle hw a).trans hacc)
  rw [entry, hconcluded, ← hentry]
  exact hcode

/-- What was changed and changed back is committed as it was. -/
theorem commit_of_below {removeEmpty : Bool} (hb : FoundBelow (s.account a) (s.trie.find a))
    (hcode : ∀ acc, s.trie.find a = some acc → (s.entry a).code = acc.code)
    (hstored : ∀ acc, s.trie.find a = some acc → acc.isAlive = true ∧ acc.isUnchanged = true ∧
      (removeEmpty = true → acc.isEmpty = false)) :
    (s.commit E removeEmpty).trie.find a = s.trie.find a := by
  cases hc : s.cache a with
  | none => simp [commit, hc]
  | some x =>
    have hacc : s.account a = some x := by simp [SilubiumState.account, hc]
    have hentry : s.entry a = x := entry_of_account hacc
    rw [hacc] at hb
    cases hfind : s.trie.find a with
    | none => rw [hfind] at hb; cases hb
    | some y =>
      rw [hfind] at hb
      cases hb with
      | some hbelow =>
        obtain ⟨hlive, hclean, hempty⟩ := hstored y hfind
        have hxcode : x.code = y.code := hentry ▸ hcode y hfind
        have hxempty : x.isEmpty = y.isEmpty := by
          simp [Account.isEmpty, hbelow.nonce, hbelow.balance, hxcode]
        have hkeep : (!x.isAlive || (removeEmpty && x.isEmpty)) = false := by
          cases hre : removeEmpty with
          | false => simp [hbelow.isAlive, hlive]
          | true => simp [hbelow.isAlive, hlive, hxempty, hempty hre]
        have hsame : SilubiumState.stored x = y := by
          obtain ⟨h₁, h₂, h₃, h₄, -⟩ := hbelow
          cases x
          cases y
          simp_all [SilubiumState.stored]
        simp only [commit, hc, hkeep, hsame, hfind, Bool.false_eq_true, if_false, ite_self]

/-- The accounts after the commit. -/
theorem Throws.find (hw : w.Idle) (hst : Stored E env w.state) (hfresh : Fresh E t w.state)
    (ht : Throws E p env t trace w run) (a : Address) :
    (((concluded env t trace run).commitUTXO E).commit E
        (decide (E.eip158ForkBlock ≤ env.number))).trie.find a =
      if a ∈ run.final.deleteAddresses then none else w.state.trie.find a := by
  have htrie : (concluded env t trace run).trie = w.state.trie :=
    concluded_tries.1.trans (ht.runs.leaves hw.newAddress).tries.trie
  split
  · rename_i ha
    exact killAll_commit (List.contains_iff_mem.2 ha) rfl rfl
  rename_i ha
  obtain ⟨hb, hcode⟩ := ht.account hw hfresh ha
  rw [← htrie] at hb hcode ⊢
  refine commit_of_below (s := (concluded env t trace run).commitUTXO E) hb hcode
    fun acc hacc => ?_
  obtain ⟨hlive, hclean, hempty⟩ := hst.account a acc (htrie ▸ hacc)
  exact ⟨hlive, hclean, fun h => hempty (of_decide_eq_true h)⟩

/-- What is cached of the coin of `a` is what is stored. -/
def CoinStored (s : SilubiumState) (a : Address) : Prop :=
  ∀ x, s.cacheUTXO a = some x → s.stateUTXO.find a = if x.alive then some x else none

/-- The coins after the commit. -/
theorem Throws.coin (hn : w.state.newAddress = 0) (ht : Throws E p env t trace w run)
    (a : Address) :
    ((concluded env t trace run).commitUTXO E).stateUTXO.find a = w.state.stateUTXO.find a ↔
      if a ∈ run.final.deleteAddresses then w.state.stateUTXO.find a = none
      else CoinStored w.state a := by
  have hl := ht.runs.leaves hn
  have hu : (concluded env t trace run).stateUTXO = w.state.stateUTXO :=
    concluded_tries.2.trans hl.tries.stateUTXO
  split
  · rename_i ha
    have hcontains : run.final.deleteAddresses.contains a = true := List.contains_iff_mem.2 ha
    have hgone : ((concluded env t trace run).commitUTXO E).stateUTXO.find a = none := by
      simp only [commitUTXO]
      unfold concluded deleteAccounts
      simp only [killAll, hcontains]
      cases hv : (finalize env t (gasLeftOf trace) run.final.suicides run.final.state).vin a with
      | some x => rfl
      | none => exact (or_eq_none_iff.1 hv).2
    rw [hgone, eq_comm]
  · rename_i ha
    have hsui : a ∉ run.final.suicides := by simp [ht.suicides hn]
    have hcache : (concluded env t trace run).cacheUTXO a = w.state.cacheUTXO a :=
      (concluded_cacheUTXO ha hsui).trans (congrFun hl.tries.cacheUTXO a)
    simp only [commitUTXO, hcache, hu, CoinStored]
    cases hc : w.state.cacheUTXO a with
    | none => simp
    | some x =>
      simp only [Option.some.injEq, forall_eq']
      exact eq_comm

/-! ## Every failure -/

/-- The two states of each trie do not collide under its hash. -/
structure NoCollision (E : AalEnv) (w w' : AalState) : Prop where
  accounts : E.accountRoot w'.state.trie.find = E.accountRoot w.state.trie.find →
    w'.state.trie.find = w.state.trie.find
  coins : E.vinRoot w'.state.stateUTXO.find = E.vinRoot w.state.stateUTXO.find →
    w'.state.stateUTXO.find = w.state.stateUTXO.find

/-- If the byte code throws, what it has noted for deletion by then has
neither an account nor a coin, and no other coin waits to be committed. -/
def NothingToCommit (E : AalEnv) (p : Permanence) (env : EnvInfo) (t : SilubiumTransaction)
    (trace : EvmTrace) (w : AalState) : Prop :=
  ∀ run, Throws E p env t trace w run → ∀ a,
    if a ∈ run.final.deleteAddresses then
      w.state.trie.find a = none ∧ w.state.stateUTXO.find a = none
    else CoinStored w.state a

/-- Nothing is noted before the call that has an account, every coin
belongs to an account, and none waits to be committed. -/
structure CoinsOwned (t : SilubiumTransaction) (env : EnvInfo) (w : AalState) : Prop where
  sender : w.state.trie.find t.sender = none
  author : w.state.trie.find env.author = none
  noted : ∀ a ∈ w.deleteAddresses, w.state.trie.find a = none
  owned : ∀ a, (w.state.stateUTXO.find a).isSome → (w.state.trie.find a).isSome
  cacheUTXO : ∀ a, w.state.cacheUTXO a = none

theorem CoinsOwned.nothingToCommit (hn : w.state.newAddress = 0) (hfresh : Fresh E t w.state)
    (h : CoinsOwned t env w) : NothingToCommit E p env t trace w := by
  intro run ht a
  split
  · rename_i ha
    have hfind : w.state.trie.find a = none := by
      by_contra hsome
      have hin := ne_none_iff_isSome.1 hsome
      rcases ((ht.runs.leaves hn).kept a hin (hfresh a (.inr hin))).2 ha with rfl | rfl | hD
      · exact hsome h.sender
      · exact hsome h.author
      · exact hsome (h.noted a hD)
    refine ⟨hfind, ?_⟩
    by_contra hcoin
    have hin := h.owned a (ne_none_iff_isSome.1 hcoin)
    rw [hfind] at hin
    cases hin
  · intro x hx
    rw [h.cacheUTXO a] at hx
    cases hx

/-- An exception of the byte code leaves the roots if and only if it leaves
the tries. -/
theorem Throws.atomic_iff (hw : w.Idle) (hst : Stored E env w.state) (hfresh : Fresh E t w.state)
    (hroots : NoCollision E w w') (ht : Throws E p env t trace w run)
    (h : execute H E tipHeight p env t trace w = some (w', r)) :
    Atomic w w' ↔ ∀ a, if a ∈ run.final.deleteAddresses then
      w.state.trie.find a = none ∧ w.state.stateUTXO.find a = none
    else CoinStored w.state a := by
  obtain rfl := execute_throws ht h
  have hfind := ht.find hw hst hfresh
  have hcoin := ht.coin hw.newAddress
  constructor
  · intro hat a
    have haccounts := congrFun (hroots.accounts (hat.rootHash.trans hst.root)) a
    have hcoins := (hcoin a).1 (congrFun (hroots.coins (hat.rootHashUTXO.trans hst.rootUTXO)) a)
    have hfa := (hfind a).symm.trans haccounts
    split
    · rename_i ha
      rw [if_pos ha] at hfa hcoins
      exact ⟨hfa.symm, hcoins⟩
    · rename_i ha
      rwa [if_neg ha] at hcoins
  · intro hall
    refine ⟨?_, ?_, fun _ => rfl, fun _ => rfl, rfl, rfl⟩
    · have hsame : (((concluded env t trace run).commitUTXO E).commit E
          (decide (E.eip158ForkBlock ≤ env.number))).trie.find = w.state.trie.find := by
        funext a
        have ha := hall a
        rw [hfind]
        split
        · rename_i hmem
          rw [if_pos hmem] at ha
          exact ha.1.symm
        · rfl
      rw [hst.root, ← hsame]
      rfl
    · have hsame : ((concluded env t trace run).commitUTXO E).stateUTXO.find =
          w.state.stateUTXO.find := by
        funext a
        have ha := hall a
        rw [hcoin]
        split
        · rename_i hmem
          rw [if_pos hmem] at ha
          exact ha.2
        · rename_i hmem
          rwa [if_neg hmem] at ha
      rw [hst.rootUTXO, ← hsame]
      rfl

/-- **A failed execution is atomic if and only if nothing that the byte
code has noted by its exception has an account or a coin**; it is where
every coin belongs to an account. -/
theorem failed_execution_atomic_iff (htip : E.nFixUTXOCacheHFHeight ≤ tipHeight) (hw : w.Idle)
    (hst : Stored E env w.state) (hfresh : Fresh E t w.state) (hroots : NoCollision E w w')
    (hfail : Fails E p env t trace w r)
    (h : execute H E tipHeight p env t trace w = some (w', r)) :
    (Atomic w w' ↔ NothingToCommit E p env t trace w) ∧ (CoinsOwned t env w → Atomic w w') := by
  have hiff : Atomic w w' ↔ NothingToCommit E p env t trace w := by
    by_cases hthrow : ∃ run, Throws E p env t trace w run
    · obtain ⟨run, ht⟩ := hthrow
      rw [ht.atomic_iff hw hst hfresh hroots h]
      refine ⟨fun hall run' ht' => ?_, fun hall => hall run ht⟩
      obtain rfl : run = run' := Option.some.inj (ht.runs.symm.trans ht'.runs)
      exact hall
    · exact ⟨fun _ run ht => absurd ⟨run, ht⟩ hthrow,
        fun _ => execute_drops htip hw.newAddress hfail hthrow h⟩
  exact ⟨hiff, fun howned => hiff.2 (howned.nothingToCommit hw.newAddress hfresh)⟩

/-! ### A coin without an account -/

/-- The root of the coins tells whether 400 has one. -/
def countingEnv : AalEnv :=
  { ByteCodeExec.farEnv with vinRoot := fun find => if (find 400).isSome then 1 else 0 }

/-- Contract 300 calls contract 400, which destroys itself, and then pays
it 4. -/
def payingTheDead : EvmTrace :=
  ⟨false, [.call .call 400 0 false [] (.suicide 300), .call .call 400 4 false [] (.ret [])],
    .ret [], 70000⟩

/-- Contract 300 calls 400 and runs out of gas. -/
def throwing : EvmTrace := ⟨false, [.call .call 400 0 false [] (.ret [])], .throw .outOfGas, 0⟩

/-- **A failed execution loses a coin:** after the first output 400 has a
coin and no account, the second ends in an exception and has removed the
coin. Neither sender nor author has an account or a coin in between. -/
theorem thrown_execution_removes_coin :
    ((execute sampleHashes countingEnv 0 .committed sampleInfo (sampleCall 300 0 10) payingTheDead
        sampleWorld).bind fun q =>
      (execute sampleHashes countingEnv 0 .committed sampleInfo (sampleCall 300 1 0) throwing
        q.1).map fun q' =>
          ([1, 2].map fun a => ((q.1.state.account a).isSome, (q.1.state.vin a).isSome),
            q.2.excepted, q.1.state.stateUTXO.root, q'.2.excepted, q'.1.state.stateUTXO.root)) =
      some ([(false, false), (false, false)], .none, 1, .outOfGas, 0) := by
  decide +kernel

theorem sampleWorld_stored : Stored countingEnv sampleInfo sampleWorld.state := by
  refine ⟨rfl, rfl, fun a acc hacc => ?_⟩
  simp only [sampleWorld] at hacc
  split at hacc
  · obtain ⟨⟩ := hacc
    exact ⟨rfl, rfl, fun _ => by decide⟩
  · cases hacc

theorem sampleWorld_fresh : Fresh countingEnv (sampleCall 300 1 0) sampleWorld.state := by
  intro a ha
  refine ByteCodeExec.farEnv_unclaimed ?_ _
  rcases ha with rfl | hsome
  · decide
  simp only [sampleWorld] at hsome
  split at hsome
  · rename_i h
    rcases h with rfl | rfl <;> decide
  · cases hsome

/-- Without coins the same exception leaves the roots. -/
theorem throwing_atomic :
    ∃ w' r, execute sampleHashes countingEnv 0 .committed sampleInfo (sampleCall 300 1 0) throwing
        sampleWorld = some (w', r) ∧ r.excepted = .outOfGas ∧ Atomic sampleWorld w' := by
  have hmap : (execute sampleHashes countingEnv 0 .committed sampleInfo (sampleCall 300 1 0)
      throwing sampleWorld).map (fun q => q.2.excepted) = some .outOfGas := by
    decide
  have hnoted : (runTop countingEnv sampleInfo (sampleCall 300 1 0) throwing
      (prologue countingEnv sampleInfo (sampleCall 300 1 0) sampleWorld)).map
        (fun run => (run.ran, run.final.deleteAddresses)) = some (true, [1, 2]) := by
    decide
  obtain ⟨⟨w', r⟩, hexec, hr⟩ := map_eq_some_iff.1 hmap
  obtain ⟨run, hrun, hD⟩ := map_eq_some_iff.1 hnoted
  obtain ⟨hran, hD⟩ := Prod.mk.inj hD
  have hidle : sampleWorld.Idle := ⟨fun _ => rfl, rfl, rfl⟩
  have ht : Throws countingEnv .committed sampleInfo (sampleCall 300 1 0) throwing sampleWorld run :=
    ⟨rfl, fun _ => rfl, by decide, hrun, hran, by decide⟩
  have hroots : NoCollision countingEnv sampleWorld w' := by
    obtain rfl := execute_throws ht hexec
    refine ⟨fun _ => funext fun a => ?_, fun _ => funext fun a => ?_⟩
    · refine (ht.find hidle sampleWorld_stored sampleWorld_fresh a).trans ?_
      rw [hD]
      split
      · rename_i ha
        simp only [List.mem_cons, List.not_mem_nil, or_false] at ha
        rcases ha with rfl | rfl <;> rfl
      · rfl
    · refine (ht.coin rfl a).2 ?_
      split
      · rfl
      · intro x hx
        cases hx
  have howned : CoinsOwned (sampleCall 300 1 0) sampleInfo sampleWorld :=
    ⟨rfl, rfl, fun _ ha => (by cases ha), fun _ ha => (by cases ha), fun _ => rfl⟩
  exact ⟨w', r, hexec, hr, (failed_execution_atomic_iff (Nat.zero_le _) hidle sampleWorld_stored
    sampleWorld_fresh hroots (.inl (by rw [hr]; decide)) hexec).2 howned⟩

/-! ## The outputs of a transaction -/

/-- **The loop over the outputs returns, and leaves the state between two
executions**, with the tries as commits leave them, whatever the byte code
does and wherever a version stops the loop. -/
theorem tryByteCode_stored {vm : Vm} {txs : List SilubiumTransaction} (hw : w.Idle)
    (hst : Stored E env w.state) :
    ∃ v rs, ByteCodeExec.tryByteCode H E vm tipHeight .committed env txs w = some (v, rs) ∧
      v.Idle ∧ Stored E env v.state := by
  induction txs generalizing w with
  | nil => exact ⟨_, _, rfl, ⟨hw.cache, hw.newAddress, hw.transfers⟩, hst⟩
  | cons t txs ih =>
    unfold ByteCodeExec.tryByteCode
    split
    · exact ⟨w, none, rfl, hw, hst⟩
    rename_i hversion
    split
    · obtain ⟨v, rs, h, hv⟩ := ih hw hst
      exact ⟨v, _, by rw [h]; rfl, hv⟩
    · -- no transfer throws, so `execute` returns
      obtain ⟨⟨u, q⟩, hu⟩ := isSome_iff_exists.1
        (execute_isSome hw.newAddress (not_not.1 hversion))
      obtain ⟨v, rs, h, hv⟩ := ih (execute_idle hw hu).1 (execute_stored hw.newAddress hst hu)
      exact ⟨v, _, by rw [hu, bind_some, h]; rfl, hv⟩

theorem throwing_stored :
    ∃ v rs, ByteCodeExec.tryByteCode sampleHashes countingEnv (fun _ _ _ => throwing) 0 .committed
      sampleInfo [sampleCall 300 1 0] sampleWorld = some (v, rs) ∧ v.Idle ∧
        Stored countingEnv sampleInfo v.state :=
  tryByteCode_stored ⟨fun _ => rfl, rfl, rfl⟩ sampleWorld_stored

end SilubiumState

end Slucore

import Slucore.Evm.Executive
import Slucore.Evm.Payment
/-!
# Evm — what any tree of frames does

`Evolves` says everything later files need to know of an execution: it
can be undone, it leaves the tries and the coins alone, its balances are
explained by the transfers it recorded less those of undone frames, and
an account that is new was noted for deletion, or opened by a creation,
or is the one at `newAddress`. The relation is reflexive and transitive; each operation of
the executive is an instance, the end of a frame included, whichever way
the frame ends; so every tree of frames is one (`execOps_evolves`), by
induction over the tree.
-/


namespace Slucore

open List Option List.Subset

namespace Executive

open SilubiumState

variable {E : EvmEnv} {env : EnvInfo} {c c' c'' c₀ : EvmConfig} {a src dst : Address} {v : U256}

/-- The transfers recorded between two configurations explain the change
of every balance, apart from those of undone frames. -/
def Explained (c c' : EvmConfig) : Prop :=
  ∃ ts us, c'.state.transfers = c.state.transfers ++ ts ∧ c'.undone = c.undone ++ us ∧
    ∀ a, Settles (c.state.balance a) (c'.state.balance a)
      (inflow ts a) (outflow ts a) (inflow us a) (outflow us a)

/-- What an execution does between two configurations. -/
structure Evolves (c c' : EvmConfig) : Prop where
  undoes : c.state.Undoes c'.state
  stateUTXO : c'.state.stateUTXO = c.state.stateUTXO
  cacheUTXO : c'.state.cacheUTXO = c.state.cacheUTXO
  newAddress : c'.state.newAddress = c.state.newAddress ∨ c'.state.newAddress = 0
  explained : Explained c c'
  deleteAddresses : c.deleteAddresses ⊆ c'.deleteAddresses
  opened : c.opened ⊆ c'.opened
  stays : ∀ a, (c.state.account a).isSome → (c'.state.account a).isSome
  arrives : ∀ a, (c'.state.account a).isSome →
    (c.state.account a).isSome ∨ a ∈ c'.deleteAddresses ∨ a ∈ c'.opened ∨
      (a = c.state.newAddress ∧ a ≠ 0)
  clean : c.state.Clean → c'.state.Clean

theorem Explained.refl (c : EvmConfig) : Explained c c :=
  ⟨[], [], by simp, by simp, fun _ => Settles.refl _⟩

theorem Explained.trans (h : Explained c c') (h' : Explained c' c'') : Explained c c'' := by
  obtain ⟨ts, us, ht, hu, hs⟩ := h
  obtain ⟨ts', us', ht', hu', hs'⟩ := h'
  refine ⟨ts ++ ts', us ++ us', by rw [ht', ht, List.append_assoc],
    by rw [hu', hu, List.append_assoc], fun a => ?_⟩
  simp only [inflow, outflow, keyedSum_append]
  exact (hs a).trans (hs' a)

namespace Evolves

theorem refl (c : EvmConfig) : Evolves c c where
  undoes := Undoes.refl _
  stateUTXO := rfl
  cacheUTXO := rfl
  newAddress := .inl rfl
  explained := Explained.refl c
  deleteAddresses := List.Subset.refl _
  opened := List.Subset.refl _
  stays _ := id
  arrives _ := .inl
  clean := id

theorem trans (h : Evolves c c') (h' : Evolves c' c'') : Evolves c c'' where
  undoes := h.undoes.trans h'.undoes
  stateUTXO := h'.stateUTXO.trans h.stateUTXO
  cacheUTXO := h'.cacheUTXO.trans h.cacheUTXO
  newAddress := by
    rcases h'.newAddress with hn' | hn'
    · rw [hn']; exact h.newAddress
    · exact .inr hn'
  explained := h.explained.trans h'.explained
  deleteAddresses := List.Subset.trans h.deleteAddresses h'.deleteAddresses
  opened := List.Subset.trans h.opened h'.opened
  stays a ha := h'.stays a (h.stays a ha)
  arrives a ha := by
    rcases h'.arrives a ha with ha' | hd | ho | ⟨hn', h0⟩
    · rcases h.arrives a ha' with hc | hd | ho | hn
      · exact .inl hc
      · exact .inr (.inl (h'.deleteAddresses hd))
      · exact .inr (.inr (.inl (h'.opened ho)))
      · exact .inr (.inr (.inr hn))
    · exact .inr (.inl hd)
    · exact .inr (.inr (.inl ho))
    · -- the redirection that was still pending in the middle was pending before
      rcases h.newAddress with hn | hn
      · exact .inr (.inr (.inr ⟨hn'.trans hn, h0⟩))
      · exact absurd (hn'.trans hn) h0
  clean hc := h'.clean (h.clean hc)

/-- What a frame collects of suicides is not part of the relation. -/
theorem with_suicides (h : Evolves c c') (l : List Address) :
    Evolves c { c' with suicides := l } :=
  { h with }

end Evolves

/-! ## Changes of one account -/

/-- A change of the state that moves no value and creates no account. -/
structure Quiet (s s' : SilubiumState) : Prop where
  undoes : s.Undoes s'
  stateUTXO : s'.stateUTXO = s.stateUTXO
  cacheUTXO : s'.cacheUTXO = s.cacheUTXO
  newAddress : s'.newAddress = s.newAddress
  transfers : s'.transfers = s.transfers
  balance : ∀ a, s'.balance a = s.balance a
  isSome : ∀ a, (s'.account a).isSome ↔ (s.account a).isSome
  clean : s.Clean → s'.Clean

theorem Quiet.refl (s : SilubiumState) : Quiet s s :=
  ⟨Undoes.refl s, rfl, rfl, rfl, rfl, fun _ => rfl, fun _ => Iff.rfl, id⟩

variable {s' : SilubiumState}

theorem Quiet.evolves (h : Quiet c.state s') :
    Evolves c { c with state := s' } where
  undoes := h.undoes
  stateUTXO := h.stateUTXO
  cacheUTXO := h.cacheUTXO
  newAddress := .inl h.newAddress
  explained := by
    refine ⟨[], [], by simp [h.transfers], by simp, fun a => ?_⟩
    simp only [h.balance]
    exact Settles.refl _
  deleteAddresses := List.Subset.refl _
  opened := List.Subset.refl _
  stays a := (h.isSome a).2
  arrives a ha := .inl ((h.isSome a).1 ha)
  clean := h.clean

variable {s : SilubiumState}

/-- Writing an account that is there is quiet when it keeps the balance,
and reads as unchanged only if it did. -/
theorem quiet_write {acc acc' : Account} {log : List Change}
    (hacc : s.account a = some acc) (hu : s.Undoes (s.write a acc' log))
    (hb : acc'.balance = acc.balance)
    (hun : acc'.isUnchanged = true → acc.isUnchanged = true) : Quiet s (s.write a acc' log) where
  undoes := hu
  stateUTXO := rfl
  cacheUTXO := rfl
  newAddress := rfl
  transfers := rfl
  balance b := by
    by_cases h : b = a
    · subst h
      rw [balance_of_account (account_write.trans (if_pos rfl)), hb, balance_of_account hacc]
    · simp [SilubiumState.balance, entry, account_write, if_neg h]
  isSome b := by
    rw [account_write]
    by_cases h : b = a <;> simp [h, hacc]
  clean hc b x hx hux := by
    rw [account_write] at hx
    split at hx
    · subst b
      obtain ⟨⟩ := hx
      rw [hb]
      exact hc a acc hacc (hun hux)
    · exact hc b x hx hux

theorem incNonce_quiet (h : (s.account a).isSome) :
    Quiet s (s.incNonce a) := by
  obtain ⟨acc, hacc⟩ := isSome_iff_exists.1 h
  have hu := incNonce_undoes (s := s) (a := a)
  simp only [incNonce, hacc] at hu ⊢
  exact quiet_write hacc hu rfl fun h => by cases h

theorem setStorage_quiet {key value : ℕ} (h : (s.account a).isSome) :
    Quiet s (s.setStorage a key value) := by
  obtain ⟨acc, hacc⟩ := isSome_iff_exists.1 h
  refine quiet_write hacc (setStorage_undoes h) ?_ fun h => by cases h
  simp [entry, hacc, Account.setStorage]

theorem setNewCode_quiet {code : List UInt8} (h : (s.account a).isSome) :
    Quiet s (s.setNewCode a code) := by
  obtain ⟨acc, hacc⟩ := isSome_iff_exists.1 h
  refine quiet_write hacc (setNewCode_undoes h) ?_ ?_ <;>
    simp [entry, hacc, Account.setNewCode]

/-! ## Transfers -/

/-- A transfer explains itself. -/
theorem Moved.explained (h : Moved c.state s' src dst v) :
    Explained c { c with state := s' } := by
  refine ⟨if v = 0 then [] else [⟨src, dst, v⟩], [], h.transfers, by simp, fun a => ?_⟩
  have hx : (if a = src then v else 0) ≤ c.state.balance a := by
    split
    · subst a; exact h.enough
    · simp [BitVec.le_def]
  have hm := Settles.move (y := if a = dst then v else 0) hx
  rw [← h.balance a] at hm
  by_cases hv : v = 0
  · simpa [hv, inflow, outflow] using hm
  simp only [if_neg hv, inflow, outflow, keyedSum_cons, eq_comm (a := src) (b := a),
    eq_comm (a := dst) (b := a)]
  simpa [apply_ite BitVec.toNat] using hm

/-- A transfer into an account that is there already, or noted for
deletion, or opened, or at `newAddress`. -/
theorem Moved.evolves (h : Moved c.state s' src dst v)
    (hn : s'.newAddress = c.state.newAddress ∨ s'.newAddress = 0) {l : List Address}
    (hl : c.opened ⊆ l)
    (ha : (c.state.account dst).isSome ∨ dst ∈ c.deleteAddresses ∨ dst ∈ l ∨
      (dst = c.state.newAddress ∧ dst ≠ 0)) :
    Evolves c { c with state := s', opened := l } where
  undoes := h.undoes
  stateUTXO := h.stateUTXO
  cacheUTXO := h.cacheUTXO
  newAddress := hn
  explained := Moved.explained h
  deleteAddresses := refl _
  opened := hl
  stays a hs := (h.isSome a).2 (.inl hs)
  arrives a hs := by
    rcases (h.isSome a).1 hs with hs | rfl
    · exact .inl hs
    · exact ha
  clean := h.clean

theorem noteUnused_evolves : Evolves c (noteUnused a c) := by
  unfold noteUnused
  split
  · exact Evolves.refl c
  exact { Evolves.refl c with
    explained := Explained.refl c
    deleteAddresses := subset_cons_self ..
    arrives := fun _ => .inl }

@[simp] theorem noteUnused_state : (noteUnused a c).state = c.state := by
  unfold noteUnused
  split <;> rfl

/-- After the note an address is in use or noted. -/
theorem noteUnused_covers :
    ((noteUnused a c).state.account a).isSome ∨ a ∈ (noteUnused a c).deleteAddresses := by
  unfold noteUnused
  split
  · exact .inl ‹_›
  · exact .inr mem_cons_self

/-- A noted transfer, as calls and suicides make it. -/
theorem transfer_noteUnused_evolves (h : transfer src dst v (noteUnused dst c) = some c') :
    Evolves c c' := by
  unfold transfer at h
  simp only [map_eq_some_iff, Prod.exists] at h
  obtain ⟨s', d, htr, rfl⟩ := h
  rw [noteUnused_state] at htr
  have hm := transferBalance_moved htr
  refine (noteUnused_evolves (a := dst)).trans
    (Moved.evolves (c := noteUnused dst c) (by rwa [noteUnused_state]) ?_ (refl _) ?_)
  · rw [noteUnused_state]
    exact (transferBalance_snd htr).imp (fun h => h.2) fun h => h.2.2.2
  rcases transferBalance_snd htr with ⟨rfl, -⟩ | ⟨-, hd, h0, -⟩
  · rcases noteUnused_covers (c := c) (a := d) with h | h
    · exact .inl h
    · exact .inr (.inl h)
  · rw [noteUnused_state]
    exact .inr (.inr (.inr ⟨hd, h0⟩))

/-- Touching an account by paying nothing into it. -/
theorem Paid.evolves_of_zero (h : Paid c.state s' a 0)
    (hn : s'.newAddress = c.state.newAddress ∨ s'.newAddress = 0) :
    Evolves c { c with state := s', opened := a :: c.opened } where
  undoes := h.undoes
  stateUTXO := h.stateUTXO
  cacheUTXO := h.cacheUTXO
  newAddress := hn
  explained := by
    refine ⟨[], [], by simp [h.transfers], by simp, fun b => ?_⟩
    simp only [h.balance_eq, ite_self, add_zero]
    exact Settles.refl _
  deleteAddresses := refl _
  opened := subset_cons_self ..
  stays b hb := (h.isSome_iff b).2 (.inl hb)
  arrives b hb := by
    rcases (h.isSome_iff b).1 hb with hb | rfl
    · exact .inl hb
    · exact .inr (.inr (.inl mem_cons_self))
  clean := h.clean

/-! ## The operations of the executive -/

variable {sender receive codeAddress : Address}

/-- A call, up to the point where byte code would run. There is byte code
only where there is an account. -/
theorem call_evolves {outOfGas b : Bool}
    (h : call E env sender receive codeAddress v outOfGas c = some (c', b)) :
    Evolves c c' ∧ (b = true → (c.state.account codeAddress).isSome) := by
  unfold call at h
  split at h
  · split at h
    · obtain ⟨⟩ := h
      refine ⟨Paid.evolves_of_zero addBalance_paid ?_, fun hb => by cases hb⟩
      exact (addBalance_snd c.state codeAddress 0).imp (fun h => h.2) fun h => h.2.2.2
    · obtain ⟨⟩ := h
      exact ⟨Evolves.refl _, fun hb => by cases hb⟩
  · simp only [map_eq_some_iff] at h
    obtain ⟨c₁, ht, rfl, rfl⟩ := h
    refine ⟨transfer_noteUnused_evolves ht, fun hb => ?_⟩
    cases hacc : c.state.account codeAddress with
    | none => simp [addressHasCode, entry, hacc, Account.dead] at hb
    | some acc => rfl

/-- A creation, up to the point where the initialisation code would run.
The transfer decides where the account is; everything after is at that
address. -/
theorem create_evolves {newAddr : Address} {nonce : ℕ} {hasInit b : Bool}
    (h : create E env sender nonce v hasInit c = some (c', newAddr, b)) :
    Evolves c c' ∧ (c'.state.account newAddr).isSome := by
  unfold create at h
  simp only [map_eq_some_iff, Prod.exists, Prod.mk.injEq] at h
  obtain ⟨s', d, htr, rfl, rfl, -⟩ := h
  have hm := transferBalance_moved htr
  have h₁ : Evolves c { c with state := s', opened := d :: c.opened } :=
    Moved.evolves hm ((transferBalance_snd htr).imp (fun h => h.2) fun h => h.2.2.2)
      (subset_cons_self ..) (.inr (.inr (.inl mem_cons_self)))
  have hd : (s'.account d).isSome := (hm.isSome d).2 (.inr rfl)
  -- the nonce of the new account, and the reset of code that was there
  have h₂ : Quiet s' (if E.eip158ForkBlock ≤ env.number then s'.incNonce d else s') := by
    split
    · exact incNonce_quiet hd
    · exact Quiet.refl s'
  generalize (if E.eip158ForkBlock ≤ env.number then s'.incNonce d else s') = s'' at h₂ ⊢
  have hd'' : (s''.account d).isSome := (h₂.isSome d).2 hd
  have h₃ : Quiet s'' (if !hasInit && s''.addressHasCode d then s''.setNewCode d [] else s'') := by
    split
    · exact setNewCode_quiet hd''
    · exact Quiet.refl s''
  refine ⟨h₁.trans ?_, (h₃.isSome d).2 hd''⟩
  have e₂ := Quiet.evolves (c := { c with state := s', opened := d :: c.opened }) h₂
  exact e₂.trans (Quiet.evolves (c := { c with state := s'', opened := d :: c.opened }) h₃)

/-- **A frame that threw leaves the accounts as they were.** What it
recorded is all undone. -/
theorem revert_evolves (h : Evolves c₀ c) (l : List Address) :
    Evolves c₀ { c with
      state := c.state.rollback c₀.state.savepoint
      suicides := l
      undone := c₀.undone ++ c.state.transfers.drop c₀.state.transfers.length
      opened := c₀.opened } := by
  obtain ⟨ht, hl, hbelow⟩ := h.undoes.rollback
  have hbal : ∀ a, (c.state.rollback c₀.state.savepoint).balance a = c₀.state.balance a :=
    fun a => (hbelow a).getD.balance
  have hsome : ∀ a, ((c.state.rollback c₀.state.savepoint).account a).isSome ↔
      (c₀.state.account a).isSome := fun a => (hbelow a).isSome_iff
  refine ⟨h.undoes.rollback_undoes, h.stateUTXO, h.cacheUTXO, h.newAddress, ?_,
    h.deleteAddresses, refl _, fun a => (hsome a).2, fun a ha => .inl ((hsome a).1 ha),
    ?_⟩
  · obtain ⟨ts, us, hts, -, -⟩ := h.explained
    refine ⟨ts, ts, hts, ?_, fun a => ?_⟩
    · simp [hts]
    · simp only [hbal]
      exact Settles.undone _ _ _
  · intro hc a acc ha hun
    have hb := hbelow a
    rw [ha] at hb
    rw [ht]
    cases hca : c₀.state.account a with
    | none => rw [hca] at hb; cases hb
    | some acc₀ =>
      rw [hca] at hb
      cases hb with
      | some hb =>
        obtain ⟨acc₁, htrie, heq⟩ := hc a acc₀ hca (hb.unchanged hun)
        exact ⟨acc₁, htrie, heq.trans hb.balance.symm⟩

variable {isCreation : Bool}

/-- **The end of a frame**, whichever it is. -/
theorem close_evolves {my : Address} {ending : Ending}
    (h : Evolves c₀ c) (hmy : (c.state.account my).isSome)
    (hc : close c₀ my isCreation ending c = some c') : Evolves c₀ c' := by
  cases ending with
  | ret out =>
    obtain ⟨⟩ := hc
    have he : Evolves c
        { c with state := if isCreation then c.state.setNewCode my out else c.state } := by
      split
      · exact (setNewCode_quiet hmy).evolves
      · exact Evolves.refl c
    exact (h.trans he).with_suicides _
  | suicide dest =>
    simp only [close, map_eq_some_iff] at hc
    obtain ⟨c₁, ht, rfl⟩ := hc
    have he := transfer_noteUnused_evolves ht
    have he' : Evolves c₁
        { c₁ with state := if isCreation then c₁.state.setNewCode my [] else c₁.state } := by
      split
      · exact (setNewCode_quiet (he.stays my hmy)).evolves
      · exact Evolves.refl c₁
    exact ((h.trans he).trans he').with_suicides _
  | throw e =>
    obtain ⟨⟩ := hc
    exact revert_evolves h c₀.suicides

/-! ## Trees of frames -/

mutual

/-- One operation, with all the frames below it. -/
theorem execOp_evolves (f : Frame) (op : Op) {c c' : EvmConfig}
    (hmy : (c.state.account f.myAddress).isSome) (h : execOp E env f op c = some c') :
    Evolves c c' := by
  cases op with
  | sstore key value =>
    simp only [execOp, Option.some.injEq] at h
    obtain rfl := h
    exact (setStorage_quiet hmy).evolves
  | call kind codeAddress value outOfGas body ending =>
    simp only [execOp] at h
    -- which value is moved and who sends it does not matter here
    generalize (if kind = .delegatecall then (0 : U256) else value) = transferred at h
    generalize (if kind = .delegatecall then f.caller else f.myAddress) = sender at h
    have hreceive : (c.state.account codeAddress).isSome →
        (c.state.account (if kind = .call then codeAddress else f.myAddress)).isSome := by
      split <;> simp_all
    generalize (if kind = .call then codeAddress else f.myAddress) = receive at h hreceive
    split at h
    · obtain ⟨⟩ := h
      exact Evolves.refl _
    split at h
    · cases h
    · rename_i c₁ hcall
      obtain ⟨⟩ := h
      exact (call_evolves hcall).1
    · rename_i c₁ hcall
      obtain ⟨he, hs⟩ := call_evolves hcall
      have hs₁ := he.stays receive (hreceive (hs rfl))
      split at h
      · cases h
      · rename_i c₂ hbody
        have hb := execOps_evolves _ body (c := { c₁ with suicides := [] }) hs₁ hbody
        exact close_evolves ((he.with_suicides []).trans hb) (hb.stays _ hs₁) h
  | create hasInit body ending =>
    simp only [execOp] at h
    split at h
    · obtain ⟨⟩ := h
      exact Evolves.refl _
    have hn := (incNonce_quiet hmy).evolves (c := c)
    split at h
    · cases h
    · rename_i c₁ _ hcreate
      obtain ⟨⟩ := h
      exact hn.trans (create_evolves hcreate).1
    · rename_i c₁ newAddr hcreate
      obtain ⟨he, hs⟩ := create_evolves hcreate
      split at h
      · cases h
      · rename_i c₂ hbody
        have hb := execOps_evolves _ body (c := { c₁ with suicides := [] }) hs hbody
        exact hn.trans (close_evolves ((he.with_suicides []).trans hb) (hb.stays _ hs) h)

/-- **Every tree of frames evolves the configuration.** -/
theorem execOps_evolves (f : Frame) (ops : List Op) {c c' : EvmConfig}
    (hmy : (c.state.account f.myAddress).isSome) (h : execOps E env f ops c = some c') :
    Evolves c c' := by
  cases ops with
  | nil =>
    simp only [execOps, Option.some.injEq] at h
    exact h ▸ Evolves.refl c
  | cons op ops =>
    simp only [execOps] at h
    split at h
    · cases h
    · rename_i c₁ hop
      have h₁ := execOp_evolves f op hmy hop
      exact h₁.trans (execOps_evolves f ops (h₁.stays _ hmy) h)

end

/-! ## The executive never gets stuck

`subBalance` throws when the money is not there, an exception nothing
would catch. The tests in front of every transfer rule it out. -/

theorem subBalance_isSome (h : v ≤ s.balance src) :
    (s.subBalance src v).isSome := by
  unfold subBalance
  split
  · rfl
  rename_i hv
  cases hacc : s.account src with
  | none =>
    rw [balance_of_none hacc] at h
    exact absurd (BitVec.le_zero_iff.1 h) hv
  | some acc =>
    rw [balance_of_account hacc] at h
    simp [BitVec.not_lt.2 h]

theorem transferBalance_isSome (h : v ≤ s.balance src) :
    (s.transferBalance src dst v).isSome := by
  simpa [transferBalance] using subBalance_isSome h

theorem transfer_noteUnused_isSome (h : v ≤ c.state.balance src) :
    (transfer src dst v (noteUnused dst c)).isSome := by
  simpa [transfer] using transferBalance_isSome h

theorem call_isSome {outOfGas : Bool} (h : v ≤ c.state.balance sender) :
    (call E env sender receive codeAddress v outOfGas c).isSome := by
  unfold call
  split
  · split <;> rfl
  · simpa using transfer_noteUnused_isSome h

theorem create_isSome {nonce : ℕ} {hasInit : Bool}
    (h : v ≤ c.state.balance sender) : (create E env sender nonce v hasInit c).isSome := by
  simpa [create] using transferBalance_isSome h

theorem close_isSome {my : Address} {ending : Ending} :
    (close c₀ my isCreation ending c).isSome := by
  cases ending with
  | ret out => rfl
  | suicide dest => simpa [close] using transfer_noteUnused_isSome (BitVec.le_refl _)
  | throw e => rfl

mutual

theorem execOp_isSome (f : Frame) (op : Op) (c : EvmConfig) : (execOp E env f op c).isSome := by
  cases op with
  | sstore key value => rfl
  | call kind codeAddress value outOfGas body ending =>
    simp only [execOp]
    -- the caller of a delegate call pays nothing, everyone else pays for itself
    have hle : ¬ c.state.balance f.myAddress < (if kind = .delegatecall then (0 : U256) else value) →
        (if kind = .delegatecall then (0 : U256) else value) ≤
          c.state.balance (if kind = .delegatecall then f.caller else f.myAddress) := by
      by_cases hk : kind = .delegatecall
      · simp [hk, BitVec.le_def]
      · simp [hk]
    generalize (if kind = .delegatecall then (0 : U256) else value) = transferred at hle ⊢
    generalize (if kind = .delegatecall then f.caller else f.myAddress) = sender at hle ⊢
    generalize (if kind = .call then codeAddress else f.myAddress) = receive
    split
    · rfl
    rename_i hguard
    rw [not_or] at hguard
    split
    · rename_i hnone
      exact absurd hnone (isSome_iff_ne_none.1 (call_isSome (hle hguard.1)))
    · rfl
    rename_i c₁ _
    split
    · rename_i hnone
      have := execOps_isSome ⟨receive, sender, f.depth + 1⟩ body { c₁ with suicides := [] }
      rw [hnone] at this
      cases this
    · exact close_isSome
  | create hasInit body ending =>
    simp only [execOp]
    split
    · rfl
    split
    · rename_i hnone
      refine absurd hnone (isSome_iff_ne_none.1 (create_isSome ?_))
      simp [BitVec.le_def]
    · rfl
    · rename_i c₁ newAddr _
      split
      · rename_i hnone
        have := execOps_isSome ⟨newAddr, f.myAddress, f.depth + 1⟩ body
          { c₁ with suicides := [] }
        rw [hnone] at this
        cases this
      · exact close_isSome

/-- **No tree of frames makes a transfer throw.** -/
theorem execOps_isSome (f : Frame) (ops : List Op) (c : EvmConfig) :
    (execOps E env f ops c).isSome := by
  cases ops with
  | nil => rfl
  | cons op ops =>
    simp only [execOps]
    split
    · rename_i hnone
      have := execOp_isSome f op c
      rw [hnone] at this
      cases this
    · exact execOps_isSome f ops _

end

end Executive

end Slucore

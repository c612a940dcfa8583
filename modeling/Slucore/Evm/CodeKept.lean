import Slucore.Evm.Frames
/-!
# Evm — code stays where it is

What a tree of frames does to an account that is there already: its code
and its being alive survive, through rollbacks too, provided that no
creation lands on it. A rolled back creation resets the code of its
address to nothing, so the log is followed as well (`CodeKept.spared`).
Where creations land is a matter of hashes: `Unclaimed` says that no
creation still to come, of any creator from its present nonce on, is
given the address. Nonces never fall, so the property lasts.
-/


namespace Slucore

open List Option Function Account

namespace SilubiumState

variable {s s' s'' : SilubiumState} {a b d : Address} {v : U256}

/-- Undoing this entry leaves the code at `a`. -/
def SparesCode (a : Address) (k : Change) : Prop := k ≠ .newCode a ∧ k ≠ .create a

/-- There is code at `a`. -/
def HasCode (a : Address) (s : SilubiumState) : Prop := (s.entry a).code ≠ []

/-- What the cache has of `a` was written there, not copied from the trie. -/
def WrittenAt (a : Address) (s : SilubiumState) : Prop :=
  ∀ x, s.cache a = some x → x.isUnchanged = false

/-- The account at `a` is still there, with its code, alive if it was, and
nothing that was logged resets it. An account with code is never empty, so
it is never touched and never made to look unchanged. -/
structure CodeKept (a : Address) (s s' : SilubiumState) : Prop where
  trie : s'.trie = s.trie
  inUse : (s'.account a).isSome
  code : (s'.entry a).code = (s.entry a).code
  isAlive : (s'.entry a).isAlive = (s.entry a).isAlive
  spared : ∃ log, s'.changeLog = log ++ s.changeLog ∧
    ∀ k ∈ log, SparesCode a k ∧ (HasCode a s → k ≠ .touch a)
  written : HasCode a s → WrittenAt a s → WrittenAt a s'

theorem CodeKept.refl (h : (s.account a).isSome) : CodeKept a s s :=
  ⟨rfl, h, rfl, rfl, ⟨[], rfl, by simp⟩, fun _ => id⟩

theorem CodeKept.hasCode (h : CodeKept a s s') : HasCode a s' ↔ HasCode a s := by
  unfold HasCode
  rw [h.code]

theorem CodeKept.trans (h : CodeKept a s s') (h' : CodeKept a s' s'') : CodeKept a s s'' := by
  obtain ⟨log, hlog, hsp⟩ := h.spared
  obtain ⟨log', hlog', hsp'⟩ := h'.spared
  refine ⟨h'.trie.trans h.trie, h'.inUse, h'.code.trans h.code, h'.isAlive.trans h.isAlive,
    ⟨log' ++ log, by rw [hlog', hlog, List.append_assoc], fun k hk => ?_⟩, fun hc hw => ?_⟩
  · rcases mem_append.1 hk with hk | hk
    · exact ⟨(hsp' k hk).1, fun hc => (hsp' k hk).2 (h.hasCode.2 hc)⟩
    · exact hsp k hk
  · exact h'.written (h.hasCode.2 hc) (h.written hc hw)

/-- What is found in a cache over a trie. -/
def foundIn (trie cache : Address → Option Account) (a : Address) : Account :=
  ((cache a).or (trie a)).getD Account.dead

variable {k : Change}

/-- Undoing an entry that spares the code. -/
theorem foundIn_undoChange (trie cache : Address → Option Account) (h : SparesCode a k) :
    (foundIn trie (undoChange trie k cache) a).code = (foundIn trie cache a).code ∧
      (foundIn trie (undoChange trie k cache) a).isAlive = (foundIn trie cache a).isAlive := by
  unfold foundIn
  cases k with
  | storage b key value =>
    simp only [undoChange, find_update]
    split <;> simp_all [Account.setStorage]
  | balance b value =>
    simp only [undoChange, find_update]
    split <;> simp_all [Account.addBalance]
  | nonce b =>
    simp only [undoChange, find_update]
    split <;> simp_all [setNonce]
  | create b =>
    have hne : a ≠ b := fun he => h.2 (he ▸ rfl)
    simp [undoChange, hne]
  | newCode b =>
    have hne : a ≠ b := fun he => h.1 (he ▸ rfl)
    simp [undoChange, hne]
  | touch b =>
    simp only [undoChange, find_update]
    split <;> simp_all [untouch]

variable {log : List Change}

theorem foundIn_undoAll (trie cache : Address → Option Account) (h : ∀ k ∈ log, SparesCode a k) :
    (foundIn trie (undoAll (undoChange trie) log cache) a).code = (foundIn trie cache a).code ∧
      (foundIn trie (undoAll (undoChange trie) log cache) a).isAlive =
        (foundIn trie cache a).isAlive := by
  induction log generalizing cache with
  | nil => exact ⟨rfl, rfl⟩
  | cons k log ih =>
    obtain ⟨hc, ha⟩ := foundIn_undoChange trie cache (h k (by simp))
    obtain ⟨hc', ha'⟩ := ih (undoChange trie k cache) fun k' hk' => h k' (by simp [hk'])
    exact ⟨hc'.trans hc, ha'.trans ha⟩

variable {trie cache : Address → Option Account}

/-- An account that is there is not undone away. -/
theorem isSome_undoAll (h : ∀ k ∈ log, SparesCode a k) (hs : ((cache a).or (trie a)).isSome) :
    ((undoAll (undoChange trie) log cache a).or (trie a)).isSome := by
  induction log generalizing cache with
  | nil => exact hs
  | cons k log ih =>
    refine @ih (undoChange trie k cache) (fun k' hk' => h k' (by simp [hk'])) ?_
    have hk := h k (by simp)
    cases k with
    | create b =>
      have hne : a ≠ b := fun he => hk.2 (he ▸ rfl)
      simpa [undoChange, hne] using hs
    | storage | balance | nonce | newCode | touch =>
      simp only [undoChange, find_update]
      split
      · rfl
      · exact hs

/-- Undoing leaves an entry that was written looking written, unless a touch
is undone. -/
theorem written_undoChange (h : SparesCode a k) (ht : k ≠ .touch a)
    (hw : ∀ x, cache a = some x → x.isUnchanged = false) :
    ∀ x, undoChange trie k cache a = some x → x.isUnchanged = false := by
  -- an entry is rewritten by an operation that marks it, or is another one
  have hupd : ∀ {b : Address} {acc : Account}, (a = b → acc.isUnchanged = false) →
      ∀ x, Function.update cache b (some acc) a = some x → x.isUnchanged = false := by
    intro b acc hacc x hx
    by_cases hab : a = b
    · subst hab
      rw [update_self] at hx
      exact Option.some.inj hx ▸ hacc rfl
    · rw [update_of_ne hab] at hx
      exact hw x hx
  cases k with
  | storage b key value => exact hupd fun _ => rfl
  | balance b value => exact hupd fun _ => rfl
  | nonce b => exact hupd fun _ => rfl
  | create b =>
    have hne : a ≠ b := fun he => h.2 (he ▸ rfl)
    simpa [undoChange, hne] using hw
  | newCode b => exact hupd fun hab => absurd (hab ▸ rfl) h.1
  | touch b => exact hupd fun hab => absurd (hab ▸ rfl) ht

theorem written_undoAll (h : ∀ k ∈ log, SparesCode a k) (ht : ∀ k ∈ log, k ≠ .touch a)
    (hw : ∀ x, cache a = some x → x.isUnchanged = false) :
    ∀ x, undoAll (undoChange trie) log cache a = some x → x.isUnchanged = false := by
  induction log generalizing cache with
  | nil => exact hw
  | cons k log ih =>
    exact ih (fun k' hk' => h k' (by simp [hk'])) (fun k' hk' => ht k' (by simp [hk']))
      (written_undoChange (h k (by simp)) (ht k (by simp)) hw)

/-- **A rollback keeps the code of an account that was there.** -/
theorem CodeKept.rollback (h : CodeKept a s s') : CodeKept a s (s'.rollback s.savepoint) := by
  obtain ⟨log, hlog, hsp⟩ := h.spared
  have hunwind : unwind (undoChange s'.trie.find) s.savepoint s'.changeLog s'.cache =
      (s.changeLog, undoAll (undoChange s'.trie.find) log s'.cache) := by
    rw [hlog, savepoint, unwind_append]
  have hcache : (s'.rollback s.savepoint).cache =
      undoAll (undoChange s'.trie.find) log s'.cache := congrArg Prod.snd hunwind
  have hl : (s'.rollback s.savepoint).changeLog = s.changeLog := congrArg Prod.fst hunwind
  obtain ⟨hc, ha⟩ := foundIn_undoAll s'.trie.find s'.cache
    fun k hk => (hsp k hk).1
  have hentry : (s'.rollback s.savepoint).entry a =
      foundIn s'.trie.find (undoAll (undoChange s'.trie.find) log s'.cache) a := by
    rw [← hcache]
    rfl
  refine ⟨h.trie, ?_, ?_, ?_, ⟨[], by rw [hl]; rfl, by simp⟩, ?_⟩
  · rw [SilubiumState.account, hcache]
    exact isSome_undoAll (fun k hk => (hsp k hk).1) h.inUse
  · rw [hentry, hc]
    exact h.code
  · rw [hentry, ha]
    exact h.isAlive
  intro hcode hw
  unfold WrittenAt
  rw [hcache]
  exact written_undoAll (fun k hk => (hsp k hk).1) (fun k hk => (hsp k hk).2 hcode)
    (h.written hcode hw)

/-! ## One address -/

/-- Undoing is sound at one address on its own. -/
def cacheOrderAt (a : Address) (trie : Address → Option Account) : UndoOrder (undoChange trie) where
  r x y := FoundBelow ((x a).or (trie a)) ((y a).or (trie a))
  refl x := FoundBelow.refl _
  trans h h' := h.trans h'
  mono := by
    intro k x y h
    have hd := h.getD
    cases k <;> simp only [undoChange, find_update] <;> split <;>
      first | exact h | (rename_i hab; subst hab; simp only [some_or, none_or])
    case storage key value => exact .some (hd.setStorage key value)
    case balance value => exact .some (hd.addBalance _)
    case nonce => rw [hd.nonce]; exact .some (hd.setNonce _)
    case create => exact FoundBelow.refl _
    case newCode => exact .some hd.resetCode
    case touch => exact .some hd.untouch

/-- What was logged since `s` undoes what was done at `a`. -/
def UndoesAt (a : Address) (s s' : SilubiumState) : Prop :=
  s'.trie = s.trie ∧
    (cacheOrderAt a s.trie.find).Undoes s.changeLog s.cache s'.changeLog s'.cache

theorem Undoes.undoesAt (h : s.Undoes s') : UndoesAt a s s' := by
  obtain ⟨ht, entries, hlog, hr⟩ := h
  exact ⟨ht, entries, hlog, hr a⟩

theorem UndoesAt.trans (h : UndoesAt a s s') (h' : UndoesAt a s' s'') : UndoesAt a s s'' := by
  obtain ⟨ht, hu⟩ := h
  obtain ⟨ht', hu'⟩ := h'
  rw [ht] at hu'
  exact ⟨ht'.trans ht, hu.trans hu'⟩

/-- A change elsewhere that is not logged. -/
theorem undoesAt_of_cache (ht : s'.trie = s.trie) (hl : s'.changeLog = s.changeLog)
    (hc : s'.cache a = s.cache a) : UndoesAt a s s' := by
  refine ⟨ht, ?_⟩
  rw [hl]
  refine UndoOrder.undoes_of_le (show FoundBelow _ _ from ?_)
  rw [hc]
  exact FoundBelow.refl _

theorem UndoesAt.rollback (h : UndoesAt a s s') :
    FoundBelow ((s'.rollback s.savepoint).account a) (s.account a) := by
  obtain ⟨ht, hu⟩ := h
  have hbelow : FoundBelow _ _ := (unwind_of_undoes hu).2
  simp only [SilubiumState.rollback, ht]
  exact hbelow

/-! ## One change -/

variable {acc : Account}

theorem entry_write :
    (s.write b acc log).entry a = if a = b then acc else s.entry a := by
  simp only [entry, account_write]
  split <;> rfl

theorem codeKept_write (acc : Account) (log : List Change) (hs : (s.account a).isSome)
    (hlog : ∀ k ∈ log, SparesCode a k ∧ (HasCode a s → k ≠ .touch a))
    (hacc : a = b → acc.code = (s.entry a).code ∧ acc.isAlive = (s.entry a).isAlive ∧
      acc.isUnchanged = false) :
    CodeKept a s (s.write b acc log) := by
  refine ⟨rfl, ?_, ?_, ?_, ⟨log, rfl, hlog⟩, fun _ hw x hx => ?_⟩
  · rw [account_write]
    split
    · rfl
    · exact hs
  · rw [entry_write]
    split
    · exact (hacc ‹_›).1
    · rfl
  · rw [entry_write]
    split
    · exact (hacc ‹_›).2.1
    · rfl
  · simp only [write] at hx
    by_cases hab : a = b
    · rw [hab, update_self] at hx
      exact Option.some.inj hx ▸ (hacc hab).2.2
    · rw [update_of_ne hab] at hx
      exact hw x hx

theorem entry_of_account (h : s.account a = some acc) : s.entry a = acc := by
  rw [entry, h]
  rfl

theorem sparesCode_logBalance (h : k ∈ logBalance b v) :
    SparesCode a k ∧ k ≠ .touch a := by
  unfold logBalance at h
  split at h
  · cases h
  · obtain rfl := mem_singleton.1 h
    exact ⟨⟨by simp, by simp⟩, by simp⟩

/-- **A payment keeps the code of every account that was there.** -/
theorem addBalance_codeKept (hs : (s.account a).isSome) : CodeKept a s (s.addBalance b v).1 := by
  rcases addBalance_cases s b v with ⟨acc, hacc, h⟩ | ⟨d, n, hd, -, -, h⟩ <;> rw [h]
  · refine codeKept_write _ _ hs (fun k hk => ?_) fun h => ?_
    · rcases mem_append.1 hk with hk | hk
      · exact ⟨(sparesCode_logBalance hk).1, fun _ => (sparesCode_logBalance hk).2⟩
      split at hk
      · rename_i hempty
        obtain rfl := mem_singleton.1 hk
        refine ⟨⟨by simp, by simp⟩, fun hcode heq => hcode ?_⟩
        obtain rfl : b = a := by simpa using heq
        rw [entry_of_account hacc]
        simp only [Account.isEmpty, Bool.and_eq_true, List.isEmpty_iff] at hempty
        exact hempty.2.2
      · cases hk
    · rw [h, entry_of_account hacc]
      exact ⟨rfl, rfl, rfl⟩
  · -- an account that is created is not one that was there
    have hne : a ≠ d := by
      rintro rfl
      rw [hd] at hs
      cases hs
    have hk := codeKept_write (s := { s with newAddress := n }) (b := d) (fresh 0 v)
      (logBalance d v ++ [.create d]) hs (fun k hk => ?_) fun h => absurd h hne
    · exact ⟨hk.trie, hk.inUse, hk.code, hk.isAlive, hk.spared, hk.written⟩
    rcases mem_append.1 hk with h | h
    · exact ⟨(sparesCode_logBalance h).1, fun _ => (sparesCode_logBalance h).2⟩
    · obtain rfl := mem_singleton.1 h
      exact ⟨⟨by simp, by simpa using Ne.symm hne⟩, fun _ => by simp⟩

theorem subBalance_codeKept (hs : (s.account a).isSome) (h : s.subBalance b v = some s') :
    CodeKept a s s' := by
  rcases subBalance_cases h with ⟨-, rfl⟩ | ⟨-, -, rfl⟩
  · exact .refl hs
  · exact addBalance_codeKept hs

/-- A change of the list of transfers is none of the accounts. -/
theorem CodeKept.with_transfers (h : CodeKept a s s') (ts : List TransferInfo) :
    CodeKept a s { s' with transfers := ts } :=
  ⟨h.trie, h.inUse, h.code, h.isAlive, h.spared, h.written⟩

theorem transferBalance_codeKept {src dst : Address} (hs : (s.account a).isSome)
    (h : s.transferBalance src dst v = some (s', d)) : CodeKept a s s' := by
  unfold transferBalance at h
  simp only [map_eq_some_iff] at h
  obtain ⟨s₁, hsub, heq⟩ := h
  have h₁ := subBalance_codeKept hs hsub
  have h₂ := h₁.trans (addBalance_codeKept (b := dst) (v := v) h₁.inUse)
  obtain ⟨rfl, -⟩ := Prod.mk.inj heq
  split
  · exact h₂
  · exact h₂.with_transfers _

theorem incNonce_codeKept (hs : (s.account a).isSome) (hb : (s.account b).isSome) :
    CodeKept a s (s.incNonce b) := by
  obtain ⟨acc, hacc⟩ := isSome_iff_exists.1 hb
  simp only [incNonce, hacc]
  refine codeKept_write _ _ hs (fun k hk => ?_) fun h => ?_
  · obtain rfl := mem_singleton.1 hk
    exact ⟨⟨by simp, by simp⟩, fun _ => by simp⟩
  · rw [h, entry_of_account hacc]
    exact ⟨rfl, rfl, rfl⟩

theorem setStorage_codeKept {key value : ℕ} (hs : (s.account a).isSome) :
    CodeKept a s (s.setStorage b key value) := by
  refine codeKept_write _ _ hs (fun k hk => ?_) fun h => ?_
  · obtain rfl := mem_singleton.1 hk
    exact ⟨⟨by simp, by simp⟩, fun _ => by simp⟩
  · rw [h]
    exact ⟨rfl, rfl, rfl⟩

variable {code : List UInt8}

theorem setNewCode_codeKept (hs : (s.account a).isSome) (hne : a ≠ b) :
    CodeKept a s (s.setNewCode b code) := by
  refine codeKept_write _ _ hs (fun k hk => ?_) fun h => absurd h hne
  obtain rfl := mem_singleton.1 hk
  exact ⟨⟨by simpa using Ne.symm hne, by simp⟩, fun _ => by simp⟩

/-! ## Nonces -/

/-- No nonce has fallen. -/
def NoncesGrow (s s' : SilubiumState) : Prop := ∀ x, s.getNonce x ≤ s'.getNonce x

theorem getNonce_write :
    (s.write b acc log).getNonce a = if a = b then acc.nonce else s.getNonce a := by
  rw [getNonce, entry_write]
  split <;> rfl

theorem getNonce_of_account (h : s.account a = some acc) :
    s.getNonce a = acc.nonce := by
  rw [getNonce, entry_of_account h]

theorem getNonce_of_none (h : s.account a = none) : s.getNonce a = 0 := by
  rw [getNonce, entry, h]
  rfl

/-- A payment changes no nonce: a new account starts at zero. -/
theorem addBalance_nonces : (s.addBalance b v).1.getNonce = s.getNonce := by
  funext x
  rcases addBalance_cases s b v with ⟨acc, hacc, h⟩ | ⟨d, n, hd, -, -, h⟩ <;>
    rw [h, getNonce_write] <;> split
  · rename_i h
    rw [h, getNonce_of_account hacc]
    rfl
  · rfl
  · rename_i h
    rw [h, getNonce_of_none hd]
    rfl
  · rfl

theorem subBalance_nonces (h : s.subBalance b v = some s') : s'.getNonce = s.getNonce := by
  rcases subBalance_cases h with ⟨-, rfl⟩ | ⟨-, -, rfl⟩
  · rfl
  · exact addBalance_nonces

theorem transferBalance_nonces {src dst : Address}
    (h : s.transferBalance src dst v = some (s', d)) : s'.getNonce = s.getNonce := by
  unfold transferBalance at h
  simp only [map_eq_some_iff] at h
  obtain ⟨s₁, hsub, heq⟩ := h
  obtain ⟨rfl, -⟩ := Prod.mk.inj heq
  rw [← subBalance_nonces hsub, ← addBalance_nonces (s := s₁) (b := dst) (v := v)]
  split <;> rfl

theorem incNonce_nonces : NoncesGrow s (s.incNonce b) := by
  intro x
  unfold incNonce
  split
  · rename_i acc hacc
    rw [getNonce_write]
    split
    · rename_i h
      rw [h, getNonce_of_account hacc]
      exact Nat.le_succ _
    · exact le_rfl
  · rename_i hacc
    rw [createAccount, getNonce_write]
    split
    · rename_i h
      rw [h, getNonce_of_none hacc]
      exact Nat.zero_le _
    · exact le_rfl

theorem setStorage_nonces {key value : ℕ} : (s.setStorage b key value).getNonce = s.getNonce := by
  funext x
  rw [setStorage, getNonce_write]
  split
  · rename_i h
    rw [h]
    rfl
  · rfl

theorem setNewCode_nonces : (s.setNewCode b code).getNonce = s.getNonce := by
  funext x
  rw [setNewCode, getNonce_write]
  split
  · rename_i h
    rw [h]
    rfl
  · rfl

/-- A rollback takes the nonces back to what they were at the savepoint. -/
theorem rollback_nonces (h : s.Undoes s') :
    (s'.rollback s.savepoint).getNonce = s.getNonce := by
  funext x
  exact (h.rollback.2.2 x).getD.nonce

end SilubiumState

/-! ## Trees of frames -/

namespace Executive

open SilubiumState

variable {E : EvmEnv} {env : EnvInfo} {c c' c'' c₀ : EvmConfig} {a src dst : Address} {v : U256}

/-- No creation still to come is given the address `a`. -/
def Unclaimed (E : EvmEnv) (a : Address) (s : SilubiumState) : Prop :=
  ∀ creator n, s.getNonce creator ≤ n → E.contractAddress creator n ≠ a

variable {s s' : SilubiumState}

theorem Unclaimed.mono (h : Unclaimed E a s) (hn : NoncesGrow s s') :
    Unclaimed E a s' :=
  fun creator n hle => h creator n ((hn creator).trans hle)

/-- Nonces grow, the code at `a` is kept, and what is noted for deletion is
new to the trie. -/
structure Guards (a : Address) (c c' : EvmConfig) : Prop where
  nonces : NoncesGrow c.state c'.state
  code : CodeKept a c.state c'.state
  noted : ∀ x ∈ c'.deleteAddresses, x ∈ c.deleteAddresses ∨ c.state.trie.find x = none

namespace Guards

theorem refl (hs : (c.state.account a).isSome) : Guards a c c :=
  ⟨fun _ => le_rfl, .refl hs, fun _ => .inl⟩

theorem trans (h : Guards a c c') (h' : Guards a c' c'') : Guards a c c'' := by
  refine ⟨fun x => (h.nonces x).trans (h'.nonces x), h.code.trans h'.code, fun x hx => ?_⟩
  rcases h'.noted x hx with hx | hx
  · exact h.noted x hx
  · exact .inr (h.code.trie ▸ hx)

/-- Only the state and what is noted matter. -/
theorem of_state (h : Guards a c c') (c'' : EvmConfig) (hs : c''.state = c'.state)
    (hD : c''.deleteAddresses = c'.deleteAddresses) : Guards a c c'' :=
  ⟨hs ▸ h.nonces, hs ▸ h.code, hD ▸ h.noted⟩

/-- A step that changes no nonce and notes nothing. -/
theorem of_eq (hn : c'.state.getNonce = c.state.getNonce) (hk : CodeKept a c.state c'.state)
    (hD : c'.deleteAddresses = c.deleteAddresses) : Guards a c c' :=
  ⟨fun x => by rw [hn], hk, fun _ hx => .inl (hD ▸ hx)⟩

end Guards

theorem noteUnused_noted {x : Address} (h : x ∈ (noteUnused dst c).deleteAddresses) :
    x ∈ c.deleteAddresses ∨ c.state.trie.find x = none := by
  unfold noteUnused at h
  split at h
  · exact .inl h
  rename_i hunused
  rcases mem_cons.1 h with rfl | h
  · have hnone : c.state.account x = none := by simpa [addressInUse] using hunused
    exact .inr (or_eq_none_iff.1 hnone).2
  · exact .inl h

theorem transfer_noteUnused_guards (hs : (c.state.account a).isSome)
    (h : transfer src dst v (noteUnused dst c) = some c') : Guards a c c' := by
  unfold transfer at h
  simp only [map_eq_some_iff, Prod.exists] at h
  obtain ⟨s', d, htr, rfl⟩ := h
  rw [noteUnused_state] at htr
  exact ⟨fun x => by rw [transferBalance_nonces htr], transferBalance_codeKept hs htr,
    fun _ => noteUnused_noted⟩

theorem call_guards {sender receive codeAddress : Address} {outOfGas b : Bool}
    (hs : (c.state.account a).isSome)
    (h : call E env sender receive codeAddress v outOfGas c = some (c', b)) : Guards a c c' := by
  unfold call at h
  split at h
  · split at h
    · obtain ⟨⟩ := h
      exact .of_eq addBalance_nonces (addBalance_codeKept hs) rfl
    · obtain ⟨⟩ := h
      exact Guards.refl hs
  · simp only [map_eq_some_iff] at h
    obtain ⟨c₁, ht, rfl, rfl⟩ := h
    exact transfer_noteUnused_guards hs ht

/-- An account that is there is paid only by payments that ask for it. -/
theorem addBalance_snd_eq {b : Address} (hs : (s.account a).isSome)
    (h : (s.addBalance b v).2 = a) : b = a := by
  rcases addBalance_cases s b v with ⟨acc, -, heq⟩ | ⟨d, n, hd, -, -, heq⟩ <;> rw [heq] at h
  · exact h
  · obtain rfl : d = a := h
    rw [hd] at hs
    cases hs

theorem transferBalance_snd_eq (hs : (s.account a).isSome)
    (h : s.transferBalance src dst v = some (s', a)) : dst = a := by
  unfold transferBalance at h
  simp only [map_eq_some_iff] at h
  obtain ⟨s₁, hsub, heq⟩ := h
  obtain ⟨-, ha⟩ := Prod.mk.inj heq
  exact addBalance_snd_eq ((subBalance_codeKept hs hsub).inUse) ha

/-- A creation, up to the point where the initialisation code would run. It
lands on an account that is there only if its hash says so. -/
theorem create_guards {sender newAddr : Address} {nonce : ℕ} {hasInit b : Bool}
    (hs : (c.state.account a).isSome) (hne : E.contractAddress sender nonce ≠ a)
    (h : create E env sender nonce v hasInit c = some (c', newAddr, b)) :
    Guards a c c' ∧ newAddr ≠ a := by
  unfold create at h
  simp only [map_eq_some_iff, Prod.exists, Prod.mk.injEq] at h
  obtain ⟨s', d, htr, rfl, rfl, -⟩ := h
  have hd : (s'.account d).isSome := ((transferBalance_moved htr).isSome d).2 (.inr rfl)
  have hda : d ≠ a := by
    rintro rfl
    exact hne (transferBalance_snd_eq hs htr)
  have hn₁ : s'.getNonce = c.state.getNonce := transferBalance_nonces htr
  have hk₁ := transferBalance_codeKept hs htr
  -- the nonce of the new account, and the reset of code that was there
  have hn₂ : NoncesGrow s' (if E.eip158ForkBlock ≤ env.number then s'.incNonce d else s') := by
    split
    · exact incNonce_nonces
    · exact fun _ => le_rfl
  have hk₂ : CodeKept a c.state
      (if E.eip158ForkBlock ≤ env.number then s'.incNonce d else s') := by
    split
    · exact hk₁.trans (incNonce_codeKept hk₁.inUse hd)
    · exact hk₁
  generalize (if E.eip158ForkBlock ≤ env.number then s'.incNonce d else s') = s'' at hn₂ hk₂ ⊢
  refine ⟨⟨fun x => ?_, ?_, fun _ => .inl⟩, hda⟩
  · rw [← hn₁]
    refine (hn₂ x).trans (le_of_eq ?_)
    split
    · rw [setNewCode_nonces]
    · rfl
  · split
    · exact hk₂.trans (setNewCode_codeKept hk₂.inUse (Ne.symm hda))
    · exact hk₂

variable {isCreation : Bool}

/-- The code a creation deploys is not that of `a`. -/
theorem deploy_guards {my : Address} {code : List UInt8} {x : EvmConfig}
    (hg : Guards a c₀ c) (hmy : isCreation = true → my ≠ a)
    (hx : x.state = if isCreation then c.state.setNewCode my code else c.state)
    (hD : x.deleteAddresses = c.deleteAddresses) : Guards a c₀ x := by
  cases hcr : isCreation with
  | false =>
    rw [hcr] at hx
    exact hg.of_state _ hx hD
  | true =>
    rw [hcr, if_pos rfl] at hx
    refine hg.trans (.of_eq ?_ ?_ hD)
    · rw [hx, setNewCode_nonces]
    · rw [hx]
      exact setNewCode_codeKept hg.code.inUse (Ne.symm (hmy hcr))

/-- **The end of a frame**, of a call or of a creation elsewhere. -/
theorem close_guards {my : Address} {ending : Ending} (hev : Evolves c₀ c) (hg : Guards a c₀ c)
    (hmy : isCreation = true → my ≠ a) (hc : close c₀ my isCreation ending c = some c') :
    Guards a c₀ c' := by
  cases ending with
  | ret out =>
    obtain ⟨⟩ := hc
    exact deploy_guards hg hmy rfl rfl
  | suicide dest =>
    simp only [close, map_eq_some_iff] at hc
    obtain ⟨c₁, ht, rfl⟩ := hc
    exact deploy_guards (hg.trans (transfer_noteUnused_guards hg.code.inUse ht)) hmy rfl rfl
  | throw e =>
    obtain ⟨⟩ := hc
    exact ⟨fun x => le_of_eq (congrFun (rollback_nonces hev.undoes) x).symm,
      hg.code.rollback, hg.noted⟩

mutual

/-- One operation, with all the frames below it. -/
theorem execOp_guards (f : Frame) (op : Op) {c c' : EvmConfig}
    (hmy : (c.state.account f.myAddress).isSome) (hs : (c.state.account a).isSome)
    (hun : Unclaimed E a c.state) (h : execOp E env f op c = some c') : Guards a c c' := by
  cases op with
  | sstore key value =>
    simp only [execOp, Option.some.injEq] at h
    obtain rfl := h
    exact .of_eq setStorage_nonces (setStorage_codeKept hs) rfl
  | call kind codeAddress value outOfGas body ending =>
    simp only [execOp] at h
    generalize (if kind = .delegatecall then (0 : U256) else value) = transferred at h
    generalize (if kind = .delegatecall then f.caller else f.myAddress) = sender at h
    have hreceive : (c.state.account codeAddress).isSome →
        (c.state.account (if kind = .call then codeAddress else f.myAddress)).isSome := by
      split <;> simp_all
    generalize (if kind = .call then codeAddress else f.myAddress) = receive at h hreceive
    split at h
    · exact Option.some.inj h ▸ Guards.refl hs
    split at h
    · cases h
    · rename_i c₁ hcall
      exact Option.some.inj h ▸ call_guards hs hcall
    rename_i c₁ hcall
    obtain ⟨he, hcode⟩ := call_evolves hcall
    have hs₁ := he.stays receive (hreceive (hcode rfl))
    have hg₁ : Guards a c { c₁ with suicides := [] } := (call_guards hs hcall).of_state _ rfl rfl
    split at h
    · cases h
    rename_i c₂ hbody
    have hb := execOps_evolves _ body (c := { c₁ with suicides := [] }) hs₁ hbody
    have hg := execOps_guards _ body (c := { c₁ with suicides := [] }) hs₁ hg₁.code.inUse
      (hun.mono hg₁.nonces) hbody
    exact close_guards ((he.with_suicides []).trans hb) (hg₁.trans hg)
      (fun h => by cases h) h
  | create hasInit body ending =>
    simp only [execOp] at h
    split at h
    · exact Option.some.inj h ▸ Guards.refl hs
    have hg₀ : Guards a c { c with state := c.state.incNonce f.myAddress } :=
      ⟨incNonce_nonces, incNonce_codeKept hs hmy, fun _ => .inl⟩
    -- the address is computed with the nonce before it was raised
    have hne := hun f.myAddress _ le_rfl
    split at h
    · cases h
    · rename_i c₁ _ hcreate
      exact Option.some.inj h ▸ hg₀.trans (create_guards hg₀.code.inUse hne hcreate).1
    rename_i c₁ newAddr hcreate
    obtain ⟨he, hs₁⟩ := create_evolves hcreate
    obtain ⟨hg₁, hnew⟩ := create_guards hg₀.code.inUse hne hcreate
    have hg₁' := hg₁.of_state { c₁ with suicides := [] } rfl rfl
    split at h
    · cases h
    rename_i c₂ hbody
    have hb := execOps_evolves _ body (c := { c₁ with suicides := [] }) hs₁ hbody
    have hg := execOps_guards _ body (c := { c₁ with suicides := [] }) hs₁ hg₁'.code.inUse
      (hun.mono (hg₀.trans hg₁').nonces) hbody
    exact hg₀.trans (close_guards ((he.with_suicides []).trans hb) (hg₁'.trans hg)
      (fun _ => hnew) h)

/-- **Every tree of frames keeps the code that no creation claims.** -/
theorem execOps_guards (f : Frame) (ops : List Op) {c c' : EvmConfig}
    (hmy : (c.state.account f.myAddress).isSome) (hs : (c.state.account a).isSome)
    (hun : Unclaimed E a c.state) (h : execOps E env f ops c = some c') : Guards a c c' := by
  cases ops with
  | nil =>
    simp only [execOps, Option.some.injEq] at h
    exact h ▸ Guards.refl hs
  | cons op ops =>
    simp only [execOps] at h
    split at h
    · cases h
    rename_i c₁ hop
    have h₁ := execOp_evolves f op hmy hop
    have hg := execOp_guards f op hmy hs hun hop
    exact hg.trans (execOps_guards f ops (h₁.stays _ hmy) hg.code.inUse (hun.mono hg.nonces) h)

end

end Executive

end Slucore

import Slucore.Evm.Rollback
import Slucore.Common.Books
/-!
# Evm — what one payment does

The spec lemmas of the operations a frame performs on the state, each
stating the whole effect: which accounts there are afterwards, their
balances, the transfers recorded, and that the log undoes it. An account
that has to be created may be created at `newAddress` instead
(`addBalance_snd`); a state is `Clean` when an account that reads as
unchanged has the balance the trie has.
-/


namespace Slucore

/-- The value an address received in a list of transfers. -/
def inflow (ts : List TransferInfo) (a : Address) : ℕ :=
  keyedSum TransferInfo.dst (fun t => t.value.toNat) ts a

/-- The value an address sent in a list of transfers. -/
def outflow (ts : List TransferInfo) (a : Address) : ℕ :=
  keyedSum TransferInfo.src (fun t => t.value.toNat) ts a

namespace SilubiumState

variable {s s' s'' : SilubiumState} {a b d src dst : Address} {v : U256}

/-- What reads as unchanged is what the trie has. -/
def Clean (s : SilubiumState) : Prop :=
  ∀ a acc, s.account a = some acc → acc.isUnchanged = true →
    ∃ acc₀, s.trie.find a = some acc₀ ∧ acc₀.balance = acc.balance

/-- A payment of `v` into `d`: the account is there afterwards and dirty,
and everything else is as it was. -/
structure Paid (s s' : SilubiumState) (d : Address) (v : U256) : Prop where
  undoes : s.Undoes s'
  stateUTXO : s'.stateUTXO = s.stateUTXO
  cacheUTXO : s'.cacheUTXO = s.cacheUTXO
  transfers : s'.transfers = s.transfers
  account : ∃ acc, acc.balance = s.balance d + v ∧ acc.isUnchanged = false ∧
    ∀ b, s'.account b = if b = d then some acc else s.account b

theorem balance_of_account {acc : Account} (h : s.account a = some acc) :
    s.balance a = acc.balance := by
  simp [balance, entry, h]

theorem balance_of_none (h : s.account a = none) : s.balance a = 0 := by
  simp [balance, entry, h, Account.dead]

theorem isSome_of_trie (h : (s.trie.find a).isSome) : (s.account a).isSome := by
  simp [SilubiumState.account, h]

/-- **`addBalance` pays into the address it returns.** -/
theorem addBalance_paid : Paid s (s.addBalance a v).1 (s.addBalance a v).2 v := by
  have hu := addBalance_undoes (s := s) (a := a) (v := v)
  rcases addBalance_cases s a v with ⟨acc, hacc, h⟩ | ⟨d, n, hd, -, -, h⟩ <;> rw [h] at hu ⊢
  · refine ⟨hu, rfl, rfl, rfl, _, ?_, rfl, fun b => account_write⟩
    simp [Account.addBalance, balance_of_account hacc]
  · refine ⟨hu, rfl, rfl, rfl, _, ?_, rfl, fun b => account_write⟩
    simp [balance_of_none hd, Account.fresh]

/-- An account that is there is paid where it is. -/
theorem addBalance_snd_of_isSome (h : (s.account a).isSome) :
    (s.addBalance a v).2 = a ∧ (s.addBalance a v).1.newAddress = s.newAddress := by
  obtain ⟨acc, hacc⟩ := Option.isSome_iff_exists.1 h
  simp [addBalance, hacc, write]

/-- **Where a payment goes:** where it is asked for, or, once, to
`newAddress` when the account would have to be created. -/
theorem addBalance_snd (s : SilubiumState) (a : Address) (v : U256) :
    ((s.addBalance a v).2 = a ∧ (s.addBalance a v).1.newAddress = s.newAddress) ∨
      (s.account a = none ∧ (s.addBalance a v).2 = s.newAddress ∧ s.newAddress ≠ 0 ∧
        (s.addBalance a v).1.newAddress = 0) := by
  rcases addBalance_cases s a v with ⟨acc, -, h⟩ | ⟨d, n, -, hacc, hd | hd, h⟩ <;> rw [h]
  · exact .inl ⟨rfl, rfl⟩
  · exact .inl hd
  · exact .inr ⟨hacc, hd.1, hd.1 ▸ hd.2.1, hd.2.2⟩

/-- No redirection is pending. -/
def RedirectOff (s : SilubiumState) : Prop :=
  s.newAddress = 0 ∨ (s.account s.newAddress).isSome

/-- With no redirection pending everyone is paid at home. -/
theorem addBalance_home {v : U256} (h : s.RedirectOff) :
    (s.addBalance a v).2 = a ∧ (s.addBalance a v).1.newAddress = s.newAddress := by
  cases hacc : s.account a with
  | some acc => simp [addBalance, hacc, write]
  | none =>
    have hoff : (!s.addressInUse s.newAddress && s.newAddress != 0) = false := by
      rcases h with h | h
      · simp [h]
      · simp [addressInUse, h]
    simp [addBalance, hacc, hoff, write]

namespace Paid

theorem balance_eq (h : Paid s s' d v) (a : Address) :
    s'.balance a = s.balance a + if a = d then v else 0 := by
  obtain ⟨acc, hb, -, hacc⟩ := h.account
  by_cases ha : a = d
  · subst ha
    rw [balance_of_account ((hacc a).trans (if_pos rfl)), hb, if_pos rfl]
  · simp [SilubiumState.balance, entry, hacc, if_neg ha]

theorem isSome_iff (h : Paid s s' d v) (a : Address) :
    (s'.account a).isSome ↔ (s.account a).isSome ∨ a = d := by
  obtain ⟨acc, -, -, hacc⟩ := h.account
  rw [hacc]
  by_cases ha : a = d <;> simp [ha]

theorem clean (h : Paid s s' d v) (hc : s.Clean) : s'.Clean := by
  obtain ⟨acc, -, hdirty, hacc⟩ := h.account
  intro a acc' ha hun
  rw [hacc] at ha
  split at ha
  · obtain ⟨⟩ := ha
    rw [hdirty] at hun
    cases hun
  · rw [h.undoes.1]
    exact hc a acc' ha hun

end Paid

/-! ## A transfer -/

/-- A transfer of `v` from `src` to `dst`, recorded when it is not zero. -/
structure Moved (s s' : SilubiumState) (src dst : Address) (v : U256) : Prop where
  undoes : s.Undoes s'
  stateUTXO : s'.stateUTXO = s.stateUTXO
  cacheUTXO : s'.cacheUTXO = s.cacheUTXO
  transfers : s'.transfers = s.transfers ++ if v = 0 then [] else [⟨src, dst, v⟩]
  enough : v ≤ s.balance src
  balance : ∀ a, s'.balance a =
    s.balance a - (if a = src then v else 0) + if a = dst then v else 0
  isSome : ∀ a, (s'.account a).isSome ↔ (s.account a).isSome ∨ a = dst
  clean : s.Clean → s'.Clean

/-- What `subBalance` does when it does not throw. -/
theorem subBalance_cases (h : s.subBalance src v = some s') :
    v = 0 ∧ s' = s ∨ v ≤ s.balance src ∧ (s.account src).isSome ∧
      s' = (s.addBalance src (0 - v)).1 := by
  unfold subBalance at h
  split at h
  · exact .inl ⟨‹_›, (Option.some.inj h).symm⟩
  split at h
  · cases h
  rename_i acc hacc
  split at h
  · cases h
  · rename_i hle
    refine .inr ⟨?_, by simp [hacc], (Option.some.inj h).symm⟩
    rw [balance_of_account hacc]
    exact BitVec.not_lt.1 hle

theorem subBalance_spec (h : s.subBalance src v = some s') :
    v ≤ s.balance src ∧ s'.newAddress = s.newAddress ∧ s'.stateUTXO = s.stateUTXO ∧
      s'.cacheUTXO = s.cacheUTXO ∧ s'.transfers = s.transfers ∧ s.Undoes s' ∧
      (∀ a, s'.balance a = s.balance a - if a = src then v else 0) ∧
      (∀ a, (s'.account a).isSome ↔ (s.account a).isSome) ∧ (s.Clean → s'.Clean) := by
  rcases subBalance_cases h with ⟨rfl, rfl⟩ | ⟨hle, hsome, rfl⟩
  · exact ⟨by simp [BitVec.le_def], rfl, rfl, rfl, rfl, Undoes.refl _, by simp, fun _ => Iff.rfl, id⟩
  · have hp := addBalance_paid (s := s) (a := src) (v := 0 - v)
    obtain ⟨hd, hn⟩ := addBalance_snd_of_isSome (v := 0 - v) hsome
    rw [hd] at hp
    refine ⟨hle, hn, hp.stateUTXO, hp.cacheUTXO, hp.transfers, hp.undoes, fun a => ?_,
      fun a => ?_, hp.clean⟩
    · rw [hp.balance_eq]
      by_cases ha : a = src
      · simp [ha, BitVec.sub_eq_add_neg]
      · simp [ha]
    · rw [hp.isSome_iff]
      constructor
      · rintro (h | rfl)
        · exact h
        · exact hsome
      · exact .inl

/-- **`transferBalance` moves the value to the address it returns**, and
records the move with that address. -/
theorem transferBalance_moved (h : s.transferBalance src dst v = some (s', d)) :
    Moved s s' src d v := by
  unfold transferBalance at h
  simp only [Option.map_eq_some_iff] at h
  obtain ⟨s₁, hsub, heq⟩ := h
  obtain ⟨hle, -, hs, hc, ht, hu, hb, hsome, hcl⟩ := subBalance_spec hsub
  have hp := addBalance_paid (s := s₁) (a := dst) (v := v)
  obtain ⟨hs', hd⟩ := Prod.mk.inj heq
  rw [hd] at hp
  -- recording the transfer touches no account
  have hrec : s'.account = (s₁.addBalance dst v).1.account ∧
      s'.trie = (s₁.addBalance dst v).1.trie ∧
      s'.cache = (s₁.addBalance dst v).1.cache ∧
      s'.changeLog = (s₁.addBalance dst v).1.changeLog := by
    rw [← hs']
    split <;> exact ⟨rfl, rfl, rfl, rfl⟩
  obtain ⟨hacc, htrie, hcache, hlog⟩ := hrec
  have hbal : ∀ a, s'.balance a = (s₁.addBalance dst v).1.balance a := by
    intro a
    simp [SilubiumState.balance, entry, hacc]
  refine ⟨?_, ?_, ?_, ?_, hle, ?_, ?_, ?_⟩
  · have := hu.trans hp.undoes
    unfold Undoes at this ⊢
    rw [htrie, hcache, hlog]
    exact this
  · rw [← hs, ← hp.stateUTXO, ← hs']
    split <;> rfl
  · rw [← hc, ← hp.cacheUTXO, ← hs']
    split <;> rfl
  · rw [← ht, ← hp.transfers, ← hs', ← hd]
    split <;> simp
  · intro a
    rw [hbal, hp.balance_eq, hb]
  · intro a
    rw [hacc, hp.isSome_iff, hsome]
  · intro hcs
    have := hp.clean (hcl hcs)
    unfold Clean at this ⊢
    rw [hacc, htrie]
    exact this

/-- Where a transfer goes. -/
theorem transferBalance_snd (h : s.transferBalance src dst v = some (s', d)) :
    (d = dst ∧ s'.newAddress = s.newAddress) ∨
      (s.account dst = none ∧ d = s.newAddress ∧ d ≠ 0 ∧ s'.newAddress = 0) := by
  unfold transferBalance at h
  simp only [Option.map_eq_some_iff] at h
  obtain ⟨s₁, hsub, heq⟩ := h
  obtain ⟨-, hn, -, -, -, -, -, hsome, -⟩ := subBalance_spec hsub
  obtain ⟨hs', hd⟩ := Prod.mk.inj heq
  have hn' : s'.newAddress = (s₁.addBalance dst v).1.newAddress := by
    rw [← hs']
    split <;> rfl
  rw [← hd, hn', ← hn]
  rcases addBalance_snd s₁ dst v with h | ⟨hnone, h₁, h₂, h₃⟩
  · exact .inl h
  refine .inr ⟨?_, h₁, h₁ ▸ h₂, h₃⟩
  have := hsome dst
  rw [hnone] at this
  simpa using this

end SilubiumState

end Slucore

import Slucore.Evm.State
import Mathlib.Data.BitVec
/-!
# Evm — rolling back to a savepoint

Every state change the executive makes is undone by the log entries it
pushes, up to the mark that an account was written: an account that was
changed and changed back stays dirty. `Account.Below` is that order, and
with it the change log is an undo log in the sense of the library, so a
rollback returns every balance, nonce and storage cell, and the set of
accounts, to what they were at the savepoint. The code is left out of
the order: a rolled back creation resets the code of its address to
nothing, whatever stood there before.
-/


namespace Slucore

open List Option Function Account

/-- The same account, except that the first may be dirty where the second
is not. -/
structure Account.Below (x y : Account) : Prop where
  isAlive : x.isAlive = y.isAlive
  nonce : x.nonce = y.nonce
  balance : x.balance = y.balance
  storage : x.storage = y.storage
  unchanged : x.isUnchanged = true → y.isUnchanged = true

namespace Account.Below

variable {x y z : Account}

theorem refl (x : Account) : Below x x := ⟨rfl, rfl, rfl, rfl, id⟩

section

variable (h : Below x y)
include h

theorem trans (h' : Below y z) : Below x z :=
  ⟨h.isAlive.trans h'.isAlive, h.nonce.trans h'.nonce, h.balance.trans h'.balance,
    h.storage.trans h'.storage, h'.unchanged ∘ h.unchanged⟩

theorem addBalance (v : U256) : Below (x.addBalance v) (y.addBalance v) :=
  ⟨h.isAlive, h.nonce, by simp [Account.addBalance, h.balance], h.storage, id⟩

theorem setNonce (n : ℕ) : Below (x.setNonce n) (y.setNonce n) :=
  ⟨h.isAlive, rfl, h.balance, h.storage, id⟩

theorem setStorage (key value : ℕ) :
    Below (x.setStorage key value) (y.setStorage key value) :=
  ⟨h.isAlive, h.nonce, h.balance, by simp [Account.setStorage, h.storage], id⟩

theorem resetCode : Below x.resetCode y.resetCode :=
  ⟨h.isAlive, h.nonce, h.balance, h.storage, h.unchanged⟩

theorem untouch : Below x.untouch y.untouch :=
  ⟨h.isAlive, h.nonce, h.balance, h.storage, fun _ => rfl⟩

end

end Account.Below

namespace SilubiumState

/-- The order on what two lookups find. -/
abbrev FoundBelow : Option Account → Option Account → Prop := Option.Rel Account.Below

theorem FoundBelow.refl : ∀ x : Option Account, FoundBelow x x
  | none => .none
  | some x => .some (Account.Below.refl x)

variable {x y : Option Account}

theorem FoundBelow.trans {z : Option Account} :
    FoundBelow x y → FoundBelow y z → FoundBelow x z
  | .none, .none => .none
  | .some h, .some h' => .some (h.trans h')

theorem FoundBelow.getD :
    FoundBelow x y → Account.Below (x.getD dead) (y.getD dead)
  | .none => Account.Below.refl _
  | .some h => h

theorem FoundBelow.isSome_iff : FoundBelow x y → (x.isSome ↔ y.isSome)
  | .none => Iff.rfl
  | .some _ => by simp

/-- Looking up after one entry was written. -/
theorem find_update {cache : Address → Option Account} {trie : Address → Option Account}
    {a b : Address} :
    (Function.update cache a x b).or (trie b) =
      if b = a then x.or (trie a) else (cache b).or (trie b) := by
  by_cases hb : b = a
  · subst hb; simp
  · simp [hb]

/-- **The change log is an undo log**, over any trie. -/
def cacheOrder (trie : Address → Option Account) : UndoOrder (undoChange trie) where
  r x y := ∀ a, FoundBelow ((x a).or (trie a)) ((y a).or (trie a))
  refl x a := FoundBelow.refl _
  trans h h' a := (h a).trans (h' a)
  mono := by
    intro k x y h b
    have hd := fun a => (h a).getD
    cases k <;> simp only [undoChange, find_update] <;> split <;>
      first | exact h b | simp only [some_or, none_or]
    case storage a key value _ => exact .some ((hd a).setStorage key value)
    case balance a value _ => exact .some ((hd a).addBalance _)
    case nonce a _ => rw [(hd a).nonce]; exact .some ((hd a).setNonce _)
    case create a _ => exact FoundBelow.refl _
    case newCode a _ => exact .some (hd a).resetCode
    case touch a _ => exact .some (hd a).untouch

variable {s s' s'' : SilubiumState} {a b : Address} {acc : Account}

/-- The two states have the same trie, and what the second one logged
since the first undoes what it did. -/
def Undoes (s s' : SilubiumState) : Prop :=
  s'.trie = s.trie ∧
    (cacheOrder s.trie.find).Undoes s.changeLog s.cache s'.changeLog s'.cache

theorem Undoes.refl (s : SilubiumState) : s.Undoes s := ⟨rfl, UndoOrder.undoes_refl⟩

theorem Undoes.trans (h : s.Undoes s') (h' : s'.Undoes s'') : s.Undoes s'' := by
  obtain ⟨ht, hu⟩ := h
  obtain ⟨ht', hu'⟩ := h'
  rw [ht] at hu'
  exact ⟨ht'.trans ht, hu.trans hu'⟩

/-- What a rollback to the savepoint of `s` finds is what `s` finds. -/
theorem Undoes.rollback (h : s.Undoes s') :
    (s'.rollback s.savepoint).trie = s.trie ∧
      (s'.rollback s.savepoint).changeLog = s.changeLog ∧
      ∀ a, FoundBelow ((s'.rollback s.savepoint).account a) (s.account a) := by
  obtain ⟨ht, hu⟩ := h
  obtain ⟨hlog, hbelow⟩ := unwind_of_undoes hu
  simp only [SilubiumState.rollback, ht]
  exact ⟨trivial, hlog, hbelow⟩

/-- A rollback is itself undone by unwinding further. -/
theorem Undoes.rollback_undoes (h : s.Undoes s') : s.Undoes (s'.rollback s.savepoint) := by
  obtain ⟨ht, hl, hb⟩ := h.rollback
  refine ⟨ht, ?_⟩
  rw [hl]
  refine UndoOrder.undoes_of_le fun a => ?_
  have := hb a
  simp only [SilubiumState.account, ht] at this
  exact this

/-! ## The changes the executive makes -/

variable {log : List Change}

theorem account_write :
    (s.write a acc log).account b = if b = a then some acc else s.account b := by
  simp [write, SilubiumState.account, find_update]

/-- A change is undone when undoing its log gives back what the lookup at
its address found. -/
theorem undoes_write (h : ∀ b, FoundBelow ((undoAll (undoChange s.trie.find) log
      (Function.update s.cache a (some acc)) b).or (s.trie.find b)) (s.account b)) :
    s.Undoes (s.write a acc log) :=
  ⟨rfl, log, rfl, h⟩

/-- An account that is there, with the balance changed and changed back. -/
theorem below_addBalance_back (x : Account) (v : U256) :
    Account.Below ((x.addBalance v).addBalance (0 - v)) x :=
  ⟨rfl, rfl, by simp [Account.addBalance], rfl, fun h => by cases h⟩

variable {v : U256}

/-- An account that is created. -/
theorem write_create_undoes (hacc : s.account a = none) :
    s.Undoes (s.write a acc (logBalance a v ++ [.create a])) := by
  refine undoes_write fun b => ?_
  have hnone := or_eq_none_iff.1 hacc
  by_cases hv : v = 0 <;>
    simp only [logBalance, hv, if_true, if_false, undoAll, nil_append, cons_append,
      foldl_cons, foldl_nil, undoChange, find_update] <;>
    split
  all_goals first
    | (subst b; rw [hacc, hnone.2]; exact .none)
    | exact FoundBelow.refl _

theorem incNonce_undoes : s.Undoes (s.incNonce a) := by
  unfold incNonce
  split
  · rename_i acc hacc
    refine undoes_write fun b => ?_
    simp only [undoAll, foldl_cons, foldl_nil, undoChange, find_update]
    split
    · subst b
      rw [hacc]
      exact .some ⟨rfl, rfl, rfl, rfl, fun h => by cases h⟩
    · exact FoundBelow.refl _
  · exact write_create_undoes (v := 0) ‹_›

/-- Paying into an account that is there. -/
theorem write_addBalance_undoes (hacc : s.account a = some acc) :
    s.Undoes (s.write a (acc.addBalance v) (logBalance a v ++
      if !acc.isDirty && acc.isEmpty then [Change.touch a] else [])) := by
  refine undoes_write fun b => ?_
  by_cases hb : b = a
  · subst hb
    rw [hacc]
    unfold logBalance
    by_cases hv : v = 0 <;> by_cases ht : (!acc.isDirty && acc.isEmpty) = true <;>
      simp only [hv, ht, if_true, if_false, Bool.false_eq_true, undoAll, nil_append,
        cons_append, foldl_cons, foldl_nil, undoChange,
        update_self, some_or]
    · -- untouching makes an account clean that was clean
      refine .some ⟨rfl, rfl, by simp [Account.addBalance, Account.untouch], rfl, fun _ => ?_⟩
      rw [Bool.and_eq_true] at ht
      simpa [Account.isDirty] using ht.1
    · exact .some ⟨rfl, rfl, by simp [Account.addBalance], rfl, fun h => by cases h⟩
    · refine .some ⟨rfl, rfl, (below_addBalance_back acc v).balance, rfl, fun _ => ?_⟩
      rw [Bool.and_eq_true] at ht
      simpa [isDirty] using ht.1
    · exact .some (below_addBalance_back acc v)
  · have hother : ∀ (l : List Change) (cache : Address → Option Account),
        (∀ k ∈ l, k = .balance a v ∨ k = .touch a) →
        undoAll (undoChange s.trie.find) l cache b = cache b := by
      intro l
      induction l with
      | nil => intro _ _; rfl
      | cons k l ih =>
        intro cache hl
        rw [show undoAll (undoChange s.trie.find) (k :: l) cache
          = undoAll (undoChange s.trie.find) l (undoChange s.trie.find k cache) from rfl,
          ih _ fun k' hk' => hl k' (mem_cons_of_mem k hk')]
        rcases hl k mem_cons_self with rfl | rfl <;>
          simp [undoChange, update_of_ne hb]
    rw [hother, update_of_ne hb]
    · exact FoundBelow.refl _
    · intro k hk
      unfold logBalance at hk
      split_ifs at hk <;> simp_all

/-- **What a payment does**: it adds to an account that is there, or creates
one, where it is asked for or, once, at `newAddress`. -/
theorem addBalance_cases (s : SilubiumState) (a : Address) (v : U256) :
    (∃ acc, s.account a = some acc ∧ s.addBalance a v = (s.write a (acc.addBalance v)
      (logBalance a v ++ if !acc.isDirty && acc.isEmpty then [.touch a] else []), a)) ∨
    ∃ d n, s.account d = none ∧ s.account a = none ∧
      (d = a ∧ n = s.newAddress ∨ d = s.newAddress ∧ d ≠ 0 ∧ n = 0) ∧
      s.addBalance a v = (write { s with newAddress := n } d (fresh 0 v)
        (logBalance d v ++ [.create d]), d) := by
  cases hacc : s.account a with
  | some acc => exact .inl ⟨acc, rfl, by simp [addBalance, hacc]⟩
  | none =>
    simp only [addBalance, hacc]
    split
    · rename_i hnew
      rw [Bool.and_eq_true] at hnew
      exact .inr ⟨s.newAddress, 0, by simpa [addressInUse] using hnew.1, trivial,
        .inr ⟨rfl, by simpa using hnew.2, rfl⟩, rfl⟩
    · exact .inr ⟨a, s.newAddress, hacc, trivial, .inl ⟨rfl, rfl⟩, rfl⟩

/-- **A payment is undone by its log**, wherever it finally goes. -/
theorem addBalance_undoes : s.Undoes (s.addBalance a v).1 := by
  rcases addBalance_cases s a v with ⟨acc, hacc, h⟩ | ⟨d, n, hd, -, -, h⟩ <;> rw [h]
  · exact write_addBalance_undoes hacc
  · exact write_create_undoes hd

theorem setStorage_undoes {key value : ℕ} (h : (s.account a).isSome) :
    s.Undoes (s.setStorage a key value) := by
  obtain ⟨acc, hacc⟩ := isSome_iff_exists.1 h
  refine undoes_write fun b => ?_
  simp only [undoAll, foldl_cons, foldl_nil, undoChange, find_update, entry]
  split
  · subst b
    rw [hacc]
    exact .some ⟨rfl, rfl, rfl, by simp [Account.setStorage], fun h => by cases h⟩
  · exact FoundBelow.refl _

theorem setNewCode_undoes {code : List UInt8} (h : (s.account a).isSome) :
    s.Undoes (s.setNewCode a code) := by
  obtain ⟨acc, hacc⟩ := isSome_iff_exists.1 h
  refine undoes_write fun b => ?_
  simp only [undoAll, foldl_cons, foldl_nil, undoChange, find_update, entry]
  split
  · subst b
    rw [hacc]
    exact .some ⟨rfl, rfl, rfl, rfl, id⟩
  · exact FoundBelow.refl _

end SilubiumState

end Slucore

import Mathlib.Tactic
/-!
# Computations that may be refused

A validation routine is a chain of tests, each of which may stop it with
a reason, and of loops whose body may do the same. Both are written in
`Except ε`. This file has the two ways to take such a computation apart:
one test or one bind at a time (`require_eq_ok`, `bind_eq_ok`), and a
loop by what every turn preserves (`foldlM_induct`).
-/


namespace Slucore

open List

variable {ε α β σ : Type}

/-- Stop with `e` unless `b` holds. -/
def require (b : Bool) (e : ε) : Except ε Unit := if b then .ok () else .error e

@[simp] theorem require_eq_ok {b : Bool} {e : ε} {u : Unit} :
    require b e = .ok u ↔ b = true := by
  unfold require
  split <;> simp_all

/-- Make a check only under a condition. -/
def checkWhen (b : Bool) (x : Except ε Unit) : Except ε Unit := if b then x else .ok ()

@[simp] theorem checkWhen_eq_ok {b : Bool} {x : Except ε Unit} {u : Unit} :
    checkWhen b x = .ok u ↔ (b = true → x = .ok ()) := by
  unfold checkWhen
  split <;> simp_all

variable {a : α} {f : α → Except ε β}

@[simp] theorem ok_bind : (Except.ok a >>= f) = f a := rfl

@[simp] theorem error_bind {e : ε} :
    (Except.error e >>= f) = Except.error e := rfl

/-- What is done to the result of a chain is done to that of its second part. -/
theorem map_bind_eq {γ : Type} (x : Except ε α) (f : α → Except ε β) (g : β → γ) :
    (x >>= f).map g = x >>= fun a => (f a).map g := by
  cases x <;> rfl

variable {x : Except ε α}

/-- **A chain succeeds when both its parts do.** -/
@[simp] theorem bind_eq_ok {b : β} :
    x >>= f = .ok b ↔ ∃ a, x = .ok a ∧ f a = .ok b := by
  cases x with
  | error e =>
    constructor
    · intro h; cases h
    · rintro ⟨a, h, -⟩; cases h
  | ok a =>
    constructor
    · intro h; exact ⟨a, rfl, h⟩
    · rintro ⟨a', h, h'⟩; cases h; exact h'

@[simp] theorem pure_eq_ok {b : α} : (pure a : Except ε α) = .ok b ↔ a = b := by
  show Except.ok a = .ok b ↔ a = b
  rw [Except.ok.injEq]

/-- What an optional result is when the computation throws without it. -/
def orThrow (x : Option α) (e : ε) : Except ε α :=
  match x with
  | none => .error e
  | some a => .ok a

@[simp] theorem orThrow_eq_ok {x : Option α} {e : ε} :
    orThrow x e = .ok a ↔ x = some a := by
  unfold orThrow
  split <;> simp

theorem mapError_eq_ok {ε' : Type} {f : ε → ε'} :
    x.mapError f = .ok a ↔ x = .ok a := by
  cases x <;> simp [Except.mapError]

theorem eq_ok_of_toOption (h : x.toOption = some a) : x = .ok a := by
  cases x with
  | error e => cases h
  | ok b => exact congrArg Except.ok (Option.some.inj h)

theorem exists_ok_of_isSome (h : x.toOption.isSome = true) :
    ∃ a, x = .ok a := by
  obtain ⟨a, ha⟩ := Option.isSome_iff_exists.1 h
  exact ⟨a, eq_ok_of_toOption ha⟩

/-! ## Loops -/

section Loop

variable {f : σ → α → Except ε σ} {s s' : σ} {l : List α}

theorem foldlM_nil_eq_ok : ([] : List α).foldlM f s = .ok s' ↔ s = s' := by
  rw [foldlM_nil, pure_eq_ok]

theorem foldlM_cons_eq_ok {a : α} :
    (a :: l).foldlM f s = .ok s' ↔ ∃ t, f s a = .ok t ∧ l.foldlM f t = .ok s' := by
  rw [foldlM_cons, bind_eq_ok]

theorem foldlM_append_eq_ok {l' : List α} :
    (l ++ l').foldlM f s = .ok s' ↔ ∃ t, l.foldlM f s = .ok t ∧ l'.foldlM f t = .ok s' := by
  rw [foldlM_append, bind_eq_ok]

/-- **What every turn preserves, the loop preserves.** The property may
speak of the elements handled so far. -/
theorem foldlM_induct {motive : List α → σ → Prop} (h : l.foldlM f s = .ok s')
    (h₀ : motive [] s)
    (step : ∀ done a t t', done ++ [a] <+: l → motive done t → f t a = .ok t' →
      motive (done ++ [a]) t') : motive l s' := by
  induction l using List.reverseRecOn generalizing s' with
  | nil => exact (foldlM_nil_eq_ok.1 h) ▸ h₀
  | append_singleton l a ih =>
    obtain ⟨t, ht, hs⟩ := foldlM_append_eq_ok.1 h
    obtain ⟨t', ha, hn⟩ := foldlM_cons_eq_ok.1 hs
    obtain rfl := foldlM_nil_eq_ok.1 hn
    refine step l a t t' prefix_rfl (ih ht fun done b u u' hp => ?_) ha
    exact step done b u u' (hp.trans (prefix_append l [a]))

end Loop

/-! ## Two computations of one verdict -/

section Verdict

variable {ε' α' β' σ' : Type} {π : α → α'}

/-- **Chains of which the parts agree agree**: where one succeeds so does the
other, with what `π` makes of the result. -/
theorem toOption_bind {y : Except ε' α'} {g : α' → Except ε' β'} {ρ : β → β'}
    (h : x.toOption.map π = y.toOption) (hf : ∀ a, (f a).toOption.map ρ = (g (π a)).toOption) :
    (x >>= f).toOption.map ρ = (y >>= g).toOption := by
  cases x with
  | ok a =>
    obtain rfl := eq_ok_of_toOption h.symm
    exact hf a
  | error e =>
    cases y with
    | ok b => cases h
    | error e' => rfl

theorem toOption_foldlM {f : σ → α → Except ε σ} {g : σ' → α → Except ε' σ'} {π : σ → σ'}
    (h : ∀ s a, (f s a).toOption.map π = (g (π s) a).toOption) (l : List α) (s : σ) :
    (l.foldlM f s).toOption.map π = (l.foldlM g (π s)).toOption := by
  induction l generalizing s with
  | nil => rfl
  | cons a l ih =>
    exact toOption_bind (h s a) ih

end Verdict

/-- A map that can fail, where it succeeds, succeeded at every element. -/
theorem forall₂_of_mapM {α β : Type} {f : α → Option β} {l : List α} {r : List β}
    (h : l.mapM f = some r) : List.Forall₂ (fun a b => f a = some b) l r := by
  induction l generalizing r with
  | nil =>
    obtain rfl : [] = r := by simpa using h
    exact .nil
  | cons a l ih =>
    simp only [mapM_cons, Option.bind_eq_bind, Option.bind_eq_some_iff, Option.pure_def,
      Option.some.injEq] at h
    obtain ⟨b, hb, bs, hbs, rfl⟩ := h
    exact .cons hb (ih hbs)

theorem exists_of_mem_mapM {α β : Type} {f : α → Option β} {l : List α} {r : List β}
    (h : l.mapM f = some r) {b : β} (hb : b ∈ r) : ∃ a ∈ l, f a = some b := by
  have hall := forall₂_of_mapM h
  clear h
  induction hall with
  | nil => cases hb
  | cons hab _ ih =>
    rcases mem_cons.1 hb with rfl | hb
    · exact ⟨_, mem_cons_self, hab⟩
    · obtain ⟨a, ha, heq⟩ := ih hb
      exact ⟨a, mem_cons_of_mem _ ha, heq⟩

end Slucore

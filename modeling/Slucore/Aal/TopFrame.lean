import Slucore.Aal.Execute
import Slucore.Evm.CodeKept
/-!
# Aal — the outermost frame and the transfers it leaves

`execute` hands the condensing transaction the list of transfers the
outermost frame recorded. This file carries `Evolves` up to that frame
and compares the list with the balances: a rollback unwinds the change
log and not the list, so the two agree exactly when the transfers of the
undone frames cancel out.
-/


namespace Slucore

open Option hiding or_self

namespace SilubiumState

open Executive

variable {E : AalEnv} {env : EnvInfo} {t : SilubiumTransaction} {trace : EvmTrace}
  {c : EvmConfig} {run : TopRun} {a : Address}

/-- What the configuration at the outermost savepoint has of the one the
executive was given: the sender has paid for the gas. -/
structure Started (t : SilubiumTransaction) (c c₀ : EvmConfig) : Prop where
  trie : c₀.state.trie = c.state.trie
  stateUTXO : c₀.state.stateUTXO = c.state.stateUTXO
  cacheUTXO : c₀.state.cacheUTXO = c.state.cacheUTXO
  newAddress : c₀.state.newAddress = c.state.newAddress
  transfers : c₀.state.transfers = c.state.transfers
  deleteAddresses : c₀.deleteAddresses = c.deleteAddresses
  suicides : c₀.suicides = c.suicides
  undone : c₀.undone = c.undone
  opened : c₀.opened = c.opened
  balance : ∀ a, c₀.state.balance a =
    c.state.balance a - if a = t.sender then t.gas * t.gasPrice else 0
  isSome : ∀ a, (c₀.state.account a).isSome ↔ (c.state.account a).isSome
  clean : c.state.Clean → c₀.state.Clean

variable {s : SilubiumState}

theorem started_incNonce (hs : (c.state.account t.sender).isSome)
    (h : c.state.subBalance t.sender (t.gas * t.gasPrice) = some s) :
    Started t c { c with state := s.incNonce t.sender } := by
  obtain ⟨-, hn, hu, hc, ht, hundo, hb, hsome, hcl⟩ := subBalance_spec h
  have hq := incNonce_quiet ((hsome t.sender).2 hs)
  exact {
    trie := hq.undoes.1.trans hundo.1
    stateUTXO := hq.stateUTXO.trans hu
    cacheUTXO := hq.cacheUTXO.trans hc
    newAddress := hq.newAddress.trans hn
    transfers := hq.transfers.trans ht
    deleteAddresses := rfl
    suicides := rfl
    undone := rfl
    opened := rfl
    balance := fun a => (hq.balance a).trans (hb a)
    isSome := fun a => (hq.isSome a).trans (hsome a)
    clean := fun h => hq.clean (hcl h) }

variable {c' : EvmConfig} {v : U256}

/-- A call that runs byte code has first moved the value. -/
theorem call_leads {sender receive codeAddress : Address} {outOfGas : Bool} (hv : v ≠ 0)
    (h : call E.toEvmEnv env sender receive codeAddress v outOfGas c = some (c', true)) :
    ∃ d, c'.state.transfers = c.state.transfers ++ [⟨sender, d, v⟩] := by
  unfold call at h
  split at h
  · split at h <;> cases h
  simp only [transfer, noteUnused_state, Option.map_map, map_eq_some_iff, Prod.exists,
    Function.comp_apply, Prod.mk.injEq] at h
  obtain ⟨s', d, htr, rfl, -⟩ := h
  have := (transferBalance_moved htr).transfers
  rw [if_neg hv] at this
  exact ⟨d, this⟩

/-- Creating an account uses up the redirection, unless `newAddress` is
taken. -/
theorem addBalance_redirect (h : s.account a = none) :
    (s.addBalance a v).1.newAddress = 0 ∨ (s.account s.newAddress).isSome := by
  unfold addBalance
  simp only [h]
  split
  · exact .inl rfl
  rename_i hnew
  rw [Bool.and_eq_true, not_and_or] at hnew
  rcases hnew with hnew | hnew
  · exact .inr (by simpa [addressInUse, isSome_iff_ne_none] using hnew)
  · exact .inl (by simpa [write] using hnew)

variable {nonce : ℕ}

/-- A creation without endowment at a free address leaves no redirection
pending. -/
theorem create_redirect {sender newAddr : Address}
    {hasInit b : Bool} (hfree : c.state.account (E.contractAddress sender nonce) = none)
    (h : create E.toEvmEnv env sender nonce 0 hasInit c = some (c', newAddr, b)) :
    c'.state.newAddress = 0 ∨ (c.state.account c.state.newAddress).isSome := by
  obtain ⟨rfl, -, -⟩ := h
  rcases addBalance_redirect (v := 0) hfree with hn | hn
  · refine .inl ?_
    have hinc : ∀ (s : SilubiumState) d, (s.incNonce d).newAddress = s.newAddress := by
      intro s d
      unfold incNonce
      split <;> rfl
    simp only [apply_ite SilubiumState.newAddress, setNewCode, write, hinc, hn, ite_self]
  · exact .inr hn

/-- The outermost frame after its first step: byte code at `my` is still to
run from `c₁`, and then the frame closes; or there was none. -/
inductive Entered (E : AalEnv) (env : EnvInfo) (t : SilubiumTransaction) (trace : EvmTrace)
    (nonce : ℕ) (run : TopRun) : Prop where
  | idle (hran : run.ran = false) (he : Evolves run.start run.final)
  | ran {my : Address} {c₁ c₂ : EvmConfig} (hran : run.ran = true) (he : Evolves run.start c₁)
      (hmy : (c₁.state.account my).isSome)
      (hlead : ¬ t.isCreation → t.value ≠ 0 →
        ∃ d, c₁.state.transfers = run.start.state.transfers ++ [⟨t.sender, d, t.value⟩])
      (hnew : t.isCreation → t.value = 0 →
        run.start.state.account (E.contractAddress t.sender nonce) = none →
        c₁.state.newAddress = 0 ∨ (run.start.state.account run.start.state.newAddress).isSome)
      (hbody : execOps E.toEvmEnv env ⟨my, t.sender, 0⟩ trace.body c₁ = some c₂)
      (hclose : close run.start my t.isCreation trace.ending c₂ = some run.final)

/-- **The outermost frame, read off its definition once:** the gas is paid
and the nonce raised, an account is created or called, and where there is
byte code at `my` it is run and the frame closed. -/
theorem runTop_cases (h : runTop E env t trace c = some run) :
    ∃ s, c.state.subBalance t.sender (t.gas * t.gasPrice) = some s ∧
      run.start = { c with state := s.incNonce t.sender } ∧ ∃ my c₁,
      (t.isCreation = true ∧ create E.toEvmEnv env t.sender (s.getNonce t.sender) t.value
          (!t.data.isEmpty) run.start = some (c₁, my, run.ran) ∨
        t.isCreation = false ∧ my = t.receiveAddress ∧ call E.toEvmEnv env t.sender my my t.value
          trace.outOfGas run.start = some (c₁, run.ran)) ∧
      (run.ran = false ∧ run.final = c₁ ∨ run.ran = true ∧ ∃ c₂,
        execOps E.toEvmEnv env ⟨my, t.sender, 0⟩ trace.body c₁ = some c₂ ∧
          close run.start my t.isCreation trace.ending c₂ = some run.final) := by
  unfold runTop at h
  split at h
  · cases h
  rename_i s hsub
  refine ⟨s, hsub, ?_⟩
  simp only at h
  split at h
  · rename_i hcr
    split at h
    · cases h
    · rename_i c₁ my hc
      obtain ⟨⟩ := h
      exact ⟨rfl, my, c₁, .inl ⟨hcr, hc⟩, .inl ⟨rfl, rfl⟩⟩
    · rename_i c₁ my hc
      simp only [bind_eq_some_iff, map_eq_some_iff] at h
      obtain ⟨c₂, hbody, c₃, hclose, rfl⟩ := h
      exact ⟨rfl, my, c₁, .inl ⟨hcr, hc⟩, .inr ⟨rfl, c₂, hbody, hcr ▸ hclose⟩⟩
  · rename_i hcr
    rw [Bool.not_eq_true] at hcr
    split at h
    · cases h
    · rename_i c₁ hc
      obtain ⟨⟩ := h
      exact ⟨rfl, _, c₁, .inr ⟨hcr, rfl, hc⟩, .inl ⟨rfl, rfl⟩⟩
    · rename_i c₁ hc
      simp only [bind_eq_some_iff, map_eq_some_iff] at h
      obtain ⟨c₂, hbody, c₃, hclose, rfl⟩ := h
      exact ⟨rfl, _, c₁, .inr ⟨hcr, rfl, hc⟩, .inr ⟨rfl, c₂, hbody, hcr ▸ hclose⟩⟩

/-- **What the outermost frame does** to the configuration it is given. -/
theorem runTop_entered (hs : (c.state.account t.sender).isSome)
    (h : runTop E env t trace c = some run) :
    Started t c run.start ∧ Entered E env t trace (c.state.getNonce t.sender) run := by
  obtain ⟨s, hsub, hstart, my, c₁, hfirst, hrest⟩ := runTop_cases h
  refine ⟨hstart ▸ started_incNonce hs hsub, ?_⟩
  rcases hfirst with ⟨hcr, hc⟩ | ⟨hcr, rfl, hc⟩
  · obtain ⟨he, hmy⟩ := create_evolves hc
    rcases hrest with ⟨hran, rfl⟩ | ⟨hran, c₂, hbody, hclose⟩
    · exact .idle hran he
    refine .ran hran he hmy (fun h => absurd hcr h) (fun _ hv hfree => ?_) hbody hclose
    rw [hv] at hc
    rw [← subBalance_nonces hsub] at hfree
    exact create_redirect hfree hc
  · obtain ⟨he, hmy⟩ := call_evolves hc
    rcases hrest with ⟨hran, rfl⟩ | ⟨hran, c₂, hbody, hclose⟩
    · exact .idle hran he
    · exact .ran hran he (he.stays _ (hmy hran)) (fun _ hv => call_leads hv (hran ▸ hc))
        (fun h => absurd h (by simp [hcr])) hbody hclose

theorem Entered.evolves (h : Entered E env t trace nonce run) : Evolves run.start run.final := by
  cases h with
  | idle _ he => exact he
  | ran _ he hmy _ _ hbody hclose =>
    have hb := execOps_evolves _ _ hmy hbody
    exact close_evolves (he.trans hb) (hb.stays _ hmy) hclose

/-- The end of a frame removes nothing from the list of transfers and sets
up no redirection. -/
theorem close_keeps {c₀ : EvmConfig} {my : Address} {isCreation : Bool} {ending : Ending}
    (h : close c₀ my isCreation ending c = some c') :
    (∃ ts, c'.state.transfers = c.state.transfers ++ ts) ∧
      (c'.state.newAddress = c.state.newAddress ∨ c'.state.newAddress = 0) := by
  cases ending with
  | ret out =>
    obtain ⟨⟩ := h
    refine ⟨⟨[], ?_⟩, .inl ?_⟩
    · simp only [List.append_nil]
      split <;> rfl
    · split <;> rfl
  | suicide dest =>
    simp only [close, map_eq_some_iff] at h
    obtain ⟨c₁, ht, rfl⟩ := h
    have he := transfer_noteUnused_evolves ht
    obtain ⟨ts, -, hts, -⟩ := he.explained
    refine ⟨⟨ts, ?_⟩, ?_⟩
    · rw [← hts]
      split <;> rfl
    · refine Eq.mp ?_ he.newAddress
      split <;> rfl
  | throw e =>
    obtain ⟨⟩ := h
    exact ⟨⟨[], (List.append_nil _).symm⟩, .inl rfl⟩

section

variable (h : Entered E env t trace nonce run) (hran : run.ran = true)
include h hran

/-- **An output with value is paid for before anything else moves.** -/
theorem Entered.leads (hcreate : t.isCreation → t.value = 0) (hv : t.value ≠ 0) :
    ∃ d ts, run.final.state.transfers =
      run.start.state.transfers ++ ⟨t.sender, d, t.value⟩ :: ts := by
  cases h with
  | idle h => rw [h] at hran; cases hran
  | ran _ he hmy hlead _ hbody hclose =>
    obtain ⟨d, hd⟩ := hlead (fun hc => hv (hcreate hc)) hv
    obtain ⟨ts, -, hts, -⟩ := (execOps_evolves _ _ hmy hbody).explained
    obtain ⟨⟨ts', hts'⟩, -⟩ := close_keeps hclose
    exact ⟨d, ts ++ ts', by rw [hts', hts, hd]; simp⟩

/-- **No redirection is pending when the fees are paid**, if the address a
creation computes is free. -/
theorem Entered.redirectOff (hcall : ¬ t.isCreation → run.start.state.newAddress = 0)
    (hcreate : t.isCreation → t.value = 0 ∧
      run.start.state.account (E.contractAddress t.sender nonce) = none) :
    run.final.state.RedirectOff := by
  have hev := h.evolves
  -- a redirection that was never pending, or blocked from the start
  have hblocked : run.start.state.RedirectOff → run.final.state.RedirectOff := by
    unfold RedirectOff
    intro hs
    rcases hev.newAddress with hn | hn
    · rw [hn]
      exact hs.imp id (hev.stays _)
    · exact .inl hn
  by_cases hc : t.isCreation = true
  · cases h with
    | idle h => rw [h] at hran; cases hran
    | ran _ he hmy _ hnew hbody hclose =>
      rcases hnew hc (hcreate hc).1 (hcreate hc).2 with hn | hn
      · refine .inl ?_
        have h₂ := (execOps_evolves _ _ hmy hbody).newAddress
        rw [hn, or_self] at h₂
        have h₃ := (close_keeps hclose).2
        rwa [h₂, or_self] at h₃
      · exact hblocked (.inr hn)
  · exact hblocked (.inl (hcall hc))

/-- **An exception of the outermost frame leaves the accounts as they were
at its savepoint.** -/
theorem Entered.thrown (hend : exceptedOf trace.ending ≠ .none) (a : Address) :
    FoundBelow (run.final.state.account a) (run.start.state.account a) := by
  cases h with
  | idle h => rw [h] at hran; cases hran
  | ran _ he hmy _ _ hbody hclose =>
    have hundo := (he.trans (execOps_evolves _ _ hmy hbody)).undoes
    cases hending : trace.ending with
    | ret out => simp [hending, exceptedOf] at hend
    | suicide dest => simp [hending, exceptedOf] at hend
    | throw e =>
      rw [hending] at hclose
      rw [← Option.some.inj hclose]
      exact hundo.rollback.2.2 a

end

/-! ## The outermost frame runs -/

/-- The test of `initialize` covers the gas, and the value after it. -/
theorem initialize_covers (h : executiveInitialize E env t c.state = none) :
    t.gas * t.gasPrice ≤ c.state.balance t.sender ∧
      t.value ≤ c.state.balance t.sender - t.gas * t.gasPrice := by
  unfold executiveInitialize at h
  split_ifs at h with h₁ h₂ h₃ h₄
  have hgas : (t.gas * t.gasPrice).toNat = t.gas.toNat * t.gasPrice.toNat := by
    exact Nat.mod_eq_of_lt (by omega)
  have hle : t.gas * t.gasPrice ≤ c.state.balance t.sender := by
    rw [BitVec.le_def]
    omega
  refine ⟨hle, ?_⟩
  rw [BitVec.le_def, BitVec.toNat_sub_of_le hle]
  omega

/-- **An output that passes `initialize` is executed:** no transfer of the
outermost frame can throw. -/
theorem runTop_isSome (hs : (c.state.account t.sender).isSome)
    (h : executiveInitialize E env t c.state = none) : (runTop E env t trace c).isSome := by
  obtain ⟨hgas, hvalue⟩ := initialize_covers h
  unfold runTop
  split
  · rename_i hnone
    have hsub := subBalance_isSome hgas
    rw [hnone] at hsub
    cases hsub
  · rename_i s hsub
    have hst := started_incNonce hs hsub
    have hv : t.value ≤ (s.incNonce t.sender).balance t.sender := by
      have hb := hst.balance t.sender
      rw [if_pos rfl] at hb
      exact hb ▸ hvalue
    -- whatever runs after the first transfer comes to an end
    have hrest : ∀ (f : Frame) (c₀ c₁ : EvmConfig) (my newAddr : Address) (isCreation : Bool),
        ((execOps E.toEvmEnv env f trace.body c₁).bind fun c₂ =>
          (close c₀ my isCreation trace.ending c₂).map fun c₃ =>
            (⟨c₀, c₃, true, newAddr⟩ : TopRun)).isSome := by
      intro f c₀ c₁ my newAddr isCreation
      obtain ⟨c₂, h₂⟩ := isSome_iff_exists.1 (execOps_isSome f trace.body c₁)
      rw [h₂, bind_some, isSome_map]
      exact close_isSome
    simp only
    split
    · split
      · rename_i hnone
        exact absurd hnone (isSome_iff_ne_none.1
          (create_isSome (c := { c with state := s.incNonce t.sender }) hv))
      · rfl
      · exact hrest ..
    · split
      · rename_i hnone
        exact absurd hnone (isSome_iff_ne_none.1
          (call_isSome (c := { c with state := s.incNonce t.sender }) hv))
      · rfl
      · exact hrest ..

/-! ## The transfers handed to the condensing transaction -/

/-- What a list of transfers brings an address, less what it takes. -/
def net (ts : List TransferInfo) (a : Address) : ℤ := inflow ts a - outflow ts a

@[simp] theorem addBalance_transfers :
    (s.addBalance a v).1.transfers = s.transfers :=
  addBalance_paid.transfers

@[simp] theorem killAll_transfers {p : Address → Bool} :
    (s.killAll p).transfers = s.transfers := rfl

@[simp] theorem condensing_transfers :
    (condensing env t trace run).transfers = run.final.state.transfers := by
  simp [condensing, concluded, finalize, deleteAccounts]

variable {w : AalState}

/-- Between two executions nothing redirects an account. -/
theorem prologue_sender (hn : w.state.newAddress = 0) :
    ((prologue E env t w).state.account t.sender).isSome := by
  have hp := addBalance_paid (s := w.state) (a := t.sender) (v := t.value + t.gas * t.gasPrice)
  have hd : (w.state.addBalance t.sender (t.value + t.gas * t.gasPrice)).2 = t.sender := by
    rcases addBalance_snd w.state t.sender (t.value + t.gas * t.gasPrice) with h | h
    · exact h.1
    · exact absurd hn h.2.2.1
  rw [hd] at hp
  exact (hp.isSome_iff t.sender).2 (.inr rfl)

/-- **`execute` always returns**, for the version of the virtual machine
there is. -/
theorem execute_isSome {H : Hashes} {tipHeight : ℕ} {p : Permanence}
    (hn : w.state.newAddress = 0) (hv : t.version = VersionVM.evmDefault) :
    (execute H E tipHeight p env t trace w).isSome := by
  unfold execute
  rw [if_neg (not_not.2 hv)]
  simp only
  split
  · rfl
  split
  · rfl
  rename_i hinit
  have hsome : (runTop E env t trace _).isSome := runTop_isSome (prologue_sender hn) hinit
  obtain ⟨run, hrun⟩ := isSome_iff_exists.1 hsome
  simp only [hrun]
  split
  · rfl
  split
  · rfl
  · split
    · split <;> rfl
    · rfl

/-- The list and the undone transfers of the outermost frame explain every
balance. -/
theorem runTop_settles (hn : w.state.newAddress = 0) (ht : w.state.transfers = [])
    (h : runTop E env t trace (prologue E env t w) = some run) (a : Address) :
    Settles (run.start.state.balance a) (run.final.state.balance a)
      (inflow run.final.state.transfers a) (outflow run.final.state.transfers a)
      (inflow run.final.undone a) (outflow run.final.undone a) := by
  obtain ⟨hst, hent⟩ := runTop_entered (prologue_sender hn) h
  obtain ⟨ts, us, hts, hus, hset⟩ := hent.evolves.explained
  have ht₀ : run.start.state.transfers = [] := by
    rw [hst.transfers]
    exact addBalance_transfers.trans ht
  have hu₀ : run.start.undone = [] := hst.undone
  rw [hts, hus, ht₀, hu₀]
  exact hset a

/-- **The transfer list is right about an address exactly when the undone
frames are neutral to it.** For every tree of frames, what the list brings
an address is the change of its balance between the outermost savepoint
and the end, if and only if the transfers recorded in frames that were
undone cancel out at that address: as residues always, and as numbers
when the balance and all that was recorded as coming in fit 256 bits. -/
theorem transfers_net_iff {w : AalState} (hn : w.state.newAddress = 0)
    (ht : w.state.transfers = []) (h : runTop E env t trace (prologue E env t w) = some run)
    (a : Address) :
    (net (condensing env t trace run).transfers a ≡
        (run.final.state.balance a).toNat - (run.start.state.balance a).toNat [ZMOD 2 ^ 256] ↔
      net run.final.undone a ≡ 0 [ZMOD 2 ^ 256]) ∧
    ((run.start.state.balance a).toNat + inflow (condensing env t trace run).transfers a < 2 ^ 256 →
      (net (condensing env t trace run).transfers a =
          (run.final.state.balance a).toNat - (run.start.state.balance a).toNat ↔
        net run.final.undone a = 0)) := by
  have hset := runTop_settles hn ht h a
  rw [condensing_transfers]
  exact ⟨hset.net_modEq_iff, hset.net_eq_iff⟩

/-! ## A frame that is undone and stays on the list -/

/-- Hashes small enough to compute with. -/
def sampleHashes : Hashes where
  serializeHash tx := 1000 + tx.vin.length + 10 * tx.vout.length
  headerHash _ := 1
  sha256D64 a b := a + b

/-- A node small enough to compute with. -/
def sampleEnv : AalEnv where
  contractAddress a n := 1000 * a + n
  isPrecompiled _ _ := false
  eip158ForkBlock := 0
  createSilubiumAddress h n := 100 * h + n
  baseGasRequired t := (if t.isCreation then 53000 else 21000) +
    (t.data.map fun b => if b = 0 then 4 else 68).sum
  accountRoot _ := 0
  vinRoot _ := 0
  nFixUTXOCacheHFHeight := 0

def sampleInfo : EnvInfo := ⟨2, 1, 40000000⟩

/-- Two contracts, at 300 and 400, without money. -/
def sampleWorld : AalState :=
  let contract : Account := ⟨true, true, 1, 0, [7], fun _ => 0⟩
  { state :=
      { trie := ⟨0, fun a => if a = 300 ∨ a = 400 then some contract else none⟩
        cache := fun _ => none
        changeLog := []
        newAddress := 0
        transfers := []
        stateUTXO := ⟨0, fun _ => none⟩
        cacheUTXO := fun _ => none }
    deleteAddresses := [] }

/-- Output `n` of transaction 5 sends `v` to contract `a`. -/
def sampleCall (a : Address) (n : ℕ) (v : U256) : SilubiumTransaction where
  sender := 1
  receiveAddress := a
  isCreation := false
  value := v
  gas := 100000
  gasPrice := 10
  nonce := 0
  data := []
  hashWith := 5
  nVout := n
  version := VersionVM.evmDefault

/-- The contract called passes 4 on to contract 400, which throws; the
caller goes on and returns. -/
def undoneCall : EvmTrace :=
  ⟨false, [.call .call 400 4 false [] (.throw .other)], .ret [], 70000⟩

theorem undoneCall_runs : (runTop sampleEnv sampleInfo (sampleCall 300 0 10) undoneCall
    (prologue sampleEnv sampleInfo (sampleCall 300 0 10) sampleWorld)).isSome := by
  decide

/-- **A call that was undone is still on the list:** it credits contract
400 with money the contract never kept. -/
theorem transfers_keep_undone :
    ¬ ∀ (E : AalEnv) (env : EnvInfo) (t : SilubiumTransaction) (trace : EvmTrace) (w : AalState)
      (run : TopRun) (a : Address), w.state.newAddress = 0 → w.state.transfers = [] →
      runTop E env t trace (prologue E env t w) = some run →
      net (condensing env t trace run).transfers a =
        (run.final.state.balance a).toNat - (run.start.state.balance a).toNat := by
  intro h
  have := h _ _ _ _ _ _ 400 rfl rfl (some_get undoneCall_runs).symm
  revert this
  decide

theorem transfers_net_iff_undoneCall :
    ∃ run, runTop sampleEnv sampleInfo (sampleCall 300 0 10) undoneCall
        (prologue sampleEnv sampleInfo (sampleCall 300 0 10) sampleWorld) = some run ∧
      (net (condensing sampleInfo (sampleCall 300 0 10) undoneCall run).transfers 300 ≡
          (run.final.state.balance 300).toNat - (run.start.state.balance 300).toNat
            [ZMOD 2 ^ 256] ↔
        net run.final.undone 300 ≡ 0 [ZMOD 2 ^ 256]) := by
  exact ⟨_, (some_get undoneCall_runs).symm,
    (transfers_net_iff rfl rfl (some_get undoneCall_runs).symm 300).1⟩

end SilubiumState

end Slucore

import Slucore.Aal.ByteCodeExec
import Slucore.Aal.Commit
/-!
# Aal — every coin sent to a contract is spent once

The outputs of one transaction go through `performByteCode` and
`processingResults`; each ends in a refund or in a condensing
transaction. Which outpoints those spend is a matter of the coins the
state knows, so the proof carries a property of all coins through the
executions (`Coins`). An output that is settled is spent exactly when its
condensing transaction is covered; an overdrawn one is spent by nothing.
-/


namespace Slucore

open List Option CondensingTX

namespace SilubiumState

variable {H : Hashes} {E : AalEnv} {env : EnvInfo} {t : SilubiumTransaction} {trace : EvmTrace}
  {w w' : AalState} {run : TopRun} {a : Address} {tipHeight : ℕ} {r : ResultExecute}
  {P : COutPoint → ℕ → Prop} {s s' : SilubiumState}

/-! ## A property of all coins -/

/-- Every coin with value that these coins give has the property. -/
def CoinsOf (P : COutPoint → ℕ → Prop) (coins : Address → Option Vin) : Prop :=
  ∀ a v, coins a = some v → 0 < v.value → P ⟨v.hash, v.nVout⟩ v.value.toNat

/-- Every coin of the state, cached or stored, has the property. -/
structure Coins (P : COutPoint → ℕ → Prop) (s : SilubiumState) : Prop where
  cached : CoinsOf P s.cacheUTXO
  stored : CoinsOf P s.stateUTXO.find

theorem Coins.vin (h : s.Coins P) : CoinsOf P s.vin := by
  intro a v hv
  simp only [SilubiumState.vin] at hv
  cases hc : s.cacheUTXO a with
  | some x =>
    rw [hc] at hv
    obtain rfl := Option.some.inj hv
    exact h.cached a x hc
  | none =>
    rw [hc] at hv
    exact h.stored a v hv

theorem Coins.of_sameTries (h : s.Coins P) (hs : SameTries s s') : s'.Coins P :=
  ⟨hs.cacheUTXO ▸ h.cached, hs.stateUTXO ▸ h.stored⟩

/-- Killing changes no outpoint and no value. -/
theorem Coins.killAll (h : s.Coins P) (p : Address → Bool) : (s.killAll p).Coins P := by
  refine ⟨fun a v hv => ?_, h.stored⟩
  simp only [SilubiumState.killAll] at hv
  split at hv
  · obtain ⟨v₀, hv₀, rfl⟩ := map_eq_some_iff.1 hv
    exact h.vin a v₀ hv₀
  · exact h.cached a v hv

theorem Coins.handleException {D : List Address} (h : s.Coins P) :
    (s.handleException E tipHeight .committed D).reset.Coins P := by
  unfold SilubiumState.handleException
  split
  · have hk := h.killAll D.contains
    exact ⟨hk.cached, hk.stored⟩
  · exact ⟨fun a v hv => (by cases hv), h.stored⟩

theorem Coins.concluded (h : run.final.state.Coins P) : (concluded env t trace run).Coins P := by
  have hadd : ∀ {s : SilubiumState} {a v}, s.Coins P → (s.addBalance a v).1.Coins P := by
    intro s a v hs
    have hp := addBalance_paid (s := s) (a := a) (v := v)
    exact ⟨hp.cacheUTXO ▸ hs.cached, hp.stateUTXO ▸ hs.stored⟩
  exact ((hadd (hadd h)).killAll _).killAll _

/-- The coins an execution commits. -/
theorem Coins.commit {removeEmpty : Bool} (h : s.Coins P) :
    ((s.commitUTXO E).commit E removeEmpty).reset.Coins P := by
  refine ⟨fun a v hv => (by cases hv), fun a v hv => ?_⟩
  have hv' : (s.commitUTXO E).stateUTXO.find a = some v := hv
  simp only [commitUTXO] at hv'
  split at hv'
  · rename_i x hx
    split at hv'
    · obtain rfl := Option.some.inj hv'
      exact h.cached a x hx
    · cases hv'
  · exact h.stored a v hv'

theorem Coins.updateUTXO {vins : Address → Option Vin} (h : s.Coins P) (hv : CoinsOf P vins) :
    (s.updateUTXO vins).Coins P := by
  refine ⟨fun a v hc => ?_, h.stored⟩
  simp only [SilubiumState.updateUTXO] at hc
  split at hc
  · exact h.cached a v hc
  · rename_i x _ hx _
    obtain rfl := Option.some.inj hc
    exact hv a x hx
  · rename_i x hx _
    split at hc
    · obtain rfl := Option.some.inj hc
      exact hv a x hx
    · exact h.cached a v hc

/-- **One execution keeps a property of all coins**, if the coins it makes
have it. -/
theorem execute_coins (hn : w.state.newAddress = 0) (hw : w.state.Coins P)
    (hnew : ∀ ctx, settlementOf E env t trace w = some ctx → ctx.reachedVoutLimit = false →
      r.tx = ctx.createCondensingTX →
      CoinsOf P (ctx.createVin (nullableHash H ctx.createCondensingTX)))
    (h : execute H E tipHeight .committed env t trace w = some (w', r)) : w'.state.Coins P := by
  cases execute_outcome hn h with
  | caught hc => exact (hw.of_sameTries (hc.sameTries hn)).handleException
  | @limited run hrun =>
    have hcon : (concluded env t trace run).Coins P :=
      (hw.of_sameTries (hrun.final_sameTries hn)).concluded
    exact Coins.handleException ⟨hcon.cached, hcon.stored⟩
  | excepted hrun _ _ _ _ _ =>
    exact (hw.of_sameTries (hrun.final_sameTries hn)).concluded.commit
  | settled hrun _ _ _ _ hsome hlimit =>
    have hfin := hw.of_sameTries (hrun.final_sameTries hn)
    exact (hfin.concluded.updateUTXO (hnew _ hsome hlimit rfl)).commit

/-- The condensing transaction of an execution: it finds the coin of the
output first, and every other coin in the state. -/
theorem settlementOf_spec {ctx : CondensingTX} (hn : w.state.newAddress = 0)
    (ht : w.state.transfers = []) (h : settlementOf E env t trace w = some ctx) :
    ctx.Leads ∧ ctx.transaction = t ∧ ∀ P, w.state.Coins P → ctx.state.Coins P := by
  unfold settlementOf at h
  split at h
  · cases h
  rename_i hvalue
  split at h
  · cases h
  split at h
  · cases h
  rename_i run hrun
  split at h
  · rename_i hend
    obtain ⟨⟩ := h
    have hcreate : t.isCreation → t.value = 0 := fun hc => by
      by_contra hv
      exact hvalue ⟨hc, hv⟩
    have hrun' : RunsFrom E env t trace w run := hrun
    exact ⟨hrun'.leads hn ht hcreate hend.1, rfl,
      fun P hP => (hP.of_sameTries (hrun'.final_sameTries hn)).concluded⟩
  · cases h

/-- Every execution leaves the members it uses reset. -/
theorem execute_reset (hn : w.state.newAddress = 0)
    (h : execute H E tipHeight .committed env t trace w = some (w', r)) :
    w'.state.newAddress = 0 ∧ w'.state.transfers = [] := by
  cases execute_outcome hn h <;> exact ⟨rfl, rfl⟩

end SilubiumState

namespace CondensingTX

variable {ctx : CondensingTX} {H : Hashes} {a : Address} {v : Vin}

/-- The coins made carry the hash of the transaction. -/
theorem createVin_hash {txid : UInt256} (h : ctx.createVin txid a = some v) : v.hash = txid := by
  unfold createVin at h
  split at h
  · cases h
  · obtain ⟨b, -, rfl⟩ := map_eq_some_iff.1 h
    split <;> rfl

/-- A coin with value is an output of the condensing transaction, with the
value of the output. -/
theorem createVin_output (hlead : ctx.Leads) (hcov : ctx.Covered) (hfit : ctx.Fits)
    (hlim : ctx.reachedVoutLimit = false) {txid : UInt256} (h : ctx.createVin txid a = some v)
    (hv : 0 < v.value) :
    ∃ o, ctx.createVout.outs[v.nVout]? = some o ∧ o.nValue = v.value.toNat ∧ 0 < ctx.pool := by
  have hok := (createNewBalances_snd hlead).2 hcov
  have hover := overflow_eq_false hlead hcov hlim
  unfold createVin at h
  split at h
  · cases h
  obtain ⟨b, hb, heq⟩ := map_eq_some_iff.1 h
  split at heq
  · rename_i hpos
    subst heq
    have hmem := Std.TreeMap.mem_toList_iff_getElem?_eq_some.2 hb
    obtain ⟨hparty, hnet⟩ := (mem_createNewBalances hlead hok).1 hmem
    obtain ⟨i, hi, hout⟩ := (voutsFrom_nVouts OrderedMap.keys_nodup hover).1 (a, b) hmem hpos
    have hlt : b.toNat < 2 ^ 63 := by
      have := hcov.netted_lt hfit hparty
      rwa [← show b = ctx.netted a from hnet] at this
    refine ⟨ctx.voutOf (a, b), ?_, ?_, ?_⟩
    · have hn : ctx.nVoutOf a = i := by
        rw [nVoutOf, if_pos hok, Std.TreeMap.getD_eq_getD_getElem?]
        exact congrArg (fun x => x.getD 0) hi
      simp only [hn]
      exact hout
    · rw [voutOf, toCAmount_eq hlt]
    · rw [← hcov.sum_netted hfit]
      refine Finset.sum_pos' (fun _ _ => Nat.zero_le _) ⟨a, List.mem_toFinset.2 hparty, ?_⟩
      rw [← show b = ctx.netted a from hnet]
      exact hpos
  · subst heq
    exact absurd hv (BitVec.lt_irrefl _)

end CondensingTX

namespace ByteCodeExec

variable {H : Hashes} {E : AalEnv} {vm : Vm} {tipHeight : ℕ} {env : EnvInfo}
  {t : SilubiumTransaction} {r : ResultExecute} {w w' : AalState}

/-! ## The value transfers -/

/-- A transaction spends an outpoint. -/
def spends (o : COutPoint) (tx : CTransaction) : Bool := decide (o ∈ tx.vin.map CTxIn.prevout)

/-- What one result adds to the value transfers. -/
def transfersOf (H : Hashes) (t : SilubiumTransaction) (r : ResultExecute) : List CTransaction :=
  (if r.excepted ≠ .none ∧ 0 < t.value then [refundTx t] else []) ++
    (r.tx.filter fun tx => decide (tx.getHash H ≠ 0)).toList

theorem mem_transfersOf {tx : CTransaction} (h : tx ∈ transfersOf H t r) :
    tx = refundTx t ∨ r.tx = some tx := by
  rw [transfersOf, mem_append] at h
  rcases h with h | h
  · split at h
    · exact .inl (mem_singleton.1 h)
    · cases h
  · rw [mem_toList, filter_eq_some_iff] at h
    exact .inr h.1

/-- A failed output with value is refunded. -/
theorem transfersOf_failed (he : r.excepted ≠ .none) (htx : r.tx = none) (hv : 0 < t.value) :
    transfersOf H t r = [refundTx t] := by
  rw [transfersOf, if_pos ⟨he, hv⟩, htx]
  rfl

theorem spends_refundTx : spends ⟨t.hashWith, t.nVout⟩ (refundTx t) = true := by
  simp [spends, refundTx]

variable {out out' : ByteCodeExecResult}

theorem refund_valueTransfers (h : refund t r out = some out') :
    out'.valueTransfers =
      out.valueTransfers ++ if r.excepted ≠ .none ∧ 0 < t.value then [refundTx t] else [] := by
  unfold refund at h
  simp only at h
  split at h
  · rename_i he
    obtain ⟨⟩ := h
    by_cases hv : 0 < t.value
    · rw [if_pos hv, if_pos ⟨he, hv⟩]
    · rw [if_neg hv, if_neg fun h => hv h.2, append_nil]
  · rename_i he
    rw [if_neg fun h => he h.1, append_nil]
    split at h
    · cases h
    · split at h
      · cases h
      · split at h <;> (obtain rfl := Option.some.inj h; rfl)

theorem pushTransfer_valueTransfers :
    (pushTransfer H r out).valueTransfers =
      out.valueTransfers ++ (r.tx.filter fun tx => decide (tx.getHash H ≠ 0)).toList := by
  unfold pushTransfer
  split
  · rename_i tx htx
    by_cases hh : tx.getHash H ≠ 0
    · simp [htx, if_pos hh, filter_some]
    · simp [htx, if_neg hh, filter_some]
  · rename_i htx
    simp [htx]

theorem processResult_valueTransfers (h : processResult H t r out = some out') :
    out'.valueTransfers = out.valueTransfers ++ transfersOf H t r := by
  obtain ⟨out₁, h₁, rfl⟩ := map_eq_some_iff.1 h
  rw [pushTransfer_valueTransfers, refund_valueTransfers h₁, transfersOf, List.append_assoc]

theorem processingResults_valueTransfers {txs : List SilubiumTransaction}
    {rs : List ResultExecute}
    (h : processingResults H txs rs = some out) :
    out.valueTransfers = (txs.zip rs).flatMap fun q => transfersOf H q.1 q.2 := by
  have hfold : ∀ (l : List (SilubiumTransaction × ResultExecute)) (out₀ : ByteCodeExecResult),
      l.foldlM (fun out q => processResult H q.1 q.2 out) out₀ = some out →
      out.valueTransfers = out₀.valueTransfers ++ l.flatMap fun q => transfersOf H q.1 q.2 := by
    intro l
    induction l with
    | nil =>
      intro out₀ h
      obtain ⟨⟩ := h
      simp
    | cons q l ih =>
      intro out₀ h
      simp only [foldlM_cons, bind_eq_bind, bind_eq_some_iff] at h
      obtain ⟨out₁, h₁, h⟩ := h
      rw [ih out₁ h, processResult_valueTransfers h₁, flatMap_cons, List.append_assoc]
  exact hfold _ _ h

/-! ## One output -/

section Step

open SilubiumState

variable {h : UInt256} {n : ℕ} {P : COutPoint → ℕ → Prop} {trace : EvmTrace}

variable {tx : CTransaction}

section

variable (hn : w.state.newAddress = 0) (ht : w.state.transfers = [])
include hn ht

/-- What the transaction of a result spends: the output itself, and coins
of the state. -/
theorem execute_tx_spends (hw : w.state.Coins P)
    (hex : execute H E tipHeight .committed env t trace w = some (w', r))
    (htx : r.tx = some tx) {o : COutPoint} (ho : o ∈ tx.vin.map CTxIn.prevout) :
    o = ⟨t.hashWith, t.nVout⟩ ∨ ∃ v, P o v := by
  cases execute_outcome hn hex with
  | caught => cases htx
  | excepted => cases htx
  | limited =>
    simp only [voutLimitRefund] at htx
    split at htx
    · obtain ⟨⟩ := htx
      left
      simpa using ho
    · cases htx
  | settled _ _ _ _ _ hsome _ =>
    obtain ⟨hlead, htr, hcoins⟩ := settlementOf_spec hn ht hsome
    obtain ⟨-, rfl⟩ := createCondensingTX_eq_some hlead htx
    by_cases hown : o = ⟨t.hashWith, t.nVout⟩
    · exact .inl hown
    · obtain ⟨a, v, hv, hpos, rfl⟩ :=
        state_of_mem_createVins hlead ho (by rwa [htr])
      exact .inr ⟨_, (hcoins P hw).vin a v hv hpos⟩

/-- Only the output itself is spent, among the outputs of its
transaction. -/
theorem count_transfersOf_other (hw : w.state.Coins fun o _ => o.hash ≠ t.hashWith)
    (hex : execute H E tipHeight .committed env t trace w = some (w', r)) (hne : n ≠ t.nVout) :
    (transfersOf H t r).countP (spends ⟨t.hashWith, n⟩) = 0 := by
  have hown : (⟨t.hashWith, n⟩ : COutPoint) ≠ ⟨t.hashWith, t.nVout⟩ := fun heq =>
    hne (congrArg COutPoint.n heq)
  rw [countP_eq_zero]
  intro tx htx hs
  have ho : (⟨t.hashWith, n⟩ : COutPoint) ∈ tx.vin.map CTxIn.prevout := of_decide_eq_true hs
  rcases mem_transfersOf htx with rfl | htx
  · exact hown (by simpa [refundTx] using ho)
  · rcases execute_tx_spends hn ht hw hex htx ho with heq | ⟨_, hP⟩
    · exact hown heq
    · exact hP rfl

/-- **An output with value is spent exactly once if and only if its
condensing transaction, if there is one, is covered.** -/
theorem count_transfersOf_own (hmade : ∀ tx, r.tx = some tx → tx.getHash H ≠ 0)
    (hfit : ∀ ctx, settlementOf E env t trace w = some ctx → ctx.Fits)
    (hex : execute H E tipHeight .committed env t trace w = some (w', r)) (hv : 0 < t.value) :
    (transfersOf H t r).countP (spends ⟨t.hashWith, t.nVout⟩) = 1 ↔
      ∀ ctx, settlementOf E env t trace w = some ctx → ctx.Covered := by
  have hrefund := transfersOf_failed (H := H) (t := t) (r := r)
  -- the transaction of the result is pushed, since its hash is not null
  have hpush : ∀ tx, r.tx = some tx → r.excepted = .none → transfersOf H t r = [tx] := by
    intro tx htx he
    simp [transfersOf, htx, he, hmade tx htx]
  cases execute_outcome hn hex with
  | caught _ he hnone =>
    rw [hrefund he rfl hv]
    simp [hnone, spends_refundTx]
  | excepted _ _ _ _ hend hnone =>
    rw [hrefund hend rfl hv]
    simp [hnone, spends_refundTx]
  | limited _ hsome hlimit =>
    obtain ⟨hlead, -, -⟩ := settlementOf_spec hn ht hsome
    have htx : voutLimitRefund t = some {
        vin := [{ prevout := ⟨t.hashWith, t.nVout⟩, scriptSig := spendScript }]
        vout := [⟨wrap64 (t.value.toNat % 2 ^ 64), payToPubkeyHash t.sender⟩] } := if_pos hv
    rw [hpush _ htx rfl]
    simp only [hsome]
    have hcov : (condensing env t trace _).Covered :=
      (createNewBalances_snd hlead).1 (Bool.and_eq_true_iff.1 hlimit).1
    simp [spends, hcov]
  | settled _ _ _ _ _ hsome hlimit =>
    obtain ⟨hlead, htr, -⟩ := settlementOf_spec hn ht hsome
    simp only [hsome, Option.some.injEq, forall_eq']
    generalize condensing env t trace _ = ctx at *
    by_cases hcov : ctx.Covered
    · have hv' : 0 < ctx.transaction.value := htr ▸ hv
      have hown := own_mem_createVins hlead hv'
      have hover := overflow_eq_false hlead hcov hlimit
      have hpool : 0 < ctx.pool := by
        refine Finset.sum_pos' (fun _ _ => Nat.zero_le _)
          ⟨_, List.mem_toFinset.2 (hlead.sender_mem hv'), ?_⟩
        rw [available, selected, if_pos ⟨rfl, hv'⟩]
        exact hv'
      have hvins : ctx.createVins ≠ [] := by
        intro hnil
        rw [hnil] at hown
        cases hown
      obtain ⟨tx, htx⟩ := isSome_iff_exists.1
        (createCondensingTX_isSome hlead hcov (hfit _ hsome) hover hvins hpool)
      obtain ⟨-, heq⟩ := createCondensingTX_eq_some hlead htx
      rw [hpush tx htx rfl]
      rw [htr] at hown
      simp only [hcov, iff_true]
      rw [countP_singleton, if_pos]
      rw [heq]
      exact decide_eq_true hown
    · have hnone := createCondensingTX_of_not_covered hlead hcov
      simp [transfersOf, hnone, hcov]

end

/-- The coins an execution makes have another hash than the executed
transaction. -/
theorem execute_foreign (hn : w.state.newAddress = 0) (hh : h ≠ 0)
    (hmade : ∀ tx, r.tx = some tx → tx.getHash H ≠ h)
    (hw : w.state.Coins fun o _ => o.hash ≠ h)
    (hex : execute H E tipHeight .committed env t trace w = some (w', r)) :
    w'.state.Coins fun o _ => o.hash ≠ h := by
  refine execute_coins hn hw (fun ctx _ _ htx a v hv _ => ?_) hex
  have hhash := createVin_hash hv
  rw [hhash, ← htx]
  cases hr : r.tx with
  | none => exact hh.symm
  | some tx => exact hmade tx hr

/-- A transaction pays out what it spends. -/
def Balanced (value : COutPoint → ℤ) (tx : CTransaction) : Prop :=
  (tx.vin.map fun i => value i.prevout).sum = (tx.vout.map CTxOut.nValue).sum

variable {value : COutPoint → ℤ}

/-- One coin paid out whole. -/
theorem single_balanced {o : COutPoint} {x : ℤ} {script script' : CScript} (h : value o = x) :
    Balanced value { vin := [{ prevout := o, scriptSig := script }], vout := [⟨x, script'⟩] } := by
  simp [Balanced, h]

section

variable (hown : value ⟨t.hashWith, t.nVout⟩ = t.value.toNat) (hlt : t.value.toNat < 2 ^ 63)
include hown hlt

theorem refundTx_balanced : Balanced value (refundTx t) :=
  single_balanced (hown.trans (toCAmount_eq hlt).symm)

theorem voutLimitRefund_balanced
    (htx : voutLimitRefund t = some tx) : Balanced value tx := by
  unfold voutLimitRefund at htx
  split at htx
  · obtain ⟨⟩ := htx
    refine single_balanced (hown.trans ?_)
    have hmod : ((t.value.toNat : ℤ) % 2 ^ 64) = t.value.toNat :=
      Int.emod_eq_of_lt (by omega) (by omega)
    rw [hmod, wrap64_eq_self ⟨by omega, by omega⟩]
  · cases htx

end

section

variable (hn : w.state.newAddress = 0)
  (ht : w.state.transfers = []) (hw : w.state.Coins fun o n => value o = n)
include hn ht hw

/-- The inputs of a settled output are worth its pool. -/
theorem inputs_sum {ctx : CondensingTX} (hown : value ⟨t.hashWith, t.nVout⟩ = t.value.toNat)
    (hctx : settlementOf E env t trace w = some ctx) :
    (ctx.createVins.map fun i => value i.prevout).sum = ctx.pool := by
  obtain ⟨hlead, htr, hcoins⟩ := settlementOf_spec hn ht hctx
  refine createVins_sum hlead value fun a v hsel hpos => ?_
  unfold selected at hsel
  split at hsel
  · obtain ⟨⟩ := hsel
    rw [transactionVin, htr]
    exact hown
  · exact (hcoins _ hw).vin a v hsel hpos

/-- **What one output adds to the value transfers is balanced**, if its
condensing transaction is covered. -/
theorem transfersOf_balanced
    (hown : value ⟨t.hashWith, t.nVout⟩ = t.value.toNat) (hlt : t.value.toNat < 2 ^ 63)
    (hfit : ∀ ctx, settlementOf E env t trace w = some ctx → ctx.Fits)
    (hex : execute H E tipHeight .committed env t trace w = some (w', r))
    (htx : tx ∈ transfersOf H t r) : Balanced value tx := by
  rcases mem_transfersOf htx with rfl | htx
  · exact refundTx_balanced hown hlt
  cases execute_outcome hn hex with
  | caught => cases htx
  | excepted => cases htx
  | limited => exact voutLimitRefund_balanced hown hlt htx
  | settled _ _ _ _ _ hsome hlimit =>
    obtain ⟨hlead, -, -⟩ := settlementOf_spec hn ht hsome
    obtain ⟨hcov, rfl⟩ := createCondensingTX_eq_some hlead htx
    have hover := overflow_eq_false hlead hcov hlimit
    exact (inputs_sum hn ht hw hown hsome).trans
      (createVout_sum hlead hcov (hfit _ hsome) hover).symm

/-- The coins a covered execution makes are outputs of its transaction. -/
theorem execute_known (hown : value ⟨t.hashWith, t.nVout⟩ = t.value.toNat)
    (hmade : ∀ tx, r.tx = some tx → ∀ i o, tx.vout[i]? = some o →
      value ⟨tx.getHash H, i⟩ = o.nValue)
    (hset : ∀ ctx, settlementOf E env t trace w = some ctx → ctx.Covered ∧ ctx.Fits)
    (hex : execute H E tipHeight .committed env t trace w = some (w', r)) :
    w'.state.Coins fun o n => value o = n := by
  refine execute_coins hn hw (fun ctx hctx hlimit htx a v hv hpos => ?_) hex
  obtain ⟨hcov, hfit⟩ := hset ctx hctx
  obtain ⟨hlead, -, -⟩ := settlementOf_spec hn ht hctx
  obtain ⟨o, ho, hval, hpool⟩ := createVin_output hlead hcov hfit hlimit hv hpos
  have hover := overflow_eq_false hlead hcov hlimit
  have hvins : ctx.createVins ≠ [] := by
    intro hnil
    have hsum := inputs_sum hn ht hw hown hctx
    rw [hnil, map_nil, sum_nil] at hsum
    omega
  obtain ⟨tx, hsome⟩ := isSome_iff_exists.1
    (createCondensingTX_isSome hlead hcov hfit hover hvins hpool)
  obtain ⟨-, heq⟩ := createCondensingTX_eq_some hlead hsome
  have hvout : tx.vout[v.nVout]? = some o := by
    rw [heq]
    exact ho
  have hhash := createVin_hash hv
  rw [hsome] at hhash
  rw [hhash, ← hval]
  exact hmade tx (htx.trans hsome) v.nVout o hvout

end

end Step

/-! ## All outputs of a transaction -/

open SilubiumState

/-- The condensing transactions computed on the way, one for each output
that gets that far. -/
def settlements (H : Hashes) (E : AalEnv) (vm : Vm) (tipHeight : ℕ) (env : EnvInfo) :
    List SilubiumTransaction → AalState → List CondensingTX
  | [], _ => []
  | t :: txs, w =>
    if skips t w then settlements H E vm tipHeight env txs w
    else
      (settlementOf E env t (vm w env t) w).toList ++
        match execute H E tipHeight .committed env t (vm w env t) w with
        | some q => settlements H E vm tipHeight env txs q.1
        | none => []

variable {txs : List SilubiumTransaction} {rs : List ResultExecute} {h : UInt256} {n : ℕ}

/-- The first output is skipped, or executed. -/
inductive Performed (H : Hashes) (E : AalEnv) (vm : Vm) (tipHeight : ℕ) (env : EnvInfo)
    (t : SilubiumTransaction) (txs : List SilubiumTransaction) (w w' : AalState) :
    List ResultExecute → Prop
  | skip {rs : List ResultExecute}
      (hrest : performByteCode H E vm tipHeight .committed env txs w = some (w', rs))
      (hset : settlements H E vm tipHeight env (t :: txs) w =
        settlements H E vm tipHeight env txs w) :
      Performed H E vm tipHeight env t txs w w' (skipped :: rs)
  | execute {w₁ : AalState} {r : ResultExecute} {rs : List ResultExecute}
      (hex : execute H E tipHeight .committed env t (vm w env t) w = some (w₁, r))
      (hrest : performByteCode H E vm tipHeight .committed env txs w₁ = some (w', rs))
      (hset : settlements H E vm tipHeight env (t :: txs) w =
        (settlementOf E env t (vm w env t) w).toList ++
          settlements H E vm tipHeight env txs w₁) :
      Performed H E vm tipHeight env t txs w w' (r :: rs)

theorem performByteCode_performed
    (hp : performByteCode H E vm tipHeight .committed env (t :: txs) w = some (w', rs)) :
    Performed H E vm tipHeight env t txs w w' rs := by
  simp only [performByteCode] at hp
  split at hp
  · cases hp
  split at hp
  · rename_i hskip
    simp only [map_eq_some_iff, Prod.exists] at hp
    obtain ⟨_, _, hrest, rfl, rfl⟩ := hp
    exact .skip hrest (if_pos hskip)
  · rename_i hskip
    simp only [bind_eq_some_iff, map_eq_some_iff, Prod.exists] at hp
    obtain ⟨w₁, r, hex, _, _, hrest, rfl, rfl⟩ := hp
    refine .execute hex hrest ?_
    rw [settlements, if_neg hskip, hex]

/-- What is given of the outputs of the transaction with hash `h`: no coin
of the state and no transaction made has that hash, and amounts fit. -/
structure Given (H : Hashes) (E : AalEnv) (vm : Vm) (tipHeight : ℕ) (env : EnvInfo) (h : UInt256)
    (txs : List SilubiumTransaction) (w : AalState) (rs : List ResultExecute) : Prop where
  newAddress : w.state.newAddress = 0
  transfers : w.state.transfers = []
  hash_ne : h ≠ 0
  hashWith : ∀ t ∈ txs, t.hashWith = h
  made : ∀ r ∈ rs, ∀ tx, r.tx = some tx → tx.getHash H ≠ h ∧ tx.getHash H ≠ 0
  foreign : w.state.Coins fun o _ => o.hash ≠ h
  fits : ∀ ctx ∈ settlements H E vm tipHeight env txs w, ctx.Fits

theorem Given.skip (hg : Given H E vm tipHeight env h (t :: txs) w (r :: rs))
    (hset : settlements H E vm tipHeight env (t :: txs) w =
      settlements H E vm tipHeight env txs w) : Given H E vm tipHeight env h txs w rs where
  newAddress := hg.newAddress
  transfers := hg.transfers
  hash_ne := hg.hash_ne
  hashWith t ht := hg.hashWith t (mem_cons_of_mem _ ht)
  made r hr := hg.made r (mem_cons_of_mem _ hr)
  foreign := hg.foreign
  fits ctx hctx := hg.fits ctx (hset ▸ hctx)

theorem Given.execute {w₁ : AalState} (hg : Given H E vm tipHeight env h (t :: txs) w (r :: rs))
    (hex : execute H E tipHeight .committed env t (vm w env t) w = some (w₁, r))
    (hset : settlements H E vm tipHeight env (t :: txs) w =
      (settlementOf E env t (vm w env t) w).toList ++ settlements H E vm tipHeight env txs w₁) :
    Given H E vm tipHeight env h txs w₁ rs where
  newAddress := (execute_reset hg.newAddress hex).1
  transfers := (execute_reset hg.newAddress hex).2
  hash_ne := hg.hash_ne
  hashWith t ht := hg.hashWith t (mem_cons_of_mem _ ht)
  made r hr := hg.made r (mem_cons_of_mem _ hr)
  foreign := execute_foreign hg.newAddress hg.hash_ne
    (fun tx htx => (hg.made r mem_cons_self tx htx).1) hg.foreign hex
  fits ctx hctx := hg.fits ctx (hset ▸ mem_append_right _ hctx)

/-- The transactions in `valueTransfers` that spend an output. -/
def spentBy (H : Hashes) (txs : List SilubiumTransaction) (rs : List ResultExecute)
    (o : COutPoint) : ℕ :=
  ((txs.zip rs).flatMap fun q => transfersOf H q.1 q.2).countP (spends o)

theorem spentBy_cons {o : COutPoint} :
    spentBy H (t :: txs) (r :: rs) o =
      (transfersOf H t r).countP (spends o) + spentBy H txs rs o := by
  simp [spentBy]

/-- A skipped output is refunded: it alone is spent. -/
theorem count_transfersOf_skipped :
    (transfersOf H t skipped).countP (spends ⟨t.hashWith, n⟩) =
      if 0 < t.value ∧ n = t.nVout then 1 else 0 := by
  by_cases hv : 0 < t.value
  · rw [transfersOf_failed (by decide) rfl hv]
    by_cases hn : n = t.nVout
    · rw [if_pos ⟨hv, hn⟩, hn, countP_singleton, if_pos spends_refundTx]
    · simp [spends, refundTx, hn]
  · rw [if_neg fun h => hv h.1, transfersOf, if_neg fun h => hv h.2]
    rfl

/-- An outpoint that is not among the outputs is not spent. -/
theorem spentBy_eq_zero (hg : Given H E vm tipHeight env h txs w rs)
    (hp : performByteCode H E vm tipHeight .committed env txs w = some (w', rs))
    (hn : n ∉ txs.map SilubiumTransaction.nVout) : spentBy H txs rs ⟨h, n⟩ = 0 := by
  induction txs generalizing w rs with
  | nil => simp [spentBy]
  | cons t txs ih =>
    have hh : t.hashWith = h := hg.hashWith t mem_cons_self
    simp only [map_cons, mem_cons, not_or] at hn
    cases performByteCode_performed hp with
    | skip hrest hset =>
      rw [spentBy_cons, ih (hg.skip hset) hrest hn.2, ← hh, count_transfersOf_skipped,
        if_neg fun h => hn.1 h.2]
    | execute hex hrest hset =>
      rw [spentBy_cons, ih (hg.execute hex hset) hrest hn.2, ← hh,
        count_transfersOf_other hg.newAddress hg.transfers (hh ▸ hg.foreign) hex hn.1]

/-- Every output with value is spent once exactly when every condensing
transaction of an output with value is covered. -/
theorem spentBy_eq_one_iff (hg : Given H E vm tipHeight env h txs w rs)
    (hnd : (txs.map SilubiumTransaction.nVout).Nodup)
    (hp : performByteCode H E vm tipHeight .committed env txs w = some (w', rs)) :
    (∀ t ∈ txs, 0 < t.value → spentBy H txs rs ⟨h, t.nVout⟩ = 1) ↔
      ∀ ctx ∈ settlements H E vm tipHeight env txs w, 0 < ctx.transaction.value → ctx.Covered := by
  induction txs generalizing w rs with
  | nil => simp [settlements]
  | cons t txs ih =>
    have hh : t.hashWith = h := hg.hashWith t mem_cons_self
    simp only [map_cons, nodup_cons] at hnd
    have hne : ∀ t' ∈ txs, t'.nVout ≠ t.nVout := fun t' ht' heq =>
      hnd.1 (heq ▸ List.mem_map_of_mem ht')
    rw [forall_mem_cons]
    cases performByteCode_performed hp with
    | skip hrest hset =>
      have hg' := hg.skip hset
      rw [hset, ← ih hg' hnd.2 hrest]
      constructor
      · rintro ⟨-, htail⟩ t' ht' hv
        have := htail t' ht' hv
        rwa [spentBy_cons, ← hh, count_transfersOf_skipped, if_neg fun h => hne t' ht' h.2,
          Nat.zero_add, hh] at this
      · intro htail
        refine ⟨fun hv => ?_, fun t' ht' hv => ?_⟩
        · rw [spentBy_cons, spentBy_eq_zero hg' hrest hnd.1, ← hh, count_transfersOf_skipped,
            if_pos ⟨hv, rfl⟩]
        · rw [spentBy_cons, htail t' ht' hv, ← hh, count_transfersOf_skipped,
            if_neg fun h => hne t' ht' h.2]
    | execute hex hrest hset =>
      rename_i w₁ r rs
      have hg' := hg.execute hex hset
      have hown : 0 < t.value → (spentBy H (t :: txs) (r :: rs) ⟨h, t.nVout⟩ = 1 ↔
          ∀ ctx, settlementOf E env t (vm w env t) w = some ctx → ctx.Covered) := by
        intro hv
        rw [spentBy_cons, spentBy_eq_zero hg' hrest hnd.1, ← hh]
        refine count_transfersOf_own hg.newAddress hg.transfers
          (fun tx htx => (hg.made r mem_cons_self tx htx).2) (fun ctx hctx => ?_) hex hv
        exact hg.fits ctx (hset ▸ mem_append_left _ (mem_toList.2 hctx))
      have hother : ∀ t' ∈ txs, spentBy H (t :: txs) (r :: rs) ⟨h, t'.nVout⟩ =
          spentBy H txs rs ⟨h, t'.nVout⟩ := by
        intro t' ht'
        have hzero := count_transfersOf_other hg.newAddress hg.transfers (hh ▸ hg.foreign) hex
          (hne t' ht')
        rw [hh] at hzero
        rw [spentBy_cons, hzero, Nat.zero_add]
      have htr : ∀ ctx, settlementOf E env t (vm w env t) w = some ctx → ctx.transaction = t :=
        fun ctx hctx => (settlementOf_spec hg.newAddress hg.transfers hctx).2.1
      simp only [hset, mem_append, mem_toList, or_imp, forall_and]
      rw [← ih hg' hnd.2 hrest]
      constructor
      · rintro ⟨hhead, htail⟩
        refine ⟨fun ctx hctx hv => ?_, fun t' ht' hv => ?_⟩
        · rw [htr ctx hctx] at hv
          exact (hown hv).1 (hhead hv) ctx hctx
        · rw [← hother t' ht']
          exact htail t' ht' hv
      · rintro ⟨hhead, htail⟩
        refine ⟨fun hv => (hown hv).2 fun ctx hctx => hhead ctx hctx ?_, fun t' ht' hv => ?_⟩
        · rwa [htr ctx hctx]
        · rw [hother t' ht']
          exact htail t' ht' hv

/-- A valuation of outpoints that knows the outputs executed, the coins of
the state, and the outputs of every transaction made. -/
structure Values (H : Hashes) (value : COutPoint → ℤ) (txs : List SilubiumTransaction)
    (w : AalState) (rs : List ResultExecute) : Prop where
  own : ∀ t ∈ txs, value ⟨t.hashWith, t.nVout⟩ = t.value.toNat
  range : ∀ t ∈ txs, t.value.toNat < 2 ^ 63
  coins : w.state.Coins fun o n => value o = n
  made : ∀ r ∈ rs, ∀ tx, r.tx = some tx → ∀ i o, tx.vout[i]? = some o →
    value ⟨tx.getHash H, i⟩ = o.nValue

/-- Every value transfer pays out what it spends, if every condensing
transaction is covered. -/
theorem valueTransfers_balanced {value : COutPoint → ℤ}
    (hg : Given H E vm tipHeight env h txs w rs) (hval : Values H value txs w rs)
    (hp : performByteCode H E vm tipHeight .committed env txs w = some (w', rs))
    (hcov : ∀ ctx ∈ settlements H E vm tipHeight env txs w, ctx.Covered) :
    ∀ tx ∈ (txs.zip rs).flatMap fun q => transfersOf H q.1 q.2, Balanced value tx := by
  induction txs generalizing w rs with
  | nil => simp
  | cons t txs ih =>
    have hown := hval.own t mem_cons_self
    have hlt := hval.range t mem_cons_self
    have htail : ∀ r rs, Values H value (t :: txs) w (r :: rs) → ∀ w₁ : AalState,
        (w₁.state.Coins fun o n => value o = n) → Values H value txs w₁ rs :=
      fun r rs hv w₁ hc => ⟨fun t ht => hv.own t (mem_cons_of_mem _ ht),
        fun t ht => hv.range t (mem_cons_of_mem _ ht), hc,
        fun r hr => hv.made r (mem_cons_of_mem _ hr)⟩
    cases performByteCode_performed hp with
    | skip hrest hset =>
      intro tx htx
      rw [zip_cons_cons, flatMap_cons, mem_append] at htx
      rcases htx with htx | htx
      · rcases mem_transfersOf htx with rfl | htx
        · exact refundTx_balanced hown hlt
        · cases htx
      · exact ih (hg.skip hset) (htail _ _ hval _ hval.coins) hrest (hset ▸ hcov) tx htx
    | execute hex hrest hset =>
      intro tx htx
      rw [hset] at hcov
      have hfit : ∀ ctx, settlementOf E env t (vm w env t) w = some ctx → ctx.Fits := fun ctx hctx =>
        hg.fits ctx (hset ▸ mem_append_left _ (mem_toList.2 hctx))
      have hcov₁ : ∀ ctx, settlementOf E env t (vm w env t) w = some ctx → ctx.Covered :=
        fun ctx hctx => hcov ctx (mem_append_left _ (mem_toList.2 hctx))
      rw [zip_cons_cons, flatMap_cons, mem_append] at htx
      rcases htx with htx | htx
      · exact transfersOf_balanced hg.newAddress hg.transfers hval.coins hown hlt hfit hex htx
      have hknown := execute_known hg.newAddress hg.transfers hval.coins hown
        (hval.made _ mem_cons_self) (fun ctx hctx => ⟨hcov₁ ctx hctx, hfit ctx hctx⟩) hex
      exact ih (hg.execute hex hset) (htail _ _ hval _ hknown) hrest
        (fun ctx hctx => hcov ctx (mem_append_right _ hctx)) tx htx

/-- **Every coin sent to a contract is spent exactly once by the account
abstraction layer, and at its value, as long as no list of transfers
overdraws an address.** Given the outputs of one transaction, each output
with value is an input of exactly one value transfer if and only if the
condensing transaction of each such output that gets to compute one is
covered; and if all of them are covered, every value transfer pays out
exactly what it spends. -/
theorem spent_once_iff {out : ByteCodeExecResult} (hg : Given H E vm tipHeight env h txs w rs)
    (hnd : (txs.map SilubiumTransaction.nVout).Nodup)
    (hp : performByteCode H E vm tipHeight .committed env txs w = some (w', rs))
    (hr : processingResults H txs rs = some out) :
    ((∀ t ∈ txs, 0 < t.value → out.valueTransfers.countP (spends ⟨h, t.nVout⟩) = 1) ↔
      ∀ ctx ∈ settlements H E vm tipHeight env txs w,
        0 < ctx.transaction.value → ctx.Covered) ∧
    ((∀ ctx ∈ settlements H E vm tipHeight env txs w, ctx.Covered) →
      ∀ value, Values H value txs w rs → ∀ tx ∈ out.valueTransfers, Balanced value tx) := by
  rw [processingResults_valueTransfers hr]
  exact ⟨spentBy_eq_one_iff hg hnd hp,
    fun hcov value hval => valueTransfers_balanced hg hval hp hcov⟩

/-! ## An output that nothing spends -/

/-- A contract passes 4 of the 10 it was sent on in a call that is undone,
and then all 10 in a call that stands. -/
def overdrawing : EvmTrace :=
  ⟨false, [.call .call 400 4 false [] (.throw .other), .call .call 400 10 false [] (.ret [])],
    .ret [], 70000⟩

/-- **An overdrawn output is lost:** the execution succeeds, the list has
the contract pay 14 from 10, and no transaction spends the output. -/
theorem overdrawn_output_unspent :
    ∃ out, ((performByteCode sampleHashes sampleEnv (fun _ _ _ => overdrawing) 0 .committed
        sampleInfo [sampleCall 300 0 10] sampleWorld).bind fun q =>
          processingResults sampleHashes [sampleCall 300 0 10] q.2) = some out ∧
      (sampleCall 300 0 10).value = 10 ∧ out.valueTransfers.countP (spends ⟨5, 0⟩) = 0 :=
  ⟨⟨30000, 700000, [⟨700000, payToPubkeyHash 1⟩], []⟩, by decide⟩

/-- The contract called keeps what it is sent. -/
def keeping : EvmTrace := ⟨false, [], .ret [], 70000⟩

theorem keeping_performs :
    (performByteCode sampleHashes sampleEnv (fun _ _ _ => keeping) 0 .committed sampleInfo
      [sampleCall 300 0 10] sampleWorld).isSome := by
  decide

theorem sampleWorld_coins (P : COutPoint → ℕ → Prop) : sampleWorld.state.Coins P :=
  ⟨fun _ _ hv => (by cases hv), fun _ _ hv => (by cases hv)⟩

/-- The only amount in play is the 10 that was sent. -/
theorem keeping_fits {ctx : CondensingTX}
    (hctx : ctx ∈ settlements sampleHashes sampleEnv (fun _ _ _ => keeping) 0 sampleInfo
      [sampleCall 300 0 10] sampleWorld) : ctx.Fits := by
  have hset : settlements sampleHashes sampleEnv (fun _ _ _ => keeping) 0 sampleInfo
      [sampleCall 300 0 10] sampleWorld =
        (settlementOf sampleEnv sampleInfo (sampleCall 300 0 10) keeping sampleWorld).toList := by
    have hskip : ¬ skips (sampleCall 300 0 10) sampleWorld = true := by decide
    rw [settlements, if_neg hskip]
    split <;> simp [settlements]
  rw [hset, mem_toList] at hctx
  have htransfers : (settlementOf sampleEnv sampleInfo (sampleCall 300 0 10) keeping
      sampleWorld).map CondensingTX.transfers = some [⟨1, 300, 10⟩] := by
    decide
  rw [hctx, map_some, Option.some.injEq] at htransfers
  obtain ⟨-, htr, hcoins⟩ := settlementOf_spec rfl rfl hctx
  have havail : ∀ a, (ctx.available a).toNat ≤ 10 := by
    intro a
    unfold available selected
    split
    · rename_i v hsel
      split at hsel
      · obtain ⟨⟩ := hsel
        split
        · rw [transactionVin, htr]
          decide
        · exact Nat.zero_le _
      · -- a coin of the state would have to be worthless
        have hworthless : ¬ 0 < v.value :=
          (hcoins (fun _ _ => False) (sampleWorld_coins _)).vin a v hsel
        split
        · rw [BitVec.le_zero_iff.1 (BitVec.not_lt.1 hworthless)]
          exact Nat.zero_le _
        · exact Nat.zero_le _
    · exact Nat.zero_le _
  have hflow : ∀ a, inflow ctx.transfers a ≤ 10 ∧ outflow ctx.transfers a ≤ 10 := by
    intro a
    rw [htransfers]
    simp only [inflow, outflow, keyedSum_cons, keyedSum_nil]
    constructor <;> split <;> decide
  refine ⟨fun a => ?_, fun a => ?_, ?_⟩
  · have h₁ := havail a
    have h₂ := (hflow a).1
    omega
  · have h₂ := (hflow a).2
    omega
  · have hcard : ctx.partySet.card ≤ 2 := by
      rw [partySet, htransfers]
      decide
    have hsum := Finset.sum_le_card_nsmul ctx.partySet (fun a => (ctx.available a).toNat) 10
      fun a _ => havail a
    have hpool : ctx.pool ≤ ctx.partySet.card * 10 := by simpa [pool] using hsum
    omega

/-- Sending 10 to a contract that keeps them: the output is spent once. -/
theorem spent_once_iff_keeping :
    ∃ w' rs out, performByteCode sampleHashes sampleEnv (fun _ _ _ => keeping) 0 .committed
        sampleInfo [sampleCall 300 0 10] sampleWorld = some (w', rs) ∧
      processingResults sampleHashes [sampleCall 300 0 10] rs = some out ∧
      ((∀ t ∈ [sampleCall 300 0 10], 0 < t.value →
          out.valueTransfers.countP (spends ⟨5, t.nVout⟩) = 1) ↔
        ∀ ctx ∈ settlements sampleHashes sampleEnv (fun _ _ _ => keeping) 0 sampleInfo
          [sampleCall 300 0 10] sampleWorld, 0 < ctx.transaction.value → ctx.Covered) := by
  obtain ⟨⟨w', rs⟩, hp⟩ := isSome_iff_exists.1 keeping_performs
  have hmap : (performByteCode sampleHashes sampleEnv (fun _ _ _ => keeping) 0 .committed
      sampleInfo [sampleCall 300 0 10] sampleWorld).map
        (fun q => (q.2.map fun r => r.tx.map fun tx => tx.getHash sampleHashes,
          processingResults sampleHashes [sampleCall 300 0 10] q.2)) =
      some ([some 1011], some ⟨30000, 700000, [⟨700000, payToPubkeyHash 1⟩],
        [{ vin := [{ prevout := ⟨5, 0⟩, scriptSig := spendScript }]
           vout := [⟨10, noExecCall 300⟩] }]⟩) := by
    decide +kernel
  rw [hp, map_some, Option.some.injEq, Prod.mk.injEq] at hmap
  obtain ⟨htx, hr⟩ := hmap
  refine ⟨w', rs, _, hp, hr, (spent_once_iff ⟨rfl, rfl, by decide, ?_, ?_, sampleWorld_coins _,
    fun ctx => keeping_fits⟩ (by decide) hp hr).1⟩
  · simp [sampleCall]
  intro r hrs tx hsome
  have hmem := List.mem_map_of_mem (f := fun r : ResultExecute =>
    r.tx.map fun tx => tx.getHash sampleHashes) hrs
  rw [htx, hsome, map_some, mem_singleton, Option.some.injEq] at hmem
  rw [hmem]
  decide

end ByteCodeExec

end Slucore

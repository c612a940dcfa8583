import Slucore.Aal.Spending
import Slucore.Validation.Issuance
/-!
# Validation — what a block gives back for unused gas

A contract output pays for its gas in advance, as part of the fee of its
transaction, and gets the price of what it has not used back from the
coinbase or the coinstake. The gas stipends of a transaction are compared
with its fee before it is executed, so the refunds are exact and covered
by the fee (`refunds_covered_iff`) unless the transaction is shaped as a
coinstake: the fee it pays is then not counted. Only in proof-of-stake
blocks are contracts in such a transaction ruled out.
-/


namespace Slucore

open List hiding le_antisymm not_lt

/-- The virtual machine leaves at most the gas it was given. -/
def Vm.WithinGas (vm : Vm) : Prop := ∀ w env t, (vm w env t).gasLeft ≤ t.gas

/-- The gas prices that are read off scripts have 64 bits. -/
def Node.PricesFit (N : Node) : Prop := ∀ tx view vtx extract,
  N.extractSilubiumTX tx view vtx = some extract → ∀ q ∈ extract.txs, q.gasPrice.toNat < 2 ^ 64

namespace SilubiumTransaction

/-- What an output pays for its gas in advance. -/
def stipend (t : SilubiumTransaction) : ℕ := t.gas.toNat * t.gasPrice.toNat

end SilubiumTransaction

namespace ByteCodeExec

open SilubiumState

variable {H : Hashes} {E : AalEnv} {vm : Vm} {tipHeight : ℕ} {p : Permanence} {env : EnvInfo}
  {t : SilubiumTransaction} {trace : EvmTrace} {w w' : AalState} {r : ResultExecute}
  {txs : List SilubiumTransaction} {rs : List ResultExecute}

/-! ## The results of the virtual machine -/

theorem execute_gasUsed (hg : trace.gasLeft ≤ t.gas)
    (h : execute H E tipHeight p env t trace w = some (w', r)) : r.gasUsed ≤ t.gas := by
  have hleft : t.gas - gasLeftOf trace ≤ t.gas := by
    have hle : gasLeftOf trace ≤ t.gas := by
      unfold gasLeftOf
      split
      · simp [BitVec.le_def]
      · exact hg
    rw [BitVec.le_def, BitVec.toNat_sub_of_le hle]
    omega
  have hall : t.gas ≤ t.gas := BitVec.le_refl _
  unfold execute at h
  split at h
  · cases h
  simp only at h
  have hresult : ∀ {u : AalState} {q : ResultExecute}, some (u, q) = some (w', r) →
      q.gasUsed ≤ t.gas → r.gasUsed ≤ t.gas := fun heq hq => by
    rwa [← (Prod.mk.inj (Option.some.inj heq)).2]
  -- every exit uses all of the gas, or what was not left
  split at h
  · exact hresult h hall
  split at h
  · exact hresult h hall
  split at h
  · cases h
  split at h
  · exact hresult h hall
  split at h
  · exact hresult h hleft
  split at h
  · split at h
    · exact hresult h hall
    · exact hresult h hleft
  · exact hresult h hleft

/-- **No output uses more gas than it has.** -/
theorem performByteCode_gasUsed (hvm : vm.WithinGas)
    (h : performByteCode H E vm tipHeight .committed env txs w = some (w', rs)) :
    ∀ q ∈ txs.zip rs, q.2.gasUsed ≤ q.1.gas := by
  induction txs generalizing w rs with
  | nil => simp
  | cons t txs ih =>
    cases performByteCode_performed h with
    | skip hrest _ =>
      simp only [zip_cons_cons, mem_cons, forall_eq_or_imp]
      have hzero : (0 : U256) ≤ t.gas := by simp [BitVec.le_def]
      exact ⟨hzero, ih hrest⟩
    | execute hex hrest _ =>
      simp only [zip_cons_cons, mem_cons, forall_eq_or_imp]
      exact ⟨execute_gasUsed (hvm _ _ _) hex, ih hrest⟩

/-! ## The refunds -/

/-- What is due to an output for unused gas, in exact integers; nothing
after an exception. -/
def refundDue (q : SilubiumTransaction × ResultExecute) : ℤ :=
  if q.2.excepted ≠ .none then 0
  else ((q.1.gas.toNat : ℤ) - q.2.gasUsed.toNat) * q.1.gasPrice.toNat

/-- The outputs that pay what is due. -/
def refundsDue (qs : List (SilubiumTransaction × ResultExecute)) : List CTxOut :=
  (qs.filter fun q => decide (0 < refundDue q)).map fun q =>
    ⟨refundDue q, payToPubkeyHash q.1.sender⟩

theorem refundDue_mem {q : SilubiumTransaction × ResultExecute} (h : q.2.gasUsed ≤ q.1.gas) :
    0 ≤ refundDue q ∧ refundDue q ≤ q.1.stipend := by
  unfold refundDue SilubiumTransaction.stipend
  split
  · exact ⟨le_rfl, by positivity⟩
  rw [BitVec.le_def] at h
  constructor
  · exact mul_nonneg (by omega) (by positivity)
  · push_cast
    exact mul_le_mul_of_nonneg_right (by omega) (by positivity)

variable {out : ByteCodeExecResult}

/-- **The 64-bit amount of a refund is exact** where the stipend fits. -/
theorem refund_refundOutputs {out' : ByteCodeExecResult} (hu : r.gasUsed ≤ t.gas)
    (hs : t.stipend < 2 ^ 63) (h : refund t r out = some out') :
    out'.refundOutputs = out.refundOutputs ++ refundsDue [(t, r)] := by
  obtain ⟨hpos, hle⟩ : 0 ≤ refundDue (t, r) ∧ refundDue (t, r) ≤ t.stipend := refundDue_mem hu
  unfold refund at h
  simp only at h
  split at h
  · rename_i hex
    have hzero : refundDue (t, r) = 0 := if_pos hex
    obtain ⟨⟩ := h
    simp [refundsDue, hzero]
  · rename_i hex
    split at h
    · cases h
    rename_i hfit
    have hused : r.gasUsed.toNat % 2 ^ 64 = r.gasUsed.toNat := Nat.mod_eq_of_lt (by omega)
    have hdue : refundDue (t, r) = ((t.gas.toNat : ℤ) - r.gasUsed.toNat) * t.gasPrice.toNat :=
      if_neg hex
    have hamount : wrap64 ((t.gas.toNat - (r.gasUsed.toNat % 2 ^ 64 : ℕ) : ℤ) *
        t.gasPrice.toNat) = refundDue (t, r) := by
      rw [hused, hdue]
      exact wrap64_eq_self ⟨by omega, by omega⟩
    rw [hamount, if_neg (not_lt.2 hpos)] at h
    split at h
    · rename_i hgt
      obtain ⟨⟩ := h
      simp [refundsDue, hgt]
    · rename_i hgt
      obtain ⟨⟩ := h
      simp [refundsDue, hgt]

/-- **The refunds are what is due**, output by output. -/
theorem processingResults_refundOutputs
    (hu : ∀ q ∈ txs.zip rs, q.2.gasUsed ≤ q.1.gas) (hs : ∀ t ∈ txs, t.stipend < 2 ^ 63)
    (h : processingResults H txs rs = some out) :
    out.refundOutputs = refundsDue (txs.zip rs) := by
  have hfold : ∀ (l : List (SilubiumTransaction × ResultExecute)) (o o' : ByteCodeExecResult),
      (∀ q ∈ l, q.2.gasUsed ≤ q.1.gas ∧ q.1.stipend < 2 ^ 63) →
      l.foldlM (fun out q => processResult H q.1 q.2 out) o = some o' →
      o'.refundOutputs = o.refundOutputs ++ refundsDue l := by
    intro l
    induction l with
    | nil =>
      intro o o' _ h
      obtain ⟨⟩ := h
      simp [refundsDue]
    | cons q l ih =>
      intro o o' hl h
      rw [foldlM_cons, Option.bind_eq_bind, Option.bind_eq_some_iff] at h
      obtain ⟨o₁, h₁, hrest⟩ := h
      obtain ⟨o₂, h₂, rfl⟩ := Option.map_eq_some_iff.1 h₁
      obtain ⟨hq, hqs⟩ := hl q mem_cons_self
      have hpush : (pushTransfer H q.2 o₂).refundOutputs = o₂.refundOutputs := by
        unfold pushTransfer
        split
        · split <;> rfl
        · rfl
      rw [ih _ _ (fun q' hq' => hl q' (mem_cons_of_mem q hq')) hrest, hpush,
        refund_refundOutputs hq hqs h₂]
      simp [refundsDue, ← map_append, ← filter_append]
  have hempty := hfold _ _ _ (fun q hq => ⟨hu q hq, hs q.1 (of_mem_zip hq).1⟩) h
  simpa [ByteCodeExecResult.empty] using hempty

end ByteCodeExec

/-! ## One transaction -/

open ByteCodeExec CCoinsViewCache

/-- One transaction of a block in the loop: the coins before it, and the
contract outputs that were executed, each with its result. -/
structure TxRun where
  tx : CTransaction
  view : CCoinsViewCache
  outputs : List (SilubiumTransaction × ResultExecute)

namespace TxRun

/-- What the transaction gets back. -/
def refunds (r : TxRun) : ℤ := (r.outputs.map refundDue).sum

/-- The fee that is counted for it: none for a coinbase, and none for a
transaction shaped as a coinstake. -/
def fee (r : TxRun) : ℤ := if r.tx.isCoinBase || r.tx.isCoinStake then 0 else -r.view.excess r.tx

end TxRun

namespace BlockContext

variable {H : Hashes} {N : Node} {C : BlockContext} {tx : CTransaction} {s s' : ConnectState}
  {i : ℕ}

/-- The contract outputs of a transaction executed, without the checks
before it: the state they leave, and their results. -/
def runOutputs (H : Hashes) (N : Node) (C : BlockContext) (tx : CTransaction)
    (view : CCoinsViewCache) (w : AalState) :
    Option (AalState × List (SilubiumTransaction × ResultExecute)) :=
  if tx.hasCreateOrCall && !tx.hasOpSpend then do
    let extract ← N.extractSilubiumTX tx view C.block.vtx
    let (w', results) ← performByteCode H C.aalEnv N.vm N.tipHeight .committed
      (buildEVMEnvironment N C) extract.txs w
    return (w', extract.txs.zip results)
  else some (w, [])

variable {txs : List SilubiumTransaction}

/-- The loop over the contract outputs adds up their stipends, exactly for
prices of 64 bits, and compares the sum with the fee. -/
theorem foldlM_checkContractOutput {nTxFee : ℤ}
    {g g' : GasTally} (hprice : ∀ q ∈ txs, q.gasPrice.toNat < 2 ^ 64)
    (hg : g.sumGas.toNat < 2 ^ 63) (h : txs.foldlM (checkContractOutput C nTxFee) g = .ok g') :
    g'.sumGas.toNat = g.sumGas.toNat + (txs.map SilubiumTransaction.stipend).sum ∧
      g'.sumGas.toNat < 2 ^ 63 ∧ (txs ≠ [] → g'.sumGas ≤ BitVec.ofInt 256 nTxFee) := by
  induction txs generalizing g with
  | nil =>
    obtain rfl := foldlM_nil_eq_ok.1 h
    exact ⟨by simp, hg, fun hne => absurd rfl hne⟩
  | cons q txs ih =>
    obtain ⟨g₁, h₁, hrest⟩ := foldlM_cons_eq_ok.1 h
    simp only [checkContractOutput, bind_eq_ok, require_eq_ok, pure_eq_ok,
      decide_eq_true_eq] at h₁
    obtain ⟨-, hsum, -, hfee, -, -, -, -, -, -, -, -, -, -, -, -, -, hgas, -, -, -, -, rfl⟩ := h₁
    have hq := hprice q mem_cons_self
    have hprod : q.stipend < 2 ^ 96 :=
      calc q.gas.toNat * q.gasPrice.toNat
        _ < 2 ^ 32 * 2 ^ 64 := Nat.mul_lt_mul'' (by omega) hq
        _ = 2 ^ 96 := by norm_num
    have hmul : (q.gas * q.gasPrice).toNat = q.stipend := by
      exact Nat.mod_eq_of_lt (hprod.trans (by norm_num))
    have hadd : (g.sumGas + q.gas * q.gasPrice).toNat = g.sumGas.toNat + q.stipend := by
      rw [BitVec.toNat_add, hmul]
      exact Nat.mod_eq_of_lt (by omega)
    obtain ⟨heq, hlt, hle⟩ := ih (fun q' hq' => hprice q' (mem_cons_of_mem q hq'))
      (by simp only; omega) hrest
    refine ⟨?_, hlt, fun _ => ?_⟩
    · rw [heq, map_cons, sum_cons]
      simp only
      omega
    · cases txs with
      | nil =>
        obtain rfl := foldlM_nil_eq_ok.1 hrest
        exact hfee
      | cons q' txs => exact hle (cons_ne_nil q' txs)

theorem sum_refundDue_le {results : List ResultExecute}
    (h : ∀ q ∈ txs.zip results, q.2.gasUsed ≤ q.1.gas) :
    ((txs.zip results).map refundDue).sum ≤ (txs.map SilubiumTransaction.stipend).sum := by
  induction txs generalizing results with
  | nil => simp
  | cons t txs ih =>
    cases results with
    | nil => exact Int.natCast_nonneg _
    | cons r results =>
      simp only [zip_cons_cons, mem_cons, forall_eq_or_imp] at h
      have hhead : refundDue (t, r) ≤ t.stipend := (refundDue_mem h.1).2
      have htail := ih h.2
      simp only [zip_cons_cons, map_cons, sum_cons]
      omega

/-- What the contracts of one transaction do to the refunds of the block. -/
structure Refunds (H : Hashes) (N : Node) (C : BlockContext) (tx : CTransaction)
    (s s' : ConnectState) (qs : List (SilubiumTransaction × ResultExecute)) : Prop where
  outputs : runOutputs H N C tx s.view s.aal = some (s'.aal, qs)
  checkVouts : s'.checkVouts = s.checkVouts ++ refundsDue qs
  gasRefunds : s'.gasRefunds =
    (refundsDue qs).foldl (fun g out => wrap64 (g + out.nValue)) s.gasRefunds
  nonneg : ∀ q ∈ qs, 0 ≤ refundDue q
  covered : ∀ txfee, PaysFee s.view tx txfee → tx.isCoinStake = false →
    (qs.map refundDue).sum ≤ txfee

/-- **The contracts of a transaction get back what is due, and its fee
covers it.** -/
theorem runContracts_refunds (hprices : N.PricesFit) (hvm : N.vm.WithinGas)
    (h : runContracts H N C tx s = .ok s') : ∃ qs, Refunds H N C tx s s' qs := by
  unfold runContracts at h
  dsimp only at h
  split at h
  · rename_i hc
    simp only [bind_eq_ok, pure_eq_ok, Prod.exists] at h
    obtain ⟨txs, hchecks, w, bcer, hexec, -, -, rfl⟩ := h
    simp only [checkContracts, bind_eq_ok, orThrow_eq_ok, pure_eq_ok] at hchecks
    obtain ⟨-, -, extract, hextract, -, -, valueOut, hout, tally, htally, -, -, rfl⟩ := hchecks
    simp only [executeContracts, bind_eq_ok, orThrow_eq_ok, Prod.exists] at hexec
    obtain ⟨w', results, hperform, bcer', hresults, rfl, rfl⟩ := hexec
    obtain ⟨hsum, hlt, hfee⟩ := foldlM_checkContractOutput (hprices _ _ _ _ hextract)
      (by decide) htally
    have hused := performByteCode_gasUsed hvm hperform
    have hstipend : ∀ t ∈ extract.txs, t.stipend < 2 ^ 63 := fun t ht => by
      have := single_le_sum (by simp) _ (List.mem_map_of_mem (f := SilubiumTransaction.stipend) ht)
      omega
    have hdue := processingResults_refundOutputs hused hstipend hresults
    refine ⟨extract.txs.zip results, ?_, ?_, ?_, fun q hq => (refundDue_mem (hused q hq)).1, ?_⟩
    · simp [runOutputs, hc, hextract, hperform]
    · rw [← hdue]
    · rw [← hdue]
    intro txfee hpays hcs
    have hle := sum_refundDue_le hused
    obtain ⟨heq, hrange⟩ := hpays.fee hcs
    obtain ⟨rfl, -⟩ := CTransaction.getValueOut_eq hout
    rw [moneyRange_iff, maxMoney_val] at hrange
    by_cases hnil : extract.txs = []
    · rw [hnil] at hle
      simp only [map_nil, sum_nil] at hle
      rw [hnil]
      omega
    · have hsumle := hfee hnil
      have htxfee : wrap64 (s.view.getValueIn tx - tx.valueOut) = txfee := by
        rw [hpays.getValueIn, ← heq]
        exact wrap64_eq_self ⟨by omega, by omega⟩
      rw [BitVec.le_def, BitVec.toNat_ofInt] at hsumle
      omega
  · rename_i hc
    obtain ⟨⟩ := h
    refine ⟨[], by simp [runOutputs, hc], by simp [refundsDue], by simp [refundsDue], by simp, ?_⟩
    intro txfee hpays hcs
    have hrange := (hpays.fee hcs).2
    rw [moneyRange_iff] at hrange
    simpa using hrange.1

/-- A turn, with what it does to the refunds. -/
theorem connectTx_refunds (hprices : N.PricesFit) (hvm : N.vm.WithinGas)
    (h : connectTx H N C s (tx, i) = .ok s') : ∃ qs, Refunds H N C tx s s' qs := by
  simp only [connectTx, bind_eq_ok] at h
  obtain ⟨s₁, h₁, s₂, h₂, s₃, h₃, s₄, h₄, s₅, h₅, h₆⟩ := h
  obtain ⟨nFees, rfl, -, -⟩ := chargeFee_eq_ok h₁
  obtain ⟨sig, rfl⟩ := countSigOps_eq_ok h₂
  obtain ⟨r, int, rfl, -, -⟩ := verifyInputs_eq_ok h₃
  obtain ⟨o, ni, rfl⟩ := countValues_eq_ok h₄
  obtain ⟨qs, hqs⟩ := runContracts_refunds hprices hvm h₅
  obtain ⟨view, vprevout, -, rfl⟩ := applyCoins_eq_ok h₆
  exact ⟨qs, hqs.outputs, hqs.checkVouts, hqs.gasRefunds, hqs.nonneg, hqs.covered⟩

/-! ## The loop -/

/-- The transactions of a list, one after the other, with their contract
outputs executed; `none` when an execution fails. -/
def runs (H : Hashes) (N : Node) (C : BlockContext) :
    List CTransaction → CCoinsViewCache → AalState → Option (List TxRun)
  | [], _, _ => some []
  | tx :: vtx, view, w => do
    let (w', outputs) ← runOutputs H N C tx view w
    let rest ← runs H N C vtx (view.afterTx H C.nHeight tx) w'
    return ⟨tx, view, outputs⟩ :: rest

/-- The refunds of a list of transactions, in order. -/
def allRefunds (rs : List TxRun) : List CTxOut := rs.flatMap fun r => refundsDue r.outputs

/-- What is known of a transaction that went through. -/
structure Sound (r : TxRun) : Prop where
  nonneg : ∀ q ∈ r.outputs, 0 ≤ refundDue q
  covered : r.tx.isCoinBase = false → r.tx.isCoinStake = false → r.refunds ≤ r.fee
  plain : r.tx.hasCreateOrCall = false → r.outputs = []

variable {qs : List (SilubiumTransaction × ResultExecute)}

theorem Refunds.sound
    (h : Refunds H N C tx s s' qs) (ht : Turn H N C tx i s s') : Sound ⟨tx, s.view, qs⟩ where
  nonneg := h.nonneg
  covered := fun hcb hcs => by
    obtain ⟨txfee, hpays, -, -⟩ := ht.fee hcb
    have hfee : txfee = -s.view.excess tx := by
      rw [(hpays.fee hcs).1]
      simp [excess]
    simpa [TxRun.refunds, TxRun.fee, hcb, hcs, hfee] using h.covered txfee hpays hcs
  plain := fun hplain => by
    have hout := h.outputs
    rw [runOutputs, if_neg (by simp [show tx.hasCreateOrCall = false from hplain])] at hout
    exact (Prod.mk.inj (Option.some.inj hout)).2.symm

/-- **What the loop leaves of the refunds and the fees.** -/
theorem foldlM_connectTx_runs (hprices : N.PricesFit) (hvm : N.vm.WithinGas)
    {vtx : List CTransaction} {k : ℕ} (hr : moneyRange s.nFees = true)
    (h : (vtx.zipIdx k).foldlM (connectTx H N C) s = .ok s') :
    ∃ rs, runs H N C vtx s.view s.aal = some rs ∧ rs.map TxRun.tx = vtx ∧
      s'.checkVouts = s.checkVouts ++ allRefunds rs ∧
      s'.gasRefunds =
        (allRefunds rs).foldl (fun g out => wrap64 (g + out.nValue)) s.gasRefunds ∧
      moneyRange s'.nFees = true ∧ s'.nFees = s.nFees + (rs.map TxRun.fee).sum ∧
      ∀ r ∈ rs, Sound r := by
  induction vtx generalizing k s with
  | nil =>
    obtain rfl := foldlM_nil_eq_ok.1 h
    exact ⟨[], rfl, rfl, by simp [allRefunds], by simp [allRefunds], hr, by simp, by simp⟩
  | cons tx vtx ih =>
    obtain ⟨t, ht, hrest⟩ := foldlM_cons_eq_ok.1 h
    have hturn := turn_of_connectTx ht
    obtain ⟨qs, hqs⟩ := connectTx_refunds hprices hvm ht
    obtain ⟨hr₁, hfee₁⟩ := hturn.nFees_eq hr
    obtain ⟨rs, hruns, htxs, hvouts, hgas, hr₂, hfee₂, hsound⟩ := ih hr₁ hrest
    rw [hturn.view_eq] at hruns
    refine ⟨⟨tx, s.view, qs⟩ :: rs, ?_, by rw [map_cons, htxs], ?_, ?_, hr₂, ?_, ?_⟩
    · simp [runs, hqs.outputs, hruns]
    · rw [hvouts, hqs.checkVouts, List.append_assoc]
      rfl
    · rw [hgas, hqs.gasRefunds, allRefunds, allRefunds, flatMap_cons, foldl_append]
    · rw [hfee₂, hfee₁, add_assoc]
      rfl
    · rw [forall_mem_cons]
      exact ⟨hqs.sound hturn, hsound⟩

/-- Refunds that add up to an amount do so in 64 bits. -/
theorem foldl_wrap64_eq {l : List CTxOut} {g : ℤ} (hg : 0 ≤ g) (hl : ∀ out ∈ l, 0 ≤ out.nValue)
    (hlt : g + (l.map CTxOut.nValue).sum < 2 ^ 63) :
    l.foldl (fun g out => wrap64 (g + out.nValue)) g = g + (l.map CTxOut.nValue).sum := by
  induction l generalizing g with
  | nil => simp
  | cons out l ih =>
    rw [forall_mem_cons] at hl
    have hrest : 0 ≤ (l.map CTxOut.nValue).sum := sum_nonneg fun x hx => by
      obtain ⟨o, ho, rfl⟩ := List.mem_map.1 hx
      exact hl.2 o ho
    rw [map_cons, sum_cons] at hlt ⊢
    have hexact : wrap64 (g + out.nValue) = g + out.nValue :=
      wrap64_eq_self ⟨by omega, by omega⟩
    rw [foldl_cons, ih (by omega) hl.2 (by omega)]
    omega

/-- The refunds of one transaction add up to what it gets back. -/
theorem sum_refundsDue (h : ∀ q ∈ qs, 0 ≤ refundDue q) :
    ((refundsDue qs).map CTxOut.nValue).sum = (qs.map refundDue).sum := by
  induction qs with
  | nil => rfl
  | cons q qs ih =>
    rw [forall_mem_cons] at h
    have hrest := ih h.2
    unfold refundsDue at hrest ⊢
    rw [filter_cons]
    split
    · simp only [map_cons, sum_cons, hrest]
    rename_i hq
    have hzero : refundDue q = 0 := by
      simp only [decide_eq_true_eq] at hq
      omega
    rw [hrest, map_cons, sum_cons, hzero, zero_add]

theorem sum_allRefunds {rs : List TxRun} (h : ∀ r ∈ rs, Sound r) :
    ((allRefunds rs).map CTxOut.nValue).sum = (rs.map TxRun.refunds).sum := by
  induction rs with
  | nil => rfl
  | cons r rs ih =>
    rw [forall_mem_cons] at h
    have hcons : allRefunds (r :: rs) = refundsDue r.outputs ++ allRefunds rs := rfl
    rw [hcons, map_append, sum_append, sum_refundsDue h.1.nonneg, ih h.2]
    rfl

/-! ## Every block -/

/-- The refunds of each transaction are covered by its fee, those of the
block by its fees and by its reward: neither test that compares them
fails. -/
structure Covered (N : Node) (nHeight : ℕ) (rs : List TxRun) (s : ConnectState) : Prop where
  each : ∀ r ∈ rs, r.refunds ≤ r.fee
  fees : s.gasRefunds ≤ s.nFees
  reward : s.gasRefunds ≤ wrap64 (s.nFees + getBlockSubsidy nHeight N.consensus)

/-- A proof-of-stake block has no contracts in transactions shaped as
coinstakes. -/
theorem plain_of_checkCoinstake {block : CBlock} (hcb : checkCoinbase block.vtx = .ok ())
    (h : checkCoinstake block = .ok ()) :
    ∀ tx ∈ block.vtx, tx.isCoinStake = true → tx.hasCreateOrCall = false := by
  obtain ⟨coinbase, rest, hfirst⟩ := coinbaseFirst_of_checkCoinbase hcb
  simp only [checkCoinstake, hfirst.vtx_eq, bind_eq_ok] at h
  obtain ⟨-, -, h⟩ := h
  rw [hfirst.vtx_eq, forall_mem_cons]
  refine ⟨fun _ => hfirst.plain.2, ?_⟩
  split at h
  · cases h
  rename_i coinstake others
  simp only [bind_eq_ok, require_eq_ok, List.all_eq_true, Bool.not_eq_true',
    Bool.or_eq_false_iff] at h
  obtain ⟨-, -, -, -, -, hothers, -, hplain⟩ := h
  rw [forall_mem_cons]
  refine ⟨fun _ => hplain, fun tx htx hcs => ?_⟩
  rw [hothers tx htx] at hcs
  cases hcs

/-- **Gas refunds are exact, and covered if and only if no transaction
shaped as a coinstake gets gas back.** They are where no such transaction
has contract outputs, as in every proof-of-stake block. -/
theorem refunds_covered_iff {view : CCoinsViewCache} {aal : AalState} (hprices : N.PricesFit)
    (hvm : N.vm.WithinGas) (hcb : checkCoinbase C.block.vtx = .ok ())
    (h : connectTransactions H N C view aal = .ok s) :
    ∃ rs, runs H N C C.block.vtx view aal = some rs ∧ rs.map TxRun.tx = C.block.vtx ∧
      s.checkVouts = allRefunds rs ∧ s.nFees = (rs.map TxRun.fee).sum ∧
      (Covered N C.nHeight rs s ↔ ∀ r ∈ rs, r.tx.isCoinStake = true → r.refunds = 0) ∧
      ((∀ tx ∈ C.block.vtx, tx.isCoinStake = true → tx.hasCreateOrCall = false) →
        Covered N C.nHeight rs s) ∧
      (checkCoinstake C.block = .ok () → Covered N C.nHeight rs s) := by
  obtain ⟨rs, hruns, htxs, hvouts, hgas, hrange, hfees, hsound⟩ :=
    foldlM_connectTx_runs hprices hvm moneyRange_zero h
  simp only [ConnectState.start, zero_add] at hvouts hgas hfees
  have hnonneg : ∀ r ∈ rs, 0 ≤ r.refunds := fun r hr => sum_nonneg fun x hx => by
    obtain ⟨q, hq, rfl⟩ := List.mem_map.1 hx
    exact (hsound r hr).nonneg q hq
  have hiff : Covered N C.nHeight rs s ↔ ∀ r ∈ rs, r.tx.isCoinStake = true → r.refunds = 0 := by
    constructor
    · intro hc r hr hcs
      have hle := hc.each r hr
      rw [TxRun.fee, hcs, Bool.or_true] at hle
      exact le_antisymm hle (hnonneg r hr)
    · intro hstake
      obtain ⟨coinbase, rest, hfirst⟩ := coinbaseFirst_of_checkCoinbase hcb
      have heach : ∀ r ∈ rs, r.refunds ≤ r.fee := by
        intro r hr
        cases hcs : r.tx.isCoinStake with
        | true => simp [hstake r hr hcs, TxRun.fee, hcs]
        | false =>
          cases hcoinbase : r.tx.isCoinBase with
          | false => exact (hsound r hr).covered hcoinbase hcs
          | true =>
            -- the only coinbase is the first transaction, which has no contracts
            have hmem : r.tx ∈ coinbase :: rest := hfirst.vtx_eq ▸ htxs ▸ List.mem_map_of_mem hr
            rcases mem_cons.1 hmem with heq | hmem
            · have hnil := (hsound r hr).plain (heq ▸ hfirst.plain.2)
              simp [TxRun.refunds, TxRun.fee, hnil, hcoinbase]
            · rw [hfirst.others _ hmem] at hcoinbase
              cases hcoinbase
      have hsum : (rs.map TxRun.refunds).sum ≤ s.nFees := by
        rw [hfees]
        exact sum_le_sum heach
      have hmoney := moneyRange_iff.1 hrange
      rw [maxMoney_val] at hmoney
      have hexact : s.gasRefunds = (rs.map TxRun.refunds).sum := by
        rw [hgas, foldl_wrap64_eq le_rfl, sum_allRefunds hsound, zero_add]
        · intro out hout
          obtain ⟨r, hr, hout⟩ := mem_flatMap.1 hout
          obtain ⟨q, hq, rfl⟩ := List.mem_map.1 hout
          exact (hsound r hr).nonneg q (mem_filter.1 hq).1
        · rw [sum_allRefunds hsound]
          omega
      have hsubsidy := getBlockSubsidy_mem C.nHeight N.consensus
      refine ⟨heach, hexact ▸ hsum, ?_⟩
      rw [wrap64_fees_add_subsidy hrange]
      omega
  have hplain : (∀ tx ∈ C.block.vtx, tx.isCoinStake = true → tx.hasCreateOrCall = false) →
      Covered N C.nHeight rs s := by
    intro hplain
    refine hiff.2 fun r hr hcs => ?_
    have hnil := (hsound r hr).plain (hplain r.tx (htxs ▸ List.mem_map_of_mem hr) hcs)
    simp [TxRun.refunds, hnil]
  exact ⟨rs, hruns, htxs, hvouts, hfees, hiff, hplain,
    fun hcs => hplain (plain_of_checkCoinstake hcb hcs)⟩

/-! ### Prices off scripts -/

open SilubiumTxConverter in
/-- A price that is read off a script has 63 bits. -/
theorem gasPrice_lt_of_parse {opcode : ℕ} {stack : List Valtype}
    {r : EthTransactionParams × List Valtype} (h : parseEthTXParams opcode stack = some r) :
    r.1.gasPrice.toNat < 2 ^ 64 := by
  have hparams {a : Address} {st : List Valtype} (hp : parseParams a st = some r) :
      r.1.gasPrice.toNat < 2 ^ 64 := by
    unfold parseParams at hp
    split at hp
    · simp only [Option.bind_eq_bind, Option.bind_eq_some_iff] at hp
      obtain ⟨-, -, price, -, limit, -, _, hmax, _, -, -, -, _, -, rfl, -⟩ := hp
      have hfit : price ≤ int64Max ∧ limit ≤ int64Max := by
        by_contra hnot
        simp [hnot] at hmax
      unfold int64Max at hfit
      exact (Nat.mod_le price (2 ^ 256)).trans_lt (by omega)
    · cases hp
  unfold parseEthTXParams at h
  split_ifs at h
  · split at h
    · cases h
    · exact hparams h
  · exact hparams h

open SilubiumTxConverter in
/-- **The converter reads prices of 64 bits.** -/
theorem pricesFit_of_converter {hashes : ScriptHashes} {keyID : CScript → Address}
    (hN : N.extractSilubiumTX = extractSilubiumTX H hashes keyID) : N.PricesFit := by
  intro tx view vtx extract hextract
  rw [hN] at hextract
  obtain ⟨l, hl, rfl⟩ := Option.map_eq_some_iff.1 hextract
  obtain ⟨s', hfold, rfl⟩ := Option.map_eq_some_iff.1 hl
  -- the loop keeps the bound on all that was extracted so far
  have hloop : ∀ (outs : List (CTxOut × ℕ)) (T : SilubiumTxConverter)
      (s : List Valtype × Extracted), outs.foldlM (T.extractOutput H) s = some s' →
      (∀ p ∈ s.2, p.1.gasPrice.toNat < 2 ^ 64) → ∀ p ∈ s'.2, p.1.gasPrice.toNat < 2 ^ 64 := by
    intro outs T
    induction outs with
    | nil =>
      intro s h hs
      obtain rfl : s = s' := by simpa using h
      exact hs
    | cons p outs ih =>
      intro s h hs
      rw [foldlM_cons, Option.bind_eq_bind, Option.bind_eq_some_iff] at h
      obtain ⟨s₁, hp, hrest⟩ := h
      refine ih s₁ hrest ?_
      unfold extractOutput at hp
      split_ifs at hp
      · simp only [Option.bind_eq_bind, Option.bind_eq_some_iff] at hp
        obtain ⟨q, -, r, hr, ⟨⟩⟩ := hp
        intro x hx
        rcases mem_append.1 hx with hx | hx
        · exact hs x hx
        · obtain rfl := mem_singleton.1 hx
          exact gasPrice_lt_of_parse hr
      · exact Option.some.inj hp ▸ hs
  intro q hq
  obtain ⟨p, hp, rfl⟩ := List.mem_map.1 hq
  exact hloop _ _ _ hfold nofun p hp

/-! ### A contract in a transaction shaped as a coinstake -/

/-- A proof-of-work block with a coinbase and one more transaction. -/
def callBlock (tx : CTransaction) : CBlock := sampleBlock .null [sampleCoinbase 0, tx]

/-- What the loop reads for it. -/
def callContext (tx : CTransaction) : BlockContext :=
  blockContext sampleNode sampleLimits (callBlock tx) 10 sampleParent idleWorld

/-- A call of contract 300 in a transaction shaped as a coinstake. -/
def stakeShapedCall : CTransaction := sampleCoinstake [⟨0, callScript 300⟩, ⟨5, [0x51]⟩]

/-- **A block gives back gas that nobody paid for**, as far as fees are
counted: it passes `CheckBlock`, the loop runs to its end, and the test
that compares the two fails. -/
theorem stakeShapedCall_uncovered :
    (checkBlock (singlingHashes (callBlock stakeShapedCall).toCBlockHeader) sampleNode sampleLimits
        (callBlock stakeShapedCall) true true true).toOption.isSome = true ∧
      (connectTransactions (singlingHashes (callBlock stakeShapedCall).toCBlockHeader) sampleNode
        (callContext stakeShapedCall) (sampleView 20000000) idleWorld).toOption.map
          (fun s => (s.nFees, s.gasRefunds)) = some (0, 700000) := by
  decide

/-- The same call in a transaction of another shape. -/
def plainCall : CTransaction where
  vin := [{ prevout := ⟨100, 0⟩, scriptSig := [] }]
  vout := [⟨0, callScript 300⟩, ⟨5, [0x51]⟩]

theorem plainCall_connects :
    (connectTransactions (singlingHashes (callBlock plainCall).toCBlockHeader) sampleNode
      (callContext plainCall) (sampleView 20000000) idleWorld).toOption.isSome = true := by
  decide

theorem sampleNode_withinGas : sampleNode.vm.WithinGas := by
  intro w env t
  show (if 30000 ≤ t.gas then t.gas - 30000 else 0) ≤ t.gas
  split <;> bv_omega

theorem plainCall_covered :
    ∃ s rs, connectTransactions (singlingHashes (callBlock plainCall).toCBlockHeader) sampleNode
        (callContext plainCall) (sampleView 20000000) idleWorld = .ok s ∧
      s.checkVouts = allRefunds rs ∧ Covered sampleNode 10 rs s := by
  obtain ⟨s, hs⟩ := exists_ok_of_isSome plainCall_connects
  obtain ⟨rs, -, -, hvouts, -, -, hplain, -⟩ := refunds_covered_iff
    (pricesFit_of_converter rfl) sampleNode_withinGas (by decide) hs
  exact ⟨s, rs, hs, hvouts, hplain (by decide)⟩

end BlockContext

end Slucore

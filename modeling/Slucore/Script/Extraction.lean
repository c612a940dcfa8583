import Slucore.Script.Solver
/-!
# Script — what is extracted from contract outputs

A contract output states a call by the values its script pushes
(`CScript.stated`). Where every contract output of a transaction only
pushes, the converter's stack is empty before each of them, and what is
extracted is what is stated (`foldlM_extractOutput_stated`); what a wallet
writes is such a script, and is read back. `Solver` also accepts
operations that push nothing in the place of a parameter: then the
converter takes what another output left on the stack.
-/


namespace Slucore

open List CScript
open Option hiding guard

/-! ## What an output states -/

/-- A call of a contract, or the creation of one if there is no receiver. -/
structure ContractCall where
  version : VersionVM
  gasLimit : ℕ
  gasPrice : ℕ
  data : List UInt8
  receiver : Option Address
deriving DecidableEq, Repr

/-- The call that an extracted transaction makes. -/
def SilubiumTransaction.call (t : SilubiumTransaction) : ContractCall :=
  ⟨t.version, t.gas.toNat, t.gasPrice.toNat, t.data,
    if t.isCreation then none else some t.receiveAddress⟩

/-- The call of four values, or of five with the receiver. -/
def statedBy (opcode : ℕ) (vs : List Valtype) : Option ContractCall :=
  match vs with
  | [version, gasLimit, gasPrice, data] =>
    if opcode = opCreate then
      some ⟨.fromRaw (readLE version), readLE gasLimit, readLE gasPrice, data, none⟩
    else none
  | [version, gasLimit, gasPrice, data, receiver] =>
    if opcode = opCall then
      some ⟨.fromRaw (readLE version), readLE gasLimit, readLE gasPrice, data,
        some (addressOfBytes receiver)⟩
    else none
  | _ => none

namespace CScript

/-- The values that the operations of a script push. -/
def pushed (script : CScript) : List Valtype :=
  script.operations.filterMap fun o => pushedValue o.1 o.2

/-- The call that a script states by the values it pushes. -/
def stated (script : CScript) : Option ContractCall :=
  script.operations.getLast?.bind fun last => statedBy last.1 script.pushed

/-- Every operation but the last pushes a value. -/
def pushesOnly (script : CScript) : Bool :=
  script.operations.dropLast.all fun o => (pushedValue o.1 o.2).isSome

end CScript

/-- A script that pushes as many values as its contract opcode, which ends
it, needs. -/
def PushesCall (script : CScript) (opcode : ℕ) (vs : List Valtype) : Prop :=
  NeedsValues opcode vs.length ∧
    ∃ ops rest, Reads script ops rest ∧ PushValues ops vs ∧ getOp rest = some (opcode, [], [])

namespace PushesCall

variable {script : CScript} {opcode : ℕ} {vs : List Valtype}

section

variable (h : PushesCall script opcode vs)
include h

/-- The operations are the pushes and the contract opcode. -/
theorem operations :
    ∃ ops, PushValues ops vs ∧ script.operations = ops ++ [(opcode, [])] := by
  obtain ⟨-, ops, rest, hreads, hvs, hop⟩ := h
  exact ⟨ops, hvs, (hreads.append (.cons hop (.nil _))).operations⟩

/-- A contract opcode pushes nothing. -/
theorem pushedValue_opcode : pushedValue opcode [] = none := by
  rcases h.1.opcode_eq with rfl | rfl <;> rfl

theorem pushed : script.pushed = vs := by
  obtain ⟨ops, hvs, hops⟩ := h.operations
  rw [CScript.pushed, hops, filterMap_append, hvs.filterMap]
  simp [h.pushedValue_opcode]

theorem stated : script.stated = statedBy opcode vs := by
  obtain ⟨ops, -, hops⟩ := h.operations
  rw [CScript.stated, h.pushed, hops]
  simp

/-- The only contract opcode is the last operation. -/
theorem find {op : ℕ} (hop : 0x60 < op) :
    script.find op = if opcode = op then 1 else 0 := by
  obtain ⟨ops, hvs, hops⟩ := h.operations
  have hzero : ops.countP (fun o => o.1 == op) = 0 := by
    rw [countP_eq_zero]
    intro o ho
    have := hvs.le ho
    simp only [beq_iff_eq]
    omega
  rw [find_eq_countP, hops, countP_append, hzero]
  simp

theorem hasOpCreate :
    script.hasOpCreate = decide (opcode = opCreate) := by
  rw [CScript.hasOpCreate, h.find (by decide)]
  by_cases hop : opcode = opCreate <;> simp [hop]

theorem hasOpCall :
    script.hasOpCall = decide (opcode = opCall) := by
  rw [CScript.hasOpCall, h.find (by decide)]
  by_cases hop : opcode = opCall <;> simp [hop]

theorem isContract : script.isContract = true := by
  rw [CScript.isContract, h.hasOpCreate, h.hasOpCall]
  rcases h.1.opcode_eq with rfl | rfl <;> simp

end

end PushesCall

/-! ## Reading the parameters -/

/-- A number of at most eight bytes is read as it stands. -/
theorem vchToUint64_eq_some {vch : Valtype} {n : ℕ} (h : vchToUint64 vch = some n) :
    n = readLE vch := by
  unfold vchToUint64 at h
  split_ifs at h
  split at h
  · rename_i hnil
    rw [List.getLast?_eq_none_iff] at hnil
    rw [hnil]
    exact (Option.some.inj h).symm
  · split_ifs at h
    exact (Option.some.inj h).symm

/-- The version has no bits above the four bytes. -/
theorem fromRaw_mod (n : ℕ) : VersionVM.fromRaw (n % 2 ^ 32) = VersionVM.fromRaw n := by
  unfold VersionVM.fromRaw
  congr 1 <;> omega

variable {params : EthTransactionParams}

/-- The call of parameters, which `createEthTX` makes. -/
theorem createEthTX_call {H : Hashes} {T : SilubiumTxConverter} {opcode nOut : ℕ}
    {out : CTxOut} :
    (T.createEthTX H opcode params nOut out).call =
      ⟨params.version, params.gasLimit.toNat, params.gasPrice.toNat, params.code,
        if params.receiveAddress == 0 && opcode != opCall then none
        else some params.receiveAddress⟩ := rfl

/-- **The parameters are the numbers that the elements spell.** -/
theorem parseParams_eq_some {receiver : Address} {code gasPrice gasLimit version : Valtype}
    {stack stack' : List Valtype}
    (h : SilubiumTxConverter.parseParams receiver
      (code :: gasPrice :: gasLimit :: version :: stack) = some (params, stack')) :
    stack' = stack ∧ params.version = .fromRaw (readLE version) ∧
      params.gasLimit.toNat = readLE gasLimit ∧ params.gasPrice.toNat = readLE gasPrice ∧
      params.code = code ∧ params.receiveAddress = receiver := by
  simp only [SilubiumTxConverter.parseParams, bind_eq_bind, bind_eq_some_iff] at h
  obtain ⟨_, -, gp, hgp, gl, hgl, _, hmax, _, -, _, -, v, hv, rfl, rfl⟩ := h
  obtain rfl := vchToUint64_eq_some hgp
  obtain rfl := vchToUint64_eq_some hgl
  obtain rfl := vchToUint64_eq_some hv
  have hfit : readLE gasPrice ≤ int64Max ∧ readLE gasLimit ≤ int64Max := by
    by_contra hnot
    simp [hnot] at hmax
  unfold int64Max at hfit
  refine ⟨rfl, fromRaw_mod _, ?_, ?_, rfl, rfl⟩
  · rw [BitVec.natCast_eq_ofNat, BitVec.toNat_ofNat]
    omega
  · show (readLE gasPrice : U256).toNat = readLE gasPrice
    rw [BitVec.natCast_eq_ofNat, BitVec.toNat_ofNat]
    omega

/-! ## One output that only pushes -/

namespace SilubiumTxConverter

variable {H : Hashes} {T : SilubiumTxConverter} {opcode : ℕ} {vs stack : List Valtype}
  {script : CScript}

/-- Parameters are taken off four elements at least. -/
theorem length_of_parse {r : EthTransactionParams × List Valtype}
    (h : parseEthTXParams opcode stack = some r) : 4 ≤ stack.length := by
  have hparams : ∀ {a : Address} {st : List Valtype}, parseParams a st = some r → 4 ≤ st.length := by
    intro a st hp
    unfold parseParams at hp
    split at hp
    · simp
    · cases hp
  unfold parseEthTXParams at h
  split_ifs at h
  · cases stack with
    | nil => cases h
    | cons vecAddr st =>
      exact Nat.le_succ_of_le (hparams h)
  · exact hparams h

/-- Below the rest of the script. -/
theorem length_of_receiveStack {left : List Valtype}
    (h : T.receiveStack stack script = some (opcode, left)) :
    left.length + 1 = ((ScriptEnv.execByteCode T.hashes).evalScript stack script).2.length := by
  unfold receiveStack at h
  split at h
  · cases h
  rename_i hstack
  dsimp only at h
  split_ifs at h
  obtain ⟨-, rfl⟩ := Prod.mk.inj (Option.some.inj h)
  rw [hstack, length_cons]

/-- A script of pushes that runs to its end gives its opcode and its values. -/
theorem receiveStack_of_pushes {ops : List (ℕ × Valtype)} {rest : CScript}
    (hcount : NeedsValues opcode vs.length)
    (hreads : Reads script ops rest) (hvs : PushValues ops vs)
    (hop : getOp rest = some (opcode, [], []))
    (hlen : ∀ o ∈ ops, o.2.length ≤ maxScriptElementSize) (hsize : script.length ≤ maxScriptSize) :
    T.receiveStack [] script = some (opcode, vs.reverse) := by
  have hroom : ([] : List Valtype).length + ops.length ≤ maxStackSize := by
    have hops := List.Forall₂.length_eq hvs
    have hfive := hcount.le_five
    unfold maxStackSize
    simp only [length_nil]
    omega
  have heval := ScriptEnv.evalScript_of_pushes (E := .execByteCode T.hashes) rfl hreads hvs hlen hop
    hcount.opcode_eq hsize hroom
  obtain ⟨b, pc, -, -, rfl, -, -, rfl, -, -⟩ := getOp_eq_some hop
  have hnot : ¬ ((b.toNat = opCreate ∧ vs.reverse.length < 4) ∨
      (b.toNat = opCall ∧ vs.reverse.length < 5)) := by
    rw [length_reverse]
    rcases hcount with ⟨h, hvs⟩ | ⟨h, hvs⟩
    · rw [h, hvs]
      decide
    · rw [h, hvs]
      decide
  rw [receiveStack, heval, append_nil]
  exact if_neg hnot

/-- The values of a script, taken off the stack, are the call they state. -/
theorem parse_of_pushes {params : EthTransactionParams} (n : ℕ) (out : CTxOut)
    (hcount : NeedsValues opcode vs.length)
    (h : parseEthTXParams opcode vs.reverse = some (params, stack)) :
    stack = [] ∧ statedBy opcode vs = some (T.createEthTX H opcode params n out).call := by
  rcases hcount with ⟨rfl, hlen⟩ | ⟨rfl, hlen⟩
  · match vs, hlen with
    | [version, gasLimit, gasPrice, data], _ =>
      obtain ⟨rfl, hv, hgl, hgp, hdata, hreceiver⟩ := parseParams_eq_some h
      refine ⟨rfl, ?_⟩
      rw [createEthTX_call, hv, hgl, hgp, hdata, hreceiver]
      rfl
  · match vs, hlen with
    | [version, gasLimit, gasPrice, data, receiver], _ =>
      obtain ⟨rfl, hv, hgl, hgp, hdata, hreceiver⟩ := parseParams_eq_some h
      refine ⟨rfl, ?_⟩
      rw [createEthTX_call, hv, hgl, hgp, hdata, hreceiver]
      simp [statedBy]

/-- **From an empty stack, a script that only pushes gives the call it
states**, if it gives one, and leaves the stack empty. -/
theorem extractOutput_of_pushes {out : CTxOut} {n : ℕ}
    {acc : Extracted} {r : List Valtype × Extracted} (h : PushesCall out.scriptPubKey opcode vs)
    (hx : T.extractOutput H ([], acc) (out, n) = some r) :
    ∃ x, r = ([], acc ++ [x]) ∧ x.1.nVout = n ∧ out.scriptPubKey.stated = some x.1.call := by
  rw [extractOutput, if_pos h.isContract] at hx
  simp only [bind_eq_bind, bind_eq_some_iff, Option.pure_def, Option.some.injEq,
    Prod.exists] at hx
  obtain ⟨opcode', stack, hstack, params, stack', hparse, rfl⟩ := hx
  rw [h.stated]
  obtain ⟨hcount, ops, rest, hreads, hvs, hop⟩ := h
  have hops := List.Forall₂.length_eq hvs
  have hfive := hcount.le_five
  by_cases hlen : ∀ o ∈ ops, o.2.length ≤ maxScriptElementSize
  · by_cases hsize : out.scriptPubKey.length ≤ maxScriptSize
    · rw [receiveStack_of_pushes hcount hreads hvs hop hlen hsize] at hstack
      obtain ⟨rfl, rfl⟩ : opcode = opcode' ∧ vs.reverse = stack := by simpa using hstack
      obtain ⟨rfl, hstated⟩ := parse_of_pushes (T := T) (H := H) n out hcount hparse
      exact ⟨_, rfl, rfl, hstated⟩
    · -- a script that is too long is not run
      rw [receiveStack, ScriptEnv.evalScript, if_pos (Nat.lt_of_not_le hsize)] at hstack
      cases hstack
  · -- with a value that is too long, too few are left
    have hroom : ([] : List Valtype).length + ops.length ≤ maxStackSize := by
      unfold maxStackSize
      simp only [length_nil]
      omega
    obtain ⟨k, hk, heval⟩ := ScriptEnv.evalScript_of_long_push (E := .execByteCode T.hashes) rfl
      hreads hvs (by simpa using hlen) hroom
    have hfour := length_of_parse hparse
    have hleft := length_of_receiveStack hstack
    rw [heval, append_nil, length_reverse, length_take] at hleft
    omega

/-! ## All outputs -/

variable {s s' : List Valtype × Extracted}

/-- A contract output gives one transaction, and another output none. -/
theorem extractOutput_eq_some {p : CTxOut × ℕ} (h : T.extractOutput H s p = some s') :
    (p.1.scriptPubKey.isContract = true ∧ ∃ x, s'.2 = s.2 ++ [x] ∧ x.1.nVout = p.2) ∨
      (p.1.scriptPubKey.isContract = false ∧ s' = s) := by
  unfold extractOutput at h
  split_ifs at h with hcontract
  · simp only [bind_eq_bind, bind_eq_some_iff] at h
    obtain ⟨opcode, stack, -, params, stack', -, rfl⟩ := h
    exact .inl ⟨hcontract, _, rfl, rfl⟩
  · exact .inr ⟨Bool.not_eq_true _ ▸ hcontract, (Option.some.inj h).symm⟩

variable {outs : List (CTxOut × ℕ)}

/-- Every contract output gives a transaction. -/
theorem foldlM_extractOutput_covers (h : outs.foldlM (T.extractOutput H) s = some s') :
    (∀ x ∈ s.2, x ∈ s'.2) ∧
      ∀ p ∈ outs, p.1.scriptPubKey.isContract = true → ∃ x ∈ s'.2, x.1.nVout = p.2 := by
  induction outs generalizing s with
  | nil =>
    obtain rfl : s = s' := by simpa using h
    simp
  | cons p outs ih =>
    rw [foldlM_cons, bind_eq_bind, bind_eq_some_iff] at h
    obtain ⟨s₁, hp, hrest⟩ := h
    obtain ⟨hkeep, hcover⟩ := ih hrest
    rcases extractOutput_eq_some hp with ⟨-, x, hx, hn⟩ | ⟨hnot, rfl⟩
    · rw [hx] at hkeep
      refine ⟨fun y hy => hkeep y (mem_append_left _ hy), fun q hq hc => ?_⟩
      rcases mem_cons.mp hq with rfl | hq
      · exact ⟨x, hkeep x (mem_append_right _ mem_cons_self), hn⟩
      · exact hcover q hq hc
    · refine ⟨hkeep, fun q hq hc => ?_⟩
      rcases mem_cons.mp hq with rfl | hq
      · rw [hnot] at hc
        cases hc
      · exact hcover q hq hc

/-- **Where every contract output only pushes, each gives the call it
states**: the stack is empty before each of them. -/
theorem foldlM_extractOutput_stated {acc : Extracted}
    (hpush : ∀ p ∈ outs, p.1.scriptPubKey.isContract = true →
      ∃ opcode vs, PushesCall p.1.scriptPubKey opcode vs)
    (h : outs.foldlM (T.extractOutput H) ([], acc) = some s') :
    ∀ x ∈ s'.2, x ∈ acc ∨
      ∃ p ∈ outs, x.1.nVout = p.2 ∧ p.1.scriptPubKey.stated = some x.1.call := by
  induction outs generalizing acc with
  | nil =>
    obtain rfl : ([], acc) = s' := by simpa using h
    exact fun x hx => .inl hx
  | cons p outs ih =>
    rw [foldlM_cons, bind_eq_bind, bind_eq_some_iff] at h
    obtain ⟨s₁, hp, hrest⟩ := h
    have hlater := fun q hq => hpush q (mem_cons_of_mem p hq)
    rcases extractOutput_eq_some hp with ⟨hcontract, -⟩ | ⟨-, rfl⟩
    · obtain ⟨opcode, vs, hcall⟩ := hpush p mem_cons_self hcontract
      obtain ⟨y, rfl, hn, hstated⟩ := extractOutput_of_pushes hcall hp
      intro x hx
      rcases ih hlater hrest x hx with hacc | ⟨q, hq, hx⟩
      · rcases mem_append.mp hacc with hacc | hy
        · exact .inl hacc
        · obtain rfl := mem_singleton.mp hy
          exact .inr ⟨p, mem_cons_self, hn, hstated⟩
      · exact .inr ⟨q, mem_cons_of_mem p hq, hx⟩
    · intro x hx
      rcases ih hlater hrest x hx with hacc | ⟨q, hq, hx⟩
      · exact .inl hacc
      · exact .inr ⟨q, mem_cons_of_mem p hq, hx⟩

/-! ## What the transactions mean -/

variable (T)

/-- Every contract output passes `Solver` with the consensus rules. -/
def Checked : Prop :=
  ∀ out ∈ T.txBit.vout, out.scriptPubKey.isContract = true →
    (solver true out.scriptPubKey).isSome = true

/-- Every contract output only pushes before its opcode. -/
def PushesOnly : Prop :=
  ∀ out ∈ T.txBit.vout, out.scriptPubKey.isContract = true → out.scriptPubKey.pushesOnly = true

/-- Each transaction of `l` makes the call that its own output states. -/
def Means (l : Extracted) : Prop :=
  ∀ x ∈ l, (T.txBit.vout[x.1.nVout]?.bind fun out => out.scriptPubKey.stated) = some x.1.call

variable {T}

end SilubiumTxConverter

theorem statedBy_isSome {opcode : ℕ} {vs : List Valtype} (h : (statedBy opcode vs).isSome = true) :
    NeedsValues opcode vs.length := by
  unfold statedBy at h
  split at h
  · split_ifs at h with hop
    · exact .inl ⟨hop, rfl⟩
    · cases h
  · split_ifs at h with hop
    · exact .inr ⟨hop, rfl⟩
    · cases h
  · cases h

variable {ops : List (ℕ × Valtype)}

/-- **A script of the form of a contract states a call when it only
pushes.** -/
theorem pushesOnly_of_stated {script : CScript}
    (hreads : Reads script ops []) (hform : ContractForm ops) (h : script.stated.isSome = true) :
    script.pushesOnly = true := by
  obtain ⟨params, opcode, rfl, hneeds⟩ := hform
  have hops := hreads.operations
  have hnone : pushedValue opcode [] = none := by
    rcases hneeds.opcode_eq with rfl | rfl <;> rfl
  have hpushed : script.pushed = params.filterMap fun o => pushedValue o.1 o.2 := by
    simp [pushed, hops, hnone]
  have hlen : script.pushed.length = params.length := by
    have hstated : (statedBy opcode script.pushed).isSome = true := by
      simpa [stated, hops] using h
    exact (statedBy_isSome hstated).unique hneeds
  rw [hpushed] at hlen
  simpa [pushesOnly, hops] using hlen

theorem pushesCall_of_pushesOnly {script : CScript}
    (hreads : Reads script ops []) (hform : ContractForm ops) (h : script.pushesOnly = true) :
    ∃ opcode vs, PushesCall script opcode vs := by
  obtain ⟨params, opcode, rfl, hneeds⟩ := hform
  have hsome : ∀ o ∈ params, (pushedValue o.1 o.2).isSome = true := by
    simpa [pushesOnly, hreads.operations] using h
  obtain ⟨vs, hvs⟩ := PushValues.exists_of_isSome hsome
  obtain ⟨rest, hparams, hlast⟩ := hreads.split
  refine ⟨opcode, vs, ?_, params, rest, hparams, hvs, ?_⟩
  · rwa [← List.Forall₂.length_eq hvs]
  cases hlast with
  | cons hop hnil =>
    cases hnil
    exact hop

namespace SilubiumTxConverter

variable {H : Hashes} {T T' : SilubiumTxConverter} {l l' : Extracted}

/-- What is extracted means what its output states exactly when every
contract output only pushes. -/
theorem means_iff (hT : T.Checked) (h : T.extraction H = some l) : T.Means l ↔ T.PushesOnly := by
  obtain ⟨s, hs, rfl⟩ := map_eq_some_iff.mp h
  constructor
  · intro hmeans out hout hcontract
    obtain ⟨ops, hreads, hform⟩ := solver_contract (hT out hout hcontract) hcontract
    obtain ⟨n, hn⟩ := mem_iff_getElem?.mp hout
    have hmem : (out, n) ∈ T.txBit.vout.zipIdx := List.mem_zipIdx_iff_getElem?.mpr hn
    obtain ⟨x, hx, hxn⟩ := (foldlM_extractOutput_covers hs).2 (out, n) hmem hcontract
    have hstated : out.scriptPubKey.stated = some x.1.call := by
      simpa [hxn, hn] using hmeans x hx
    exact pushesOnly_of_stated hreads hform (hstated ▸ rfl)
  · intro hpush x hx
    have hcalls : ∀ p ∈ T.txBit.vout.zipIdx, p.1.scriptPubKey.isContract = true →
        ∃ opcode vs, PushesCall p.1.scriptPubKey opcode vs := by
      intro p hp hcontract
      have hmem := mem_of_getElem? (List.mem_zipIdx_iff_getElem?.mp hp)
      obtain ⟨ops, hreads, hform⟩ := solver_contract (hT _ hmem hcontract) hcontract
      exact pushesCall_of_pushesOnly hreads hform (hpush _ hmem hcontract)
    rcases foldlM_extractOutput_stated hcalls hs x hx with hnil | ⟨p, hp, hxn, hstated⟩
    · cases hnil
    · rw [hxn, List.mem_zipIdx_iff_getElem?.mp hp]
      exact hstated

/-- **Contract calls mean what their own outputs say, whatever the other
outputs are, exactly when every contract output only pushes.** -/
theorem calls_mean_iff (hT : T.Checked) (hT' : T'.Checked) (h : T.extraction H = some l)
    (h' : T'.extraction H = some l') :
    (T.Means l ∧ T'.Means l' ∧ ∀ x ∈ l, ∀ x' ∈ l', x.1.nVout = x'.1.nVout →
      T.txBit.vout[x.1.nVout]? = T'.txBit.vout[x.1.nVout]? → x.1.call = x'.1.call) ↔
      T.PushesOnly ∧ T'.PushesOnly := by
  rw [← means_iff hT h, ← means_iff hT' h']
  constructor
  · rintro ⟨hm, hm', -⟩
    exact ⟨hm, hm'⟩
  rintro ⟨hm, hm'⟩
  refine ⟨hm, hm', fun x hx x' hx' hn hout => ?_⟩
  have hx := hm x hx
  rw [hout, hn, hm' x' hx'] at hx
  exact (Option.some.inj hx).symm

section Samples

/-- A converter of a transaction with the scripts as outputs. -/
def ofScripts (scripts : List CScript) : SilubiumTxConverter :=
  ⟨⟨id, id, id, id, id⟩, { vin := [], vout := scripts.map fun script => ⟨0, script⟩ }, 0, 0⟩

def plainHashes : Hashes := ⟨fun _ => 0, fun _ => 0, fun _ _ => 0⟩

/-- A creation, with gas limit 100, gas price 10 and one byte of code. -/
def pushingScript : CScript := [1, 4, 1, 100, 1, 10, 1, 7, 0xc1]

/-- The same with `OP_NOP` for the code. -/
def lackingScript : CScript := [1, 4, 1, 100, 1, 10, 0x61, 0xc1]

/-- `OP_DUP` and `OP_2DUP` for the gas limit and the gas price of an output
that is not executed: an element of zero is left. -/
def leavingZero : CScript := [1, 0, 0x76, 0x6e, 1, 1, 0xc1]

/-- `OP_2DUP` for the code: the version is left. -/
def leavingVersion : CScript := [1, 4, 1, 1, 1, 1, 0x6e, 0xc1]

/-- **An output takes its parameters from another.** Behind one output the
same script runs in the virtual machine, behind the other it does not, and
its gas limit is not the one it pushes. -/
theorem lackingScript_misread :
    (ofScripts [leavingZero, lackingScript]).Checked ∧
      (ofScripts [leavingVersion, lackingScript]).Checked ∧
      ∃ l l', (ofScripts [leavingZero, lackingScript]).extraction plainHashes = some l ∧
        (ofScripts [leavingVersion, lackingScript]).extraction plainHashes = some l' ∧
        ¬ (ofScripts [leavingZero, lackingScript]).Means l ∧
        ∃ x ∈ l, ∃ x' ∈ l', x.1.nVout = 1 ∧ x'.1.nVout = 1 ∧
          x.1.call = ⟨.noExec, 4, 100, [10], none⟩ ∧
          x'.1.call = ⟨.evmDefault, 4, 100, [10], none⟩ := by
  unfold Checked Means
  refine ⟨by decide, by decide, _, _, rfl, rfl, ?_⟩
  decide

theorem pushingScript_means :
    (ofScripts [pushingScript]).PushesOnly ∧ (ofScripts [pushingScript, pushingScript]).PushesOnly ∧
      ∃ l l', (ofScripts [pushingScript]).extraction plainHashes = some l ∧
        (ofScripts [pushingScript, pushingScript]).extraction plainHashes = some l' ∧
        (ofScripts [pushingScript]).Means l ∧
        (ofScripts [pushingScript, pushingScript]).Means l' := by
  have hT : (ofScripts [pushingScript]).Checked := by
    unfold Checked
    decide
  have hT' : (ofScripts [pushingScript, pushingScript]).Checked := by
    unfold Checked
    decide +kernel
  have hpush : (ofScripts [pushingScript]).PushesOnly := by
    unfold PushesOnly
    decide
  have hpush' : (ofScripts [pushingScript, pushingScript]).PushesOnly := by
    unfold PushesOnly
    decide
  obtain ⟨hm, hm', -⟩ := (calls_mean_iff (H := plainHashes) hT hT' rfl rfl).mpr ⟨hpush, hpush'⟩
  exact ⟨hpush, hpush', _, _, rfl, rfl, hm, hm'⟩

end Samples

end SilubiumTxConverter

end Slucore

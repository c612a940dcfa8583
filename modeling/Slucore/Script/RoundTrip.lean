import Slucore.Script.Extraction
/-!
# Script — contract outputs as wallets write them

A contract output that is written with `operator<<` from a version, a gas
limit, a gas price, the data and, for a call, the receiver is read back by
the converter (`extraction_roundTrip`). The numbers are those whose product
fits into 64 bits, which is what the converter asks for.
-/


namespace Slucore

open List hiding le_trans lt_of_le_of_lt
open VersionVM
open SilubiumTxConverter

/-! ## Numbers -/

/-- At most eight bytes without the bit of a sign are read as they stand. -/
theorem vchToUint64_append {low : List UInt8} {top : UInt8} (hlen : low.length < 8)
    (htop : top.toNat < 0x80) : vchToUint64 (low ++ [top]) = some (readLE (low ++ [top])) := by
  have hnot : ¬ 8 < (low ++ [top]).length := by
    rw [length_append, length_singleton]
    omega
  rw [vchToUint64, if_neg hnot, List.getLast?_concat]
  exact if_neg (Nat.not_le.mpr htop)

/-- **A number below `2 ^ 63` is read back**: eight bytes are enough for it
and for its sign. -/
theorem vchToUint64_scriptNumSerialize {n : ℕ} (h : n < 2 ^ 63) :
    vchToUint64 (scriptNumSerialize n) = some n := by
  by_cases h0 : n = 0
  · subst h0
    rfl
  have hlen := length_scriptNumSerialize h
  have hread := readLE_scriptNumSerialize h
  obtain ⟨low, top, t, heq, htop, ht, -⟩ := scriptNumSerialize_eq (n := n) (by omega) (by omega)
  rw [heq, length_append] at hlen
  rw [heq] at hread ⊢
  rw [vchToUint64_append hlen (htop ▸ ht), hread]

/-! ## Addresses -/

/-- The value of bytes, the most significant first, after a number. -/
theorem foldl_bytes_div (n : ℕ) (l : List UInt8) :
    l.foldl (fun n b => 256 * n + b.toNat) n / 256 ^ l.length = n := by
  induction l generalizing n with
  | nil => simp
  | cons b l ih =>
    have hb : b.toNat < 256 := b.toNat_lt
    rw [foldl_cons, length_cons, pow_succ, ← Nat.div_div_eq_div_mul, ih]
    omega

/-- A byte of that value. -/
theorem foldl_bytes_get (l : List UInt8) (n i : ℕ) (hi : i < l.length) :
    UInt8.ofNat (l.foldl (fun n b => 256 * n + b.toNat) n / 256 ^ (l.length - 1 - i)) = l[i] := by
  induction l generalizing n i with
  | nil => cases hi
  | cons b l ih =>
    rw [foldl_cons, length_cons, Nat.add_sub_cancel]
    cases i with
    | zero =>
      rw [Nat.sub_zero, foldl_bytes_div]
      apply UInt8.toNat_inj.mp
      have hb : b.toNat < 256 := b.toNat_lt
      simp only [UInt8.toNat_ofNat', getElem_cons_zero]
      omega
    | succ i =>
      have hi' : i < l.length := Nat.lt_of_succ_lt_succ hi
      rw [getElem_cons_succ, ← ih (256 * n + b.toNat) i hi']
      congr 3
      omega

/-- **The bytes of an address are those it was made of.** -/
theorem addressBytes_addressOfBytes {bytes : List UInt8} (h : bytes.length = 20) :
    addressBytes (addressOfBytes bytes) = bytes := by
  refine ext_getElem (by simp [addressBytes, h]) fun i hi hi' => ?_
  have hget := foldl_bytes_get bytes 0 i hi'
  simpa [addressBytes, addressOfBytes, h] using hget

/-! ## The outputs -/

/-- The parameters of a contract output, as a wallet takes them. -/
structure ContractOutput where
  gasLimit : ℕ
  gasPrice : ℕ
  data : List UInt8
  receiver : Option (List UInt8)
  gasLimit_pos : 1 ≤ gasLimit
  gasPrice_pos : 1 ≤ gasPrice
  product_le : gasLimit * gasPrice ≤ int64Max
  data_ne : data ≠ []
  data_le : data.length ≤ maxScriptElementSize
  receiver_length : ∀ a ∈ receiver, a.length = 20

namespace ContractOutput

variable (c : ContractOutput)

/-- The values that are pushed. -/
def values : List Valtype :=
  [scriptNumSerialize VersionVM.evmDefault.toRaw, scriptNumSerialize c.gasLimit,
    scriptNumSerialize c.gasPrice, c.data] ++ c.receiver.toList

/-- `OP_CREATE` or `OP_CALL`. -/
def opcode : ℕ := if c.receiver.isNone then opCreate else opCall

/-- `CScript() << CScriptNum(version) << CScriptNum(gasLimit) <<
CScriptNum(gasPrice) << data << OP_CREATE`, or `<< address << OP_CALL`. -/
def script : CScript := c.values.flatMap pushData ++ [UInt8.ofNat c.opcode]

/-- The call it is written for. -/
def call : ContractCall :=
  ⟨.evmDefault, c.gasLimit, c.gasPrice, c.data, c.receiver.map addressOfBytes⟩

theorem gasLimit_le : c.gasLimit ≤ int64Max :=
  le_trans (Nat.le_mul_of_pos_right _ c.gasPrice_pos) c.product_le

theorem gasPrice_le : c.gasPrice ≤ int64Max :=
  le_trans (Nat.le_mul_of_pos_left _ c.gasLimit_pos) c.product_le

theorem needsValues : NeedsValues c.opcode c.values.length := by
  unfold opcode values
  cases c.receiver with
  | none => exact .inl ⟨rfl, rfl⟩
  | some a => exact .inr ⟨rfl, rfl⟩

theorem length_values {v : Valtype} (hv : v ∈ c.values) : v.length ≤ maxScriptElementSize := by
  have hnum : ∀ n ≤ int64Max, (scriptNumSerialize n).length ≤ maxScriptElementSize := fun n h =>
    le_trans (length_scriptNumSerialize (lt_of_le_of_lt h (by decide))) (by decide)
  simp only [values, mem_append, mem_cons, not_mem_nil, or_false] at hv
  rcases hv with (rfl | rfl | rfl | rfl) | hv
  · exact hnum _ (by decide)
  · exact hnum _ c.gasLimit_le
  · exact hnum _ c.gasPrice_le
  · exact c.data_le
  · rw [c.receiver_length v (by simpa using hv)]
    decide

/-- The script is read as pushes of the values, and the opcode. -/
theorem reads : ∃ ops, Reads c.script ops [UInt8.ofNat c.opcode] ∧ PushValues ops c.values ∧
    ops.map Prod.snd = c.values :=
  reads_pushData (fun _ hv => lt_of_le_of_lt (c.length_values hv) (by decide)) _

theorem getOp_opcode : getOp [UInt8.ofNat c.opcode] = some (c.opcode, [], []) := by
  rcases c.needsValues.opcode_eq with h | h <;> rw [h] <;> rfl

theorem pushesCall : PushesCall c.script c.opcode c.values := by
  obtain ⟨ops, hreads, hvs, -⟩ := c.reads
  exact ⟨c.needsValues, ops, _, hreads, hvs, c.getOp_opcode⟩

theorem length_script_le : c.script.length ≤ maxScriptSize := by
  have hnum : ∀ n ≤ int64Max, (pushData (scriptNumSerialize n)).length ≤ 13 := fun n h =>
    le_trans (length_pushData_le _)
      (Nat.add_le_add_right (length_scriptNumSerialize (lt_of_le_of_lt h (by decide))) 5)
  have hv := hnum evmDefault.toRaw (by decide)
  have hgl := hnum c.gasLimit c.gasLimit_le
  have hgp := hnum c.gasPrice c.gasPrice_le
  have hdata := le_trans (length_pushData_le c.data) (Nat.add_le_add_right c.data_le 5)
  have hreceiver : (c.receiver.toList.flatMap pushData).length ≤ 25 := by
    cases h : c.receiver with
    | none => simp
    | some a =>
      have ha := length_pushData_le a
      rw [c.receiver_length a h] at ha
      simpa using ha
  unfold maxScriptElementSize at hdata
  simp only [script, values, flatMap_append, flatMap_cons, flatMap_nil,
    length_append, length_nil, length_singleton, maxScriptSize]
  omega

/-- **It states the call it is written for.** -/
theorem stated : c.script.stated = some c.call := by
  have hgl : readLE (scriptNumSerialize c.gasLimit) = c.gasLimit :=
    readLE_scriptNumSerialize (lt_of_le_of_lt c.gasLimit_le (by decide))
  have hgp : readLE (scriptNumSerialize c.gasPrice) = c.gasPrice :=
    readLE_scriptNumSerialize (lt_of_le_of_lt c.gasPrice_le (by decide))
  have hversion : fromRaw (readLE (scriptNumSerialize evmDefault.toRaw)) =
      .evmDefault := by decide
  rw [c.pushesCall.stated]
  unfold opcode values call
  cases c.receiver with
  | none => simp [statedBy, hgl, hgp, hversion]
  | some a => simp [statedBy, hgl, hgp, hversion]

/-- Its parameters are accepted. -/
theorem parseParams_isSome (receiver : Address) :
    (parseParams receiver [c.data, scriptNumSerialize c.gasPrice,
      scriptNumSerialize c.gasLimit, scriptNumSerialize evmDefault.toRaw]).isSome = true := by
  have hgl := vchToUint64_scriptNumSerialize (lt_of_le_of_lt c.gasLimit_le (by decide))
  have hgp := vchToUint64_scriptNumSerialize (lt_of_le_of_lt c.gasPrice_le (by decide))
  have hversion : vchToUint64 (scriptNumSerialize evmDefault.toRaw) = some 4 := by decide
  have hshort : (scriptNumSerialize evmDefault.toRaw).length ≤ 4 := by decide
  have hproduct : c.gasLimit ≤ int64Max / c.gasPrice :=
    (Nat.le_div_iff_mul_le c.gasPrice_pos).mpr c.product_le
  simp [parseParams, c.data_ne, hgl, hgp, hversion, hshort, hproduct, c.gasLimit_le, c.gasPrice_le]

theorem parseEthTXParams_isSome :
    (parseEthTXParams c.opcode c.values.reverse).isSome = true := by
  have hne : opCreate ≠ opCall := by decide
  unfold parseEthTXParams opcode values
  cases c.receiver with
  | none => simpa [hne] using c.parseParams_isSome 0
  | some a => simpa using c.parseParams_isSome (addressOfBytes a)

/-- One output that is written so, from an empty stack. -/
theorem extractOutput {H : Hashes} {T : SilubiumTxConverter} {out : CTxOut} {n : ℕ}
    (acc : SilubiumTxConverter.Extracted) (h : out.scriptPubKey = c.script) :
    ∃ x, T.extractOutput H ([], acc) (out, n) = some ([], acc ++ [x]) ∧ x.1.nVout = n ∧
      x.1.call = c.call := by
  have hcall : PushesCall out.scriptPubKey c.opcode c.values := h ▸ c.pushesCall
  obtain ⟨ops, hreads, hvs, hops⟩ := c.reads
  have hlen : ∀ o ∈ ops, o.2.length ≤ maxScriptElementSize := fun o ho =>
    c.length_values (hops ▸ List.mem_map_of_mem ho)
  have hstack : T.receiveStack [] out.scriptPubKey = some (c.opcode, c.values.reverse) := by
    rw [h]
    exact receiveStack_of_pushes c.needsValues hreads hvs c.getOp_opcode hlen
      c.length_script_le
  obtain ⟨⟨params, stack⟩, hparse⟩ := Option.isSome_iff_exists.mp c.parseEthTXParams_isSome
  have hx : T.extractOutput H ([], acc) (out, n) =
      some (stack, acc ++ [(T.createEthTX H c.opcode params n out, params)]) := by
    simp [SilubiumTxConverter.extractOutput, hcall.isContract, hstack, hparse]
  obtain ⟨x, hr, hn, hstated⟩ := SilubiumTxConverter.extractOutput_of_pushes hcall hx
  rw [h, c.stated] at hstated
  exact ⟨x, hr ▸ hx, hn, (Option.some.inj hstated).symm⟩

end ContractOutput

/-! ## The transactions -/

namespace SilubiumTxConverter

variable {H : Hashes} {T : SilubiumTxConverter} {written : CTxOut → Option ContractOutput}

theorem foldlM_extractOutput_written {outs : List (CTxOut × ℕ)} (acc : Extracted)
    (hw : ∀ p ∈ outs, match written p.1 with
      | some c => p.1.scriptPubKey = c.script
      | none => p.1.scriptPubKey.isContract = false) :
    ∃ l, outs.foldlM (T.extractOutput H) ([], acc) = some ([], acc ++ l) ∧
      l.map (fun x => (x.1.nVout, x.1.call)) =
        outs.filterMap fun p => (written p.1).map fun c => (p.2, c.call) := by
  induction outs generalizing acc with
  | nil => exact ⟨[], by simp, rfl⟩
  | cons p outs ih =>
    have hp := hw p mem_cons_self
    have hlater := fun q hq => hw q (mem_cons_of_mem p hq)
    cases hc : written p.1 with
    | none =>
      rw [hc] at hp
      have hskip : T.extractOutput H ([], acc) p = some ([], acc) := by
        simp [extractOutput, hp]
      obtain ⟨l, hl, hmap⟩ := ih acc hlater
      exact ⟨l, by simp [hskip, hl], by simp [hc, hmap]⟩
    | some c =>
      rw [hc] at hp
      obtain ⟨x, hx, hn, hcall⟩ := c.extractOutput (H := H) (T := T) (n := p.2) acc hp
      obtain ⟨l, hl, hmap⟩ := ih (acc ++ [x]) hlater
      exact ⟨x :: l, by simp [hx, hl], by simp [hc, hmap, hn, hcall]⟩

/-- **Contract outputs round-trip.** The contract outputs of a transaction,
written with any parameters in range, have the opcode they end with, and
give exactly the calls they are written for, in order. -/
theorem extraction_roundTrip (H : Hashes) (T : SilubiumTxConverter)
    (written : CTxOut → Option ContractOutput)
    (hw : ∀ out ∈ T.txBit.vout, match written out with
      | some c => out.scriptPubKey = c.script
      | none => out.scriptPubKey.isContract = false) :
    (∀ c : ContractOutput, c.script.hasOpCreate = c.receiver.isNone ∧
      c.script.hasOpCall = c.receiver.isSome ∧
      ∀ a ∈ c.receiver, addressBytes (addressOfBytes a) = a) ∧
    ∃ l, T.extraction H = some l ∧
      l.map (fun x => (x.1.nVout, x.1.call)) =
        T.txBit.vout.zipIdx.filterMap fun p => (written p.1).map fun c => (p.2, c.call) := by
  refine ⟨fun c => ⟨?_, ?_, fun a ha => addressBytes_addressOfBytes (c.receiver_length a ha)⟩, ?_⟩
  · rw [c.pushesCall.hasOpCreate, ContractOutput.opcode]
    cases c.receiver <;> rfl
  · rw [c.pushesCall.hasOpCall, ContractOutput.opcode]
    cases c.receiver <;> rfl
  · obtain ⟨l, hl, hmap⟩ := foldlM_extractOutput_written (H := H) (T := T) []
      fun p hp => hw p.1 (mem_of_getElem? (List.mem_zipIdx_iff_getElem?.mp hp))
    exact ⟨l, by simp [extraction, hl], hmap⟩

def sampleCreation : ContractOutput :=
  ⟨200000, 10, [0x60, 0x80], none, by decide, by decide, by decide, by decide, by decide, by simp⟩

def sampleCall : ContractOutput :=
  ⟨200000, 10, [0xab], some (List.replicate 20 1), by decide, by decide, by decide, by decide,
    by decide, by simp⟩

theorem sampleOutputs_roundTrip :
    ∃ l, (ofScripts [sampleCreation.script, [], sampleCall.script]).extraction plainHashes = some l ∧
      l.map (fun x => (x.1.nVout, x.1.call)) =
        [(0, sampleCreation.call), (2, sampleCall.call)] := by
  obtain ⟨-, l, hl, hmap⟩ := extraction_roundTrip plainHashes
    (ofScripts [sampleCreation.script, [], sampleCall.script])
    (fun out => if out.scriptPubKey = sampleCreation.script then some sampleCreation
      else if out.scriptPubKey = sampleCall.script then some sampleCall else none)
    (by
      simp only [ofScripts, map_cons, forall_mem_cons]
      refine ⟨rfl, rfl, rfl, ?_⟩
      simp)
  exact ⟨l, hl, hmap.trans (by decide)⟩

end SilubiumTxConverter

end Slucore

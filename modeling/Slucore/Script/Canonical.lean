import Slucore.Script.Pushes
/-!
# Script — canonical numbers and pushes

A number of a script has its sign in the highest bit, so `k` bytes hold what is
below `256 ^ k / 2` (`two_mul_natAbs_setVch_lt`), and `CScriptNum::serialize`
takes no byte more than that asks for (`length_scriptNumSerialize_le`). What `operator<<`
writes is read back by `GetScriptOp`, and an integer is pushed as
`CheckMinimalPush` demands (`numbers_and_pushes_canonical`).
-/


namespace Slucore

open List hiding le_trans
open CScript

variable {n : ℤ} {low : List UInt8} {top : UInt8}

/-! ## Numbers -/

/-- A sign and a magnitude. -/
theorem setVch_concat (low : List UInt8) (top : UInt8) :
    setVch (low ++ [top]) = (if 0x80 ≤ top.toNat then -1 else 1) *
      ((readLE low + top.toNat % 128 * 256 ^ low.length : ℕ) : ℤ) := by
  have hlt := top.toNat_lt
  simp only [setVch, getLast?_concat, readLE_append, length_append, length_singleton]
  split
  · obtain ⟨d, hd⟩ : ∃ d, top.toNat = d + 128 := ⟨top.toNat - 128, by omega⟩
    rw [hd, Nat.add_mod_right, Nat.mod_eq_of_lt (by omega)]
    push_cast
    ring
  · rw [Nat.mod_eq_of_lt (by omega), one_mul]

/-- What a number of bytes can hold. -/
theorem two_mul_natAbs_setVch_lt (vch : Valtype) : 2 * (setVch vch).natAbs < 256 ^ vch.length := by
  rcases eq_nil_or_concat vch with rfl | ⟨low, top, rfl⟩
  · decide
  · have hlow := readLE_lt low
    have htop : top.toNat % 128 * 256 ^ low.length ≤ 127 * 256 ^ low.length :=
      Nat.mul_le_mul_right _ (by omega)
    have hone : (if 0x80 ≤ top.toNat then -1 else 1 : ℤ).natAbs = 1 := by split <;> rfl
    rw [concat_eq_append, setVch_concat, Int.natAbs_mul, hone, length_append, length_singleton]
    omega

/-- A number that takes all its bytes is encoded minimally. -/
theorem minimallyEncoded_concat
    (h : 256 ^ low.length ≤ 2 * (readLE low + top.toNat % 128 * 256 ^ low.length)) :
    minimallyEncoded (low ++ [top]) = true := by
  by_cases htop : top.toNat % 128 = 0
  · rw [htop] at h
    rcases eq_nil_or_concat low with rfl | ⟨low, below, rfl⟩
    · exact absurd h (by decide)
    · have hlow := readLE_lt low
      rw [concat_eq_append, readLE_append, length_append, length_singleton] at h
      have hbelow : 0x80 ≤ below.toNat := by
        by_contra hlt
        have := Nat.mul_le_mul_right (256 ^ low.length) (show below.toNat ≤ 127 by omega)
        omega
      simp [minimallyEncoded, hbelow]
  · cases hrev : low.reverse <;> simp [minimallyEncoded, hrev, htop]

/-- **What is serialized is read back**, and no shorter. -/
theorem scriptNum_scriptNumSerialize (h : n.natAbs < 2 ^ 63) :
    (∀ fRequireMinimal, scriptNum fRequireMinimal 8 (scriptNumSerialize n) = some n) ∧
      ∀ vch, setVch vch = n → (scriptNumSerialize n).length ≤ vch.length := by
  have h64 : n.natAbs < 2 ^ 64 := by omega
  refine ⟨fun fRequireMinimal => ?_, fun vch hvch =>
    length_scriptNumSerialize_le h64 (hvch ▸ two_mul_natAbs_setVch_lt vch)⟩
  have hle := length_scriptNumSerialize_le (k := 8) h64 (by omega)
  by_cases h0 : n = 0
  · subst h0
    cases fRequireMinimal <;> rfl
  obtain ⟨low, top, t, heq, htop, ht, hread, hlen⟩ := scriptNumSerialize_eq h0 h64
  have hmod : top.toNat % 128 = t := by
    rw [htop]
    split <;> omega
  have hvalue : setVch (low ++ [top]) = n := by
    rw [setVch_concat, hmod, htop]
    split_ifs <;> omega
  have hmin := @minimallyEncoded_concat low top (by rw [hmod, hread]; exact hlen)
  rw [heq] at hle ⊢
  rw [scriptNum, if_neg (Nat.not_lt.2 hle), hmin, hvalue, Bool.not_true, Bool.and_false]
  rfl

/-! ## Pushes -/

/-- A direct push. -/
theorem getOp_pushData_short {b : Valtype} (h : b.length < opPushData1) :
    getOp (pushData b) = some (b.length, b, []) := by
  have hlen : (UInt8.ofNat b.length).toNat = b.length := by
    unfold opPushData1 at h
    simp
    omega
  simp [pushData, getOp, pushSize, hlen, h]

/-- **A number is pushed minimally.** -/
theorem checkMinimalPush_scriptNumSerialize (h0 : n ≠ 0) (h : n.natAbs < 2 ^ 64)
    (hbig : ¬ (n = -1 ∨ 1 ≤ n ∧ n ≤ 16)) (hlen : (scriptNumSerialize n).length ≤ 75) :
    checkMinimalPush (scriptNumSerialize n) (scriptNumSerialize n).length = true := by
  obtain ⟨low, top, t, heq, htop, ht, hread, -⟩ := scriptNumSerialize_eq h0 h
  cases hlow : low with
  | nil =>
    -- a single byte: the number itself, which is not a small one
    subst hlow
    have hread : t = n.natAbs := by simpa [readLE] using hread
    have hbyte : ¬ (1 ≤ top.toNat ∧ top.toNat ≤ 16) ∧ top.toNat ≠ 0x81 := by
      rw [htop]
      split <;> omega
    have hne : top ≠ 0x81 := fun h => hbyte.2 (h ▸ rfl)
    simp [heq, checkMinimalPush, hbyte.1, hne]
  | cons b low' =>
    rw [heq, hlow] at hlen ⊢
    cases hrest : low' ++ [top] with
    | nil => simp at hrest
    | cons c rest =>
      rw [cons_append, hrest] at hlen ⊢
      exact (if_pos hlen).trans (beq_self_eq_true _)

/-- The offset of `end()`: the container counts in `uint32_t`, and `item_ptr`
takes an `int32_t`. -/
def CScript.endOffset (script : CScript) : ℤ := (script.length : ℤ).bmod (2 ^ 32)

theorem CScript.endOffset_eq_of_lt {script : CScript} (h : script.length < 2 ^ 31) :
    script.endOffset = script.length := by
  unfold endOffset
  generalize script.length = n at h
  rw [Int.bmod_def]
  split <;> omega

/-- What `GetScriptOp` reads from `begin()` on: nothing if `end()` is not after
it. -/
def CScript.readOperations (script : CScript) : List (ℕ × Valtype) :=
  if 0 < script.endOffset then script.operations else []

/-- **Script numbers and pushes are canonical**, as long as the container can
tell where the script ends. -/
theorem numbers_and_pushes_canonical :
    (∀ n : ℤ, -2 ^ 63 < n → n < 2 ^ 63 →
      (∀ fRequireMinimal, scriptNum fRequireMinimal 8 (scriptNumSerialize n) = some n) ∧
      ∀ vch, setVch vch = n → (scriptNumSerialize n).length ≤ vch.length) ∧
    (∀ vs : List Valtype, (vs.flatMap pushData).length < 2 ^ 31 →
      PushValues (CScript.readOperations (vs.flatMap pushData)) vs ∧
        (CScript.readOperations (vs.flatMap pushData)).map Prod.snd = vs) ∧
    ∀ n : ℤ, -2 ^ 63 ≤ n → n < 2 ^ 63 → ∃ opcode vch,
      getOp (pushInt64 n) = some (opcode, vch, []) ∧
        pushedValue opcode vch = some (scriptNumSerialize n) ∧
        (opcode ≤ opPushData4 → checkMinimalPush vch opcode = true) := by
  refine ⟨fun n hlo hhi => scriptNum_scriptNumSerialize (by omega), fun vs h => ?_,
    fun n hlo hhi => ?_⟩
  · have hshort : ∀ v ∈ vs, v.length < 2 ^ 32 := by
      intro v hv
      have hle := List.single_le_sum (l := vs.map fun v => (pushData v).length) (by simp) _
        (mem_map_of_mem hv)
      rw [length_flatMap] at h
      have : v.length ≤ (pushData v).length := by simp [pushData]
      omega
    obtain ⟨ops, hreads, hvs, hops⟩ := reads_pushData hshort []
    rw [append_nil] at hreads
    have hread : readOperations (vs.flatMap pushData) = ops := by
      rw [← hreads.operations, readOperations, endOffset_eq_of_lt h]
      split
      · rfl
      · rename_i hnil
        rw [length_eq_zero_iff.1 (show (vs.flatMap pushData).length = 0 by omega)]
        rfl
    rw [hread]
    exact ⟨hvs, hops⟩
  · unfold pushInt64
    split
    · rename_i hsmall
      refine ⟨(n + 0x50).toNat, [], ?_⟩
      rcases hsmall with rfl | ⟨hone, hle⟩
      · decide
      · interval_cases n <;> decide
    · rename_i hbig
      split
      · rename_i hzero
        subst hzero
        exact ⟨0, [], by decide⟩
      · rename_i hzero
        have hlen : (scriptNumSerialize n).length < opPushData1 :=
          Nat.lt_of_le_of_lt (length_scriptNumSerialize_le (k := 9) (by omega) (by omega))
            (by decide)
        refine ⟨_, _, getOp_pushData_short hlen, pushedValue_of_le ?_ _, fun _ => ?_⟩
        · exact le_trans hlen.le (by decide)
        · exact checkMinimalPush_scriptNumSerialize hzero (by omega) hbig (Nat.le_of_lt_succ hlen)

/-- **A push of `2 ^ 31` bytes is not read**: `end()` is before `begin()`. -/
theorem long_push_not_read : ¬ ∀ vs : List Valtype, (∀ v ∈ vs, v.length < 2 ^ 32) →
    (CScript.readOperations (vs.flatMap pushData)).map Prod.snd = vs := by
  intro h
  obtain ⟨v, hlen⟩ : ∃ v : Valtype, v.length = 2 ^ 31 := ⟨replicate _ 0, length_replicate⟩
  have hsize : (pushData v).length = 2 ^ 31 + 5 := by
    simp [pushData, hlen, opPushData1]
  have hend : ¬ 0 < endOffset (pushData v) := by
    unfold endOffset
    generalize (pushData v).length = n at hsize
    rw [Int.bmod_def]
    split <;> omega
  have hread := h [v] (by simp [hlen])
  rw [flatMap_singleton, readOperations, if_neg hend] at hread
  exact absurd hread (cons_ne_nil _ _).symm

end Slucore

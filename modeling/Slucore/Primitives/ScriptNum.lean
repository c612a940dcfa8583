import Slucore.Primitives.Script
/-!
# Primitives — the height a script starts with

A number pushed by `CScript() << n` can be read back from any script that
starts with the push: the first byte tells how long the push is. So two
pushes that start the same script push the same number, which is what
makes coinbases of different heights different.
-/


namespace Slucore

open List

theorem readLE_append (l : List UInt8) (b : UInt8) :
    readLE (l ++ [b]) = readLE l + b.toNat * 256 ^ l.length := by
  induction l with
  | nil => simp [readLE]
  | cons a l ih =>
    rw [cons_append, readLE, readLE, ih, length_cons]
    ring

/-- The bytes of a number spell it. -/
theorem readLE_absBytes {fuel n : ℕ} (h : n < 256 ^ fuel) : readLE (absBytes fuel n) = n := by
  induction fuel generalizing n with
  | zero =>
    obtain rfl : n = 0 := by simpa using h
    rfl
  | succ fuel ih =>
    rw [absBytes]
    split
    · rename_i hn
      rw [hn]
      rfl
    · have hdiv : n / 256 < 256 ^ fuel := by
        rw [Nat.div_lt_iff_lt_mul (by norm_num)]
        exact h
      have hbyte : (UInt8.ofNat n).toNat = n % 256 := by simp
      rw [readLE, ih hdiv]
      omega

theorem readLE_lt (l : List UInt8) : readLE l < 256 ^ l.length := by
  induction l with
  | nil => simp [readLE]
  | cons b l ih =>
    have hb := b.toNat_lt
    rw [readLE, length_cons]
    omega

/-- The last byte of a number is not zero. -/
theorem absBytes_eq_concat {fuel n : ℕ} (hn : n ≠ 0) (h : n < 256 ^ fuel) :
    ∃ low top, absBytes fuel n = low ++ [top] ∧ top.toNat ≠ 0 := by
  induction fuel generalizing n with
  | zero =>
    rw [pow_zero] at h
    omega
  | succ fuel ih =>
    rw [absBytes, if_neg hn]
    by_cases hdiv : n / 256 = 0
    · refine ⟨[], UInt8.ofNat n, ?_, ?_⟩
      · cases fuel <;> simp [absBytes, hdiv]
      · simp
        omega
    · obtain ⟨low, top, heq, htop⟩ := ih hdiv (by rw [pow_succ] at h; omega)
      exact ⟨UInt8.ofNat n :: low, top, by rw [heq]; rfl, htop⟩

/-- **A serialized number** ends with a byte for the sign, which holds of the
magnitude what the bytes before it do not; these are no more than it takes. -/
theorem scriptNumSerialize_eq {n : ℤ} (h0 : n ≠ 0) (h : n.natAbs < 2 ^ 64) : ∃ low top t,
    scriptNumSerialize n = low ++ [top] ∧ top.toNat = t + (if n < 0 then 128 else 0) ∧ t < 128 ∧
      readLE low + t * 256 ^ low.length = n.natAbs ∧ 256 ^ low.length ≤ 2 * n.natAbs := by
  obtain ⟨low, top, heq, htop⟩ := @absBytes_eq_concat 8 _ (by omega) h
  have hread := @readLE_absBytes 8 _ h
  rw [heq, readLE_append] at hread
  have hle : ∀ k ≤ top.toNat, k * 256 ^ low.length ≤ n.natAbs := fun k hk =>
    (Nat.mul_le_mul_right _ hk).trans (hread ▸ Nat.le_add_left _ _)
  by_cases hspill : 0x80 ≤ top.toNat
  · refine ⟨low ++ [top], if n < 0 then 0x80 else 0, 0, ?_, by split <;> rfl, by decide, ?_, ?_⟩
    · simp [scriptNumSerialize, heq, hspill]
    · rw [readLE_append, hread, zero_mul, add_zero]
    · have := hle 128 hspill
      rw [length_append, length_singleton]
      omega
  · refine ⟨low, if n < 0 then top + 0x80 else top, top.toNat, ?_, ?_, by omega, hread, ?_⟩
    · by_cases hneg : n < 0 <;> simp [scriptNumSerialize, heq, hspill, hneg]
    · split
      · exact Nat.mod_eq_of_lt (show top.toNat + 128 < 256 by omega)
      · rfl
    · have := hle 1 (by omega)
      omega

/-- It is no longer than what holds the number. -/
theorem length_scriptNumSerialize_le {n : ℤ} {k : ℕ} (h : n.natAbs < 2 ^ 64)
    (hk : 2 * n.natAbs < 256 ^ k) : (scriptNumSerialize n).length ≤ k := by
  by_cases h0 : n = 0
  · subst h0
    exact Nat.zero_le k
  · obtain ⟨low, top, t, heq, -, -, -, hlen⟩ := scriptNumSerialize_eq h0 h
    rw [heq, length_append]
    exact (Nat.pow_lt_pow_iff_right (by decide)).1 (hlen.trans_lt hk)

theorem length_scriptNumSerialize {n : ℕ} (h : n < 2 ^ 63) : (scriptNumSerialize n).length ≤ 8 :=
  length_scriptNumSerialize_le (by omega) (by omega)

theorem readLE_scriptNumSerialize {n : ℕ} (h : n < 2 ^ 63) :
    readLE (scriptNumSerialize n) = n := by
  by_cases h0 : n = 0
  · subst h0
    rfl
  · obtain ⟨low, top, t, heq, htop, -, hread, -⟩ :=
      scriptNumSerialize_eq (n := n) (by omega) (by omega)
    rw [if_neg (by omega), add_zero] at htop
    rw [heq, readLE_append, htop, hread, Int.natAbs_natCast]

/-- The number a script starts with. -/
def readHeight : CScript → ℕ
  | [] => 0
  | b :: pc =>
    if 0x51 ≤ b.toNat ∧ b.toNat ≤ 0x60 then b.toNat - 0x50 else readLE (pc.take b.toNat)

/-- **What was pushed is read back.** -/
theorem readHeight_pushInt64 {n : ℕ} (h : n < 2 ^ 63) (rest : CScript) :
    readHeight (pushInt64 n ++ rest) = n := by
  unfold pushInt64
  split
  · -- a single opcode for the small numbers
    rename_i hsmall
    have hnat : ((n : ℤ) + 0x50).toNat = n + 80 := by omega
    have hbyte : (UInt8.ofNat (n + 80)).toNat = n + 80 := by
      simp
      omega
    rw [hnat, singleton_append, readHeight, if_pos (by omega)]
    omega
  · split
    · rename_i hzero
      obtain rfl : n = 0 := by omega
      rfl
    · have hlen := length_scriptNumSerialize h
      have hpush : pushData (scriptNumSerialize n) =
          UInt8.ofNat (scriptNumSerialize n).length :: scriptNumSerialize n := by
        have hlt : (scriptNumSerialize n).length < opPushData1 := by
          unfold opPushData1
          omega
        simp [pushData, hlt]
      have hbyte : (UInt8.ofNat (scriptNumSerialize n).length).toNat =
          (scriptNumSerialize n).length := by
        simp
        omega
      rw [hpush, cons_append, readHeight, hbyte, if_neg (by omega), take_left,
        readLE_scriptNumSerialize h]

/-- **Two pushes that start the same script push the same number.** -/
theorem eq_of_pushInt64_starts {m n : ℕ} (hm : m < 2 ^ 63) (hn : n < 2 ^ 63) {s : CScript}
    (h₁ : pushInt64 m <+: s) (h₂ : pushInt64 n <+: s) : m = n := by
  obtain ⟨r₁, rfl⟩ := h₁
  obtain ⟨r₂, heq⟩ := h₂
  rw [← readHeight_pushInt64 hm r₁, ← heq, readHeight_pushInt64 hn r₂]

end Slucore

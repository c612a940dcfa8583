import Mathlib.Data.Nat.Log
import Mathlib.Data.Nat.Pairing
import Slucore.Primitives.Block
/-!
# Primitives — what a Merkle root determines

The tree duplicates an odd last entry, so lists of different lengths can
share a root. As long as the hash of a pair determines the pair, a level
determines the one below it up to such a duplicate (`eq_of_merkleLevel_eq`),
which the loop reports as a mutation. So the root determines the leaves of a
tree of known depth, if there is no mutation (`computeMerkleRoot_inj_of_depth`),
and of a list of known length in any case (`computeMerkleRoot_inj`).
-/


namespace Slucore

open List

variable {H : Hashes} {fuel fuel' : ℕ} {m m' : Bool} {l l' : List UInt256}

theorem length_merkleLevel (l : List UInt256) :
    (merkleLevel H l).length = (l.length + 1) / 2 := by
  induction l using merkleLevel.induct with
  | case1 a b rest ih =>
    rw [merkleLevel]
    simp only [length_cons]
    omega
  | case2 a => simp [merkleLevel]
  | case3 => simp [merkleLevel]

theorem merkleLevel_eq_nil : merkleLevel H l = [] ↔ l = [] := by
  rw [← length_eq_zero_iff, length_merkleLevel, ← length_eq_zero_iff]
  omega

/-- **A level determines the one below it**, unless one of two lists of
different lengths has a pair of equal entries. -/
theorem eq_of_merkleLevel_eq (hH : Function.Injective2 H.sha256D64)
    (h : merkleLevel H l = merkleLevel H l') :
    l = l' ∨ l.length ≠ l'.length ∧ (hasEqualPair l = true ∨ hasEqualPair l' = true) := by
  induction l using merkleLevel.induct generalizing l' with
  | case1 a b rest ih =>
    match l' with
    | c :: d :: rest' =>
      rw [merkleLevel, merkleLevel, cons.injEq] at h
      obtain ⟨rfl, rfl⟩ := hH h.1
      rcases ih h.2 with rfl | ⟨hne, hpair⟩
      · exact .inl rfl
      · exact .inr ⟨by simpa using hne, by simpa [hasEqualPair, or_or_or_comm] using .inr hpair⟩
    | [c] =>
      -- the second list hashes its last entry with itself
      rw [merkleLevel, merkleLevel, cons.injEq] at h
      obtain ⟨rfl, rfl⟩ := hH h.1
      exact .inr ⟨by simp, .inl (by simp [hasEqualPair])⟩
    | [] => cases h
  | case2 a =>
    match l' with
    | c :: d :: rest' =>
      rw [merkleLevel, merkleLevel, cons.injEq] at h
      obtain ⟨rfl, rfl⟩ := hH h.1
      exact .inr ⟨by simp, .inr (by simp [hasEqualPair])⟩
    | [c] =>
      rw [merkleLevel, merkleLevel, cons.injEq] at h
      exact .inl (by rw [(hH h.1).1])
    | [] => cases h
  | case3 => exact .inl (merkleLevel_eq_nil.1 h.symm).symm

/-- A mutation that was found is reported. -/
theorem merkleLoop_mutation (h : (merkleLoop H fuel m l).2 = false) : m = false := by
  induction fuel generalizing m l with
  | zero => exact h
  | succ fuel ih =>
    match l with
    | [] | [_] => exact h
    | a :: b :: rest =>
      exact (Bool.or_eq_false_iff.1 (ih h)).1

/-- A tree of depth zero is a leaf. -/
theorem exists_of_clog_eq_zero (hne : l ≠ []) (hd : Nat.clog 2 l.length = 0) : ∃ a, l = [a] := by
  have hle : ¬ 1 < l.length := fun hlt => (Nat.clog_pos one_lt_two hlt).ne' hd
  have hpos := length_pos_iff.2 hne
  exact length_eq_one_iff.1 (by omega)

/-- A deeper tree has two entries to hash, and one level less above them. -/
theorem exists_of_clog_eq_succ {d : ℕ} (hd : Nat.clog 2 l.length = d + 1) :
    (∃ a b rest, l = a :: b :: rest) ∧ Nat.clog 2 (merkleLevel H l).length = d := by
  have hlt : 1 < l.length := by
    by_contra hle
    rw [Nat.clog_of_right_le_one (by omega)] at hd
    cases hd
  refine ⟨?_, ?_⟩
  · match l with
    | a :: b :: rest => exact ⟨a, b, rest, rfl⟩
    | [] | [_] => simp at hlt
  · rw [Nat.clog_of_two_le one_lt_two hlt] at hd
    rw [length_merkleLevel]
    exact Nat.succ.inj hd

/-- The loop, started at two levels of one depth. -/
theorem merkleLoop_inj (hH : Function.Injective2 H.sha256D64) {d : ℕ} (hne : l ≠ [])
    (hne' : l' ≠ []) (hfuel : l.length ≤ fuel + 1) (hfuel' : l'.length ≤ fuel' + 1)
    (hd : Nat.clog 2 l.length = d) (hd' : Nat.clog 2 l'.length = d)
    (hor : l.length = l'.length ∨
      (merkleLoop H fuel m l).2 = false ∧ (merkleLoop H fuel' m' l').2 = false)
    (h : (merkleLoop H fuel m l).1 = (merkleLoop H fuel' m' l').1) : l = l' := by
  induction d generalizing fuel fuel' m m' l l' with
  | zero =>
    obtain ⟨a, rfl⟩ := exists_of_clog_eq_zero hne hd
    obtain ⟨b, rfl⟩ := exists_of_clog_eq_zero hne' hd'
    simpa [merkleLoop] using h
  | succ d ih =>
    obtain ⟨⟨a, b, rest, rfl⟩, hlevel⟩ := exists_of_clog_eq_succ (H := H) hd
    obtain ⟨⟨a', b', rest', rfl⟩, hlevel'⟩ := exists_of_clog_eq_succ (H := H) hd'
    obtain ⟨fuel, rfl⟩ : ∃ k, fuel = k + 1 := ⟨fuel - 1, by simp at hfuel; omega⟩
    obtain ⟨fuel', rfl⟩ : ∃ k, fuel' = k + 1 := ⟨fuel' - 1, by simp at hfuel'; omega⟩
    rw [merkleLoop, merkleLoop] at h hor
    have hsame : merkleLevel H (a :: b :: rest) = merkleLevel H (a' :: b' :: rest') := by
      refine ih (by simp [merkleLevel]) (by simp [merkleLevel]) ?_ ?_ hlevel hlevel'
        (hor.imp_left fun hlen => by rw [length_merkleLevel, length_merkleLevel, hlen]) h
      · rw [length_merkleLevel]
        omega
      · rw [length_merkleLevel]
        omega
    rcases eq_of_merkleLevel_eq hH hsame with heq | ⟨hlen, hpair⟩
    · exact heq
    -- lengths differ, so one of the lists was found to be mutated
    obtain ⟨hm, hm'⟩ := hor.resolve_left hlen
    rcases hpair with hp | hp
    · rw [hp, Bool.or_true] at hm
      cases merkleLoop_mutation hm
    · rw [hp, Bool.or_true] at hm'
      cases merkleLoop_mutation hm'

/-- **Between lists of one length the root determines the leaves.** -/
theorem computeMerkleRoot_inj (hH : Function.Injective2 H.sha256D64)
    (hlen : l.length = l'.length)
    (h : (computeMerkleRoot H l).1 = (computeMerkleRoot H l').1) : l = l' := by
  by_cases hne : l = []
  · rw [hne, length_nil, eq_comm, length_eq_zero_iff] at hlen
    rw [hne, hlen]
  · have hne' : l' ≠ [] := ne_nil_of_length_pos (hlen ▸ length_pos_iff.2 hne)
    exact merkleLoop_inj hH hne hne' (Nat.le_succ _) (Nat.le_succ _) rfl (by rw [hlen])
      (.inl hlen) h

/-- **Without a mutation the root determines the leaves of a tree of one
depth**, of whatever number. -/
theorem computeMerkleRoot_inj_of_depth (hH : Function.Injective2 H.sha256D64) (hne : l ≠ [])
    (hne' : l' ≠ []) (hdepth : Nat.clog 2 l.length = Nat.clog 2 l'.length)
    (h : (computeMerkleRoot H l).1 = (computeMerkleRoot H l').1)
    (hm : (computeMerkleRoot H l).2 = false) (hm' : (computeMerkleRoot H l').2 = false) :
    l = l' :=
  merkleLoop_inj hH hne hne' (Nat.le_succ _) (Nat.le_succ _) hdepth rfl (.inr ⟨hm, hm'⟩) h

/-- Hashes that tell transactions apart by what they pay and by the size of
their witness data. -/
def pairingHashes : Hashes where
  serializeHash tx := Nat.pair tx.valueOut.toNat
    ((tx.vin.flatMap CTxIn.scriptWitness).map List.length).sum
  headerHash h := h.nTime
  sha256D64 := Nat.pair

theorem pairingHashes_injective2 : Function.Injective2 pairingHashes.sha256D64 :=
  fun _ _ _ _ h => Nat.pair_eq_pair.1 h

/-- Three leaves, which a fourth equal to the third would not change. -/
theorem three_leaves_determined :
    (computeMerkleRoot pairingHashes [1, 2, 3]).1 = (computeMerkleRoot pairingHashes [1, 2, 3, 3]).1 ∧
      (List.range 3).map (· + 1) = [1, 2, 3] :=
  ⟨by decide, computeMerkleRoot_inj_of_depth pairingHashes_injective2 (by decide) (by decide) rfl
    (by decide) (by decide) (by decide)⟩

end Slucore

import Slucore.Common.BitGroups
import Slucore.Encoding.Bech32
import Slucore.Encoding.KeyIO
/-!
# Encoding — addresses

`EncodeDestination` and `DecodeDestination`. An address of a key or a script
has 25 bytes with its checksum, and its first byte is such that it has
exactly 34 digits: with the letters `SL` these are the 36 letters at which
the decoder takes the letters away. A witness program is written in bech32,
in groups of five bits, and is read back unless the string can be read in
base 58 as well (`addresses_round_trip`).
-/


namespace Slucore

open List UInt8

/-- `Bech32HRP`. -/
def bech32HRP : ChainName → List UInt8
  | .main => ['q', 'c'].map Char.toUInt8
  | .testnet => ['t', 'q'].map Char.toUInt8
  | .regtest | .unittest => ['q', 'c', 'r', 't'].map Char.toUInt8

section Address

variable (chain : ChainName) (hash : List UInt8 → Blob 32)

/-- The string of a witness program, in groups of five bits after the version. -/
def encodeWitness (version : ℕ) (program : List UInt8) : List UInt8 :=
  let data := (convertBits 8 5 true (program.map UInt8.toNat)).1.map UInt8.ofNat
  Bech32.encode (bech32HRP chain) (UInt8.ofNat version :: data)

/-- `EncodeDestination`, with the cases of `DestinationEncoder`. -/
def encodeDestination : CTxDestination → Except Failure (List UInt8)
  | .keyID id => encodeBase58Check hash (base58Prefix chain .pubkeyAddress ++ id.1)
  | .scriptID id => encodeBase58Check hash (base58Prefix chain .scriptAddress ++ id.1)
  | .witnessV0KeyHash id => .ok (encodeWitness chain 0 id.1)
  | .witnessV0ScriptHash id => .ok (encodeWitness chain 0 id.1)
  | .witnessUnknown version program =>
    if version < 1 ∨ 16 < version ∨ program.1.length < 2 ∨ 40 < program.1.length then .ok []
    else .ok (encodeWitness chain version program.1)
  | .noDestination => .ok []

/-- The hash after a prefix, if the data has the prefix and the length. -/
def hashAfter (type : Base58Type) (data : List UInt8) : Option (Blob 20) :=
  let typePrefix := base58Prefix chain type
  if h : data.length = 20 + typePrefix.length ∧ typePrefix <+: data then
    some ⟨data.drop typePrefix.length, by rw [length_drop, h.1, Nat.add_sub_cancel]⟩
  else none

/-- The destination of a witness program of a version. -/
def witnessDestination (version : ℕ) (data : List UInt8) : CTxDestination :=
  if version = 0 then
    if h : data.length = 20 then .witnessV0KeyHash ⟨data, h⟩
    else if h : data.length = 32 then .witnessV0ScriptHash ⟨data, h⟩
    else .noDestination
  else if h : 16 < version ∨ data.length < 2 ∨ 40 < data.length then .noDestination
  else .witnessUnknown version ⟨data, by omega⟩

/-- The second half of `DecodeDestination`, for bech32. -/
def decodeWitness (str : List UInt8) : CTxDestination :=
  let bech := Bech32.decode str
  match bech.2 with
  | [] => .noDestination
  | version :: values =>
    if bech.1 = bech32HRP chain then
      match convertBits 5 8 false (values.map UInt8.toNat) with
      | (data, true) => witnessDestination version.toNat (data.map UInt8.ofNat)
      | (_, false) => .noDestination
    else .noDestination

/-- `DecodeDestination`. -/
def decodeDestination (str : List UInt8) : Except Failure CTxDestination := do
  match ← decodeBase58Check hash str with
  | none => return decodeWitness chain str
  | some data =>
    match hashAfter chain .pubkeyAddress data with
    | some id => return .keyID id
    | none =>
      match hashAfter chain .scriptAddress data with
      | some id => return .scriptID id
      | none => return decodeWitness chain str

/-- The witness destinations that have a string. -/
def CTxDestination.IsWitness : CTxDestination → Prop
  | .witnessV0KeyHash _ | .witnessV0ScriptHash _ => True
  | .witnessUnknown version program => 1 ≤ version ∧ version ≤ 16 ∧ 2 ≤ program.1.length
  | .keyID _ | .scriptID _ | .noDestination => False

/-- The destination is encoded, and decoded to itself. -/
def RoundTrips (d : CTxDestination) : Prop :=
  ∃ str, encodeDestination chain hash d = .ok str ∧ decodeDestination chain hash str = .ok d

/-! ## Keys and scripts -/

/-- The first byte of an address is one that makes 34 digits. -/
theorem base58Prefix_address {type : Base58Type}
    (h : type = .pubkeyAddress ∨ type = .scriptAddress) :
    ∃ first, base58Prefix chain type = [first] ∧ 3 ≤ first.toNat ∧ first.toNat ≤ 142 := by
  rcases h with rfl | rfl <;> cases chain <;> refine ⟨_, rfl, ?_, ?_⟩ <;> decide

theorem base58Prefix_ne (chain : ChainName) :
    base58Prefix chain .pubkeyAddress ≠ base58Prefix chain .scriptAddress := by
  cases chain <;> decide

variable {chain hash}

theorem hashAfter_append {type : Base58Type} (id : Blob 20) :
    hashAfter chain type (base58Prefix chain type ++ id.1) = some id := by
  have h : (base58Prefix chain type ++ id.1).length = 20 + (base58Prefix chain type).length ∧
      base58Prefix chain type <+: base58Prefix chain type ++ id.1 :=
    ⟨by rw [length_append, id.2, add_comm], prefix_append _ _⟩
  rw [hashAfter, dif_pos h]
  simp

/-- The address of a script is not that of a key. -/
theorem hashAfter_script (id : Blob 20) :
    hashAfter chain .pubkeyAddress (base58Prefix chain .scriptAddress ++ id.1) = none := by
  obtain ⟨key, hkey, -⟩ := base58Prefix_address chain (.inl rfl)
  obtain ⟨script, hscript, -⟩ := base58Prefix_address chain (.inr rfl)
  have hne := base58Prefix_ne chain
  rw [hkey, hscript] at hne
  rw [hashAfter, dif_neg]
  rintro ⟨-, hpre⟩
  rw [hkey, hscript, singleton_append, cons_prefix_cons] at hpre
  exact hne (by rw [hpre.1])

/-- **An address has 36 letters**, and is read without the first two. -/
theorem decodeBase58Check_address {type : Base58Type}
    (h : type = .pubkeyAddress ∨ type = .scriptAddress) (id : Blob 20) :
    ∃ str, encodeBase58Check hash (base58Prefix chain type ++ id.1) = .ok str ∧
      decodeBase58Check hash str = .ok (some (base58Prefix chain type ++ id.1)) := by
  obtain ⟨first, hfirst, hlow, hhigh⟩ := base58Prefix_address chain h
  have hshort : (base58Prefix chain type ++ id.1).length ≤ 80 := by
    rw [hfirst, singleton_append, length_cons, id.2]
    decide
  refine ⟨_, encodeBase58Check_eq hash hshort, decodeBase58Check_of_length hash ?_⟩
  have hne : first ≠ 0 := by
    rintro rfl
    exact absurd hlow (by decide)
  rw [hfirst, singleton_append, cons_append]
  have hlen : (id.1 ++ checksum hash (first :: id.1)).length = 24 := by
    rw [length_append, id.2, length_checksum]
  refine length_digits58 (k := 33) hne ?_ ?_ <;> rw [hlen]
  · calc 58 ^ 33 ≤ 3 * 256 ^ 24 := by decide
      _ ≤ first.toNat * 256 ^ 24 := Nat.mul_le_mul_right _ hlow
  · calc (first.toNat + 1) * 256 ^ 24 ≤ 143 * 256 ^ 24 := Nat.mul_le_mul_right _ (by omega)
      _ ≤ 58 ^ (33 + 1) := by decide

theorem roundTrips_keyID (id : Blob 20) : RoundTrips chain hash (.keyID id) := by
  obtain ⟨str, hencode, hdecode⟩ := @decodeBase58Check_address chain hash _ (.inl rfl) id
  refine ⟨str, hencode, ?_⟩
  rw [decodeDestination, hdecode, ok_bind]
  simp only [hashAfter_append]
  rfl

theorem roundTrips_scriptID (id : Blob 20) : RoundTrips chain hash (.scriptID id) := by
  obtain ⟨str, hencode, hdecode⟩ := @decodeBase58Check_address chain hash _ (.inr rfl) id
  refine ⟨str, hencode, ?_⟩
  rw [decodeDestination, hdecode, ok_bind]
  simp only [hashAfter_script, hashAfter_append]
  rfl

/-! ## Witness programs -/

theorem bech32HRP_plain (chain : ChainName) : bech32HRP chain ≠ [] ∧
    (∀ c ∈ bech32HRP chain, Bech32.Plain c) ∧ (bech32HRP chain).length ≤ 4 := by
  unfold Bech32.Plain
  cases chain <;> decide +kernel

/-- **A witness program is read back** from its string. -/
theorem decodeWitness_encodeWitness {version : ℕ} (hversion : version ≤ 16)
    {program : List UInt8} (hlen : program.length ≤ 40) :
    decodeWitness chain (encodeWitness chain version program) =
      witnessDestination version program := by
  obtain ⟨hne, hplain, hhrp⟩ := bech32HRP_plain chain
  obtain ⟨out, hout, hwords, hsize, hback⟩ := convertBits_roundtrip (by decide : 0 < 5)
    (by decide : 5 ≤ 8) (words_toNat program)
  rw [length_map] at hsize
  have hbytes : Words 256 out := fun v hv => (hwords v hv).trans (by decide)
  have hvalues : ∀ v ∈ ofNat version :: out.map ofNat, v.toNat < 32 := by
    intro v hv
    rcases mem_cons.1 hv with rfl | hv
    · rw [toNat_ofNat_of_lt' (by omega : version < 256)]
      omega
    · obtain ⟨d, hd, rfl⟩ := List.mem_map.1 hv
      rw [toNat_ofNat_of_lt' (hbytes d hd)]
      exact hwords d hd
  have hdecode := Bech32.decode_encode hne hplain hvalues (by
    rw [length_cons, length_map]
    omega)
  have hid : UInt8.ofNat ∘ UInt8.toNat = id := funext fun b => UInt8.ofNat_toNat
  rw [encodeWitness, hout, decodeWitness, hdecode]
  simp [map_ofNat_toNat hbytes, hback, hid, toNat_ofNat_of_lt' (by omega : version < 256)]

/-- A witness destination whose string cannot be read in base 58. -/
theorem roundTrips_of_witness {d : CTxDestination} (hd : d.IsWitness)
    (hreject : ∀ str, encodeDestination chain hash d = .ok str →
      decodeBase58Check hash str = .ok none) : RoundTrips chain hash d := by
  -- what is left is the second half of the decoder
  have hread : ∀ {version : ℕ} {program : List UInt8}, version ≤ 16 → program.length ≤ 40 →
      encodeDestination chain hash d = .ok (encodeWitness chain version program) →
      witnessDestination version program = d → RoundTrips chain hash d := by
    intro version program hversion hlen hencode hwitness
    refine ⟨_, hencode, ?_⟩
    rw [decodeDestination, hreject _ hencode]
    simp only [decodeWitness_encodeWitness hversion hlen, hwitness]
    rfl
  cases d with
  | witnessV0KeyHash id =>
    refine hread (by decide : 0 ≤ 16) (by rw [id.2]; decide) rfl ?_
    rw [witnessDestination, if_pos rfl, dif_pos id.2]
  | witnessV0ScriptHash id =>
    refine hread (by decide : 0 ≤ 16) (by rw [id.2]; decide) rfl ?_
    rw [witnessDestination, if_pos rfl, dif_neg (by rw [id.2]; decide), dif_pos id.2]
  | witnessUnknown version program =>
    obtain ⟨hone, hsixteen, htwo⟩ := hd
    have hforty := program.2
    refine hread hsixteen hforty ?_ ?_
    · rw [encodeDestination, if_neg (by omega)]
    · rw [witnessDestination, if_neg (by omega), dif_neg (by omega)]
  | keyID id => exact hd.elim
  | scriptID id => exact hd.elim
  | noDestination => exact hd.elim

/-- **Addresses round-trip.** On every chain and for every hash function, the
address of every key and of every script is decoded to it, and so is that of
every witness destination whose string base 58 rejects. -/
theorem addresses_round_trip (chain : ChainName) (hash : List UInt8 → Blob 32) :
    (∀ id, RoundTrips chain hash (.keyID id)) ∧ (∀ id, RoundTrips chain hash (.scriptID id)) ∧
      ∀ d : CTxDestination, d.IsWitness →
        (∀ str, encodeDestination chain hash d = .ok str →
          decodeBase58Check hash str = .ok none) → RoundTrips chain hash d :=
  ⟨roundTrips_keyID, roundTrips_scriptID, fun _ => roundTrips_of_witness⟩

/-- The string of this program has a `0`, which base 58 does not have. -/
theorem witness_address_round_trips :
    RoundTrips .main (fun _ => ⟨List.replicate 32 0, rfl⟩)
      (.witnessV0KeyHash ⟨List.replicate 20 0x78, rfl⟩) := by
  refine (addresses_round_trip .main _).2.2 _ trivial ?_
  intro str hstr
  obtain ⟨⟩ := hstr
  decide +kernel

end Address

end Slucore

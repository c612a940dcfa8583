import Slucore.Encoding.Key
/-!
# Encoding — exported keys

`EncodeSecret`, `EncodeExtPubKey`, `EncodeExtKey` and their decoders. A key
is written after the prefix of its kind on its chain, in base 58 with a
checksum and the letters `SL`. Only a string of 36 letters is read without
these two, and all keys are longer: what is read has more bytes than was
written, so every decoder gives back a key that was not set
(`exported_keys_refused`).
-/


namespace Slucore

open CKey List

/-! ## Chain parameters -/

/-- `CChainParams::Base58Type`. -/
inductive Base58Type where
  | pubkeyAddress
  | scriptAddress
  | secretKey
  | extPublicKey
  | extSecretKey
deriving DecidableEq

/-- The names that `CreateChainParams` knows. -/
inductive ChainName where
  | main
  | testnet
  | regtest
  | unittest
deriving DecidableEq

/-- `Base58Prefix`. The chain of the unit tests takes its parameters from the
regression test chain. -/
def base58Prefix : ChainName → Base58Type → List UInt8
  | .main, .pubkeyAddress => [68]
  | .main, .scriptAddress => [130]
  | .main, .secretKey => [128]
  | .main, .extPublicKey => [0x04, 0x88, 0xB2, 0x1E]
  | .main, .extSecretKey => [0x04, 0x88, 0xAD, 0xE4]
  | .testnet, .pubkeyAddress => [63]
  | .testnet, .scriptAddress => [125]
  | .testnet, .secretKey => [239]
  | .testnet, .extPublicKey => [0x04, 0x35, 0x87, 0xCF]
  | .testnet, .extSecretKey => [0x04, 0x35, 0x83, 0x94]
  | .regtest, .pubkeyAddress | .unittest, .pubkeyAddress => [120]
  | .regtest, .scriptAddress | .unittest, .scriptAddress => [110]
  | .regtest, .secretKey | .unittest, .secretKey => [239]
  | .regtest, .extPublicKey | .unittest, .extPublicKey => [0x04, 0x35, 0x87, 0xCF]
  | .regtest, .extSecretKey | .unittest, .extSecretKey => [0x04, 0x35, 0x83, 0x94]

theorem base58Prefix_secretKey (chain : ChainName) :
    ∃ first, base58Prefix chain .secretKey = [first] ∧ 128 ≤ first.toNat := by
  cases chain <;> refine ⟨_, rfl, ?_⟩ <;> decide

theorem base58Prefix_ext (chain : ChainName) {type : Base58Type}
    (h : type = .extPublicKey ∨ type = .extSecretKey) :
    ∃ rest, base58Prefix chain type = 4 :: rest ∧ rest.length = 3 := by
  rcases h with rfl | rfl <;> cases chain <;> refine ⟨_, rfl, ?_⟩ <;> rfl

/-! ## Encoders and decoders -/

section KeyIO

variable (chain : ChainName) (hash : List UInt8 → Blob 32)

/-- The bytes that `EncodeSecret` writes. -/
def secretData (key : CKey) : List UInt8 :=
  base58Prefix chain .secretKey ++ key.keydata.1.take key.size ++
    if key.fCompressed then [1] else []

/-- `EncodeSecret`. -/
def encodeSecret (key : CKey) : Except Failure (List UInt8) := do
  require key.fValid (.fatal "assert(key.IsValid())")
  encodeBase58Check hash (secretData chain key)

/-- `DecodeSecret`. -/
def decodeSecret (str : List UInt8) : Except Failure CKey := do
  match ← decodeBase58Check hash str with
  | none => return CKey.new
  | some data =>
    let privkeyPrefix := base58Prefix chain .secretKey
    let size := privkeyPrefix.length
    if (data.length = 32 + size ∨ (data.length = 33 + size ∧ data.getLast? = some 1)) ∧
        privkeyPrefix <+: data then
      return CKey.new.set ((data.drop size).take 32) (data.length == 33 + size)
    else return CKey.new

/-- `EncodeExtPubKey`. -/
def encodeExtPubKey (key : CExtPubKey) : Except Failure (List UInt8) := do
  let code ← key.encode
  encodeBase58Check hash (base58Prefix chain .extPublicKey ++ code)

/-- `DecodeExtPubKey`. Except for the public key, the members of the key that
is filled in are not initialised: they hold what the memory holds. -/
def decodeExtPubKey (memory : ExtFields) (str : List UInt8) : Except Failure CExtPubKey := do
  match ← decodeBase58Check hash str with
  | none => return ⟨memory, CPubKey.new⟩
  | some data =>
    let extPrefix := base58Prefix chain .extPublicKey
    if h : data.length = bip32ExtkeySize + extPrefix.length ∧ extPrefix <+: data then
      return CExtPubKey.decode ⟨data.drop extPrefix.length, by
        rw [List.length_drop, h.1, Nat.add_sub_cancel]⟩
    else return ⟨memory, CPubKey.new⟩

/-- `EncodeExtKey`. -/
def encodeExtKey (key : CExtKey) : Except Failure (List UInt8) := do
  let code ← key.encode
  encodeBase58Check hash (base58Prefix chain .extSecretKey ++ code)

/-- `DecodeExtKey`, likewise. -/
def decodeExtKey (memory : ExtFields) (str : List UInt8) : Except Failure CExtKey := do
  match ← decodeBase58Check hash str with
  | none => return ⟨memory, CKey.new⟩
  | some data =>
    let extPrefix := base58Prefix chain .extSecretKey
    if h : data.length = bip32ExtkeySize + extPrefix.length ∧ extPrefix <+: data then
      return CExtKey.decode ⟨memory, CKey.new⟩ ⟨data.drop extPrefix.length, by
        rw [List.length_drop, h.1, Nat.add_sub_cancel]⟩
    else return ⟨memory, CKey.new⟩

/-! ## What is read back -/

/-- **A private key** is read as more bytes than any private key has. -/
theorem decodeBase58Check_secret {key : CKey} (hvalid : key.fValid = true) :
    ∃ str r, encodeBase58Check hash (secretData chain key) = .ok str ∧
      decodeBase58Check hash str = .ok r ∧
      ∀ data ∈ r, 35 ≤ data.length ∧ (secretData chain key).length < data.length := by
  obtain ⟨first, hpre, hfirst⟩ := base58Prefix_secretKey chain
  set rest := key.keydata.1 ++ if key.fCompressed then [1] else [] with hrest
  have hdata : secretData chain key = first :: rest := by
    rw [secretData, hpre, size, if_pos hvalid, take_of_length_le key.keydata.2.le]
    rfl
  have hlen : 32 ≤ rest.length ∧ rest.length ≤ 33 := by
    rw [length_append, key.keydata.2]
    cases key.fCompressed <;> decide
  have hne : first ≠ 0 := by
    rintro rfl
    exact absurd hfirst (by decide)
  rw [hdata]
  obtain ⟨r, hr, hlong⟩ := decodeBase58Check_of_long hash (k := 2) hne
    ((by decide : 21 ≤ 32).trans hlen.1) (by omega)
  refine ⟨_, r, encodeBase58Check_eq hash (by rw [length_cons]; omega), hr, fun data hmem => ?_⟩
  have := hlong data hmem
  rw [length_cons]
  omega

/-- **An extended key** is read as more bytes than any extended key has. -/
theorem decodeBase58Check_ext {type : Base58Type}
    (htype : type = .extPublicKey ∨ type = .extSecretKey) {code : List UInt8}
    (hcode : code.length = bip32ExtkeySize) :
    ∃ str r, encodeBase58Check hash (base58Prefix chain type ++ code) = .ok str ∧
      decodeBase58Check hash str = .ok r ∧
      (∀ data ∈ r, data.length ≠ bip32ExtkeySize + (base58Prefix chain type).length) ∧
      r ≠ some (base58Prefix chain type ++ code) := by
  obtain ⟨rest, hpre, hlen⟩ := base58Prefix_ext chain htype
  rw [hpre, cons_append, length_cons]
  have h74 : bip32ExtkeySize = 74 := rfl
  have hsize : (rest ++ code).length = 77 := by
    rw [length_append, hlen, hcode, h74]
  obtain ⟨r, hr, hlong⟩ := decodeBase58Check_of_long hash (k := 1) (by decide : (4 : UInt8) ≠ 0)
    (by omega : 21 ≤ (rest ++ code).length) (by decide)
  refine ⟨_, r, encodeBase58Check_eq hash (by rw [length_cons]; omega), hr,
    fun data hmem => ?_, fun hback => ?_⟩
  · have := hlong data hmem
    omega
  · have := hlong _ (Option.mem_def.2 hback)
    rw [length_cons] at this
    omega

variable {chain hash}

theorem decodeSecret_eq_new {str : List UInt8} {r : Option (List UInt8)}
    (hr : decodeBase58Check hash str = .ok r) (hlong : ∀ data ∈ r, 35 ≤ data.length) :
    decodeSecret chain hash str = .ok new := by
  obtain ⟨first, hpre, -⟩ := base58Prefix_secretKey chain
  rw [decodeSecret, hr, ok_bind]
  cases r with
  | none => rfl
  | some data =>
    have := hlong data rfl
    dsimp only
    rw [hpre, length_singleton, if_neg]
    · rfl
    · omega

theorem secret_refused {key : CKey} (hvalid : key.fValid = true) :
    ∃ str, encodeSecret chain hash key = .ok str ∧
      decodeSecret chain hash str = .ok new ∧ (new == key) = false ∧
      decodeBase58Check hash str ≠ .ok (some (secretData chain key)) := by
  obtain ⟨str, r, hstr, hr, hlong⟩ := decodeBase58Check_secret chain hash hvalid
  refine ⟨_, ?_, decodeSecret_eq_new hr fun data hmem => (hlong data hmem).1,
    new_beq hvalid, fun hback => ?_⟩
  · rw [encodeSecret, hvalid]
    exact hstr
  · rw [hr, Except.ok.injEq] at hback
    exact absurd (hlong _ (Option.mem_def.2 hback)).2 (lt_irrefl _)

/-- **No exported key can be imported.** On every chain, whatever the hash
function, the encoders write every valid key, and what the decoders make of
it is a key that was not set. -/
theorem exported_keys_refused (chain : ChainName) (hash : List UInt8 → Blob 32)
    (memory : ExtFields) :
    (∀ key : CKey, key.fValid = true → ∃ str, encodeSecret chain hash key = .ok str ∧
      decodeSecret chain hash str = .ok CKey.new ∧ (CKey.new == key) = false ∧
      decodeBase58Check hash str ≠ .ok (some (secretData chain key))) ∧
    (∀ key : CExtPubKey, key.pubkey.size = 33 → ∃ code str, key.encode = .ok code ∧
      encodeExtPubKey chain hash key = .ok str ∧
      decodeExtPubKey chain hash memory str = .ok ⟨memory, CPubKey.new⟩ ∧
      ((⟨memory, CPubKey.new⟩ : CExtPubKey) == key) = false ∧
      decodeBase58Check hash str ≠ .ok (some (base58Prefix chain .extPublicKey ++ code))) ∧
    (∀ key : CExtKey, key.key.fValid = true → ∃ code str, key.encode = .ok code ∧
      encodeExtKey chain hash key = .ok str ∧
      decodeExtKey chain hash memory str = .ok ⟨memory, CKey.new⟩ ∧
      ((⟨memory, CKey.new⟩ : CExtKey) == key) = false ∧
      decodeBase58Check hash str ≠ .ok (some (base58Prefix chain .extSecretKey ++ code))) := by
  refine ⟨fun _ => secret_refused, fun key hsize => ?_, fun key hvalid => ?_⟩
  · obtain ⟨code, hencode, hlen⟩ := key.encode_eq_ok hsize
    obtain ⟨str, r, hstr, hr, hlong, hne⟩ := decodeBase58Check_ext chain hash (.inl rfl) hlen
    refine ⟨code, _, hencode, ?_, ?_, ?_, fun hback => hne (Except.ok.inj (hr.symm.trans hback))⟩
    · rw [encodeExtPubKey, hencode, ok_bind, hstr]
    · rw [decodeExtPubKey, hr]
      cases r with
      | none => rfl
      | some data => exact dif_neg fun h => hlong data rfl h.1
    · rw [beq_eq_false_iff_ne]
      rintro rfl
      exact absurd hsize (by simp [CPubKey.size, CPubKey.new])
  · obtain ⟨code, hencode, hlen⟩ := key.encode_eq_ok hvalid
    obtain ⟨str, r, hstr, hr, hlong, hne⟩ := decodeBase58Check_ext chain hash (.inr rfl) hlen
    refine ⟨code, _, hencode, ?_, ?_, ?_, fun hback => hne (Except.ok.inj (hr.symm.trans hback))⟩
    · rw [encodeExtKey, hencode, ok_bind, hstr]
    · rw [decodeExtKey, hr]
      cases r with
      | none => rfl
      | some data => exact dif_neg fun h => hlong data rfl h.1
    · show (_ && _) = false
      rw [new_beq hvalid, Bool.and_false]

/-- The private key one, on the main chain. -/
def keyOne : CKey := CKey.new.set (List.replicate 31 0 ++ [1]) true

/-- Written as a string of 54 letters, it is not read. -/
theorem key_one_refused : keyOne.fValid = true ∧ ∀ hash : List UInt8 → Blob 32,
    ∃ str, encodeSecret .main hash keyOne = .ok str ∧
      decodeSecret .main hash str = .ok CKey.new ∧ (CKey.new == keyOne) = false := by
  have hvalid : keyOne.fValid = true := by decide
  refine ⟨hvalid, fun hash => ?_⟩
  obtain ⟨str, hencode, hdecode, hne, -⟩ := @secret_refused .main hash _ hvalid
  exact ⟨str, hencode, hdecode, hne⟩

/-- Likewise with the extended keys of the key one. -/
theorem exported_keys_of_one_refused : ∀ (hash : List UInt8 → Blob 32) (memory : ExtFields),
    (∃ str, encodeSecret .main hash keyOne = .ok str ∧
      decodeSecret .main hash str = .ok CKey.new) ∧
    ∃ str, encodeExtKey .main hash ⟨memory, keyOne⟩ = .ok str ∧
      decodeExtKey .main hash memory str = .ok ⟨memory, CKey.new⟩ := by
  intro hash memory
  have hvalid : keyOne.fValid = true := by decide
  obtain ⟨hsecret, -, hext⟩ := exported_keys_refused .main hash memory
  obtain ⟨str, hencode, hdecode, -⟩ := hsecret keyOne hvalid
  obtain ⟨-, str', -, hencode', hdecode', -⟩ := hext ⟨memory, keyOne⟩ hvalid
  exact ⟨⟨str, hencode, hdecode⟩, str', hencode', hdecode'⟩

end KeyIO

end Slucore

import Slucore.Encoding.Base58
/-!
# Encoding — keys

The keys that are exported as strings: private keys, public keys, and the
extended keys of a key tree, which are written in 74 bytes. Both kinds of
extended key begin with the same 41 bytes.
-/


namespace Slucore

/-! ## Private keys -/

/-- `CKey`. -/
structure CKey where
  fValid : Bool
  fCompressed : Bool
  keydata : Blob 32

namespace CKey

/-- `CKey()`: an invalid key. -/
def new : CKey := ⟨false, false, ⟨List.replicate 32 0, rfl⟩⟩

/-- `size`. -/
def size (key : CKey) : ℕ := if key.fValid then 32 else 0

/-- `operator==`. -/
instance : BEq CKey where
  beq a b := a.fCompressed == b.fCompressed && a.size == b.size &&
    a.keydata.1.take a.size == b.keydata.1.take a.size

/-- `SECP256K1_N`, the order of the group. -/
def secp256k1N : ℕ := 0xFFFFFFFFFFFFFFFFFFFFFFFFFFFFFFFEBAAEDCE6AF48A03BBFD25E8CD0364141

/-- `Check`, by `secp256k1_ec_seckey_verify`: no overflow, and not zero. -/
def check (vch : List UInt8) : Bool := !(secp256k1N ≤ bytesValue vch) && bytesValue vch != 0

/-- `Set`. -/
def set (key : CKey) (bytes : List UInt8) (fCompressedIn : Bool) : CKey :=
  if h : bytes.length = 32 then
    if check bytes then ⟨true, fCompressedIn, ⟨bytes, h⟩⟩ else { key with fValid := false }
  else { key with fValid := false }

/-- A key that was not set is not equal to a valid one. -/
theorem new_beq {key : CKey} (h : key.fValid = true) : (new == key) = false := by
  have hsize : (new.size == key.size) = false := by
    rw [size, size, h]
    rfl
  show (_ && _ && _) = false
  rw [hsize, Bool.and_false, Bool.false_and]

end CKey

/-! ## Public keys -/

/-- `CPubKey::GetLen`. -/
def getLen (chHeader : UInt8) : ℕ :=
  if chHeader = 2 ∨ chHeader = 3 then 33
  else if chHeader = 4 ∨ chHeader = 6 ∨ chHeader = 7 then 65
  else 0

/-- `CPubKey`, by its bytes from `begin()` to `end()`, of which an invalid key
has none. -/
structure CPubKey where
  vch : List UInt8
  length_eq : vch.length = getLen (vch.headD 0)
deriving DecidableEq

namespace CPubKey

/-- `CPubKey()`: an invalid key. -/
def new : CPubKey := ⟨[], rfl⟩

/-- `size`. -/
def size (pubkey : CPubKey) : ℕ := pubkey.vch.length

/-- `Set`. -/
def set (bytes : List UInt8) : CPubKey :=
  if h : bytes.length = getLen (bytes.headD 0) then ⟨bytes, h⟩ else new

end CPubKey

/-! ## Extended keys -/

/-- `BIP32_EXTKEY_SIZE`. -/
abbrev bip32ExtkeySize : ℕ := 74

/-- What both kinds of extended key begin with. -/
structure ExtFields where
  nDepth : UInt8
  vchFingerprint : Blob 4
  nChild : UInt32
  chaincode : Blob 32
deriving DecidableEq

namespace ExtFields

/-- The first 41 bytes that `Encode` writes. -/
def encode (fields : ExtFields) : List UInt8 :=
  fields.nDepth :: fields.vchFingerprint.1 ++
    [(fields.nChild >>> 24).toUInt8, (fields.nChild >>> 16).toUInt8,
      (fields.nChild >>> 8).toUInt8, fields.nChild.toUInt8] ++
    fields.chaincode.1

theorem length_encode (fields : ExtFields) : fields.encode.length = 41 := by
  simp [encode, fields.vchFingerprint.2, fields.chaincode.2]

/-- What `Decode` reads from them. -/
def decode (code : Blob bip32ExtkeySize) : ExtFields where
  nDepth := code.1.getD 0 0
  vchFingerprint := ⟨(code.1.drop 1).take 4, by simp [code.2]⟩
  nChild := (code.1.getD 5 0).toUInt32 <<< 24 ||| (code.1.getD 6 0).toUInt32 <<< 16 |||
    (code.1.getD 7 0).toUInt32 <<< 8 ||| (code.1.getD 8 0).toUInt32
  chaincode := ⟨(code.1.drop 9).take 32, by rw [List.length_take, List.length_drop, code.2]; rfl⟩

end ExtFields

/-- `CExtPubKey`. -/
structure CExtPubKey where
  fields : ExtFields
  pubkey : CPubKey
deriving DecidableEq

namespace CExtPubKey

/-- `Encode`. -/
def encode (key : CExtPubKey) : Except Failure (List UInt8) := do
  require (key.pubkey.size == 33)
    (.fatal "assert(pubkey.size() == CPubKey::COMPRESSED_PUBLIC_KEY_SIZE)")
  return key.fields.encode ++ key.pubkey.vch

/-- `Decode`. -/
def decode (code : Blob bip32ExtkeySize) : CExtPubKey :=
  ⟨ExtFields.decode code, CPubKey.set (code.1.drop 41)⟩

theorem encode_eq_ok (key : CExtPubKey) (h : key.pubkey.size = 33) :
    ∃ code, key.encode = .ok code ∧ code.length = bip32ExtkeySize := by
  refine ⟨key.fields.encode ++ key.pubkey.vch, ?_, ?_⟩
  · rw [encode, h]
    rfl
  · rw [List.length_append, ExtFields.length_encode]
    exact congrArg (41 + ·) h

end CExtPubKey

/-- `CExtKey`. -/
structure CExtKey where
  fields : ExtFields
  key : CKey

namespace CExtKey

/-- `operator==`. -/
instance : BEq CExtKey where
  beq a b := a.fields == b.fields && a.key == b.key

/-- `Encode`. -/
def encode (key : CExtKey) : Except Failure (List UInt8) := do
  require (key.key.size == 32) (.fatal "assert(key.size() == 32)")
  return key.fields.encode ++ 0 :: key.key.keydata.1

/-- `Decode`, into a key that is there already. -/
def decode (key : CExtKey) (code : Blob bip32ExtkeySize) : CExtKey :=
  ⟨ExtFields.decode code, key.key.set (code.1.drop 42) true⟩

theorem encode_eq_ok (key : CExtKey) (h : key.key.fValid = true) :
    ∃ code, key.encode = .ok code ∧ code.length = bip32ExtkeySize := by
  refine ⟨key.fields.encode ++ 0 :: key.key.keydata.1, ?_, ?_⟩
  · rw [encode, CKey.size, h]
    rfl
  · rw [List.length_append, ExtFields.length_encode, List.length_cons, key.key.keydata.2]

end CExtKey

end Slucore

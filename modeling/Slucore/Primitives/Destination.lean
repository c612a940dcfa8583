import Mathlib.Tactic
/-!
# Primitives — destinations

`CTxDestination`, what a script pays to and an address encodes. The hashes
are strings of a fixed number of bytes.
-/


namespace Slucore

/-- `base_blob`: a fixed number of bytes. -/
abbrev Blob (n : ℕ) : Type := { bytes : List UInt8 // bytes.length = n }

/-- `CTxDestination`, in the order of the variant. -/
inductive CTxDestination where
  | noDestination
  | keyID (hash : Blob 20)
  | scriptID (hash : Blob 20)
  | witnessV0ScriptHash (hash : Blob 32)
  | witnessV0KeyHash (hash : Blob 20)
  /-- The bytes in use of the 40 that there is room for. -/
  | witnessUnknown (version : ℕ) (program : { bytes : List UInt8 // bytes.length ≤ 40 })
deriving DecidableEq

namespace CTxDestination

/-- `boost::variant::which`. -/
def which : CTxDestination → ℕ
  | noDestination => 0
  | keyID _ => 1
  | scriptID _ => 2
  | witnessV0ScriptHash _ => 3
  | witnessV0KeyHash _ => 4
  | witnessUnknown _ _ => 5

/-- `DataVisitor`. -/
def data : CTxDestination → List UInt8
  | noDestination => []
  | keyID hash => hash.1
  | scriptID hash => hash.1
  | witnessV0ScriptHash hash => hash.1
  | witnessV0KeyHash hash => hash.1
  | witnessUnknown _ _ => []

end CTxDestination

end Slucore

import Slucore.Common.Checked
/-!
# Primitives — how a validation routine fails

The source has several ways to return `false`, and callers tell them
apart: a rejection recorded in the validation state, a bare `error`
that leaves the state as it was, a request to shut the node down, and an
assertion or exception that ends the process.
-/


namespace Slucore

/-- The ways a validation routine ends without success. -/
inductive Failure where
  /-- `state.DoS(level, …, reason, corruption)`; `state.Invalid` is the
  case of level `0`. -/
  | dos (level : ℕ) (reason : String) (corruption : Bool := false)
  /-- `return false` or `return error(msg)` with the state untouched. -/
  | error (msg : String)
  /-- `AbortNode(state, msg)`. -/
  | abortNode (msg : String)
  /-- A failed `assert` or an exception nothing catches. -/
  | fatal (msg : String)
deriving DecidableEq, Repr

end Slucore

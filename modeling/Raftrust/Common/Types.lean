import Raftrust.Lib.Bytes

/-!
# Shared types

The identifiers and counters of the system, all `u64` in the code. They are natural numbers here:
runs in which one of them overflows are outside the model.
-/

namespace Raftrust

export Lib (Byte Bytes)

/-- Unique identifier for a node in the Raft cluster. -/
abbrev NodeId := ℕ

/-- Raft term number. -/
abbrev Term := ℕ

/-- Index into the Raft log, from `1`. -/
abbrev LogIndex := ℕ

inductive Error where
  | storage (msg : String)
  | raft (msg : String)
  | io (msg : String)
  | notLeader (leaderId : Option NodeId)
  | keyNotFound
  | transactionConflict
  | corruption (msg : String)
  deriving DecidableEq, Repr

/-- The text an error is displayed with. -/
def Error.toText : Error → String
  | .storage msg => s!"storage error: {msg}"
  | .raft msg => s!"raft error: {msg}"
  | .io msg => s!"io error: {msg}"
  | .notLeader none => "not leader: leader is node None"
  | .notLeader (some id) => s!"not leader: leader is node Some({id})"
  | .keyNotFound => "key not found"
  | .transactionConflict => "transaction conflict"
  | .corruption msg => s!"corruption: {msg}"

/-- Why a call returns no value: it reports an error, or it panics. -/
inductive Abort where
  | error (e : Error)
  | panicked
  deriving DecidableEq, Repr

/-- A 32-bit number as `0x` and eight hexadecimal digits. -/
def hex32 (n : ℕ) : String :=
  "0x" ++ String.ofList ((List.range 8).reverse.map fun i => Nat.digitChar (n / 16 ^ i % 16))

end Raftrust

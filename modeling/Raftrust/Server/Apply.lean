import Raftrust.Consensus.Configuration
import Raftrust.Mvcc.Store
import Raftrust.Server.Lease

/-!
# Commands and their application

Committed entries carry commands in JSON. Applying one writes to the store of the node and to its
table of leases.
-/

namespace Raftrust.Server

open Consensus Mvcc Storage

inductive KvCommand where
  | put (key value : Bytes) (leaseId ttlSeconds : Int64)
  | delete (key : Bytes)
  | leaseGrant (leaseId ttl : Int64)
  | leaseRevoke (leaseId : Int64)
  deriving DecidableEq, Repr

/-- The JSON of commands. What does not parse is described by a text. -/
class CommandJson where
  toVec : KvCommand → Bytes
  fromSlice : Bytes → Except String KvCommand

namespace CommandJson

def numberText (n : ℤ) : List Char :=
  if n < 0 then '-' :: Nat.toDigits 10 n.natAbs else Nat.toDigits 10 n.natAbs

def bytesText (bytes : Bytes) : List Char :=
  ['['] ++ [','].intercalate (bytes.map fun b => Nat.toDigits 10 b) ++ [']']

def fieldText (name value : List Char) : List Char :=
  ['"'] ++ name ++ ['"', ':'] ++ value

def variantText (name : List Char) (fields : List (List Char)) : List Char :=
  ['\x7b', '"'] ++ name ++ ['"', ':', '\x7b'] ++ [','].intercalate fields ++ ['\x7d', '\x7d']

def keyField (key : Bytes) : List Char :=
  fieldText ['k', 'e', 'y'] (bytesText key)

def leaseIdField (leaseId : Int64) : List Char :=
  fieldText ['l', 'e', 'a', 's', 'e', '_', 'i', 'd'] (numberText leaseId.toInt)

def commandText : KvCommand → List Char
  | .put key value leaseId ttlSeconds =>
    variantText ['P', 'u', 't']
      [keyField key, fieldText ['v', 'a', 'l', 'u', 'e'] (bytesText value), leaseIdField leaseId,
        fieldText ['t', 't', 'l', '_', 's', 'e', 'c', 'o', 'n', 'd', 's']
          (numberText ttlSeconds.toInt)]
  | .delete key => variantText ['D', 'e', 'l', 'e', 't', 'e'] [keyField key]
  | .leaseGrant leaseId ttl =>
    variantText ['L', 'e', 'a', 's', 'e', 'G', 'r', 'a', 'n', 't']
      [leaseIdField leaseId, fieldText ['t', 't', 'l'] (numberText ttl.toInt)]
  | .leaseRevoke leaseId =>
    variantText ['L', 'e', 'a', 's', 'e', 'R', 'e', 'v', 'o', 'k', 'e'] [leaseIdField leaseId]

/-- The encoding as text. What is decoded is the text of one of the commands that are given. -/
@[reducible] def text (cmds : List KvCommand) : CommandJson where
  toVec := fun cmd => ConfigJson.ascii (commandText cmd)
  fromSlice := fun data =>
    match cmds.find? fun cmd => ConfigJson.ascii (commandText cmd) = data with
    | some cmd => .ok cmd
    | none => .error "expected value"

end CommandJson

namespace KvCommand

variable [CommandJson]

def encode (cmd : KvCommand) : Bytes :=
  CommandJson.toVec cmd

def decode (data : Bytes) : Except Error KvCommand :=
  (CommandJson.fromSlice data).mapError fun e =>
    .corruption s!"failed to decode KvCommand: {e}"

end KvCommand

/-- What a node applies commands to. -/
structure Replica (σ : Type) where
  store : MvccStore σ
  leases : LeaseManager

/-- The clock and the order of hash sets at the time of a call. -/
structure Moment where
  now : ℕ
  order : IterationOrder Bytes

namespace Replica

variable {σ : Type} [StorageEngine σ]

/-- Delete a key of a lease. A delete that fails is passed over. -/
def deleteKey (store : MvccStore σ) (key : Bytes) : Except Abort (MvccStore σ) :=
  match store.delete key with
  | .ok (_, _, store) => .ok store
  | .error (.error _) => .ok store
  | .error .panicked => .error .panicked

/-- Delete the keys of a lease one by one. -/
def deleteAll (store : MvccStore σ) (keys : List Bytes) : Except Abort (MvccStore σ) :=
  keys.foldlM deleteKey store

lemma deleteAll_snoc {store store' store'' : MvccStore σ} {keys : List Bytes} {key : Bytes}
    (hkeys : deleteAll store keys = .ok store') (hkey : deleteKey store' key = .ok store'') :
    deleteAll store (keys ++ [key]) = .ok store'' := by
  rw [deleteAll] at hkeys
  rw [deleteAll, List.foldlM_append, hkeys]
  show List.foldlM deleteKey store' [key] = Except.ok store''
  rw [List.foldlM_cons, hkey]
  rfl

/-- Attach a key to the lease it is put with. An unknown lease is passed over. -/
def attach (leases : LeaseManager) (leaseId : Int64) (key : Bytes) : LeaseManager :=
  if 0 < leaseId then
    match leases.attachKey leaseId key with
    | .ok leases => leases
    | .error _ => leases
  else leases

/-- Detach a deleted key from the lease of its last value. -/
def detach (leases : LeaseManager) (prev : Option KeyValue) (key : Bytes) : LeaseManager :=
  match prev with
  | some kv => if 0 < kv.leaseId then leases.detachKey kv.leaseId key else leases
  | none => leases

def applyCommand (r : Replica σ) (m : Moment) : KvCommand → Except Abort (Replica σ)
  | .put key value leaseId ttlSeconds => do
    let _prev ← r.store.get key
    let (_revision, store) ← r.store.putWithOptions key value leaseId ttlSeconds
    return { store := store, leases := attach r.leases leaseId key }
  | .delete key => do
    let prev ← r.store.get key
    let (_revision, _existed, store) ← r.store.delete key
    return { store := store, leases := detach r.leases prev key }
  | .leaseGrant leaseId ttl =>
    match r.leases.grant leaseId ttl m.now with
    | .ok (_, _, leases) => .ok { r with leases := leases }
    | .error _ => .ok r
  | .leaseRevoke leaseId =>
    match r.leases.revoke leaseId m.order with
    | .ok (keys, leases) => do
      let store ← deleteAll r.store keys
      return { store := store, leases := leases }
    | .error _ => .ok r

variable [CommandJson]

/-- One turn of the loop over committed entries, with the number it counts. What does not decode is
skipped; configuration changes are the business of the consensus node. -/
def applyEntry (r : Replica σ) (entry : LogEntry) (m : Moment) : Except Abort (ℕ × Replica σ) :=
  match entry.entryType with
  | .normal =>
    if entry.data.isEmpty then .ok (0, r)
    else
      match KvCommand.decode entry.data with
      | .ok cmd => (r.applyCommand m cmd).map fun r => (1, r)
      | .error _ => .ok (0, r)
  | .noop => .ok (0, r)
  | .configChange => .ok (1, r)

/-- The loop of a batch, with the number applied so far. -/
def applyLoop (applied : ℕ) (r : Replica σ) :
    List (LogEntry × Moment) → Except Abort (ℕ × Replica σ)
  | [] => .ok (applied, r)
  | (entry, m) :: entries => do
    let (n, r) ← r.applyEntry entry m
    applyLoop (applied + n) r entries

/-- Apply a batch of committed entries. Returns the number applied. -/
def apply (r : Replica σ) (entries : List (LogEntry × Moment)) : Except Abort (ℕ × Replica σ) :=
  applyLoop 0 r entries

end Replica

/-! ### Runs of a replica -/

/-- What happens to a replica: the next committed entry is applied, the leases are swept, or a
client renews a lease. -/
inductive ReplicaEvent where
  | apply (entry : LogEntry) (m : Moment)
  | sweep (now : ℕ) (ids : IterationOrder Int64) (order : IterationOrder Bytes)
  | keepalive (id : Int64) (now : ℕ)

def ReplicaEvent.entry? : ReplicaEvent → Option LogEntry
  | .apply entry _ => some entry
  | _ => none

section

variable [CommandJson]

/-- The command that an entry makes a replica carry out. -/
def command? (entry : LogEntry) : Option KvCommand :=
  if entry.entryType = .normal ∧ entry.data ≠ [] then (KvCommand.decode entry.data).toOption
  else none

lemma command?_eq_some {entry : LogEntry} {cmd : KvCommand} (htype : entry.entryType = .normal)
    (hdata : entry.data ≠ []) (hdecode : KvCommand.decode entry.data = .ok cmd) :
    command? entry = some cmd := by
  rw [command?, if_pos ⟨htype, hdata⟩, hdecode]
  rfl

namespace Replica

variable {σ : Type} [StorageEngine σ]

def step (r : Replica σ) : ReplicaEvent → Except Abort (Replica σ)
  | .apply entry m => (r.applyEntry entry m).map (·.2)
  | .sweep now ids order => .ok { r with leases := (r.leases.collectExpired now ids order).2 }
  | .keepalive id now =>
    match r.leases.keepalive id now with
    | .ok (_, leases) => .ok { r with leases := leases }
    | .error _ => .ok r

/-- The replica after the events, unless one of them panics. -/
def run (r : Replica σ) (es : List ReplicaEvent) : Except Abort (Replica σ) :=
  es.foldlM step r

lemma run_snoc (r : Replica σ) (es : List ReplicaEvent) (e : ReplicaEvent) :
    r.run (es ++ [e]) = r.run es >>= fun r => r.step e := by
  rw [run, List.foldlM_append]
  simp only [List.foldlM_cons, List.foldlM_nil, bind_pure]
  rfl

lemma step_apply (r : Replica σ) (entry : LogEntry) (m : Moment) :
    r.step (.apply entry m) =
      match command? entry with
      | some cmd => r.applyCommand m cmd
      | none => .ok r := by
  rw [step, applyEntry, command?]
  cases entry.entryType with
  | noop => rfl
  | configChange => rfl
  | normal =>
    by_cases hdata : entry.data = []
    · simp [hdata, Except.map]
    · cases hdecode : KvCommand.decode entry.data with
      | error e => simp [hdata, Except.map, Except.toOption]
      | ok cmd =>
        simp only [List.isEmpty_iff, hdata, if_false, ne_eq, not_false_eq_true, and_self, if_true,
          Except.toOption]
        cases r.applyCommand m cmd <;> rfl

lemma apply_eq_run (r : Replica σ) (entries : List (LogEntry × Moment)) :
    (r.apply entries).map (·.2) = r.run (entries.map fun (entry, m) => .apply entry m) := by
  suffices ∀ n, (applyLoop n r entries).map (·.2) =
      r.run (entries.map fun (entry, m) => .apply entry m) from this 0
  intro n
  induction entries generalizing n r with
  | nil => rfl
  | cons x entries ih =>
    simp only [applyLoop, run, step, List.map_cons, List.foldlM_cons]
    cases r.applyEntry x.1 x.2 with
    | error e => rfl
    | ok a => exact ih a.2 (n + a.1)

end Replica

end

end Raftrust.Server

import Raftrust.Server.Replicas

/-!
# The store as a state machine

A replica's store depends on its table of leases in one place only: a command that revokes a lease
deletes the keys that the table has for it. With these keys given along with each entry, the store
is a deterministic state machine over entries, and sweeps and renewals do not concern it.
-/

namespace Raftrust.Server

open Lib Consensus Mvcc Storage

section

variable {σ : Type} [StorageEngine σ]

/-- What a command does to the store. A revoked lease has the given keys. -/
def storeCommand (store : MvccStore σ) (keys : List Bytes) :
    KvCommand → Except Abort (MvccStore σ)
  | .put key value leaseId ttlSeconds => do
    let _prev ← store.get key
    let (_revision, store) ← store.putWithOptions key value leaseId ttlSeconds
    return store
  | .delete key => do
    let _prev ← store.get key
    let (_revision, _existed, store) ← store.delete key
    return store
  | .leaseGrant _ _ => .ok store
  | .leaseRevoke _ => Replica.deleteAll store keys

variable [CommandJson]

/-- The transition of the store for an entry, together with the keys of the lease it revokes. -/
def storeStep (store : MvccStore σ) (input : LogEntry × List Bytes) :
    Except Abort (MvccStore σ) :=
  match command? input.1 with
  | some cmd => storeCommand store input.2 cmd
  | none => .ok store

end

namespace Replica

variable [CommandJson] {σ : Type} [StorageEngine σ]

/-- What an event is for the store: an entry, with the keys of the lease it revokes. -/
def input? (r : Replica σ) (e : ReplicaEvent) : Option (LogEntry × List Bytes) :=
  e.entry?.map fun entry => (entry, (r.revoked e).getD [])

/-- What the events of a run are for the store. -/
def inputs (r : Replica σ) : List ReplicaEvent → List (LogEntry × List Bytes)
  | [] => []
  | e :: es =>
    (r.input? e).toList ++
      match r.step e with
      | .ok r => r.inputs es
      | .error _ => []

omit [CommandJson] in
lemma applyCommand_store (r : Replica σ) (m : Moment) (cmd : KvCommand) {keys : List Bytes}
    (hkeys : ∀ id, cmd = .leaseRevoke id → keys = r.leases.keysOf id m.order) :
    (r.applyCommand m cmd).map (·.store) = storeCommand r.store keys cmd := by
  cases cmd with
  | put key value leaseId ttlSeconds =>
    rw [applyCommand, storeCommand]
    cases r.store.get key with
    | error e => rfl
    | ok prev =>
      simp only [bind, Except.bind]
      cases r.store.putWithOptions key value leaseId ttlSeconds <;> rfl
  | delete key =>
    rw [applyCommand, storeCommand]
    cases r.store.get key with
    | error e => rfl
    | ok prev =>
      simp only [bind, Except.bind]
      cases r.store.delete key <;> rfl
  | leaseGrant leaseId ttl =>
    rw [applyCommand, storeCommand]
    cases r.leases.grant leaseId ttl m.now <;> rfl
  | leaseRevoke leaseId => rw [applyCommand_leaseRevoke, storeCommand, hkeys leaseId rfl]

/-- An event is one transition of the store, or none. -/
lemma step_store (r : Replica σ) (e : ReplicaEvent) :
    (r.step e).map (·.store) = (r.input? e).elim (.ok r.store) (storeStep r.store) := by
  cases e with
  | apply entry m =>
    rw [step_apply, input?]
    simp only [ReplicaEvent.entry?, Option.map_some, Option.elim_some, storeStep]
    cases hcmd : command? entry with
    | none => rfl
    | some cmd =>
      refine r.applyCommand_store m cmd ?_
      rintro id rfl
      simp [revoked, hcmd]
  | sweep now ids order => rfl
  | keepalive id now =>
    rw [step]
    cases r.leases.keepalive id now <;> rfl

/-- **The store is a state machine.** What a run of events makes of the store is what the entries
make of it, with the keys of the leases they revoke. -/
theorem run_store {r r' : Replica σ} {es : List ReplicaEvent} (h : r.run es = .ok r') :
    (r.inputs es).foldlM storeStep r.store = .ok r'.store := by
  induction es generalizing r with
  | nil => exact congrArg (Except.map (·.store)) h
  | cons e es ih =>
    rw [run, List.foldlM_cons, bind_eq_ok_iff] at h
    obtain ⟨r₁, hr₁, hrest⟩ := h
    have hstep := r.step_store e
    rw [hr₁] at hstep
    rw [inputs, hr₁, List.foldlM_append, bind_eq_ok_iff]
    refine ⟨r₁.store, ?_, ih hrest⟩
    cases hinput : r.input? e with
    | none =>
      rw [hinput] at hstep
      exact hstep.symm
    | some input =>
      rw [hinput] at hstep
      rw [Option.toList_some, List.foldlM_cons, bind_eq_ok_iff]
      exact ⟨r₁.store, hstep.symm, rfl⟩

lemma inputs_entries {r r' : Replica σ} {es : List ReplicaEvent} (h : r.run es = .ok r') :
    (r.inputs es).map Prod.fst = es.filterMap ReplicaEvent.entry? := by
  induction es generalizing r with
  | nil => rfl
  | cons e es ih =>
    rw [run, List.foldlM_cons, bind_eq_ok_iff] at h
    obtain ⟨r₁, hstep, hrest⟩ := h
    rw [inputs, hstep, List.map_append, ih hrest]
    cases e <;> rfl

end Replica

end Raftrust.Server

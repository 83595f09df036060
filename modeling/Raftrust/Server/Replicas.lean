import Raftrust.Mvcc.SameVersions
import Raftrust.Server.Apply

/-!
# Replicas that apply the same entries

What a replica writes is determined by the entries it applies, but for the keys that end with a
lease: they come from the replica's own table of leases, in the order of its own hash set.
-/

namespace Raftrust.Server

open Lib Consensus Mvcc Storage

namespace LeaseManager

/-- The keys of a lease, in the order in which they are handed out. -/
def keysOf (mgr : LeaseManager) (id : Int64) (order : IterationOrder Bytes) : List Bytes :=
  ((mgr.leases.lookup id).map fun lease => order.toList lease.keys).getD []

end LeaseManager

namespace Replica

section

variable {σ : Type} [StorageEngine σ]

lemma applyCommand_leaseRevoke (r : Replica σ) (m : Moment) (id : Int64) :
    (r.applyCommand m (.leaseRevoke id)).map (·.store) =
      deleteAll r.store (r.leases.keysOf id m.order) := by
  rw [applyCommand, LeaseManager.revoke, LeaseManager.keysOf]
  cases r.leases.leases.lookup id with
  | none => rfl
  | some lease =>
    simp only [Option.map_some, Option.getD_some]
    cases deleteAll r.store (m.order.toList lease.keys) <;> rfl

variable [CommandJson]

/-- The keys that an event deletes because their lease is revoked. -/
def revoked (r : Replica σ) : ReplicaEvent → Option (List Bytes)
  | .apply entry m =>
    match command? entry with
    | some (.leaseRevoke id) => some (r.leases.keysOf id m.order)
    | _ => none
  | _ => none

/-- The keys that are deleted for one revoked lease after the other. -/
def revocations (r : Replica σ) : List ReplicaEvent → List (List Bytes)
  | [] => []
  | e :: es =>
    (r.revoked e).toList ++
      match r.step e with
      | .ok r => r.revocations es
      | .error _ => []

/-- Sweeps and renewals do not touch the store. -/
lemma step_of_entry?_eq_none (r : Replica σ) {e : ReplicaEvent} (h : e.entry? = none) :
    r.revoked e = none ∧ ∃ leases, r.step e = .ok { r with leases := leases } := by
  cases e with
  | apply entry m => cases h
  | sweep now ids order => exact ⟨rfl, _, rfl⟩
  | keepalive id now =>
    refine ⟨rfl, ?_⟩
    rw [step]
    cases r.leases.keepalive id now with
    | ok result => exact ⟨result.2, rfl⟩
    | error e => exact ⟨r.leases, rfl⟩

/-- Up to the next entry only the leases change. -/
lemma run_locals {locals : List ReplicaEvent} (hlocals : ∀ e ∈ locals, e.entry? = none)
    (es : List ReplicaEvent) (r : Replica σ) : ∃ leases : LeaseManager,
      r.run (locals ++ es) = run { r with leases := leases } es ∧
      r.revocations (locals ++ es) = revocations { r with leases := leases } es := by
  induction locals generalizing r with
  | nil => exact ⟨r.leases, rfl, rfl⟩
  | cons e locals ih =>
    obtain ⟨hrevoked, leases, hstep⟩ := r.step_of_entry?_eq_none (hlocals e List.mem_cons_self)
    obtain ⟨leases', hrun, hrevocations⟩ :=
      ih (fun e he => hlocals e (List.mem_cons_of_mem _ he)) { r with leases := leases }
    refine ⟨leases', ?_, ?_⟩
    · rw [List.cons_append, run, List.foldlM_cons, hstep]
      exact hrun
    · rw [List.cons_append, revocations, hrevoked, hstep]
      exact hrevocations

end

section

variable {σ τ : Type} [OrderedEngine σ] [OrderedEngine τ]

/-- The two replicas hold the same versions. -/
def SameStore (r : Replica σ) (r' : Replica τ) : Prop :=
  MvccStore.SameVersions r.store r'.store

lemma deleteAll_agree {s : MvccStore σ} {t : MvccStore τ} (h : s.SameVersions t)
    (keys : List Bytes) : Agree MvccStore.SameVersions (deleteAll s keys) (deleteAll t keys) := by
  refine Agree.foldlM (fun s t key h => ?_) keys h
  rw [deleteKey, deleteKey]
  rcases (h.delete key).cases with ⟨a, b, hs, ht, -, -, hab⟩ | ⟨e, hs, ht⟩
  · rw [hs, ht]
    exact hab
  · rw [hs, ht]
    cases e with
    | error e => exact h
    | panicked => exact rfl

/-- The same command does the same, if a lease that it ends has the same keys in the same order. -/
lemma applyCommand_agree {r : Replica σ} {r' : Replica τ} {m m' : Moment} (cmd : KvCommand)
    (h : r.SameStore r')
    (hkeys : ∀ id, cmd = .leaseRevoke id →
      r.leases.keysOf id m.order = r'.leases.keysOf id m'.order) :
    Agree SameStore (r.applyCommand m cmd) (r'.applyCommand m' cmd) := by
  cases cmd with
  | put key value leaseId ttlSeconds =>
    refine Agree.bind (.of_eq (fun _ => rfl) (h.get_eq key)) ?_
    rintro prev _ - - rfl
    refine (h.putWithOptions key value leaseId ttlSeconds).bind ?_
    intro a b _ _ hab
    exact hab.2
  | delete key =>
    refine Agree.bind (.of_eq (fun _ => rfl) (h.get_eq key)) ?_
    rintro prev _ - - rfl
    refine (h.delete key).bind ?_
    intro a b _ _ hab
    exact hab.2.2
  | leaseGrant leaseId ttl =>
    have hstore : ∀ {σ : Type} [OrderedEngine σ] (r : Replica σ) (m : Moment),
        ∃ leases, r.applyCommand m (.leaseGrant leaseId ttl) = .ok { r with leases := leases } := by
      intro σ _ r m
      rw [applyCommand]
      cases r.leases.grant leaseId ttl m.now with
      | ok result => exact ⟨result.2.2, rfl⟩
      | error e => exact ⟨r.leases, rfl⟩
    obtain ⟨leases, hr⟩ := hstore r m
    obtain ⟨leases', hr'⟩ := hstore r' m'
    rw [hr, hr']
    exact h
  | leaseRevoke leaseId =>
    have hdelete := deleteAll_agree h (r.leases.keysOf leaseId m.order)
    have hr := r.applyCommand_leaseRevoke m leaseId
    have hr' := r'.applyCommand_leaseRevoke m' leaseId
    rw [← hkeys leaseId rfl] at hr'
    rw [← hr, ← hr'] at hdelete
    cases hx : r.applyCommand m (.leaseRevoke leaseId) <;>
      cases hy : r'.applyCommand m' (.leaseRevoke leaseId) <;> rw [hx, hy] at hdelete <;>
        exact hdelete

variable [CommandJson]

/-- Replicas apply an entry alike, if it ends a lease with the same keys in the same order. -/
lemma step_apply_agree {r : Replica σ} {r' : Replica τ} {entry : LogEntry} {m m' : Moment}
    (h : r.SameStore r')
    (hrevoked : r.revoked (.apply entry m) = r'.revoked (.apply entry m')) :
    Agree SameStore (r.step (.apply entry m)) (r'.step (.apply entry m')) := by
  rw [step_apply, step_apply]
  cases hcmd : command? entry with
  | none => exact h
  | some cmd =>
    refine applyCommand_agree cmd h ?_
    rintro id rfl
    simpa [revoked, hcmd] using hrevoked

/-- The first revocation is that of the first entry, if it is one. -/
lemma revocations_cons_inj {r : Replica σ} {r' : Replica τ} {entry : LogEntry} {m m' : Moment}
    {es es' : List ReplicaEvent}
    (h : r.revocations (.apply entry m :: es) = r'.revocations (.apply entry m' :: es')) :
    r.revoked (.apply entry m) = r'.revoked (.apply entry m') ∧
      ∀ q q', r.step (.apply entry m) = .ok q → r'.step (.apply entry m') = .ok q' →
        q.revocations es = q'.revocations es' := by
  rw [revocations, revocations] at h
  have hrevoked : (∃ keys keys', r.revoked (.apply entry m) = some keys ∧
      r'.revoked (.apply entry m') = some keys') ∨
        (r.revoked (.apply entry m) = none ∧ r'.revoked (.apply entry m') = none) := by
    rw [revoked, revoked]
    split
    · exact .inl ⟨_, _, rfl, rfl⟩
    · exact .inr ⟨rfl, rfl⟩
  rcases hrevoked with ⟨keys, keys', hr, hr'⟩ | ⟨hr, hr'⟩
  · rw [hr, hr'] at h ⊢
    obtain ⟨hkeys, htail⟩ := List.cons.inj h
    refine ⟨by rw [hkeys], fun q q' hq hq' => ?_⟩
    rwa [hq, hq'] at htail
  · rw [hr, hr'] at h ⊢
    refine ⟨rfl, fun q q' hq hq' => ?_⟩
    rwa [hq, hq'] at h

/-- **Replicas are deterministic up to leases.** Two replicas that hold the same versions and apply
the same entries end with the same versions, whatever sweeps and renewals they see in between, if
every lease that is revoked has the same keys on both and hands them out in the same order. -/
theorem sameStore_of_revocations_eq {r : Replica σ} {r' : Replica τ} (h : r.SameStore r')
    {es es' : List ReplicaEvent}
    (hentries : es.filterMap ReplicaEvent.entry? = es'.filterMap ReplicaEvent.entry?)
    (hrevocations : r.revocations es = r'.revocations es') :
    Agree SameStore (r.run es) (r'.run es') := by
  -- along the entries: up to each one nothing but leases changes, and then both apply it
  generalize hlist : es'.filterMap ReplicaEvent.entry? = entries at hentries
  induction entries generalizing r r' es es' with
  | nil =>
    rw [List.filterMap_eq_nil_iff] at hentries hlist
    obtain ⟨leases, hrun, -⟩ := r.run_locals hentries []
    obtain ⟨leases', hrun', -⟩ := r'.run_locals hlist []
    rw [List.append_nil] at hrun hrun'
    rw [hrun, hrun']
    exact h
  | cons entry entries ih =>
    obtain ⟨locals, e, rest, rfl, hlocals, he, hrest⟩ := List.filterMap_eq_cons_iff.mp hentries
    obtain ⟨locals', e', rest', rfl, hlocals', he', hrest'⟩ := List.filterMap_eq_cons_iff.mp hlist
    obtain ⟨leases, hrun, hrev⟩ := r.run_locals hlocals (e :: rest)
    obtain ⟨leases', hrun', hrev'⟩ := r'.run_locals hlocals' (e' :: rest')
    rw [hrev, hrev'] at hrevocations
    rw [hrun, hrun']
    cases e with
    | apply _ m =>
      cases e' with
      | apply _ m' =>
        cases he
        cases he'
        obtain ⟨hrevoked, htail⟩ := revocations_cons_inj hrevocations
        have hstep : Agree SameStore (step { r with leases := leases } (.apply entry m))
            (step { r' with leases := leases' } (.apply entry m')) :=
          step_apply_agree h hrevoked
        rw [run, run, List.foldlM_cons, List.foldlM_cons]
        exact hstep.bind fun q q' hq hq' hsame => ih hsame (htail q q' hq hq') hrest' hrest
      | sweep => cases he'
      | keepalive => cases he'
    | sweep => cases he
    | keepalive => cases he

end

end Replica

/-! ### Runs -/

namespace ReplicaRuns

def grant : KvCommand := .leaseGrant 1 10

def putA : KvCommand := .put [97] [49] 1 0

def putB : KvCommand := .put [98] [50] 1 0

def revoke : KvCommand := .leaseRevoke 1

scoped instance : CommandJson := .text [grant, putA, putB, revoke]

/-- A lease is granted, used for the puts and revoked. -/
def revokeAfter (puts : List KvCommand) (order : IterationOrder Bytes) : List ReplicaEvent :=
  ([grant] ++ puts ++ [revoke]).zipIdx.map fun (cmd, i) =>
    .apply ⟨i + 1, 1, cmd.encode, .normal⟩ { now := 0, order := order }

/-- The lease expires and is swept before it is revoked. -/
def sweepBeforeRevoke (puts : List KvCommand) : List ReplicaEvent :=
  (revokeAfter puts (.ascending Bytes)).dropLast ++
    [.sweep (10 * 10 ^ 9) (.ascending Int64) (.ascending Bytes)] ++
      (revokeAfter puts (.ascending Bytes)).drop (puts.length + 1)

/-- A sweep that comes too early to end the lease. -/
def earlySweep (puts : List KvCommand) : List ReplicaEvent :=
  (revokeAfter puts (.ascending Bytes)).dropLast ++
    [.sweep (9 * 10 ^ 9) (.ascending Int64) (.ascending Bytes), .keepalive 1 (9 * 10 ^ 9)] ++
      (revokeAfter puts (.ascending Bytes)).drop (puts.length + 1)

def fresh : Replica (Std.TreeMap Bytes Bytes) where
  store := .new ∅
  leases := .new

/-- The record of key `a` at revision `3`. -/
def thirdRecord (es : List ReplicaEvent) : Except Abort (Option Bytes) :=
  (fresh.run es).map fun r => StorageEngine.get r.store.engine (encodeKey [97] 3)

lemma thirdRecord_eq_of_agree {es es' : List ReplicaEvent}
    (h : Agree Replica.SameStore (fresh.run es) (fresh.run es')) :
    thirdRecord es = thirdRecord es' := by
  rcases h.cases with ⟨r, r', hr, hr', hsame⟩ | ⟨e, hr, hr'⟩
  · simp only [thirdRecord, hr, hr', Except.map, hsame.get]
  · rw [thirdRecord, thirdRecord, hr, hr']

end ReplicaRuns

open ReplicaRuns in
theorem Replica.sameStore_earlySweep :
    Agree Replica.SameStore (fresh.run (revokeAfter [putA] (.ascending Bytes)))
      (fresh.run (earlySweep [putA])) :=
  Replica.sameStore_of_revocations_eq (MvccStore.SameVersions.refl _) (by decide +kernel)
    (by decide +kernel)

open ReplicaRuns in
/-- Two keys of a revoked lease are deleted in another order, or not at all if the lease was swept
before: the replicas end with different versions. -/
theorem Replica.revokeTwoKeys_differ :
    (revokeAfter [putA, putB] (.ascending Bytes)).filterMap ReplicaEvent.entry? =
        (revokeAfter [putA, putB] (.reverse (.ascending Bytes))).filterMap ReplicaEvent.entry? ∧
      (revokeAfter [putA, putB] (.ascending Bytes)).filterMap ReplicaEvent.entry? =
        (sweepBeforeRevoke [putA, putB]).filterMap ReplicaEvent.entry? ∧
      ¬ Agree Replica.SameStore (fresh.run (revokeAfter [putA, putB] (.ascending Bytes)))
        (fresh.run (revokeAfter [putA, putB] (.reverse (.ascending Bytes)))) ∧
      ¬ Agree Replica.SameStore (fresh.run (revokeAfter [putA, putB] (.ascending Bytes)))
        (fresh.run (sweepBeforeRevoke [putA, putB])) := by
  refine ⟨by decide +kernel, by decide +kernel, fun h => ?_, fun h => ?_⟩
  · have := thirdRecord_eq_of_agree h
    revert this
    decide +kernel
  · have := thirdRecord_eq_of_agree h
    revert this
    decide +kernel

end Raftrust.Server

import Raftrust.Mvcc.Store

/-!
# Store calls that fail

A store call fails when the engine does. What it has done by then stays: a put has allocated its
revision before it scans, and a record may have been stored by an engine call that fails afterwards.
-/

namespace Raftrust.Mvcc

open Lib Storage

/-! ### Errors -/

/-- The call reports no error; it may panic. -/
def ReportsNone {α : Type} (x : Except Abort α) : Prop :=
  ∀ e, x ≠ .error (.error e)

lemma reportsNone_ok {α : Type} (a : α) : ReportsNone (.ok a) := by
  intro e h
  cases h

lemma reportsNone_panicked {α : Type} : ReportsNone (.error .panicked : Except Abort α) := by
  intro e h
  cases h

lemma ReportsNone.bind {α β : Type} {x : Except Abort α} {f : α → Except Abort β}
    (hx : ReportsNone x) (hf : ∀ a, ReportsNone (f a)) : ReportsNone (x >>= f) := by
  cases x with
  | ok a => exact hf a
  | error e =>
    intro e' h
    cases h
    exact hx e' rfl

lemma reportsNone_decodeKey (encoded : Bytes) : ReportsNone (decodeKey encoded) := by
  rw [decodeKey]
  split
  · exact reportsNone_panicked
  · exact reportsNone_ok _

lemma VersionedValue.reportsNone_decode (data : Bytes) : ReportsNone (decode data) := by
  have hfields : ∀ value data, ReportsNone (decodeFields value data) := by
    intro value data
    rw [decodeFields]
    split
    · exact reportsNone_panicked
    · exact reportsNone_ok _
  cases data with
  | nil => exact reportsNone_panicked
  | cons tag data =>
    simp only [decode]
    split_ifs
    · exact reportsNone_panicked
    · exact hfields _ _
    · exact hfields _ _

/-- The engine call that fails inside a store call. A put may have stored the record. -/
inductive EngineFault where
  | scan (e : Error)
  | put (e : Error) (stored : Bool)
  deriving DecidableEq, Repr

namespace MvccStore

variable {σ : Type} [StorageEngine σ]

def tryGet (s : MvccStore σ) (fault : Option EngineFault) (key : Bytes) :
    Except Abort (Option KeyValue) :=
  match fault with
  | some (.scan e) => .error (.error e)
  | _ => s.get key

/-- The last step of a write: the engine is given the record. -/
def store (s : MvccStore σ) (fault : Option EngineFault) (internalKey value : Bytes) :
    MvccStore σ × Except Abort Unit :=
  let stored := { s with engine := StorageEngine.put s.engine internalKey value }
  match fault with
  | some (.put e true) => (stored, .error (.error e))
  | some (.put e false) => (s, .error (.error e))
  | _ => (stored, .ok ())

def tryPut (s : MvccStore σ) (fault : Option EngineFault) (key value : Bytes)
    (leaseId ttlSeconds : Int64) : MvccStore σ × Except Abort ℕ :=
  let (revision, s) := s.nextRevision
  match fault with
  | some (.scan e) => (s, .error (.error e))
  | _ =>
    match s.getLatestVersionInfo key with
    | .error e => (s, .error e)
    | .ok latest =>
      let vv : VersionedValue :=
        { value := some value, createRevision := createRevisionOf (latest.map Prod.snd) revision,
          modRevision := revision, leaseId := leaseId, ttlSeconds := ttlSeconds }
      let (s, result) := s.store fault (encodeKey key revision) vv.encode
      (s, result.map fun _ => revision)

def tryDelete (s : MvccStore σ) (fault : Option EngineFault) (key : Bytes) :
    MvccStore σ × Except Abort (ℕ × Bool) :=
  match fault with
  | some (.scan e) => (s, .error (.error e))
  | _ =>
    match s.getLatestVersionInfo key with
    | .error e => (s, .error e)
    | .ok info =>
      let existed := match info with
        | some (_, vv) => vv.value.isSome
        | none => false
      let (revision, s) := s.nextRevision
      let vv : VersionedValue :=
        { value := none, createRevision := 0, modRevision := revision, leaseId := 0,
          ttlSeconds := 0 }
      let (s, result) := s.store fault (encodeKey key revision) vv.encode
      (s, result.map fun _ => (revision, existed))

/-! ### Calls without a fault -/

@[simp] lemma tryGet_none (s : MvccStore σ) (key : Bytes) : s.tryGet none key = s.get key := rfl

lemma reportsNone_firstVisible (revision : ℕ) (entries : List (Bytes × Bytes)) :
    ReportsNone (firstVisible revision entries) := by
  induction entries with
  | nil => exact reportsNone_ok none
  | cons entry entries ih =>
    refine (reportsNone_decodeKey entry.1).bind fun a => ?_
    dsimp only
    split_ifs
    · exact ih
    · exact (VersionedValue.reportsNone_decode entry.2).bind fun vv => reportsNone_ok _

lemma reportsNone_get (s : MvccStore σ) (key : Bytes) : ReportsNone (s.get key) :=
  (reportsNone_firstVisible _ _).bind fun _ => reportsNone_ok _

lemma reportsNone_getLatestVersionInfo (s : MvccStore σ) (key : Bytes) :
    ReportsNone (s.getLatestVersionInfo key) := by
  rw [getLatestVersionInfo]
  split
  · exact reportsNone_ok _
  · refine (reportsNone_decodeKey _).bind fun a => ?_
    exact (VersionedValue.reportsNone_decode _).bind fun vv => reportsNone_ok _

lemma reportsNone_tryPut (s : MvccStore σ) (key value : Bytes) (leaseId ttlSeconds : Int64) :
    ReportsNone (s.tryPut none key value leaseId ttlSeconds).2 := by
  have hinfo := s.nextRevision.2.reportsNone_getLatestVersionInfo key
  simp only [tryPut]
  cases hx : s.nextRevision.2.getLatestVersionInfo key with
  | error e => exact fun e' h => hinfo e' (by rw [hx]; cases h; rfl)
  | ok info => exact reportsNone_ok _

lemma reportsNone_tryDelete (s : MvccStore σ) (key : Bytes) :
    ReportsNone (s.tryDelete none key).2 := by
  have hinfo := s.reportsNone_getLatestVersionInfo key
  simp only [tryDelete]
  cases hx : s.getLatestVersionInfo key with
  | error e => exact fun e' h => hinfo e' (by rw [hx]; cases h; rfl)
  | ok info => exact reportsNone_ok _

/-- Without a fault the call is the one that cannot fail. -/
lemma putWithOptions_eq_tryPut (s : MvccStore σ) (key value : Bytes) (leaseId ttlSeconds : Int64) :
    s.putWithOptions key value leaseId ttlSeconds =
      (s.tryPut none key value leaseId ttlSeconds).2.map fun revision =>
        (revision, (s.tryPut none key value leaseId ttlSeconds).1) := by
  simp only [putWithOptions, tryPut]
  cases s.nextRevision.2.getLatestVersionInfo key with
  | error e => rfl
  | ok info => rfl

lemma delete_eq_tryDelete (s : MvccStore σ) (key : Bytes) :
    s.delete key = (s.tryDelete none key).2.map fun result =>
      (result.1, result.2, (s.tryDelete none key).1) := by
  simp only [delete, tryDelete]
  cases s.getLatestVersionInfo key with
  | error e => rfl
  | ok info => rfl

end MvccStore

end Raftrust.Mvcc

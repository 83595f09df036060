import Raftrust.Mvcc.Version
import Raftrust.Storage.Engine

/-!
# The multi-version store

Every write adds a version of its key under the next revision. Reads scan the versions of a key in
the engine and take the first one that is not newer than asked for.
-/

namespace Raftrust.Mvcc

open Lib Storage

structure KeyValue where
  key : Bytes
  value : Bytes
  createRevision : ℕ
  modRevision : ℕ
  leaseId : Int64
  deriving DecidableEq, Repr

/-- What a read of `key` returns for a version: nothing for a delete marker. -/
def VersionedValue.toKeyValue (key : Bytes) (vv : VersionedValue) : Option KeyValue :=
  vv.value.map fun value =>
    { key := key, value := value, createRevision := vv.createRevision,
      modRevision := vv.modRevision, leaseId := vv.leaseId }

structure MvccStore (σ : Type) where
  engine : σ
  currentRevision : ℕ

namespace MvccStore

section

variable {σ : Type}

def new (engine : σ) : MvccStore σ where
  engine := engine
  currentRevision := 0

/-- The next revision, and the store that has allocated it. The counter wraps around. -/
def nextRevision (s : MvccStore σ) : ℕ × MvccStore σ :=
  let revision := (s.currentRevision + 1) % 2 ^ 64
  (revision, { s with currentRevision := revision })

end

/-- The loop of a read over the scanned entries. -/
def firstVisible (revision : ℕ) : List (Bytes × Bytes) → Except Abort (Option VersionedValue)
  | [] => .ok none
  | (internalKey, rawValue) :: entries => do
    let (_, rev) ← decodeKey internalKey
    if revision < rev then firstVisible revision entries
    else return some (← VersionedValue.decode rawValue)

variable {σ : Type} [StorageEngine σ]

/-- Scans of the versions of the key return what the contract says. -/
abbrev ScansKey (σ : Type) [StorageEngine σ] (key : Bytes) : Prop :=
  Scans σ (encodeKeyPrefixStart key) (encodeKeyPrefixEnd key)

/-- The range of the key is not inverted. -/
def HasRange (key : Bytes) : Prop :=
  encodeKeyPrefixStart key ≤ encodeKeyPrefixEnd key
  deriving Decidable

lemma HasRange.scansKey {key : Bytes} (h : HasRange key) : ScansKey σ key :=
  .of_le h

/-- The entries of the engine in the range of a key. -/
def scanKey (s : MvccStore σ) (key : Bytes) : List (Bytes × Bytes) :=
  StorageEngine.scan s.engine (encodeKeyPrefixStart key) (encodeKeyPrefixEnd key)

def getAtRevision (s : MvccStore σ) (key : Bytes) (revision : ℕ) :
    Except Abort (Option KeyValue) := do
  let vv ← firstVisible revision (s.scanKey key)
  return vv.bind (·.toKeyValue key)

def get (s : MvccStore σ) (key : Bytes) : Except Abort (Option KeyValue) :=
  s.getAtRevision key u64Max

/-- The version that a scan of the key meets first. -/
def getLatestVersionInfo (s : MvccStore σ) (key : Bytes) :
    Except Abort (Option (ℕ × VersionedValue)) :=
  match s.scanKey key with
  | [] => .ok none
  | (internalKey, rawValue) :: _ => do
    let (_, rev) ← decodeKey internalKey
    return some (rev, ← VersionedValue.decode rawValue)

/-- The create revision of a put that finds `latest` as the latest version. -/
def createRevisionOf (latest : Option VersionedValue) (revision : ℕ) : ℕ :=
  match latest with
  | some vv => if vv.value.isSome then vv.createRevision else revision
  | none => revision

/-- Put with lease and TTL options. Returns the new revision. -/
def putWithOptions (s : MvccStore σ) (key value : Bytes) (leaseId ttlSeconds : Int64) :
    Except Abort (ℕ × MvccStore σ) := do
  let (revision, s) := s.nextRevision
  let latest ← s.getLatestVersionInfo key
  let vv : VersionedValue :=
    { value := some value, createRevision := createRevisionOf (latest.map Prod.snd) revision,
      modRevision := revision, leaseId := leaseId, ttlSeconds := ttlSeconds }
  return (revision,
    { s with engine := StorageEngine.put s.engine (encodeKey key revision) vv.encode })

def put (s : MvccStore σ) (key value : Bytes) : Except Abort (ℕ × MvccStore σ) :=
  s.putWithOptions key value 0 0

/-- Delete a key. Returns the revision and whether the key existed. -/
def delete (s : MvccStore σ) (key : Bytes) : Except Abort (ℕ × Bool × MvccStore σ) := do
  let existed := match ← s.getLatestVersionInfo key with
    | some (_, vv) => vv.value.isSome
    | none => false
  let (revision, s) := s.nextRevision
  let vv : VersionedValue :=
    { value := none, createRevision := 0, modRevision := revision, leaseId := 0, ttlSeconds := 0 }
  return (revision, existed,
    { s with engine := StorageEngine.put s.engine (encodeKey key revision) vv.encode })

/-! ### Calls that write -/

inductive Op where
  | put (key value : Bytes) (leaseId ttlSeconds : Int64)
  | delete (key : Bytes)
  deriving DecidableEq, Repr

namespace Op

def key : Op → Bytes
  | put key _ _ _ => key
  | delete key => key

def isPut : Op → Bool
  | put _ _ _ _ => true
  | delete _ => false

/-- The value is shorter than `2 ^ 32` bytes, which its length field has room for. -/
def Fits : Op → Prop
  | put _ value _ _ => value.length < 2 ^ 32
  | delete _ => True

end Op

def execute (s : MvccStore σ) : Op → Except Abort (MvccStore σ)
  | .put key value leaseId ttlSeconds =>
    (s.putWithOptions key value leaseId ttlSeconds).map fun result => result.2
  | .delete key => (s.delete key).map fun result => result.2.2

variable (σ) in
/-- The store after a history of calls on an empty engine. -/
def run (history : List Op) : Except Abort (MvccStore σ) :=
  history.foldlM execute (new StorageEngine.empty)

end MvccStore

end Raftrust.Mvcc

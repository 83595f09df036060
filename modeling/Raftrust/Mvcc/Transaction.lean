import Raftrust.Lib.Run
import Raftrust.Mvcc.Store

/-!
# Optimistic transactions

A transaction reads from a snapshot and buffers its writes. On commit it checks that what it has
read is still current, takes a revision and writes at it. Other transactions may run between any
two calls to the store; a commit is therefore a state of its own and goes on call by call.
-/

namespace Raftrust.Mvcc

open Lib

/-! ### The store -/

/-- The calls of the store that transactions use, and the snapshot-read contract: a read at a
revision returns the newest version that is not after it, and nothing for a delete marker. -/
class SnapshotStore (σ : Type) where
  revision : σ → ℕ
  allocateRevision : σ → ℕ × σ
  putVersioned : σ → Bytes → VersionedValue → ℕ → σ
  getAtRevision : σ → Bytes → ℕ → Option KeyValue
  /-- The version of a key that was written at a revision. -/
  version : σ → Bytes → ℕ → Option VersionedValue
  allocateRevision_fst (s : σ) : (allocateRevision s).1 = (revision s + 1) % 2 ^ 64
  revision_allocateRevision (s : σ) : revision (allocateRevision s).2 = (revision s + 1) % 2 ^ 64
  version_allocateRevision (s : σ) : version (allocateRevision s).2 = version s
  revision_putVersioned (s : σ) (key : Bytes) (vv : VersionedValue) (r : ℕ) :
    revision (putVersioned s key vv r) = revision s
  version_putVersioned (s : σ) (key : Bytes) (vv : VersionedValue) (r : ℕ) (key' : Bytes)
    (r' : ℕ) : version (putVersioned s key vv r) key' r' =
      if key = key' ∧ r = r' then some vv else version s key' r'
  getAtRevision_of_newest {s : σ} {key : Bytes} {r r' : ℕ} {vv : VersionedValue}
    (h : version s key r' = some vv) (hr : r' ≤ r)
    (hnewest : ∀ r'', r' < r'' → r'' ≤ r → version s key r'' = none) :
    getAtRevision s key r = vv.toKeyValue key
  getAtRevision_of_none {s : σ} {key : Bytes} {r : ℕ}
    (h : ∀ r' ≤ r, version s key r' = none) : getAtRevision s key r = none

namespace SnapshotStore

variable {σ : Type} [SnapshotStore σ]

def get (s : σ) (key : Bytes) : Option KeyValue :=
  getAtRevision s key u64Max

end SnapshotStore

/-- A store that keeps a list of its versions, the last write first. -/
structure VersionList where
  revision : ℕ
  records : List ((Bytes × ℕ) × VersionedValue)
  deriving DecidableEq, Repr

namespace VersionList

def version (s : VersionList) (key : Bytes) (r : ℕ) : Option VersionedValue :=
  s.records.lookup (key, r)

/-- The revisions of a key up to `r`. -/
def revisions (s : VersionList) (key : Bytes) (r : ℕ) : List ℕ :=
  (s.records.filter fun record => record.1.1 = key ∧ record.1.2 ≤ r).map (·.1.2)

def getAtRevision (s : VersionList) (key : Bytes) (r : ℕ) : Option KeyValue :=
  (s.revisions key r).max?.bind fun r' => (s.version key r').bind (·.toKeyValue key)

lemma mem_revisions_iff {s : VersionList} {key : Bytes} {r r' : ℕ} :
    r' ∈ s.revisions key r ↔ (s.version key r').isSome ∧ r' ≤ r := by
  rw [version, List.lookup_isSome_iff]
  simp only [revisions, List.mem_map, List.mem_filter, decide_eq_true_eq, beq_iff_eq]
  constructor
  · rintro ⟨record, ⟨hmem, rfl, hle⟩, rfl⟩
    exact ⟨⟨record, hmem, rfl⟩, hle⟩
  · rintro ⟨⟨record, hmem, hrecord⟩, hle⟩
    exact ⟨record, ⟨hmem, by simp [← hrecord], by simpa [← hrecord] using hle⟩,
      by simp [← hrecord]⟩

instance : SnapshotStore VersionList where
  revision := revision
  allocateRevision s :=
    ((s.revision + 1) % 2 ^ 64, { s with revision := (s.revision + 1) % 2 ^ 64 })
  putVersioned s key vv r := { s with records := ((key, r), vv) :: s.records }
  getAtRevision := getAtRevision
  version := version
  allocateRevision_fst _ := rfl
  revision_allocateRevision _ := rfl
  version_allocateRevision _ := rfl
  revision_putVersioned _ _ _ _ := rfl
  version_putVersioned s key vv r key' r' := by
    simp only [version, List.lookup_cons]
    by_cases h : key = key' ∧ r = r'
    · simp [h]
    · have hne : ((key', r') == (key, r)) = false := by
        rw [beq_eq_false_iff_ne, Ne, Prod.mk.injEq]
        exact fun heq => h ⟨heq.1.symm, heq.2.symm⟩
      rw [hne, if_neg h]
  getAtRevision_of_newest {s key r r' vv} h hr hnewest := by
    have hmax : (s.revisions key r).max? = some r' := by
      rw [List.max?_eq_some_iff]
      refine ⟨mem_revisions_iff.mpr ⟨by simp [h], hr⟩, fun r'' hr'' => ?_⟩
      obtain ⟨hsome, hle⟩ := mem_revisions_iff.mp hr''
      by_contra hlt
      simp [hnewest r'' (by omega) hle] at hsome
    simp [getAtRevision, hmax, h]
  getAtRevision_of_none {s key r} h := by
    have hnil : s.revisions key r = [] := by
      rw [List.eq_nil_iff_forall_not_mem]
      intro r' hr'
      obtain ⟨hsome, hle⟩ := mem_revisions_iff.mp hr'
      simp [h r' hle] at hsome
    simp [getAtRevision, hnil]

end VersionList

/-! ### Transactions -/

structure Transaction where
  startRevision : ℕ
  readSet : List (Bytes × ℕ)
  writeSet : List (Bytes × Option Bytes)
  deriving DecidableEq, Repr

/-- The last of the writes to a key. -/
def lastWrite (writes : List (Bytes × Option Bytes)) (key : Bytes) : Option (Option Bytes) :=
  (writes.reverse.find? fun w => w.1 = key).map (·.2)

/-- The revision a read is checked by: that of the version, `0` for none. -/
def modRevisionOf (result : Option KeyValue) : ℕ :=
  (result.map (·.modRevision)).getD 0

namespace Transaction

variable {σ : Type} [SnapshotStore σ]

/-- Start a transaction on the present revision of the store. -/
def start (s : σ) : Transaction where
  startRevision := SnapshotStore.revision s
  readSet := []
  writeSet := []

/-- Read a key: from the transaction's own writes, or else from the snapshot. -/
def get (t : Transaction) (s : σ) (key : Bytes) : Transaction × Option Bytes :=
  match lastWrite t.writeSet key with
  | some value => (t, value)
  | none =>
    let result := SnapshotStore.getAtRevision s key t.startRevision
    ({ t with readSet := t.readSet ++ [(key, modRevisionOf result)] }, result.map (·.value))

def put (t : Transaction) (key value : Bytes) : Transaction :=
  { t with writeSet := t.writeSet ++ [(key, some value)] }

def delete (t : Transaction) (key : Bytes) : Transaction :=
  { t with writeSet := t.writeSet ++ [(key, none)] }

end Transaction

/-! ### Commits, call by call -/

/-- Where a transaction stands. `validating` has reads left to check, `writing` has allocated its
revision and has writes left, `storing` has looked up the create revision of the first of them. -/
inductive TxnStatus where
  | active
  | validating (reads : List (Bytes × ℕ))
  | writing (revision : ℕ) (writes : List (Bytes × Option Bytes))
  | storing (revision createRevision : ℕ) (key value : Bytes)
      (writes : List (Bytes × Option Bytes))
  | committed (revision : ℕ)
  | readOnly (revision : ℕ)
  | conflicted
  deriving DecidableEq, Repr

namespace TxnStatus

/-- The commit has begun and is not over. -/
def committing : TxnStatus → Bool
  | validating _ => true
  | writing _ _ => true
  | storing _ _ _ _ _ => true
  | _ => false

/-- On with the rest of the writes. -/
def next (revision : ℕ) : List (Bytes × Option Bytes) → TxnStatus
  | [] => committed revision
  | w :: writes => writing revision (w :: writes)

end TxnStatus

/-- What a transaction was asked to do, and what its reads returned. -/
inductive TxnOp where
  | get (key : Bytes) (result : Option Bytes)
  | put (key value : Bytes)
  | delete (key : Bytes)
  deriving DecidableEq, Repr

/-- A transaction with its status and its history. -/
structure TxnState where
  txn : Transaction
  status : TxnStatus
  history : List TxnOp
  deriving DecidableEq, Repr

section

variable {σ : Type} [SnapshotStore σ]

/-- A key that exists keeps its create revision. -/
def readCreateRevision (current : Option KeyValue) (commitRevision : ℕ) : ℕ :=
  match current with
  | some kv => kv.createRevision
  | none => commitRevision

/-- The value that a write stores. -/
def versionOf (value : Option Bytes) (createRevision revision : ℕ) : VersionedValue where
  value := value
  createRevision := createRevision
  modRevision := revision
  leaseId := 0
  ttlSeconds := 0

/-- The next store call of a commit. -/
def TxnState.advance (t : TxnState) (s : σ) : TxnState × σ :=
  match t.status with
  | .validating ((key, readRevision) :: reads) =>
    let currentModRevision := modRevisionOf (SnapshotStore.get s key)
    if currentModRevision ≠ readRevision then ({ t with status := .conflicted }, s)
    else ({ t with status := .validating reads }, s)
  | .validating [] =>
    let (commitRevision, s) := SnapshotStore.allocateRevision s
    ({ t with status := .writing commitRevision t.txn.writeSet }, s)
  | .writing commitRevision ((key, some value) :: writes) =>
    let createRevision := readCreateRevision (SnapshotStore.get s key) commitRevision
    ({ t with status := .storing commitRevision createRevision key value writes }, s)
  | .writing commitRevision ((key, none) :: writes) =>
    ({ t with status := .next commitRevision writes },
      SnapshotStore.putVersioned s key (versionOf none 0 commitRevision) commitRevision)
  | .storing commitRevision createRevision key value writes =>
    ({ t with status := .next commitRevision writes },
      SnapshotStore.putVersioned s key (versionOf (some value) createRevision commitRevision)
        commitRevision)
  | _ => (t, s)

end

/-- A store and the transactions on it, in the order they were begun. -/
structure TxnSystem (σ : Type) where
  store : σ
  txns : List TxnState

inductive TxnEvent where
  | start
  | get (id : ℕ) (key : Bytes)
  | put (id : ℕ) (key value : Bytes)
  | delete (id : ℕ) (key : Bytes)
  | commit (id : ℕ)
  | advance (id : ℕ)
  deriving DecidableEq, Repr

namespace TxnSystem

variable {σ : Type} [SnapshotStore σ]

/-- Transaction `id` becomes what `f` makes of it, while it is active. -/
def onActive (sys : TxnSystem σ) (id : ℕ) (f : TxnState → TxnState) : TxnSystem σ :=
  match sys.txns[id]? with
  | some t => if t.status = .active then { sys with txns := sys.txns.set id (f t) } else sys
  | none => sys

/-- One call of a transaction, or one store call of a commit. -/
def step (sys : TxnSystem σ) : TxnEvent → TxnSystem σ
  | .start =>
    { sys with
      txns := sys.txns ++ [{ txn := .start sys.store, status := .active, history := [] }] }
  | .get id key =>
    sys.onActive id fun t =>
      let (txn, result) := t.txn.get sys.store key
      { t with txn := txn, history := t.history ++ [.get key result] }
  | .put id key value =>
    sys.onActive id fun t =>
      { t with txn := t.txn.put key value, history := t.history ++ [.put key value] }
  | .delete id key =>
    sys.onActive id fun t =>
      { t with txn := t.txn.delete key, history := t.history ++ [.delete key] }
  | .commit id =>
    sys.onActive id fun t =>
      { t with
        status :=
          if t.txn.writeSet.isEmpty then .readOnly t.txn.startRevision
          else .validating t.txn.readSet }
  | .advance id =>
    match sys.txns[id]? with
    | some t =>
      let (t, store) := t.advance sys.store
      { store := store, txns := sys.txns.set id t }
    | none => sys

end TxnSystem

end Raftrust.Mvcc

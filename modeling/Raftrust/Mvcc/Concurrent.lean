import Raftrust.Mvcc.Commit

/-!
# Concurrent writers

Puts and deletes hold the write lock, commits do not, and readers take no lock at all. Each call
goes on by one access to the store at a time: one of them advances the counter, others write to the
engine. Between the two a reader can already see the new revision.
-/

namespace Raftrust.Mvcc

open Lib Storage

/-- A look at the newest version, in which the engine may fail. -/
def MvccStore.tryGetLatestVersionInfo {σ : Type} [StorageEngine σ] (s : MvccStore σ)
    (fault : Option EngineFault) (key : Bytes) : Except Abort (Option (ℕ × VersionedValue)) :=
  match fault with
  | some (.scan e) => .error (.error e)
  | _ => s.getLatestVersionInfo key

/-- Where a call stands. `storing` is about to write a version and has more writes to make. -/
inductive WriteTask where
  | putting (key value : Bytes) (leaseId ttlSeconds : Int64)
  | looking (revision : ℕ) (key value : Bytes) (leaseId ttlSeconds : Int64)
  | deleting (key : Bytes)
  | allocating (key : Bytes)
  | validating (reads : List (Bytes × ℕ)) (writes : List (Bytes × Option Bytes))
  | committing (revision : ℕ) (writes : List (Bytes × Option Bytes))
  | storing (revision : ℕ) (key : Bytes) (vv : VersionedValue)
      (writes : List (Bytes × Option Bytes))
  | done
  deriving DecidableEq, Repr

namespace WriteTask

/-- The revision that a call has allocated and not yet finished to write at. -/
def allocated : WriteTask → Option ℕ
  | looking revision _ _ _ _ => some revision
  | committing revision _ => some revision
  | storing revision _ _ _ => some revision
  | _ => none

/-- The next access is to the counter. -/
def allocates : WriteTask → Bool
  | putting _ _ _ _ => true
  | allocating _ => true
  | validating [] _ => true
  | _ => false

variable {σ : Type} [StorageEngine σ]

/-- The next access to the store, in which the engine may fail. A call that fails is over. -/
def advance (s : MvccStore σ) (fault : Option EngineFault) : WriteTask → MvccStore σ × WriteTask
  | putting key value leaseId ttlSeconds =>
    let (revision, s) := s.nextRevision
    (s, looking revision key value leaseId ttlSeconds)
  | looking revision key value leaseId ttlSeconds =>
    match s.tryGetLatestVersionInfo fault key with
    | .ok latest =>
      let createRevision := MvccStore.createRevisionOf (latest.map Prod.snd) revision
      (s, storing revision key ⟨some value, createRevision, revision, leaseId, ttlSeconds⟩ [])
    | .error _ => (s, done)
  | deleting key =>
    match s.tryGetLatestVersionInfo fault key with
    | .ok _ => (s, allocating key)
    | .error _ => (s, done)
  | allocating key =>
    let (revision, s) := s.nextRevision
    (s, storing revision key ⟨none, 0, revision, 0, 0⟩ [])
  | validating ((key, readRevision) :: reads) writes =>
    match s.tryGet fault key with
    | .ok current =>
      if modRevisionOf current ≠ readRevision then (s, done) else (s, validating reads writes)
    | .error _ => (s, done)
  | validating [] writes =>
    let (revision, s) := s.nextRevision
    (s, committing revision writes)
  | committing _ [] => (s, done)
  | committing revision ((key, some value) :: writes) =>
    match s.tryGet fault key with
    | .ok current =>
      (s, storing revision key
        (versionOf (some value) (readCreateRevision current revision) revision) writes)
    | .error _ => (s, done)
  | committing revision ((key, none) :: writes) =>
    (s, storing revision key (versionOf none 0 revision) writes)
  | storing revision key vv writes =>
    match s.store fault (encodeKey key revision) vv.encode with
    | (s, .ok _) => (s, if writes.isEmpty then done else committing revision writes)
    | (s, .error _) => (s, done)
  | done => (s, done)

/-- A call and its store, when nothing comes between its accesses. -/
def step (c : MvccStore σ × WriteTask) (fault : Option EngineFault) : MvccStore σ × WriteTask :=
  c.2.advance c.1 fault

lemma run_done (s : MvccStore σ) (faults : List (Option EngineFault)) :
    run step (s, done) faults = (s, done) := by
  induction faults with
  | nil => rfl
  | cons fault faults ih => exact ih

/-- A put that nothing comes between. -/
lemma run_putting (s : MvccStore σ) (fault : Option EngineFault) (key value : Bytes)
    (leaseId ttlSeconds : Int64) :
    run step (s, putting key value leaseId ttlSeconds) [fault, fault, fault] =
      ((s.tryPut fault key value leaseId ttlSeconds).1, done) := by
  simp only [run_cons, run_nil, step, advance, MvccStore.tryPut, MvccStore.tryGetLatestVersionInfo]
  rcases fault with _ | ⟨e⟩ | ⟨e, _ | _⟩
  · cases s.nextRevision.2.getLatestVersionInfo key <;> rfl
  · rfl
  · cases s.nextRevision.2.getLatestVersionInfo key <;> rfl
  · cases s.nextRevision.2.getLatestVersionInfo key <;> rfl

lemma run_deleting (s : MvccStore σ) (fault : Option EngineFault) (key : Bytes) :
    run step (s, deleting key) [fault, fault, fault] = ((s.tryDelete fault key).1, done) := by
  simp only [run_cons, run_nil, step, advance, MvccStore.tryDelete,
    MvccStore.tryGetLatestVersionInfo]
  rcases fault with _ | ⟨e⟩ | ⟨e, _ | _⟩
  · cases s.getLatestVersionInfo key <;> rfl
  · rfl
  · cases s.getLatestVersionInfo key <;> rfl
  · cases s.getLatestVersionInfo key <;> rfl

lemma step_committing (s : MvccStore σ) (revision : ℕ) (key : Bytes) (value : Option Bytes)
    (writes : List (Bytes × Option Bytes)) :
    step (s, committing revision ((key, value) :: writes)) none =
      (s, (s.findCreateRevision revision key value).toOption.elim done fun createRevision =>
        storing revision key (versionOf value createRevision revision) writes) := by
  cases value with
  | none => rfl
  | some value =>
    simp only [step, advance, MvccStore.tryGet_none, MvccStore.findCreateRevision]
    cases s.get key <;> rfl

/-- The writes of a commit that nothing comes between. -/
lemma exists_run_committing (revision : ℕ) (writes : List (Bytes × Option Bytes))
    (s : MvccStore σ) (faults : ℕ → Option PutFault) :
    ∃ accesses, run step (s, committing revision writes) accesses =
      ((MvccStore.applyWrites revision s faults writes).1, done) := by
  induction writes generalizing s faults with
  | nil => exact ⟨[none], rfl⟩
  | cons w writes ih =>
    obtain ⟨key, value⟩ := w
    have hlook := step_committing s revision key value writes
    rw [MvccStore.applyWrites]
    cases hfind : s.findCreateRevision revision key value with
    | error e => exact ⟨[none], by rw [run_cons, hlook, hfind]; rfl⟩
    | ok createRevision =>
      rcases hput : s.putVersioned (faults 0) key (versionOf value createRevision revision)
        revision with ⟨s', result⟩
      obtain ⟨accesses, hrest⟩ := ih s' fun n => faults (n + 1)
      refine ⟨none :: (faults 0).map (fun f => .put f.error f.stored) :: accesses, ?_⟩
      rw [run_cons, hlook, hfind, run_cons]
      simp only [Except.toOption, Option.elim_some, step, advance,
        show s.store _ _ _ = _ from hput, hput]
      cases result with
      | error => exact run_done s' accesses
      | ok =>
        -- with no writes left the call is over already
        cases writes with
        | nil => exact run_done s' accesses
        | cons => exact hrest

/-- A commit that nothing comes between, whatever put calls fail. -/
lemma exists_run_validating (s : MvccStore σ) (faults : ℕ → Option PutFault) {t : Transaction}
    (hwrites : t.writeSet ≠ []) :
    ∃ accesses, run step (s, validating t.readSet t.writeSet) accesses =
      ((s.commit faults t).1, done) := by
  rw [MvccStore.commit, if_neg (by simpa using hwrites)]
  induction t.readSet with
  | nil =>
    obtain ⟨accesses, h⟩ := exists_run_committing s.nextRevision.1 t.writeSet s.nextRevision.2
      faults
    exact ⟨none :: accesses, h⟩
  | cons read reads ih =>
    obtain ⟨key, readRevision⟩ := read
    -- a stale read ends the call, otherwise the rest is checked
    obtain ⟨accesses, h⟩ := ih
    refine ⟨none :: accesses, ?_⟩
    rw [run_cons, MvccStore.validate]
    cases hget : s.get key with
    | error =>
      rw [show step _ none = (s, done) by simp [step, advance, hget]]
      exact run_done s accesses
    | ok current =>
      by_cases hstale : modRevisionOf current ≠ readRevision
      · rw [show step _ none = (s, done) by simp [step, advance, hget, hstale]]
        simp only [bind, Except.bind, if_pos hstale]
        exact run_done s accesses
      · rw [show step _ none = (s, validating reads t.writeSet) by
          simp [step, advance, hget, hstale]]
        simpa [bind, Except.bind, hstale] using h

end WriteTask

/-- The access that a commit of `TxnSystem` stands at. -/
def TxnState.task (t : TxnState) : WriteTask :=
  match t.status with
  | .validating reads => .validating reads t.txn.writeSet
  | .writing revision writes => .committing revision writes
  | .storing revision createRevision key value writes =>
    .storing revision key (versionOf (some value) createRevision revision) writes
  | _ => .done

/-- A store call of a commit on a store that keeps the snapshot-read contract is at most two
accesses of the call on any store whose reads return the same, and makes the same change. -/
lemma TxnState.advance_task {σ τ : Type} [StorageEngine σ] [SnapshotStore τ] {s : MvccStore σ}
    {store : τ} (hget : ∀ key, s.get key = .ok (SnapshotStore.get store key))
    (hnext : s.nextRevision.1 = (SnapshotStore.allocateRevision store).1) (t : TxnState) :
    ∃ n s', run WriteTask.step (s, t.task) (List.replicate n none) =
        (s', (t.advance store).1.task) ∧
      (s' = s ∧ (t.advance store).2 = store ∨
        s' = s.nextRevision.2 ∧ (t.advance store).2 = (SnapshotStore.allocateRevision store).2 ∨
        ∃ key vv revision, s' = (s.putVersioned none key vv revision).1 ∧
          (t.advance store).2 = SnapshotStore.putVersioned store key vv revision) := by
  obtain ⟨txn, status, history⟩ := t
  cases status with
  | validating reads =>
    cases reads with
    | nil =>
      refine ⟨1, _, ?_, .inr (.inl ⟨rfl, rfl⟩)⟩
      simp only [advance, ← hnext]
      rfl
    | cons read reads =>
      refine ⟨1, s, ?_, .inl ⟨rfl, ?_⟩⟩
      · simp only [task, advance, List.replicate, run_cons, run_nil, WriteTask.step,
          WriteTask.advance, MvccStore.tryGet_none, hget]
        split <;> rfl
      · simp only [advance]
        split <;> rfl
  | writing revision writes =>
    obtain _ | ⟨⟨key, _ | value⟩, writes⟩ := writes
    · exact ⟨0, s, rfl, .inl ⟨rfl, rfl⟩⟩
    · refine ⟨2, _, ?_, .inr (.inr ⟨key, _, revision, rfl, rfl⟩)⟩
      cases writes <;> rfl
    · refine ⟨1, s, ?_, .inl ⟨rfl, rfl⟩⟩
      simp [task, advance, WriteTask.step, WriteTask.advance, hget]
  | storing revision createRevision key value writes =>
    refine ⟨1, _, ?_, .inr (.inr ⟨key, _, revision, rfl, rfl⟩)⟩
    cases writes <;> rfl
  | _ => exact ⟨0, s, rfl, .inl ⟨rfl, rfl⟩⟩

/-- A store, the calls that have been made on it, and which of them holds the write lock. -/
structure StoreSystem (σ : Type) where
  store : MvccStore σ
  tasks : List WriteTask
  writeLock : Option ℕ

/-- A call begins, or goes on. -/
inductive StoreEvent where
  | put (key value : Bytes) (leaseId ttlSeconds : Int64)
  | delete (key : Bytes)
  | commit (txn : Transaction)
  | advance (id : ℕ) (fault : Option EngineFault)
  deriving DecidableEq, Repr

namespace StoreSystem

section

variable {σ : Type}

def init (store : MvccStore σ) : StoreSystem σ where
  store := store
  tasks := []
  writeLock := none

/-- A call that has to wait for the write lock does not begin. -/
def beginLocked (sys : StoreSystem σ) (task : WriteTask) : StoreSystem σ :=
  if sys.writeLock.isSome then sys
  else { sys with tasks := sys.tasks ++ [task], writeLock := some sys.tasks.length }

variable [StorageEngine σ]

def step (sys : StoreSystem σ) : StoreEvent → StoreSystem σ
  | .put key value leaseId ttlSeconds => sys.beginLocked (.putting key value leaseId ttlSeconds)
  | .delete key => sys.beginLocked (.deleting key)
  | .commit txn =>
    if txn.writeSet.isEmpty then sys
    else { sys with tasks := sys.tasks ++ [.validating txn.readSet txn.writeSet] }
  | .advance id fault =>
    match sys.tasks[id]? with
    | some task =>
      let (store, task) := task.advance sys.store fault
      { store := store
        tasks := sys.tasks.set id task
        writeLock := if task = .done ∧ sys.writeLock = some id then none else sys.writeLock }
    | none => sys

end

section

variable {σ : Type}

/-- No call has a version left to write at a revision it has allocated. -/
def Settled (sys : StoreSystem σ) : Prop :=
  ∀ task ∈ sys.tasks, task.allocated = none
  deriving Decidable

/-- An access to the counter does not wrap it around. -/
def NoWrap (sys : StoreSystem σ) : StoreEvent → Prop
  | .advance id _ =>
    ∀ task ∈ sys.tasks[id]?, task.allocates → sys.store.currentRevision + 1 < 2 ^ 64
  | _ => True

instance (sys : StoreSystem σ) : (e : StoreEvent) → Decidable (sys.NoWrap e)
  | .advance id _ => inferInstanceAs (Decidable (∀ task ∈ sys.tasks[id]?,
      task.allocates → sys.store.currentRevision + 1 < 2 ^ 64))
  | .put _ _ _ _ | .delete _ | .commit _ => .isTrue trivial

end

end StoreSystem

/-! ### Reads at a revision -/

namespace MvccStore

variable {σ : Type} [StorageEngine σ]

/-- A read passes over newer versions. -/
lemma firstVisible_filter {revision rev : ℕ} (hlt : revision < rev) (hrev : rev < 2 ^ 64)
    (key : Bytes) (entries : List (Bytes × Bytes)) :
    firstVisible revision (entries.filter fun e => e.1 ≠ encodeKey key rev) =
      firstVisible revision entries := by
  induction entries with
  | nil => rfl
  | cons e entries ih =>
    obtain ⟨internalKey, rawValue⟩ := e
    by_cases heq : internalKey = encodeKey key rev
    · rw [List.filter_cons_of_neg (by simpa using heq), ih, firstVisible, heq,
        decodeKey_encodeKey key hrev]
      simp [bind, Except.bind, hlt]
    · rw [List.filter_cons_of_pos (by simpa using heq), firstVisible, firstVisible, ih]

/-- A version that is newer than a read is not seen by it. -/
lemma getAtRevision_store_of_lt (s : MvccStore σ) (fault : Option EngineFault) {revision rev : ℕ}
    (hlt : revision < rev) (hrev : rev < 2 ^ 64) (key rawValue : Bytes) {key' : Bytes}
    [ScansKey σ key'] :
    (s.store fault (encodeKey key rev) rawValue).1.getAtRevision key' revision =
      s.getAtRevision key' revision := by
  have hstored : getAtRevision
      { s with engine := StorageEngine.put s.engine (encodeKey key rev) rawValue } key' revision =
        s.getAtRevision key' revision := by
    rw [getAtRevision, getAtRevision, ← firstVisible_filter hlt hrev key, scanKey,
      Scans.filter_scan_put, firstVisible_filter hlt hrev key]
    rfl
  rcases fault with _ | _ | ⟨e, _ | _⟩
  · exact hstored
  · exact hstored
  · rfl
  · exact hstored

lemma currentRevision_store (s : MvccStore σ) (fault : Option EngineFault)
    (internalKey rawValue : Bytes) :
    (s.store fault internalKey rawValue).1.currentRevision = s.currentRevision := by
  rcases fault with _ | _ | ⟨e, _ | _⟩ <;> rfl

lemma getAtRevision_of_engine_eq {s s' : MvccStore σ} (h : s'.engine = s.engine) (key : Bytes)
    (revision : ℕ) : s'.getAtRevision key revision = s.getAtRevision key revision := by
  rw [getAtRevision, scanKey, h]
  rfl

end MvccStore

/-! ### Steps -/

section

variable {σ : Type} [StorageEngine σ]

/-- The task writes only at revisions after `R`. -/
def WriteTask.After (R : ℕ) (task : WriteTask) : Prop :=
  ∀ revision ∈ task.allocated, R < revision ∧ revision < 2 ^ 64

/-- What one access does: the task only reads, and keeps its revision or gives it up; or it draws a
revision; or it stores a version at the revision it has. -/
lemma WriteTask.advance_cases (s : MvccStore σ) (fault : Option EngineFault) (task : WriteTask) :
    ((task.advance s fault).1 = s ∧
      ∀ revision ∈ (task.advance s fault).2.allocated, revision ∈ task.allocated) ∨
    (task.allocates ∧ (task.advance s fault).1 = s.nextRevision.2 ∧
      (task.advance s fault).2.allocated = some s.nextRevision.1) ∨
    ∃ revision ∈ task.allocated, (∃ key rawValue,
      (task.advance s fault).1 = (s.store fault (encodeKey key revision) rawValue).1) ∧
      ∀ revision' ∈ (task.advance s fault).2.allocated, revision' ∈ task.allocated := by
  cases task with
  | putting key value leaseId ttlSeconds => exact .inr (.inl ⟨rfl, rfl, rfl⟩)
  | looking revision key value leaseId ttlSeconds =>
    left
    rw [advance]
    split
    · exact ⟨rfl, fun _ h => h⟩
    · exact ⟨rfl, by simp [allocated]⟩
  | deleting key =>
    left
    rw [advance]
    split
    · exact ⟨rfl, fun _ h => h⟩
    · exact ⟨rfl, fun _ h => h⟩
  | allocating key => exact .inr (.inl ⟨rfl, rfl, rfl⟩)
  | validating reads writes =>
    cases reads with
    | nil => exact .inr (.inl ⟨rfl, rfl, rfl⟩)
    | cons read reads =>
      left
      rw [advance]
      split
      · split
        · exact ⟨rfl, fun _ h => h⟩
        · exact ⟨rfl, fun _ h => h⟩
      · exact ⟨rfl, fun _ h => h⟩
  | committing revision writes =>
    left
    rcases writes with _ | ⟨⟨key, _ | value⟩, writes⟩
    · exact ⟨rfl, by simp [advance, allocated]⟩
    · exact ⟨rfl, fun _ h => h⟩
    · rw [advance]
      split
      · exact ⟨rfl, fun _ h => h⟩
      · exact ⟨rfl, by simp [allocated]⟩
  | storing revision key vv writes =>
    refine .inr (.inr ⟨revision, rfl, ⟨key, vv.encode, ?_⟩, ?_⟩)
    · rw [advance]
      split
      · next h => rw [h]
      · next h => rw [h]
    · rw [advance]
      split
      · split
        · simp [allocated]
        · exact fun _ h => h
      · simp [allocated]
  | done => exact .inl ⟨rfl, fun _ h => h⟩

/-- One access to the store leaves reads up to `R` as they are. -/
lemma WriteTask.advance_stable (key : Bytes) [MvccStore.ScansKey σ key] {R : ℕ} {s : MvccStore σ}
    (fault : Option EngineFault) {task : WriteTask} (hcurrent : R ≤ s.currentRevision)
    (hafter : task.After R) (hwrap : task.allocates → s.currentRevision + 1 < 2 ^ 64) :
    R ≤ (task.advance s fault).1.currentRevision ∧ (task.advance s fault).2.After R ∧
      ∀ r ≤ R, (task.advance s fault).1.getAtRevision key r = s.getAtRevision key r := by
  rcases task.advance_cases s fault with ⟨hstore, hsub⟩ | ⟨halloc, hstore, hnext⟩ |
    ⟨revision, hrevision, ⟨key', rawValue, hstore⟩, hsub⟩
  · rw [hstore]
    exact ⟨hcurrent, fun revision h => hafter revision (hsub revision h), fun _ _ => rfl⟩
  · -- the counter goes on to a revision after `R`
    have hlt := hwrap halloc
    have hrevision : s.nextRevision.1 = s.currentRevision + 1 := Nat.mod_eq_of_lt hlt
    rw [hstore]
    refine ⟨?_, fun revision h => ?_, fun r _ => MvccStore.getAtRevision_of_engine_eq rfl key r⟩
    · rw [show s.nextRevision.2.currentRevision = s.nextRevision.1 from rfl, hrevision]
      exact Nat.le_succ_of_le hcurrent
    · rw [hnext, Option.mem_some_iff, hrevision] at h
      exact h ▸ ⟨Nat.lt_succ_of_le hcurrent, hlt⟩
  · obtain ⟨hlt, hrev⟩ := hafter revision hrevision
    rw [hstore, MvccStore.currentRevision_store]
    exact ⟨hcurrent, fun revision h => hafter revision (hsub revision h), fun r hr =>
      s.getAtRevision_store_of_lt fault (hr.trans_lt hlt) hrev key' rawValue⟩

namespace StoreSystem

/-- Every task writes only at revisions after `R`, and so do those to come. -/
structure After (R : ℕ) (sys : StoreSystem σ) : Prop where
  current : R ≤ sys.store.currentRevision
  tasks : ∀ task ∈ sys.tasks, task.After R

omit [StorageEngine σ] in
lemma After.snoc {R : ℕ} {sys : StoreSystem σ} (h : sys.After R) {task : WriteTask}
    (hnew : task.allocated = none) (writeLock : Option ℕ) :
    After R { sys with tasks := sys.tasks ++ [task], writeLock := writeLock } where
  current := h.current
  tasks := by
    intro t ht
    rcases List.mem_append.mp ht with hold | hlast
    · exact h.tasks t hold
    · obtain rfl := List.mem_singleton.mp hlast
      intro revision hrevision
      simp [hnew] at hrevision

lemma After.step (key : Bytes) [MvccStore.ScansKey σ key] {R : ℕ} {sys : StoreSystem σ}
    (h : sys.After R) {e : StoreEvent} (hwrap : sys.NoWrap e) : (sys.step e).After R ∧
      ∀ r ≤ R, (sys.step e).store.getAtRevision key r = sys.store.getAtRevision key r := by
  have hlocked : ∀ task : WriteTask, task.allocated = none → (sys.beginLocked task).After R ∧
      ∀ r ≤ R, (sys.beginLocked task).store.getAtRevision key r =
        sys.store.getAtRevision key r := by
    intro task hnew
    rw [beginLocked]
    split
    · exact ⟨h, fun _ _ => rfl⟩
    · exact ⟨h.snoc hnew _, fun _ _ => rfl⟩
  cases e with
  | put key' value leaseId ttlSeconds => exact hlocked _ rfl
  | delete key' => exact hlocked _ rfl
  | commit txn =>
    rw [StoreSystem.step]
    split
    · exact ⟨h, fun _ _ => rfl⟩
    · exact ⟨h.snoc rfl _, fun _ _ => rfl⟩
  | advance id fault =>
    rw [StoreSystem.step]
    cases htask : sys.tasks[id]? with
    | none => exact ⟨h, fun _ _ => rfl⟩
    | some task =>
      obtain ⟨hcurrent, hafter, hreads⟩ := task.advance_stable key fault h.current
        (h.tasks task (List.mem_of_getElem? htask)) (hwrap task htask)
      refine ⟨⟨hcurrent, fun t ht => ?_⟩, hreads⟩
      rcases List.mem_or_eq_of_mem_set ht with hold | rfl
      · exact h.tasks t hold
      · exact hafter

/-- **Stable snapshots.** If the revision is read while no call has versions left to write at a
revision it has allocated, and the counter does not wrap around later, reads at this revision or an
earlier one return the same from then on, however the calls are interleaved. -/
theorem getAtRevision_stable (initial : MvccStore σ) (es : List StoreEvent)
    (hsettled : (run step (init initial) es).Settled) {es' : List StoreEvent}
    (hwrap : Along step NoWrap (run step (init initial) es) es') {key : Bytes}
    (hkey : MvccStore.HasRange key) {r : ℕ}
    (hr : r ≤ (run step (init initial) es).store.currentRevision) :
    (run step (init initial) (es ++ es')).store.getAtRevision key r =
      (run step (init initial) es).store.getAtRevision key r := by
  rw [run_append]
  have := hkey.scansKey (σ := σ)
  generalize run step (init initial) es = sys at *
  have hafter : sys.After sys.store.currentRevision := by
    refine ⟨le_rfl, fun task htask revision hrevision => ?_⟩
    rw [hsettled task htask] at hrevision
    cases hrevision
  generalize sys.store.currentRevision = R at hr hafter
  clear hsettled
  induction es' generalizing sys with
  | nil => rfl
  | cons e es' ih =>
    obtain ⟨hafter', hreads⟩ := hafter.step key hwrap.1
    rw [run_cons, ih (sys.step e) hwrap.2 hafter']
    exact hreads r hr

end StoreSystem

end

namespace StoreSystem

/-- An empty store without calls. -/
abbrev empty : StoreSystem (Std.TreeMap Bytes Bytes) :=
  init (.new StorageEngine.empty)

/-- A put of `[97]` that is over. -/
def putDone : List StoreEvent :=
  [.put [97] [49] 0 0, .advance 0 none, .advance 0 none, .advance 0 none]

/-- A transaction that has read `[97]` at the revision of `putDone` and writes two keys. -/
def rewriting : Transaction where
  startRevision := 1
  readSet := [([97], 1)]
  writeSet := [([97], some [50]), ([98], some [51])]

/-- A put that starts when the snapshot has been taken, and a commit that it is interleaved with. -/
theorem getAtRevision_stable_commit :
    (run step empty (putDone ++
      [.commit rewriting, .put [97] [51] 0 0, .advance 1 none, .advance 2 none, .advance 1 none,
        .advance 1 none, .advance 2 none, .advance 1 none, .advance 2 none, .advance 1 none,
        .advance 1 none])).store.getAtRevision [97] 1 =
      (run step empty putDone).store.getAtRevision [97] 1 :=
  getAtRevision_stable (.new StorageEngine.empty) putDone (by decide +kernel) (by decide +kernel)
    (by decide) (by decide +kernel)

/-- A put that has allocated its revision. -/
def putBegun : List StoreEvent :=
  [.put [97] [49] 0 0, .advance 0 none]

/-- A commit with the first of its two writes stored. -/
def halfCommitted : List StoreEvent :=
  putDone ++ .commit rewriting :: List.replicate 4 (.advance 1 none)

/-- The read at the revision that was returned changes when the put stores its version, and when the
commit stores its second one. -/
theorem unsettled_getAtRevision_changes :
    (run step empty putBegun).store.currentRevision = 1 ∧
      (run step empty putBegun).store.getAtRevision [97] 1 = .ok none ∧
      (run step empty (putBegun ++ List.replicate 2 (.advance 0 none))).store.getAtRevision [97] 1 =
        .ok (some ⟨[97], [49], 1, 1, 0⟩) ∧
      (run step empty halfCommitted).store.currentRevision = 2 ∧
      (run step empty halfCommitted).store.getAtRevision [97] 2 =
        .ok (some ⟨[97], [50], 1, 2, 0⟩) ∧
      (run step empty halfCommitted).store.getAtRevision [98] 2 = .ok none ∧
      (run step empty (halfCommitted ++
        List.replicate 2 (.advance 1 none))).store.getAtRevision [98] 2 =
          .ok (some ⟨[98], [51], 2, 2, 0⟩) := by
  decide +kernel

end StoreSystem

end Raftrust.Mvcc

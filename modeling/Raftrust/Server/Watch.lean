import Raftrust.Mvcc.Readable
import Raftrust.Server.LeaseTable

/-!
# Watch events

The apply loop publishes an event for every key it writes. The revision of the event is the one the
write returned, or for the keys of a revoked lease, the one the store is at afterwards. The events
published are exactly the versions in the engine, in the order of their revisions.
-/

namespace Raftrust.Server

open Lib Consensus Mvcc Storage

inductive WatchEventType where
  | put
  | delete
  deriving DecidableEq, Repr

structure WatchEvent where
  eventType : WatchEventType
  key : Bytes
  value : Bytes
  modRevision : ℕ
  createRevision : ℕ
  prevValue : Option Bytes
  deriving DecidableEq, Repr

/-- A replica and the events that have been published. -/
structure Watched (σ : Type) where
  replica : Replica σ
  events : List WatchEvent

namespace Watched

section

variable {σ : Type}

def publish (w : Watched σ) (event : WatchEvent) : Watched σ :=
  { w with events := w.events ++ [event] }

variable [StorageEngine σ]

/-- Delete a key of a revoked lease. The event is published also if the delete fails. -/
def deleteKey (w : Watched σ) (key : Bytes) : Except Abort (Watched σ) := do
  let store ← Replica.deleteKey w.replica.store key
  return { w with replica := { w.replica with store := store } }.publish
    { eventType := .delete, key := key, value := [], modRevision := store.currentRevision
      createRevision := 0, prevValue := none }

def applyCommand (w : Watched σ) (m : Moment) : KvCommand → Except Abort (Watched σ)
  | .put key value leaseId ttlSeconds => do
    let prev ← w.replica.store.get key
    let (revision, store) ← w.replica.store.putWithOptions key value leaseId ttlSeconds
    let leases := Replica.attach w.replica.leases leaseId key
    return { w with replica := { store := store, leases := leases } }.publish
      { eventType := .put, key := key, value := value, modRevision := revision
        createRevision := revision, prevValue := prev.map KeyValue.value }
  | .delete key => do
    let prev ← w.replica.store.get key
    let (revision, _existed, store) ← w.replica.store.delete key
    let leases := Replica.detach w.replica.leases prev key
    return { w with replica := { store := store, leases := leases } }.publish
      { eventType := .delete, key := key, value := [], modRevision := revision
        createRevision := 0, prevValue := prev.map KeyValue.value }
  | .leaseGrant leaseId ttl =>
    match w.replica.leases.grant leaseId ttl m.now with
    | .ok (_, _, leases) => .ok { w with replica := { w.replica with leases := leases } }
    | .error _ => .ok w
  | .leaseRevoke leaseId =>
    match w.replica.leases.revoke leaseId m.order with
    | .ok (keys, leases) =>
      keys.foldlM deleteKey { w with replica := { w.replica with leases := leases } }
    | .error _ => .ok w

variable [CommandJson]

def applyEntry (w : Watched σ) (entry : LogEntry) (m : Moment) : Except Abort (ℕ × Watched σ) :=
  match entry.entryType with
  | .normal =>
    if entry.data.isEmpty then .ok (0, w)
    else
      match KvCommand.decode entry.data with
      | .ok cmd => (w.applyCommand m cmd).map fun w => (1, w)
      | .error _ => .ok (0, w)
  | .noop => .ok (0, w)
  | .configChange => .ok (1, w)

def applyLoop (applied : ℕ) (w : Watched σ) :
    List (LogEntry × Moment) → Except Abort (ℕ × Watched σ)
  | [] => .ok (applied, w)
  | (entry, m) :: entries => do
    let (n, w) ← w.applyEntry entry m
    applyLoop (applied + n) w entries

def apply (w : Watched σ) (entries : List (LogEntry × Moment)) : Except Abort (ℕ × Watched σ) :=
  applyLoop 0 w entries

end

/-! ### The replica does not depend on the watchers -/

section

variable {σ : Type} [StorageEngine σ]

lemma foldlM_deleteKey_replica (keys : List Bytes) (w : Watched σ) :
    (keys.foldlM deleteKey w).map (·.replica) =
      (Replica.deleteAll w.replica.store keys).map fun store =>
        { w.replica with store := store } := by
  induction keys generalizing w with
  | nil => rfl
  | cons key keys ih =>
    rw [Replica.deleteAll, List.foldlM_cons, List.foldlM_cons, deleteKey]
    cases Replica.deleteKey w.replica.store key with
    | error e => rfl
    | ok store => exact ih _

lemma applyCommand_replica (w : Watched σ) (m : Moment) (cmd : KvCommand) :
    (w.applyCommand m cmd).map (·.replica) = w.replica.applyCommand m cmd := by
  cases cmd with
  | put key value leaseId ttlSeconds =>
    rw [applyCommand, Replica.applyCommand]
    cases w.replica.store.get key with
    | error e => rfl
    | ok prev => cases w.replica.store.putWithOptions key value leaseId ttlSeconds <;> rfl
  | delete key =>
    rw [applyCommand, Replica.applyCommand]
    cases w.replica.store.get key with
    | error e => rfl
    | ok prev => cases w.replica.store.delete key <;> rfl
  | leaseGrant leaseId ttl =>
    rw [applyCommand, Replica.applyCommand]
    cases w.replica.leases.grant leaseId ttl m.now <;> rfl
  | leaseRevoke leaseId =>
    rw [applyCommand, Replica.applyCommand]
    cases w.replica.leases.revoke leaseId m.order with
    | error e => rfl
    | ok result =>
      refine (foldlM_deleteKey_replica result.1 _).trans ?_
      dsimp only
      cases Replica.deleteAll w.replica.store result.1 <;> rfl

variable [CommandJson]

lemma applyEntry_replica (w : Watched σ) (entry : LogEntry) (m : Moment) :
    (w.applyEntry entry m).map (fun x => (x.1, x.2.replica)) = w.replica.applyEntry entry m := by
  rw [applyEntry, Replica.applyEntry]
  cases entry.entryType with
  | noop => rfl
  | configChange => rfl
  | normal =>
    dsimp only
    split
    · rfl
    · cases KvCommand.decode entry.data with
      | error e => rfl
      | ok cmd =>
        dsimp only
        rw [← applyCommand_replica]
        cases w.applyCommand m cmd <;> rfl

/-- The replica is the one of a loop without watchers. -/
lemma apply_replica (w : Watched σ) (entries : List (LogEntry × Moment)) :
    (w.apply entries).map (fun x => (x.1, x.2.replica)) = w.replica.apply entries := by
  suffices ∀ n, (applyLoop n w entries).map (fun x => (x.1, x.2.replica)) =
      Replica.applyLoop n w.replica entries from this 0
  intro n
  induction entries generalizing n w with
  | nil => rfl
  | cons x entries ih =>
    obtain ⟨entry, m⟩ := x
    rw [applyLoop, Replica.applyLoop, ← applyEntry_replica]
    cases w.applyEntry entry m with
    | error e => rfl
    | ok a => exact ih a.2 (n + a.1)

end

/-! ### Events and versions -/

end Watched

/-- The value that a version written with the event has: none for a delete marker. -/
def WatchEvent.stored (e : WatchEvent) : Option Bytes :=
  match e.eventType with
  | .put => some e.value
  | .delete => none

/-- The events are the versions in the store, in the order of their revisions. -/
structure Mirrors {σ : Type} [StorageEngine σ] (s : MvccStore σ) (events : List WatchEvent) :
    Prop where
  revision_eq : s.currentRevision = events.length
  modRevision : ∀ (i : ℕ) (e : WatchEvent), events[i]? = some e → e.modRevision = i + 1
  held : ∀ (i : ℕ) (e : WatchEvent), events[i]? = some e →
    ∃ vv : VersionedValue, vv.value = e.stored ∧
      StorageEngine.get s.engine (encodeKey e.key (i + 1)) = some vv.encode
  exists_event : ∀ internalKey rawValue, StorageEngine.get s.engine internalKey = some rawValue →
    ∃ (i : ℕ) (e : WatchEvent), events[i]? = some e ∧ internalKey = encodeKey e.key (i + 1)

namespace Mirrors

variable {σ : Type} [StorageEngine σ] {s : MvccStore σ} {events : List WatchEvent}

lemma new : Mirrors (MvccStore.new (StorageEngine.empty : σ)) [] where
  revision_eq := rfl
  modRevision := by simp
  held := by simp
  exists_event := by
    intro internalKey rawValue h
    rw [MvccStore.new, StorageEngine.get_empty] at h
    cases h

lemma readable (h : Mirrors s events) : s.Readable := by
  intro internalKey rawValue hget
  obtain ⟨i, e, he, rfl⟩ := h.exists_event internalKey rawValue hget
  obtain ⟨vv, -, hheld⟩ := h.held i e he
  obtain rfl := Option.some.inj (hheld.symm.trans hget)
  obtain ⟨decoded, hdecoded, -⟩ := vv.exists_decode_encode
  exact ⟨exists_decodeKey (by simp [encodeKey_length]), decoded, hdecoded⟩

lemma nextRevision (h : Mirrors s events) (hlen : events.length + 1 < 2 ^ 64) :
    s.nextRevision.1 = events.length + 1 := by
  rw [MvccStore.nextRevision, h.revision_eq]
  exact Nat.mod_eq_of_lt hlen

/-- A version is stored at the next revision, and its event is published. -/
lemma publish (h : Mirrors s events) (hlen : events.length + 1 < 2 ^ 64) {e : WatchEvent}
    {key : Bytes} {vv : VersionedValue} (hrevision : e.modRevision = events.length + 1)
    (hkey : e.key = key) (hvalue : vv.value = e.stored) :
    Mirrors ⟨StorageEngine.put s.engine (encodeKey key (events.length + 1)) vv.encode,
      events.length + 1⟩ (events ++ [e]) where
  revision_eq := by simp
  modRevision := by
    intro i x hx
    rcases getElem?_snoc_eq_some_iff.mp hx with hold | ⟨rfl, rfl⟩
    · exact h.modRevision i x hold
    · exact hrevision
  held := by
    intro i x hx
    rw [StorageEngine.get_put, ← hkey]
    rcases getElem?_snoc_eq_some_iff.mp hx with hold | ⟨rfl, rfl⟩
    · -- earlier versions have other revisions
      have hi := (List.getElem?_eq_some_iff.mp hold).1
      rw [if_neg fun heq => by
        have := (encodeKey_inj hlen (by omega) heq).2
        omega]
      exact h.held i x hold
    · exact ⟨vv, hvalue, if_pos rfl⟩
  exists_event := by
    intro internalKey rawValue hget
    rw [StorageEngine.get_put, ← hkey] at hget
    split at hget
    · next heq => exact ⟨events.length, e, List.getElem?_concat_length, heq.symm⟩
    · obtain ⟨i, x, hx, heq⟩ := h.exists_event internalKey rawValue hget
      exact ⟨i, x, getElem?_snoc_eq_some_iff.mpr (.inl hx), heq⟩

/-- The revisions of the events are `1`, `2` and so on up to the revision of the store. -/
lemma map_modRevision (h : Mirrors s events) :
    events.map (·.modRevision) = List.range' 1 s.currentRevision := by
  apply List.ext_getElem?
  intro i
  rw [List.getElem?_map, h.revision_eq]
  cases he : events[i]? with
  | none =>
    have hle := List.getElem?_eq_none_iff.mp he
    rw [List.getElem?_eq_none (by rwa [List.length_range'])]
    rfl
  | some e =>
    have hlt := (List.getElem?_eq_some_iff.mp he).1
    rw [Option.map_some, h.modRevision i e he,
      List.getElem?_eq_getElem (by rwa [List.length_range'])]
    simp [Nat.add_comm]

/-- A read of the version of an event finds its value, if that fits. -/
lemma exists_decode (h : Mirrors s events) {e : WatchEvent} (he : e ∈ events)
    (hfits : e.value.length < 2 ^ 32) :
    ∃ rawValue vv, StorageEngine.get s.engine (encodeKey e.key e.modRevision) = some rawValue ∧
      VersionedValue.decode rawValue = .ok vv ∧ vv.value = e.stored := by
  obtain ⟨i, hi⟩ := List.getElem?_of_mem he
  obtain ⟨vv, hvalue, hget⟩ := h.held i e hi
  obtain ⟨decoded, hdecode, hdecoded⟩ := vv.exists_decode_encode
  rw [← h.modRevision i e hi] at hget
  refine ⟨vv.encode, decoded, hget, hdecode, ?_⟩
  rw [hdecoded, hvalue, WatchEvent.stored]
  cases e.eventType with
  | delete => rfl
  | put =>
    dsimp only
    rw [Option.map_some, Nat.mod_eq_of_lt hfits, List.take_length]

/-- An event at a revision, told from the version in the engine. -/
lemma exists_event_iff (h : Mirrors s events) (hlen : events.length < 2 ^ 64) (key : Bytes)
    {revision : ℕ} (hrevision : revision < 2 ^ 64) (stored : Option Bytes) :
    (∃ e ∈ events, e.modRevision = revision ∧ e.key = key ∧ e.stored = stored) ↔
      ∃ vv : VersionedValue, vv.value = stored ∧
        StorageEngine.get s.engine (encodeKey key revision) = some vv.encode := by
  constructor
  · rintro ⟨e, he, rfl, rfl, rfl⟩
    obtain ⟨i, hi⟩ := List.getElem?_of_mem he
    rw [h.modRevision i e hi]
    exact h.held i e hi
  · rintro ⟨vv, rfl, hget⟩
    obtain ⟨i, e, hi, heq⟩ := h.exists_event _ _ hget
    have hlt := (List.getElem?_eq_some_iff.mp hi).1
    obtain ⟨rfl, rfl⟩ := encodeKey_inj hrevision (by omega) heq
    refine ⟨e, List.mem_of_getElem? hi, h.modRevision i e hi, rfl, ?_⟩
    obtain ⟨vv', hvalue, hheld⟩ := h.held i e hi
    rw [← hvalue]
    exact VersionedValue.value_eq_of_encode_eq (Option.some.inj (hheld.symm.trans hget))

end Mirrors

/-! ### Applying entries -/

namespace Watched

variable {σ : Type} [OrderedEngine σ]

/-- The events published so far, and those that revoking all leases would add. -/
def writes (w : Watched σ) : ℕ :=
  w.events.length + w.replica.leases.keyCount

lemma deleteKey_mirrors {w : Watched σ} (h : Mirrors w.replica.store w.events)
    (hlen : w.events.length + 1 < 2 ^ 64) (key : Bytes) :
    ∃ w', w.deleteKey key = .ok w' ∧ Mirrors w'.replica.store w'.events ∧
      w'.replica.leases = w.replica.leases ∧ w'.events.length = w.events.length + 1 := by
  obtain ⟨existed, hdelete⟩ := h.readable.exists_delete key
  rw [h.nextRevision hlen] at hdelete
  refine ⟨_, by rw [deleteKey, Replica.deleteKey, hdelete]; rfl, ?_, ?_, ?_⟩
  · exact h.publish hlen rfl rfl rfl
  · rfl
  · exact List.length_append

lemma foldlM_deleteKey_mirrors {w : Watched σ} (h : Mirrors w.replica.store w.events)
    (keys : List Bytes) (hlen : w.events.length + keys.length < 2 ^ 64) :
    ∃ w', keys.foldlM deleteKey w = .ok w' ∧ Mirrors w'.replica.store w'.events ∧
      w'.replica.leases = w.replica.leases ∧
      w'.events.length = w.events.length + keys.length := by
  induction keys generalizing w with
  | nil => exact ⟨w, rfl, h, rfl, rfl⟩
  | cons key keys ih =>
    rw [List.length_cons] at hlen
    obtain ⟨w₁, hfirst, hmirrors, hleases, hcount⟩ := deleteKey_mirrors h (by omega) key
    obtain ⟨w₂, hrest, hmirrors', hleases', hcount'⟩ := ih hmirrors (by omega)
    refine ⟨w₂, ?_, hmirrors', hleases'.trans hleases, ?_⟩
    · rw [List.foldlM_cons, hfirst]
      exact hrest
    · rw [hcount', hcount, List.length_cons]
      omega

lemma applyCommand_mirrors {w : Watched σ} (h : Mirrors w.replica.store w.events)
    (hlen : w.writes + 2 < 2 ^ 64) (m : Moment) (cmd : KvCommand) :
    ∃ w', w.applyCommand m cmd = .ok w' ∧ Mirrors w'.replica.store w'.events ∧
      w'.writes ≤ w.writes + 2 := by
  rw [writes] at hlen
  cases cmd with
  | put key value leaseId ttlSeconds =>
    obtain ⟨prev, hprev⟩ := h.readable.exists_get key
    obtain ⟨createRevision, hput⟩ :=
      h.readable.exists_putWithOptions key value leaseId ttlSeconds
    rw [h.nextRevision (by omega)] at hput
    have hcount := Replica.keyCount_attach_le w.replica.leases leaseId key
    refine ⟨_, by rw [applyCommand, hprev, hput]; rfl, ?_, ?_⟩
    · exact h.publish (by omega) rfl rfl rfl
    · simp only [writes, publish, List.length_append, List.length_singleton]
      omega
  | delete key =>
    obtain ⟨prev, hprev⟩ := h.readable.exists_get key
    obtain ⟨existed, hdelete⟩ := h.readable.exists_delete key
    rw [h.nextRevision (by omega)] at hdelete
    have hcount := Replica.keyCount_detach_le w.replica.leases key prev
    refine ⟨_, by rw [applyCommand, hprev, hdelete]; rfl, ?_, ?_⟩
    · exact h.publish (by omega) rfl rfl rfl
    · simp only [writes, publish, List.length_append, List.length_singleton]
      omega
  | leaseGrant leaseId ttl =>
    rw [applyCommand]
    cases hgrant : w.replica.leases.grant leaseId ttl m.now with
    | error e => exact ⟨w, rfl, h, Nat.le_add_right _ _⟩
    | ok result =>
      obtain ⟨id, ttl, leases⟩ := result
      have hcount := LeaseManager.keyCount_grant hgrant
      refine ⟨_, rfl, h, ?_⟩
      simp only [writes] at hcount ⊢
      omega
  | leaseRevoke leaseId =>
    rw [applyCommand]
    cases hrevoke : w.replica.leases.revoke leaseId m.order with
    | error e => exact ⟨w, rfl, h, Nat.le_add_right _ _⟩
    | ok result =>
      obtain ⟨-, -, hcount⟩ := LeaseManager.revoke_eq hrevoke
      obtain ⟨w', hfold, hmirrors, hleases, hevents⟩ :=
        foldlM_deleteKey_mirrors
          (w := { w with replica := { w.replica with leases := result.2 } }) h result.1
          (by dsimp only; omega)
      refine ⟨w', hfold, hmirrors, ?_⟩
      rw [writes, hleases, hevents, writes]
      dsimp only
      omega

variable [CommandJson]

lemma applyEntry_mirrors {w : Watched σ} (h : Mirrors w.replica.store w.events)
    (hlen : w.writes + 2 < 2 ^ 64) (entry : LogEntry) (m : Moment) :
    ∃ n w', w.applyEntry entry m = .ok (n, w') ∧ Mirrors w'.replica.store w'.events ∧
      w'.writes ≤ w.writes + 2 := by
  rw [applyEntry]
  cases entry.entryType with
  | noop => exact ⟨0, w, rfl, h, Nat.le_add_right _ _⟩
  | configChange => exact ⟨1, w, rfl, h, Nat.le_add_right _ _⟩
  | normal =>
    dsimp only
    split
    · exact ⟨0, w, rfl, h, Nat.le_add_right _ _⟩
    · cases KvCommand.decode entry.data with
      | error e => exact ⟨0, w, rfl, h, Nat.le_add_right _ _⟩
      | ok cmd =>
        obtain ⟨w', happly, hmirrors, hwrites⟩ := applyCommand_mirrors h hlen m cmd
        exact ⟨1, w', by simp only [happly]; rfl, hmirrors, hwrites⟩

lemma applyLoop_mirrors {w : Watched σ} (h : Mirrors w.replica.store w.events)
    (entries : List (LogEntry × Moment)) (hlen : w.writes + 2 * entries.length < 2 ^ 64)
    (applied : ℕ) :
    ∃ n w', applyLoop applied w entries = .ok (n, w') ∧ Mirrors w'.replica.store w'.events ∧
      w'.writes ≤ w.writes + 2 * entries.length := by
  induction entries generalizing w applied with
  | nil => exact ⟨applied, w, rfl, h, Nat.le_add_right _ _⟩
  | cons x entries ih =>
    obtain ⟨entry, m⟩ := x
    rw [List.length_cons] at hlen ⊢
    obtain ⟨n, w₁, hfirst, hmirrors, hwrites⟩ := applyEntry_mirrors h (by omega) entry m
    obtain ⟨n', w₂, hrest, hmirrors', hwrites'⟩ := ih hmirrors (by omega) (applied + n)
    refine ⟨n', w₂, ?_, hmirrors', by omega⟩
    rw [applyLoop, hfirst]
    exact hrest

/-- The events of a loop that starts with an empty store have the revisions `1`, `2` and so on up
to that of the store. One of them tells of a put or a delete of a key at a revision exactly if the
engine holds a version of the key at that revision with that value, or a delete marker; a value
that fits is read back from it. -/
theorem apply_events_mirror_engine (leases : LeaseManager) (entries : List (LogEntry × Moment))
    (hlen : leases.keyCount + 2 * entries.length < 2 ^ 64) :
    ∃ n w, apply ⟨⟨MvccStore.new (StorageEngine.empty : σ), leases⟩, []⟩ entries = .ok (n, w) ∧
      w.events.map (·.modRevision) = List.range' 1 w.replica.store.currentRevision ∧
      (∀ e ∈ w.events, e.value.length < 2 ^ 32 → ∃ rawValue vv,
        StorageEngine.get w.replica.store.engine (encodeKey e.key e.modRevision) = some rawValue ∧
          VersionedValue.decode rawValue = .ok vv ∧ vv.value = e.stored) ∧
      ∀ key revision, revision < 2 ^ 64 →
        (∀ value, (∃ e ∈ w.events, e.modRevision = revision ∧ e.key = key ∧ e.eventType = .put ∧
            e.value = value) ↔
          ∃ vv : VersionedValue, vv.value = some value ∧
            StorageEngine.get w.replica.store.engine (encodeKey key revision) =
              some vv.encode) ∧
        ((∃ e ∈ w.events, e.modRevision = revision ∧ e.key = key ∧ e.eventType = .delete) ↔
          ∃ vv : VersionedValue, vv.value = none ∧
            StorageEngine.get w.replica.store.engine (encodeKey key revision) =
              some vv.encode) := by
  obtain ⟨n, w, happly, hmirrors, hwrites⟩ := applyLoop_mirrors
    (w := ⟨⟨MvccStore.new (StorageEngine.empty : σ), leases⟩, []⟩) Mirrors.new
    entries (by simpa [writes] using hlen) 0
  have hcount : w.events.length < 2 ^ 64 := by
    simp only [writes, List.length_nil] at hwrites
    omega
  refine ⟨n, w, happly, hmirrors.map_modRevision, fun e => hmirrors.exists_decode,
    fun key revision hrevision => ⟨?_, ?_⟩⟩
  · intro value
    rw [← hmirrors.exists_event_iff hcount key hrevision]
    refine exists_congr fun e => and_congr_right fun _ => and_congr_right fun _ =>
      and_congr_right fun _ => ?_
    rw [WatchEvent.stored]
    cases e.eventType <;> simp
  · rw [← hmirrors.exists_event_iff hcount key hrevision]
    refine exists_congr fun e => and_congr_right fun _ => and_congr_right fun _ =>
      and_congr_right fun _ => ?_
    rw [WatchEvent.stored]
    cases e.eventType <;> simp

end Watched

/-! ### Runs -/

namespace WatchRuns

def grant : KvCommand := .leaseGrant 1 10

def putA : KvCommand := .put [97] [49] 1 0

def putB : KvCommand := .put [98] [50] 1 0

def revoke : KvCommand := .leaseRevoke 1

scoped instance : CommandJson := .text [grant, putA, putB, revoke]

/-- Two keys are put with a lease, which is then revoked. Entries of no command lie between. -/
def entries : List (LogEntry × Moment) :=
  [⟨1, 1, [], .noop⟩, ⟨2, 1, grant.encode, .normal⟩, ⟨3, 1, putA.encode, .normal⟩,
    ⟨4, 1, [0], .normal⟩, ⟨5, 1, putB.encode, .normal⟩, ⟨6, 1, revoke.encode, .normal⟩].map
    fun entry => (entry, { now := 0, order := .ascending Bytes })

def fresh : Watched (Std.TreeMap Bytes Bytes) :=
  ⟨⟨MvccStore.new ∅, .new⟩, []⟩

def told (events : List WatchEvent) : List (WatchEventType × Bytes × ℕ) :=
  events.map fun e => (e.eventType, e.key, e.modRevision)

end WatchRuns

open WatchRuns in
theorem Watched.apply_events_mirror_engine_revoke :
    ∃ (n : ℕ) (w : Watched (Std.TreeMap Bytes Bytes)), fresh.apply entries = .ok (n, w) ∧
      told w.events =
        [(.put, [97], 1), (.put, [98], 2), (.delete, [97], 3), (.delete, [98], 4)] ∧
      ∃ vv : VersionedValue, vv.value = none ∧
        StorageEngine.get w.replica.store.engine (encodeKey [98] 4) = some vv.encode := by
  obtain ⟨n, w, happly, -, -, hengine⟩ :=
    Watched.apply_events_mirror_engine (σ := Std.TreeMap Bytes Bytes) .new entries
      (by decide +kernel)
  have hrun : (fresh.apply entries).map (fun x => told x.2.events) =
      .ok [(.put, [97], 1), (.put, [98], 2), (.delete, [97], 3), (.delete, [98], 4)] := by
    decide +kernel
  have htold : told w.events =
      [(.put, [97], 1), (.put, [98], 2), (.delete, [97], 3), (.delete, [98], 4)] := by
    rw [show fresh.apply entries = .ok (n, w) from happly] at hrun
    exact Except.ok.inj hrun
  have hmem : (.delete, [98], 4) ∈ told w.events := by
    rw [htold]
    decide
  obtain ⟨e, he, heq⟩ := List.mem_map.mp hmem
  simp only [Prod.mk.injEq] at heq
  exact ⟨n, w, happly, htold,
    (hengine [98] 4 (by decide)).2.mp ⟨e, he, heq.2.2, heq.2.1, heq.1⟩⟩

end Raftrust.Server

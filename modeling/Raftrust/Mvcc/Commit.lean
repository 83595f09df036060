import Raftrust.Lib.Neighbours
import Raftrust.Mvcc.Content
import Raftrust.Mvcc.Readable
import Raftrust.Mvcc.ScanRange
import Raftrust.Mvcc.Transaction

/-!
# Commits that fail half-way

A commit checks its reads, takes a revision and then stores one record for each write. An engine
call that fails ends it, and what has been stored by then stays. Whether a read can tell depends on
which record it meets first.
-/

namespace Raftrust.Mvcc

open Lib Storage

/-- How a put call of the engine fails. The record may have been stored. -/
structure PutFault where
  error : Error
  stored : Bool
  deriving DecidableEq, Repr

namespace MvccStore

variable {σ : Type} [StorageEngine σ]

/-! ### The commit -/

/-- Write a version at a revision. -/
def putVersioned (s : MvccStore σ) (fault : Option PutFault) (key : Bytes) (vv : VersionedValue)
    (revision : ℕ) : MvccStore σ × Except Abort Unit :=
  s.store (fault.map fun f => .put f.error f.stored) (encodeKey key revision) vv.encode

/-- Check that what was read is still the latest. -/
def validate (s : MvccStore σ) : List (Bytes × ℕ) → Except Abort Unit
  | [] => .ok ()
  | (key, readRevision) :: reads => do
    let current ← s.get key
    if modRevisionOf current ≠ readRevision then throw (.error .transactionConflict)
    s.validate reads

/-- The create revision of a write: that of the key if it exists. -/
def findCreateRevision (s : MvccStore σ) (commitRevision : ℕ) (key : Bytes) :
    Option Bytes → Except Abort ℕ
  | some _ => do
    let current ← s.get key
    return readCreateRevision current commitRevision
  | none => return 0

/-- The loop over the writes. The put calls fail as `faults` says. -/
def applyWrites (commitRevision : ℕ) : MvccStore σ → (ℕ → Option PutFault) →
    List (Bytes × Option Bytes) → MvccStore σ × Except Abort Unit
  | s, _, [] => (s, .ok ())
  | s, faults, (key, value) :: writes =>
    match s.findCreateRevision commitRevision key value with
    | .error e => (s, .error e)
    | .ok createRevision =>
      let vv := versionOf value createRevision commitRevision
      match s.putVersioned (faults 0) key vv commitRevision with
      | (s, .error e) => (s, .error e)
      | (s, .ok ()) => applyWrites commitRevision s (fun n => faults (n + 1)) writes

/-- Validate and commit a transaction. Returns the commit revision. -/
def commit (s : MvccStore σ) (faults : ℕ → Option PutFault) (t : Transaction) :
    MvccStore σ × Except Abort ℕ :=
  if t.writeSet.isEmpty then (s, .ok t.startRevision)
  else
    match s.validate t.readSet with
    | .error e => (s, .error e)
    | .ok () =>
      let (commitRevision, s) := s.nextRevision
      let (s, result) := applyWrites commitRevision s faults t.writeSet
      (s, result.map fun _ => commitRevision)

/-! ### What a read meets -/

/-- A read at `revision` goes no further than this entry. -/
def stops (revision : ℕ) (e : Bytes × Bytes) : Bool :=
  match decodeKey e.1 with
  | .ok (_, rev) => rev ≤ revision
  | .error _ => true

/-- What a read of `key` makes of the entry it stops at. -/
def readEntry (key : Bytes) (e : Bytes × Bytes) : Except Abort (Option KeyValue) := do
  let _ ← decodeKey e.1
  let vv ← VersionedValue.decode e.2
  return vv.toKeyValue key

/-- A read returns what it makes of the first entry that stops it. -/
lemma getAtRevision_eq_find? (s : MvccStore σ) (key : Bytes) (revision : ℕ) :
    s.getAtRevision key revision =
      ((s.scanKey key).find? (stops revision)).elim (.ok none) (readEntry key) := by
  rw [getAtRevision]
  induction s.scanKey key with
  | nil => rfl
  | cons e entries ih =>
    rw [firstVisible]
    cases hkey : decodeKey e.1 with
    | error a =>
      have hstops : stops revision e = true := by rw [stops, hkey]
      rw [List.find?_cons_of_pos hstops, Option.elim_some, readEntry, hkey]
      rfl
    | ok decoded =>
      obtain ⟨userKey, rev⟩ := decoded
      by_cases hrev : rev ≤ revision
      · have hstops : stops revision e = true := by
          rw [stops, hkey]
          exact decide_eq_true hrev
        rw [List.find?_cons_of_pos hstops, Option.elim_some, readEntry, hkey]
        simp only [bind, Except.bind, if_neg (not_lt.mpr hrev)]
        cases VersionedValue.decode e.2 <;> rfl
      · have hstops : ¬ stops revision e = true := by
          rw [stops, hkey]
          simpa using hrev
        rw [List.find?_cons_of_neg hstops, ← ih]
        simp only [bind, Except.bind, if_pos (not_le.mp hrev)]

lemma createRevision_lt_of_getAtRevision {s : MvccStore σ} {key : Bytes} {revision : ℕ}
    {kv : KeyValue} (h : s.getAtRevision key revision = .ok (some kv)) :
    kv.createRevision < 2 ^ 64 := by
  rw [getAtRevision_eq_find?] at h
  cases hfind : (s.scanKey key).find? (stops revision) with
  | none =>
    rw [hfind] at h
    cases h
  | some e =>
    rw [hfind, Option.elim_some, readEntry] at h
    obtain ⟨-, -, h⟩ := bind_eq_ok_iff.mp h
    obtain ⟨vv, hdecode, h⟩ := bind_eq_ok_iff.mp h
    obtain ⟨value, -, rfl⟩ := Option.map_eq_some_iff.mp (Except.ok.inj h)
    exact VersionedValue.createRevision_lt_of_decode hdecode

/-! ### Records -/

/-- The store with more records at one revision. -/
def after (s : MvccStore σ) (revision : ℕ) (records : List (Bytes × VersionedValue)) :
    MvccStore σ where
  engine := records.foldl (fun engine record =>
    StorageEngine.put engine (encodeKey record.1 revision) record.2.encode) s.engine
  currentRevision := s.currentRevision

/-- The last of the records of a key. -/
def lastVersion (records : List (Bytes × VersionedValue)) (key : Bytes) : Option VersionedValue :=
  (records.reverse.find? fun record => record.1 = key).map (·.2)

lemma lastVersion_concat (records : List (Bytes × VersionedValue)) (key : Bytes)
    (vv : VersionedValue) (key' : Bytes) : lastVersion (records ++ [(key, vv)]) key' =
      if key = key' then some vv else lastVersion records key' := by
  rw [lastVersion, List.reverse_append, List.reverse_singleton, List.singleton_append]
  by_cases h : key = key'
  · rw [List.find?_cons_of_pos (by simpa using h), if_pos h]
    rfl
  · rw [List.find?_cons_of_neg (by simpa using h), if_neg h]
    rfl

lemma mem_of_lastVersion {records : List (Bytes × VersionedValue)} {key : Bytes}
    {vv : VersionedValue} (h : lastVersion records key = some vv) : (key, vv) ∈ records := by
  obtain ⟨⟨k, v⟩, hfind, rfl⟩ := Option.map_eq_some_iff.mp h
  obtain rfl : k = key := by simpa using List.find?_some hfind
  exact List.mem_reverse.mp (List.mem_of_find?_eq_some hfind)

lemma exists_lastVersion {records : List (Bytes × VersionedValue)} {key : Bytes}
    {vv : VersionedValue} (h : (key, vv) ∈ records) :
    ∃ vv', lastVersion records key = some vv' := by
  rw [← Option.isSome_iff_exists, lastVersion, Option.isSome_map, List.find?_isSome]
  exact ⟨(key, vv), List.mem_reverse.mpr h, by simp⟩

lemma get_after (s : MvccStore σ) (revision : ℕ)
    (records : List (Bytes × VersionedValue)) (internalKey : Bytes) :
    (∃ key vv, lastVersion records key = some vv ∧ encodeKey key revision = internalKey ∧
      StorageEngine.get (s.after revision records).engine internalKey = some vv.encode) ∨
    ((∀ key vv, (key, vv) ∈ records → encodeKey key revision ≠ internalKey) ∧
      StorageEngine.get (s.after revision records).engine internalKey =
        StorageEngine.get s.engine internalKey) := by
  -- the last record under the key wins
  induction records using List.reverseRecOn with
  | nil => exact .inr ⟨by simp, rfl⟩
  | append_singleton records record ih =>
    obtain ⟨key, vv⟩ := record
    have hget : StorageEngine.get (s.after revision (records ++ [(key, vv)])).engine internalKey =
        if encodeKey key revision = internalKey then some vv.encode
        else StorageEngine.get (s.after revision records).engine internalKey := by
      rw [after, List.foldl_append]
      exact StorageEngine.get_put _ _ _ _
    rw [hget]
    by_cases hkey : encodeKey key revision = internalKey
    · exact .inl ⟨key, vv, by rw [lastVersion_concat, if_pos rfl], hkey, if_pos hkey⟩
    · rw [if_neg hkey]
      rcases ih with ⟨key', vv', hlast, hkey', hread⟩ | ⟨hnone, hread⟩
      · refine .inl ⟨key', vv', ?_, hkey', hread⟩
        rw [lastVersion_concat, if_neg, hlast]
        rintro rfl
        exact hkey hkey'
      · refine .inr ⟨fun key' vv' hmem => ?_, hread⟩
        rcases List.mem_append.mp hmem with hmem | hmem
        · exact hnone key' vv' hmem
        · obtain ⟨rfl, rfl⟩ := Prod.mk.inj (List.mem_singleton.mp hmem)
          exact hkey

/-- A read of `key` at `revision` meets the record of `key'` that is stored at `written`: the
record is in the range, and whatever else would stop the read comes behind. -/
structure Meets (s : MvccStore σ) (written : ℕ) (records : List (Bytes × VersionedValue))
    (key : Bytes) (revision : ℕ) (key' : Bytes) (vv : VersionedValue) : Prop where
  le_revision : written ≤ revision
  last : lastVersion records key' = some vv
  inScan : InScan key (encodeKey key' written)
  le_record : ∀ key'' vv', (key'', vv') ∈ records → InScan key (encodeKey key'' written) →
    encodeKey key' written ≤ encodeKey key'' written
  le_entry : ∀ e ∈ s.scanKey key, stops revision e → encodeKey key' written ≤ e.1

section

variable {s : MvccStore σ} {written : ℕ} {records : List (Bytes × VersionedValue)} {key : Bytes}
  [ScansKey σ key] {revision : ℕ}

lemma stops_record (hwritten : written < 2 ^ 64) (key' rawValue : Bytes) :
    stops revision (encodeKey key' written, rawValue) ↔ written ≤ revision := by
  rw [stops, decodeKey_encodeKey _ hwritten]
  exact decide_eq_true_iff

lemma mem_scanKey_after {e : Bytes × Bytes} : e ∈ (s.after written records).scanKey key ↔
    (∃ key' vv, lastVersion records key' = some vv ∧ InScan key (encodeKey key' written) ∧
      (encodeKey key' written, vv.encode) = e) ∨
    ((∀ key' vv, (key', vv) ∈ records → encodeKey key' written ≠ e.1) ∧ e ∈ s.scanKey key) := by
  rw [scanKey, scanKey, Scans.mem_scan, Scans.mem_scan]
  rcases s.get_after written records e.1 with ⟨key', vv, hlast, hkey, hread⟩ | ⟨hnone, hread⟩
  · rw [hread, Option.some.injEq]
    constructor
    · rintro ⟨hvalue, hrange⟩
      exact .inl ⟨key', vv, hlast, hkey ▸ hrange, Prod.ext hkey hvalue⟩
    · rintro (⟨key'', vv', hlast', hin, rfl⟩ | ⟨hnone, -⟩)
      · obtain rfl : key' = key'' := List.append_cancel_right hkey
        obtain rfl := Option.some.inj (hlast.symm.trans hlast')
        exact ⟨rfl, hin⟩
      · exact absurd hkey (hnone key' vv (mem_of_lastVersion hlast))
  · rw [hread]
    constructor
    · exact fun he => .inr ⟨hnone, he⟩
    · rintro (⟨key', vv, hlast, -, rfl⟩ | ⟨-, he⟩)
      · exact absurd rfl (hnone key' vv (mem_of_lastVersion hlast))
      · exact he

/-- An entry that stops a read is still there, or a record has taken its place. -/
lemma exists_mem_scanKey_after {e : Bytes × Bytes} (he : e ∈ s.scanKey key)
    (hstops : stops revision e) :
    ∃ e' ∈ (s.after written records).scanKey key, stops revision e' ∧ e'.1 = e.1 := by
  by_cases hrecord : ∃ key' vv, (key', vv) ∈ records ∧ encodeKey key' written = e.1
  · obtain ⟨key', vv, hmem, hkey⟩ := hrecord
    obtain ⟨vv', hlast⟩ := exists_lastVersion hmem
    have hin : InScan key (encodeKey key' written) := hkey ▸ (Scans.mem_scan.mp he).2
    refine ⟨_, mem_scanKey_after.mpr (.inl ⟨key', vv', hlast, hin, rfl⟩), ?_, hkey⟩
    rw [stops, hkey]
    exact hstops
  · refine ⟨e, mem_scanKey_after.mpr (.inr ⟨?_, he⟩), hstops, rfl⟩
    exact fun key' vv hmem hkey => hrecord ⟨key', vv, hmem, hkey⟩

lemma Meets.getAtRevision_after (hwritten : written < 2 ^ 64) {key' : Bytes}
    {vv : VersionedValue} (h : Meets s written records key revision key' vv) (hfits : vv.Fits) :
    (s.after written records).getAtRevision key revision = .ok (vv.toKeyValue key) := by
  have hsorted : ((s.after written records).scanKey key).Pairwise _ := Scans.scan_sorted _
  have hfind : ((s.after written records).scanKey key).find? (stops revision) =
      some (encodeKey key' written, vv.encode) := by
    refine (find?_eq_some_iff_of_sorted hsorted).mpr ⟨?_, ?_, fun e he hstops => ?_⟩
    · exact mem_scanKey_after.mpr (.inl ⟨key', vv, h.last, h.inScan, rfl⟩)
    · exact (stops_record hwritten _ _).mpr h.le_revision
    · rcases mem_scanKey_after.mp he with ⟨key'', vv', hlast, hin, rfl⟩ | ⟨-, hold⟩
      · exact h.le_record key'' vv' (mem_of_lastVersion hlast) hin
      · exact h.le_entry e hold hstops
  rw [getAtRevision_eq_find?, hfind, Option.elim_some, readEntry, decodeKey_encodeKey _ hwritten,
    VersionedValue.decode_encode hfits]
  rfl

/-- A read that meets none of the records returns what it returned before. -/
lemma getAtRevision_after_of_not_meets (hwritten : written < 2 ^ 64)
    (h : ∀ key' vv, ¬ Meets s written records key revision key' vv) :
    (s.after written records).getAtRevision key revision = s.getAtRevision key revision := by
  have hsorted : (s.scanKey key).Pairwise _ := Scans.scan_sorted _
  have hsorted' : ((s.after written records).scanKey key).Pairwise _ := Scans.scan_sorted _
  rw [getAtRevision_eq_find?, getAtRevision_eq_find?]
  congr 1
  cases hfind : ((s.after written records).scanKey key).find? (stops revision) with
  | none =>
    rw [eq_comm, List.find?_eq_none]
    intro e he hstops
    obtain ⟨e', he', hstops', -⟩ := exists_mem_scanKey_after he hstops
    exact List.find?_eq_none.mp hfind e' he' hstops'
  | some e =>
    obtain ⟨he, hstops, hleast⟩ := (find?_eq_some_iff_of_sorted hsorted').mp hfind
    have hleast' : ∀ b ∈ s.scanKey key, stops revision b → e.1 ≤ b.1 := by
      intro b hb hbstops
      obtain ⟨b', hb', hbstops', hkey⟩ := exists_mem_scanKey_after hb hbstops
      exact hkey ▸ hleast b' hb' hbstops'
    rcases mem_scanKey_after.mp he with ⟨key', vv, hlast, hin, rfl⟩ | ⟨-, hold⟩
    · -- the first entry is a record, which the read would meet
      have hle := (stops_record hwritten _ _).mp hstops
      refine absurd ⟨hle, hlast, hin, fun key'' vv' hmem hin' => ?_, hleast'⟩ (h key' vv)
      obtain ⟨vv'', hlast'⟩ := exists_lastVersion hmem
      exact hleast _ (mem_scanKey_after.mpr (.inl ⟨key'', vv'', hlast', hin', rfl⟩))
        ((stops_record hwritten _ _).mpr hle)
    · exact ((find?_eq_some_iff_of_sorted hsorted).mpr ⟨hold, hstops, hleast'⟩).symm

end

/-! ### The loop -/

/-- The versions that the writes store as long as no put call fails. -/
def versions (commitRevision : ℕ) : MvccStore σ → List (Bytes × Option Bytes) →
    Except Abort (List (Bytes × VersionedValue))
  | _, [] => .ok []
  | s, (key, value) :: writes => do
    let createRevision ← s.findCreateRevision commitRevision key value
    let vv := versionOf value createRevision commitRevision
    let rest ← versions commitRevision (s.after commitRevision [(key, vv)]) writes
    return (key, vv) :: rest

section

variable {s : MvccStore σ} {commitRevision : ℕ} {faults : ℕ → Option PutFault} {key : Bytes}
  {value : Option Bytes} {writes : List (Bytes × Option Bytes)}
  {records : List (Bytes × VersionedValue)}

lemma versions_cons_eq_ok (h : s.versions commitRevision ((key, value) :: writes) = .ok records) :
    ∃ createRevision rest, s.findCreateRevision commitRevision key value = .ok createRevision ∧
      versions commitRevision
        (s.after commitRevision [(key, versionOf value createRevision commitRevision)]) writes =
          .ok rest ∧
      records = (key, versionOf value createRevision commitRevision) :: rest := by
  rw [versions] at h
  obtain ⟨createRevision, hcreate, h⟩ := bind_eq_ok_iff.mp h
  obtain ⟨rest, hrest, h⟩ := bind_eq_ok_iff.mp h
  exact ⟨createRevision, rest, hcreate, hrest, (Except.ok.inj h).symm⟩

lemma findCreateRevision_eq_error {e : Abort}
    (h : s.findCreateRevision commitRevision key value = .error e) : e = .panicked := by
  cases value with
  | none => cases h
  | some value =>
    rw [findCreateRevision] at h
    cases hget : s.get key with
    | ok current =>
      rw [hget] at h
      cases h
    | error a =>
      rw [hget] at h
      obtain rfl : a = e := Except.error.inj h
      cases a with
      | error e' => exact absurd hget (s.reportsNone_get key e')
      | panicked => rfl

lemma findCreateRevision_lt (hrevision : commitRevision < 2 ^ 64) {createRevision : ℕ}
    (h : s.findCreateRevision commitRevision key value = .ok createRevision) :
    createRevision < 2 ^ 64 := by
  cases value with
  | none =>
    obtain rfl := Except.ok.inj h
    exact Nat.two_pow_pos 64
  | some value =>
    obtain ⟨current, hget, h⟩ := bind_eq_ok_iff.mp h
    obtain rfl := Except.ok.inj h
    cases current with
    | none => exact hrevision
    | some kv => exact createRevision_lt_of_getAtRevision hget

lemma putVersioned_some (s : MvccStore σ) (f : PutFault) (key : Bytes) (vv : VersionedValue)
    (revision : ℕ) : s.putVersioned (some f) key vv revision =
      (s.after revision ([(key, vv)].take f.stored.toNat), .error (.error f.error)) := by
  obtain ⟨error, stored⟩ := f
  cases stored <;> rfl

/-- If no put call fails, all versions are stored. -/
lemma applyWrites_of_none (hfaults : ∀ n < writes.length, faults n = none)
    (h : s.versions commitRevision writes = .ok records) :
    s.applyWrites commitRevision faults writes = (s.after commitRevision records, .ok ()) := by
  induction writes generalizing s faults records with
  | nil =>
    obtain rfl := Except.ok.inj h
    rfl
  | cons w writes ih =>
    obtain ⟨key, value⟩ := w
    obtain ⟨createRevision, rest, hcreate, hrest, rfl⟩ := versions_cons_eq_ok h
    simp only [applyWrites, hcreate, hfaults 0 (Nat.succ_pos _)]
    exact ih (fun n hn => hfaults (n + 1) (Nat.succ_lt_succ hn)) hrest

/-- If one fails, the versions before it are stored, and its own if the call got that far. -/
lemma applyWrites_of_some {n : ℕ} {f : PutFault} (hn : n < writes.length)
    (hfaults : ∀ m < n, faults m = none) (hf : faults n = some f)
    (h : s.versions commitRevision (writes.take (n + 1)) = .ok records) :
    s.applyWrites commitRevision faults writes =
      (s.after commitRevision (records.take (n + f.stored.toNat)), .error (.error f.error)) := by
  -- on the number of put calls that succeed
  induction n generalizing s faults writes records with
  | zero =>
    cases writes with
    | nil => cases hn
    | cons w writes =>
      obtain ⟨key, value⟩ := w
      obtain ⟨createRevision, rest, hcreate, hrest, rfl⟩ := versions_cons_eq_ok h
      obtain rfl := Except.ok.inj hrest
      simp only [applyWrites, hcreate, hf, putVersioned_some, Nat.zero_add]
  | succ n ih =>
    cases writes with
    | nil => cases hn
    | cons w writes =>
      obtain ⟨key, value⟩ := w
      obtain ⟨createRevision, rest, hcreate, hrest, rfl⟩ := versions_cons_eq_ok h
      simp only [applyWrites, hcreate, hfaults 0 (Nat.succ_pos n)]
      rw [Nat.succ_add, List.take_succ_cons]
      exact ih (Nat.lt_of_succ_lt_succ hn) (fun m hm => hfaults (m + 1) (Nat.succ_lt_succ hm)) hf
        hrest

/-- These are the only ways for the loop to end, but for a lookup that panics. -/
lemma applyWrites_cases (s : MvccStore σ) (commitRevision : ℕ) (faults : ℕ → Option PutFault)
    (writes : List (Bytes × Option Bytes)) :
    ((∀ n < writes.length, faults n = none) ∧
      ∃ records, s.versions commitRevision writes = .ok records) ∨
    (∃ n f records, n < writes.length ∧ (∀ m < n, faults m = none) ∧ faults n = some f ∧
      s.versions commitRevision (writes.take (n + 1)) = .ok records) ∨
    (s.applyWrites commitRevision faults writes).2 = .error .panicked := by
  induction writes generalizing s faults with
  | nil => exact .inl ⟨by simp, [], rfl⟩
  | cons w writes ih =>
    obtain ⟨key, value⟩ := w
    cases hcreate : s.findCreateRevision commitRevision key value with
    -- the engine does not fail on lookups, so this one panicked
    | error e =>
      obtain rfl := findCreateRevision_eq_error hcreate
      exact .inr (.inr (by simp only [applyWrites, hcreate]))
    | ok createRevision =>
      have hversions : ∀ {ws rest}, versions commitRevision (s.after commitRevision
          [(key, versionOf value createRevision commitRevision)]) ws = .ok rest →
          s.versions commitRevision ((key, value) :: ws) =
            .ok ((key, versionOf value createRevision commitRevision) :: rest) := by
        intro ws rest hrest
        simp only [versions, hcreate, bind, Except.bind, hrest]
        rfl
      cases hfault : faults 0 with
      | some f => exact .inr (.inl ⟨0, f, _, Nat.succ_pos _, by simp, hfault, hversions rfl⟩)
      | none =>
        have hpos : ∀ {n}, (∀ m < n, faults (m + 1) = none) → ∀ m < n + 1, faults m = none := by
          intro n hn m hm
          cases m with
          | zero => exact hfault
          | succ m => exact hn m (Nat.lt_of_succ_lt_succ hm)
        rcases ih (s.after commitRevision [(key, versionOf value createRevision commitRevision)])
          (fun n => faults (n + 1)) with ⟨hnone, rest, hrest⟩ | ⟨n, f, rest, hn, hnone, hf, hrest⟩ |
            hpanic
        · exact .inl ⟨hpos hnone, _, hversions hrest⟩
        · exact .inr (.inl ⟨n + 1, f, _, Nat.succ_lt_succ hn, hpos hnone, hf, hversions hrest⟩)
        · refine .inr (.inr ?_)
          simp only [applyWrites, hcreate, hfault]
          exact hpanic

lemma map_value_of_versions (h : s.versions commitRevision writes = .ok records) :
    records.map (fun record => (record.1, record.2.value)) = writes := by
  induction writes generalizing s records with
  | nil =>
    obtain rfl := Except.ok.inj h
    rfl
  | cons w writes ih =>
    obtain ⟨key, value⟩ := w
    obtain ⟨createRevision, rest, -, hrest, rfl⟩ := versions_cons_eq_ok h
    rw [List.map_cons, ih hrest]
    rfl

lemma exists_versionOf_of_versions (h : s.versions commitRevision writes = .ok records)
    (hrevision : commitRevision < 2 ^ 64) {record : Bytes × VersionedValue}
    (hmem : record ∈ records) :
    ∃ createRevision < 2 ^ 64,
      record.2 = versionOf record.2.value createRevision commitRevision := by
  induction writes generalizing s records with
  | nil =>
    obtain rfl := Except.ok.inj h
    cases hmem
  | cons w writes ih =>
    obtain ⟨key, value⟩ := w
    obtain ⟨createRevision, rest, hcreate, hrest, rfl⟩ := versions_cons_eq_ok h
    rcases List.mem_cons.mp hmem with rfl | hmem
    · exact ⟨createRevision, findCreateRevision_lt hrevision hcreate, rfl⟩
    · exact ih hrest hmem

end

/-! ### All or nothing -/

/-- A put call of the commit fails, and `records` have been stored by then. -/
def Interrupted (s : MvccStore σ) (faults : ℕ → Option PutFault) (t : Transaction)
    (records : List (Bytes × VersionedValue)) : Prop :=
  s.validate t.readSet = .ok () ∧ ∃ n f versions, n < t.writeSet.length ∧
    (∀ m < n, faults m = none) ∧ faults n = some f ∧
    s.nextRevision.2.versions s.nextRevision.1 (t.writeSet.take (n + 1)) = .ok versions ∧
    records = versions.take (n + f.stored.toNat)

/-- No put call of the commit fails, and `records` have been stored. -/
def Completed (s : MvccStore σ) (faults : ℕ → Option PutFault) (t : Transaction)
    (records : List (Bytes × VersionedValue)) : Prop :=
  s.validate t.readSet = .ok () ∧ (∀ n < t.writeSet.length, faults n = none) ∧
    s.nextRevision.2.versions s.nextRevision.1 t.writeSet = .ok records

/-- The read returns the value, or nothing for a delete, as of `revision`. -/
def Shows (read : Except Abort (Option KeyValue)) (revision : ℕ) (value : Option Bytes) : Prop :=
  ∃ result, read = .ok result ∧ result.map (·.value) = value ∧
    ∀ kv ∈ result, kv.modRevision = revision

/-- A commit that reports an error leaves reads of `key` at `revision` as they were, and one that
succeeds shows the last write to `key`. -/
def AllOrNothing (s : MvccStore σ) (faults : ℕ → Option PutFault) (t : Transaction) (key : Bytes)
    (revision : ℕ) : Prop :=
  (∀ e, (s.commit faults t).2 = .error (.error e) →
    (s.commit faults t).1.getAtRevision key revision = s.getAtRevision key revision) ∧
  ∀ commitRevision, (s.commit faults t).2 = .ok commitRevision →
    ∀ value, lastWrite t.writeSet key = some value →
      Shows ((s.commit faults t).1.getAtRevision key commitRevision) commitRevision value

/-- A read that meets one of the records returned the same without it. -/
def Unnoticed (s : MvccStore σ) (records : List (Bytes × VersionedValue)) (key : Bytes)
    (revision : ℕ) : Prop :=
  ∀ key' vv, Meets s s.nextRevision.1 records key revision key' vv →
    s.getAtRevision key revision = .ok (vv.toKeyValue key)

/-- A read meets a record with the value, or it meets none and has returned the value before. -/
def Prevails (s : MvccStore σ) (records : List (Bytes × VersionedValue)) (key : Bytes)
    (value : Option Bytes) : Prop :=
  (∃ key' vv, Meets s s.nextRevision.1 records key s.nextRevision.1 key' vv ∧ vv.value = value) ∨
  ((∀ key' vv, ¬ Meets s s.nextRevision.1 records key s.nextRevision.1 key' vv) ∧
    Shows (s.getAtRevision key s.nextRevision.1) s.nextRevision.1 value)

section

variable {s : MvccStore σ} {faults : ℕ → Option PutFault} {t : Transaction}
  {records : List (Bytes × VersionedValue)}

lemma Interrupted.commit (h : Interrupted s faults t records) : ∃ e, s.commit faults t =
    (s.nextRevision.2.after s.nextRevision.1 records, .error (.error e)) := by
  obtain ⟨hvalidate, n, f, versions, hn, hfaults, hf, hversions, rfl⟩ := h
  have hne : ¬ t.writeSet.isEmpty = true := by
    rw [List.isEmpty_iff]
    rintro hnil
    rw [hnil] at hn
    cases hn
  have happly := applyWrites_of_some hn hfaults hf hversions
  refine ⟨f.error, ?_⟩
  simp only [MvccStore.commit, if_neg hne, hvalidate, happly]
  rfl

lemma Completed.commit (h : Completed s faults t records) (hne : t.writeSet ≠ []) :
    s.commit faults t =
      (s.nextRevision.2.after s.nextRevision.1 records, .ok s.nextRevision.1) := by
  obtain ⟨hvalidate, hfaults, hversions⟩ := h
  have hne : ¬ t.writeSet.isEmpty = true := by rwa [List.isEmpty_iff]
  have happly := applyWrites_of_none hfaults hversions
  simp only [MvccStore.commit, if_neg hne, hvalidate, happly]
  rfl

lemma commit_cases (s : MvccStore σ) (faults : ℕ → Option PutFault) (t : Transaction) :
    (t.writeSet = [] ∧ s.commit faults t = (s, .ok t.startRevision)) ∨
    (∃ e, s.commit faults t = (s, .error e)) ∨
    (∃ records, t.writeSet ≠ [] ∧ Completed s faults t records) ∨
    (∃ records, Interrupted s faults t records) ∨
    (s.commit faults t).2 = .error .panicked := by
  by_cases hempty : t.writeSet = []
  · exact .inl ⟨hempty, by rw [MvccStore.commit, hempty]; rfl⟩
  have hne : ¬ t.writeSet.isEmpty = true := by rwa [List.isEmpty_iff]
  refine .inr ?_
  cases hvalidate : s.validate t.readSet with
  | error e => exact .inl ⟨e, by simp only [MvccStore.commit, if_neg hne, hvalidate]⟩
  | ok u =>
    rcases applyWrites_cases s.nextRevision.2 s.nextRevision.1 faults t.writeSet with
      ⟨hfaults, records, hversions⟩ | ⟨n, f, versions, hn, hfaults, hf, hversions⟩ | hpanic
    · exact .inr (.inl ⟨records, hempty, hvalidate, hfaults, hversions⟩)
    · exact .inr (.inr (.inl ⟨_, hvalidate, n, f, versions, hn, hfaults, hf, hversions, rfl⟩))
    · refine .inr (.inr (.inr ?_))
      simp only [MvccStore.commit, if_neg hne, hvalidate, hpanic]
      rfl

omit [StorageEngine σ] in
lemma nextRevision_lt (s : MvccStore σ) : s.nextRevision.1 < 2 ^ 64 :=
  Nat.mod_lt _ (Nat.two_pow_pos 64)

/-- A read after the records have been stored meets one of them, or returns what it did before. -/
lemma getAtRevision_after_cases (s : MvccStore σ) (hrecords : ∀ record ∈ records, record.2.Fits)
    (key : Bytes) [ScansKey σ key] (revision : ℕ) :
    (∃ key' vv, Meets s s.nextRevision.1 records key revision key' vv ∧
      (s.nextRevision.2.after s.nextRevision.1 records).getAtRevision key revision =
        .ok (vv.toKeyValue key)) ∨
    ((∀ key' vv, ¬ Meets s s.nextRevision.1 records key revision key' vv) ∧
      (s.nextRevision.2.after s.nextRevision.1 records).getAtRevision key revision =
        s.getAtRevision key revision) := by
  by_cases h : ∃ key' vv, Meets s s.nextRevision.1 records key revision key' vv
  · obtain ⟨key', vv, hmeets⟩ := h
    exact .inl ⟨key', vv, hmeets, hmeets.getAtRevision_after s.nextRevision_lt
      (hrecords _ (mem_of_lastVersion hmeets.last))⟩
  · have hnone : ∀ key' vv, ¬ Meets s s.nextRevision.1 records key revision key' vv :=
      fun key' vv hmeets => h ⟨key', vv, hmeets⟩
    have hread : (s.after s.nextRevision.1 records).getAtRevision key revision = _ :=
      getAtRevision_after_of_not_meets s.nextRevision_lt hnone
    exact .inr ⟨hnone, hread⟩

/-- There is only one record that a read can meet. -/
lemma Meets.unique {written : ℕ} {key : Bytes} {revision : ℕ} {key₁ key₂ : Bytes}
    {vv₁ vv₂ : VersionedValue} (h₁ : Meets s written records key revision key₁ vv₁)
    (h₂ : Meets s written records key revision key₂ vv₂) : vv₁ = vv₂ := by
  have heq := le_antisymm (h₁.le_record _ _ (mem_of_lastVersion h₂.last) h₂.inScan)
    (h₂.le_record _ _ (mem_of_lastVersion h₁.last) h₁.inScan)
  obtain rfl : key₁ = key₂ := List.append_cancel_right heq
  exact Option.some.inj (h₁.last.symm.trans h₂.last)

lemma getAtRevision_after_eq_iff (hrecords : ∀ record ∈ records, record.2.Fits) (key : Bytes)
    [ScansKey σ key] (revision : ℕ) :
    (s.nextRevision.2.after s.nextRevision.1 records).getAtRevision key revision =
        s.getAtRevision key revision ↔ Unnoticed s records key revision := by
  rcases s.getAtRevision_after_cases hrecords key revision with ⟨key', vv, hmeets, hread⟩ |
    ⟨hnone, hread⟩
  · rw [hread]
    constructor
    · intro heq key'' vv' hmeets'
      rw [← heq, hmeets.unique hmeets']
    · exact fun h => (h key' vv hmeets).symm
  · exact iff_of_true hread fun key' vv hmeets => absurd hmeets (hnone key' vv)

lemma toKeyValue_map_value (vv : VersionedValue) (key : Bytes) :
    (vv.toKeyValue key).map (·.value) = vv.value := by
  rw [VersionedValue.toKeyValue, Option.map_map]
  exact congrFun Option.map_id vv.value

lemma shows_after_iff (hrecords : ∀ record ∈ records, record.2.Fits)
    (hrevision : ∀ record ∈ records, record.2.modRevision = s.nextRevision.1) (key : Bytes)
    [ScansKey σ key] (value : Option Bytes) :
    Shows ((s.nextRevision.2.after s.nextRevision.1 records).getAtRevision key s.nextRevision.1)
        s.nextRevision.1 value ↔ Prevails s records key value := by
  rcases s.getAtRevision_after_cases hrecords key s.nextRevision.1 with ⟨key', vv, hmeets, hread⟩ |
    ⟨hnone, hread⟩
  · rw [hread]
    constructor
    · rintro ⟨result, hresult, hvalue, -⟩
      obtain rfl := Except.ok.inj hresult
      exact .inl ⟨key', vv, hmeets, (toKeyValue_map_value vv key).symm.trans hvalue⟩
    · rintro (⟨key'', vv', hmeets', rfl⟩ | ⟨hnone, -⟩)
      · obtain rfl := hmeets.unique hmeets'
        refine ⟨_, rfl, toKeyValue_map_value vv key, fun kv hkv => ?_⟩
        obtain ⟨value, -, rfl⟩ := Option.map_eq_some_iff.mp hkv
        exact hrevision _ (mem_of_lastVersion hmeets.last)
      · exact absurd hmeets (hnone key' vv)
  · rw [hread]
    constructor
    · exact fun h => .inr ⟨hnone, h⟩
    · rintro (⟨key', vv, hmeets, -⟩ | ⟨-, h⟩)
      · exact absurd hmeets (hnone key' vv)
      · exact h

lemma fits_of_versions {commitRevision : ℕ} {writes : List (Bytes × Option Bytes)}
    (h : s.versions commitRevision writes = .ok records) (hrevision : commitRevision < 2 ^ 64)
    (hfits : ∀ w ∈ writes, ∀ value ∈ w.2, value.length < 2 ^ 32)
    {record : Bytes × VersionedValue} (hmem : record ∈ records) :
    record.2.Fits ∧ record.2.modRevision = commitRevision := by
  obtain ⟨createRevision, hcreate, heq⟩ := exists_versionOf_of_versions h hrevision hmem
  have hwrite : (record.1, record.2.value) ∈ writes := by
    rw [← map_value_of_versions h]
    exact List.mem_map_of_mem hmem
  rw [heq]
  exact ⟨⟨hfits _ hwrite, hcreate, hrevision⟩, rfl⟩

/-- The records of an interrupted commit fit into their encoding if the writes do. -/
lemma Interrupted.fits (h : Interrupted s faults t records)
    (hfits : ∀ w ∈ t.writeSet, ∀ value ∈ w.2, value.length < 2 ^ 32)
    {record : Bytes × VersionedValue} (hmem : record ∈ records) : record.2.Fits := by
  obtain ⟨-, n, f, versions, -, -, -, hversions, rfl⟩ := h
  exact (fits_of_versions hversions s.nextRevision_lt
    (fun w hw => hfits w (List.mem_of_mem_take hw)) (List.mem_of_mem_take hmem)).1

lemma Completed.shows_iff (h : Completed s faults t records)
    (hfits : ∀ w ∈ t.writeSet, ∀ value ∈ w.2, value.length < 2 ^ 32) (key : Bytes)
    [ScansKey σ key] (value : Option Bytes) :
    Shows ((s.nextRevision.2.after s.nextRevision.1 records).getAtRevision key s.nextRevision.1)
        s.nextRevision.1 value ↔ Prevails s records key value :=
  shows_after_iff (fun _ hmem => (fits_of_versions h.2.2 s.nextRevision_lt hfits hmem).1)
    (fun _ hmem => (fits_of_versions h.2.2 s.nextRevision_lt hfits hmem).2) key value

end

/-- **Commits.** For any store, transaction and failing put calls, a commit is all or nothing to the
reads of a key at a revision if and only if no read can tell the records of an interrupted commit,
and those of a completed one are met first. -/
theorem commit_allOrNothing_iff (s : MvccStore σ) (faults : ℕ → Option PutFault) (t : Transaction)
    (hfits : ∀ w ∈ t.writeSet, ∀ value ∈ w.2, value.length < 2 ^ 32) {key : Bytes}
    (hkey : HasRange key) (revision : ℕ) :
    AllOrNothing s faults t key revision ↔
      (∀ records, Interrupted s faults t records → Unnoticed s records key revision) ∧
      ∀ records, Completed s faults t records → ∀ value, lastWrite t.writeSet key = some value →
        Prevails s records key value := by
  have := hkey.scansKey (σ := σ)
  have hne : ∀ {value}, lastWrite t.writeSet key = some value → t.writeSet ≠ [] := by
    rintro value hlast hnil
    rw [hnil] at hlast
    cases hlast
  constructor
  · rintro ⟨herror, hok⟩
    refine ⟨fun records h => ?_, fun records h value hlast => ?_⟩
    · obtain ⟨e, hcommit⟩ := h.commit
      rw [hcommit] at herror
      exact (getAtRevision_after_eq_iff (fun _ => h.fits hfits) key revision).mp (herror e rfl)
    · rw [h.commit (hne hlast)] at hok
      exact (h.shows_iff hfits key value).mp (hok _ rfl value hlast)
  · rintro ⟨hunnoticed, hprevails⟩
    -- nothing to write, refused, completed, interrupted or panicked
    rcases commit_cases s faults t with ⟨hempty, hcommit⟩ | ⟨e, hcommit⟩ | ⟨records, hset, h⟩ |
      ⟨records, h⟩ | hpanic
    · rw [AllOrNothing, hcommit]
      exact ⟨fun _ _ => rfl, fun _ _ value hlast => absurd hempty (hne hlast)⟩
    · rw [AllOrNothing, hcommit]
      exact ⟨fun _ _ => rfl, fun _ h => absurd h (by simp)⟩
    · rw [AllOrNothing, h.commit hset]
      refine ⟨fun _ herror => absurd herror (by simp), fun _ hok value hlast => ?_⟩
      obtain rfl := Except.ok.inj hok
      exact (h.shows_iff hfits key value).mpr (hprevails records h value hlast)
    · obtain ⟨e, hcommit⟩ := h.commit
      rw [AllOrNothing, hcommit]
      exact ⟨fun _ _ => (getAtRevision_after_eq_iff (fun _ => h.fits hfits) key revision).mpr
        (hunnoticed records h), fun _ hok => absurd hok (by simp)⟩
    · rw [AllOrNothing, hpanic]
      exact ⟨fun _ h => absurd h (by simp), fun _ h => absurd h (by simp)⟩

/-- A commit whose first put call fails before the record is stored leaves no trace. -/
theorem commit_allOrNothing_firstCallFails :
    let s : MvccStore (Std.TreeMap Bytes Bytes) := new StorageEngine.empty
    let t : Transaction := ⟨0, [], [([0x61], some [1]), ([0x62], some [2])]⟩
    let faults : ℕ → Option PutFault := fun n =>
      if n = 0 then some ⟨.storage "full", false⟩ else none
    (s.commit faults t).2 = .error (.error (.storage "full")) ∧
      AllOrNothing s faults t [0x61] 1 := by
  intro s t faults
  refine ⟨rfl, (commit_allOrNothing_iff s faults t (by simp [t]) (by decide) 1).mpr ⟨?_, ?_⟩⟩
  · rintro _ ⟨-, n, f, versions, -, hnone, hf, -, rfl⟩ key' vv hmeets
    cases n with
    | zero =>
      obtain rfl := Option.some.inj hf
      cases mem_of_lastVersion hmeets.last
    | succ n => cases hnone 0 (Nat.succ_pos n)
  · rintro records ⟨-, hnone, -⟩
    cases hnone 0 (by decide)

/-- A commit of two puts whose second put call fails reports the error, and the first put can be
read. -/
theorem secondCallFails_leaves_first :
    let s : MvccStore (Std.TreeMap Bytes Bytes) := new StorageEngine.empty
    let t : Transaction := ⟨0, [], [([0x61], some [1]), ([0x62], some [2])]⟩
    let faults : ℕ → Option PutFault := fun n =>
      if n = 1 then some ⟨.storage "full", false⟩ else none
    (s.commit faults t).2 = .error (.error (.storage "full")) ∧
      s.getAtRevision [0x61] 1 = .ok none ∧
      (s.commit faults t).1.getAtRevision [0x61] 1 = .ok (some ⟨[0x61], [1], 1, 1, 0⟩) :=
  ⟨rfl, rfl, rfl⟩

/-! ### Keys apart from others -/

/-- What is in the range of the key are versions of the key from before. -/
def HoldsOwn (s : MvccStore σ) (key : Bytes) : Prop :=
  ∀ e ∈ s.scanKey key, ∃ (revision : ℕ) (vv : VersionedValue), revision < s.nextRevision.1 ∧
    vv.Fits ∧ vv.modRevision = revision ∧ e = (encodeKey key revision, vv.encode)

section

variable {s : MvccStore σ} {records : List (Bytes × VersionedValue)} {key : Bytes}
  {vv : VersionedValue} (hown : HoldsOwn s key) (hkey : Incrementable key)
  (hrevision : s.nextRevision.1 < u64Max) (hlast : lastVersion records key = some vv)
  (hrecords : ∀ record ∈ records, record.1 = key ∨ ¬ key <+: record.1 ∧ ¬ record.1 <+: key)

include hown hkey hrevision hlast hrecords

/-- A read of a key that is not related to the others meets the key's own record. -/
lemma meets_of_unrelated {revision : ℕ} (hle : s.nextRevision.1 ≤ revision) :
    Meets s s.nextRevision.1 records key revision key vv where
  le_revision := hle
  last := hlast
  inScan := inScan_encodeKey hkey _
  le_record key' vv' hmem hin := by
    rcases hrecords _ hmem with rfl | ⟨hpre, hpre'⟩
    · exact le_rfl
    · exact absurd hin (not_inScan_encodeKey hkey hpre hpre' hrevision)
  le_entry e he _ := by
    obtain ⟨rev, vv', hrev, -, -, rfl⟩ := hown e he
    have hlt := s.nextRevision_lt
    exact ((encodeKey_lt_encodeKey_iff key hlt (hrev.trans hlt)).mpr hrev).le

/-- A completed commit shows the writes to such keys. -/
theorem prevails_of_unrelated : Prevails s records key vv.value :=
  .inl ⟨key, vv, meets_of_unrelated hown hkey hrevision hlast hrecords le_rfl, rfl⟩

/-- An interrupted commit does not go unnoticed if it has stored a put of such a key. -/
theorem not_unnoticed_of_unrelated (hput : vv.value.isSome)
    (hmod : vv.modRevision = s.nextRevision.1) : ¬ Unnoticed s records key s.nextRevision.1 := by
  intro hunnoticed
  have hread := hunnoticed key vv (meets_of_unrelated hown hkey hrevision hlast hrecords le_rfl)
  obtain ⟨value, hvalue⟩ := Option.isSome_iff_exists.mp hput
  rw [getAtRevision_eq_find?, VersionedValue.toKeyValue, hvalue] at hread
  cases hfind : (s.scanKey key).find? (stops s.nextRevision.1) with
  | none =>
    rw [hfind] at hread
    cases hread
  | some e =>
    obtain ⟨rev, vv', hrev, hfits, hmod', rfl⟩ := hown e (List.mem_of_find?_eq_some hfind)
    rw [hfind, Option.elim_some, readEntry, decodeKey_encodeKey _ (hrev.trans s.nextRevision_lt),
      VersionedValue.decode_encode hfits] at hread
    -- the version from before has an older revision
    obtain ⟨value', -, heq⟩ := Option.map_eq_some_iff.mp (Except.ok.inj hread)
    have hsame : vv'.modRevision = vv.modRevision := congrArg KeyValue.modRevision heq
    exact absurd (hmod'.symm.trans (hsame.trans hmod)) hrev.ne

end

end MvccStore

end Raftrust.Mvcc

import Raftrust.Lib.Run
import Raftrust.Storage.Wal.File

/-!
# Repeated crashes

A session opens the log, appends and syncs some records, and ends in a crash that leaves part of
one further record at the end of the file. The writer of the next session appends behind that
torn record, where the reader does not get to: records survive as long as no session writes behind
a torn record.
-/

namespace Raftrust.Storage

open Lib

/-- One session: what it synced, the record it was writing when it crashed, and how many bytes of
that record reached the file. -/
structure Session where
  synced : List Bytes
  unsynced : Bytes
  cut : ℕ
  synced_le : ∀ d ∈ synced, d.length ≤ maxRecordLen
  unsynced_le : unsynced.length ≤ maxRecordLen
  cut_lt : cut < headerSize + unsynced.length

namespace Session

/-- The session leaves nothing in the file. -/
def Idle (s : Session) : Prop :=
  s.synced = [] ∧ s.cut = 0
  deriving Decidable

/-- After a session that has left a torn record, nothing is written any more. -/
def NoneBehindTorn (ss : List Session) : Prop :=
  ss.Pairwise fun s later => s.cut = 0 ∨ later.Idle
  deriving Decidable

/-- All records the sessions synced, in order. -/
def allSynced (ss : List Session) : List WalRecord :=
  (ss.flatMap synced).map WalRecord.mk

lemma allSynced_snoc (ss : List Session) (s : Session) :
    allSynced (ss ++ [s]) = allSynced ss ++ s.synced.map WalRecord.mk := by
  simp [allSynced]

lemma allSynced_le (ss : List Session) : ∀ r ∈ allSynced ss, r.data.length ≤ maxRecordLen := by
  intro r hr
  simp only [allSynced, List.mem_map, List.mem_flatMap] at hr
  obtain ⟨d, ⟨s, -, hd⟩, rfl⟩ := hr
  exact s.synced_le d hd

variable [Crc32]

/-- The file a session leaves behind, from the file it found. -/
def crash (file : Bytes) (s : Session) : Bytes :=
  let w := (s.synced.foldl WalWriter.append (WalWriter.openFile file)).sync
  let w := w.append s.unsynced
  w.file ++ w.buffer.take s.cut

lemma crash_eq (file : Bytes) (s : Session) :
    s.crash file = file ++ encodeAll (s.synced.map WalRecord.mk) ++
      (WalRecord.encode ⟨s.unsynced⟩).take s.cut := by
  simp [crash]

/-- A file of the synced records and at most one torn record behind them. -/
def Holds (file : Bytes) (rs : List WalRecord) : Prop :=
  ∃ (d : Bytes) (k : ℕ), d.length ≤ maxRecordLen ∧ k < headerSize + d.length ∧
    file = encodeAll rs ++ (WalRecord.encode ⟨d⟩).take k

lemma Holds.readAll {file : Bytes} {rs : List WalRecord} (h : Holds file rs)
    (hrs : ∀ r ∈ rs, r.data.length ≤ maxRecordLen) : WalReader.readAll file = .ok rs := by
  obtain ⟨d, k, hd, hk, rfl⟩ := h
  rw [WalReader.readAll_encodeAll_append hrs, WalReader.readAll_take_encode hd hk]
  simp [Except.map]

lemma run_crash_of_whole {ss : List Session} (h : ∀ s ∈ ss, s.cut = 0) :
    run crash [] ss = encodeAll (allSynced ss) := by
  induction ss using List.reverseRecOn with
  | nil => rfl
  | append_singleton ss s ih =>
    obtain ⟨hss, hs⟩ := List.forall_mem_append.mp h
    rw [run_snoc, crash_eq, ih hss, List.forall_mem_singleton.mp hs, allSynced_snoc,
      encodeAll_append]
    simp

lemma NoneBehindTorn.holds {ss : List Session} (h : NoneBehindTorn ss) :
    Holds (run crash [] ss) (allSynced ss) := by
  induction ss using List.reverseRecOn with
  | nil => exact ⟨[], 0, by simp, by simp [headerSize], by simp [allSynced]⟩
  | append_singleton ss s ih =>
    obtain ⟨hss, -, hlast⟩ := List.pairwise_append.mp h
    rw [run_snoc, allSynced_snoc]
    by_cases hidle : s.Idle
    · obtain ⟨d, k, hd, hk, hfile⟩ := ih hss
      refine ⟨d, k, hd, hk, ?_⟩
      simp [crash_eq, hidle.1, hidle.2, hfile]
    · -- the sessions before have left whole records only
      refine ⟨s.unsynced, s.cut, s.unsynced_le, s.cut_lt, ?_⟩
      rw [crash_eq, encodeAll_append, run_crash_of_whole fun x hx =>
        (hlast x hx s (List.mem_singleton_self s)).resolve_right hidle]

end Session

/-- In every sequence of sessions none of which writes behind a torn record, the reader returns
all records synced so far, in order. -/
theorem WalReader.readAll_sessions [Crc32] (ss : List Session) (h : Session.NoneBehindTorn ss) :
    WalReader.readAll (run Session.crash [] ss) = .ok (Session.allSynced ss) :=
  h.holds.readAll (Session.allSynced_le ss)

/-- A clean stop followed by a crash in the middle of a record. -/
theorem WalReader.readAll_sessions_tornTail :
    letI := Crc32.ieee
    let ss : List Session :=
      [{ synced := [[1, 2], []], unsynced := [7], cut := 0, synced_le := by decide,
         unsynced_le := by decide, cut_lt := by decide },
       { synced := [[3]], unsynced := [4, 5], cut := 9, synced_le := by decide,
         unsynced_le := by decide, cut_lt := by decide }]
    Session.NoneBehindTorn ss ∧
      WalReader.readAll (run Session.crash [] ss) = .ok [⟨[1, 2]⟩, ⟨[]⟩, ⟨[3]⟩] := by
  let _ := Crc32.ieee
  exact ⟨by decide, WalReader.readAll_sessions _ (by decide)⟩

/-- A crash that leaves the header of a long record, and a session that syncs one short record
behind it. -/
def Session.behindTornHeader : List Session :=
  [{ synced := [], unsynced := List.replicate 16 0, cut := 8, synced_le := by simp,
     unsynced_le := by decide, cut_lt := by decide },
   { synced := [[1]], unsynced := [], cut := 0, synced_le := by decide,
     unsynced_le := by decide, cut_lt := by decide }]

/-- Whatever the checksum, the record synced by the second session is not read back. -/
theorem Session.behindTornHeader_lost : ∃ ss : List Session, ∀ _ : Crc32,
    WalReader.readAll (run Session.crash [] ss) ≠ .ok (Session.allSynced ss) := by
  refine ⟨Session.behindTornHeader, fun _ => ?_⟩
  have hread : WalReader.readAll (run Session.crash [] Session.behindTornHeader) = .ok [] :=
    WalReader.readAll_of_decode_corruption rfl
  rw [hread]
  decide

end Raftrust.Storage

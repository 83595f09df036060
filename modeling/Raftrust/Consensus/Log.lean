import Raftrust.Consensus.Message
import Raftrust.Storage.Wal.File

/-!
# The Raft log

Entries in memory, mirrored to a write-ahead log. An index is turned into a position relative to
the snapshot the log starts from.
-/

namespace Raftrust.Consensus

open Lib Storage

structure RaftLog where
  entries : List LogEntry
  wal : WalWriter
  snapshotIndex : LogIndex
  snapshotTerm : Term
  deriving DecidableEq, Repr

/-- A failing write to the log file: the writer as the failed call leaves it, whatever part of the
records it got to buffer or flush, and the error it reports. -/
structure WalFault where
  wal : WalWriter
  error : Error
  deriving DecidableEq, Repr

namespace RaftLog

/-! ### Entries on disk -/

def typeByte : EntryType → Byte
  | .normal => 0
  | .configChange => 1
  | .noop => 2

def encodeEntry (entry : LogEntry) : Bytes :=
  toLe 8 entry.index ++ toLe 8 entry.term ++ [typeByte entry.entryType] ++
    toLe 4 entry.data.length ++ entry.data

def decodeType (typeByte : Byte) : Except Error EntryType :=
  match typeByte.val with
  | 0 => .ok .normal
  | 1 => .ok .configChange
  | 2 => .ok .noop
  | t => .error (.corruption s!"unknown entry type: {t}")

/-- Read an entry back. Taking the data out of a record that is shorter than its length field says
is a slice out of range. -/
def decodeEntry (data : Bytes) : Except Abort LogEntry :=
  if data.length < 21 then .error (.error (.corruption "log entry too short"))
  else
    match decodeType (data.getD 16 0) with
    | .error e => .error (.error e)
    | .ok entryType =>
      let dataLen := fromLe ((data.drop 17).take 4)
      if data.length < 21 + dataLen then .error .panicked
      else
        .ok { index := fromLe (data.take 8)
              term := fromLe ((data.drop 8).take 8)
              data := (data.drop 21).take dataLen
              entryType := entryType }

/-! ### Operations -/

section

variable [Crc32]

/-- Open the log over the bytes of its file, replaying the records. A file that does not exist yet
is an empty one. -/
def openFile (file : Bytes) : Except Abort RaftLog := do
  let records ← (WalReader.readAll file).mapError Abort.error
  let entries ← records.mapM fun record => decodeEntry record.data
  return { entries := entries, wal := WalWriter.openFile file, snapshotIndex := 0,
           snapshotTerm := 0 }

/-- Append entries: to the file first, and to memory when that succeeded. -/
def append (log : RaftLog) (entries : List LogEntry) (fault : Option WalFault) :
    RaftLog × Except Error Unit :=
  match fault with
  | none =>
    ({ log with
        wal := ((entries.map encodeEntry).foldl WalWriter.append log.wal).sync
        entries := log.entries ++ entries },
      .ok ())
  | some f => ({ log with wal := f.wal }, .error f.error)

end

def get (log : RaftLog) (index : LogIndex) : Option LogEntry :=
  if index = 0 ∨ index ≤ log.snapshotIndex then none
  else log.entries[index - log.snapshotIndex - 1]?

def lastIndex (log : RaftLog) : LogIndex :=
  match log.entries.getLast? with
  | none => log.snapshotIndex
  | some e => e.index

def lastTerm (log : RaftLog) : Term :=
  match log.entries.getLast? with
  | none => log.snapshotTerm
  | some e => e.term

def termAt (log : RaftLog) (index : LogIndex) : Option Term :=
  if index = 0 then some 0
  else if index = log.snapshotIndex then some log.snapshotTerm
  else (log.get index).map (·.term)

def matchTerm (log : RaftLog) (index : LogIndex) (term : Term) : Bool :=
  log.termAt index == some term

def entriesFrom (log : RaftLog) (startIndex : LogIndex) : List LogEntry :=
  if startIndex ≤ log.snapshotIndex then log.entries
  else
    let vecIdx := startIndex - log.snapshotIndex - 1
    if log.entries.length ≤ vecIdx then [] else log.entries.drop vecIdx

/-- Drop the entries after `index`. The file keeps them. -/
def truncateAfter (log : RaftLog) (index : LogIndex) : RaftLog :=
  if index ≤ log.snapshotIndex then { log with entries := [] }
  else { log with entries := log.entries.take (index - log.snapshotIndex) }

/-- Discard the entries up to a snapshot. -/
def compact (log : RaftLog) (snapshotIndex : LogIndex) (snapshotTerm : Term) : RaftLog :=
  if snapshotIndex ≤ log.snapshotIndex then log
  else
    let discard := snapshotIndex - log.snapshotIndex
    { log with
      entries := if log.entries.length ≤ discard then [] else log.entries.drop discard
      snapshotIndex := snapshotIndex
      snapshotTerm := snapshotTerm }

end RaftLog

end Raftrust.Consensus

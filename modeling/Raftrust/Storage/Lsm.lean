import Raftrust.Storage.Wal.File
import Raftrust.Storage.Compaction

/-!
# The LSM tree

Writes go to the log and to the active memtable; a full memtable is flushed to an SSTable of
level 0. Reads ask the memtables and then the SSTables level by level. Calls do not overlap, and
no file operation fails other than for a missing file.
-/

namespace Raftrust.Storage

open Lib

def numLevels : ℕ := 7

/-! ### Logged operations -/

inductive WalOp where
  | put (key value : Bytes)
  | delete (key : Bytes)
  deriving DecidableEq, Repr

namespace WalOp

def encode : WalOp → Bytes
  | put key value => 1 :: toLe 4 key.length ++ key ++ toLe 4 value.length ++ value
  | delete key => 2 :: toLe 4 key.length ++ key

/-- Decode a logged operation. Slices that leave the record panic. -/
def decode : Bytes → Except Abort WalOp
  | [] => .error (.error (.corruption "empty WAL op"))
  | tag :: rest =>
    if tag = 1 then
      let keyLen := fromLe (rest.take 4)
      let afterKey := (rest.drop 4).drop keyLen
      let valLen := fromLe (afterKey.take 4)
      if rest.length < 4 + keyLen + 4 + valLen then .error .panicked
      else .ok (.put ((rest.drop 4).take keyLen) ((afterKey.drop 4).take valLen))
    else if tag = 2 then
      let keyLen := fromLe (rest.take 4)
      if rest.length < 4 + keyLen then .error .panicked
      else .ok (.delete ((rest.drop 4).take keyLen))
    else .error (.error (.corruption s!"unknown WAL op tag: {tag.val}"))

def apply (m : MemTable) : WalOp → MemTable
  | put key value => m.put key value
  | delete key => m.delete key

end WalOp

/-! ### The tree -/

structure LsmConfig where
  memtableSizeLimit : ℕ
  l0CompactionTrigger : ℕ
  levelSizeRatio : ℕ
  deriving DecidableEq, Repr

def LsmConfig.default : LsmConfig where
  memtableSizeLimit := 4 * 1024 * 1024
  l0CompactionTrigger := 4
  levelSizeRatio := 10

def LsmConfig.compaction (config : LsmConfig) : CompactionConfig where
  l0CompactionTrigger := config.l0CompactionTrigger
  levelSizeRatio := config.levelSizeRatio

/-- The order in which SSTables are read: by level, and the newest of a level first. -/
def ReadsBefore {τ : Type} (a b : SSTableEntry × τ) : Prop :=
  a.1.level < b.1.level ∨ a.1.level = b.1.level ∧ b.1.id ≤ a.1.id

instance {τ : Type} : DecidableRel (@ReadsBefore τ) := fun a b =>
  inferInstanceAs (Decidable (a.1.level < b.1.level ∨ a.1.level = b.1.level ∧ b.1.id ≤ a.1.id))

/-- Calls of a tree, with the configuration that it is reopened with. -/
inductive TreeOp (C : Type) where
  | put (key value : Bytes)
  | delete (key : Bytes)
  | flush
  | maybeCompact
  | reopen (config : C)
  deriving DecidableEq, Repr

@[ext]
structure LsmTree where
  activeMemtable : MemTable
  immutableMemtables : List MemTable
  manifest : Manifest
  wal : WalWriter
  sstableCache : List (SSTableEntry × SSTable)
  config : LsmConfig
  dir : Directory

/-- The manifest that is saved, or a new one. -/
abbrev Directory.saved (dir : Directory) : Manifest :=
  dir.manifest.getD (Manifest.new numLevels)

namespace LsmTree

/-- The SSTables of the manifest whose files exist, with their contents. -/
def loadCache (m : Manifest) (dir : Directory) : List (SSTableEntry × SSTable) :=
  m.levels.flatten.filterMap fun e => (dir.tables e.fileName).map fun t => (e, t)

variable [Crc32]

/-- Open the tree over a directory and the bytes of its log, if there is one. -/
def openDir (dir : Directory) (walFile : Option Bytes) (config : LsmConfig) :
    Except Abort LsmTree := do
  let manifest := dir.saved
  let records ← (WalReader.readAll (walFile.getD [])).mapError Abort.error
  let ops ← records.mapM fun record => WalOp.decode record.data
  return {
    activeMemtable := ops.foldl WalOp.apply (MemTable.new config.memtableSizeLimit)
    immutableMemtables := []
    manifest := manifest
    wal := WalWriter.openFile (walFile.getD [])
    sstableCache := loadCache manifest dir
    config := config
    dir := dir }

omit [Crc32] in
/-- Flush the active memtable to an SSTable. The frozen memtable leaves the immutable ones again
before the call returns. -/
def flushMemtable (s : LsmTree) : LsmTree :=
  if s.activeMemtable.isEmpty then s
  else
    let table := s.activeMemtable.toTable
    let (sstId, fileName, manifest) := s.manifest.nextSstFilename
    let sstEntry : SSTableEntry :=
      { id := sstId, level := 0, fileName := fileName
        minKey := (table.entries.head?.map (·.key)).getD []
        maxKey := (table.entries.getLast?.map (·.key)).getD [] }
    let manifest := manifest.addSstable sstEntry
    { s with
      activeMemtable := MemTable.new s.config.memtableSizeLimit
      manifest := manifest
      wal := WalWriter.openFile []
      sstableCache := s.sstableCache ++ [(sstEntry, table)]
      dir := { s.dir.writeTable fileName table with manifest := some manifest } }

omit [Crc32] in
/-- Run compaction if needed, and load the SSTables anew. -/
def maybeCompact (s : LsmTree) : Except Error LsmTree :=
  match s.config.compaction.needsCompaction s.manifest with
  | none => .ok s
  | some level => do
    let (manifest, dir, _) ← LeveledCompaction.compact s.manifest s.dir level
    let dir := { dir with manifest := some manifest }
    return { s with manifest := manifest, dir := dir, sstableCache := loadCache manifest dir }

omit [Crc32] in
/-- What follows a write: a full memtable is flushed, and compaction runs if needed. -/
def afterWrite (s : LsmTree) : Except Error LsmTree :=
  if s.activeMemtable.isFull then s.flushMemtable.maybeCompact else .ok s

def put (s : LsmTree) (key value : Bytes) : Except Error LsmTree :=
  { s with
    wal := (s.wal.append (WalOp.put key value).encode).sync
    activeMemtable := s.activeMemtable.put key value }.afterWrite

def delete (s : LsmTree) (key : Bytes) : Except Error LsmTree :=
  { s with
    wal := (s.wal.append (WalOp.delete key).encode).sync
    activeMemtable := s.activeMemtable.delete key }.afterWrite

omit [Crc32] in
/-- What the memtables say about a key, newest first. -/
def getMemtables (s : LsmTree) (key : Bytes) : Option (Option Bytes) :=
  (s.activeMemtable.get key).or (s.immutableMemtables.reverse.findSome? (·.get key))

omit [Crc32] in
/-- What the SSTables say about a key. -/
def getSstables (s : LsmTree) (key : Bytes) : Option (Option Bytes) :=
  (s.sstableCache.insertionSort ReadsBefore).findSome? (·.2.get key)

omit [Crc32] in
/-- The value of a key. A tombstone ends the search. -/
def get (s : LsmTree) (key : Bytes) : Option Bytes :=
  ((s.getMemtables key).or (s.getSstables key)).join

/-! ### Steps -/

def execute (s : LsmTree) : TreeOp LsmConfig → Except Abort LsmTree
  | .put key value => (s.put key value).mapError Abort.error
  | .delete key => (s.delete key).mapError Abort.error
  | .flush => .ok s.flushMemtable
  | .maybeCompact => s.maybeCompact.mapError Abort.error
  | .reopen config => openDir s.dir (some s.wal.file) config

end LsmTree

end Raftrust.Storage

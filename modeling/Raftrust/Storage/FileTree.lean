import Raftrust.Storage.Scan
import Raftrust.Storage.Sst.File

/-!
# The LSM tree over files

The tree of `LsmTree` with its SSTables as the bytes of their files: they are encoded when a
memtable is flushed or levels are merged, and read through their index and filter.
-/

namespace Raftrust.Storage

open Lib

/-- The configuration with the block size that only files depend on. -/
structure FileConfig extends LsmConfig where
  blockSize : ℕ
  deriving DecidableEq, Repr

def FileConfig.default : FileConfig where
  toLsmConfig := .default
  blockSize := 4096

/-- The data directory: the saved manifest and the bytes of the SSTable files by name. -/
structure Files where
  manifest : Option Manifest
  tables : String → Option Bytes

namespace Files

/-- The manifest that is saved, or a new one. -/
abbrev saved (dir : Files) : Manifest :=
  dir.manifest.getD (Manifest.new numLevels)

def openTable (dir : Files) (name : String) : Except Abort SSTableReader :=
  match dir.tables name with
  | some data => SSTableReader.openBytes data
  | none => .error (.error (.io "No such file or directory (os error 2)"))

/-- The entries of an SSTable file. -/
def readTable (dir : Files) (name : String) : Except Abort (List BlockEntry) := do
  (← dir.openTable name).iter

def writeTable (dir : Files) (name : String) (data : Bytes) : Files :=
  { dir with tables := fun n => if n = name then some data else dir.tables n }

def removeTables (dir : Files) (names : List String) : Files :=
  { dir with tables := fun n => if n ∈ names then none else dir.tables n }

lemma writeTable_tables_self (dir : Files) (name : String) (data : Bytes) :
    (dir.writeTable name data).tables name = some data :=
  if_pos rfl

lemma writeTable_tables_of_ne (dir : Files) {n name : String} (h : n ≠ name) (data : Bytes) :
    (dir.writeTable name data).tables n = dir.tables n :=
  if_neg h

lemma removeTables_tables_of_notMem (dir : Files) {n : String} {names : List String}
    (h : n ∉ names) : (dir.removeTables names).tables n = dir.tables n :=
  if_neg h

/-- Open the SSTables of the manifest whose files exist. -/
def loadReaders (dir : Files) : List SSTableEntry →
    Except Abort (List (SSTableEntry × SSTableReader))
  | [] => return []
  | e :: es =>
    match dir.tables e.fileName with
    | none => dir.loadReaders es
    | some data => do
      let reader ← SSTableReader.openBytes data
      return (e, reader) :: (← dir.loadReaders es)

end Files

/-- The change of a directory of files. A table is written in blocks of the given size. -/
def FileOp.applyFile [BloomHash] (blockSize : ℕ) (dir : Files) : FileOp → Files
  | writeTable name table => dir.writeTable name (SSTableWriter.write blockSize table.entries)
  | removeTable name => dir.removeTables [name]
  | saveManifest m => { dir with manifest := some m }

/-! ### The tree -/

structure FileTree where
  activeMemtable : MemTable
  immutableMemtables : List MemTable
  manifest : Manifest
  wal : WalWriter
  sstableCache : List (SSTableEntry × SSTableReader)
  config : FileConfig
  dir : Files

namespace FileTree

/-- The table that a flush writes, if any. -/
def flushTables (s : FileTree) : List SSTable :=
  if s.activeMemtable.isEmpty then [] else [s.activeMemtable.toTable]

/-- The changes of the directory by a compaction, if it is due. -/
def compactionOps (s : FileTree) : List FileOp :=
  s.config.compaction.fileOps s.dir.readTable s.manifest

/-- The table that a compaction writes, if any. -/
def compactTables (s : FileTree) : List SSTable :=
  s.compactionOps.filterMap FileOp.table?

section

variable [Crc32]

/-- What a write does before a full memtable is flushed. -/
def logged (s : FileTree) (op : WalOp) : FileTree :=
  { s with
    wal := (s.wal.append op.encode).sync
    activeMemtable := op.apply s.activeMemtable }

/-- Open the tree over a directory and the bytes of its log, if there is one. -/
def openDir (dir : Files) (walFile : Option Bytes) (config : FileConfig) :
    Except Abort FileTree := do
  let manifest := dir.saved
  let records ← (WalReader.readAll (walFile.getD [])).mapError Abort.error
  let ops ← records.mapM fun record => WalOp.decode record.data
  let sstableCache ← dir.loadReaders manifest.entries
  return {
    activeMemtable := ops.foldl WalOp.apply (MemTable.new config.memtableSizeLimit)
    immutableMemtables := []
    manifest := manifest
    wal := WalWriter.openFile (walFile.getD [])
    sstableCache := sstableCache
    config := config
    dir := dir }

end

section

variable [BloomHash]

/-- Flush the active memtable to an SSTable file and open it. -/
def flushMemtable (s : FileTree) : Except Abort FileTree :=
  if s.activeMemtable.isEmpty then .ok s
  else do
    let entries := s.activeMemtable.iter
    let (sstId, fileName, manifest) := s.manifest.nextSstFilename
    let data := SSTableWriter.write s.config.blockSize entries
    let sstEntry : SSTableEntry :=
      { id := sstId, level := 0, fileName := fileName
        minKey := (entries.head?.map (·.key)).getD []
        maxKey := (entries.getLast?.map (·.key)).getD [] }
    let manifest := manifest.addSstable sstEntry
    let reader ← SSTableReader.openBytes data
    return { s with
      activeMemtable := MemTable.new s.config.memtableSizeLimit
      manifest := manifest
      wal := WalWriter.openFile []
      sstableCache := s.sstableCache ++ [(sstEntry, reader)]
      dir := { s.dir.writeTable fileName data with manifest := some manifest } }

/-- Run compaction if needed, and load the SSTables anew. -/
def maybeCompact (s : FileTree) : Except Abort FileTree :=
  match s.config.compaction.needsCompaction s.manifest with
  | none => .ok s
  | some level => do
    let (manifest, ops, _) ← LeveledCompaction.compactOps s.dir.readTable s.manifest level
    let dir := ops.foldl (FileOp.applyFile s.config.blockSize) s.dir
    let dir := { dir with manifest := some manifest }
    let sstableCache ← dir.loadReaders manifest.entries
    return { s with manifest := manifest, dir := dir, sstableCache := sstableCache }

/-- What follows a write: a full memtable is flushed, and compaction runs if needed. -/
def afterWrite (s : FileTree) : Except Abort FileTree :=
  if s.activeMemtable.isFull then do (← s.flushMemtable).maybeCompact else .ok s

/-- The tables that follow a write. -/
def writeTables (s : FileTree) : List SSTable :=
  if s.activeMemtable.isFull then
    s.flushTables ++ match s.flushMemtable with
      | .ok s' => s'.compactTables
      | .error _ => []
  else []

variable [Crc32]

def put (s : FileTree) (key value : Bytes) : Except Abort FileTree :=
  { s with
    wal := (s.wal.append (WalOp.put key value).encode).sync
    activeMemtable := s.activeMemtable.put key value }.afterWrite

def delete (s : FileTree) (key : Bytes) : Except Abort FileTree :=
  { s with
    wal := (s.wal.append (WalOp.delete key).encode).sync
    activeMemtable := s.activeMemtable.delete key }.afterWrite

end

/-! ### Reads -/

variable [BloomHash]

/-- The value of a key. The memtables are asked newest first, and then the SSTables. -/
def get (s : FileTree) (key : Bytes) : Except Abort (Option Bytes) := do
  let memtables := (s.activeMemtable.get key).or
    (s.immutableMemtables.reverse.findSome? (·.get key))
  match memtables with
  | some result => return result
  | none =>
    let sstables := s.sstableCache.insertionSort ReadsBefore
    return (← sstables.findSomeM? fun p => p.2.get key).join

omit [BloomHash] in
/-- The live pairs with a key in `[start, stop)`. -/
def scan (s : FileTree) (start stop : Bytes) : Except Abort (List (Bytes × Bytes)) := do
  let ssts ← (s.sstableCache.insertionSort ScansBefore).mapM fun p => p.2.scan start stop
  let immutables ← s.immutableMemtables.mapM fun m => m.scan start stop
  let active ← s.activeMemtable.scan start stop
  return livePairs ((ssts ++ immutables ++ [active]).foldl insertAll ∅)

/-! ### Runs -/

abbrev Op := TreeOp FileConfig

variable [Crc32]

def execute (s : FileTree) : Op → Except Abort FileTree
  | .put key value => s.put key value
  | .delete key => s.delete key
  | .flush => s.flushMemtable
  | .maybeCompact => s.maybeCompact
  | .reopen config => openDir s.dir (some s.wal.file) config

/-- The tree after the operations `ops` on a new directory. -/
def run (config : FileConfig) (ops : List Op) : Except Abort FileTree := do
  let s ← openDir ⟨none, fun _ => none⟩ none config
  ops.foldlM execute s

/-- The tables that a step writes to files. -/
def written (s : FileTree) : Op → List SSTable
  | .put key value => (s.logged (.put key value)).writeTables
  | .delete key => (s.logged (.delete key)).writeTables
  | .flush => s.flushTables
  | .maybeCompact => s.compactTables
  | .reopen _ => []

end FileTree

end Raftrust.Storage

import Raftrust.Lib.Layers
import Raftrust.Storage.Manifest
import Raftrust.Storage.Tables

/-!
# Leveled compaction

Compaction merges all SSTables of a level with those of the next level that their key range
overlaps, and puts the result into the next level as one SSTable.
-/

namespace Raftrust.Storage

open Lib

/-- The data directory: the saved manifest and the SSTable files by name. -/
structure Directory where
  manifest : Option Manifest
  tables : String → Option SSTable

namespace Directory

/-- The entries of an SSTable file. -/
def readTable (dir : Directory) (name : String) : Except Error (List BlockEntry) :=
  match dir.tables name with
  | some table => .ok table.entries
  | none => .error (.io "No such file or directory (os error 2)")

def writeTable (dir : Directory) (name : String) (table : SSTable) : Directory :=
  { dir with tables := fun n => if n = name then some table else dir.tables n }

def removeTables (dir : Directory) (names : List String) : Directory :=
  { dir with tables := fun n => if n ∈ names then none else dir.tables n }

end Directory

/-- A change of the data directory. Saving the manifest is one, by the rename that ends it. -/
inductive FileOp where
  | writeTable (name : String) (table : SSTable)
  | removeTable (name : String)
  | saveManifest (m : Manifest)

namespace FileOp

def apply (dir : Directory) : FileOp → Directory
  | writeTable name table => dir.writeTable name table
  | removeTable name => dir.removeTables [name]
  | saveManifest m => { dir with manifest := some m }

/-- The table that is written. -/
def table? : FileOp → Option SSTable
  | writeTable _ table => some table
  | _ => none

/-- The file that is removed. -/
def removed? : FileOp → Option String
  | removeTable name => some name
  | _ => none

end FileOp

structure CompactionConfig where
  l0CompactionTrigger : ℕ
  levelSizeRatio : ℕ
  deriving DecidableEq, Repr

structure CompactionResult where
  removedIds : List ℕ
  newEntries : List SSTableEntry
  deriving DecidableEq, Repr

/-- The level to compact from, if there is one. The size target of a level is computed in
`usize`, which wraps around in a release build. -/
def CompactionConfig.needsCompaction (config : CompactionConfig) (m : Manifest) : Option ℕ :=
  if config.l0CompactionTrigger ≤ m.levelCount 0 then some 0
  else
    (List.range' 1 (m.numLevels - 2)).find? fun level =>
      config.l0CompactionTrigger * config.levelSizeRatio ^ level % 2 ^ 64 < m.levelCount level

namespace LeveledCompaction

/-- The entry's key range meets `[minKey, maxKey]`. -/
def overlaps (minKey maxKey : Bytes) (e : SSTableEntry) : Bool :=
  e.minKey ≤ maxKey ∧ minKey ≤ e.maxKey

/-- Merge-sort by key. Of several entries of a key the first survives. -/
def mergeEntries (entries : List BlockEntry) : SSTable where
  entries := stableMerge BlockEntry.key entries
  sorted := stableMerge_sorted entries

/-- Replace the SSTables that were read by one with their merged entries, or by none if nothing is
left of these. Tombstones are left out on the deepest level. Returns the manifest, the changes of
the directory in their order, and the result. -/
def mergeOps (m : Manifest) (targetLevel : ℕ) (inputs : List SSTableEntry) (allEntries : SSTable) :
    Manifest × List FileOp × CompactionResult :=
  let isDeepest := m.numLevels - 1 ≤ targetLevel
  let oldIds := inputs.map (·.id)
  if allEntries.entries = [] then (m.removeSstables oldIds, [], ⟨oldIds, []⟩)
  else
    let (sstId, fileName, m) := m.nextSstFilename
    let filteredEntries := if isDeepest then allEntries.dropTombstones else allEntries
    match filteredEntries.entries.head?, filteredEntries.entries.getLast? with
    | some first, some last =>
      let newEntry : SSTableEntry :=
        { id := sstId, level := targetLevel, fileName := fileName, minKey := first.key,
          maxKey := last.key }
      ((m.removeSstables oldIds).addSstable newEntry,
        .writeTable fileName filteredEntries :: inputs.map fun e => .removeTable e.fileName,
        ⟨oldIds, [newEntry]⟩)
    | _, _ => (m.removeSstables oldIds, [], ⟨oldIds, []⟩)

/-- Compact from `level` to `level + 1`. Files are read by `read` before anything is changed. -/
def compactOps {ε : Type} (read : String → Except ε (List BlockEntry)) (m : Manifest)
    (level : ℕ) : Except ε (Manifest × List FileOp × CompactionResult) :=
  let targetLevel := level + 1
  let sourceEntries := m.level level
  match (sourceEntries.map (·.minKey)).min?, (sourceEntries.map (·.maxKey)).max? with
  | some minKey, some maxKey => do
    let targetEntries := (m.level targetLevel).filter (overlaps minKey maxKey)
    let inputs := sourceEntries ++ targetEntries
    let tables ← inputs.mapM fun e => read e.fileName
    let allEntries := mergeEntries tables.flatten
    return mergeOps m targetLevel inputs allEntries
  -- only an empty level has no least and no greatest key
  | _, _ => return (m, [], ⟨[], []⟩)

/-- The compaction of a directory of tables. -/
def compact (m : Manifest) (dir : Directory) (level : ℕ) :
    Except Error (Manifest × Directory × CompactionResult) := do
  let (m, ops, result) ← compactOps dir.readTable m level
  return (m, ops.foldl FileOp.apply dir, result)

end LeveledCompaction

/-- The changes of the directory when compaction is due and the files can be read. The manifest is
saved last. -/
def CompactionConfig.fileOps {ε : Type} (config : CompactionConfig)
    (read : String → Except ε (List BlockEntry)) (m : Manifest) : List FileOp :=
  match config.needsCompaction m with
  | none => []
  | some level =>
    match LeveledCompaction.compactOps read m level with
    | .ok (manifest, ops, _) => ops ++ [.saveManifest manifest]
    | .error _ => []

end Raftrust.Storage

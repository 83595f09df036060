import Raftrust.Consensus.Node

/-!
# Snapshot files

A snapshot is a data file and a metadata file, both named by the last index it includes. The latest
snapshot is the one with the greatest index among the metadata files. Metadata is saved and loaded
as a value; its JSON form comes from a library.
-/

namespace Raftrust.Consensus

open Storage

/-- The files of the snapshot directory, by index. -/
structure SnapshotDir where
  data : List (LogIndex × Bytes)
  metas : List (LogIndex × SnapshotMetadata)

namespace SnapshotDir

def empty : SnapshotDir where
  data := []
  metas := []

/-- Write a file, over the one that has its name. -/
def writeFile {α : Type} (files : List (LogIndex × α)) (index : LogIndex) (content : α) :
    List (LogIndex × α) :=
  (index, content) :: files.filter fun f => f.1 ≠ index

def cleanupOldSnapshots (dir : SnapshotDir) (keepIndex : LogIndex) : SnapshotDir where
  data := dir.data.filter fun f => keepIndex ≤ f.1
  metas := dir.metas.filter fun f => keepIndex ≤ f.1

/-- Write the two files of a snapshot and remove the older ones. -/
def save (dir : SnapshotDir) (metadata : SnapshotMetadata) (data : Bytes) : SnapshotDir :=
  cleanupOldSnapshots
    { data := writeFile dir.data metadata.lastIncludedIndex data
      metas := writeFile dir.metas metadata.lastIncludedIndex metadata }
    metadata.lastIncludedIndex

def findLatestSnapshot (dir : SnapshotDir) : Option LogIndex :=
  dir.metas.foldl (fun latest f => some (latest.elim f.1 fun l => max l f.1)) none

section

variable [Crc32]

def createSnapshot (dir : SnapshotDir) (lastIndex : LogIndex) (lastTerm : Term) (data : Bytes) :
    SnapshotDir × SnapshotMetadata :=
  let metadata : SnapshotMetadata :=
    { lastIncludedIndex := lastIndex
      lastIncludedTerm := lastTerm
      checksum := Crc32.hash data
      size := data.length }
  (dir.save metadata data, metadata)

/-- Receive a snapshot from a leader. -/
def receiveSnapshot (dir : SnapshotDir) (metadata : SnapshotMetadata) (data : Bytes) :
    Except Error SnapshotDir :=
  let computed := Crc32.hash data
  if computed ≠ metadata.checksum then
    let expected := hex32 metadata.checksum.toNat
    let computed := hex32 computed.toNat
    .error (.corruption
      s!"received snapshot checksum mismatch: expected={expected}, computed={computed}")
  else .ok (dir.save metadata data)

/-- Load the latest snapshot, if there is one. -/
def loadLatest (dir : SnapshotDir) : Except Error (Option (SnapshotMetadata × Bytes)) :=
  match dir.findLatestSnapshot with
  | none => .ok none
  | some index =>
    match dir.metas.lookup index, dir.data.lookup index with
    | some metadata, some data =>
      let computed := Crc32.hash data
      if computed ≠ metadata.checksum then
        let stored := hex32 metadata.checksum.toNat
        let computed := hex32 computed.toNat
        .error (.corruption s!"snapshot checksum mismatch: stored={stored}, computed={computed}")
      else .ok (some (metadata, data))
    | _, _ => .error (.io "No such file or directory (os error 2)")

lemma loadLatest_save {dir : SnapshotDir} {metadata : SnapshotMetadata} {data : Bytes}
    (hlater : ∀ f ∈ dir.metas, f.1 ≤ metadata.lastIncludedIndex)
    (hsum : Crc32.hash data = metadata.checksum) :
    (dir.save metadata data).loadLatest = .ok (some (metadata, data)) := by
  have hmetas : (dir.save metadata data).metas = [(metadata.lastIncludedIndex, metadata)] := by
    simp only [save, cleanupOldSnapshots, writeFile]
    rw [List.filter_cons_of_pos (by simp), List.filter_eq_nil_iff.mpr]
    intro f hf
    have hle := hlater f (List.mem_of_mem_filter hf)
    have hne : f.1 ≠ metadata.lastIncludedIndex := by simpa using (List.mem_filter.mp hf).2
    simp only [decide_eq_true_eq]
    exact fun hge => hne (le_antisymm hle hge)
  have hdata : (dir.save metadata data).data.lookup metadata.lastIncludedIndex = some data := by
    simp [save, cleanupOldSnapshots, writeFile]
  simp [loadLatest, findLatestSnapshot, hmetas, hdata, hsum]

/-- A snapshot that is taken at an index no older one is above is the latest from then on. -/
theorem loadLatest_createSnapshot {dir : SnapshotDir} {i : LogIndex}
    (hlater : ∀ f ∈ dir.metas, f.1 ≤ i) (t : Term) (data : Bytes) :
    (dir.createSnapshot i t data).1.loadLatest =
      .ok (some ((dir.createSnapshot i t data).2, data)) :=
  loadLatest_save hlater rfl

end

end SnapshotDir

end Raftrust.Consensus

import Raftrust.Consensus.CatchUp
import Raftrust.Consensus.Snapshot

/-!
# Backup and restore

A backup is the latest snapshot behind a header that describes the node. The header holds the term,
the commit index and the applied index of the node at the time of the backup, not the point at which
the snapshot was taken, and a restored node takes the commit index and the term for that point.
-/

namespace Raftrust.Server

open Consensus Lib Storage

structure BackupMetadata where
  nodeId : NodeId
  term : Term
  commitIndex : LogIndex
  appliedIndex : LogIndex
  revision : ℕ
  timestamp : ℕ
  deriving DecidableEq, Repr

/-- The JSON of backup metadata. -/
class BackupJson where
  toVec : BackupMetadata → Option Bytes
  fromSlice : Bytes → Option BackupMetadata

namespace BackupJson

def fieldText (name : List Char) (value : ℕ) : List Char :=
  ['"'] ++ name ++ ['"', ':'] ++ Nat.toDigits 10 value

def metadataText (m : BackupMetadata) : List Char :=
  ['\x7b'] ++
    [','].intercalate
      [fieldText ['n', 'o', 'd', 'e', '_', 'i', 'd'] m.nodeId,
        fieldText ['t', 'e', 'r', 'm'] m.term,
        fieldText ['c', 'o', 'm', 'm', 'i', 't', '_', 'i', 'n', 'd', 'e', 'x'] m.commitIndex,
        fieldText ['a', 'p', 'p', 'l', 'i', 'e', 'd', '_', 'i', 'n', 'd', 'e', 'x'] m.appliedIndex,
        fieldText ['r', 'e', 'v', 'i', 's', 'i', 'o', 'n'] m.revision,
        fieldText ['t', 'i', 'm', 'e', 's', 't', 'a', 'm', 'p'] m.timestamp] ++
    ['\x7d']

/-- The metadata as text. What is decoded is the text of one of the metadata that are given. -/
@[reducible] def text (metadata : List BackupMetadata) : BackupJson where
  toVec := fun m => some (ConfigJson.ascii (metadataText m))
  fromSlice := fun data => metadata.find? fun m => ConfigJson.ascii (metadataText m) = data

/-- The metadata is read back as it was written, and its text has a length of 32 bits. -/
def ReadsBack [BackupJson] (m : BackupMetadata) : Prop :=
  ∀ json ∈ toVec m, fromSlice json = some m ∧ json.length < 2 ^ 32

end BackupJson

/-! ### The blob -/

section

variable [BackupJson]

/-- Parse a backup blob into metadata and snapshot data. -/
def parseBackup (data : Bytes) : Option (BackupMetadata × Bytes) :=
  if data.length < 4 then none
  else
    let metaLen := fromLe (data.take 4)
    if data.length < 4 + metaLen then none
    else
      match BackupJson.fromSlice ((data.drop 4).take metaLen) with
      | none => none
      | some metadata => some (metadata, data.drop (4 + metaLen))

lemma parseBackup_blob {m : BackupMetadata} {json : Bytes}
    (hjson : BackupJson.fromSlice json = some m) (hlen : json.length < 2 ^ 32) (data : Bytes) :
    parseBackup (toLe 4 json.length ++ json ++ data) = some (m, data) := by
  have hsize : fromLe (toLe 4 json.length) = json.length := fromLe_toLe (by lia)
  have htake : (toLe 4 json.length ++ (json ++ data)).take 4 = toLe 4 json.length :=
    List.take_left' (toLe_length 4 _)
  have hrest : (toLe 4 json.length ++ (json ++ data)).drop 4 = json ++ data :=
    List.drop_left' (toLe_length 4 _)
  rw [List.append_assoc, parseBackup]
  simp only [htake, hrest, hsize, ← List.drop_drop, List.take_left, List.drop_left, hjson]
  simp

variable [Crc32]

/-- Create a backup of a node whose snapshots are in `dir`, at a revision of its store and a time in
seconds. -/
def createBackup (n : RaftNode) (dir : SnapshotDir) (revision timestamp : ℕ) :
    Option (BackupMetadata × Bytes) :=
  match dir.loadLatest with
  | .ok (some (_, snapData)) =>
    let metadata : BackupMetadata :=
      { nodeId := n.config.id
        term := n.term
        commitIndex := n.state.commitIndex
        appliedIndex := n.state.lastApplied
        revision := revision
        timestamp := timestamp }
    match BackupJson.toVec metadata with
    | none => none
    | some metaJson => some (metadata, toLe 4 metaJson.length ++ metaJson ++ snapData)
  | _ => none

end

/-! ### Restoring -/

/-- The errors of a call. -/
inductive Status where
  | invalidArgument (message : String)
  deriving DecidableEq, Repr

section

variable [Crc32] [BackupJson]

/-- Put the chunks together and install the snapshot in them. -/
def restore (n : RaftNode) (chunks : List Bytes) (files : SnapshotFiles) :
    RaftNode × Except Status Unit :=
  let data := chunks.flatten
  if data.isEmpty then (n, .error (.invalidArgument "empty restore data"))
  else
    match parseBackup data with
    | none => (n, .error (.invalidArgument "invalid backup format"))
    | some (metadata, snapshotData) =>
      let snapMeta : SnapshotMetadata :=
        { lastIncludedIndex := metadata.commitIndex
          lastIncludedTerm := metadata.term
          checksum := Crc32.hash snapshotData
          size := snapshotData.length }
      ((n.handleInstallSnapshot metadata.term metadata.nodeId snapMeta snapshotData files).1,
        .ok ())

/-! ### Round trip -/

variable {n : RaftNode} {dir : SnapshotDir} {revision timestamp : ℕ} {m : BackupMetadata}
  {blob : Bytes}

/-- A backup describes the node as it is and holds the latest snapshot. -/
lemma createBackup_eq_some {snapMeta : SnapshotMetadata} {d : Bytes}
    (hlatest : dir.loadLatest = .ok (some (snapMeta, d)))
    (h : createBackup n dir revision timestamp = some (m, blob)) :
    m.term = n.term ∧ m.commitIndex = n.state.commitIndex ∧
      ∃ json ∈ BackupJson.toVec m, blob = toLe 4 json.length ++ json ++ d := by
  simp only [createBackup, hlatest] at h
  split at h
  · cases h
  · next json hjson =>
    obtain ⟨rfl, rfl⟩ := Prod.mk.inj (Option.some.inj h)
    exact ⟨rfl, rfl, json, hjson, rfl⟩

/-- **Backup and restore.** The data of a backup comes back as it was. The restored node takes the
commit index and the term of the backed-up node for the snapshot point, so it has the right one
exactly if the snapshot was taken at that index and its last entry is of that term. -/
theorem restore_snapshotPoint_iff {snapMeta : SnapshotMetadata} {d : Bytes}
    (hlatest : dir.loadLatest = .ok (some (snapMeta, d)))
    (hbackup : createBackup n dir revision timestamp = some (m, blob))
    (hjson : BackupJson.ReadsBack m) {chunks : List Bytes} (hchunks : chunks.flatten = blob)
    (config : NodeConfig) (files : SnapshotFiles) :
    parseBackup blob = some (m, d) ∧
      let log := (restore (Cluster.freshNode config) chunks files).1.log
      (log.snapshotIndex = snapMeta.lastIncludedIndex ∧
          log.snapshotTerm = snapMeta.lastIncludedTerm) ↔
        if 0 < n.state.commitIndex ∧ files ≠ .writeFails then
          n.state.commitIndex = snapMeta.lastIncludedIndex ∧ n.term = snapMeta.lastIncludedTerm
        else snapMeta.lastIncludedIndex = 0 ∧ snapMeta.lastIncludedTerm = 0 := by
  obtain ⟨hterm, hcommit, json, hmem, hblob⟩ := createBackup_eq_some hlatest hbackup
  obtain ⟨hread, hlen⟩ := hjson json hmem
  have hparse : parseBackup blob = some (m, d) := by
    rw [hblob]
    exact parseBackup_blob hread hlen d
  refine ⟨hparse, ?_⟩
  have hrestore : (restore (Cluster.freshNode config) chunks files).1 =
      ((Cluster.freshNode config).handleInstallSnapshot m.term m.nodeId
        ⟨m.commitIndex, m.term, Crc32.hash d, d.length⟩ d files).1 := by
    have hne : blob.isEmpty = false := by
      rw [hblob]
      simp [toLe]
    simp [restore, hchunks, hne, hparse]
  dsimp only
  rw [hrestore]
  by_cases hinstalls : 0 < n.state.commitIndex ∧ files ≠ .writeFails
  · rw [if_pos hinstalls, RaftNode.handleInstallSnapshot_log (Nat.zero_le _)
      (hcommit ▸ hinstalls.1) rfl hinstalls.2, RaftLog.compact_of_lt _ (hcommit ▸ hinstalls.1)]
    dsimp only
    rw [hterm, hcommit]
  · have hrefused : m.commitIndex ≤ (Cluster.freshNode config).log.snapshotIndex ∨
        files = .writeFails := by
      rw [not_and_or, not_lt, not_not, ← hcommit] at hinstalls
      exact hinstalls
    rw [if_neg hinstalls, RaftNode.handleInstallSnapshot_log_of_refused hrefused]
    exact and_congr eq_comm eq_comm

end

/-- A node of term 3 with five committed entries, the first two of which are of term 1. -/
def backedUp : RaftNode :=
  let n := Cluster.freshNode ⟨1, [2, 3]⟩
  { n with
    state := { n.state with persistent := ⟨3, some 1⟩, commitIndex := 5, lastApplied := 5 }
    log := { n.log with
      entries := [⟨3, 1, [], .normal⟩, ⟨4, 3, [], .noop⟩, ⟨5, 3, [], .normal⟩]
      snapshotIndex := 2
      snapshotTerm := 1 } }

def backedUpMetadata : BackupMetadata where
  nodeId := 1
  term := 3
  commitIndex := 5
  appliedIndex := 5
  revision := 4
  timestamp := 1700000000

/-- Its snapshot at `i`. -/
def snapshotAt (i : LogIndex) (t : Term) : SnapshotDir :=
  letI := Crc32.ieee
  (SnapshotDir.empty.createSnapshot i t [115]).1

/-- A snapshot of everything that is committed. -/
theorem restore_snapshotPoint_iff_current :
    letI := Crc32.ieee
    letI := BackupJson.text [backedUpMetadata]
    ∃ blob, createBackup backedUp (snapshotAt 5 3) 4 1700000000 = some (backedUpMetadata, blob) ∧
      let log := (restore (Cluster.freshNode ⟨9, []⟩) [blob] .written).1.log
      log.snapshotIndex = 5 ∧ log.snapshotTerm = 3 := by
  let _ := Crc32.ieee
  let _ := BackupJson.text [backedUpMetadata]
  have hlatest : (snapshotAt 5 3).loadLatest = .ok (some (⟨5, 3, Crc32.hash [115], 1⟩, [115])) :=
    SnapshotDir.loadLatest_createSnapshot (by simp [SnapshotDir.empty]) 3 [115]
  have hjson : BackupJson.ReadsBack backedUpMetadata := by
    rintro json ⟨⟩
    decide +kernel
  have hbackup : createBackup backedUp (snapshotAt 5 3) 4 1700000000 =
      some (backedUpMetadata, _) := rfl
  exact ⟨_, hbackup, (restore_snapshotPoint_iff hlatest hbackup hjson (List.flatten_singleton)
    ⟨9, []⟩ .written).2.mpr (by decide)⟩

/-- The latest snapshot was taken at index 2 in term 1. The restored node believes it to reach
index 5, so the entries from 3 to 5 are never sent to it. -/
theorem laterCommit_restores_wrong_point :
    letI := Crc32.ieee
    letI := BackupJson.text [backedUpMetadata]
    ∃ blob, createBackup backedUp (snapshotAt 2 1) 4 1700000000 = some (backedUpMetadata, blob) ∧
      parseBackup blob = some (backedUpMetadata, [115]) ∧
      let log := (restore (Cluster.freshNode ⟨9, []⟩) [blob] .written).1.log
      log.snapshotIndex = 5 ∧ log.snapshotTerm = 3 := by
  refine ⟨_, rfl, ?_⟩
  decide +kernel

end Raftrust.Server

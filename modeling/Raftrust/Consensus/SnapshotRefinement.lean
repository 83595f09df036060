import Raftrust.Consensus.SnapshotCrash
import Raftrust.Lib.Table

/-!
# Snapshot files as a directory of values

Without crashes the files on disk, their names and their JSON are one way to hold the directory of
`SnapshotDir`, which maps indices to data and metadata. Every call keeps the two in step, and they
load the same.
-/

namespace Raftrust.Consensus

open Lib Storage

namespace SnapshotDir

section

variable {α : Type}

/-- What a file holds after one has been written and the older ones have been removed. -/
lemma lookup_filter_writeFile (files : List (LogIndex × α)) (index : LogIndex) (content : α)
    (i : LogIndex) :
    ((writeFile files index content).filter fun f => index ≤ f.1).lookup i =
      if i = index then some content else if i < index then none else files.lookup i := by
  rw [lookup_filter_key (writeFile files index content) (fun j => decide (index ≤ j)), writeFile,
    lookup_cons_eq_ite, lookup_filter_key files fun j => decide (j ≠ index)]
  rcases lt_trichotomy i index with hlt | rfl | hgt
  · simp [hlt, hlt.ne]
  · simp
  · simp [hgt.le, hgt.ne', hgt.not_gt]

end

lemma findLatestSnapshot_eq (dir : SnapshotDir) :
    dir.findLatestSnapshot = (dir.metas.map (·.1)).max? := by
  rw [← foldl_latest_eq_max?, List.foldl_map]
  rfl

end SnapshotDir

namespace SnapshotDisk

variable {files : SnapshotDisk} {order : ListingOrder}

lemma mem_oldSnapshots_iff {keepIndex i : LogIndex} {name : FileName}
    (hindex : fileIndex name = some i) :
    name ∈ files.oldSnapshots order keepIndex ↔ name ∈ files ∧ i < keepIndex := by
  rw [oldSnapshots, List.mem_filter, (order.perm _).mem_iff, ← AList.mem_keys, hindex]
  simp

/-- The cleanup removes what is older, and nothing else. -/
lemma lookup_cleanupOps {keepIndex i : LogIndex} {name : FileName}
    (hindex : fileIndex name = some i) :
    (SnapshotOp.applyAll files (files.cleanupOps order keepIndex)).lookup name =
      if i < keepIndex then none else files.lookup name := by
  rw [cleanupOps, SnapshotOp.lookup_applyAll_remove]
  simp only [mem_oldSnapshots_iff hindex]
  by_cases hmem : name ∈ files
  · simp [hmem]
  · simp [hmem, AList.lookup_eq_none.mpr hmem]

lemma Named.dataPath_notMem (hnamed : files.Named) {i : LogIndex} (hi : 2 ^ 64 ≤ i) :
    snapshotDataPath i ∉ files := by
  intro hmem
  obtain ⟨j, hj, heq | heq⟩ := hnamed _ hmem
  · rw [snapshotDataPath_inj.mp heq] at hi
    exact absurd hj (not_lt.mpr hi)
  · exact snapshotMetaPath_ne_dataPath heq.symm

lemma Named.metaPath_notMem (hnamed : files.Named) {i : LogIndex} (hi : 2 ^ 64 ≤ i) :
    snapshotMetaPath i ∉ files := by
  intro hmem
  obtain ⟨j, hj, heq | heq⟩ := hnamed _ hmem
  · exact snapshotMetaPath_ne_dataPath heq
  · rw [snapshotMetaPath_inj.mp heq] at hi
    exact absurd hj (not_lt.mpr hi)

section

variable [SnapshotJson]

/-- The files hold what the directory of values holds. -/
structure Represents (files : SnapshotDisk) (dir : SnapshotDir) : Prop where
  data : ∀ i, files.lookup (snapshotDataPath i) = dir.data.lookup i
  metas : ∀ i, (files.lookup (snapshotMetaPath i)).map SnapshotJson.fromStr =
    (dir.metas.lookup i).map .ok

variable {dir : SnapshotDir} {metadata : SnapshotMetadata} {data : Bytes}

/-- What a file of the given kind holds after a snapshot has been saved. -/
lemma lookup_applyAll_saveOps {path : LogIndex → FileName} {content : Bytes}
    (hpath : ∀ i < 2 ^ 64, fileIndex (path i) = some i)
    (hwritten : ∀ i, (files.written metadata data).lookup (path i) =
      if i = metadata.lastIncludedIndex then some content else files.lookup (path i))
    (hbig : ∀ i, 2 ^ 64 ≤ i → path i ∉ files) (hindex : metadata.lastIncludedIndex < 2 ^ 64)
    (i : LogIndex) :
    (SnapshotOp.applyAll files (files.saveOps order metadata data)).lookup (path i) =
      if i = metadata.lastIncludedIndex then some content
      else if i < metadata.lastIncludedIndex then none else files.lookup (path i) := by
  rw [saveOps, SnapshotOp.applyAll_append, ← written]
  rcases lt_or_ge i (2 ^ 64) with hi | hi
  · rw [lookup_cleanupOps (hpath i hi), hwritten]
    by_cases heq : i = metadata.lastIncludedIndex
    · simp [heq]
    · simp [heq]
  · have hne : i ≠ metadata.lastIncludedIndex := (hindex.trans_le hi).ne'
    have hnone : files.lookup (path i) = none := AList.lookup_eq_none.mpr (hbig i hi)
    rw [cleanupOps, SnapshotOp.lookup_applyAll_remove, hwritten, if_neg hne, if_neg hne, hnone,
      ite_self, ite_self]

lemma represents_empty : Represents ∅ .empty := ⟨fun _ => rfl, fun _ => rfl⟩

/-- Saving a snapshot does the same to both. -/
lemma Represents.save (h : Represents files dir) (hnamed : files.Named)
    (hindex : metadata.lastIncludedIndex < 2 ^ 64)
    (hjson : SnapshotJson.fromStr (SnapshotJson.toStringPretty metadata) = .ok metadata) :
    Represents (SnapshotOp.applyAll files (files.saveOps order metadata data))
      (dir.save metadata data) where
  data := by
    intro i
    rw [lookup_applyAll_saveOps (fun _ => fileIndex_dataPath)
      (files.lookup_written_dataPath metadata data) (fun _ => hnamed.dataPath_notMem) hindex,
      h.data]
    exact (SnapshotDir.lookup_filter_writeFile _ _ _ i).symm
  metas := by
    intro i
    have hdir : (dir.save metadata data).metas.lookup i = _ :=
      SnapshotDir.lookup_filter_writeFile _ _ _ i
    rw [lookup_applyAll_saveOps (fun _ => fileIndex_metaPath)
      (files.lookup_written_metaPath metadata data) (fun _ => hnamed.metaPath_notMem) hindex, hdir]
    split
    · exact congrArg some hjson
    · split
      · rfl
      · exact h.metas i

lemma Represents.metaPath_mem_iff (h : Represents files dir) (i : LogIndex) :
    snapshotMetaPath i ∈ files ↔ i ∈ dir.metas.map (·.1) := by
  rw [← lookup_isSome_iff_mem, ← AList.lookup_isSome]
  have hsome := congrArg Option.isSome (h.metas i)
  rw [Option.isSome_map, Option.isSome_map] at hsome
  rw [hsome]

lemma Represents.findLatestSnapshot_eq (h : Represents files dir) (hnamed : files.Named)
    (order : ListingOrder) : files.findLatestSnapshot order = dir.findLatestSnapshot := by
  have hmem : ∀ i, i ∈ (order.list files.keys).filterMap metaIndex ↔ i ∈ dir.metas.map (·.1) := by
    intro i
    rw [hnamed.mem_filterMap_metaIndex, h.metaPath_mem_iff, and_iff_right_iff_imp]
    intro hi
    by_contra hbig
    exact hnamed.metaPath_notMem (not_lt.mp hbig) ((h.metaPath_mem_iff i).mpr hi)
  rw [SnapshotDisk.findLatestSnapshot_eq, SnapshotDir.findLatestSnapshot_eq]
  ext m
  simp only [List.max?_eq_some_iff, hmem]

variable [Crc32]

/-- Both load the same, whatever the order in which the files are listed. -/
theorem Represents.loadLatest_eq (h : Represents files dir) (hnamed : files.Named)
    (order : ListingOrder) : files.loadLatest order = dir.loadLatest := by
  unfold SnapshotDisk.loadLatest SnapshotDir.loadLatest
  rw [h.findLatestSnapshot_eq hnamed order]
  cases hlatest : dir.findLatestSnapshot with
  | none => rfl
  | some i =>
    have hmem : i ∈ dir.metas.map (·.1) := by
      rw [SnapshotDir.findLatestSnapshot_eq] at hlatest
      exact (List.max?_eq_some_iff.mp hlatest).1
    obtain ⟨metadata, hmeta⟩ :=
      Option.isSome_iff_exists.mp ((lookup_isSome_iff_mem _ _).mpr hmem)
    have hjson := h.metas i
    rw [hmeta, Option.map_some, Option.map_eq_some_iff] at hjson
    have hload : files.loadMetadata i = .ok metadata := (loadMetadata_eq_ok_iff files).mpr hjson
    simp only [hload, loadData, h.data, hmeta]
    cases dir.data.lookup i <;> rfl

end

end SnapshotDisk

namespace SnapshotStep

variable [Crc32]

/-- A call on the directory of values. One that is refused leaves it as it is. -/
def onDir (dir : SnapshotDir) (s : SnapshotStep) : SnapshotDir :=
  match s.call with
  | .create lastIndex lastTerm data => (dir.createSnapshot lastIndex lastTerm data).1
  | .receive metadata data =>
    match dir.receiveSnapshot metadata data with
    | .ok dir' => dir'
    | .error _ => dir

lemma onDir_eq (dir : SnapshotDir) (s : SnapshotStep) :
    onDir dir s = if s.call.Accepted then dir.save s.call.metadata s.call.data else dir := by
  unfold onDir
  cases s.call with
  | create lastIndex lastTerm data => exact (if_pos rfl).symm
  | receive metadata data =>
    dsimp only
    by_cases hsum : Crc32.hash data = metadata.checksum
    · have hacc : (SnapshotCall.receive metadata data).Accepted := hsum
      rw [SnapshotDir.receiveSnapshot, if_neg (not_not.mpr hsum), if_pos hacc]
      rfl
    · have hacc : ¬ (SnapshotCall.receive metadata data).Accepted := hsum
      rw [SnapshotDir.receiveSnapshot, if_pos hsum, if_neg hacc]

variable [SnapshotJson]

/-- The files represent the directory of values after every run without a crash. -/
lemma represents_run {steps : List SnapshotStep} (hf : Faithful steps)
    (hdone : ∀ s ∈ steps, s.crash = none) :
    SnapshotDisk.Represents (run step ∅ steps) (run onDir .empty steps) := by
  induction steps using List.reverseRecOn with
  | nil => exact SnapshotDisk.represents_empty
  | append_singleton steps s ih =>
    have hs : s ∈ steps ++ [s] := List.mem_append_right _ (List.mem_singleton_self s)
    have hbefore : Faithful steps := hf.mono (List.subset_append_left _ _)
    have h := ih hbefore fun s' hs' => hdone s' (List.mem_append_left _ hs')
    rw [run_snoc, run_snoc, onDir_eq]
    by_cases hacc : s.call.Accepted
    · rw [if_pos hacc, step, madeOps, hdone s hs]
      dsimp only
      rw [SnapshotCall.ops_of_accepted hacc]
      exact h.save ((recorded_run steps).named hbefore) (hf.index s hs) (hf.json s hs)
    · rw [if_neg hacc, step_of_not_accepted _ hacc]
      exact h

/-- Without crashes, what is loaded from the files is what is loaded from the directory of
values. -/
theorem loadLatest_run {steps : List SnapshotStep} (hf : Faithful steps)
    (hdone : ∀ s ∈ steps, s.crash = none) (order : ListingOrder) :
    (run step ∅ steps).loadLatest order = (run onDir .empty steps).loadLatest :=
  (represents_run hf hdone).loadLatest_eq ((recorded_run steps).named hf) order

end SnapshotStep

namespace SnapshotStep

/-- A snapshot is taken, one is received, one is refused, and one is taken of an older index. -/
def completedCalls : List SnapshotStep :=
  unorderedCalls.filter (·.crash.isNone)

theorem loadLatest_run_completedCalls :
    letI := Crc32.ieee
    letI := SnapshotJson.text (completedCalls.map (·.call.metadata))
    (run step ∅ completedCalls).loadLatest .reversed =
        (run onDir .empty completedCalls).loadLatest ∧
      (run onDir .empty completedCalls).loadLatest =
        .ok (some (⟨6, 2, 0x4B0BBE37, 1⟩, [3])) := by
  let _ := Crc32.ieee
  let _ := SnapshotJson.text (completedCalls.map (·.call.metadata))
  have hfaithful : Faithful completedCalls :=
    ⟨by decide +kernel, by decide +kernel, by decide +kernel⟩
  exact ⟨loadLatest_run hfaithful (by decide) .reversed, by decide +kernel⟩

end SnapshotStep

end Raftrust.Consensus

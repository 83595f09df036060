import Raftrust.Consensus.SnapshotDisk

/-!
# Crashes inside a snapshot call

A call writes the data of its snapshot, then the metadata, then it removes the older snapshots. A
crash between the two writes is harmless when the index is new, since the data alone is not taken
for a snapshot. When the index is that of the latest snapshot, the data of that snapshot has been
replaced and its metadata has not. After such a crash nothing can be loaded, although snapshots had
been completed before.
-/

namespace Raftrust.Consensus

open Lib Storage

/-- A call, with the order in which it lists the directory. If there is a crash then only the first
few of its changes are made. -/
structure SnapshotStep where
  call : SnapshotCall
  order : ListingOrder
  crash : Option ℕ

namespace SnapshotStep

section

variable [Crc32]

/-- The call has returned, and not with an error. -/
def Completed (s : SnapshotStep) : Prop :=
  s.call.Accepted ∧ s.crash = none

variable [SnapshotJson]

/-- The changes that are made. -/
def madeOps (files : SnapshotDisk) (s : SnapshotStep) : List SnapshotOp :=
  match s.crash with
  | none => s.call.ops files s.order
  | some k => (s.call.ops files s.order).take k

def step (files : SnapshotDisk) (s : SnapshotStep) : SnapshotDisk :=
  SnapshotOp.applyAll files (s.madeOps files)

end

/-! ### What is asked of the directory -/

section

variable [Crc32] [SnapshotJson]

/-- Loading succeeds. It finds no snapshot only if no call has completed, and else the snapshot of
one call, whose index no completed call is above. -/
def Survives (steps : List SnapshotStep) (files : SnapshotDisk) : Prop :=
  ∀ order, (files.loadLatest order = .ok none ∧ ∀ s ∈ steps, ¬ s.Completed) ∨
    ∃ s ∈ steps, files.loadLatest order = .ok (some (s.call.metadata, s.call.data)) ∧
      ∀ s' ∈ steps, s'.Completed → s'.call.index ≤ s.call.index

/-- The call does not crash between its two writes, or its index is not that of the latest snapshot,
or the data is the same. -/
def KeepsPair (files : SnapshotDisk) (s : SnapshotStep) : Prop :=
  s.crash = some 1 → s.call.Accepted → files.findLatestSnapshot s.order = some s.call.index →
    files.lookup (snapshotDataPath s.call.index) = some s.call.data

instance (files : SnapshotDisk) (s : SnapshotStep) : Decidable (KeepsPair files s) := by
  unfold KeepsPair
  infer_instance

/-- The assumptions on the calls: indices are words, the JSON of their metadata is read back, and
no two of them have different data with the same checksum. -/
structure Faithful (steps : List SnapshotStep) : Prop where
  index : ∀ s ∈ steps, s.call.index < 2 ^ 64
  json : ∀ s ∈ steps,
    SnapshotJson.fromStr (SnapshotJson.toStringPretty s.call.metadata) = .ok s.call.metadata
  collisionFree : ∀ s ∈ steps, ∀ s' ∈ steps,
    Crc32.hash s.call.data = Crc32.hash s'.call.data → s.call.data = s'.call.data

/-- Every file is one that an accepted call has written. -/
def Recorded (steps : List SnapshotStep) (files : SnapshotDisk) : Prop :=
  ∀ name content, files.lookup name = some content → ∃ s ∈ steps, s.call.Accepted ∧
    (name = snapshotDataPath s.call.index ∧ content = s.call.data ∨
      name = snapshotMetaPath s.call.index ∧
        content = SnapshotJson.toStringPretty s.call.metadata)

/-- The two files of a call are there, and no later metadata. -/
structure IsLatest (steps : List SnapshotStep) (files : SnapshotDisk) (s : SnapshotStep) :
    Prop where
  mem : s ∈ steps
  accepted : s.call.Accepted
  metaFile : files.lookup (snapshotMetaPath s.call.index) =
    some (SnapshotJson.toStringPretty s.call.metadata)
  dataFile : files.lookup (snapshotDataPath s.call.index) = some s.call.data
  greatest : ∀ i < 2 ^ 64, snapshotMetaPath i ∈ files → i ≤ s.call.index
  completed : ∀ s' ∈ steps, s'.Completed → s'.call.index ≤ s.call.index

/-- The files say the same as `Survives`. -/
def Intact (steps : List SnapshotStep) (files : SnapshotDisk) : Prop :=
  ((∀ i < 2 ^ 64, snapshotMetaPath i ∉ files) ∧ ∀ s ∈ steps, ¬ s.Completed) ∨
    ∃ s, IsLatest steps files s

variable {steps : List SnapshotStep} {files : SnapshotDisk} {s : SnapshotStep}

/-! ### What a step does -/

/-- The directory when a call has written both files and removed those that are given. -/
def saved (files : SnapshotDisk) (c : SnapshotCall) (old : List FileName) : SnapshotDisk :=
  SnapshotOp.applyAll (files.written c.metadata c.data) (old.map .remove)

/-- A call that is accepted changes nothing, or has written its data, or has written both files and
removed some that are older. -/
lemma step_cases (files : SnapshotDisk) (h : s.call.Accepted) :
    s.crash = some 0 ∧ step files s = files ∨
    s.crash = some 1 ∧ step files s = files.insert (snapshotDataPath s.call.index) s.call.data ∨
    (s.crash ≠ some 1 ∧ ∃ old : List FileName,
      (∀ name ∈ old, ∃ j < s.call.index, fileIndex name = some j) ∧
      step files s = saved files s.call old) := by
  obtain ⟨old, hold, hops⟩ : ∃ old : List FileName,
      (∀ name ∈ old, ∃ j < s.call.index, fileIndex name = some j) ∧
      s.call.ops files s.order =
        SnapshotDisk.writeOps s.call.metadata s.call.data ++ old.map .remove :=
    ⟨_, fun _ => SnapshotDisk.fileIndex_of_mem_oldSnapshots,
      SnapshotCall.ops_of_accepted h files s.order⟩
  unfold step madeOps
  rw [hops]
  -- the data is written first, the metadata second, and then old files go
  match s.crash with
  | some 0 => exact .inl ⟨rfl, rfl⟩
  | some 1 => exact .inr (.inl ⟨rfl, rfl⟩)
  | some (k + 2) =>
    refine .inr (.inr ⟨by simp, old.take k, fun name hmem => ?_, ?_⟩)
    · exact hold name (List.mem_of_mem_take hmem)
    · rw [saved, List.map_take]
      rfl
  | none => exact .inr (.inr ⟨by simp, old, hold, SnapshotOp.applyAll_append _ _ _⟩)

/-- A call that is refused changes nothing. -/
lemma step_of_not_accepted (files : SnapshotDisk) (h : ¬ s.call.Accepted) :
    step files s = files := by
  unfold step madeOps
  rw [SnapshotCall.ops_of_not_accepted h]
  cases s.crash with
  | none => rfl
  | some k => simp only [List.take_nil, SnapshotOp.applyAll, List.foldl_nil]

omit [Crc32] [SnapshotJson] in
lemma notMem_old {old : List FileName} {keep i : LogIndex} {name : FileName}
    (hold : ∀ name ∈ old, ∃ j < keep, fileIndex name = some j) (hi : fileIndex name = some i)
    (hle : keep ≤ i) : name ∉ old := by
  intro hmem
  obtain ⟨j, hlt, hj⟩ := hold name hmem
  obtain rfl := Option.some.inj (hi.symm.trans hj)
  exact absurd hlt (not_lt.mpr hle)

section

variable {c : SnapshotCall} {old : List FileName} {i : LogIndex}

/-- The files at an index that is not below that of the call are not removed. -/
lemma lookup_saved_metaPath (hold : ∀ name ∈ old, ∃ j < c.index, fileIndex name = some j)
    (hi : i < 2 ^ 64) (hle : c.index ≤ i) :
    (saved files c old).lookup (snapshotMetaPath i) =
      if i = c.index then some (SnapshotJson.toStringPretty c.metadata)
      else files.lookup (snapshotMetaPath i) := by
  rw [saved, SnapshotOp.lookup_applyAll_remove,
    if_neg (notMem_old hold (fileIndex_metaPath hi) hle)]
  exact files.lookup_written_metaPath _ _ i

lemma lookup_saved_dataPath (hold : ∀ name ∈ old, ∃ j < c.index, fileIndex name = some j)
    (hi : i < 2 ^ 64) (hle : c.index ≤ i) :
    (saved files c old).lookup (snapshotDataPath i) =
      if i = c.index then some c.data else files.lookup (snapshotDataPath i) := by
  rw [saved, SnapshotOp.lookup_applyAll_remove,
    if_neg (notMem_old hold (fileIndex_dataPath hi) hle)]
  exact files.lookup_written_dataPath _ _ i

/-- There is no new metadata but that of the call. -/
lemma metaPath_mem_of_saved (h : snapshotMetaPath i ∈ saved files c old) :
    i = c.index ∨ snapshotMetaPath i ∈ files := by
  rw [← AList.lookup_isSome, saved, SnapshotOp.lookup_applyAll_remove,
    SnapshotDisk.lookup_written_metaPath] at h
  split at h
  · cases h
  · split at h
    · exact .inl ‹_›
    · exact .inr (AList.lookup_isSome.mp h)

end

omit [SnapshotJson] in
lemma lookup_insertData_metaPath (files : SnapshotDisk) (c : SnapshotCall) (i : LogIndex) :
    (files.insert (snapshotDataPath c.index) c.data).lookup (snapshotMetaPath i) =
      files.lookup (snapshotMetaPath i) :=
  AList.lookup_insert_ne snapshotMetaPath_ne_dataPath

/-! ### Every file comes from a call -/

lemma recorded_nil : Recorded [] ∅ := fun _ _ h => by cases h

lemma Recorded.insert (h : Recorded steps files) (hmem : s ∈ steps) (hacc : s.call.Accepted)
    {name : FileName} {content : Bytes}
    (hfile : name = snapshotDataPath s.call.index ∧ content = s.call.data ∨
      name = snapshotMetaPath s.call.index ∧
        content = SnapshotJson.toStringPretty s.call.metadata) :
    Recorded steps (files.insert name content) := by
  intro name' content' hlookup
  by_cases heq : name' = name
  · rw [heq, AList.lookup_insert] at hlookup
    obtain rfl := Option.some.inj hlookup
    rw [heq]
    exact ⟨s, hmem, hacc, hfile⟩
  · rw [AList.lookup_insert_ne heq] at hlookup
    exact h name' content' hlookup

lemma Recorded.step (h : Recorded steps files) (s : SnapshotStep) :
    Recorded (steps ++ [s]) (step files s) := by
  have hbefore : Recorded (steps ++ [s]) files := by
    intro name content hlookup
    obtain ⟨s', hmem, hfile⟩ := h name content hlookup
    exact ⟨s', List.mem_append_left _ hmem, hfile⟩
  have hs : s ∈ steps ++ [s] := List.mem_append_right _ (List.mem_singleton_self s)
  by_cases hacc : s.call.Accepted
  · have hdata := hbefore.insert hs hacc (.inl ⟨rfl, rfl⟩)
    rcases step_cases files hacc with ⟨-, heq⟩ | ⟨-, heq⟩ | ⟨-, old, -, heq⟩
    · rwa [heq]
    · rwa [heq]
    · rw [heq]
      intro name content hlookup
      have hboth : Recorded (steps ++ [s]) (files.written s.call.metadata s.call.data) :=
        hdata.insert hs hacc (.inr ⟨rfl, rfl⟩)
      rw [saved, SnapshotOp.lookup_applyAll_remove] at hlookup
      split at hlookup
      · cases hlookup
      · exact hboth name content hlookup
  · rwa [step_of_not_accepted files hacc]

lemma recorded_run (steps : List SnapshotStep) :
    Recorded steps (run SnapshotStep.step ∅ steps) := by
  induction steps using List.reverseRecOn with
  | nil => exact recorded_nil
  | append_singleton steps s ih =>
    rw [run_snoc]
    exact ih.step s

lemma Recorded.named (h : Recorded steps files) (hf : Faithful steps) : files.Named := by
  intro name hmem
  obtain ⟨content, hlookup⟩ := Option.isSome_iff_exists.mp (AList.lookup_isSome.mpr hmem)
  obtain ⟨s, hs, -, hfile⟩ := h name content hlookup
  exact ⟨s.call.index, hf.index s hs, hfile.imp And.left And.left⟩

/-- Metadata at an index is that of a call with this index. -/
lemma Recorded.of_lookup_metaPath (h : Recorded steps files) {i : LogIndex} {json : Bytes}
    (hlookup : files.lookup (snapshotMetaPath i) = some json) :
    ∃ s ∈ steps, s.call.index = i ∧ json = SnapshotJson.toStringPretty s.call.metadata := by
  obtain ⟨s, hs, -, ⟨hname, -⟩ | ⟨hname, hjson⟩⟩ := h _ _ hlookup
  · exact absurd hname snapshotMetaPath_ne_dataPath
  · exact ⟨s, hs, (snapshotMetaPath_inj.mp hname).symm, hjson⟩

/-! ### Loading what the files say -/

lemma IsLatest.findLatestSnapshot (h : IsLatest steps files s) (hf : Faithful steps)
    (hnamed : files.Named) (order : ListingOrder) :
    files.findLatestSnapshot order = some s.call.index := by
  refine (hnamed.findLatestSnapshot_eq_some_iff order).mpr ⟨⟨hf.index s h.mem, ?_⟩, h.greatest⟩
  rw [← AList.lookup_isSome, h.metaFile]
  rfl

lemma survives_iff_intact (hrec : Recorded steps files) (hf : Faithful steps) :
    Survives steps files ↔ Intact steps files := by
  have hnamed := hrec.named hf
  constructor
  · intro h
    rcases h .asStored with ⟨hnone, hcompleted⟩ | ⟨s, hs, hload, hcompleted⟩
    · rw [SnapshotDisk.loadLatest_eq_ok_none_iff, hnamed.findLatestSnapshot_eq_none_iff] at hnone
      exact .inl ⟨hnone, hcompleted⟩
    · obtain ⟨i, hlatest, ⟨json, hmeta, hjson⟩, hdata, hsum⟩ :=
        (SnapshotDisk.loadLatest_eq_ok_some_iff _ _).mp hload
      obtain ⟨s', hs', hi, rfl⟩ := hrec.of_lookup_metaPath hmeta
      -- the metadata that was read is that of the call whose file it is
      have hsame : s'.call.metadata = s.call.metadata :=
        Except.ok.inj ((hf.json s' hs').symm.trans hjson)
      have hindex : s.call.index = i := by rw [← hi, SnapshotCall.index, ← hsame]; rfl
      rw [hsame] at hmeta
      subst hindex
      exact .inr ⟨s, hs, hsum, hmeta, hdata,
        ((hnamed.findLatestSnapshot_eq_some_iff _).mp hlatest).2, hcompleted⟩
  · rintro (⟨hnone, hcompleted⟩ | ⟨s, hs⟩) order
    · refine .inl ⟨?_, hcompleted⟩
      rwa [SnapshotDisk.loadLatest_eq_ok_none_iff, hnamed.findLatestSnapshot_eq_none_iff]
    · refine .inr ⟨s, hs.mem, ?_, hs.completed⟩
      exact (SnapshotDisk.loadLatest_eq_ok_some_iff _ _).mpr ⟨s.call.index,
        hs.findLatestSnapshot hf hnamed order, ⟨_, hs.metaFile, hf.json s hs.mem⟩, hs.dataFile,
        hs.accepted⟩

/-! ### One step -/

/-- The next call has not completed, and the files that matter are the same. -/
lemma IsLatest.snoc {files' : SnapshotDisk} {latest : SnapshotStep}
    (h : IsLatest steps files latest)
    (hmeta : files'.lookup (snapshotMetaPath latest.call.index) =
      files.lookup (snapshotMetaPath latest.call.index))
    (hdata : files'.lookup (snapshotDataPath latest.call.index) =
      files.lookup (snapshotDataPath latest.call.index))
    (hgreatest : ∀ i < 2 ^ 64, snapshotMetaPath i ∈ files' → i ≤ latest.call.index)
    (hs : s.Completed → s.call.index ≤ latest.call.index) :
    IsLatest (steps ++ [s]) files' latest where
  mem := List.mem_append_left _ h.mem
  accepted := h.accepted
  metaFile := hmeta.trans h.metaFile
  dataFile := hdata.trans h.dataFile
  greatest := hgreatest
  completed := List.forall_mem_append.mpr ⟨h.completed, List.forall_mem_singleton.mpr hs⟩

/-- A call that leaves the files alone. -/
lemma Intact.snoc_same (h : Intact steps files) (hs : ¬ s.Completed) :
    Intact (steps ++ [s]) files := by
  rcases h with ⟨hnone, hcompleted⟩ | ⟨latest, hlatest⟩
  · exact .inl ⟨hnone, List.forall_mem_append.mpr ⟨hcompleted, List.forall_mem_singleton.mpr hs⟩⟩
  · exact .inr ⟨latest, hlatest.snoc rfl rfl hlatest.greatest fun hc => absurd hc hs⟩

/-- A call that has written both files is the latest unless there is a later one. -/
lemma isLatest_saved (hacc : s.call.Accepted) (hindex : s.call.index < 2 ^ 64)
    {old : List FileName} (hold : ∀ name ∈ old, ∃ j < s.call.index, fileIndex name = some j)
    (hgreatest : ∀ i < 2 ^ 64, snapshotMetaPath i ∈ files → i ≤ s.call.index)
    (hcompleted : ∀ s' ∈ steps, s'.Completed → s'.call.index ≤ s.call.index) :
    IsLatest (steps ++ [s]) (saved files s.call old) s where
  mem := List.mem_append_right _ (List.mem_singleton_self s)
  accepted := hacc
  metaFile := by rw [lookup_saved_metaPath hold hindex le_rfl, if_pos rfl]
  dataFile := by rw [lookup_saved_dataPath hold hindex le_rfl, if_pos rfl]
  greatest := by
    intro i hi hmem
    rcases metaPath_mem_of_saved hmem with rfl | hmem
    · exact le_rfl
    · exact hgreatest i hi hmem
  completed :=
    List.forall_mem_append.mpr ⟨hcompleted, List.forall_mem_singleton.mpr fun _ => le_rfl⟩

/-- A call that has written both files. -/
lemma Intact.snoc_saved (h : Intact steps files) (hacc : s.call.Accepted)
    (hindex : ∀ s' ∈ steps ++ [s], s'.call.index < 2 ^ 64) {old : List FileName}
    (hold : ∀ name ∈ old, ∃ j < s.call.index, fileIndex name = some j) :
    Intact (steps ++ [s]) (saved files s.call old) := by
  have hs := hindex s (List.mem_append_right _ (List.mem_singleton_self s))
  rcases h with ⟨hnone, hcompleted⟩ | ⟨latest, h⟩
  · exact .inr ⟨s, isLatest_saved hacc hs hold (fun i hi hmem => absurd hmem (hnone i hi))
      fun s' hs' hc => absurd hc (hcompleted s' hs')⟩
  rcases le_or_gt latest.call.index s.call.index with hle | hlt
  · exact .inr ⟨s, isLatest_saved hacc hs hold
      (fun i hi hmem => (h.greatest i hi hmem).trans hle)
      fun s' hs' hc => (h.completed s' hs' hc).trans hle⟩
  · have hbound := hindex latest (List.mem_append_left _ h.mem)
    refine .inr ⟨latest, h.snoc ?_ ?_ (fun i hi hmem => ?_) fun _ => hlt.le⟩
    · rw [lookup_saved_metaPath hold hbound hlt.le, if_neg hlt.ne']
    · rw [lookup_saved_dataPath hold hbound hlt.le, if_neg hlt.ne']
    · rcases metaPath_mem_of_saved hmem with rfl | hmem
      · exact hlt.le
      · exact h.greatest i hi hmem

lemma Faithful.mono {steps' : List SnapshotStep} (hf : Faithful steps) (hsub : steps' ⊆ steps) :
    Faithful steps' where
  index := fun s hs => hf.index s (hsub hs)
  json := fun s hs => hf.json s (hsub hs)
  collisionFree := fun s hs s' hs' => hf.collisionFree s (hsub hs) s' (hsub hs')

/-- If the data of the latest snapshot has been replaced and it can still be loaded, then the new
data has the checksum of the old. -/
lemma IsLatest.hash_eq {files' : SnapshotDisk} {latest : SnapshotStep}
    (h : IsLatest steps files latest) (hf : Faithful (steps ++ [s]))
    (hafter : Intact (steps ++ [s]) files')
    (hmetas : ∀ i, files'.lookup (snapshotMetaPath i) = files.lookup (snapshotMetaPath i))
    (hdata : files'.lookup (snapshotDataPath latest.call.index) = some s.call.data) :
    Crc32.hash s.call.data = Crc32.hash latest.call.data := by
  have hmem : ∀ i, snapshotMetaPath i ∈ files' ↔ snapshotMetaPath i ∈ files := by
    intro i
    rw [← AList.lookup_isSome, hmetas, AList.lookup_isSome]
  have hbound := hf.index latest (List.mem_append_left _ h.mem)
  have hthere : snapshotMetaPath latest.call.index ∈ files := by
    rw [← AList.lookup_isSome, h.metaFile]
    rfl
  rcases hafter with ⟨hnone, -⟩ | ⟨s', h'⟩
  · exact absurd ((hmem _).mpr hthere) (hnone _ hbound)
  have hthere' : snapshotMetaPath s'.call.index ∈ files := by
    rw [← hmem, ← AList.lookup_isSome, h'.metaFile]
    rfl
  have hindex : s'.call.index = latest.call.index :=
    le_antisymm (h.greatest _ (hf.index s' h'.mem) hthere')
      (h'.greatest _ hbound ((hmem _).mpr hthere))
  -- The metadata was not touched, so it is still that of the snapshot before.
  have hjson : SnapshotJson.toStringPretty s'.call.metadata =
      SnapshotJson.toStringPretty latest.call.metadata := by
    rw [← Option.some.injEq, ← h'.metaFile, hmetas, hindex, h.metaFile]
  have hmetadata : s'.call.metadata = latest.call.metadata := by
    rw [← Except.ok.injEq (ε := String), ← hf.json s' h'.mem, hjson,
      hf.json latest (List.mem_append_left _ h.mem)]
  have hsame : s.call.data = s'.call.data := by
    rw [← Option.some.injEq, ← h'.dataFile, hindex, hdata]
  calc Crc32.hash s.call.data = Crc32.hash s'.call.data := by rw [hsame]
    _ = s'.call.metadata.checksum := h'.accepted
    _ = latest.call.metadata.checksum := by rw [hmetadata]
    _ = Crc32.hash latest.call.data := h.accepted.symm

lemma intact_snoc_data_iff (h : Intact steps files) (hrec : Recorded steps files)
    (hf : Faithful (steps ++ [s])) (hacc : s.call.Accepted) (hcrash : s.crash = some 1) :
    Intact (steps ++ [s]) (files.insert (snapshotDataPath s.call.index) s.call.data) ↔
      KeepsPair files s := by
  have hnot : ¬ s.Completed := fun hc => absurd (hcrash.symm.trans hc.2) (by simp)
  have hmetas : ∀ i, snapshotMetaPath i ∈
      files.insert (snapshotDataPath s.call.index) s.call.data ↔ snapshotMetaPath i ∈ files := by
    intro i
    rw [← AList.lookup_isSome, lookup_insertData_metaPath, AList.lookup_isSome]
  have hsteps : Faithful steps := hf.mono (List.subset_append_left _ _)
  have hnamed := hrec.named hsteps
  rcases h with ⟨hnone, hcompleted⟩ | ⟨latest, h⟩
  · refine iff_of_true (.inl ⟨fun i hi hmem => ?_, ?_⟩) fun _ _ hsome => ?_
    · exact hnone i hi ((hmetas i).mp hmem)
    · exact List.forall_mem_append.mpr ⟨hcompleted, List.forall_mem_singleton.mpr hnot⟩
    · rw [(hnamed.findLatestSnapshot_eq_none_iff _).mpr hnone] at hsome
      cases hsome
  have hlatest := h.findLatestSnapshot hsteps hnamed s.order
  have hgreatest : ∀ i < 2 ^ 64, snapshotMetaPath i ∈
      files.insert (snapshotDataPath s.call.index) s.call.data → i ≤ latest.call.index :=
    fun i hi hmem => h.greatest i hi ((hmetas i).mp hmem)
  have hmeta := lookup_insertData_metaPath files s.call latest.call.index
  -- only a call at the index of the latest snapshot puts its data under old metadata
  by_cases hindex : latest.call.index = s.call.index
  · have hkeeps : KeepsPair files s ↔ s.call.data = latest.call.data := by
      rw [KeepsPair, ← hindex, h.dataFile, Option.some.injEq]
      exact ⟨fun hk => (hk hcrash hacc hlatest).symm, fun heq _ _ _ => heq.symm⟩
    rw [hkeeps]
    constructor
    · intro hafter
      refine hf.collisionFree s (by simp) latest (by simp [h.mem]) (h.hash_eq hf hafter ?_ ?_)
      · exact lookup_insertData_metaPath files s.call
      · rw [hindex, AList.lookup_insert]
    · intro heq
      refine .inr ⟨latest, h.snoc hmeta ?_ hgreatest fun hc => absurd hc hnot⟩
      rw [hindex, AList.lookup_insert, ← hindex, h.dataFile, heq]
  · refine iff_of_true (.inr ⟨latest, h.snoc hmeta ?_ hgreatest fun hc => absurd hc hnot⟩) ?_
    · exact AList.lookup_insert_ne (mt snapshotDataPath_inj.mp hindex)
    · intro _ _ hsome
      exact absurd (Option.some.inj (hlatest.symm.trans hsome)) hindex

lemma intact_step_iff (h : Intact steps files) (hrec : Recorded steps files)
    (hf : Faithful (steps ++ [s])) :
    Intact (steps ++ [s]) (step files s) ↔ KeepsPair files s := by
  by_cases hacc : s.call.Accepted
  · rcases step_cases files hacc with ⟨hcrash, heq⟩ | ⟨hcrash, heq⟩ | ⟨hcrash, old, hold, heq⟩
    · rw [heq]
      refine iff_of_true (h.snoc_same fun hc => ?_) fun hone => ?_
      · cases hcrash.symm.trans hc.2
      · cases hcrash.symm.trans hone
    · rw [heq]
      exact intact_snoc_data_iff h hrec hf hacc hcrash
    · rw [heq]
      exact iff_of_true (h.snoc_saved hacc hf.index hold) fun hone => absurd hone hcrash
  · rw [step_of_not_accepted files hacc]
    exact iff_of_true (h.snoc_same fun hc => hacc hc.1) fun _ hacc' => absurd hacc' hacc

/-! ### Runs -/

lemma survives_nil : Survives [] ∅ := by
  have hfaithful : Faithful [] := ⟨by simp, by simp, by simp⟩
  rw [survives_iff_intact recorded_nil hfaithful]
  exact .inl ⟨fun i _ => AList.notMem_empty _, by simp⟩

/-- Snapshots survive every crash of a run exactly if no call crashes between its two writes with
the index of the latest snapshot and other data than it has. -/
theorem survives_iff_keepsPair (steps : List SnapshotStep) (hf : Faithful steps) :
    (∀ steps', steps' <+: steps → Survives steps' (run step ∅ steps')) ↔
      Along step KeepsPair ∅ steps := by
  refine forall_isPrefix_iff_along step (fun steps' => Survives steps' (run step ∅ steps'))
    survives_nil ?_
  intro steps' s hp h
  have hsnoc : Faithful (steps' ++ [s]) := hf.mono hp.subset
  have hsteps : Faithful steps' := hsnoc.mono (List.subset_append_left _ _)
  have hrec := recorded_run steps'
  rw [survives_iff_intact hrec hsteps] at h
  rw [survives_iff_intact (recorded_run _) hsnoc, run_snoc]
  exact intact_step_iff h hrec hsnoc

end

/-- Calls whose indices go up and down. The second one crashes between its two writes and the last
one while it removes old files; the third one is received in between. -/
def unorderedCalls : List SnapshotStep :=
  [⟨.create 5 1 [1], .asStored, none⟩,
    ⟨.create 7 2 [2], .asStored, some 1⟩,
    ⟨.receive ⟨6, 2, 0x4B0BBE37, 1⟩ [3], .reversed, none⟩,
    ⟨.receive ⟨9, 2, 0, 1⟩ [3], .asStored, none⟩,
    ⟨.create 4 1 [4], .asStored, none⟩,
    ⟨.create 8 3 [2], .reversed, some 4⟩]

/-- Two calls with the same index. The second one crashes between its two writes. -/
def repeatedCalls : List SnapshotStep :=
  [⟨.create 5 1 [1], .asStored, none⟩, ⟨.create 5 1 [2], .asStored, some 1⟩]

theorem survives_unorderedCalls :
    letI := Crc32.ieee
    letI := SnapshotJson.text (unorderedCalls.map (·.call.metadata))
    Faithful unorderedCalls ∧ Along step KeepsPair ∅ unorderedCalls ∧
      (run step ∅ unorderedCalls).loadLatest .asStored = .ok (some (⟨8, 3, 0x3C0C8EA1, 1⟩, [2])) ∧
      Survives unorderedCalls (run step ∅ unorderedCalls) := by
  have hkeeps : letI := Crc32.ieee
      letI := SnapshotJson.text (unorderedCalls.map (·.call.metadata))
      Along step KeepsPair ∅ unorderedCalls := by decide +kernel
  let _ := Crc32.ieee
  let _ := SnapshotJson.text (unorderedCalls.map (·.call.metadata))
  have hfaithful : Faithful unorderedCalls :=
    ⟨by decide +kernel, by decide +kernel, by decide +kernel⟩
  refine ⟨hfaithful, hkeeps, by decide +kernel, ?_⟩
  exact (survives_iff_keepsPair unorderedCalls hfaithful).mpr hkeeps _ List.prefix_rfl

/-- After the crash the latest snapshot cannot be loaded, although a call had completed. -/
theorem torn_snapshot_not_loaded :
    letI := Crc32.ieee
    letI := SnapshotJson.text (repeatedCalls.map (·.call.metadata))
    Faithful repeatedCalls ∧ (∃ s ∈ repeatedCalls, s.Completed) ∧
      (run step ∅ repeatedCalls).loadLatest .asStored = .error (.corruption
        "snapshot checksum mismatch: stored=0xa505df1b, computed=0x3c0c8ea1") ∧
      ¬ Survives repeatedCalls (run step ∅ repeatedCalls) := by
  let _ := Crc32.ieee
  let _ := SnapshotJson.text (repeatedCalls.map (·.call.metadata))
  have hload : (run step ∅ repeatedCalls).loadLatest .asStored = .error (.corruption
      "snapshot checksum mismatch: stored=0xa505df1b, computed=0x3c0c8ea1") := by decide +kernel
  refine ⟨⟨by decide +kernel, by decide +kernel, by decide +kernel⟩, ?_, hload, ?_⟩
  · exact ⟨_, List.mem_cons_self, rfl, rfl⟩
  · intro h
    rcases h .asStored with ⟨hnone, -⟩ | ⟨s, -, hsome, -⟩
    · cases hload.symm.trans hnone
    · cases hload.symm.trans hsome

end SnapshotStep

end Raftrust.Consensus

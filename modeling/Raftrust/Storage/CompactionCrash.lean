import Raftrust.Storage.FlushFaults

/-!
# Crashes inside a compaction

A compaction changes the directory in steps: it writes the merged SSTable, deletes the files it has
merged one by one, those of its level first and the oldest of them first, and saves the manifest
last. A crash leaves the first few of these changes. As long as the manifest has not been saved it
lists files that are gone, and opening the tree passes over them.
-/

namespace Raftrust.Storage

open Lib

namespace LsmTree

/-- The changes that compaction makes to the directory, if it is needed. -/
def compactionOps (s : LsmTree) : List FileOp :=
  s.config.compaction.fileOps s.dir.readTable s.manifest

/-- The directory when `i` of the changes have been made. -/
def crashDir (s : LsmTree) (i : ℕ) : Directory :=
  (s.compactionOps.take i).foldl FileOp.apply s.dir

/-- The files that have been deleted by then. -/
def deletedBy (s : LsmTree) (i : ℕ) : List String :=
  (s.compactionOps.take i).filterMap FileOp.removed?

/-! ### When a crash does no harm -/

end LsmTree

/-- What a level with the given answer and the levels after it say about a key. -/
def Manifest.readNext (m : Manifest) (dir : Directory) (key : Bytes) (level : ℕ)
    (answer : Option (Option Bytes)) : Option (Option Bytes) :=
  answer.or ((m.versions dir key (level + 1)).getLast?.or
    ((List.range' (level + 2) (m.numLevels - (level + 2))).findSome?
      fun i => (m.versions dir key i).getLast?))

lemma Manifest.readWith_eq (m : Manifest) (dir : Directory) (key : Bytes) (level : ℕ)
    (answer : Option (Option Bytes)) :
    m.readWith dir key level answer =
      ((List.range level).findSome? fun j => (m.versions dir key j).getLast?).or
        (m.readNext dir key level answer) := rfl

namespace LsmTree

/-- A key of a deleted file reads as before the compaction or as after it. If the log, a level above
or a file of the level that is still there has the key, it reads as before. Else the remaining files
of the next level and then the deeper levels have to say what the newest or the oldest version on
the level said. -/
def CrashSafeKey (s : LsmTree) (level : ℕ) (wal : MemTable) (i : ℕ) (key : Bytes) : Prop :=
  wal.get key = none → (∀ j < level, s.manifest.versions s.dir key j = []) →
    s.manifest.versions (s.crashDir i) key level = [] →
    (s.manifest.readNext (s.crashDir i) key level none).join =
        (s.manifest.readNext s.dir key level
          (s.manifest.versions s.dir key level).getLast?).join ∨
      (s.manifest.readNext (s.crashDir i) key level none).join =
        (s.manifest.readNext s.dir key level (s.manifest.versions s.dir key level).head?).join

instance (s : LsmTree) (level : ℕ) (wal : MemTable) (i : ℕ) (key : Bytes) :
    Decidable (s.CrashSafeKey level wal i key) := by
  unfold CrashSafeKey
  infer_instance

/-- The manifest has been saved, or all keys of the deleted files are safe. -/
def CrashSafe (s : LsmTree) (wal : MemTable) (i : ℕ) : Prop :=
  i < s.compactionOps.length →
    ∀ level ∈ s.config.compaction.needsCompaction s.manifest, ∀ name ∈ s.deletedBy i,
      ∀ t ∈ s.dir.tables name, ∀ x ∈ t.entries, s.CrashSafeKey level wal i x.key
  deriving Decidable

end LsmTree

/-! ### The changes, one by one -/

/-- The changes before the manifest is saved: none, or the merged file is written and the files it
was merged from are removed. -/
lemma LeveledCompaction.fileOps_cases {m m' : Manifest} {dir : Directory} {level : ℕ}
    {ops : List FileOp} {result : CompactionResult}
    (h : compactOps dir.readTable m level = .ok (m', ops, result)) :
    ops = [] ∨ ∃ minKey maxKey t, ops = .writeTable (sstName m.nextSstId) t ::
      (inputs m level minKey maxKey).map fun e => .removeTable e.fileName := by
  rcases merged_of_compactOps h with ⟨-, rfl⟩ | ⟨minKey, maxKey, kept, hmerged⟩
  · exact .inl rfl
  · cases hmerged with
    | dropped => exact .inl rfl
    | written => exact .inr ⟨minKey, maxKey, _, rfl⟩

namespace FileOp

variable {ops : List FileOp} {dir : Directory}

lemma manifest_foldl_apply (h : ∀ m, saveManifest m ∉ ops) :
    (ops.foldl apply dir).manifest = dir.manifest := by
  induction ops generalizing dir with
  | nil => rfl
  | cons op ops ih =>
    rw [List.foldl_cons, ih fun m hm => h m (List.mem_cons_of_mem op hm)]
    cases op with
    | writeTable name table => rfl
    | removeTable name => rfl
    | saveManifest m => exact absurd List.mem_cons_self (h m)

lemma tables_foldl_apply {name : String} (h : ∀ t, writeTable name t ∉ ops) :
    (ops.foldl apply dir).tables name =
      if name ∈ ops.filterMap removed? then none else dir.tables name := by
  induction ops generalizing dir with
  | nil => rfl
  | cons op ops ih =>
    rw [List.foldl_cons, ih fun t ht => h t (List.mem_cons_of_mem op ht)]
    cases op with
    | writeTable name' table =>
      have hne : name ≠ name' := fun heq => h table (heq ▸ List.mem_cons_self)
      simp [removed?, apply, Directory.writeTable, hne]
    | removeTable name' =>
      by_cases heq : name = name' <;> simp [removed?, apply, Directory.removeTables, heq]
    | saveManifest m => simp [removed?, apply]

end FileOp

namespace LsmTree

variable {s : LsmTree}

/-- What the changes are: none, or some before the manifest is saved, which is what compaction has
then done. -/
lemma compactionOps_cases (h : s.Loaded) :
    (s.compactionOps = [] ∧ s.tryMaybeCompact = s) ∨
    ∃ level ops, s.config.compaction.needsCompaction s.manifest = some level ∧
      level + 1 < s.manifest.numLevels ∧
      s.compactionOps = ops ++ [.saveManifest s.tryMaybeCompact.manifest] ∧
      (ops = [] ∨ ∃ minKey maxKey t, ops = .writeTable (sstName s.manifest.nextSstId) t ::
        (LeveledCompaction.inputs s.manifest level minKey maxKey).map
          fun e => .removeTable e.fileName) ∧
      s.tryMaybeCompact.dir = s.compactionOps.foldl FileOp.apply s.dir ∧
      s.tryMaybeCompact.Loaded ∧
      ∀ key, (s.tryMaybeCompact.manifest.read s.tryMaybeCompact.dir key).join =
        (s.manifest.readWith s.dir key level (s.manifest.versions s.dir key level).head?).join := by
  rw [tryMaybeCompact, compactionOps, CompactionConfig.fileOps]
  rcases maybeCompact_cases h.numLevels_eq h.sound with ⟨hneeds, hs⟩ |
    ⟨level, hneeds, hlevel, ⟨err, hcompact, hs⟩ |
      ⟨m', dir', result, s', hcompact, hs', hs, hloaded, -, hread⟩⟩
  · rw [hneeds, hs]
    exact .inl ⟨rfl, rfl⟩
  · rw [LeveledCompaction.compact] at hcompact
    rw [hneeds, hs]
    cases hops : LeveledCompaction.compactOps s.dir.readTable s.manifest level with
    | error err' => exact .inl ⟨by simp only [hops], rfl⟩
    | ok r =>
      rw [hops] at hcompact
      cases hcompact
  · obtain ⟨⟨m'', ops, result'⟩, hops, hcompact⟩ := bind_eq_ok_iff.mp hcompact
    obtain ⟨rfl, rfl, -⟩ : m'' = m' ∧ ops.foldl FileOp.apply s.dir = dir' ∧ _ := by
      simpa using Except.ok.inj hcompact
    have hmanifest : s'.manifest = m'' := by rw [hs']
    rw [hneeds, hs]
    refine .inr ⟨level, ops, rfl, hlevel, ?_, LeveledCompaction.fileOps_cases hops, ?_, hloaded,
      hread⟩
    · simp only [hops, hmanifest]
    · simp only [hops, hs', List.foldl_append]
      rfl

/-- All changes together are what compaction does to the directory. -/
lemma crashDir_of_length_le (h : s.Loaded) {i : ℕ} (hi : s.compactionOps.length ≤ i) :
    s.crashDir i = s.tryMaybeCompact.dir := by
  rw [crashDir, List.take_of_length_le hi]
  rcases compactionOps_cases h with ⟨hops, hs⟩ | ⟨_, _, -, -, -, -, hdir, -, -⟩
  · rw [hops, hs]
    rfl
  · exact hdir.symm

/-- A crash before the manifest is saved: some of the merged files are deleted, in the order of the
merge, and the listed files are else as they were. -/
structure Interrupted (s : LsmTree) (level : ℕ) (inputs : List SSTableEntry) (i k : ℕ) : Prop where
  needs : s.config.compaction.needsCompaction s.manifest = some level
  level_lt : level + 1 < s.manifest.numLevels
  inputs_eq : ∃ minKey maxKey, inputs = LeveledCompaction.inputs s.manifest level minKey maxKey
  deleted : s.deletedBy i = (inputs.take k).map (·.fileName)
  saved_eq : (s.crashDir i).saved = s.dir.saved
  tables : ∀ e ∈ s.manifest.entries, (s.crashDir i).tables e.fileName =
    if e.fileName ∈ s.deletedBy i then none else s.dir.tables e.fileName

lemma exists_interrupted (h : s.Loaded) {i : ℕ} (hi : i < s.compactionOps.length) :
    ∃ level inputs k, s.Interrupted level inputs i k := by
  rcases compactionOps_cases h with
    ⟨hops, -⟩ | ⟨level, ops, hneeds, hlevel, hops, hshape, -, -, -⟩
  · simp [hops] at hi
  · have htake : s.compactionOps.take i = ops.take i := by
      rw [hops, List.length_append] at hi
      rw [hops, List.take_append_of_le_length (Nat.le_of_lt_succ hi)]
    have hmem : ∀ op ∈ ops.take i, (∃ t, op = .writeTable (sstName s.manifest.nextSstId) t) ∨
        ∃ name, op = .removeTable name := by
      intro op hop
      rcases hshape with rfl | ⟨minKey, maxKey, t, rfl⟩
      · simp at hop
      · rcases List.mem_cons.mp (List.mem_of_mem_take hop) with rfl | hop
        · exact .inl ⟨t, rfl⟩
        · obtain ⟨e, -, rfl⟩ := List.mem_map.mp hop
          exact .inr ⟨e.fileName, rfl⟩
    have hsaves : ∀ m, FileOp.saveManifest m ∉ ops.take i := by
      intro m hm
      rcases hmem _ hm with ⟨_, heq⟩ | ⟨_, heq⟩ <;> cases heq
    have hwrites : ∀ e ∈ s.manifest.entries, ∀ t, FileOp.writeTable e.fileName t ∉ ops.take i := by
      intro e he t ht
      rcases hmem _ ht with ⟨_, heq⟩ | ⟨_, heq⟩
      · exact h.sound.fileName_ne le_rfl he (FileOp.writeTable.inj heq).1
      · cases heq
    have hdeleted : ∃ inputs k, (∃ minKey maxKey,
        inputs = LeveledCompaction.inputs s.manifest level minKey maxKey) ∧
          (ops.take i).filterMap FileOp.removed? = (inputs.take k).map (·.fileName) := by
      rcases hshape with rfl | ⟨minKey, maxKey, t, rfl⟩
      · exact ⟨_, 0, ⟨[], [], rfl⟩, by simp⟩
      · refine ⟨_, i - 1, ⟨minKey, maxKey, rfl⟩, ?_⟩
        cases i with
        | zero => rfl
        | succ k =>
          rw [List.take_succ_cons, ← List.map_take, List.filterMap_cons_none rfl,
            List.filterMap_map]
          exact congrFun List.filterMap_eq_map _
    obtain ⟨inputs, k, hinputs, hdeleted⟩ := hdeleted
    refine ⟨level, inputs, k, hneeds, hlevel, hinputs, ?_, ?_, fun e he => ?_⟩
    · rw [deletedBy, htake, hdeleted]
    · rw [crashDir, htake, Directory.saved, FileOp.manifest_foldl_apply hsaves]
    · rw [crashDir, deletedBy, htake, FileOp.tables_foldl_apply (hwrites e he)]

namespace Interrupted

variable {level : ℕ} {inputs : List SSTableEntry} {i k : ℕ}

lemma lookup_eq (h : s.Interrupted level inputs i k) {e : SSTableEntry}
    (he : e ∈ s.manifest.entries) (key : Bytes) :
    (s.crashDir i).lookup key e =
      if e.fileName ∈ s.deletedBy i then none else s.dir.lookup key e := by
  rw [Directory.lookup, h.tables e he]
  split <;> rfl

lemma fileName_mem_deletedBy_iff (h : s.Interrupted level inputs i k) (hs : s.Loaded)
    {e : SSTableEntry} (he : e ∈ s.manifest.entries) :
    e.fileName ∈ s.deletedBy i ↔ e ∈ inputs.take k := by
  rw [h.deleted]
  constructor
  · intro hname
    obtain ⟨x, hx, hxe⟩ := List.mem_map.mp hname
    obtain ⟨minKey, maxKey, hinputs⟩ := h.inputs_eq
    have hx' : x ∈ s.manifest.entries := LeveledCompaction.mem_entries_of_mem_inputs
      (hinputs ▸ List.mem_of_mem_take hx)
    rw [(hs.sound.covered x hx').fileName, (hs.sound.covered e he).fileName] at hxe
    rwa [← hs.sound.id_inj x hx' e he (sstName_injective hxe)]
  · exact fun hmem => List.mem_map_of_mem hmem

/-- Deleted files are on the level or the next one. -/
lemma versions_of_ne (h : s.Interrupted level inputs i k) (hs : s.Loaded) (key : Bytes) {j : ℕ}
    (hj : j ≠ level) (hj' : j ≠ level + 1) :
    s.manifest.versions (s.crashDir i) key j = s.manifest.versions s.dir key j := by
  refine List.filterMap_congr fun e he => ?_
  have hmem := Manifest.mem_entries.mpr ⟨j, he⟩
  rw [h.lookup_eq hmem, if_neg]
  rw [h.fileName_mem_deletedBy_iff hs hmem]
  intro hdeleted
  obtain ⟨minKey, maxKey, hinputs⟩ := h.inputs_eq
  have hinput := List.mem_of_mem_take hdeleted
  rw [hinputs, LeveledCompaction.mem_inputs_iff hs.sound he] at hinput
  omega

/-- The oldest files of the level are deleted first. -/
lemma versions_level (h : s.Interrupted level inputs i k) (hs : s.Loaded) (key : Bytes) :
    s.manifest.versions (s.crashDir i) key level =
      ((s.manifest.level level).drop k).filterMap (s.dir.lookup key) := by
  have hdeleted : ∀ e ∈ s.manifest.level level,
      e.fileName ∈ s.deletedBy i ↔ e ∈ (s.manifest.level level).take k := by
    intro e he
    obtain ⟨minKey, maxKey, hinputs⟩ := h.inputs_eq
    rw [h.fileName_mem_deletedBy_iff hs (Manifest.mem_entries.mpr ⟨level, he⟩), hinputs,
      LeveledCompaction.inputs, List.take_append, List.mem_append, or_iff_left]
    intro htarget
    have hlevel := hs.sound.level_eq _ e (List.mem_of_mem_filter (List.mem_of_mem_take htarget))
    rw [hs.sound.level_eq level e he] at hlevel
    omega
  have hordered := hs.sound.ordered level
  rw [← List.take_append_drop k (s.manifest.level level), List.pairwise_append] at hordered
  have htaken : ((s.manifest.level level).take k).filterMap ((s.crashDir i).lookup key) = [] := by
    rw [List.filterMap_eq_nil_iff]
    intro e he
    have he' := List.mem_of_mem_take he
    rw [h.lookup_eq (Manifest.mem_entries.mpr ⟨level, he'⟩), if_pos ((hdeleted e he').mpr he)]
  have hkept : ((s.manifest.level level).drop k).filterMap ((s.crashDir i).lookup key) =
      ((s.manifest.level level).drop k).filterMap (s.dir.lookup key) := by
    refine List.filterMap_congr fun e he => ?_
    have he' := List.mem_of_mem_drop he
    rw [h.lookup_eq (Manifest.mem_entries.mpr ⟨level, he'⟩), if_neg]
    rw [hdeleted e he']
    exact fun htaken => absurd (hordered.2.2 e htaken e he) (lt_irrefl _)
  conv_lhs => rw [Manifest.versions, ← List.take_append_drop k (s.manifest.level level)]
  rw [List.filterMap_append, htaken, hkept, List.nil_append]

/-- A key that a remaining file of the level has reads as before. -/
lemma getLast?_versions_level (h : s.Interrupted level inputs i k) (hs : s.Loaded) {key : Bytes}
    (hne : s.manifest.versions (s.crashDir i) key level ≠ []) :
    (s.manifest.versions (s.crashDir i) key level).getLast? =
      (s.manifest.versions s.dir key level).getLast? := by
  rw [h.versions_level hs] at hne ⊢
  rw [Manifest.versions]
  conv_rhs => rw [← List.take_append_drop k (s.manifest.level level)]
  rw [List.filterMap_append, List.getLast?_append_of_ne_nil _ hne]

lemma read_crashDir (h : s.Interrupted level inputs i k) (hs : s.Loaded) (key : Bytes) :
    s.manifest.read (s.crashDir i) key =
      ((List.range level).findSome? fun j => (s.manifest.versions s.dir key j).getLast?).or
        ((s.manifest.versions (s.crashDir i) key level).getLast?.or
          (s.manifest.readNext (s.crashDir i) key level none)) := by
  have habove : ((List.range level).findSome?
        fun j => (s.manifest.versions (s.crashDir i) key j).getLast?) =
      (List.range level).findSome? fun j => (s.manifest.versions s.dir key j).getLast? := by
    refine findSome?_congr fun j hj => ?_
    have := List.mem_range.mp hj
    rw [h.versions_of_ne hs key (by omega) (by omega)]
  rw [Manifest.read_eq_readWith h.level_lt, Manifest.readWith, habove]
  rfl

/-- A key reads as before or as `after` says, exactly if it is safe. -/
lemma read_eq_or_iff (h : s.Interrupted level inputs i k) (hs : s.Loaded) (wal : MemTable)
    {key : Bytes} {after : Option (Option Bytes)}
    (hafter : after.join = (s.manifest.readWith s.dir key level
      (s.manifest.versions s.dir key level).head?).join) :
    (((wal.get key).or (s.manifest.read (s.crashDir i) key)).join =
        ((wal.get key).or (s.manifest.read s.dir key)).join ∨
      ((wal.get key).or (s.manifest.read (s.crashDir i) key)).join =
        ((wal.get key).or after).join) ↔ s.CrashSafeKey level wal i key := by
  have habove : (∀ j < level, s.manifest.versions s.dir key j = []) ↔ ((List.range level).findSome?
      fun j => (s.manifest.versions s.dir key j).getLast?) = none := by
    simp [List.findSome?_eq_none_iff]
  rw [Manifest.readWith_eq] at hafter
  rw [CrashSafeKey, habove, h.read_crashDir hs, Manifest.read_eq_readWith h.level_lt,
    Manifest.readWith_eq]
  cases wal.get key with
  | some v => simp
  | none =>
    simp only [Option.none_or, hafter, forall_const]
    cases (List.range level).findSome? fun j => (s.manifest.versions s.dir key j).getLast? with
    | some v => simp
    | none =>
      simp only [Option.none_or, forall_const]
      by_cases hnil : s.manifest.versions (s.crashDir i) key level = []
      · simp [hnil]
      · refine iff_of_true (.inl ?_) fun hnil' => absurd hnil' hnil
        obtain ⟨v, hv⟩ := Option.ne_none_iff_exists'.mp (mt List.getLast?_eq_none_iff.mp hnil)
        rw [← h.getLast?_versions_level hs hnil, hv]
        rfl

lemma crashSafeKey_of_not_mem (h : s.Interrupted level inputs i k) (wal : MemTable) {key : Bytes}
    (hkey : ∀ name ∈ s.deletedBy i, ∀ t ∈ s.dir.tables name, ∀ x ∈ t.entries, x.key ≠ key) :
    s.CrashSafeKey level wal i key := by
  have hversions : ∀ j, s.manifest.versions (s.crashDir i) key j =
      s.manifest.versions s.dir key j := by
    refine fun j => List.filterMap_congr fun e he => ?_
    rw [h.lookup_eq (Manifest.mem_entries.mpr ⟨j, he⟩)]
    split
    · next hdeleted =>
      refine Eq.symm (Option.eq_none_iff_forall_ne_some.mpr fun v hv => ?_)
      obtain ⟨t, ht, hv⟩ := Option.bind_eq_some_iff.mp hv
      obtain ⟨x, hx, hxkey⟩ := SSTable.exists_mem_of_get hv
      exact hkey _ hdeleted t ht x hx hxkey
    · rfl
  intro _ _ hnil
  rw [hversions] at hnil
  simp [Manifest.readNext, hversions, hnil]

end Interrupted

lemma Loaded.tryMaybeCompact (h : s.Loaded) : s.tryMaybeCompact.Loaded := by
  rcases compactionOps_cases h with ⟨-, hs⟩ | ⟨_, _, -, -, -, -, -, hloaded, -⟩
  · rwa [hs]
  · exact hloaded

lemma Loaded.read_tryMaybeCompact (h : s.Loaded) {level i : ℕ}
    (hneeds : s.config.compaction.needsCompaction s.manifest = some level)
    (hi : i < s.compactionOps.length) (key : Bytes) :
    (s.tryMaybeCompact.manifest.read s.tryMaybeCompact.dir key).join =
      (s.manifest.readWith s.dir key level (s.manifest.versions s.dir key level).head?).join := by
  rcases compactionOps_cases h with ⟨hops, -⟩ | ⟨level', _, hneeds', -, -, -, -, -, hread⟩
  · simp [hops] at hi
  · obtain rfl : level = level' := Option.some.inj (hneeds.symm.trans hneeds')
    exact hread key

lemma Loaded.crashDir (h : s.Loaded) (i : ℕ) :
    (s.crashDir i).saved.numLevels = numLevels ∧ (s.crashDir i).saved.Sound (s.crashDir i) := by
  by_cases hi : i < s.compactionOps.length
  · obtain ⟨level, inputs, k, hint⟩ := exists_interrupted h hi
    rw [hint.saved_eq, h.saved]
    refine ⟨h.numLevels_eq, h.sound.of_tables fun e he t ht => ?_⟩
    rw [hint.tables e he] at ht
    split at ht
    · cases ht
    · exact ht
  · rw [crashDir_of_length_le h (not_lt.mp hi)]
    rw [h.tryMaybeCompact.saved]
    exact ⟨h.tryMaybeCompact.numLevels_eq, h.tryMaybeCompact.sound⟩

section

variable [Crc32]

/-- What is opened depends on the log only as long as it can be read. -/
lemma openDir_of_openDir {dir : Directory} {walFile : Option Bytes} {config : LsmConfig}
    {before : LsmTree} (h : openDir dir walFile config = .ok before) (dir' : Directory) :
    ∃ s', openDir dir' walFile config = .ok s' ∧ s'.activeMemtable = before.activeMemtable ∧
      s'.immutableMemtables = [] ∧ s'.dir = dir' ∧
      s'.manifest = dir'.saved := by
  rw [openDir] at h ⊢
  simp only [bind_eq_ok_iff] at h
  obtain ⟨records, hrecords, ops, hops, h⟩ := h
  obtain rfl := Except.ok.inj h
  refine ⟨{
    activeMemtable := ops.foldl WalOp.apply (MemTable.new config.memtableSizeLimit)
    immutableMemtables := []
    manifest := dir'.saved
    wal := WalWriter.openFile (walFile.getD [])
    sstableCache := loadCache dir'.saved dir'
    config := config
    dir := dir' }, ?_, rfl, rfl, rfl, rfl⟩
  rw [hrecords]
  simp only [bind, Except.bind, hops]
  rfl

/-- If the directory can be opened before the compaction, it can be opened after a crash at any
point of it, and each key then reads as before or as after the compaction exactly if the crash is
safe. -/
lemma crashed_reads_iff (h : s.Loaded) {walFile : Option Bytes} {config : LsmConfig}
    {before : LsmTree} (hbefore : openDir s.dir walFile config = .ok before) (i : ℕ) :
    ∃ crashed after, openDir (s.crashDir i) walFile config = .ok crashed ∧
      openDir s.tryMaybeCompact.dir walFile config = .ok after ∧
      ((∀ key, crashed.get key = before.get key ∨ crashed.get key = after.get key) ↔
        s.CrashSafe before.activeMemtable i) := by
  have hget : ∀ dir', dir'.saved.numLevels = numLevels →
      dir'.saved.Sound dir' →
      ∃ s', openDir dir' walFile config = .ok s' ∧
        ∀ key, s'.get key = ((before.activeMemtable.get key).or
          (dir'.saved.read dir' key)).join := by
    intro dir' hnum hsound
    obtain ⟨s', hs', hactive, himm, hdir, hmanifest⟩ := openDir_of_openDir hbefore dir'
    refine ⟨s', hs', fun key => ?_⟩
    rw [(Loaded.openDir hnum hsound hs').get_eq himm, hactive, hdir, hmanifest]
  have hcompacted := h.tryMaybeCompact
  obtain ⟨crashed, hcrashed, hcrashedGet⟩ := hget _ (h.crashDir i).1 (h.crashDir i).2
  obtain ⟨after, hafter, hafterGet⟩ := hget _ (hcompacted.saved.symm ▸ hcompacted.numLevels_eq)
    (hcompacted.saved.symm ▸ hcompacted.sound)
  obtain ⟨before', hbefore', hbeforeGet⟩ := hget s.dir (h.saved.symm ▸ h.numLevels_eq)
    (h.saved.symm ▸ h.sound)
  obtain rfl : before = before' := Except.ok.inj (hbefore.symm.trans hbefore')
  refine ⟨crashed, after, hcrashed, hafter, ?_⟩
  by_cases hi : i < s.compactionOps.length
  · obtain ⟨level, inputs, k, hint⟩ := exists_interrupted h hi
    have hread := h.read_tryMaybeCompact hint.needs hi
    have hkey : ∀ key, (crashed.get key = before.get key ∨ crashed.get key = after.get key) ↔
        s.CrashSafeKey level before.activeMemtable i key := by
      intro key
      rw [hcrashedGet, hbeforeGet, hafterGet, hint.saved_eq, h.saved, hcompacted.saved]
      exact hint.read_eq_or_iff h _ (hread key)
    constructor
    · intro hall _ level' hlevel' name _ t _ x _
      obtain rfl : level = level' := Option.some.inj (hint.needs.symm.trans hlevel')
      exact (hkey x.key).mp (hall x.key)
    · intro hsafe key
      rw [hkey]
      by_cases hmem : ∃ name ∈ s.deletedBy i, ∃ t ∈ s.dir.tables name, ∃ x ∈ t.entries, x.key = key
      · obtain ⟨name, hname, t, ht, x, hx, rfl⟩ := hmem
        exact hsafe hi level hint.needs name hname t ht x hx
      · exact hint.crashSafeKey_of_not_mem _ fun name hname t ht x hx hxkey =>
          hmem ⟨name, hname, t, ht, x, hx, hxkey⟩
  · rw [crashDir_of_length_le h (not_lt.mp hi)] at hcrashed
    obtain rfl : crashed = after := Except.ok.inj (hcrashed.symm.trans hafter)
    exact iff_of_true (fun key => .inr rfl) fun hi' => absurd hi' hi

end

end LsmTree

/-! ### Crashes over files -/

namespace FileTree

/-- Steps of a tree. A put or delete is a write, and if the memtable is full then also a flush and
a compaction. -/
inductive CrashOp where
  | write (op : WalOp)
  | flush
  | maybeCompact
  | reopen (config : FileConfig)
  | crash (i : ℕ) (config : FileConfig)

section

variable [BloomHash]

/-- The directory when `i` of the changes of a compaction have been made. -/
def crashDir (s : FileTree) (i : ℕ) : Files :=
  (s.compactionOps.take i).foldl (FileOp.applyFile s.config.blockSize) s.dir

/-- The tables that a step writes to files. -/
def crashWritten (s : FileTree) : CrashOp → List SSTable
  | .flush => s.flushTables
  | .maybeCompact => s.compactTables
  | .crash i _ => (s.compactionOps.take i).filterMap FileOp.table?
  | _ => []

/-- These tables fit into their files. -/
def CrashBounded (s : FileTree) (op : CrashOp) : Prop :=
  ∀ t ∈ s.crashWritten op, SSTableWriter.Writable s.config.blockSize t.entries
  deriving Decidable

variable [Crc32]

def crashExecute (s : FileTree) : CrashOp → Except Abort FileTree
  | .write op => .ok (s.logged op)
  | .flush => .ok (s.tryFlushMemtable none).1
  | .maybeCompact => .ok s.tryMaybeCompact.1
  | .reopen config => openDir s.dir (some s.wal.file) config
  | .crash i config => openDir (s.crashDir i) (some s.wal.file) config

/-- The tree after the steps `ops` on a new directory. -/
def crashRun (config : FileConfig) (ops : List CrashOp) : Except Abort FileTree :=
  ops.foldlM crashExecute (create config)

variable {f : FileTree}

omit [Crc32] in
/-- All changes together are what compaction does to the directory. -/
lemma crashDir_of_length_le {i : ℕ} (hi : f.compactionOps.length ≤ i) :
    f.crashDir i = f.tryMaybeCompact.1.dir := by
  rw [crashDir, List.take_of_length_le hi, compactionOps, CompactionConfig.fileOps,
    tryMaybeCompact]
  cases f.config.compaction.needsCompaction f.manifest with
  | none => rfl
  | some level =>
    dsimp only
    cases LeveledCompaction.compactOps f.dir.readTable f.manifest level with
    | error e => rfl
    | ok r =>
      obtain ⟨m', ops, result⟩ := r
      simp only [List.foldl_append]
      rfl

namespace Intact

omit [BloomHash] [Crc32] in
lemma compactionOps_eq [BloomHash] (h : f.Intact) : f.compactionOps = f.decode.compactionOps := by
  have hlsm : f.decode.compactionOps = f.config.compaction.fileOps f.dir.decode.readTable
    f.manifest := rfl
  rw [hlsm, compactionOps, CompactionConfig.fileOps, CompactionConfig.fileOps]
  split
  · rfl
  · next level _ =>
    rw [h.compactOps_eq level]
    cases LeveledCompaction.compactOps f.dir.decode.readTable f.manifest level <;> rfl

omit [Crc32] in
lemma decode_crashDir (h : f.Intact) {i : ℕ}
    (hwritten : ∀ t ∈ (f.compactionOps.take i).filterMap FileOp.table?,
      SSTableWriter.Writable f.config.blockSize t.entries) :
    (f.crashDir i).decode = f.decode.crashDir i := by
  rw [crashDir, FileOp.decode_foldl_applyFile _ hwritten, h.compactionOps_eq]
  rfl

omit [Crc32] in
/-- The files that a crash leaves listed are intact. -/
lemma crashDir (h : f.Intact) (hs : f.decode.Loaded) {i : ℕ}
    (hwritten : ∀ t ∈ (f.compactionOps.take i).filterMap FileOp.table?,
      SSTableWriter.Writable f.config.blockSize t.entries) :
    ∀ e ∈ (f.crashDir i).saved.entries, (f.crashDir i).Intact e.fileName := by
  by_cases hi : i < f.compactionOps.length
  · obtain ⟨level, inputs, k, hint⟩ := LsmTree.exists_interrupted hs (h.compactionOps_eq ▸ hi)
    have hsaved : (f.crashDir i).saved = f.dir.saved := by
      have hcrash := hint.saved_eq
      rw [← h.decode_crashDir hwritten] at hcrash
      exact hcrash
    rw [hsaved]
    exact fun e he => FileOp.intact_foldl_applyFile hwritten (.inl (h.saved e he))
  · have hall := not_lt.mp hi
    rw [List.take_of_length_le hall] at hwritten
    rw [crashDir_of_length_le hall]
    exact (h.tryMaybeCompact hwritten).intact.saved

end Intact

/-- The files are intact, and the manifest of their tables is sound, saved and loaded. -/
structure Restartable (f : FileTree) : Prop where
  intact : f.Intact
  loaded : f.decode.Loaded

lemma Restartable.openDir {dir : Files} {walFile : Option Bytes} {config : FileConfig}
    (hintact : ∀ e ∈ dir.saved.entries, dir.Intact e.fileName)
    (hnum : dir.saved.numLevels = numLevels) (hsound : dir.saved.Sound dir.decode)
    (hf : FileTree.openDir dir walFile config = .ok f) : f.Restartable := by
  rcases (openDir_represents hintact walFile config).cases with
    ⟨f', s, hf', hs, hrep⟩ | ⟨e, herr, -⟩
  · obtain rfl := Except.ok.inj (hf.symm.trans hf')
    exact ⟨hrep.intact, hrep.decode ▸ LsmTree.Loaded.openDir hnum hsound hs⟩
  · cases hf.symm.trans herr

/-- Every step keeps it, crashes included. -/
lemma Restartable.crashExecute (h : f.Restartable) {op : CrashOp} (hop : f.CrashBounded op)
    {f' : FileTree} (hf : f.crashExecute op = .ok f') : f'.Restartable := by
  cases op with
  | write op =>
    obtain rfl := Except.ok.inj hf
    exact ⟨⟨h.intact.listed, h.intact.saved, h.intact.reads⟩, h.loaded.of_manifest_eq rfl rfl rfl⟩
  | flush =>
    obtain ⟨f'', hflush, hrep⟩ := h.intact.flushMemtable hop
    rw [FileTree.crashExecute, tryFlushMemtable_of_ok hflush] at hf
    obtain rfl := Except.ok.inj hf
    exact ⟨hrep.intact, hrep.decode ▸ h.loaded.flushMemtable.1⟩
  | maybeCompact =>
    obtain rfl := Except.ok.inj hf
    have hrep := h.intact.tryMaybeCompact hop
    exact ⟨hrep.intact, hrep.decode ▸ h.loaded.tryMaybeCompact⟩
  | reopen config =>
    have hsaved : f.dir.saved = f.manifest := h.loaded.saved
    exact .openDir h.intact.saved (hsaved ▸ h.loaded.numLevels_eq) (hsaved ▸ h.loaded.sound) hf
  | crash i config =>
    have hcrash := h.loaded.crashDir i
    rw [← h.intact.decode_crashDir hop] at hcrash
    exact .openDir (h.intact.crashDir h.loaded hop) hcrash.1 hcrash.2 hf

lemma restartable_of_crashRun {config : FileConfig} {ops : List CrashOp}
    (hbounded : AlongOk crashExecute CrashBounded (create config) ops)
    (hf : crashRun config ops = .ok f) : f.Restartable :=
  hbounded.foldlM_invariant (fun _ _ _ h hop hstep => h.crashExecute hop hstep)
    ⟨intact_create config, (consistent_create config).loaded⟩ hf

/-- **Crashes inside a compaction.** In every state that a run reaches, earlier crashes included,
all tables of which fit into their files: if the directory can be opened before the compaction, it
can be opened after a crash at any point of it, and each key then reads as before or as after the
compaction exactly if the crash is safe. -/
theorem openDir_crashDir_iff {config : FileConfig} {ops : List CrashOp}
    (hbounded : AlongOk crashExecute CrashBounded (create config) (ops ++ [.maybeCompact]))
    (hf : crashRun config ops = .ok f) {config' : FileConfig} {before : FileTree}
    (hbefore : openDir f.dir (some f.wal.file) config' = .ok before) (i : ℕ) :
    ∃ crashed after, openDir (f.crashDir i) (some f.wal.file) config' = .ok crashed ∧
      openDir f.tryMaybeCompact.1.dir (some f.wal.file) config' = .ok after ∧
      ((∀ key, crashed.get key = before.get key ∨ crashed.get key = after.get key) ↔
        f.decode.CrashSafe before.activeMemtable i) := by
  have h := restartable_of_crashRun hbounded.of_append hf
  have hwritten : ∀ t ∈ f.compactTables, SSTableWriter.Writable f.config.blockSize t.entries :=
    hbounded.last hf
  have htaken : ∀ t ∈ (f.compactionOps.take i).filterMap FileOp.table?,
      SSTableWriter.Writable f.config.blockSize t.entries := fun t ht =>
    hwritten t (((List.take_sublist i _).filterMap _).subset ht)
  -- what is opened over files is what is opened over tables
  have hopen : ∀ {dir : Files} {s : LsmTree},
      (∀ e ∈ dir.saved.entries, dir.Intact e.fileName) →
      LsmTree.openDir dir.decode (some f.wal.file) config'.toLsmConfig = .ok s →
      ∃ f', openDir dir (some f.wal.file) config' = .ok f' ∧ f'.Represents s := by
    intro dir s hintact hs
    rcases (openDir_represents hintact (some f.wal.file) config').cases with
      ⟨f', s', hf', hs', hrep⟩ | ⟨e, -, herr⟩
    · obtain rfl := Except.ok.inj (hs.symm.trans hs')
      exact ⟨f', hf', hrep⟩
    · cases hs.symm.trans herr
  rcases (openDir_represents h.intact.saved (some f.wal.file) config').cases with
    ⟨before', s, hbefore', hs, hrep⟩ | ⟨e, herr, -⟩
  · obtain rfl := Except.ok.inj (hbefore.symm.trans hbefore')
    obtain ⟨s₁, s₂, hs₁, hs₂, hiff⟩ := LsmTree.crashed_reads_iff h.loaded hs i
    rw [← h.intact.decode_crashDir htaken] at hs₁
    have hcompacted := h.intact.tryMaybeCompact hwritten
    rw [← hcompacted.decode] at hs₂
    obtain ⟨crashed, hcrashed, hrep₁⟩ := hopen (h.intact.crashDir h.loaded htaken) hs₁
    obtain ⟨after, hafter, hrep₂⟩ := hopen hcompacted.intact.saved hs₂
    refine ⟨crashed, after, hcrashed, hafter, ?_⟩
    rw [← hrep₁.decode, ← hrep₂.decode, ← hrep.decode] at hiff
    simp only [hrep₁.intact.get, hrep₂.intact.get, hrep.intact.get, Except.ok.injEq]
    exact hiff
  · cases hbefore.symm.trans herr

end

/-- Two versions of one key, flushed to two files of level 0. -/
def twoVersions : List CrashOp :=
  [.write (.put [1] [10]), .flush, .write (.put [1] [20]), .flush]

/-- A crash when the older of two files has been deleted: its only key is in the other one. -/
theorem openDir_crashDir_twoVersions :
    letI := BloomHash.sip
    letI := Crc32.ieee
    ∃ f before crashed after, crashRun ⟨⟨1024, 2, 10⟩, 32⟩ twoVersions = .ok f ∧
      openDir f.dir (some f.wal.file) .default = .ok before ∧
      f.decode.deletedBy 2 = ["00000000.sst"] ∧
      openDir (f.crashDir 2) (some f.wal.file) .default = .ok crashed ∧
      openDir f.tryMaybeCompact.1.dir (some f.wal.file) .default = .ok after ∧
      ∀ key, crashed.get key = before.get key ∨ crashed.get key = after.get key := by
  have hrun : letI := BloomHash.sip; letI := Crc32.ieee
      (crashRun ⟨⟨1024, 2, 10⟩, 32⟩ twoVersions).toOption.map (fun f =>
        (f.decode.deletedBy 2, (openDir f.dir (some f.wal.file) .default).toOption.map
          fun before => decide (f.decode.CrashSafe before.activeMemtable 2))) =
        some (["00000000.sst"], some true) := by
    decide +kernel
  have hbounded : letI := BloomHash.sip; letI := Crc32.ieee
      AlongOk crashExecute CrashBounded (create ⟨⟨1024, 2, 10⟩, 32⟩)
        (twoVersions ++ [.maybeCompact]) := by
    decide +kernel
  let _ := BloomHash.sip
  let _ := Crc32.ieee
  cases hf : crashRun ⟨⟨1024, 2, 10⟩, 32⟩ twoVersions with
  | error e => simp [hf, Except.toOption] at hrun
  | ok f =>
    cases hbefore : openDir f.dir (some f.wal.file) .default with
    | error e => simp [hf, hbefore, Except.toOption] at hrun
    | ok before =>
      simp only [hf, hbefore, Except.toOption, Option.map_some, Option.some.injEq, Prod.mk.injEq,
        decide_eq_true_eq] at hrun
      obtain ⟨crashed, after, hcrashed, hafter, hiff⟩ :=
        openDir_crashDir_iff hbounded hf hbefore 2
      exact ⟨f, before, crashed, after, rfl, hbefore, hrun.1, hcrashed, hafter, hiff.mpr hrun.2⟩

/-- Four keys, flushed to four files of level 0. -/
def fourKeys : List CrashOp :=
  [.write (.put [1] [10]), .flush, .write (.put [2] [20]), .flush, .write (.put [3] [30]), .flush,
    .write (.put [4] [40]), .flush]

/-- With the default configuration: a crash when the merged file has been written and the first of
the four files deleted. Key `[1]` is then gone, which it is neither before nor after. -/
theorem fourKeys_crash :
    letI := BloomHash.sip
    letI := Crc32.ieee
    ∃ f, (crashRun .default fourKeys).toOption = some f ∧
      (openDir f.dir (some f.wal.file) .default >>= (·.get [1])).toOption = some (some [10]) ∧
      (openDir (f.crashDir 2) (some f.wal.file) .default >>= (·.get [1])).toOption = some none ∧
      (openDir f.tryMaybeCompact.1.dir (some f.wal.file) .default >>= (·.get [1])).toOption =
        some (some [10]) := by
  have hrun : letI := BloomHash.sip; letI := Crc32.ieee
      (crashRun .default fourKeys).toOption.map (fun f =>
        ((openDir f.dir (some f.wal.file) .default >>= (·.get [1])).toOption,
          (openDir (f.crashDir 2) (some f.wal.file) .default >>= (·.get [1])).toOption,
          (openDir f.tryMaybeCompact.1.dir (some f.wal.file) .default >>=
            (·.get [1])).toOption)) = some (some (some [10]), some none, some (some [10])) := by
    decide +kernel
  obtain ⟨f, hf, hreads⟩ := Option.map_eq_some_iff.mp hrun
  simp only [Prod.mk.injEq] at hreads
  exact ⟨f, hf, hreads⟩

end FileTree

end Raftrust.Storage

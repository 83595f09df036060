import Raftrust.Storage.MapRefinement

/-!
# Flushes that fail

A flush freezes the active memtable before it writes the SSTable and the manifest. If one of these
writes fails, the frozen memtable stays among the immutable ones and the log keeps its operations.
No later flush writes it, but the next one that succeeds deletes the log.
-/

namespace Raftrust.Storage

open Lib

/-- The write of a flush that fails. A failed write of the SSTable may leave a file, which no
manifest lists. -/
inductive FlushFault where
  | sstable (e : Error) (file : Option Bytes)
  | manifest (e : Error)

/-- Calls of the tree, with the write that fails in their flush. -/
inductive FaultyOp where
  | put (key value : Bytes) (fault : Option FlushFault)
  | delete (key : Bytes) (fault : Option FlushFault)
  | flush (fault : Option FlushFault)

def FaultyOp.record? : FaultyOp → Option WalOp
  | .put key value _ => some (.put key value)
  | .delete key _ => some (.delete key)
  | .flush _ => none

/-- The file of a name is replaced or removed. -/
def Directory.setTable (dir : Directory) (name : String) (file : Option SSTable) : Directory :=
  { dir with tables := fun n => if n = name then file else dir.tables n }

def Files.setTable (dir : Files) (name : String) (file : Option Bytes) : Files :=
  { dir with tables := fun n => if n = name then file else dir.tables n }

/-! ### Calls over files -/

/-- Open the SSTables whose files exist, up to the first error. -/
def Files.tryLoadReaders (dir : Files) :
    List SSTableEntry → List (SSTableEntry × SSTableReader) × Except Abort Unit
  | [] => ([], .ok ())
  | e :: es =>
    match dir.tables e.fileName with
    | none => dir.tryLoadReaders es
    | some data =>
      match SSTableReader.openBytes data with
      | .error err => ([], .error err)
      | .ok reader =>
        let (cache, result) := dir.tryLoadReaders es
        ((e, reader) :: cache, result)

namespace FileTree

section

variable [BloomHash]

/-- Flush the active memtable. What was done before an error stays. -/
def tryFlushMemtable (s : FileTree) (fault : Option FlushFault) :
    FileTree × Except Abort Unit :=
  if s.activeMemtable.isEmpty then (s, .ok ())
  else
    let frozen := s.activeMemtable
    let (sstId, fileName, manifest) := s.manifest.nextSstFilename
    let s := { s with
      activeMemtable := MemTable.new s.config.memtableSizeLimit
      immutableMemtables := s.immutableMemtables ++ [frozen]
      manifest := manifest }
    match fault with
    | some (.sstable e file) => ({ s with dir := s.dir.setTable fileName file }, .error (.error e))
    | _ =>
      let entries := frozen.iter
      let data := SSTableWriter.write s.config.blockSize entries
      let sstEntry : SSTableEntry :=
        { id := sstId, level := 0, fileName := fileName
          minKey := (entries.head?.map (·.key)).getD []
          maxKey := (entries.getLast?.map (·.key)).getD [] }
      let s := { s with
        manifest := s.manifest.addSstable sstEntry
        dir := s.dir.writeTable fileName data }
      match fault with
      | some (.manifest e) => (s, .error (.error e))
      | _ =>
        let s := { s with dir := { s.dir with manifest := some s.manifest } }
        match SSTableReader.openBytes data with
        | .error e => (s, .error e)
        | .ok reader =>
          -- the frozen memtable was the last one to be added
          ({ s with
              immutableMemtables := s.immutableMemtables.dropLast
              wal := WalWriter.openFile []
              sstableCache := s.sstableCache ++ [(sstEntry, reader)] }, .ok ())

/-- Run compaction if needed. One that cannot read its files has not changed anything. -/
def tryMaybeCompact (s : FileTree) : FileTree × Except Abort Unit :=
  match s.config.compaction.needsCompaction s.manifest with
  | none => (s, .ok ())
  | some level =>
    match LeveledCompaction.compactOps s.dir.readTable s.manifest level with
    | .error e => (s, .error e)
    | .ok (manifest, ops, _) =>
      let dir := ops.foldl (FileOp.applyFile s.config.blockSize) s.dir
      let dir := { dir with manifest := some manifest }
      let (sstableCache, result) := dir.tryLoadReaders manifest.entries
      ({ s with manifest := manifest, dir := dir, sstableCache := sstableCache }, result)

/-- What follows a write. Compaction runs only after a flush that succeeded. -/
def tryAfterWrite (s : FileTree) (fault : Option FlushFault) :
    FileTree × Except Abort Unit :=
  if s.activeMemtable.isFull then
    match s.tryFlushMemtable fault with
    | (s, .error e) => (s, .error e)
    | (s, .ok _) => s.tryMaybeCompact
  else (s, .ok ())

/-- The table that a flush writes, if any. -/
def tryFlushTables (s : FileTree) : Option FlushFault → List SSTable
  | some (.sstable _ _) => []
  | _ => s.flushTables

/-- The tables that follow a write. -/
def tryWriteTables (s : FileTree) (fault : Option FlushFault) : List SSTable :=
  if s.activeMemtable.isFull then
    s.tryFlushTables fault ++ match s.tryFlushMemtable fault with
      | (s, .ok _) => s.compactTables
      | (_, .error _) => []
  else []

variable [Crc32]

def tryExecute (s : FileTree) : FaultyOp → FileTree × Except Abort Unit
  | .put key value fault => (s.logged (.put key value)).tryAfterWrite fault
  | .delete key fault => (s.logged (.delete key)).tryAfterWrite fault
  | .flush fault => s.tryFlushMemtable fault

/-- The tree after a call, whatever the call returned. -/
def faultyStep (s : FileTree) (op : FaultyOp) : FileTree :=
  (s.tryExecute op).1

/-- The tables that a call writes to files. -/
def tryWritten (s : FileTree) : FaultyOp → List SSTable
  | .put key value fault => (s.logged (.put key value)).tryWriteTables fault
  | .delete key fault => (s.logged (.delete key)).tryWriteTables fault
  | .flush fault => s.tryFlushTables fault

/-- These tables fit into their files. -/
def FaultyBounded (s : FileTree) (op : FaultyOp) : Prop :=
  ∀ t ∈ s.tryWritten op, SSTableWriter.Writable s.config.blockSize t.entries
  deriving Decidable

/-- Reopening the directory gives a tree that reads the same. -/
def Recoverable (s : FileTree) (config : FileConfig) : Prop :=
  ∃ s', openDir s.dir (some s.wal.file) config = .ok s' ∧ ∀ key, s'.get key = s.get key

end

end FileTree

namespace LsmTree

/-- After a compaction, if it is needed. One that fails has not changed anything. -/
def tryMaybeCompact (s : LsmTree) : LsmTree :=
  match s.maybeCompact with
  | .ok s' => s'
  | .error _ => s

/-- Reopening the directory gives a tree that reads the same. -/
def Recoverable [Crc32] (s : LsmTree) (config : LsmConfig) : Prop :=
  ∃ s', openDir s.dir (some s.wal.file) config = .ok s' ∧ ∀ key, s'.get key = s.get key

/-! ### Frozen memtables -/

/-- What the frozen memtables say about a key, newest first. -/
def frozen (s : LsmTree) (key : Bytes) : Option (Option Bytes) :=
  s.immutableMemtables.reverse.findSome? (·.get key)

/-- What the files will say about a key when the active memtable is one of them. -/
def readFlushed (s : LsmTree) (key : Bytes) : Option (Option Bytes) :=
  (s.activeMemtable.get key).or (s.manifest.read s.dir key)

/-- The same when level 0 has been compacted as well: its oldest version stays. -/
def readCompacted (s : LsmTree) (key : Bytes) : Option (Option Bytes) :=
  s.manifest.readWith s.dir key 0
    ((s.manifest.versions s.dir key 0).head?.or (s.activeMemtable.get key))

/-- What the frozen memtables say is what `read` says. -/
def FrozenAgree (s : LsmTree) (read : Bytes → Option (Option Bytes)) : Prop :=
  ∀ m ∈ s.immutableMemtables, ∀ key ∈ m.data.keys, (s.frozen key).join = (read key).join
  deriving Decidable

/-- If a flush succeeds, frozen memtables agree with the files there will be. -/
def FlushAgrees (s : LsmTree) (read : Bytes → Option (Option Bytes)) : Option FlushFault → Prop
  | none => ¬s.activeMemtable.isEmpty → s.FrozenAgree read
  | some _ => True

instance (s : LsmTree) (read : Bytes → Option (Option Bytes)) :
    (fault : Option FlushFault) → Decidable (s.FlushAgrees read fault)
  | none => inferInstanceAs (Decidable (¬s.activeMemtable.isEmpty → s.FrozenAgree read))
  | some _ => .isTrue trivial

/-- The same for the flush of a full memtable, which may start a compaction of level 0. -/
def WriteAgrees (s : LsmTree) (fault : Option FlushFault) : Prop :=
  s.activeMemtable.isFull → s.FlushAgrees
    (if s.config.l0CompactionTrigger ≤ s.manifest.levelCount 0 + 1 then s.readCompacted
      else s.readFlushed) fault
  deriving Decidable

/-- No flush succeeds while a frozen memtable has a key for which it does not agree with the files
that there will be. -/
def KeepsFrozen [Crc32] (s : LsmTree) : FaultyOp → Prop
  | .put key value fault => (s.logged (.put key value)).WriteAgrees fault
  | .delete key fault => (s.logged (.delete key)).WriteAgrees fault
  | .flush fault => s.FlushAgrees s.readFlushed fault

instance [Crc32] (s : LsmTree) : (op : FaultyOp) → Decidable (s.KeepsFrozen op)
  | .put key value fault =>
    inferInstanceAs (Decidable ((s.logged (.put key value)).WriteAgrees fault))
  | .delete key fault => inferInstanceAs (Decidable ((s.logged (.delete key)).WriteAgrees fault))
  | .flush fault => inferInstanceAs (Decidable (s.FlushAgrees s.readFlushed fault))

/-! ### Flushes, case by case -/

lemma needsCompaction_eq_zero_iff {config : CompactionConfig} {m : Manifest} :
    config.needsCompaction m = some 0 ↔ config.l0CompactionTrigger ≤ m.levelCount 0 := by
  rw [CompactionConfig.needsCompaction]
  split
  · next hle => exact iff_of_true rfl hle
  · next hlt =>
    refine iff_of_false (fun h => ?_) hlt
    have := List.mem_range'_1.mp (List.mem_of_find?_eq_some h)
    omega

variable {s : LsmTree}

/-- A file that is newer than all others of a level 0 is read first. -/
lemma insertionSort_readsBefore_concat {p : SSTableEntry × SSTable} (hp : p.1.level = 0)
    {cache : List (SSTableEntry × SSTable)} (h : ∀ q ∈ cache, q.1.id < p.1.id) :
    (cache ++ [p]).insertionSort ReadsBefore = p :: cache.insertionSort ReadsBefore := by
  induction cache with
  | nil => rfl
  | cons q cache ih =>
    have hq : ¬ReadsBefore q p := by
      have := h q List.mem_cons_self
      simp only [ReadsBefore]
      omega
    rw [List.cons_append, List.insertionSort_cons,
      ih fun q' hq' => h q' (List.mem_cons_of_mem q hq'), List.orderedInsert_of_not_le _ _ hq,
      List.insertionSort_cons]

/-! ### What the log and the frozen memtables hold -/

/-- The operations `log` were written since the last flush that succeeded. The first `n` frozen
memtables are older than that flush. -/
structure Recorded [Crc32] (s : LsmTree) (log : List WalOp) (n : ℕ) : Prop where
  numLevels_eq : s.manifest.numLevels = numLevels
  valid : s.manifest.Valid s.dir
  saved_numLevels_eq : s.dir.saved.numLevels = numLevels
  saved_valid : s.dir.saved.Valid s.dir
  saved_le : s.dir.saved.nextSstId ≤ s.manifest.nextSstId
  older : ∀ p ∈ s.sstableCache, p.1.id < s.manifest.nextSstId
  loaded : ∀ key, s.frozen key = none → s.getSstables key = s.manifest.read s.dir key
  buffer : s.wal.buffer = []
  file : s.wal.file = encodeAll (log.map fun op => ⟨op.encode⟩)
  short : ∀ op ∈ log, op.encode.length ≤ maxRecordLen
  le_length : n ≤ s.immutableMemtables.length
  replayed : ∀ key, (log.foldl (fun data op => data.insert op.key op.value)
      (∅ : Std.TreeMap Bytes (Option Bytes)))[key]? =
    (s.activeMemtable.get key).or
      ((s.immutableMemtables.drop n).reverse.findSome? (·.get key))

/-- The saved files say what the older frozen memtables and the loaded files say. -/
def Faithful (s : LsmTree) (n : ℕ) : Prop :=
  ∀ key, (((s.immutableMemtables.take n).reverse.findSome? (·.get key)).or
    (s.getSstables key)).join = (s.dir.saved.read s.dir key).join

lemma frozen_eq_or (s : LsmTree) (n : ℕ) (key : Bytes) :
    s.frozen key = ((s.immutableMemtables.drop n).reverse.findSome? (·.get key)).or
      ((s.immutableMemtables.take n).reverse.findSome? (·.get key)) := by
  rw [← List.findSome?_append, ← List.reverse_append, List.take_append_drop, frozen]

lemma frozen_ne_none_iff {key : Bytes} :
    s.frozen key ≠ none ↔ ∃ m ∈ s.immutableMemtables, key ∈ m.data.keys := by
  simp [frozen, List.findSome?_eq_none_iff, MemTable.get]

/-- Frozen memtables that are all old agree with the files, or these are not faithful. -/
lemma faithful_length_iff (hsaved : s.dir.saved = s.manifest)
    (hloaded : ∀ key, s.frozen key = none → s.getSstables key = s.manifest.read s.dir key) :
    s.Faithful s.immutableMemtables.length ↔ s.FrozenAgree (s.manifest.read s.dir) := by
  rw [Faithful, FrozenAgree, hsaved, List.take_length]
  change (∀ key, ((s.frozen key).or (s.getSstables key)).join = _) ↔ _
  constructor
  · intro h m hm key hkey
    obtain ⟨v, hv⟩ := Option.ne_none_iff_exists'.mp (frozen_ne_none_iff.mpr ⟨m, hm, hkey⟩)
    rw [← h key, hv]
    rfl
  · intro h key
    cases hfrozen : s.frozen key with
    | none => rw [Option.none_or, hloaded key hfrozen]
    | some v =>
      obtain ⟨m, hm, hkey⟩ := frozen_ne_none_iff.mp (by rw [hfrozen]; exact Option.some_ne_none v)
      rw [← h m hm key hkey, hfrozen]
      rfl

section

variable [Crc32]

namespace Recorded

variable {log : List WalOp} {n : ℕ}

/-- A reopened tree reads a key as the running one, unless the log does not have it and the files
are not faithful for it. -/
lemma exists_openDir (h : s.Recorded log n) (config : LsmConfig) :
    ∃ s', openDir s.dir (some s.wal.file) config = .ok s' ∧ ∀ key, s'.get key = s.get key ↔
      ((log.foldl (fun data op => data.insert op.key op.value)
          (∅ : Std.TreeMap Bytes (Option Bytes)))[key]? = none →
        (((s.immutableMemtables.take n).reverse.findSome? (·.get key)).or
          (s.getSstables key)).join = (s.dir.saved.read s.dir key).join) := by
  have hopen := openDir_encodeAll s.dir h.short config
  rw [← h.file] at hopen
  have hloaded := Loaded.openDir h.saved_numLevels_eq h.saved_valid.sound hopen
  refine ⟨_, hopen, fun key => ?_⟩
  rw [hloaded.get_eq rfl, get, getMemtables]
  change (((log.foldl WalOp.apply _).get key).or (s.dir.saved.read s.dir key)).join =
    (((s.activeMemtable.get key).or (s.frozen key)).or _).join ↔ _
  rw [MemTable.get, WalOp.foldl_apply_data, s.frozen_eq_or n, ← Option.or_assoc, ← h.replayed,
    Option.or_assoc]
  change (((log.foldl _ ∅)[key]?).or _).join = _ ↔ _
  cases (log.foldl (fun data op => data.insert op.key op.value)
    (∅ : Std.TreeMap Bytes (Option Bytes)))[key]? with
  | none => simp [eq_comm]
  | some v => simp

lemma recoverable (h : s.Recorded log n) (hf : s.Faithful n) (config : LsmConfig) :
    s.Recoverable config := by
  obtain ⟨s', hopen, hget⟩ := h.exists_openDir config
  exact ⟨s', hopen, fun key => (hget key).mpr fun _ => hf key⟩

lemma faithful_of_recoverable (h : s.Recorded [] n) {config : LsmConfig}
    (hr : s.Recoverable config) : s.Faithful n := by
  obtain ⟨s', hopen, hget⟩ := h.exists_openDir config
  obtain ⟨s'', hopen', hget'⟩ := hr
  obtain rfl : s' = s'' := Except.ok.inj (hopen.symm.trans hopen')
  exact fun key => (hget key).mp (hget' key) (by simp)

/-! ### Steps -/

lemma logged (h : s.Recorded log n) {op : WalOp} (hop : op.encode.length ≤ maxRecordLen) :
    (s.logged op).Recorded (log ++ [op]) n := by
  refine { h with buffer := rfl, file := ?_, short := ?_, replayed := ?_ }
  · simp [LsmTree.logged, h.file, h.buffer]
  · intro op' hop'
    rcases List.mem_append.mp hop' with hop' | hop'
    · exact h.short op' hop'
    · rwa [List.mem_singleton.mp hop']
  · intro key
    change _ = ((op.apply s.activeMemtable).get key).or _
    rw [List.foldl_append, List.foldl_cons, List.foldl_nil, Std.TreeMap.getElem?_insert, h.replayed,
      WalOp.get_apply]
    simp only [Std.LawfulEqOrd.compare_eq_iff_eq]
    split <;> rfl

lemma numLevels_pos (h : s.Recorded log n) : 0 < s.manifest.numLevels := by
  rw [h.numLevels_eq]
  decide

/-- Files with names that are still to be handed out do not matter to the saved manifest. -/
lemma saved_tables (h : s.Recorded log n) {e : SSTableEntry} (he : e ∈ s.dir.saved.entries)
    (file : Option SSTable) :
    (s.dir.setTable (sstName s.manifest.nextSstId) file).tables e.fileName =
      s.dir.tables e.fileName :=
  if_neg (h.saved_valid.sound.fileName_ne h.saved_le he)

lemma flushManifest_valid (h : s.Recorded log n) (hne : ¬s.activeMemtable.isEmpty) :
    s.flushManifest.Valid
      (s.dir.writeTable (sstName s.manifest.nextSstId) s.activeMemtable.toTable) := by
  obtain ⟨first, last, hfirst, hlast⟩ := exists_head?_getLast? hne
  have hvalid := h.valid.flushed h.numLevels_pos hfirst hlast
  have hfirst' : s.activeMemtable.iter.head? = some first := hfirst
  have hlast' : s.activeMemtable.iter.getLast? = some last := hlast
  rw [flushManifest, flushEntry, hfirst', hlast']
  exact hvalid

lemma flushManifest_read (h : s.Recorded log n) (key : Bytes) :
    s.flushManifest.read
      (s.dir.writeTable (sstName s.manifest.nextSstId) s.activeMemtable.toTable) key =
        s.readFlushed key := by
  rw [flushManifest, h.valid.sound.read_flushed h.numLevels_pos rfl rfl, MemTable.get_toTable,
    readFlushed]

/-- The active memtable is frozen and its flush fails. The manifest may list one more file, whose
keys the frozen memtable has. -/
lemma freeze (h : s.Recorded log n) {m : Manifest} (file : Option SSTable)
    (hnum : m.numLevels = numLevels) (hnext : m.nextSstId = s.manifest.nextSstId + 1)
    (hvalid : m.Valid (s.dir.setTable (sstName s.manifest.nextSstId) file))
    (hread : ∀ key, s.activeMemtable.get key = none →
      m.read (s.dir.setTable (sstName s.manifest.nextSstId) file) key =
        s.manifest.read s.dir key) :
    Recorded { s with
      activeMemtable := MemTable.new s.config.memtableSizeLimit
      immutableMemtables := s.immutableMemtables ++ [s.activeMemtable]
      manifest := m
      dir := s.dir.setTable (sstName s.manifest.nextSstId) file } log n where
  numLevels_eq := hnum
  valid := hvalid
  saved_numLevels_eq := h.saved_numLevels_eq
  saved_valid := h.saved_valid.congr fun e he => h.saved_tables he file
  saved_le := h.saved_le.trans (hnext ▸ Nat.le_succ _)
  older p hp := (h.older p hp).trans (hnext ▸ Nat.lt_succ_self _)
  loaded key hkey := by
    obtain ⟨hactive, hfrozen⟩ : s.activeMemtable.get key = none ∧ s.frozen key = none := by
      simpa [frozen] using hkey
    exact (h.loaded key hfrozen).trans (hread key hactive).symm
  buffer := h.buffer
  file := h.file
  short := h.short
  le_length := h.le_length.trans (by simp)
  replayed key := by
    rw [h.replayed key, List.drop_append_of_le_length h.le_length, List.reverse_append,
      List.findSome?_append]
    simp

end Recorded

lemma Recorded.flushMemtable {log : List WalOp} {n : ℕ} (h : s.Recorded log n)
    (hne : ¬s.activeMemtable.isEmpty) :
    s.flushMemtable.Recorded [] s.immutableMemtables.length := by
  rw [flushMemtable_of_not_isEmpty hne]
  have hnum : s.flushManifest.numLevels = numLevels :=
    (Manifest.addSstable_numLevels h.numLevels_pos).trans h.numLevels_eq
  have hvalid : s.flushManifest.Valid
      { s.dir.writeTable (sstName s.manifest.nextSstId) s.activeMemtable.toTable with
        manifest := some s.flushManifest } := (h.flushManifest_valid hne).congr fun _ _ => rfl
  refine ⟨hnum, hvalid, hnum, hvalid, le_rfl, ?_, ?_, rfl, rfl, by simp, le_rfl, by simp⟩
  · intro p hp
    rcases List.mem_append.mp hp with hold | hnew
    · exact (h.older p hold).trans (Nat.lt_succ_self _)
    · obtain rfl := List.mem_singleton.mp hnew
      exact Nat.lt_succ_self _
  · intro key hkey
    change _ = s.flushManifest.read _ key
    rw [getSstables, insertionSort_readsBefore_concat rfl h.older,
      ← List.singleton_append, List.findSome?_append]
    change _ = s.flushManifest.read
      (s.dir.writeTable (sstName s.manifest.nextSstId) s.activeMemtable.toTable) key
    rw [h.flushManifest_read, readFlushed, ← h.loaded key hkey, ← MemTable.get_toTable]
    simp [getSstables]

/-- A failed flush keeps the saved files faithful. -/
lemma Recorded.faithful_freeze {log : List WalOp} {n : ℕ} (h : s.Recorded log n)
    (hf : s.Faithful n) (m : Manifest) (file : Option SSTable) :
    Faithful { s with
      activeMemtable := MemTable.new s.config.memtableSizeLimit
      immutableMemtables := s.immutableMemtables ++ [s.activeMemtable]
      manifest := m
      dir := s.dir.setTable (sstName s.manifest.nextSstId) file } n := by
  intro key
  change _ = (s.dir.saved.read _ key).join
  rw [List.take_append_of_le_length h.le_length,
    Manifest.read_congr fun e he => h.saved_tables he file]
  exact hf key

omit [Crc32] in
lemma frozenAgree_congr {s' : LsmTree} (himm : s'.immutableMemtables = s.immutableMemtables)
    {read read' : Bytes → Option (Option Bytes)}
    (hread : ∀ key, (read' key).join = (read key).join) :
    s'.FrozenAgree read' ↔ s.FrozenAgree read := by
  simp only [FrozenAgree, frozen, himm, hread]

omit [Crc32] in
lemma saved_flushMemtable (hne : ¬s.activeMemtable.isEmpty) :
    s.flushMemtable.dir.saved = s.flushMemtable.manifest := by
  rw [flushMemtable_of_not_isEmpty hne]
  rfl

omit [Crc32] in
lemma immutableMemtables_flushMemtable (s : LsmTree) :
    s.flushMemtable.immutableMemtables = s.immutableMemtables := by
  by_cases h : s.activeMemtable.isEmpty
  · rw [flushMemtable_of_isEmpty h]
  · rw [flushMemtable_of_not_isEmpty h]

namespace Recorded

variable {log : List WalOp} {n : ℕ}

lemma read_flushMemtable (h : s.Recorded log n) (hne : ¬s.activeMemtable.isEmpty) (key : Bytes) :
    s.flushMemtable.manifest.read s.flushMemtable.dir key = s.readFlushed key := by
  rw [flushMemtable_of_not_isEmpty hne]
  exact h.flushManifest_read key

/-- After a flush that succeeds the files are faithful exactly if frozen memtables agree with
them. -/
lemma faithful_flushMemtable_iff (h : s.Recorded log n) (hne : ¬s.activeMemtable.isEmpty) :
    s.flushMemtable.Faithful s.immutableMemtables.length ↔ s.FrozenAgree s.readFlushed := by
  rw [← s.immutableMemtables_flushMemtable,
    faithful_length_iff (saved_flushMemtable hne) (h.flushMemtable hne).loaded]
  exact frozenAgree_congr s.immutableMemtables_flushMemtable fun key => by
    rw [h.read_flushMemtable hne]

lemma maybeCompact (h : s.Recorded [] s.immutableMemtables.length)
    (hsaved : s.dir.saved = s.manifest) :
    ∃ s', s.maybeCompact = .ok s' ∧ s'.Recorded [] s'.immutableMemtables.length ∧
      s'.dir.saved = s'.manifest ∧ s'.immutableMemtables = s.immutableMemtables ∧
      ∀ key, (s'.manifest.read s'.dir key).join =
        if s.config.l0CompactionTrigger ≤ s.manifest.levelCount 0 then
          (s.manifest.readWith s.dir key 0 (s.manifest.versions s.dir key 0).head?).join
        else (s.manifest.read s.dir key).join := by
  have hzero : s.config.compaction.needsCompaction s.manifest = some 0 ↔
      s.config.l0CompactionTrigger ≤ s.manifest.levelCount 0 := needsCompaction_eq_zero_iff
  rcases maybeCompact_cases h.numLevels_eq h.valid.sound with ⟨hneeds, hs⟩ |
    ⟨level, hneeds, hlevel, ⟨err, herr, -⟩ |
      ⟨m', dir', result, s', -, hs', hs, hloaded, hpresent, hread⟩⟩
  · have hcount : ¬s.config.l0CompactionTrigger ≤ s.manifest.levelCount 0 := by
      intro hle
      cases hneeds.symm.trans (hzero.mpr hle)
    exact ⟨s, hs, h, hsaved, rfl, fun key => by rw [if_neg hcount]⟩
  · obtain ⟨m', dir', result, hok⟩ :=
      LeveledCompaction.exists_compact_eq_ok h.valid.present level
    simp [hok] at herr
  · have hvalid : s'.manifest.Valid s'.dir := ⟨hloaded.sound, hpresent h.valid.present⟩
    refine ⟨s', hs, ?_, hloaded.saved, by rw [hs'], fun key => ?_⟩
    · subst hs'
      exact ⟨hloaded.numLevels_eq, hvalid, hloaded.numLevels_eq, hvalid, le_rfl,
        fun p hp => hvalid.id_lt _ (mem_loadCache.mp hp).1, fun key _ => hloaded.getSstables_eq key,
        h.buffer, h.file, h.short, le_rfl, h.replayed⟩
    · rw [hread key]
      rcases level with _ | level
      · rw [if_pos (hzero.mp hneeds)]
      · have hcount : ¬s.config.l0CompactionTrigger ≤ s.manifest.levelCount 0 := by
          intro hle
          cases hneeds.symm.trans (hzero.mpr hle)
        rw [if_neg hcount,
          h.valid.sound.versions_head?_eq_getLast? (Nat.succ_pos level),
          ← Manifest.read_eq_readWith hlevel]

/-- What a compaction of level 0 leaves after a flush. -/
lemma readWith_flushMemtable (h : s.Recorded log n) (hne : ¬s.activeMemtable.isEmpty)
    (key : Bytes) :
    s.flushMemtable.manifest.readWith s.flushMemtable.dir key 0
      (s.flushMemtable.manifest.versions s.flushMemtable.dir key 0).head? =
        s.readCompacted key := by
  have hversions : ∀ i, s.flushMemtable.manifest.versions s.flushMemtable.dir key i =
      if i = 0 then s.manifest.versions s.dir key i ++ (s.activeMemtable.get key).toList
      else s.manifest.versions s.dir key i := by
    intro i
    rw [flushMemtable_of_not_isEmpty hne, ← MemTable.get_toTable]
    exact h.valid.sound.versions_flushed h.numLevels_pos rfl rfl _ _ key i
  have hnum : s.flushMemtable.manifest.numLevels = s.manifest.numLevels := by
    rw [(h.flushMemtable hne).numLevels_eq, h.numLevels_eq]
  have hbelow : ((List.range' 2 (s.manifest.numLevels - 2)).findSome?
        fun i => (s.flushMemtable.manifest.versions s.flushMemtable.dir key i).getLast?) =
      (List.range' 2 (s.manifest.numLevels - 2)).findSome?
        fun i => (s.manifest.versions s.dir key i).getLast? := by
    refine findSome?_congr fun i hi => ?_
    have := (List.mem_range'_1.mp hi).1
    rw [hversions, if_neg (by omega)]
  rw [readCompacted, Manifest.readWith, Manifest.readWith, hnum, hbelow, hversions, if_pos rfl,
    hversions, if_neg (Nat.succ_ne_zero 0), List.head?_append, Option.head?_toList]
  rfl

lemma exists_maybeCompact_flushMemtable (h : s.Recorded log n) (hne : ¬s.activeMemtable.isEmpty) :
    ∃ s', s.flushMemtable.maybeCompact = .ok s' ∧
      s'.Recorded [] s'.immutableMemtables.length ∧
      (s'.Faithful s'.immutableMemtables.length ↔ s.FrozenAgree
        (if s.config.l0CompactionTrigger ≤ s.manifest.levelCount 0 + 1 then s.readCompacted
          else s.readFlushed)) := by
  have hflushed := h.flushMemtable hne
  rw [← s.immutableMemtables_flushMemtable] at hflushed
  obtain ⟨s', hs', hrecorded, hsaved, himm, hread⟩ :=
    hflushed.maybeCompact (saved_flushMemtable hne)
  refine ⟨s', hs', hrecorded, ?_⟩
  rw [faithful_length_iff hsaved hrecorded.loaded]
  refine frozenAgree_congr (himm.trans s.immutableMemtables_flushMemtable) fun key => ?_
  rw [hread key, s.flushMemtable_config,
    levelCount_flushMemtable_of_not_isEmpty h.numLevels_pos hne]
  split
  · rw [h.readWith_flushMemtable hne]
  · rw [h.read_flushMemtable hne]

end Recorded

/-- A tree that has just been opened on a log of records that are not too long. -/
lemma recorded_openDir {dir : Directory} {log : List WalOp} {config : LsmConfig}
    (hnum : dir.saved.numLevels = numLevels)
    (hvalid : dir.saved.Valid dir)
    (hlog : ∀ op ∈ log, op.encode.length ≤ maxRecordLen)
    (hs : openDir dir (some (encodeAll (log.map fun op => ⟨op.encode⟩))) config = .ok s) :
    s.Recorded log 0 ∧ s.Faithful 0 := by
  have hloaded := Loaded.openDir hnum hvalid.sound hs
  obtain rfl := Except.ok.inj ((openDir_encodeAll dir hlog config).symm.trans hs)
  refine ⟨⟨hnum, hvalid, hnum, hvalid, le_rfl, ?_, fun key _ => hloaded.getSstables_eq key, rfl,
    rfl, hlog, le_rfl, fun key => ?_⟩, fun key => ?_⟩
  · exact fun p hp => hvalid.id_lt _ (mem_loadCache.mp hp).1
  · rw [MemTable.get, WalOp.foldl_apply_data]
    simp [MemTable.new]
  · rw [hloaded.getSstables_eq]
    rfl

end

end LsmTree

/-! ### Files stand for tables -/

lemma Files.decode_setTable (dir : Files) (name : String) (file : Option Bytes) :
    (dir.setTable name file).decode = dir.decode.setTable name (file.bind decodeTable) := by
  simp only [decode, setTable, Directory.setTable]
  congr 1
  funext n
  split <;> rfl

lemma Files.tryLoadReaders_of_ok {dir : Files} {es : List SSTableEntry}
    {cache : List (SSTableEntry × SSTableReader)} (h : dir.loadReaders es = .ok cache) :
    dir.tryLoadReaders es = (cache, .ok ()) := by
  induction es generalizing cache with
  | nil =>
    obtain rfl := Except.ok.inj h
    rfl
  | cons e es ih =>
    rw [loadReaders] at h
    rw [tryLoadReaders]
    cases hfile : dir.tables e.fileName with
    | none =>
      rw [hfile] at h
      exact ih h
    | some data =>
      simp only [hfile] at h
      obtain ⟨reader, hopen, h⟩ := bind_eq_ok_iff.mp h
      obtain ⟨rest, hrest, h⟩ := bind_eq_ok_iff.mp h
      obtain rfl := Except.ok.inj h
      simp only [hopen, ih hrest]

namespace FileTree

section

variable [BloomHash] {f f' : FileTree}

lemma tryFlushMemtable_sstable (h : ¬f.activeMemtable.isEmpty) (e : Error) (file : Option Bytes) :
    f.tryFlushMemtable (some (.sstable e file)) = ({ f with
      activeMemtable := MemTable.new f.config.memtableSizeLimit
      immutableMemtables := f.immutableMemtables ++ [f.activeMemtable]
      manifest := ⟨f.manifest.levels, f.manifest.nextSstId + 1⟩
      dir := f.dir.setTable (sstName f.manifest.nextSstId) file }, .error (.error e)) :=
  if_neg h

lemma tryFlushMemtable_manifest (h : ¬f.activeMemtable.isEmpty) (e : Error) :
    f.tryFlushMemtable (some (.manifest e)) = ({ f with
      activeMemtable := MemTable.new f.config.memtableSizeLimit
      immutableMemtables := f.immutableMemtables ++ [f.activeMemtable]
      manifest := f.decode.flushManifest
      dir := f.dir.writeTable (sstName f.manifest.nextSstId)
        (SSTableWriter.write f.config.blockSize f.activeMemtable.toTable.entries) },
      .error (.error e)) :=
  if_neg h

/-- Without a fault the flush is the one that stops at an error. -/
lemma tryFlushMemtable_of_ok (h : f.flushMemtable = .ok f') :
    f.tryFlushMemtable none = (f', .ok ()) := by
  rw [flushMemtable] at h
  rw [tryFlushMemtable]
  split at h
  · next hempty =>
    rw [if_pos hempty, Except.ok.inj h]
  · next hne =>
    obtain ⟨r, hopen, h⟩ := bind_eq_ok_iff.mp h
    obtain rfl := Except.ok.inj h
    simp only [if_neg hne, hopen, List.dropLast_concat]
    rfl

lemma tryMaybeCompact_of_ok (h : f.maybeCompact = .ok f') :
    f.tryMaybeCompact = (f', .ok ()) := by
  rw [maybeCompact] at h
  rw [tryMaybeCompact]
  cases hneeds : f.config.compaction.needsCompaction f.manifest with
  | none =>
    rw [hneeds] at h
    rw [Except.ok.inj h]
  | some level =>
    simp only [hneeds] at h
    obtain ⟨⟨m', ops, result⟩, hops, h⟩ := bind_eq_ok_iff.mp h
    obtain ⟨cache, hload, h⟩ := bind_eq_ok_iff.mp h
    obtain rfl := Except.ok.inj h
    simp only [hops, Files.tryLoadReaders_of_ok hload]

/-- Where no table can be merged nothing has changed. -/
lemma Intact.tryMaybeCompact_of_error (h : f.Intact) {e : Error}
    (hcompact : f.decode.maybeCompact = .error e) : f.tryMaybeCompact.1 = f := by
  rw [LsmTree.maybeCompact] at hcompact
  rw [FileTree.tryMaybeCompact]
  split
  · rfl
  · next level hneeds =>
    rw [h.compactOps_eq level]
    cases hops : LeveledCompaction.compactOps f.dir.decode.readTable f.manifest level with
    | error e => rfl
    | ok r =>
      have hneeds' : f.decode.config.compaction.needsCompaction f.decode.manifest = some level :=
        hneeds
      have hops' : LeveledCompaction.compactOps f.decode.dir.readTable f.decode.manifest level =
        .ok r := hops
      simp only [hneeds', LeveledCompaction.compact, hops'] at hcompact
      cases hcompact

/-- A compaction that fails over files fails over tables, before anything has changed. -/
lemma Intact.tryMaybeCompact (h : f.Intact)
    (hwritten : ∀ t ∈ f.compactTables, SSTableWriter.Writable f.config.blockSize t.entries) :
    f.tryMaybeCompact.1.Represents f.decode.tryMaybeCompact := by
  rcases (h.maybeCompact hwritten).cases with ⟨f', s', hf', hs', hrep⟩ | ⟨e, -, hs⟩
  · rw [tryMaybeCompact_of_ok hf', LsmTree.tryMaybeCompact, mapError_eq_ok_iff.mp hs']
    exact hrep
  · cases hcompact : f.decode.maybeCompact with
    | ok s' =>
      rw [hcompact] at hs
      cases hs
    | error e' =>
      rw [h.tryMaybeCompact_of_error hcompact, LsmTree.tryMaybeCompact, hcompact]
      exact ⟨h, rfl⟩

/-! ### Calls -/

variable [Crc32]

/-- What a call leaves: intact files and a record of the log and the frozen memtables. The saved
files are faithful exactly if `agrees`, and else the log is empty. -/
def Keeps (f : FileTree) (agrees : Prop) : Prop :=
  f.Intact ∧ ∃ log n, f.decode.Recorded log n ∧ (f.decode.Faithful n ↔ agrees) ∧
    (agrees ∨ log = [])

variable {log : List WalOp} {n : ℕ}

lemma Keeps.of_agrees {s : LsmTree} {agrees : Prop} (h : f.Represents s) (hr : s.Recorded log n)
    (hf : s.Faithful n) (hagrees : agrees) : f.Keeps agrees := by
  rw [Keeps, h.decode]
  exact ⟨h.intact, log, n, hr, iff_of_true hf hagrees, .inl hagrees⟩

namespace Intact

/-- The write of the SSTable fails. The file that is left has a name that nothing lists. -/
lemma keeps_sstable (h : f.Intact) (hr : f.decode.Recorded log n) (hf : f.decode.Faithful n)
    (hne : ¬f.activeMemtable.isEmpty) (e : Error) (file : Option Bytes) :
    (f.tryFlushMemtable (some (.sstable e file))).1.Keeps True := by
  have hkept : ∀ {m : Manifest}, m.Sound f.decode.dir → m.nextSstId ≤ f.manifest.nextSstId →
      (∀ e ∈ m.entries, f.dir.Intact e.fileName) → ∀ e ∈ m.entries,
        (f.dir.setTable (sstName f.manifest.nextSstId) file).Intact e.fileName := by
    intro m hm hle hlisted e he data hdata
    rw [Files.setTable] at hdata
    simp only [if_neg (hm.fileName_ne hle he)] at hdata
    exact hlisted e he data hdata
  have htables : ∀ e ∈ f.manifest.entries, (f.decode.dir.setTable (sstName f.manifest.nextSstId)
      (file.bind decodeTable)).tables e.fileName = f.decode.dir.tables e.fileName :=
    fun e he => if_neg (hr.valid.sound.fileName_ne le_rfl he)
  have hrecorded := hr.freeze (file.bind decodeTable)
    (m := ⟨f.manifest.levels, f.manifest.nextSstId + 1⟩) hr.numLevels_eq rfl
    (Manifest.Valid.congr ⟨hr.valid.sound.skip (Nat.le_succ _), hr.valid.present⟩ htables)
    fun key _ => Manifest.read_congr htables key
  have hlisted := hkept (m := f.manifest) hr.valid.sound le_rfl h.listed
  rw [tryFlushMemtable_sstable hne]
  refine .of_agrees ⟨⟨hlisted, hkept hr.saved_valid.sound hr.saved_le h.saved, h.reads⟩, ?_⟩
    hrecorded (hr.faithful_freeze hf _ _) trivial
  exact LsmTree.ext rfl rfl rfl rfl rfl rfl (f.dir.decode_setTable _ file)

/-- The write of the manifest fails. The SSTable has been written. -/
lemma keeps_manifest (h : f.Intact) (hr : f.decode.Recorded log n) (hf : f.decode.Faithful n)
    (hne : ¬f.activeMemtable.isEmpty) (e : Error)
    (htable : SSTableWriter.Writable f.config.blockSize f.activeMemtable.toTable.entries) :
    (f.tryFlushMemtable (some (.manifest e))).1.Keeps True := by
  have hnum : f.decode.flushManifest.numLevels = numLevels :=
    (Manifest.addSstable_numLevels hr.numLevels_pos).trans hr.numLevels_eq
  have hrecorded := hr.freeze (some f.activeMemtable.toTable) hnum rfl
    (hr.flushManifest_valid hne) fun key hkey => by
      rw [← Option.none_or (o := f.decode.manifest.read f.decode.dir key), ← hkey]
      exact hr.flushManifest_read key
  rw [tryFlushMemtable_manifest hne]
  refine .of_agrees
    ⟨⟨fun e he => ?_, fun e he => (h.saved e he).writeTable _ htable, h.reads⟩, ?_⟩
    hrecorded (hr.faithful_freeze hf _ _) trivial
  · rcases Manifest.mem_entries_addSstable.mp he with hold | rfl
    · exact (h.listed e hold).writeTable _ htable
    · exact f.dir.intact_writeTable_self _ htable
  · exact LsmTree.ext rfl rfl rfl rfl rfl rfl (f.dir.decode_writeTable _ htable)

/-- A flush keeps the record. The files stay faithful, except if the flush succeeds and frozen
memtables do not agree with them. -/
lemma keeps_tryFlushMemtable (h : f.Intact) (hr : f.decode.Recorded log n)
    (hf : f.decode.Faithful n) (fault : Option FlushFault)
    (hwritten : ∀ t ∈ f.tryFlushTables fault,
      SSTableWriter.Writable f.config.blockSize t.entries) :
    (f.tryFlushMemtable fault).1.Keeps (f.decode.FlushAgrees f.decode.readFlushed fault) := by
  by_cases hne : f.activeMemtable.isEmpty
  · have hagrees : f.decode.FlushAgrees f.decode.readFlushed fault := by
      cases fault with
      | none => exact fun h' => absurd hne h'
      | some fault => trivial
    rw [tryFlushMemtable, if_pos hne]
    exact .of_agrees ⟨h, rfl⟩ hr hf hagrees
  rcases fault with _ | ⟨e, file⟩ | ⟨e⟩
  · obtain ⟨f', hflush, hrep⟩ := h.flushMemtable hwritten
    rw [tryFlushMemtable_of_ok hflush, Keeps, hrep.decode]
    refine ⟨hrep.intact, [], _, hr.flushMemtable hne, ?_, .inr rfl⟩
    exact (hr.faithful_flushMemtable_iff hne).trans
      ⟨fun hagree _ => hagree, fun hagree => hagree hne⟩
  · exact h.keeps_sstable hr hf hne e file
  · have htables : f.tryFlushTables (some (.manifest e)) = [f.activeMemtable.toTable] :=
      if_neg hne
    exact h.keeps_manifest hr hf hne e (hwritten _ (by rw [htables]; exact List.mem_cons_self))

/-- The same for the flush and the compaction that follow a write. -/
lemma keeps_tryAfterWrite (h : f.Intact) (hr : f.decode.Recorded log n) (hf : f.decode.Faithful n)
    (hne : ¬f.activeMemtable.isEmpty) {fault : Option FlushFault}
    (hwritten : ∀ t ∈ f.tryWriteTables fault,
      SSTableWriter.Writable f.config.blockSize t.entries) :
    (f.tryAfterWrite fault).1.Keeps (f.decode.WriteAgrees fault) := by
  rw [tryAfterWrite]
  rw [tryWriteTables] at hwritten
  by_cases hfull : f.activeMemtable.isFull
  · rw [if_pos hfull] at hwritten ⊢
    cases fault with
    | some fault =>
      have hkeeps : (f.tryFlushMemtable (some fault)).1.Keeps True :=
        h.keeps_tryFlushMemtable hr hf (some fault) fun t ht =>
          hwritten t (List.mem_append_left _ ht)
      have herror : ∃ f' e, f.tryFlushMemtable (some fault) = (f', .error e) := by
        rcases fault with ⟨e, file⟩ | e
        · exact ⟨_, _, tryFlushMemtable_sstable hne e file⟩
        · exact ⟨_, _, tryFlushMemtable_manifest hne e⟩
      have hagrees : f.decode.WriteAgrees (some fault) ↔ True := iff_true_intro fun _ => trivial
      obtain ⟨f', e, heq⟩ := herror
      rw [heq] at hkeeps ⊢
      rwa [hagrees]
    | none =>
      obtain ⟨f', hflush, hrep⟩ :=
        h.flushMemtable fun t ht => hwritten t (List.mem_append_left _ ht)
      rw [tryFlushMemtable_of_ok hflush] at hwritten ⊢
      obtain ⟨s', hs', hrecorded, hfaithful⟩ := hr.exists_maybeCompact_flushMemtable hne
      have hcompact := hrep.intact.tryMaybeCompact fun t ht => by
        rw [config_flushMemtable hflush]
        exact hwritten t (List.mem_append_right _ ht)
      rw [hrep.decode, LsmTree.tryMaybeCompact, hs'] at hcompact
      rw [Keeps, hcompact.decode]
      exact ⟨hcompact.intact, [], _, hrecorded, hfaithful.trans
        ⟨fun hagree _ _ => hagree, fun hagree => hagree hfull hne⟩, .inr rfl⟩
  · rw [if_neg hfull]
    exact .of_agrees ⟨h, rfl⟩ hr hf fun hfull' => absurd hfull' hfull

/-- Every call keeps the record. The files stay faithful exactly if the call keeps what the frozen
memtables have. -/
lemma keeps_faultyStep (h : f.Intact) (hr : f.decode.Recorded log n) (hf : f.decode.Faithful n)
    {op : FaultyOp} (hop : ∀ w ∈ op.record?, w.encode.length ≤ maxRecordLen)
    (hbounded : f.FaultyBounded op) : (f.faultyStep op).Keeps (f.decode.KeepsFrozen op) := by
  have hlogged : ∀ w, (f.logged w).Intact := fun w => ⟨h.listed, h.saved, h.reads⟩
  have hne : ∀ w, ¬(f.logged w).activeMemtable.isEmpty := by simp [logged, MemTable.isEmpty]
  cases op with
  | put key value fault =>
    exact (hlogged _).keeps_tryAfterWrite (hr.logged (hop _ rfl)) hf (hne _) hbounded
  | delete key fault =>
    exact (hlogged _).keeps_tryAfterWrite (hr.logged (hop _ rfl)) hf (hne _) hbounded
  | flush fault => exact h.keeps_tryFlushMemtable hr hf fault hbounded

lemma recoverable_iff (h : f.Intact) (config : FileConfig) :
    f.Recoverable config ↔ f.decode.Recoverable config.toLsmConfig := by
  have hagree := openDir_represents h.saved (some f.wal.file) config
  constructor
  · rintro ⟨f', hf', hget⟩
    rcases hagree.cases with ⟨f'', s', hf'', hs', hrep⟩ | ⟨e, herr, -⟩
    · obtain rfl := Except.ok.inj (hf'.symm.trans hf'')
      refine ⟨s', hs', fun key => ?_⟩
      have hkey := hget key
      rw [hrep.intact.get, h.get, hrep.decode] at hkey
      exact Except.ok.inj hkey
    · cases hf'.symm.trans herr
  · rintro ⟨s', hs', hget⟩
    rcases hagree.cases with ⟨f', s'', hf', hs'', hrep⟩ | ⟨e, -, herr⟩
    · obtain rfl := Except.ok.inj (hs'.symm.trans hs'')
      refine ⟨f', hf', fun key => ?_⟩
      rw [hrep.intact.get, h.get, hrep.decode, hget]
    · cases hs'.symm.trans herr

/-- What is recorded stays recoverable along a run exactly if every call keeps what the frozen
memtables have. -/
lemma forall_recoverable_iff (h : f.Intact) (hr : f.decode.Recorded log n)
    (hf : f.decode.Faithful n) {ops : List FaultyOp}
    (hops : ∀ op ∈ ops, ∀ w ∈ op.record?, w.encode.length ≤ maxRecordLen)
    (hbounded : Along FileTree.faultyStep FaultyBounded f ops) :
    (∀ ops', ops' <+: ops → ∀ config, (Lib.run FileTree.faultyStep f ops').Recoverable config) ↔
      Along FileTree.faultyStep (fun f op => f.decode.KeepsFrozen op) f ops := by
  induction ops generalizing f log n with
  | nil =>
    refine iff_of_true (fun ops' hops' config => ?_) trivial
    obtain rfl := List.prefix_nil.mp hops'
    exact (h.recoverable_iff config).mpr (hr.recoverable hf _)
  | cons op ops ih =>
    have hop := hops op List.mem_cons_self
    obtain ⟨hintact, log', n', hrecorded, hfaithful, hempty⟩ :=
      h.keeps_faultyStep hr hf hop hbounded.1
    have hrest := fun hkeeps => ih hintact hrecorded (hfaithful.mpr hkeeps)
      (fun op' hop' => hops op' (List.mem_cons_of_mem op hop')) hbounded.2
    constructor
    · intro hall
      have hkeeps : f.decode.KeepsFrozen op := by
        refine hempty.elim id fun hlog => hfaithful.mp ?_
        subst hlog
        exact hrecorded.faithful_of_recoverable
          ((hintact.recoverable_iff f.config).mp (hall [op] ⟨ops, rfl⟩ f.config))
      refine ⟨hkeeps, (hrest hkeeps).mp fun ops' hp config => ?_⟩
      exact hall (op :: ops') ((List.prefix_cons_inj op).mpr hp) config
    · rintro ⟨hkeeps, halong⟩ ops' hp config
      cases ops' with
      | nil => exact (h.recoverable_iff config).mpr (hr.recoverable hf _)
      | cons op' ops' =>
        obtain ⟨rfl, hp'⟩ := List.cons_prefix_cons.mp hp
        exact (hrest hkeeps).mpr halong ops' hp' config

end Intact

/-- **Failed flushes.** From any tree that was opened on a valid directory of intact files, with
records that are not too long, calls whose flushes may fail and whose tables fit into their files:
reopening the directory gives the same reads at every point exactly if no flush succeeds while
frozen memtables have a key for which they do not agree with the files. -/
theorem recoverable_iff_keepsFrozen {dir : Files} {log : List WalOp} {config : FileConfig}
    (hintact : ∀ e ∈ dir.saved.entries, dir.Intact e.fileName)
    (hnum : dir.saved.numLevels = numLevels)
    (hvalid : dir.saved.Valid dir.decode)
    (hlog : ∀ op ∈ log, op.encode.length ≤ maxRecordLen)
    (hf : openDir dir (some (encodeAll (log.map fun op => ⟨op.encode⟩))) config = .ok f)
    {ops : List FaultyOp}
    (hops : ∀ op ∈ ops, ∀ w ∈ op.record?, w.encode.length ≤ maxRecordLen)
    (hbounded : Along faultyStep FaultyBounded f ops) :
    (∀ ops', ops' <+: ops → ∀ config', (Lib.run faultyStep f ops').Recoverable config') ↔
      Along faultyStep (fun f op => f.decode.KeepsFrozen op) f ops := by
  rcases (openDir_represents hintact _ config).cases with ⟨f', s, hf', hs, hrep⟩ | ⟨e, herr, -⟩
  · obtain rfl := Except.ok.inj (hf.symm.trans hf')
    obtain ⟨hrecorded, hfaithful⟩ := LsmTree.recorded_openDir hnum hvalid hlog hs
    rw [← hrep.decode] at hrecorded hfaithful
    exact hrep.intact.forall_recoverable_iff hrecorded hfaithful hops hbounded
  · cases hf.symm.trans herr

end

/-- The error of a full disk. -/
def noSpace : Error :=
  .io "No space left on device (os error 28)"

/-- A put, a failing flush, another put and a flush that succeeds. -/
def failThenFlush (fault : FlushFault) (key value : Bytes) : List FaultyOp :=
  [.put [1] [10] none, .flush (some fault), .put key value none, .flush none]

/-- The SSTable of the failed flush was written, and the next flush saves the manifest that lists
it. The memtable that is left behind agrees with it. -/
theorem recoverable_failThenFlush_manifest :
    letI := BloomHash.sip
    letI := Crc32.ieee
    (Lib.run faultyStep (create .default)
      (failThenFlush (.manifest noSpace) [2] [20])).Recoverable .default := by
  have hkeeps : letI := BloomHash.sip; letI := Crc32.ieee; Along faultyStep
      (fun f op => f.decode.KeepsFrozen op) (create .default)
        (failThenFlush (.manifest noSpace) [2] [20]) := by
    decide +kernel
  have hbounded : letI := BloomHash.sip; letI := Crc32.ieee; Along faultyStep FaultyBounded
      (create .default) (failThenFlush (.manifest noSpace) [2] [20]) := by
    decide +kernel
  let _ := BloomHash.sip
  let _ := Crc32.ieee
  have hs : openDir ⟨none, fun _ => none⟩
      (some (encodeAll (([] : List WalOp).map fun op => ⟨op.encode⟩))) .default =
        .ok (create .default) := rfl
  refine (recoverable_iff_keepsFrozen (intact_create .default).saved ?_ ?_ (by simp) hs ?_
    hbounded).mpr hkeeps _ List.prefix_rfl _
  · exact Manifest.new_numLevels _
  · exact Manifest.Valid.new _
  · simp [failThenFlush, FaultyOp.record?, WalOp.encode, maxRecordLen]

/-- If the SSTable was not written, key `[1]` is lost when the directory is reopened. If it was and
the key has been written again since, the running tree still reads the memtable that was left
behind. -/
theorem failThenFlush_not_recoverable :
    letI := BloomHash.sip
    letI := Crc32.ieee
    let lost := Lib.run faultyStep (create .default)
      (failThenFlush (.sstable noSpace none) [2] [20])
    let stale := Lib.run faultyStep (create .default)
      (failThenFlush (.manifest noSpace) [1] [20])
    (lost.get [1]).toOption = some (some [10]) ∧
      (openDir lost.dir (some lost.wal.file) .default >>= (·.get [1])).toOption = some none ∧
      (stale.get [1]).toOption = some (some [10]) ∧
      (openDir stale.dir (some stale.wal.file) .default >>= (·.get [1])).toOption =
        some (some [20]) := by
  decide +kernel

end FileTree

end Raftrust.Storage

import Raftrust.Storage.MapRefinement

/-!
# Point reads agree with range reads

A point read asks the sources from the newest to the oldest and stops at the first answer. A range
read merges them from the oldest to the newest. Both find the same as long as every SSTable file
reads as a table, and it does in every run whose keys and values are not too long for the 32-bit
length fields of an entry, through flushes, compactions and reopenings. A longer key is read back
as another key, out of order, and then only range reads find it.
-/

namespace Raftrust.Storage

open Lib SSTableWriter

section

variable [BloomHash]

/-! ### Files that read as tables -/

/-- The file opens and reads as a table with short keys and values. -/
def Opens (data : Bytes) : Prop :=
  ∃ r t, SSTableReader.openBytes data = .ok r ∧ r.Reads t ∧ ∀ e ∈ t.entries, e.Short

/-- This also holds of a file whose counts are cut to 32 bits. -/
lemma opens_write {blockSize : ℕ} {t : SSTable}
    (hsize : (write blockSize t.entries).length < 2 ^ 64) (hshort : ∀ e ∈ t.entries, e.Short) :
    Opens (write blockSize t.entries) := by
  obtain ⟨r, hopen, hreads⟩ := SSTableReader.openBytes_write_readBack hsize hshort
  exact ⟨r, _, hopen, hreads,
    fun e he => hshort e ((SSTableReader.readBack_sublist _ _).subset he)⟩

namespace Files

variable {dir dir' : Files} {m : Manifest}

lemma loadReaders_of_opens {es : List SSTableEntry}
    (h : ∀ e ∈ es, ∃ data, dir.tables e.fileName = some data ∧ Opens data) :
    ∃ cache, dir.loadReaders es = .ok cache ∧ cache.map (·.1) = es ∧
      ∀ p ∈ cache, ∃ t, p.2.Reads t := by
  induction es with
  | nil => exact ⟨[], rfl, rfl, by simp⟩
  | cons e es ih =>
    obtain ⟨data, hdata, r, t, hopen, hreads, -⟩ := h e List.mem_cons_self
    obtain ⟨cache, hload, hkeys, hcache⟩ := ih fun x hx => h x (List.mem_cons_of_mem e hx)
    refine ⟨(e, r) :: cache, ?_, by rw [List.map_cons, hkeys], ?_⟩
    · rw [loadReaders, hdata]
      simp only [hopen, hload, bind, Except.bind]
      rfl
    · exact List.forall_mem_cons.mpr ⟨⟨t, hreads⟩, hcache⟩

/-- Every SSTable of the manifest has a number and a file of its own, and the file reads as a
table. -/
structure Serves (dir : Files) (m : Manifest) : Prop where
  nodup : (m.entries.map (·.id)).Nodup
  id_lt : ∀ e ∈ m.entries, e.id < m.nextSstId
  fileName : ∀ e ∈ m.entries, e.fileName = sstName e.id
  opens : ∀ e ∈ m.entries, ∃ data, dir.tables e.fileName = some data ∧ Opens data

namespace Serves

lemma new (dir : Files) (n : ℕ) : dir.Serves (Manifest.new n) := by
  have hentries : (Manifest.new n).entries = [] := by simp [Manifest.entries, Manifest.new]
  constructor <;> simp [hentries]

lemma congr (h : dir.Serves m)
    (htables : ∀ e ∈ m.entries, dir'.tables e.fileName = dir.tables e.fileName) :
    dir'.Serves m :=
  ⟨h.nodup, h.id_lt, h.fileName, fun e he => htables e he ▸ h.opens e he⟩

lemma fileName_ne (h : dir.Serves m) {e : SSTableEntry} (he : e ∈ m.entries) :
    e.fileName ≠ sstName m.nextSstId := by
  rw [h.fileName e he]
  exact sstName_injective.ne (h.id_lt e he).ne

lemma skip (h : dir.Serves m) {n : ℕ} (hn : m.nextSstId ≤ n) :
    dir.Serves { m with nextSstId := n } :=
  ⟨h.nodup, fun e he => (h.id_lt e he).trans_le hn, h.fileName, h.opens⟩

lemma removeSstables (h : dir.Serves m) (ids : List ℕ) : dir.Serves (m.removeSstables ids) := by
  have hmem : ∀ e ∈ (m.removeSstables ids).entries, e ∈ m.entries := fun e he =>
    (Manifest.mem_entries_of_removed he).1
  refine ⟨?_, fun e he => h.id_lt e (hmem e he), fun e he => h.fileName e (hmem e he),
    fun e he => h.opens e (hmem e he)⟩
  rw [m.removeSstables_entries]
  exact h.nodup.sublist (List.filter_sublist.map _)

/-- A new SSTable file under the next number. -/
lemma write (h : dir.Serves m) {data : Bytes} (hopens : Opens data) (level : ℕ)
    (minKey maxKey : Bytes) :
    (dir.writeTable (sstName m.nextSstId) data).Serves
      ({ m with nextSstId := m.nextSstId + 1 }.addSstable
        ⟨m.nextSstId, level, sstName m.nextSstId, minKey, maxKey⟩) := by
  have hold : (dir.writeTable (sstName m.nextSstId) data).Serves m :=
    h.congr fun e he => dir.writeTable_tables_of_ne (h.fileName_ne he) data
  constructor
  · rw [((Manifest.addSstable_entries_perm _ _).map _).nodup_iff, List.map_append,
      List.nodup_append]
    refine ⟨h.nodup, List.nodup_singleton _, ?_⟩
    rintro _ hid _ hadded
    obtain ⟨x, hx, rfl⟩ := List.mem_map.mp hid
    rw [List.mem_singleton.mp hadded]
    exact (h.id_lt x hx).ne
  · intro x hx
    rcases Manifest.mem_entries_addSstable.mp hx with hx | rfl
    · exact (h.id_lt x hx).trans (Nat.lt_succ_self _)
    · exact Nat.lt_succ_self _
  · intro x hx
    rcases Manifest.mem_entries_addSstable.mp hx with hx | rfl
    · exact h.fileName x hx
    · rfl
  · intro x hx
    rcases Manifest.mem_entries_addSstable.mp hx with hx | rfl
    · exact hold.opens x hx
    · exact ⟨data, dir.writeTable_tables_self _ data, hopens⟩

lemma readTable (h : dir.Serves m) {e : SSTableEntry} (he : e ∈ m.entries) :
    ∃ es, dir.readTable e.fileName = .ok es ∧ ∀ x ∈ es, x.Short := by
  obtain ⟨data, hdata, r, t, hopen, hreads, hshort⟩ := h.opens e he
  refine ⟨t.entries, ?_, hshort⟩
  rw [Files.readTable, openTable, hdata]
  simp only [hopen, bind, Except.bind, hreads.iter]

/-! ### Compaction -/

/-- Files that are not listed may go. -/
lemma foldl_removeTable (h : dir.Serves m) {blockSize : ℕ} {inputs : List SSTableEntry}
    (hinputs : ∀ x ∈ inputs, ∀ e ∈ m.entries, e.fileName ≠ x.fileName) :
    ((inputs.map fun e => FileOp.removeTable e.fileName).foldl (FileOp.applyFile blockSize)
      dir).Serves m := by
  induction inputs generalizing dir with
  | nil => exact h
  | cons x inputs ih =>
    obtain ⟨hfirst, hrest⟩ := List.forall_mem_cons.mp hinputs
    refine ih (h.congr fun e he => dir.removeTables_tables_of_notMem ?_) hrest
    rw [List.mem_singleton]
    exact hfirst e he

/-- Merging SSTables of the manifest leaves files that read as tables, if the new one is not too
long for its offsets. -/
lemma merged (h : dir.Serves m) {blockSize targetLevel : ℕ} {inputs : List SSTableEntry}
    {kept : SSTable} {m' : Manifest} {ops : List FileOp}
    (hmerged : LeveledCompaction.Merged m targetLevel inputs kept m' ops)
    (hinputs : ∀ e ∈ inputs, e ∈ m.entries) (hshort : ∀ e ∈ kept.entries, e.Short)
    (hsize : ∀ t ∈ ops.filterMap FileOp.table?,
      (SSTableWriter.write blockSize t.entries).length < 2 ^ 64) :
    (ops.foldl (FileOp.applyFile blockSize) dir).Serves m' := by
  cases hmerged with
  | dropped hnext => exact (h.skip hnext).removeSstables _
  | @written first last =>
    have hopens : Opens (SSTableWriter.write blockSize kept.entries) :=
      opens_write (hsize kept List.mem_cons_self) hshort
    refine ((h.removeSstables (inputs.map (·.id))).write hopens targetLevel first.key
      last.key).foldl_removeTable fun x hx e he hname => ?_
    -- the inputs are no longer listed, and the new file is none of them
    rcases Manifest.mem_entries_addSstable.mp he with hold | rfl
    · obtain ⟨he, hid⟩ := Manifest.mem_entries_of_removed hold
      rw [h.fileName e he, h.fileName x (hinputs x hx)] at hname
      exact hid (sstName_injective hname ▸ List.mem_map_of_mem hx)
    · exact h.fileName_ne (hinputs x hx) hname.symm

/-- A compaction of files that read as tables succeeds. -/
lemma compactOps (h : dir.Serves m) (blockSize level : ℕ)
    (hsize : ∀ m' ops result, LeveledCompaction.compactOps dir.readTable m level =
      .ok (m', ops, result) → ∀ t ∈ ops.filterMap FileOp.table?,
        (SSTableWriter.write blockSize t.entries).length < 2 ^ 64) :
    ∃ m' ops result, LeveledCompaction.compactOps dir.readTable m level = .ok (m', ops, result) ∧
      (ops.foldl (FileOp.applyFile blockSize) dir).Serves m' := by
  rcases LeveledCompaction.compactOps_cases dir.readTable m level with
    ⟨-, heq⟩ | ⟨minKey, maxKey, -, heq⟩
  · exact ⟨m, [], _, heq, h⟩
  · have hinputs : ∀ e ∈ LeveledCompaction.inputs m level minKey maxKey, e ∈ m.entries :=
      fun e he => LeveledCompaction.mem_entries_of_mem_inputs he
    have hread : ∃ tables, (LeveledCompaction.inputs m level minKey maxKey).mapM
        (fun e => dir.readTable e.fileName) = .ok tables ∧ ∀ es ∈ tables, ∀ e ∈ es, e.Short :=
      exists_mapM fun e he => h.readTable (hinputs e he)
    obtain ⟨tables, htables, hshort⟩ := hread
    rw [htables] at heq
    refine ⟨_, _, _, heq, h.merged (LeveledCompaction.mergeOps_merged ..) hinputs ?_
      (hsize _ _ _ heq)⟩
    intro e he
    obtain ⟨es, hes, he⟩ := List.mem_flatten.mp
      (mem_of_mem_stableMerge (SSTable.mem_of_mem_ite_dropTombstones he))
    exact hshort es hes e he

end Serves

end Files

namespace FileTree

/-- The lengths of the key and the value fit into their fields, and those of the files that the
step writes into theirs. -/
@[mk_iff]
structure Storable [Crc32] (s : FileTree) (op : Op) : Prop where
  short : ∀ w ∈ op.toLsm.record?, (BlockEntry.mk w.key w.value).Short
  size : ∀ t ∈ s.written op, (write s.config.blockSize t.entries).length < 2 ^ 64

instance [Crc32] (s : FileTree) (op : Op) : Decidable (s.Storable op) :=
  decidable_of_iff _ (storable_iff s op).symm

/-! ### Trees whose files read as tables -/

/-- Every SSTable that is listed or loaded reads as a table, and what is still to be flushed has
short keys and values. -/
structure Readable (f : FileTree) : Prop where
  short : ∀ e ∈ f.activeMemtable.iter, e.Short
  saved : f.dir.saved = f.manifest
  serves : f.dir.Serves f.manifest
  nodup : (f.sstableCache.map (·.1.id)).Nodup
  listed : ∀ p ∈ f.sstableCache, p.1 ∈ f.manifest.entries
  reads : ∀ p ∈ f.sstableCache, ∃ t, p.2.Reads t

namespace Readable

variable {f f' : FileTree}

/-- Reads succeed, and a range read returns the pairs of its range that point reads return, in
key order. -/
lemma scan (h : f.Readable) {start stop : Bytes} (hle : start ≤ stop) :
    ∃ pairs, f.scan start stop = .ok pairs ∧ pairs.Pairwise (fun a b => a.1 < b.1) ∧
      ∀ key, ∃ result, f.get key = .ok result ∧
        ∀ value, (key, value) ∈ pairs ↔ start ≤ key ∧ key < stop ∧ result = some value := by
  have hids : List.Forall₂ (· = ·) (f.sstableCache.map (·.1.id))
      ((decodeCache f.sstableCache).map (·.1.id)) := by
    rw [List.forall₂_map_left_iff, List.forall₂_map_right_iff]
    exact (forall₂_decodeCache h.reads).imp fun a b hab => congrArg SSTableEntry.id hab.1
  rw [List.forall₂_eq_eq_eq] at hids
  have hnodup : ((decodeCache f.sstableCache).map (·.1.id)).Nodup := hids ▸ h.nodup
  obtain ⟨pairs, hscan, hsorted, hmem⟩ := LsmTree.scan_spec (s := f.decode)
    (fun p hp q hq => List.inj_on_of_nodup_map hnodup hp hq) hle
  exact ⟨pairs, (scan_eq_decode h.reads start stop).trans hscan, hsorted,
    fun key => ⟨f.decode.get key, get_eq_decode h.reads key, hmem key⟩⟩

/-! ### Steps -/

lemma create (config : FileConfig) : (FileTree.create config).Readable := by
  constructor
  · simp [FileTree.create, MemTable.iter, MemTable.new]
  · rfl
  · exact Files.Serves.new _ _
  · exact List.nodup_nil
  · simp [FileTree.create]
  · simp [FileTree.create]

/-- A manifest whose SSTables are loaded anew. -/
lemma reload (h : f.Readable) {m : Manifest} {dir : Files} (hserves : dir.Serves m) :
    ∃ cache, dir.loadReaders m.entries = .ok cache ∧
      { f with
        manifest := m
        dir := { dir with manifest := some m }
        sstableCache := cache }.Readable := by
  obtain ⟨cache, hload, hkeys, hreads⟩ := Files.loadReaders_of_opens hserves.opens
  refine ⟨cache, hload, h.short, rfl, hserves.congr fun _ _ => rfl, ?_, ?_, hreads⟩
  · show (cache.map (·.1.id)).Nodup
    have hids : cache.map (·.1.id) = m.entries.map (·.id) := by
      rw [← hkeys, List.map_map]
      rfl
    exact hids ▸ hserves.nodup
  · intro p hp
    show p.1 ∈ m.entries
    exact hkeys ▸ List.mem_map_of_mem hp

/-- A flush writes a file that reads as a table. -/
lemma flushMemtable (h : f.Readable)
    (hsize : ∀ t ∈ f.flushTables, (write f.config.blockSize t.entries).length < 2 ^ 64) :
    ∃ f', f.flushMemtable = .ok f' ∧ f'.Readable := by
  rw [FileTree.flushMemtable]
  rw [flushTables] at hsize
  split at hsize
  · next hempty => exact ⟨f, if_pos hempty, h⟩
  · next hne =>
    have hfile := hsize _ (List.mem_singleton_self _)
    obtain ⟨r, t, hopen, hreads, -⟩ := opens_write hfile h.short
    rw [if_neg hne]
    refine ⟨_, bind_eq_ok_iff.mpr ⟨r, hopen, rfl⟩, ?_⟩
    constructor
    · simp [MemTable.iter, MemTable.new]
    · rfl
    · exact (h.serves.write (opens_write hfile h.short) 0 _ _).congr fun _ _ => rfl
    · show ((f.sstableCache ++ [_]).map _).Nodup
      rw [List.map_append, List.nodup_append]
      refine ⟨h.nodup, List.nodup_singleton _, ?_⟩
      rintro _ hold _ hadded
      obtain ⟨p, hp, rfl⟩ := List.mem_map.mp hold
      rw [List.mem_singleton.mp hadded]
      exact (h.serves.id_lt _ (h.listed p hp)).ne
    · intro p hp
      refine Manifest.mem_entries_addSstable.mpr ?_
      rcases List.mem_append.mp hp with hp | hp
      · exact .inl (h.listed p hp)
      · exact .inr (by rw [List.mem_singleton.mp hp])
    · intro p hp
      rcases List.mem_append.mp hp with hp | hp
      · exact h.reads p hp
      · exact ⟨t, by rw [List.mem_singleton.mp hp]; exact hreads⟩

/-- A compaction leaves files that read as tables. -/
lemma maybeCompact (h : f.Readable)
    (hsize : ∀ t ∈ f.compactTables, (write f.config.blockSize t.entries).length < 2 ^ 64) :
    ∃ f', f.maybeCompact = .ok f' ∧ f'.Readable := by
  rw [compactTables, compactionOps, CompactionConfig.fileOps] at hsize
  rw [FileTree.maybeCompact]
  cases hneeds : f.config.compaction.needsCompaction f.manifest with
  | none => exact ⟨f, rfl, h⟩
  | some level =>
    rw [hneeds] at hsize
    obtain ⟨m', ops, result, hops, hserves⟩ :=
      h.serves.compactOps f.config.blockSize level fun m' ops result hops t ht => by
        simp only [hops, List.filterMap_append] at hsize
        exact hsize t (List.mem_append_left _ ht)
    obtain ⟨cache, hload, hreadable⟩ := h.reload (hserves.congr fun _ _ => rfl :
      Files.Serves { ops.foldl (FileOp.applyFile f.config.blockSize) f.dir with
        manifest := some m' } m')
    refine ⟨_, ?_, hreadable⟩
    simp only [hops, bind, Except.bind, hload]
    rfl

lemma afterWrite (h : f.Readable)
    (hsize : ∀ t ∈ f.writeTables, (write f.config.blockSize t.entries).length < 2 ^ 64) :
    ∃ f', f.afterWrite = .ok f' ∧ f'.Readable := by
  rw [FileTree.afterWrite]
  rw [writeTables] at hsize
  split at hsize
  · next hfull =>
    obtain ⟨f₁, hflush, hf₁⟩ := h.flushMemtable fun t ht => hsize t (List.mem_append_left _ ht)
    rw [hflush] at hsize
    obtain ⟨f', hcompact, hf'⟩ := hf₁.maybeCompact fun t ht => by
      rw [config_flushMemtable hflush]
      exact hsize t (List.mem_append_right _ ht)
    refine ⟨f', ?_, hf'⟩
    rw [if_pos hfull, hflush]
    exact hcompact
  · next hfull => exact ⟨f, if_neg hfull, h⟩

variable [Crc32]

lemma logged (h : f.Readable) {op : WalOp} (hop : (BlockEntry.mk op.key op.value).Short) :
    (f.logged op).Readable := by
  refine ⟨fun e he => ?_, h.saved, h.serves, h.nodup, h.listed, h.reads⟩
  have hfold : e ∈ ([op].foldl WalOp.apply f.activeMemtable).iter := he
  rcases WalOp.mem_iter_foldl_apply hfold with hold | ⟨op', hop', rfl⟩
  · exact h.short e hold
  · rwa [List.mem_singleton.mp hop']

/-- Reopening replays records that are short. -/
lemma openDir (h : f.Readable) {walFile : Option Bytes} {config : FileConfig}
    (hok : FileTree.openDir f.dir walFile config = .ok f') : f'.Readable := by
  rw [FileTree.openDir, h.saved] at hok
  simp only [bind_eq_ok_iff] at hok
  obtain ⟨records, hrecords, ops, hops, cache, hload, hok⟩ := hok
  obtain rfl := Except.ok.inj hok
  obtain ⟨cache', hload', hreadable⟩ := h.reload h.serves
  obtain rfl := Except.ok.inj (hload.symm.trans hload')
  refine ⟨fun e he => ?_, h.saved, h.serves, hreadable.nodup, hreadable.listed, hreadable.reads⟩
  rcases WalOp.mem_iter_foldl_apply he with hnew | ⟨op, hop, rfl⟩
  · simp [MemTable.iter, MemTable.new] at hnew
  obtain ⟨record, hrecord, hdecode⟩ := exists_of_mem_mapM hops hop
  have hle := WalReader.length_le_of_mem_readAll (mapError_eq_ok_iff.mp hrecords) hrecord
  obtain ⟨hkey, hvalue⟩ := WalOp.length_le_of_decode hdecode
  exact ⟨(hkey.trans hle).trans_lt (by decide),
    fun v hv => ((hvalue v hv).trans hle).trans_lt (by decide)⟩

/-- Every step whose lengths fit keeps the files readable. -/
lemma execute (h : f.Readable) {op : Op} (hop : f.Storable op) (hok : f.execute op = .ok f') :
    f'.Readable := by
  have hfrom : ∀ {x : Except Abort FileTree}, (∃ f'', x = .ok f'' ∧ f''.Readable) →
      x = .ok f' → f'.Readable := by
    rintro x ⟨f'', hx, hf''⟩ hx'
    exact Except.ok.inj (hx.symm.trans hx') ▸ hf''
  cases op with
  | put key value => exact hfrom ((h.logged (hop.short _ rfl)).afterWrite hop.size) hok
  | delete key => exact hfrom ((h.logged (hop.short _ rfl)).afterWrite hop.size) hok
  | flush => exact hfrom (h.flushMemtable hop.size) hok
  | maybeCompact => exact hfrom (h.maybeCompact hop.size) hok
  | reopen config => exact h.openDir hok

end Readable

/-! ### Runs -/

variable [Crc32]

/-- In every state that is reached by steps whose lengths fit, a point read of a key finds a value
if and only if range reads over the key return it, and these are in key order. -/
theorem get_iff_mem_scan {config : FileConfig} {ops : List Op} {s : FileTree}
    (hstorable : AlongOk execute Storable (create config) ops) (hrun : run config ops = .ok s)
    {key start stop : Bytes} (hstart : start ≤ key) (hstop : key < stop) :
    ∃ result pairs, s.get key = .ok result ∧ s.scan start stop = .ok pairs ∧
      (∀ value, result = some value ↔ (key, value) ∈ pairs) ∧
      pairs.Pairwise fun a b => a.1 < b.1 := by
  rw [run, openDir_empty] at hrun
  have hreadable : s.Readable := hstorable.foldlM_invariant
    (fun f op f' hf hop hok => hf.execute hop hok) (Readable.create config) hrun
  obtain ⟨pairs, hscan, hsorted, hmem⟩ := hreadable.scan (hstart.trans hstop.le)
  obtain ⟨result, hget, hresult⟩ := hmem key
  refine ⟨result, pairs, hget, hscan, fun value => ?_, hsorted⟩
  rw [hresult]
  exact ⟨fun h => ⟨hstart, hstop, h⟩, fun h => h.2.2⟩

/-- Two SSTables of level 0 are enough for a compaction. -/
def mergeConfig : FileConfig where
  memtableSizeLimit := 64
  l0CompactionTrigger := 2
  levelSizeRatio := 10
  blockSize := 32

/-- Two versions of a key are merged, and then the tree is reopened with a deletion in its log. -/
def mergeAndReopen : List Op :=
  [.put [1] [10], .flush, .put [1] [11], .flush, .maybeCompact, .delete [2], .reopen mergeConfig]

omit [BloomHash] [Crc32] in
theorem get_iff_mem_scan_mergeAndReopen :
    letI := Crc32.ieee
    letI := BloomHash.sip
    ∃ s result pairs, run mergeConfig mergeAndReopen = .ok s ∧ s.manifest.levelCount 1 = 1 ∧
      s.get [1] = .ok result ∧ s.scan [1] [3] = .ok pairs ∧
      (∀ value, result = some value ↔ ([1], value) ∈ pairs) ∧
      pairs.Pairwise fun a b => a.1 < b.1 := by
  have hrun : (@run BloomHash.sip Crc32.ieee mergeConfig mergeAndReopen).toOption.map
      (·.manifest.levelCount 1) = some 1 := by
    decide +kernel
  obtain ⟨s, hs, hcount⟩ := Option.map_eq_some_iff.mp hrun
  have hok : @run BloomHash.sip Crc32.ieee mergeConfig mergeAndReopen = .ok s := by
    cases hr : @run BloomHash.sip Crc32.ieee mergeConfig mergeAndReopen with
    | error e => rw [hr] at hs; cases hs
    | ok s' => rw [hr] at hs; exact congrArg Except.ok (Option.some.inj hs)
  obtain ⟨result, pairs, hreads⟩ := @get_iff_mem_scan BloomHash.sip Crc32.ieee mergeConfig
    mergeAndReopen s (by decide +kernel) hok [1] [1] [3] (by decide) (by decide)
  exact ⟨s, result, pairs, hok, hcount, hreads⟩

end FileTree

end

/-! ### A key that is too long -/

namespace FileTree

/-- A key of `n + 1` bytes. -/
def longKey (n : ℕ) : Bytes :=
  3 :: List.replicate n 0

def longPuts (n : ℕ) : List Op :=
  [.put [1] [], .put [2] [], .put (longKey n) []]

def longTable (n : ℕ) : MemTable :=
  (((MemTable.new FileConfig.default.memtableSizeLimit).put [1] []).put [2] []).put (longKey n) []

def longEntries (n : ℕ) : List BlockEntry :=
  [⟨[1], some []⟩, ⟨[2], some []⟩, ⟨longKey n, some []⟩]

/-- What is read back if the length of the key is cut to zero. -/
def cutEntries : List BlockEntry :=
  [⟨[1], some []⟩, ⟨[2], some []⟩, ⟨[], some []⟩]

lemma longEntries_sorted (n : ℕ) : (longEntries n).Pairwise fun a b => a.key < b.key := by
  have hlt : ∀ {x y : Byte} (xs ys : Bytes), x < y → (x :: xs : Bytes) < y :: ys :=
    fun _ _ h => List.cons_lt_cons_iff.mpr (.inl h)
  simp only [longEntries, longKey, List.pairwise_cons, List.forall_mem_cons]
  exact ⟨⟨hlt _ _ (by decide), hlt _ _ (by decide), by simp⟩, ⟨hlt _ _ (by decide), by simp⟩,
    by simp, .nil⟩

lemma longTable_iter (n : ℕ) : (longTable n).iter = longEntries n := by
  have hnodup : ∀ {l : List BlockEntry}, (l.Pairwise fun a b => a.key < b.key) → l.Nodup :=
    fun h => h.imp fun hlt heq => hlt.ne (congrArg BlockEntry.key heq)
  have hdata : (longTable n).data = (((∅ : Std.TreeMap Bytes (Option Bytes)).insert [1]
      (some [])).insert [2] (some [])).insert (longKey n) (some []) := rfl
  -- both lists are sorted, so it is enough that they have the same members
  apply List.Perm.eq_of_pairwise _ (longTable n).iter_sorted (longEntries_sorted n)
  · rw [List.perm_ext_iff_of_nodup (hnodup (longTable n).iter_sorted)
      (hnodup (longEntries_sorted n))]
    rintro ⟨key, value⟩
    rw [MemTable.mem_iter_iff, hdata]
    simp only [Std.TreeMap.getElem?_insert, Std.LawfulEqOrd.compare_eq_iff_eq, longEntries,
      Std.TreeMap.getElem?_emptyc, List.mem_cons, BlockEntry.mk.injEq, List.not_mem_nil, or_false]
    grind
  · exact fun a b _ _ hab hba => absurd hab hba.asymm

lemma longTable_isFull {n : ℕ} (hn : FileConfig.default.memtableSizeLimit ≤ n) :
    (longTable n).isFull := by
  have hsum : (longTable n).sizeBytes =
      ((longTable n).iter.map fun e => e.key.length + (e.value.map (·.length)).getD 0).sum := by
    rw [MemTable.iter, List.map_map]
    rfl
  have hmax : (longTable n).maxSize = FileConfig.default.memtableSizeLimit := rfl
  rw [MemTable.isFull, hsum, longTable_iter, hmax, decide_eq_true_eq]
  simp only [longEntries, longKey, List.map_cons, List.map_nil, List.sum_cons, List.length_cons,
    List.length_replicate]
  omega

lemma blocksOf_longEntries (n : ℕ) :
    blocksOf FileConfig.default.blockSize .new (longEntries n) = [longEntries n] := by
  simp [longEntries, blocksOf, BlockBuilder.add, BlockBuilder.new, FileConfig.default]

lemma length_build_longEntries (n : ℕ) : (BlockBuilder.build (longEntries n)).length = n + 31 := by
  simp only [BlockBuilder.build, longEntries, longKey, BlockEntry.encode, List.flatMap_cons,
    List.flatMap_nil, List.length_append, toLe_length, List.length_cons, List.length_nil,
    List.length_replicate, Option.getD_some]
  omega

lemma readEntries_longEntries {n : ℕ} (hmod : (n + 1) % 2 ^ 32 = 0) :
    BlockReader.readEntries (BlockBuilder.build (longEntries n)) = .ok cutEntries := by
  have hkey : (longKey n).length % 2 ^ 32 = 0 := by
    rw [longKey, List.length_cons, List.length_replicate, hmod]
  have hshort : ∀ key ∈ [[1], [2]], (BlockEntry.mk key (some [])).Short := by decide
  rw [BlockReader.readEntries_build]
  simp only [longEntries, List.flatMap_cons, List.flatMap_nil]
  show BlockReader.readLoop 3 _ = _
  rw [BlockReader.readLoop_encode_append (hshort _ (by simp)),
    BlockReader.readLoop_encode_append (hshort _ (by simp)),
    BlockReader.readLoop_encode_of_mod hkey]
  rfl

/-- The third key is out of order, and the search does not find it. -/
lemma lookup_cutEntries : BlockReader.lookup cutEntries [] = none := by
  decide +kernel

lemma findBlock_singleton (ie : IndexEntry) (key : Bytes) :
    SSTableReader.findBlock [ie] key = 0 := by
  have hbase : searchBase (fun e : IndexEntry => compare e.firstKey key) [ie] 0 1 = 0 := by
    rw [searchBase, if_neg (lt_irrefl 1)]
  rw [SSTableReader.findBlock, binarySearchBy]
  simp only [List.length_singleton, one_ne_zero, if_false, hbase, List.getElem?_cons_zero,
    Option.map_some]
  cases compare ie.firstKey key <;> rfl

variable [BloomHash]

/-- The index entry of the only block. -/
def longIndex (n : ℕ) : IndexEntry :=
  ⟨[1], 0, (BlockBuilder.build (longEntries n)).length⟩

/-- The reader of the flushed file. -/
def longReader (n : ℕ) : SSTableReader where
  data := write FileConfig.default.blockSize (longEntries n)
  index := [longIndex n]
  bloom := bloomOf (longEntries n)

lemma longReader_data (n : ℕ) : (longReader n).data =
    layout (BlockBuilder.build (longEntries n)) [longIndex n] (bloomOf (longEntries n)) := by
  rw [longReader, write_eq_layout, blocksOf_longEntries, List.flatMap_singleton]
  rfl

lemma openBytes_longReader {n : ℕ} (hlt : n < 2 ^ 33) :
    SSTableReader.openBytes (longReader n).data = .ok (longReader n) := by
  have hblock := length_build_longEntries n
  have hindex : (indexBlock [longIndex n]).length = 25 := by
    simp [indexBlock, longIndex, IndexEntry.encode]
  have hle := SSTableReader.length_layout_le (BlockBuilder.build (longEntries n)) [longIndex n]
    (longEntries n)
  rw [longReader_data, SSTableReader.openBytes_layout (by omega) _
    (SSTableReader.bloomOf_numBits_lt _) (SSTableReader.bloomOf_numHashes_lt _),
    ← longReader_data]
  · rfl
  · intro ie hie
    rw [List.mem_singleton.mp hie]
    constructor
    · show 1 < 2 ^ 32
      decide
    · show 0 + (BlockBuilder.build (longEntries n)).length < 2 ^ 64
      omega

lemma readBlock_longReader {n : ℕ} (hmod : (n + 1) % 2 ^ 32 = 0) (hlt : n < 2 ^ 33) :
    SSTableReader.readBlock (longReader n).data (longIndex n) = .ok cutEntries := by
  have hblock := length_build_longEntries n
  have hslice : ∀ rest, slice (BlockBuilder.build (longEntries n) ++ rest) 0
      (BlockBuilder.build (longEntries n)).length = .ok (BlockBuilder.build (longEntries n)) := by
    intro rest
    have hmiddle := SSTableReader.slice_middle [] (BlockBuilder.build (longEntries n)) rest
    rwa [List.nil_append, List.length_nil, Nat.zero_add] at hmiddle
  rw [longReader_data, layout, List.append_assoc, List.append_assoc, SSTableReader.readBlock,
    longIndex]
  simp only [Nat.zero_add]
  rw [Nat.mod_eq_of_lt (by omega)]
  exact bind_eq_ok_iff.mpr ⟨_, hslice _, readEntries_longEntries hmod⟩

lemma get_longReader {n : ℕ} (hmod : (n + 1) % 2 ^ 32 = 0) (hlt : n < 2 ^ 33) :
    (longReader n).get [] = .ok none := by
  have hpos : 0 < (longReader n).bloom.numBits := by
    rw [longReader, bloomOf, BloomFilter.foldl_insert_numBits]
    exact BloomFilter.new_numBits_pos _
  have hindex : (longReader n).index[SSTableReader.findBlock (longReader n).index []]? =
      some (longIndex n) := by
    rw [longReader, findBlock_singleton]
    rfl
  rw [SSTableReader.get]
  rcases BloomFilter.mayContain_cases hpos [] with hmay | ⟨hmay, -⟩
  · simp only [hmay, bind, Except.bind, Bool.not_true, Bool.false_eq_true, if_false, hindex,
      readBlock_longReader hmod hlt, lookup_cutEntries]
    rfl
  · rw [hmay]
    rfl

lemma iter_longReader {n : ℕ} (hmod : (n + 1) % 2 ^ 32 = 0) (hlt : n < 2 ^ 33) :
    (longReader n).iter = .ok cutEntries := by
  have hindex : (longReader n).index = [longIndex n] := rfl
  rw [SSTableReader.iter, hindex, List.mapM_cons, readBlock_longReader hmod hlt]
  rfl

/-- The tree whose only SSTable is the flushed file. -/
structure LongFlushed (n : ℕ) (s : FileTree) : Prop where
  active : s.activeMemtable = MemTable.new FileConfig.default.memtableSizeLimit
  immutable : s.immutableMemtables = []
  cache : ∃ e, s.sstableCache = [(e, longReader n)] ∧ e ∈ s.manifest.entries ∧ e.minKey = [1] ∧
    s.dir.tables e.fileName = some (longReader n).data

/-- The long key fills the memtable, and the memtable is flushed. -/
lemma afterWrite_longTable {n : ℕ} (hfull : FileConfig.default.memtableSizeLimit ≤ n)
    (hlt : n < 2 ^ 33) (wal : WalWriter) :
    ∃ s, { create .default with activeMemtable := longTable n, wal := wal }.afterWrite = .ok s ∧
      LongFlushed n s := by
  have hne : (longTable n).isEmpty = false := by
    simp [longTable, MemTable.put, MemTable.recalculateSize, MemTable.isEmpty]
  have hneeds : ∀ e : SSTableEntry, e.level = 0 →
      FileConfig.default.compaction.needsCompaction
        ({ Manifest.new numLevels with nextSstId := 1 }.addSstable e) = none := by
    rintro ⟨id, level, fileName, minKey, maxKey⟩ rfl
    rfl
  obtain ⟨s, hflush, hs, hflushed⟩ : ∃ s,
      { create .default with activeMemtable := longTable n, wal := wal }.flushMemtable = .ok s ∧
      s.maybeCompact = .ok s ∧ LongFlushed n s := by
    rw [flushMemtable]
    simp only [hne, longTable_iter]
    refine ⟨_, bind_eq_ok_iff.mpr ⟨_, openBytes_longReader hlt, rfl⟩, ?_, rfl, rfl, _, rfl,
      Manifest.mem_entries_addSstable.mpr (.inr rfl), rfl, ?_⟩
    · exact maybeCompact_of_none (hneeds _ rfl)
    · exact (create .default).dir.writeTable_tables_self (sstName 0) (longReader n).data
  refine ⟨s, ?_, hflushed⟩
  rw [afterWrite, if_pos (longTable_isFull hfull), hflush]
  exact hs

variable [Crc32]

lemma run_longPuts {n : ℕ} (hfull : FileConfig.default.memtableSizeLimit ≤ n)
    (hlt : n < 2 ^ 33) : ∃ s, run .default (longPuts n) = .ok s ∧ LongFlushed n s := by
  let s₁ := (create .default).logged (.put [1] [])
  let s₂ := s₁.logged (.put [2] [])
  have hfirst : (create .default).execute (.put [1] []) = .ok s₁ := by
    apply execute_put_of_not_isFull
    show ((MemTable.new _).put [1] []).isFull = false
    decide +kernel
  have hsecond : s₁.execute (.put [2] []) = .ok s₂ := by
    apply execute_put_of_not_isFull
    show (((MemTable.new _).put [1] []).put [2] []).isFull = false
    decide +kernel
  obtain ⟨s, hs, hflushed⟩ :=
    afterWrite_longTable hfull hlt (s₂.logged (.put (longKey n) [])).wal
  have hthird : s₂.execute (.put (longKey n) []) = .ok s := hs
  refine ⟨s, bind_eq_ok_iff.mpr ⟨_, openDir_empty .default, ?_⟩, hflushed⟩
  simp only [longPuts, List.foldlM_cons, List.foldlM_nil]
  exact bind_eq_ok_iff.mpr ⟨s₁, hfirst, bind_eq_ok_iff.mpr ⟨s₂, hsecond,
    bind_eq_ok_iff.mpr ⟨s, hthird, rfl⟩⟩⟩

/-- A range read returns the empty key, and a point read does not. -/
lemma reads_longPuts {n : ℕ} (hmod : (n + 1) % 2 ^ 32 = 0)
    (hfull : FileConfig.default.memtableSizeLimit ≤ n) (hlt : n < 2 ^ 33) :
    ∃ s, run .default (longPuts n) = .ok s ∧ s.get [] = .ok none ∧
      ∃ pairs, s.scan [] [4] = .ok pairs ∧ ([], []) ∈ pairs := by
  obtain ⟨s, hrun, hactive, himm, e, hcache, -⟩ := run_longPuts hfull hlt
  refine ⟨s, hrun, ?_, livePairs ([cutEntries, []].foldl insertAll ∅), ?_, by decide +kernel⟩
  · rw [get, hactive, himm, hcache, List.insertionSort_cons, List.insertionSort_nil,
      List.orderedInsert_nil]
    simp only [MemTable.get_new, List.reverse_nil, List.findSome?_nil, Option.or_none,
      List.findSomeM?_cons, get_longReader hmod hlt]
    rfl
  · rw [scan, hactive, himm, hcache, List.insertionSort_cons, List.insertionSort_nil,
      List.orderedInsert_nil, List.mapM_cons, SSTableReader.scan, iter_longReader hmod hlt]
    rfl

omit [BloomHash] [Crc32] in
/-- A key of 2³² bytes is flushed as the empty key, behind greater ones. -/
theorem longKey_read_as_empty :
    letI := BloomHash.sip
    letI := Crc32.ieee
    ∃ s, run .default (longPuts (2 ^ 32 - 1)) = .ok s ∧ s.get [] = .ok none ∧
      ∃ pairs, s.scan [] [4] = .ok pairs ∧ ([], []) ∈ pairs := by
  let _ := BloomHash.sip
  let _ := Crc32.ieee
  exact reads_longPuts (by decide) (by decide) (by decide)

end FileTree

end Raftrust.Storage

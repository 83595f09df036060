import Raftrust.Storage.FileTree
import Raftrust.Storage.MapView
import Raftrust.Storage.Sst.Reads

/-!
# Files stand for tables

Decoding the files of a tree over files gives a tree over tables. As long as the tables that are
written fit into their files, the first takes the steps of the second, and reads the same.
-/

namespace Raftrust.Storage

open Lib SSTableWriter

/-! ### Decoding -/

/-- The table that the reader returns, if it is one. -/
def SSTableReader.table? (r : SSTableReader) : Option SSTable :=
  match r.iter with
  | .ok entries =>
    if h : entries.Pairwise fun a b => a.key < b.key then some ⟨entries, h⟩ else none
  | .error _ => none

/-- The table that the file reads as, if it does. -/
def decodeTable (data : Bytes) : Option SSTable :=
  (SSTableReader.openBytes data).toOption.bind SSTableReader.table?

/-- The directory of the tables of the files. -/
def Files.decode (dir : Files) : Directory where
  manifest := dir.manifest
  tables name := (dir.tables name).bind decodeTable

/-- The step of the tree over tables. -/
def TreeOp.toLsm : TreeOp FileConfig → TreeOp LsmConfig
  | .put key value => .put key value
  | .delete key => .delete key
  | .flush => .flush
  | .maybeCompact => .maybeCompact
  | .reopen config => .reopen config.toLsmConfig

namespace FileTree

/-- The readers' tables. -/
def decodeCache (cache : List (SSTableEntry × SSTableReader)) : List (SSTableEntry × SSTable) :=
  cache.filterMap fun p => p.2.table?.map fun t => (p.1, t)

/-- The tree over the tables of the files. -/
def decode (f : FileTree) : LsmTree where
  activeMemtable := f.activeMemtable
  immutableMemtables := f.immutableMemtables
  manifest := f.manifest
  wal := f.wal
  sstableCache := decodeCache f.sstableCache
  config := f.config.toLsmConfig
  dir := f.dir.decode

end FileTree

variable [BloomHash]

lemma SSTableReader.Reads.table? {r : SSTableReader} {t : SSTable} (h : r.Reads t) :
    r.table? = some t := by
  rw [SSTableReader.table?, h.iter]
  exact dif_pos t.sorted

/-- The bytes are a file of the table. -/
def Holds (data : Bytes) (t : SSTable) : Prop :=
  ∃ blockSize, Writable blockSize t.entries ∧ data = write blockSize t.entries

lemma Holds.openBytes {data : Bytes} {t : SSTable} (h : Holds data t) :
    ∃ r, SSTableReader.openBytes data = .ok r ∧ r.Reads t := by
  obtain ⟨blockSize, hwritable, rfl⟩ := h
  exact SSTableReader.openBytes_write_reads hwritable

lemma Holds.decodeTable {data : Bytes} {t : SSTable} (h : Holds data t) :
    decodeTable data = some t := by
  obtain ⟨r, hopen, hreads⟩ := h.openBytes
  rw [Storage.decodeTable, hopen]
  exact hreads.table?

/-! ### Directories -/

namespace Files

variable {dir : Files}

/-- The file of the name is missing or holds a table. -/
def Intact (dir : Files) (name : String) : Prop :=
  ∀ data ∈ dir.tables name, ∃ t, Holds data t

lemma Intact.cases {name : String} (h : dir.Intact name) :
    (dir.tables name = none ∧ dir.decode.tables name = none) ∨
      ∃ data t, dir.tables name = some data ∧ dir.decode.tables name = some t ∧ Holds data t := by
  have hdecode : dir.decode.tables name = (dir.tables name).bind decodeTable := rfl
  rw [hdecode]
  cases hfile : dir.tables name with
  | none => exact .inl ⟨rfl, rfl⟩
  | some data =>
    obtain ⟨t, ht⟩ := h data hfile
    exact .inr ⟨data, t, rfl, ht.decodeTable, ht⟩

lemma Intact.readTable {name : String} (h : dir.Intact name) :
    dir.readTable name = (dir.decode.readTable name).mapError Abort.error := by
  rw [Files.readTable, openTable, Directory.readTable]
  rcases h.cases with ⟨hfile, htable⟩ | ⟨data, t, hfile, htable, hholds⟩
  · rw [hfile, htable]
    rfl
  · obtain ⟨r, hopen, hreads⟩ := hholds.openBytes
    rw [hfile, htable]
    simp only [hopen, bind, Except.bind, hreads.iter]
    rfl

lemma loadReaders_of_intact (dir : Files) {es : List SSTableEntry}
    (h : ∀ e ∈ es, dir.Intact e.fileName) :
    ∃ cache, dir.loadReaders es = .ok cache ∧ (∀ p ∈ cache, ∃ t, p.2.Reads t) ∧
      FileTree.decodeCache cache =
        es.filterMap fun e => (dir.decode.tables e.fileName).map fun t => (e, t) := by
  induction es with
  | nil => exact ⟨[], rfl, by simp, rfl⟩
  | cons e es ih =>
    obtain ⟨cache, hload, hreads, hcache⟩ := ih fun x hx => h x (List.mem_cons_of_mem e hx)
    rw [loadReaders]
    rcases (h e List.mem_cons_self).cases with ⟨hfile, htable⟩ | ⟨data, t, hfile, htable, hholds⟩
    · rw [hfile, List.filterMap_cons_none (by rw [htable]; rfl)]
      exact ⟨cache, hload, hreads, hcache⟩
    · obtain ⟨r, hopen, hr⟩ := hholds.openBytes
      rw [hfile, List.filterMap_cons_some (by rw [htable]; rfl)]
      refine ⟨(e, r) :: cache, ?_, List.forall_mem_cons.mpr ⟨⟨t, hr⟩, hreads⟩, ?_⟩
      · simp only [hopen, hload, bind, Except.bind]
        rfl
      · rw [← hcache, FileTree.decodeCache, List.filterMap_cons_some (by rw [hr.table?]; rfl)]
        rfl

lemma decode_writeTable (dir : Files) (name : String) {blockSize : ℕ} {t : SSTable}
    (h : Writable blockSize t.entries) :
    (dir.writeTable name (write blockSize t.entries)).decode = dir.decode.writeTable name t := by
  have hholds : Holds (write blockSize t.entries) t := ⟨blockSize, h, rfl⟩
  simp only [decode, Files.writeTable, Directory.writeTable]
  congr 1
  funext n
  split
  · exact hholds.decodeTable
  · rfl

omit [BloomHash] in
lemma decode_removeTables (dir : Files) (names : List String) :
    (dir.removeTables names).decode = dir.decode.removeTables names := by
  simp only [decode, Files.removeTables, Directory.removeTables]
  congr 1
  funext n
  split <;> rfl

lemma Intact.writeTable {n : String} (h : dir.Intact n) (name : String) {blockSize : ℕ}
    {t : SSTable} (ht : Writable blockSize t.entries) :
    (dir.writeTable name (write blockSize t.entries)).Intact n := by
  intro data hdata
  simp only [Files.writeTable] at hdata
  split at hdata
  · exact ⟨t, blockSize, ht, (Option.some.inj hdata).symm⟩
  · exact h data hdata

lemma intact_writeTable_self (dir : Files) (name : String) {blockSize : ℕ} {t : SSTable}
    (ht : Writable blockSize t.entries) :
    (dir.writeTable name (write blockSize t.entries)).Intact name := by
  intro data hdata
  rw [writeTable_tables_self] at hdata
  exact ⟨t, blockSize, ht, (Option.some.inj hdata).symm⟩

lemma Intact.removeTables {n : String} (h : dir.Intact n) (names : List String) :
    (dir.removeTables names).Intact n := by
  intro data hdata
  simp only [Files.removeTables] at hdata
  split at hdata
  · cases hdata
  · exact h data hdata

end Files

namespace FileOp

variable {blockSize : ℕ} {ops : List FileOp} {dir : Files}

/-- Changes of files are changes of their tables. -/
lemma decode_foldl_applyFile (dir : Files)
    (h : ∀ t ∈ ops.filterMap table?, Writable blockSize t.entries) :
    (ops.foldl (applyFile blockSize) dir).decode = ops.foldl apply dir.decode := by
  induction ops generalizing dir with
  | nil => rfl
  | cons op ops ih =>
    rw [List.foldl_cons, List.foldl_cons]
    cases op with
    | writeTable name t =>
      obtain ⟨ht, hrest⟩ := List.forall_mem_cons.mp h
      rw [ih _ hrest, applyFile, dir.decode_writeTable name ht]
      rfl
    | removeTable name =>
      rw [ih _ h, applyFile, dir.decode_removeTables]
      rfl
    | saveManifest m => exact ih _ h

lemma intact_foldl_applyFile (h : ∀ t ∈ ops.filterMap table?, Writable blockSize t.entries)
    {name : String} (hname : dir.Intact name ∨ ∃ t, writeTable name t ∈ ops) :
    (ops.foldl (applyFile blockSize) dir).Intact name := by
  induction ops generalizing dir with
  | nil => exact hname.resolve_right (by simp)
  | cons op ops ih =>
    rw [List.foldl_cons]
    cases op with
    | writeTable name' t =>
      obtain ⟨ht, hrest⟩ := List.forall_mem_cons.mp h
      refine ih hrest ?_
      rcases hname with hname | ⟨t', hmem⟩
      · exact .inl (hname.writeTable name' ht)
      · rcases List.mem_cons.mp hmem with heq | hmem
        · rw [(FileOp.writeTable.inj heq).1]
          exact .inl (dir.intact_writeTable_self name' ht)
        · exact .inr ⟨t', hmem⟩
    | removeTable name' =>
      refine ih h (hname.imp (fun hname => hname.removeTables [name']) ?_)
      rintro ⟨t, hmem⟩
      exact ⟨t, (List.mem_cons.mp hmem).resolve_left (by simp)⟩
    | saveManifest m =>
      refine ih h (hname.imp (fun hname => hname) ?_)
      rintro ⟨t, hmem⟩
      exact ⟨t, (List.mem_cons.mp hmem).resolve_left (by simp)⟩

end FileOp

namespace FileTree

/-! ### Reads -/

/-- The reader of an entry answers as the table of the same entry. -/
def CacheReads (a : SSTableEntry × SSTableReader) (b : SSTableEntry × SSTable) : Prop :=
  a.1 = b.1 ∧ a.2.Reads b.2

lemma forall₂_decodeCache {cache : List (SSTableEntry × SSTableReader)}
    (h : ∀ p ∈ cache, ∃ t, p.2.Reads t) : List.Forall₂ CacheReads cache (decodeCache cache) := by
  induction cache with
  | nil => exact .nil
  | cons p cache ih =>
    obtain ⟨⟨t, ht⟩, hrest⟩ := List.forall_mem_cons.mp h
    rw [decodeCache, List.filterMap_cons_some (by rw [ht.table?]; rfl)]
    exact .cons ⟨rfl, ht⟩ (ih hrest)

lemma findSomeM?_get {l : List (SSTableEntry × SSTableReader)} {l' : List (SSTableEntry × SSTable)}
    (h : List.Forall₂ CacheReads l l') (key : Bytes) :
    l.findSomeM? (fun p => p.2.get key) = .ok (l'.findSome? (·.2.get key)) := by
  induction h with
  | nil => rfl
  | @cons a b l l' hab _ ih =>
    rw [List.findSomeM?_cons, hab.2.get, List.findSome?_cons]
    cases b.2.get key with
    | none => exact ih
    | some v => rfl

section

variable {f : FileTree} (h : ∀ p ∈ f.sstableCache, ∃ t, p.2.Reads t)

include h

/-- Single reads agree. -/
lemma get_eq_decode (key : Bytes) : f.get key = .ok (f.decode.get key) := by
  have hsorted : List.Forall₂ CacheReads (f.sstableCache.insertionSort ReadsBefore)
      (f.decode.sstableCache.insertionSort ReadsBefore) := by
    refine forall₂_insertionSort (fun a b a' b' hab hab' => ?_) (forall₂_decodeCache h)
    rw [ReadsBefore, ReadsBefore, hab.1, hab'.1]
  rw [FileTree.get, LsmTree.get, LsmTree.getMemtables, LsmTree.getSstables]
  simp only [findSomeM?_get hsorted]
  change _ = Except.ok ((((f.activeMemtable.get key).or
    (f.immutableMemtables.reverse.findSome? (·.get key))).or _).join)
  cases (f.activeMemtable.get key).or (f.immutableMemtables.reverse.findSome? (·.get key)) <;> rfl

/-- Range reads agree, also in that they panic. -/
lemma scan_eq_decode (start stop : Bytes) : f.scan start stop = f.decode.scan start stop := by
  have hsorted : List.Forall₂ CacheReads (f.sstableCache.insertionSort ScansBefore)
      (f.decode.sstableCache.insertionSort ScansBefore) := by
    refine forall₂_insertionSort (fun a b a' b' hab hab' => ?_) (forall₂_decodeCache h)
    rw [ScansBefore, ScansBefore, hab.1, hab'.1]
  have hssts : (f.sstableCache.insertionSort ScansBefore).mapM (fun p => p.2.scan start stop) =
      .ok ((f.decode.sstableCache.insertionSort ScansBefore).map fun p =>
        (p.2.range start stop).entries) := by
    apply mapM_eq_ok
    rw [List.forall₂_map_right_iff]
    exact hsorted.imp fun _ _ hab => hab.2.scan start stop
  rw [FileTree.scan, LsmTree.scan, hssts]
  rfl

end

/-! ### Steps -/

/-- Every file that is listed is missing or holds a table, and every reader reads one. -/
structure Intact (f : FileTree) : Prop where
  listed : ∀ e ∈ f.manifest.entries, f.dir.Intact e.fileName
  saved : ∀ e ∈ f.dir.saved.entries, f.dir.Intact e.fileName
  reads : ∀ p ∈ f.sstableCache, ∃ t, p.2.Reads t

/-- The trees differ only in how tables are stored. -/
structure Represents (f : FileTree) (s : LsmTree) : Prop where
  intact : f.Intact
  decode : f.decode = s

lemma config_flushMemtable {f f' : FileTree} (h : f.flushMemtable = .ok f') :
    f'.config = f.config := by
  rw [flushMemtable] at h
  split at h
  · rw [Except.ok.inj h]
  · obtain ⟨r, -, h⟩ := bind_eq_ok_iff.mp h
    obtain rfl := Except.ok.inj h
    rfl

namespace Intact

variable {f : FileTree}

lemma get (h : f.Intact) (key : Bytes) : f.get key = .ok (f.decode.get key) :=
  get_eq_decode h.reads key

lemma flushMemtable (h : f.Intact)
    (hwritten : ∀ t ∈ f.flushTables, Writable f.config.blockSize t.entries) :
    ∃ f', f.flushMemtable = .ok f' ∧ f'.Represents f.decode.flushMemtable := by
  by_cases hempty : f.activeMemtable.isEmpty
  · exact ⟨f, if_pos hempty, h, (LsmTree.flushMemtable_of_isEmpty (s := f.decode) hempty).symm⟩
  · have htable : Writable f.config.blockSize f.activeMemtable.toTable.entries :=
      hwritten _ (by rw [flushTables, if_neg hempty]; exact List.mem_singleton_self _)
    obtain ⟨r, hopen, hreads⟩ := SSTableReader.openBytes_write_reads htable
    have hlisted : ∀ e ∈ f.decode.flushManifest.entries, (f.dir.writeTable
        (sstName f.manifest.nextSstId) (write f.config.blockSize
          f.activeMemtable.toTable.entries)).Intact e.fileName := by
      intro e he
      rcases Manifest.mem_entries_addSstable.mp he with hold | rfl
      · exact (h.listed e hold).writeTable _ htable
      · exact f.dir.intact_writeTable_self _ htable
    rw [LsmTree.flushMemtable_of_not_isEmpty (s := f.decode) hempty, FileTree.flushMemtable,
      if_neg hempty]
    refine ⟨_, bind_eq_ok_iff.mpr ⟨r, hopen, rfl⟩, ⟨hlisted, hlisted, ?_⟩, ?_⟩
    · intro p hp
      rcases List.mem_append.mp hp with hold | hnew
      · exact h.reads p hold
      · rw [List.mem_singleton.mp hnew]
        exact ⟨_, hreads⟩
    · refine LsmTree.ext rfl rfl rfl rfl ?_ rfl ?_
      · change decodeCache (f.sstableCache ++ [(f.decode.flushEntry, r)]) = _
        rw [decodeCache, List.filterMap_append,
          List.filterMap_cons_some (by rw [hreads.table?]; rfl)]
        rfl
      · exact congrArg (fun d : Directory => { d with manifest := some f.decode.flushManifest })
          (f.dir.decode_writeTable (sstName f.manifest.nextSstId) htable)

/-- The changes of a compaction are those of the tables. -/
lemma compactOps_eq (h : f.Intact) (level : ℕ) :
    LeveledCompaction.compactOps f.dir.readTable f.manifest level =
      (LeveledCompaction.compactOps f.dir.decode.readTable f.manifest level).mapError Abort.error :=
  LeveledCompaction.compactOps_mapError (fun e he => (h.listed e he).readTable) level

/-- A compaction whose table fits into a file. -/
lemma maybeCompact (h : f.Intact)
    (hwritten : ∀ t ∈ f.compactTables, Writable f.config.blockSize t.entries) :
    Agree Represents f.maybeCompact (f.decode.maybeCompact.mapError Abort.error) := by
  rw [FileTree.maybeCompact, LsmTree.maybeCompact]
  rw [compactTables, compactionOps, CompactionConfig.fileOps] at hwritten
  cases hneeds : f.config.compaction.needsCompaction f.manifest with
  | none =>
    have hneeds' : f.decode.config.compaction.needsCompaction f.decode.manifest = none := hneeds
    rw [hneeds']
    exact ⟨h, rfl⟩
  | some level =>
    have hneeds' : f.decode.config.compaction.needsCompaction f.decode.manifest = some level :=
      hneeds
    have hcompact : LeveledCompaction.compact f.decode.manifest f.decode.dir level =
      LeveledCompaction.compact f.manifest f.dir.decode level := rfl
    simp only [hneeds, hneeds', hcompact, h.compactOps_eq level] at hwritten ⊢
    rw [LeveledCompaction.compact]
    cases hops : LeveledCompaction.compactOps f.dir.decode.readTable f.manifest level with
    | error e => exact rfl
    | ok r =>
      obtain ⟨m', ops, result⟩ := r
      simp only [hops, Except.mapError, List.filterMap_append, List.mem_append] at hwritten
      have htables : ∀ t ∈ ops.filterMap FileOp.table?, Writable f.config.blockSize t.entries :=
        fun t ht => hwritten t (.inl ht)
      have hlisted : ∀ e ∈ m'.entries,
          (ops.foldl (FileOp.applyFile f.config.blockSize) f.dir).Intact e.fileName := by
        intro e he
        refine FileOp.intact_foldl_applyFile htables ?_
        exact (LeveledCompaction.mem_entries_of_compactOps hops he).imp_left (h.listed e)
      obtain ⟨cache, hload, hreads, hcache⟩ := Files.loadReaders_of_intact
        { ops.foldl (FileOp.applyFile f.config.blockSize) f.dir with manifest := some m' } hlisted
      have hdir : Files.decode { ops.foldl (FileOp.applyFile f.config.blockSize) f.dir with
          manifest := some m' } =
            { ops.foldl FileOp.apply f.dir.decode with manifest := some m' } :=
        congrArg (fun d : Directory => { d with manifest := some m' })
          (FileOp.decode_foldl_applyFile f.dir htables)
      simp only [Except.mapError, bind, Except.bind, hload]
      refine ⟨⟨hlisted, hlisted, hreads⟩, LsmTree.ext rfl rfl rfl rfl ?_ rfl hdir⟩
      rw [← hdir]
      exact hcache

lemma afterWrite (h : f.Intact)
    (hwritten : ∀ t ∈ f.writeTables, Writable f.config.blockSize t.entries) :
    Agree Represents f.afterWrite (f.decode.afterWrite.mapError Abort.error) := by
  rw [writeTables] at hwritten
  rw [FileTree.afterWrite, LsmTree.afterWrite]
  change Agree _ _ (Except.mapError _ (if f.activeMemtable.isFull then _ else _))
  split at hwritten
  · next hfull =>
    obtain ⟨f₁, hflush, hf₁⟩ :=
      h.flushMemtable fun t ht => hwritten t (List.mem_append_left _ ht)
    rw [if_pos hfull, if_pos hfull, hflush, ← hf₁.decode]
    rw [hflush] at hwritten
    refine hf₁.intact.maybeCompact fun t ht => ?_
    rw [config_flushMemtable hflush]
    exact hwritten t (List.mem_append_right _ ht)
  · next hfull =>
    rw [if_neg hfull, if_neg hfull]
    exact ⟨h, rfl⟩

end Intact

section

variable [Crc32]

/-- Opening a directory whose listed files are intact. -/
lemma openDir_represents {dir : Files}
    (h : ∀ e ∈ dir.saved.entries, dir.Intact e.fileName)
    (walFile : Option Bytes) (config : FileConfig) :
    Agree Represents (openDir dir walFile config)
      (LsmTree.openDir dir.decode walFile config.toLsmConfig) := by
  obtain ⟨cache, hload, hreads, hcache⟩ := Files.loadReaders_of_intact _ h
  rw [openDir, LsmTree.openDir]
  refine (Agree.of_eq (R := Eq) (fun _ => rfl) rfl).bind fun records _ _ _ hrecords => ?_
  refine (Agree.of_eq (R := Eq) (fun _ => rfl) (by rw [hrecords])).bind fun ops _ _ _ hops => ?_
  subst hops
  rw [hload]
  exact ⟨⟨h, h, hreads⟩, LsmTree.ext rfl rfl rfl rfl hcache rfl rfl⟩

/-- The tables that the step writes fit into their files. -/
def Bounded (f : FileTree) (op : Op) : Prop :=
  ∀ t ∈ f.written op, Writable f.config.blockSize t.entries
  deriving Decidable

/-- The tree over files takes every step of the tree over tables whose tables fit. -/
theorem Intact.execute {f : FileTree} (h : f.Intact) {op : Op} (hop : f.Bounded op) :
    Agree Represents (f.execute op) (f.decode.execute op.toLsm) := by
  have hlogged : ∀ w, (f.logged w).Intact := fun w => ⟨h.listed, h.saved, h.reads⟩
  cases op with
  | put key value => exact (hlogged (.put key value)).afterWrite hop
  | delete key => exact (hlogged (.delete key)).afterWrite hop
  | flush =>
    obtain ⟨f', hf', hrep⟩ := h.flushMemtable hop
    rw [FileTree.execute, hf']
    exact hrep
  | maybeCompact => exact h.maybeCompact hop
  | reopen config => exact openDir_represents h.saved _ config

end

lemma maybeCompact_of_none {f : FileTree}
    (h : f.config.compaction.needsCompaction f.manifest = none) : f.maybeCompact = .ok f := by
  rw [maybeCompact, h]

lemma execute_put_of_not_isFull [Crc32] {f : FileTree} {key value : Bytes}
    (h : (f.activeMemtable.put key value).isFull = false) :
    f.execute (.put key value) = .ok (f.logged (.put key value)) := by
  rw [execute, put, afterWrite]
  simp only [h]
  rfl

end FileTree

end Raftrust.Storage

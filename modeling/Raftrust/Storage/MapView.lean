import Raftrust.Storage.CompactionContent
import Raftrust.Storage.Scan

/-!
# The map behind an LSM tree

While no compaction runs, the tree is a map: single reads return what was written last. A flush
moves the memtable in front of all files, and reopening rebuilds it from the log.
-/

namespace Raftrust.Storage

open Lib

/-! ### Logged operations -/

@[simp] lemma MemTable.get_new (maxSize : ℕ) (key : Bytes) : (new maxSize).get key = none := by
  simp [get, new]

lemma MemTable.mem_iter_iff {m : MemTable} {e : BlockEntry} :
    e ∈ m.iter ↔ m.data[e.key]? = some e.value := by
  rw [iter, List.mem_map, ← Std.TreeMap.mem_toList_iff_getElem?_eq_some]
  constructor
  · rintro ⟨p, hp, rfl⟩
    exact hp
  · intro h
    exact ⟨(e.key, e.value), h, rfl⟩

namespace WalOp

def key : WalOp → Bytes
  | put key _ => key
  | delete key => key

/-- The value that is written, none for a deletion. -/
def value : WalOp → Option Bytes
  | put _ value => some value
  | delete _ => none

/-- The map after the operation. -/
def write (c : Bytes → Option Bytes) (op : WalOp) : Bytes → Option Bytes :=
  Function.update c op.key op.value

@[simp] lemma apply_data (m : MemTable) (op : WalOp) :
    (op.apply m).data = m.data.insert op.key op.value := by
  cases op <;> rfl

lemma get_apply (m : MemTable) (op : WalOp) (key : Bytes) :
    (op.apply m).get key = if op.key = key then some op.value else m.get key := by
  rw [MemTable.get, apply_data, Std.TreeMap.getElem?_insert]
  simp [MemTable.get]

lemma foldl_apply_data (ops : List WalOp) (m : MemTable) :
    (ops.foldl apply m).data = ops.foldl (fun data op => data.insert op.key op.value) m.data := by
  induction ops generalizing m with
  | nil => rfl
  | cons op ops ih => rw [List.foldl_cons, ih, apply_data, List.foldl_cons]

/-- What operations have inserted comes from one of them. -/
lemma getElem?_foldl_insert {ops : List WalOp} {data : Std.TreeMap Bytes (Option Bytes)}
    {key : Bytes} {value : Option Bytes}
    (h : (ops.foldl (fun data op => data.insert op.key op.value) data)[key]? = some value) :
    data[key]? = some value ∨ ∃ op ∈ ops, op.key = key ∧ op.value = value := by
  induction ops generalizing data with
  | nil => exact .inl h
  | cons op ops ih =>
    rcases ih h with hin | ⟨op', hop', heq⟩
    · rw [Std.TreeMap.getElem?_insert] at hin
      split at hin
      · next heq =>
        exact .inr ⟨op, List.mem_cons_self, Std.LawfulEqOrd.compare_eq_iff_eq.mp heq,
          Option.some.inj hin⟩
      · exact .inl hin
    · exact .inr ⟨op', List.mem_cons_of_mem _ hop', heq⟩

/-- The entries of a memtable come from the operations applied to it. -/
lemma mem_iter_foldl_apply {ops : List WalOp} {m : MemTable} {e : BlockEntry}
    (h : e ∈ (ops.foldl apply m).iter) : e ∈ m.iter ∨ ∃ op ∈ ops, e = ⟨op.key, op.value⟩ := by
  rw [MemTable.mem_iter_iff, foldl_apply_data] at h
  rcases getElem?_foldl_insert h with hm | ⟨op, hop, hkey, hvalue⟩
  · exact .inl (MemTable.mem_iter_iff.mpr hm)
  · exact .inr ⟨op, hop, by rw [hkey, hvalue]⟩

/-- Key and value of a decoded operation are parts of its record. -/
lemma length_le_of_decode {data : Bytes} {op : WalOp} (h : decode data = .ok op) :
    op.key.length ≤ data.length ∧ ∀ v ∈ op.value, v.length ≤ data.length := by
  cases data with
  | nil => cases h
  | cons tag rest =>
    simp only [decode] at h
    split_ifs at h
    · obtain rfl := Except.ok.inj h
      constructor
      · simp only [key, List.length_take, List.length_drop, List.length_cons]
        omega
      · rintro v ⟨rfl⟩
        simp only [List.length_take, List.length_drop, List.length_cons]
        omega
    · obtain rfl := Except.ok.inj h
      constructor
      · simp only [key, List.length_take, List.length_drop, List.length_cons]
        omega
      · rintro v ⟨⟩

/-- The lengths of key and value fit their fields. -/
structure Sized (op : WalOp) : Prop where
  key : op.key.length < 2 ^ 32
  value : ∀ v ∈ op.value, v.length < 2 ^ 32

/-- An operation whose record is not too long. -/
lemma sized_of_length_le {op : WalOp} (h : op.encode.length ≤ maxRecordLen) : op.Sized := by
  have hmax : maxRecordLen < 2 ^ 32 := by decide
  cases op with
  | put key value =>
    simp only [encode, List.length_append, List.length_cons, toLe_length] at h
    refine ⟨show key.length < 2 ^ 32 by omega, ?_⟩
    rintro v ⟨rfl⟩
    omega
  | delete key =>
    simp only [encode, List.length_append, List.length_cons, toLe_length] at h
    exact ⟨show key.length < 2 ^ 32 by omega, by rintro v ⟨⟩⟩

lemma decode_encode {op : WalOp} (h : op.Sized) : decode op.encode = .ok op := by
  cases op with
  | put key value =>
    have hkey : fromLe (toLe 4 key.length) = key.length := fromLe_toLe h.key
    have hvalue : fromLe (toLe 4 value.length) = value.length := fromLe_toLe (h.value value rfl)
    simp [encode, decode, hkey, hvalue, Nat.add_assoc]
  | delete key =>
    have hkey : fromLe (toLe 4 key.length) = key.length := fromLe_toLe h.key
    simp [encode, decode, hkey]

end WalOp

/-! ### Reading after a flush -/

lemma Manifest.read_congr {m : Manifest} {dir dir' : Directory}
    (h : ∀ e ∈ m.entries, dir'.tables e.fileName = dir.tables e.fileName) (key : Bytes) :
    m.read dir' key = m.read dir key := by
  have hversions : ∀ i, m.versions dir' key i = m.versions dir key i := fun i =>
    List.filterMap_congr fun e he => by
      rw [Directory.lookup, h e (mem_entries.mpr ⟨i, he⟩), Directory.lookup]
  simp only [read, hversions]

section

variable {m : Manifest} {dir : Directory} (h : m.Sound dir) (hlevel : 0 < m.numLevels)
  {e : SSTableEntry} (he : e.level = 0) (hname : e.fileName = sstName m.nextSstId) (t : SSTable)
  (n : ℕ) (key : Bytes)

include h hlevel he hname

/-- A new file adds its version to level 0. -/
lemma Manifest.Sound.versions_flushed (i : ℕ) :
    ((Manifest.mk m.levels n).addSstable e).versions (dir.writeTable (sstName m.nextSstId) t) key
        i =
      if i = 0 then m.versions dir key i ++ (t.get key).toList else m.versions dir key i := by
  have hlevel' : e.level < (Manifest.mk m.levels n).numLevels := he ▸ hlevel
  have hold : (m.level i).filterMap ((dir.writeTable (sstName m.nextSstId) t).lookup key) =
      m.versions dir key i := List.filterMap_congr fun x hx => by
    rw [Directory.lookup, h.tables_writeTable (mem_entries.mpr ⟨i, hx⟩), Directory.lookup]
  have hnew : (dir.writeTable (sstName m.nextSstId) t).lookup key e = t.get key := by
    simp [Directory.lookup, hname, Directory.writeTable]
  rw [versions, addSstable_level hlevel', he]
  split
  · rw [List.filterMap_append, List.filterMap_cons, hnew, List.filterMap_nil]
    refine congrArg₂ _ hold ?_
    cases t.get key <;> rfl
  · exact hold

/-- A new file of level 0 is read before all others. -/
lemma Manifest.Sound.read_flushed :
    ((Manifest.mk m.levels n).addSstable e).read (dir.writeTable (sstName m.nextSstId) t) key =
      (t.get key).or (m.read dir key) := by
  have hlevel' : e.level < (Manifest.mk m.levels n).numLevels := he ▸ hlevel
  have hversions := h.versions_flushed hlevel he hname t n key
  have hrange : List.range m.numLevels =
      0 :: (List.range (m.numLevels - 1)).map Nat.succ := by
    rw [← List.range_succ_eq_map, Nat.sub_add_cancel hlevel]
  have hnum : ((Manifest.mk m.levels n).addSstable e).numLevels = m.numLevels :=
    addSstable_numLevels hlevel'
  rw [read, read, hnum, hrange, List.findSome?_cons, List.findSome?_cons, hversions 0,
    if_pos rfl, List.findSome?_map, List.findSome?_map]
  have hdeeper : ∀ i : ℕ, (((Manifest.mk m.levels n).addSstable e).versions
      (dir.writeTable (sstName m.nextSstId) t) key i.succ).getLast? =
        (m.versions dir key i.succ).getLast? := fun i => by
    rw [hversions, if_neg (Nat.succ_ne_zero i)]
  simp only [Function.comp_def, hdeeper]
  cases t.get key with
  | none => simp
  | some v => simp

end

/-! ### Steps that flush -/

namespace TreeOp

variable {C : Type}

/-- The operation that a step logs. -/
def record? : TreeOp C → Option WalOp
  | .put key value => some (.put key value)
  | .delete key => some (.delete key)
  | _ => none

/-- The configuration that a step puts in force. -/
def config? : TreeOp C → Option C
  | .reopen config => some config
  | _ => none

/-- The memtable that a step flushes when `m` is the active one. -/
def flushed (m : MemTable) : TreeOp C → Option MemTable
  | .put key value => if (m.put key value).isFull then some (m.put key value) else none
  | .delete key => if (m.delete key).isFull then some (m.delete key) else none
  | .flush => if m.isEmpty then none else some m
  | _ => none

/-- The map after a step. -/
def write (c : Bytes → Option Bytes) (op : TreeOp C) : Bytes → Option Bytes :=
  op.record?.elim c (WalOp.write c)

variable {op : TreeOp C} {w : WalOp}

/-- A step that logs an operation flushes what the operation makes of a full memtable. -/
lemma flushed_of_record? (h : op.record? = some w) (m : MemTable) :
    op.flushed m = if (w.apply m).isFull then some (w.apply m) else none := by
  cases op <;> cases h <;> rfl

lemma length_flushed_of_record? (h : op.record? = some w) (m : MemTable) :
    (op.flushed m).toList.length = if (w.apply m).isFull then 1 else 0 := by
  rw [flushed_of_record? h]
  split <;> rfl

lemma config?_of_record? (h : op.record? = some w) : op.config? = none := by
  cases op <;> cases h <;> rfl

end TreeOp

namespace LsmTree

/-! ### Trees that are maps -/

/-- A read asks the memtable and then the levels. -/
lemma Loaded.get_eq {s : LsmTree} (h : s.Loaded) (himm : s.immutableMemtables = [])
    (key : Bytes) :
    s.get key = ((s.activeMemtable.get key).or (s.manifest.read s.dir key)).join := by
  rw [LsmTree.get, getMemtables, himm, h.getSstables_eq]
  simp

/-- What a write does before a full memtable is flushed. -/
def logged [Crc32] (s : LsmTree) (op : WalOp) : LsmTree :=
  { s with
    wal := (s.wal.append op.encode).sync
    activeMemtable := op.apply s.activeMemtable }

lemma execute_of_record? [Crc32] {op : TreeOp LsmConfig} {w : WalOp} (h : op.record? = some w)
    (s : LsmTree) :
    s.execute op = (s.logged w).afterWrite.mapError Abort.error := by
  cases op <;> cases h <;> rfl

lemma logged_isEmpty [Crc32] (s : LsmTree) (w : WalOp) :
    (s.logged w).activeMemtable.isEmpty = false := by
  simp [logged, MemTable.isEmpty]

/-- Opening replays a log of records that are not too long. -/
lemma openDir_encodeAll [Crc32] (dir : Directory) {log : List WalOp}
    (hshort : ∀ op ∈ log, op.encode.length ≤ maxRecordLen) (config : LsmConfig) :
    openDir dir (some (encodeAll (log.map fun op => ⟨op.encode⟩))) config = .ok {
      activeMemtable := log.foldl WalOp.apply (MemTable.new config.memtableSizeLimit)
      immutableMemtables := []
      manifest := dir.saved
      wal := WalWriter.openFile (encodeAll (log.map fun op => ⟨op.encode⟩))
      sstableCache := loadCache dir.saved dir
      config := config
      dir := dir } := by
  have hread : WalReader.readAll (encodeAll (log.map fun op => ⟨op.encode⟩)) =
      .ok (log.map fun op => ⟨op.encode⟩) := by
    apply WalReader.readAll_encodeAll
    intro r hr
    obtain ⟨op, hop, rfl⟩ := List.mem_map.mp hr
    exact hshort op hop
  have hdecode : (log.map fun op => (⟨op.encode⟩ : WalRecord)).mapM
      (fun record => WalOp.decode record.data) = .ok log :=
    mapM_map_eq_ok fun op hop => WalOp.decode_encode (WalOp.sized_of_length_le (hshort op hop))
  rw [openDir, Option.getD_some, hread]
  simp only [Except.mapError, bind, Except.bind, hdecode]
  rfl

/-- The manifest entry of the file that a flush writes. -/
def flushEntry (s : LsmTree) : SSTableEntry where
  id := s.manifest.nextSstId
  level := 0
  fileName := sstName s.manifest.nextSstId
  minKey := (s.activeMemtable.iter.head?.map (·.key)).getD []
  maxKey := (s.activeMemtable.iter.getLast?.map (·.key)).getD []

/-- The manifest after a flush. -/
def flushManifest (s : LsmTree) : Manifest :=
  (Manifest.mk s.manifest.levels (s.manifest.nextSstId + 1)).addSstable s.flushEntry

lemma flushMemtable_of_isEmpty {s : LsmTree} (h : s.activeMemtable.isEmpty) :
    s.flushMemtable = s :=
  if_pos h

lemma flushMemtable_of_not_isEmpty {s : LsmTree} (h : ¬s.activeMemtable.isEmpty) :
    s.flushMemtable = { s with
      activeMemtable := MemTable.new s.config.memtableSizeLimit
      manifest := s.flushManifest
      wal := WalWriter.openFile []
      sstableCache := s.sstableCache ++ [(s.flushEntry, s.activeMemtable.toTable)]
      dir := { s.dir.writeTable (sstName s.manifest.nextSstId) s.activeMemtable.toTable with
        manifest := some s.flushManifest } } :=
  if_neg h

@[simp] lemma flushMemtable_config (s : LsmTree) : s.flushMemtable.config = s.config := by
  by_cases hempty : s.activeMemtable.isEmpty
  · rw [flushMemtable_of_isEmpty hempty]
  · rw [flushMemtable_of_not_isEmpty hempty]

lemma levelCount_flushMemtable_of_not_isEmpty {s : LsmTree} (hlevel : 0 < s.manifest.numLevels)
    (h : ¬s.activeMemtable.isEmpty) :
    s.flushMemtable.manifest.levelCount 0 = s.manifest.levelCount 0 + 1 := by
  rw [flushMemtable_of_not_isEmpty h, Manifest.levelCount]
  have hlevel0 : s.flushManifest.level 0 = s.manifest.level 0 ++ [s.flushEntry] :=
    (Manifest.addSstable_level hlevel 0).trans (if_pos rfl)
  rw [hlevel0, List.length_append]
  rfl

/-- The tree holds the map `c`, and `log` is what was written since the last flush. -/
structure Tracks [Crc32] (s : LsmTree) (log : List WalOp) (c : Bytes → Option Bytes) : Prop where
  consistent : s.Consistent
  immutable : s.immutableMemtables = []
  flat : ∀ i, 0 < i → s.manifest.level i = []
  buffer : s.wal.buffer = []
  file : s.wal.file = encodeAll (log.map fun op => ⟨op.encode⟩)
  short : ∀ op ∈ log, op.encode.length ≤ maxRecordLen
  replayed : s.activeMemtable.data = log.foldl (fun data op => data.insert op.key op.value) ∅
  reads : ∀ key, s.get key = c key

namespace Tracks

variable [Crc32] {s : LsmTree} {log : List WalOp} {c : Bytes → Option Bytes}

/-- No level has more files than its target. -/
lemma needsCompaction_eq_none (h : s.Tracks log c) {config : CompactionConfig}
    (hlt : s.manifest.levelCount 0 < config.l0CompactionTrigger) :
    config.needsCompaction s.manifest = none := by
  rw [CompactionConfig.needsCompaction, if_neg (not_le.mpr hlt), List.find?_eq_none]
  intro i hi
  rw [Manifest.levelCount, h.flat i (List.mem_range'_1.mp hi).1]
  simp

lemma logged (h : s.Tracks log c) {op : WalOp} (hop : op.encode.length ≤ maxRecordLen) :
    (s.logged op).Tracks (log ++ [op]) (op.write c) := by
  have hconsistent : (s.logged op).Consistent := h.consistent.of_manifest_eq rfl rfl rfl
  constructor
  · exact hconsistent
  · exact h.immutable
  · exact h.flat
  · rfl
  · simp [LsmTree.logged, h.file, h.buffer]
  · intro op' hop'
    rcases List.mem_append.mp hop' with hop' | hop'
    · exact h.short op' hop'
    · rwa [List.mem_singleton.mp hop']
  · rw [List.foldl_append, ← h.replayed]
    exact WalOp.apply_data _ _
  · intro key
    have hread : (s.logged op).get key = (((op.apply s.activeMemtable).get key).or
        (s.manifest.read s.dir key)).join := hconsistent.loaded.get_eq h.immutable key
    rw [hread, WalOp.get_apply, WalOp.write, Function.update_apply]
    by_cases hkey : op.key = key
    · simp [hkey]
    · rw [if_neg hkey, if_neg (Ne.symm hkey), ← h.consistent.loaded.get_eq h.immutable, h.reads]

/-- A flush keeps the map and empties the log. -/
lemma flushMemtable (h : s.Tracks log c) : ∃ log', s.flushMemtable.Tracks log' c := by
  have hlevel : 0 < s.manifest.numLevels := by
    rw [h.consistent.numLevels_eq]
    decide
  have hconsistent := h.consistent.flushMemtable
  by_cases hempty : s.activeMemtable.isEmpty
  · rw [flushMemtable_of_isEmpty hempty]
    exact ⟨log, h⟩
  · rw [flushMemtable_of_not_isEmpty hempty] at hconsistent ⊢
    refine ⟨[], hconsistent, h.immutable, fun i hi => ?_, rfl, rfl, by simp, rfl, fun key => ?_⟩
    · rw [← h.flat i hi]
      exact (Manifest.addSstable_level hlevel i).trans (if_neg hi.ne')
    · have hread : s.flushManifest.read
          (s.dir.writeTable (sstName s.manifest.nextSstId) s.activeMemtable.toTable) key =
            (s.activeMemtable.get key).or (s.manifest.read s.dir key) := by
        rw [flushManifest, h.consistent.valid.sound.read_flushed hlevel rfl rfl,
          MemTable.get_toTable]
      rw [hconsistent.loaded.get_eq h.immutable, ← h.reads,
        h.consistent.loaded.get_eq h.immutable, ← hread]
      simp only [MemTable.get_new, Option.none_or]
      rfl

lemma levelCount_flushMemtable (h : s.Tracks log c) :
    s.flushMemtable.manifest.levelCount 0 =
      s.manifest.levelCount 0 + if s.activeMemtable.isEmpty then 0 else 1 := by
  have hlevel : 0 < s.manifest.numLevels := by
    rw [h.consistent.numLevels_eq]
    decide
  by_cases hempty : s.activeMemtable.isEmpty
  · rw [flushMemtable_of_isEmpty hempty, if_pos hempty]
    rfl
  · rw [levelCount_flushMemtable_of_not_isEmpty hlevel hempty, if_neg hempty]

lemma maybeCompact (h : s.Tracks log c)
    (hlt : s.manifest.levelCount 0 < s.config.l0CompactionTrigger) : s.maybeCompact = .ok s := by
  have hnone : s.config.compaction.needsCompaction s.manifest = none :=
    h.needsCompaction_eq_none hlt
  rw [LsmTree.maybeCompact, hnone]

lemma reopen (h : s.Tracks log c) (config : LsmConfig) :
    ∃ s', openDir s.dir (some s.wal.file) config = .ok s' ∧ s'.Tracks log c ∧
      s'.config = config ∧ s'.manifest = s.manifest := by
  have hopen := openDir_encodeAll s.dir h.short config
  rw [← h.file] at hopen
  have hconsistent := Consistent.openDir (h.consistent.saved ▸ h.consistent.numLevels_eq)
    (h.consistent.saved ▸ h.consistent.valid) hopen
  rw [h.consistent.saved] at hopen hconsistent
  have hdata : (log.foldl WalOp.apply (MemTable.new config.memtableSizeLimit)).data =
      s.activeMemtable.data := by
    rw [WalOp.foldl_apply_data, h.replayed]
    rfl
  refine ⟨_, hopen, ?_, rfl, rfl⟩
  refine ⟨hconsistent, rfl, h.flat, rfl, h.file, h.short, hdata.trans h.replayed, fun key => ?_⟩
  rw [hconsistent.loaded.get_eq rfl, ← h.reads, h.consistent.loaded.get_eq h.immutable,
    MemTable.get, MemTable.get, hdata]

/-- After a write the map is as it was, and a full memtable has become a file. -/
lemma afterWrite (h : s.Tracks log c) (hne : ¬s.activeMemtable.isEmpty)
    (hlt : s.manifest.levelCount 0 + (if s.activeMemtable.isFull then 1 else 0) <
      s.config.l0CompactionTrigger) :
    ∃ s' log', s.afterWrite = .ok s' ∧ s'.Tracks log' c ∧ s'.config = s.config ∧
      s'.manifest.levelCount 0 =
        s.manifest.levelCount 0 + if s.activeMemtable.isFull then 1 else 0 := by
  rw [LsmTree.afterWrite]
  by_cases hfull : s.activeMemtable.isFull
  · rw [if_pos hfull] at hlt ⊢
    rw [if_pos hfull]
    obtain ⟨log', hlog'⟩ := h.flushMemtable
    have hcount := h.levelCount_flushMemtable
    rw [if_neg hne] at hcount
    refine ⟨s.flushMemtable, log', ?_, hlog', s.flushMemtable_config, hcount⟩
    apply hlog'.maybeCompact
    rw [hcount, s.flushMemtable_config]
    exact hlt
  · rw [if_neg hfull, if_neg hfull]
    exact ⟨s, log, rfl, h, rfl, rfl⟩

/-- Every step succeeds and writes to the map what it logs. -/
theorem execute (h : s.Tracks log c) {op : TreeOp LsmConfig}
    (hrecord : ∀ w ∈ op.record?, w.encode.length ≤ maxRecordLen)
    (hlt : s.manifest.levelCount 0 + (op.flushed s.activeMemtable).toList.length <
      s.config.l0CompactionTrigger) :
    ∃ s' log', s.execute op = .ok s' ∧ s'.Tracks log' (op.write c) ∧
      s'.config = op.config?.getD s.config ∧
      s'.manifest.levelCount 0 =
        s.manifest.levelCount 0 + (op.flushed s.activeMemtable).toList.length := by
  cases hop : op.record? with
  | some w =>
    rw [TreeOp.length_flushed_of_record? hop] at hlt ⊢
    obtain ⟨s', log', hs', htracks, hconfig, hcount⟩ :=
      (h.logged (hrecord w hop)).afterWrite (by simp [logged_isEmpty]) hlt
    refine ⟨s', log', ?_, ?_, ?_, hcount⟩
    · rw [execute_of_record? hop]
      exact mapError_eq_ok_iff.mpr hs'
    · rw [TreeOp.write, hop]
      exact htracks
    · rw [TreeOp.config?_of_record? hop]
      exact hconfig
  | none =>
    cases op with
    | put key value => cases hop
    | delete key => cases hop
    | flush =>
      obtain ⟨log', hlog'⟩ := h.flushMemtable
      refine ⟨s.flushMemtable, log', rfl, hlog', s.flushMemtable_config, ?_⟩
      rw [h.levelCount_flushMemtable, TreeOp.flushed]
      split <;> rfl
    | maybeCompact =>
      exact ⟨s, log, mapError_eq_ok_iff.mpr (h.maybeCompact hlt), h, rfl, rfl⟩
    | reopen config =>
      obtain ⟨s', hs', htracks, hconfig, hmanifest⟩ := h.reopen config
      exact ⟨s', log, hs', htracks, hconfig, by rw [hmanifest]; rfl⟩

/-- The entries of the memtable come from the log. -/
lemma mem_iter (h : s.Tracks log c) {e : BlockEntry} (he : e ∈ s.activeMemtable.iter) :
    ∃ op ∈ log, e = ⟨op.key, op.value⟩ := by
  have hiter : s.activeMemtable.iter = (log.foldl WalOp.apply (MemTable.new 0)).iter := by
    rw [MemTable.iter, MemTable.iter, WalOp.foldl_apply_data, h.replayed]
    rfl
  rw [hiter] at he
  exact (WalOp.mem_iter_foldl_apply he).resolve_left (by simp [MemTable.iter, MemTable.new])

end Tracks

end LsmTree

end Raftrust.Storage

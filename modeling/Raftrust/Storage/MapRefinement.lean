import Raftrust.Storage.Engine
import Raftrust.Storage.FileSimulation

/-!
# The LSM tree over files refines a map

As long as no compaction runs, reads return what was written last: through the log, the memtable
and the encoded files with their filters and indexes, over flushes and reopenings. The exception
are files whose blocks, or whose entries in one block, are too many for their 32-bit counts.
-/

namespace Raftrust.Storage

open Lib SSTableWriter

namespace FileTree

/-- The map after the operations `ops`. -/
def contents (ops : List Op) : Bytes → Option Bytes :=
  ops.foldl (fun c op => op.toLsm.write c) fun _ => none

/-- The memtable that a step flushes. -/
def flushed (s : FileTree) (op : Op) : Option MemTable :=
  op.toLsm.flushed s.activeMemtable

/-- The configurations in force during a run. -/
def configs (config : FileConfig) (ops : List Op) : List LsmConfig :=
  config.toLsmConfig :: ops.filterMap fun op => op.toLsm.config?

/-- What the step does to an engine. -/
def perform {σ : Type} [StorageEngine σ] (s : σ) : Op → σ
  | .put key value => StorageEngine.put s key value
  | .delete key => StorageEngine.delete s key
  | _ => s

lemma get_foldl_perform {σ : Type} [StorageEngine σ] (ops : List Op) (key : Bytes) :
    StorageEngine.get (ops.foldl perform (StorageEngine.empty : σ)) key = contents ops key := by
  induction ops using List.reverseRecOn with
  | nil => exact StorageEngine.get_empty key
  | append_singleton ops op ih =>
    rw [List.foldl_append, contents, List.foldl_append]
    change StorageEngine.get (perform _ op) key = op.toLsm.write (contents ops) key
    cases op with
    | put k value =>
      rw [perform, StorageEngine.get_put, ih]
      exact (Function.update_apply ..).trans (if_congr eq_comm rfl rfl) |>.symm
    | delete k =>
      rw [perform, StorageEngine.get_delete, ih]
      exact (Function.update_apply ..).trans (if_congr eq_comm rfl rfl) |>.symm
    | flush | maybeCompact | reopen config => exact ih

variable [BloomHash]

/-- The record of the step may be read back, and the counts of the file that it flushes fit. -/
@[mk_iff]
structure Allowed (s : FileTree) (op : Op) : Prop where
  record : ∀ w ∈ op.toLsm.record?, w.encode.length ≤ maxRecordLen
  fits : ∀ m ∈ s.flushed op, Fits s.config.blockSize m.iter

instance (s : FileTree) (op : Op) : Decidable (s.Allowed op) :=
  decidable_of_iff _ (allowed_iff s op).symm

variable [Crc32]

/-- The number of flushes in a run. -/
def flushes (s : FileTree) : List Op → ℕ
  | [] => 0
  | op :: ops => (s.flushed op).toList.length +
      match s.execute op with
      | .ok s' => s'.flushes ops
      | .error _ => 0

lemma flushes_append {s s' : FileTree} {ops : List Op} (h : ops.foldlM execute s = .ok s')
    (ops' : List Op) : s.flushes (ops ++ ops') = s.flushes ops + s'.flushes ops' := by
  induction ops generalizing s with
  | nil =>
    obtain rfl := Except.ok.inj h
    exact (Nat.zero_add _).symm
  | cons op ops ih =>
    obtain ⟨s₁, hfirst, hrest⟩ := bind_eq_ok_iff.mp ((List.foldlM_cons ..).symm.trans h)
    rw [List.cons_append, flushes, flushes, hfirst, Nat.add_assoc]
    exact congrArg _ (ih hrest)

lemma flushes_le_append (s : FileTree) (ops ops' : List Op) :
    s.flushes ops ≤ s.flushes (ops ++ ops') := by
  induction ops generalizing s with
  | nil => exact Nat.zero_le _
  | cons op ops ih =>
    rw [List.cons_append, flushes, flushes]
    cases s.execute op with
    | error e => exact le_rfl
    | ok s' => exact Nat.add_le_add_left (ih s') _

end FileTree

/-! ### Steps -/

namespace LsmTree.Tracks

variable [Crc32] {s : LsmTree} {log : List WalOp} {c : Bytes → Option Bytes}

lemma short_of_mem_iter (h : s.Tracks log c) {e : BlockEntry} (he : e ∈ s.activeMemtable.iter) :
    e.Short := by
  obtain ⟨op, hop, rfl⟩ := h.mem_iter he
  have hlen := h.short op hop
  have hmax : maxRecordLen < tombstoneMarker := by decide
  have hmarker : tombstoneMarker < 2 ^ 32 := by decide
  cases op with
  | put key value =>
    simp only [WalOp.encode, List.length_append, List.length_cons, toLe_length] at hlen
    constructor
    · show key.length < 2 ^ 32
      omega
    · rintro v ⟨rfl⟩
      show value.length < tombstoneMarker
      omega
  | delete key =>
    simp only [WalOp.encode, List.length_append, List.length_cons, toLe_length] at hlen
    constructor
    · show key.length < 2 ^ 32
      omega
    · rintro v ⟨⟩

end LsmTree.Tracks

namespace FileTree

lemma compactTables_eq_nil {f : FileTree}
    (h : f.config.compaction.needsCompaction f.manifest = none) : f.compactTables = [] := by
  rw [compactTables, compactionOps, CompactionConfig.fileOps, h]
  rfl

section

variable [BloomHash] [Crc32] {f : FileTree} {log : List WalOp} {c : Bytes → Option Bytes}

lemma flushTables_writable (h : f.decode.Tracks log c) {blockSize : ℕ}
    (hfits : ¬f.activeMemtable.isEmpty → Fits blockSize f.activeMemtable.iter) :
    ∀ t ∈ f.flushTables, Writable blockSize t.entries := by
  intro t ht
  rw [flushTables] at ht
  split at ht
  · simp at ht
  · next hne =>
    rw [List.mem_singleton.mp ht]
    exact ⟨hfits hne, fun e he => h.short_of_mem_iter he⟩

lemma writeTables_writable (hf : f.Intact) (h : f.decode.Tracks log c)
    (hne : ¬f.activeMemtable.isEmpty)
    (hfits : f.activeMemtable.isFull → Fits f.config.blockSize f.activeMemtable.iter)
    (hlt : f.manifest.levelCount 0 + (if f.activeMemtable.isFull then 1 else 0) <
      f.config.l0CompactionTrigger) :
    ∀ t ∈ f.writeTables, Writable f.config.blockSize t.entries := by
  intro t ht
  rw [writeTables] at ht
  split at ht
  · next hfull =>
    have hwritable := flushTables_writable h fun _ => hfits hfull
    obtain ⟨f', hflush, hrep⟩ := hf.flushMemtable hwritable
    obtain ⟨log', hlog'⟩ := h.flushMemtable
    have hcount : f'.manifest.levelCount 0 = f.manifest.levelCount 0 + 1 := by
      have hflushed := h.levelCount_flushMemtable
      rwa [if_neg (show ¬f.decode.activeMemtable.isEmpty from hne), ← hrep.decode] at hflushed
    rw [← hrep.decode] at hlog'
    have hnil : f'.compactTables = [] := by
      refine compactTables_eq_nil (hlog'.needsCompaction_eq_none ?_)
      rw [if_pos hfull, ← hcount, ← config_flushMemtable hflush] at hlt
      exact hlt
    simp only [hflush, hnil, List.append_nil] at ht
    exact hwritable t ht
  · simp at ht

/-- The files that a step writes hold their tables. -/
lemma bounded_of_tracks (hf : f.Intact) (h : f.decode.Tracks log c) {op : Op}
    (hrecord : ∀ w ∈ op.toLsm.record?, w.encode.length ≤ maxRecordLen)
    (hfits : ∀ m ∈ op.toLsm.flushed f.activeMemtable, Fits f.config.blockSize m.iter)
    (hlt : f.manifest.levelCount 0 + (op.toLsm.flushed f.activeMemtable).toList.length <
      f.config.l0CompactionTrigger) : f.Bounded op := by
  have hwrite : ∀ w, op.toLsm.record? = some w →
      ∀ t ∈ (f.logged w).writeTables, Writable f.config.blockSize t.entries := by
    intro w hw
    rw [TreeOp.length_flushed_of_record? hw] at hlt
    rw [TreeOp.flushed_of_record? hw] at hfits
    exact writeTables_writable (f := f.logged w) ⟨hf.listed, hf.saved, hf.reads⟩
      (h.logged (hrecord w hw)) (by simp [logged, MemTable.isEmpty])
      (fun hfull => hfits _ (if_pos hfull)) hlt
  cases op with
  | put key value => exact hwrite _ rfl
  | delete key => exact hwrite _ rfl
  | flush => exact flushTables_writable h fun hne => hfits _ (if_neg hne)
  | maybeCompact =>
    intro t ht
    rw [written, compactTables_eq_nil (h.needsCompaction_eq_none hlt)] at ht
    simp at ht
  | reopen config =>
    intro t ht
    simp [written] at ht

end

end FileTree

/-! ### Runs -/

namespace FileTree

/-- A freshly opened tree. -/
def create (config : FileConfig) : FileTree where
  activeMemtable := MemTable.new config.memtableSizeLimit
  immutableMemtables := []
  manifest := Manifest.new numLevels
  wal := WalWriter.openFile []
  sstableCache := []
  config := config
  dir := ⟨none, fun _ => none⟩

lemma openDir_empty [Crc32] (config : FileConfig) :
    openDir ⟨none, fun _ => none⟩ none config = .ok (create config) := by
  rw [openDir, Option.getD_none, WalReader.readAll_nil]
  rfl

section

variable [BloomHash] [Crc32]

/-- The files are intact and their tables are the map `c`, with `n` flushed files. -/
structure Refines (f : FileTree) (n : ℕ) (c : Bytes → Option Bytes) : Prop where
  intact : f.Intact
  tracks : ∃ log, f.decode.Tracks log c
  count : f.manifest.levelCount 0 = n

omit [Crc32] in
lemma intact_create (config : FileConfig) : (create config).Intact := by
  have hnone : ∀ e, e ∉ (Manifest.new numLevels).entries := by
    intro e he
    obtain ⟨i, hi⟩ := Manifest.mem_entries.mp he
    simp at hi
  exact ⟨fun e he => absurd he (hnone e), fun e he => absurd he (hnone e), by simp [create]⟩

omit [BloomHash] [Crc32] in
lemma consistent_create (config : FileConfig) : (create config).decode.Consistent :=
  ⟨⟨Manifest.new_numLevels _, .new _, rfl, .refl _⟩, (Manifest.Valid.new _).present⟩

lemma refines_create (config : FileConfig) : (create config).Refines 0 fun _ => none := by
  have htracks : (create config).decode.Tracks [] fun _ => none := by
    refine ⟨consistent_create config, rfl, fun i _ => Manifest.new_level _ i, rfl, rfl, by simp,
      rfl, fun key => ?_⟩
    rw [(consistent_create config).loaded.get_eq rfl]
    have hread : (Manifest.new numLevels).read (create config).decode.dir key = none := by
      simp [Manifest.read, Manifest.versions]
    exact congrArg Option.join
      ((congrArg₂ Option.or (MemTable.get_new config.memtableSizeLimit key) hread))
  exact ⟨intact_create config, ⟨[], htracks⟩, by
    rw [create, Manifest.levelCount, Manifest.new_level]; rfl⟩

namespace Refines

variable {f : FileTree} {n : ℕ} {c : Bytes → Option Bytes}

lemma get (h : f.Refines n c) (key : Bytes) : f.get key = .ok (c key) := by
  obtain ⟨log, htracks⟩ := h.tracks
  rw [h.intact.get, htracks.reads]

lemma scan (h : f.Refines n c) {start stop : Bytes} (hle : start ≤ stop) :
    ∃ pairs, f.scan start stop = .ok pairs ∧ pairs.Pairwise (fun a b => a.1 < b.1) ∧
      ∀ key value, (key, value) ∈ pairs ↔ start ≤ key ∧ key < stop ∧ c key = some value := by
  obtain ⟨log, htracks⟩ := h.tracks
  obtain ⟨pairs, hscan, hsorted, hmem⟩ := LsmTree.scan_spec
    (fun p hp q hq => htracks.consistent.loaded.id_inj hp hq) hle
  refine ⟨pairs, (scan_eq_decode h.intact.reads start stop).trans hscan, hsorted,
    fun key value => ?_⟩
  rw [hmem, htracks.reads]

/-- Every allowed step succeeds and is a step of the map. -/
lemma execute (h : f.Refines n c) {op : Op} (hallowed : f.Allowed op)
    (hlt : n + (f.flushed op).toList.length < f.config.l0CompactionTrigger) :
    ∃ f', f.execute op = .ok f' ∧
      f'.Refines (n + (f.flushed op).toList.length) (op.toLsm.write c) ∧
      f'.config.toLsmConfig = op.toLsm.config?.getD f.config.toLsmConfig := by
  obtain ⟨hintact, ⟨log, htracks⟩, rfl⟩ := h
  obtain ⟨s', log', hs', htracks', hconfig, hcount⟩ := htracks.execute hallowed.record hlt
  rcases (hintact.execute (bounded_of_tracks hintact htracks hallowed.record hallowed.fits
    hlt)).cases with ⟨f', s'', hf', hs'', hrep⟩ | ⟨e, -, herr⟩
  · obtain rfl := Except.ok.inj (hs'.symm.trans hs'')
    obtain ⟨hintact', rfl⟩ := hrep
    exact ⟨f', hf', ⟨hintact', ⟨log', htracks'⟩, hcount⟩, hconfig⟩
  · cases hs'.symm.trans herr

/-- Every run of allowed steps with fewer flushes than the trigger succeeds. -/
lemma run (h : f.Refines n c) {ops : List Op} (hallowed : AlongOk FileTree.execute Allowed f ops)
    (htrigger : ∀ config ∈ configs f.config ops,
      n + f.flushes ops < config.l0CompactionTrigger) :
    ∃ f' n', ops.foldlM FileTree.execute f = .ok f' ∧
      f'.Refines n' (ops.foldl (fun c op => op.toLsm.write c) c) := by
  induction ops generalizing f n c with
  | nil => exact ⟨f, n, rfl, h⟩
  | cons op ops ih =>
    have hlt : n + (f.flushed op).toList.length < f.config.l0CompactionTrigger := by
      have hfirst := htrigger f.config.toLsmConfig List.mem_cons_self
      rw [flushes] at hfirst
      omega
    obtain ⟨f₁, hf₁, hrefines, hconfig⟩ := h.execute hallowed.1 hlt
    have hcount : f.flushes (op :: ops) =
        (f.flushed op).toList.length + f₁.flushes ops := by
      rw [flushes, hf₁]
    obtain ⟨f', n', hrun, hf'⟩ := ih hrefines (hallowed.2 f₁ hf₁) (by
      intro config hmem
      rw [Nat.add_assoc, ← hcount]
      apply htrigger
      rw [configs, List.mem_cons, hconfig] at hmem
      rw [configs, List.mem_cons, List.filterMap_cons]
      cases hop : op.toLsm.config? with
      | none =>
        rw [hop] at hmem
        exact hmem
      | some config' =>
        rw [hop] at hmem
        exact .inr (List.mem_cons.mpr hmem))
    refine ⟨f', n', ?_, hf'⟩
    rw [List.foldlM_cons, hf₁]
    exact hrun

end Refines

section

variable {config : FileConfig} {ops : List Op}
  (hallowed : AlongOk execute Allowed (create config) ops)
  (htrigger : ∀ c ∈ configs config ops, (create config).flushes ops < c.l0CompactionTrigger)
  {past : List Op} (hpast : past <+: ops)

include hallowed htrigger hpast

lemma exists_refines : ∃ s n, run config past = .ok s ∧ s.Refines n (contents past) := by
  obtain ⟨rest, rfl⟩ := hpast
  have hcount : (create config).flushes past ≤ (create config).flushes (past ++ rest) :=
    flushes_le_append _ _ _
  obtain ⟨s, n, hrun, hrefines⟩ := (refines_create config).run hallowed.of_append (by
    intro c hc
    rw [Nat.zero_add]
    refine hcount.trans_lt (htrigger c ?_)
    rw [configs, List.filterMap_append, List.mem_cons, List.mem_append]
    rw [configs, List.mem_cons] at hc
    exact hc.imp_right .inl)
  refine ⟨s, n, ?_, hrefines⟩
  rw [run, openDir_empty]
  exact hrun

/-- In every state of a run whose steps are all allowed, with fewer flushes than any trigger in
force, reads return what was written last, and scans the live pairs of their range. -/
theorem refines_map :
    ∃ s, run config past = .ok s ∧ (∀ key, s.get key = .ok (contents past key)) ∧
      ∀ start stop, start ≤ stop → ∃ pairs, s.scan start stop = .ok pairs ∧
        pairs.Pairwise (fun a b => a.1 < b.1) ∧ ∀ key value, (key, value) ∈ pairs ↔
          start ≤ key ∧ key < stop ∧ contents past key = some value := by
  obtain ⟨s, n, hrun, hrefines⟩ := exists_refines hallowed htrigger hpast
  exact ⟨s, hrun, hrefines.get, fun start stop hle => hrefines.scan hle⟩

/-- Such a tree keeps the contract of an engine: it reads like any engine after the same calls, and
scans like it but for inverted ranges. -/
theorem reads_like_engine {σ : Type} [StorageEngine σ] :
    let engine : σ := past.foldl perform StorageEngine.empty
    ∃ s, run config past = .ok s ∧ (∀ key, s.get key = .ok (StorageEngine.get engine key)) ∧
      ∀ start stop, start ≤ stop →
        s.scan start stop = .ok (StorageEngine.scan engine start stop) := by
  intro engine
  obtain ⟨s, n, hrun, hrefines⟩ := exists_refines hallowed htrigger hpast
  refine ⟨s, hrun, fun key => ?_, fun start stop hle => ?_⟩
  · rw [hrefines.get, get_foldl_perform]
  · obtain ⟨pairs, hscan, hsorted, hmem⟩ := hrefines.scan hle
    have : Scans σ start stop := .of_le hle
    have heq : pairs = StorageEngine.scan engine start stop := by
      refine Scans.eq_of_mem_iff hsorted (Scans.scan_sorted _) fun e => ?_
      rw [hmem, Scans.mem_scan, get_foldl_perform]
      exact and_rotate.symm
    rw [hscan, heq]

end

end

/-- Small memtables and blocks. -/
def smallConfig : FileConfig where
  memtableSizeLimit := 64
  l0CompactionTrigger := 4
  levelSizeRatio := 10
  blockSize := 32

/-- A flushed key is deleted, and the deletion outlives a reopening. -/
def deleteAndReopen : List Op :=
  [.put [1] [10], .put [2] [20], .flush, .delete [1], .reopen smallConfig, .put [3] [30]]

theorem refines_map_deleteAndReopen :
    letI := Crc32.ieee
    letI := BloomHash.sip
    ∃ s, run smallConfig deleteAndReopen = .ok s ∧ s.get [1] = .ok none ∧
      s.get [2] = .ok (some [20]) ∧ s.get [3] = .ok (some [30]) ∧
      ∃ pairs, s.scan [1] [3] = .ok pairs ∧ ([2], [20]) ∈ pairs := by
  obtain ⟨s, hrun, hget, hscan⟩ := @refines_map BloomHash.sip Crc32.ieee smallConfig
    deleteAndReopen (by decide +kernel) (by decide +kernel) _ (List.prefix_refl _)
  obtain ⟨pairs, hpairs, -, hmem⟩ := hscan [1] [3] (by decide)
  exact ⟨s, hrun, hget [1], hget [2], hget [3], pairs, hpairs, (hmem _ _).mpr (by decide)⟩

/-! ### A file with too many blocks -/

lemma blocksOf_of_le {blockSize : ℕ} (h : blockSize ≤ 12) (es : List BlockEntry) :
    blocksOf blockSize .new es = es.map fun e => [e] := by
  induction es with
  | nil => rfl
  | cons e es ih =>
    have hsize : blockSize ≤ (BlockBuilder.new.add e).size := by
      simp only [BlockBuilder.add, BlockBuilder.new]
      omega
    rw [blocksOf, if_pos hsize, ih]
    rfl

/-- A reader without index entries finds nothing. -/
lemma get_of_index_nil [BloomHash] {data : Bytes} {bloom : BloomFilter}
    (hpos : 0 < bloom.numBits) (key : Bytes) :
    (SSTableReader.mk data [] bloom).get key = .ok none := by
  rw [SSTableReader.get]
  rcases BloomFilter.mayContain_cases hpos key with hmay | ⟨hmay, -⟩ <;> rw [hmay] <;> rfl

/-- The first `n` numbers as keys, with empty values. -/
def bulkPuts (n : ℕ) : List Op :=
  (List.range n).map fun i => .put (toBe 4 i) []

/-- A memtable that takes all of them, and one block for each. -/
def bulkConfig : FileConfig where
  memtableSizeLimit := 2 ^ 40
  l0CompactionTrigger := 4
  levelSizeRatio := 10
  blockSize := 1

def bulkTable (n : ℕ) : MemTable :=
  (List.range n).foldl (fun m i => m.put (toBe 4 i) []) (MemTable.new (2 ^ 40))

lemma bulkPuts_succ (n : ℕ) : bulkPuts (n + 1) = bulkPuts n ++ [.put (toBe 4 n) []] := by
  rw [bulkPuts, List.range_succ, List.map_append]
  rfl

lemma bulkTable_succ (n : ℕ) : bulkTable (n + 1) = (bulkTable n).put (toBe 4 n) [] := by
  rw [bulkTable, List.range_succ, List.foldl_append]
  rfl

lemma toBe_ne {n i : ℕ} (hn : n < 2 ^ 32) (hi : i < n) : toBe 4 n ≠ toBe 4 i := by
  intro h
  have hbe := congrArg fromBe h
  rw [fromBe_toBe hn, fromBe_toBe (hi.trans hn)] at hbe
  omega

lemma bulkTable_getElem? (n : ℕ) (key : Bytes) :
    (bulkTable n).data[key]? = if ∃ i < n, key = toBe 4 i then some (some []) else none := by
  induction n with
  | zero => simp [bulkTable, MemTable.new]
  | succ n ih =>
    have hdata : (bulkTable (n + 1)).data = (bulkTable n).data.insert (toBe 4 n) (some []) := by
      rw [bulkTable_succ]
      rfl
    rw [hdata, Std.TreeMap.getElem?_insert, ih]
    by_cases hkey : toBe 4 n = key
    · have hex : ∃ i < n + 1, key = toBe 4 i := ⟨n, Nat.lt_succ_self n, hkey.symm⟩
      rw [if_pos hex, if_pos (Std.LawfulEqOrd.compare_eq_iff_eq.mpr hkey)]
    · have hiff : (∃ i < n + 1, key = toBe 4 i) ↔ ∃ i < n, key = toBe 4 i := by
        constructor
        · rintro ⟨i, hi, rfl⟩
          rcases Nat.lt_succ_iff_lt_or_eq.mp hi with hi | rfl
          · exact ⟨i, hi, rfl⟩
          · exact absurd rfl hkey
        · rintro ⟨i, hi, rfl⟩
          exact ⟨i, hi.trans (Nat.lt_succ_self n), rfl⟩
      rw [if_neg (mt Std.LawfulEqOrd.compare_eq_iff_eq.mp hkey)]
      simp only [hiff]

lemma bulkTable_size {n : ℕ} (hn : n ≤ 2 ^ 32) : (bulkTable n).data.size = n := by
  induction n with
  | zero => rfl
  | succ n ih =>
    have hnew : ¬(bulkTable n).data.contains (toBe 4 n) := by
      rw [Std.TreeMap.contains_eq_isSome_getElem?, bulkTable_getElem?, if_neg]
      · simp
      · rintro ⟨i, hi, heq⟩
        exact toBe_ne hn hi heq
    rw [bulkTable_succ]
    show ((bulkTable n).data.insert (toBe 4 n) (some [])).size = n + 1
    rw [Std.TreeMap.size_insert, if_neg hnew, ih (Nat.le_of_succ_le hn)]

lemma bulkTable_mem_toList {n : ℕ} {e : Bytes × Option Bytes}
    (he : e ∈ (bulkTable n).data.toList) : e.1.length = 4 ∧ e.2 = some [] := by
  rw [Std.TreeMap.mem_toList_iff_getElem?_eq_some, bulkTable_getElem?] at he
  split at he
  · next hex =>
    obtain ⟨i, -, hkey⟩ := hex
    exact ⟨by rw [hkey, toBe_length], (Option.some.inj he).symm⟩
  · cases he

lemma sum_map_eq_mul {α : Type*} {l : List α} {f : α → ℕ} {c : ℕ} (h : ∀ a ∈ l, f a = c) :
    (l.map f).sum = c * l.length := by
  rw [List.map_congr_left h, List.map_const', List.sum_replicate_nat, Nat.mul_comm]

lemma bulkTable_sizeBytes {n : ℕ} (hn : n ≤ 2 ^ 32) : (bulkTable n).sizeBytes = 4 * n := by
  have hsum : (bulkTable n).sizeBytes =
      ((bulkTable n).data.toList.map fun e => e.1.length + (e.2.map (·.length)).getD 0).sum := by
    cases n with
    | zero => rfl
    | succ n => rw [bulkTable_succ]; rfl
  rw [hsum, sum_map_eq_mul, Std.TreeMap.length_toList, bulkTable_size hn]
  intro e he
  obtain ⟨hkey, hvalue⟩ := bulkTable_mem_toList he
  simp [hkey, hvalue]

lemma bulkTable_isFull {n : ℕ} (hn : n ≤ 2 ^ 32) : (bulkTable n).isFull = false := by
  have hmax : (bulkTable n).maxSize = 2 ^ 40 := by
    clear hn
    induction n with
    | zero => rfl
    | succ n ih => rw [bulkTable_succ]; exact ih
  rw [MemTable.isFull, hmax, bulkTable_sizeBytes hn, decide_eq_false_iff_not]
  omega

lemma bulkTable_iter_length {n : ℕ} (hn : n ≤ 2 ^ 32) : (bulkTable n).iter.length = n := by
  rw [MemTable.iter, List.length_map, Std.TreeMap.length_toList, bulkTable_size hn]

lemma bulkTable_mem_iter {n : ℕ} {e : BlockEntry} (he : e ∈ (bulkTable n).iter) :
    e.key.length = 4 ∧ e.value = some [] := by
  obtain ⟨p, hp, rfl⟩ := List.mem_map.mp he
  exact bulkTable_mem_toList hp

section

variable [BloomHash]

lemma write_length_lt {n : ℕ} (hn : n ≤ 2 ^ 32) {es : List BlockEntry} (hlen : es.length = n)
    (hes : ∀ e ∈ es, e.key.length = 4 ∧ e.value = some []) : (write 1 es).length < 2 ^ 64 := by
  have hdata : ((blocksOf 1 .new es).flatMap BlockBuilder.build).length = 16 * n := by
    rw [blocksOf_of_le (by decide), List.length_flatMap, List.map_map, ← hlen]
    apply sum_map_eq_mul
    intro e he
    obtain ⟨hkey, hvalue⟩ := hes e he
    simp [BlockBuilder.build, BlockEntry.encode, hkey, hvalue]
  have hindex : (indexBlock (indexFrom 0 (blocksOf 1 .new es))).length = 4 + 24 * n := by
    have hkeys : ∀ ie ∈ indexFrom 0 (blocksOf 1 .new es), ie.firstKey.length = 4 := by
      intro ie hie
      have hmem := List.mem_map_of_mem hie (f := (·.firstKey))
      rw [map_firstKey_indexFrom, blocksOf_of_le (by decide), List.map_map] at hmem
      obtain ⟨e, he, hkey⟩ := List.mem_map.mp hmem
      rw [← hkey]
      exact (hes e he).1
    rw [indexBlock, List.length_append, toLe_length, List.length_flatMap, sum_map_eq_mul,
      length_indexFrom, blocksOf_of_le (by decide), List.length_map, hlen]
    intro ie hie
    simp [IndexEntry.encode, hkeys ie hie]
  have hle := SSTableReader.length_layout_le ((blocksOf 1 .new es).flatMap BlockBuilder.build)
    (indexFrom 0 (blocksOf 1 .new es)) es
  rw [hdata, hindex] at hle
  rw [write_eq_layout]
  omega

variable [Crc32]

lemma foldlM_bulkPuts {n : ℕ} (hn : n ≤ 2 ^ 32) :
    ∃ wal, (bulkPuts n).foldlM execute (create bulkConfig) =
      .ok { create bulkConfig with activeMemtable := bulkTable n, wal := wal } := by
  induction n with
  | zero => exact ⟨_, rfl⟩
  | succ n ih =>
    obtain ⟨wal, hrun⟩ := ih (Nat.le_of_succ_le hn)
    refine ⟨(wal.append (WalOp.put (toBe 4 n) []).encode).sync, ?_⟩
    have hfull := bulkTable_isFull hn
    rw [bulkTable_succ] at hfull ⊢
    rw [bulkPuts_succ, List.foldlM_append, hrun]
    show execute _ (.put (toBe 4 n) []) >>= pure = _
    rw [bind_pure]
    exact execute_put_of_not_isFull hfull

lemma flushes_bulkPuts {n : ℕ} (hn : n ≤ 2 ^ 32) :
    (create bulkConfig).flushes (bulkPuts n) = 0 := by
  induction n with
  | zero => rfl
  | succ n ih =>
    obtain ⟨wal, hrun⟩ := foldlM_bulkPuts (Nat.le_of_succ_le hn)
    have hfull : ((bulkTable n).put (toBe 4 n) []).isFull = false := by
      rw [← bulkTable_succ]
      exact bulkTable_isFull hn
    have hflushed : ({ create bulkConfig with activeMemtable := bulkTable n, wal := wal } :
        FileTree).flushed (.put (toBe 4 n) []) = none :=
      if_neg (by rw [hfull]; exact Bool.false_ne_true)
    rw [bulkPuts_succ, flushes_append hrun, ih (Nat.le_of_succ_le hn), flushes, hflushed]
    cases execute _ (.put (toBe 4 n) []) <;> rfl

lemma flushes_bulkPuts_flush {n : ℕ} (hn : n ≤ 2 ^ 32) :
    (create bulkConfig).flushes (bulkPuts n ++ [.flush]) ≤ 1 := by
  obtain ⟨wal, hrun⟩ := foldlM_bulkPuts hn
  have hone : ∀ s : FileTree, s.flushes [.flush] ≤ 1 := by
    intro s
    rw [flushes]
    have hlen : (s.flushed .flush).toList.length ≤ 1 := by
      cases s.flushed .flush <;> simp
    cases s.execute .flush <;> exact hlen
  rw [flushes_append hrun, flushes_bulkPuts hn, Nat.zero_add]
  exact hone _

/-- The index of the flushed file is counted as empty. -/
lemma get_run_bulkPuts {n : ℕ} (hpos : 0 < n) (hn : n ≤ 2 ^ 32) (hmod : n % 2 ^ 32 = 0)
    (key : Bytes) :
    ∃ s, run bulkConfig (bulkPuts n ++ [.flush]) = .ok s ∧ s.get key = .ok none := by
  obtain ⟨wal, hrun⟩ := foldlM_bulkPuts hn
  have hlen := bulkTable_iter_length hn
  have hne : ¬(bulkTable n).isEmpty := by
    intro hempty
    have hsize := bulkTable_size hn
    rw [MemTable.isEmpty, Std.TreeMap.isEmpty_eq_size_eq_zero, beq_iff_eq] at hempty
    omega
  have hshort : ∀ e ∈ (bulkTable n).iter, e.Short := by
    intro e he
    obtain ⟨hkey, hvalue⟩ := bulkTable_mem_iter he
    refine ⟨by rw [hkey]; decide, fun v hv => ?_⟩
    rw [hvalue] at hv
    obtain rfl := Option.some.inj hv
    decide
  have hopen := SSTableReader.openBytes_write hshort
    (write_length_lt hn hlen fun e he => bulkTable_mem_iter he)
  have hcount : (blocksOf 1 .new (bulkTable n).iter).length % 2 ^ 32 = 0 := by
    rw [blocksOf_of_le (by decide), List.length_map, hlen, hmod]
  rw [hcount, List.take_zero] at hopen
  have hbits : 0 < (bloomOf (bulkTable n).iter).numBits := by
    rw [bloomOf, BloomFilter.foldl_insert_numBits]
    exact BloomFilter.new_numBits_pos _
  rw [run, openDir_empty]
  show ∃ s, (bulkPuts n ++ [TreeOp.flush]).foldlM execute (create bulkConfig) = .ok s ∧ _
  rw [List.foldlM_append, hrun]
  show ∃ s, execute _ .flush >>= pure = .ok s ∧ _
  rw [bind_pure, execute, flushMemtable, if_neg hne]
  refine ⟨_, bind_eq_ok_iff.mpr ⟨_, hopen, rfl⟩, ?_⟩
  have hmem : (MemTable.new bulkConfig.memtableSizeLimit).get key = none := by
    simp [MemTable.get, MemTable.new]
  rw [get]
  simp only [create, hmem, List.nil_append, List.insertionSort_cons, List.insertionSort_nil,
    List.orderedInsert_nil, List.findSomeM?_cons, get_of_index_nil hbits]
  rfl

end

lemma contents_bulkPuts {n : ℕ} (hpos : 0 < n) :
    contents (bulkPuts n ++ [.flush]) (toBe 4 0) = some [] := by
  have hflush : contents (bulkPuts n ++ [.flush]) = contents (bulkPuts n) := by
    rw [contents, List.foldl_append]
    rfl
  rw [hflush]
  induction n with
  | zero => exact absurd hpos (lt_irrefl 0)
  | succ n ih =>
    rw [bulkPuts_succ, contents, List.foldl_append]
    show Function.update (contents (bulkPuts n)) (toBe 4 n) (some []) (toBe 4 0) = some []
    rw [Function.update_apply]
    split
    · rfl
    · next hne =>
      refine ih (Nat.pos_of_ne_zero fun hzero => hne (by rw [hzero])) ?_
      rw [contents, List.foldl_append]
      rfl

lemma record?_bulkPuts {n : ℕ} {op : Op} (hop : op ∈ bulkPuts n ++ [.flush]) :
    ∀ w ∈ op.toLsm.record?, w.encode.length ≤ maxRecordLen := by
  intro w hw
  rcases List.mem_append.mp hop with hop | hop
  · obtain ⟨i, -, rfl⟩ := List.mem_map.mp hop
    obtain rfl := Option.some.inj hw
    rw [WalOp.encode]
    simp only [List.length_append, List.length_cons, toLe_length, toBe_length, List.length_nil]
    decide
  · rw [List.mem_singleton.mp hop] at hw
    cases hw

lemma configs_bulkPuts {n : ℕ} {c : LsmConfig}
    (hc : c ∈ configs bulkConfig (bulkPuts n ++ [.flush])) : c.l0CompactionTrigger = 4 := by
  rcases List.mem_cons.mp hc with rfl | hc
  · rfl
  · obtain ⟨op, hop, hconfig⟩ := List.mem_filterMap.mp hc
    rcases List.mem_append.mp hop with hop | hop
    · obtain ⟨i, -, rfl⟩ := List.mem_map.mp hop
      cases hconfig
    · rw [List.mem_singleton.mp hop] at hconfig
      cases hconfig

/-- After 2³² writes of distinct keys and a flush the first of them is gone, although all records
are short and the only flush is below the trigger. -/
theorem bulkFlush_loses_key :
    letI := BloomHash.sip
    letI := Crc32.ieee
    let ops := bulkPuts (2 ^ 32) ++ [.flush]
    (∀ op ∈ ops, ∀ w ∈ op.toLsm.record?, w.encode.length ≤ maxRecordLen) ∧
      (∀ c ∈ configs bulkConfig ops, (create bulkConfig).flushes ops < c.l0CompactionTrigger) ∧
      ∃ s, run bulkConfig ops = .ok s ∧ s.get (toBe 4 0) = .ok none ∧
        contents ops (toBe 4 0) = some [] := by
  let _ := BloomHash.sip
  let _ := Crc32.ieee
  refine ⟨fun op hop => record?_bulkPuts hop, fun c hc => ?_, ?_⟩
  · rw [configs_bulkPuts hc]
    exact (flushes_bulkPuts_flush le_rfl).trans_lt (by decide)
  · obtain ⟨s, hrun, hget⟩ := get_run_bulkPuts (by decide) le_rfl (Nat.mod_self (2 ^ 32)) (toBe 4 0)
    exact ⟨s, hrun, hget, contents_bulkPuts (by decide)⟩

end FileTree

end Raftrust.Storage

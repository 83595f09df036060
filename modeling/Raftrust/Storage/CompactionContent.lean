import Raftrust.Lib.Run
import Raftrust.Storage.CompactionEffect
import Raftrust.Storage.Lsm

/-!
# What compaction preserves

Between operations the SSTables in memory are those of a valid manifest, so reading them is
reading the levels from the top, newest file first. A compaction merges the files of its level
oldest first. On level 0, where files overlap, it therefore keeps the oldest version of a key,
and reads change unless that is also the newest one.
-/

namespace Raftrust.Storage

open Lib

/-! ### Reading the levels -/

namespace Manifest

variable {m m' : Manifest} {dir dir' : Directory} {key : Bytes}

/-- What the files say about a key, level by level and newest first. -/
def read (m : Manifest) (dir : Directory) (key : Bytes) : Option (Option Bytes) :=
  (List.range m.numLevels).findSome? fun i => (m.versions dir key i).getLast?

/-- The same with another answer of one level. -/
def readWith (m : Manifest) (dir : Directory) (key : Bytes) (level : ℕ)
    (answer : Option (Option Bytes)) : Option (Option Bytes) :=
  ((List.range level).findSome? fun i => (m.versions dir key i).getLast?).or
    (answer.or ((m.versions dir key (level + 1)).getLast?.or
      ((List.range' (level + 2) (m.numLevels - (level + 2))).findSome?
        fun i => (m.versions dir key i).getLast?)))

lemma read_eq_readWith {level : ℕ} (h : level + 1 < m.numLevels) :
    m.read dir key = m.readWith dir key level (m.versions dir key level).getLast? := by
  obtain ⟨n, hn⟩ := Nat.exists_eq_add_of_lt h
  have hrange : List.range m.numLevels =
      List.range level ++ level :: (level + 1) :: List.range' (level + 2) n := by
    rw [hn, List.range_eq_range', List.range_eq_range', Nat.add_right_comm (level + 1),
      Nat.add_assoc level 1 1, Nat.add_assoc, ← List.range'_append_1, Nat.zero_add,
      Nat.add_comm 2 n]
    rfl
  have hlen : m.numLevels - (level + 2) = n := by omega
  rw [read, readWith, hrange, hlen, List.findSome?_append, List.findSome?_cons,
    List.findSome?_cons]
  cases (m.versions dir key level).getLast? <;>
    cases (m.versions dir key (level + 1)).getLast? <;> rfl

end Manifest

lemma LeveledCompaction.Performed.read_eq {m m' : Manifest} {dir dir' : Directory} {level : ℕ}
    {minKey maxKey : Bytes} (hv : m.Sound dir) (hlevel : level + 1 < m.numLevels)
    (hrange : Spans m level minKey maxKey)
    (h : Performed m dir level minKey maxKey m' dir') (key : Bytes) :
    (m'.read dir' key).join =
      (m.readWith dir key level (m.versions dir key level).head?).join := by
  have hnum := h.numLevels_eq hlevel
  have hsource : m'.versions dir' key level = [] := by
    rw [h.versions_of_ne hv hlevel key (Nat.succ_ne_self level).symm, if_pos rfl]
  have hother : ∀ i, i < level ∨ level + 1 < i →
      (m'.versions dir' key i).getLast? = (m.versions dir key i).getLast? := by
    intro i hi
    rw [h.versions_of_ne hv hlevel key (by omega), if_neg (by omega)]
  have habove : ((List.range level).findSome? fun i => (m'.versions dir' key i).getLast?) =
      (List.range level).findSome? fun i => (m.versions dir key i).getLast? :=
    findSome?_congr fun i hi => hother i (.inl (List.mem_range.mp hi))
  have hbelow : ((List.range' (level + 2) (m.numLevels - (level + 2))).findSome?
        fun i => (m'.versions dir' key i).getLast?) =
      (List.range' (level + 2) (m.numLevels - (level + 2))).findSome?
        fun i => (m.versions dir key i).getLast? :=
    findSome?_congr fun i hi => hother i (.inr (List.mem_range'_1.mp hi).1)
  rw [Manifest.read_eq_readWith (hnum ▸ hlevel), Manifest.readWith, hnum, hsource, habove, hbelow,
    Manifest.readWith]
  cases (List.range level).findSome? fun i => (m.versions dir key i).getLast? with
  | some v => rfl
  | none =>
    apply h.read_target hv hlevel hrange key
    intro hdeep
    rw [Nat.sub_eq_zero_of_le (by omega)]
    rfl

/-- A compaction that succeeds keeps the state sound, and the level then answers as its oldest
version did. -/
lemma LeveledCompaction.compact_read {m m' : Manifest} {dir dir' : Directory} {level : ℕ}
    {result : CompactionResult} (hv : m.Sound dir) (hlevel : level + 1 < m.numLevels)
    (hcompact : compact m dir level = .ok (m', dir', result)) :
    m'.Sound dir' ∧ (m.Present dir → m'.Present dir') ∧ m'.numLevels = m.numLevels ∧
      ∀ key, (m'.read dir' key).join =
        (m.readWith dir key level (m.versions dir key level).head?).join := by
  rcases compact_cases m dir level with
    ⟨hempty, heq⟩ | ⟨minKey, maxKey, hrange, ⟨-, err, heq⟩ | ⟨-, _, _, _, heq, hperformed⟩⟩
  · obtain ⟨rfl, rfl, -⟩ : m = m' ∧ dir = dir' ∧ _ := by simpa [heq] using hcompact
    refine ⟨hv, fun h => h, rfl, fun key => ?_⟩
    have hversions : m.versions dir key level = [] := by rw [Manifest.versions, hempty]; rfl
    rw [Manifest.read_eq_readWith hlevel, hversions]
    rfl
  · simp [heq] at hcompact
  · obtain ⟨rfl, rfl, -⟩ : _ = m' ∧ _ = dir' ∧ _ := by simpa [heq] using hcompact
    exact ⟨hperformed.sound hv hlevel hrange, fun h => hperformed.present hv h,
      hperformed.numLevels_eq hlevel, hperformed.read_eq hv hlevel hrange⟩

/-- With all files there a compaction succeeds. -/
lemma LeveledCompaction.exists_compact_eq_ok {m : Manifest} {dir : Directory}
    (h : m.Present dir) (level : ℕ) :
    ∃ m' dir' result, compact m dir level = .ok (m', dir', result) := by
  rcases compact_cases m dir level with
    ⟨-, heq⟩ | ⟨minKey, maxKey, -, ⟨⟨e, he, hmissing⟩, -⟩ | ⟨-, _, _, _, heq, -⟩⟩
  · exact ⟨_, _, _, heq⟩
  · obtain ⟨t, ht, -⟩ := h e (mem_entries_of_mem_inputs he)
    simp [hmissing] at ht
  · exact ⟨_, _, _, heq⟩

namespace LsmTree

/-! ### Consistent states -/

/-- The manifest is sound and saved, and its SSTables are the ones loaded. Files may be missing. -/
structure Loaded (s : LsmTree) : Prop where
  numLevels_eq : s.manifest.numLevels = numLevels
  sound : s.manifest.Sound s.dir
  saved : s.dir.saved = s.manifest
  cache : s.sstableCache.Perm (loadCache s.manifest s.dir)

/-- The same with all files there. -/
structure Consistent (s : LsmTree) : Prop extends loaded : s.Loaded where
  present : s.manifest.Present s.dir

lemma Consistent.valid {s : LsmTree} (h : s.Consistent) : s.manifest.Valid s.dir :=
  ⟨h.sound, h.present⟩

instance {τ : Type} : Std.Total (@ReadsBefore τ) := ⟨fun a b => by
  simp only [ReadsBefore]
  omega⟩

instance {τ : Type} : IsTrans _ (@ReadsBefore τ) := ⟨fun a b c hab hbc => by
  simp only [ReadsBefore] at *
  omega⟩

/-- The loaded SSTables in reading order. -/
def readOrder (m : Manifest) (dir : Directory) : List (SSTableEntry × SSTable) :=
  (m.levels.map List.reverse).flatten.filterMap fun e =>
    (dir.tables e.fileName).map fun t => (e, t)

lemma readOrder_perm (m : Manifest) (dir : Directory) :
    (readOrder m dir).Perm (loadCache m dir) := by
  apply List.Perm.filterMap
  induction m.levels with
  | nil => rfl
  | cons es levels ih => exact (List.reverse_perm es).append ih

lemma readOrder_pairwise {m : Manifest} {dir : Directory} (hv : m.Sound dir) :
    (readOrder m dir).Pairwise ReadsBefore := by
  have hlevels : (m.levels.map List.reverse).flatten.Pairwise fun e e' =>
      e.level < e'.level ∨ e.level = e'.level ∧ e'.id ≤ e.id := by
    rw [List.pairwise_flatten, m.levels_eq_map, List.map_map]
    constructor
    · intro l hl
      obtain ⟨i, -, rfl⟩ := List.mem_map.mp hl
      apply List.pairwise_reverse.mpr
      refine (hv.ordered i).imp_of_mem fun {e e'} he he' hid => .inr ⟨?_, hid.le⟩
      rw [hv.level_eq i e he, hv.level_eq i e' he']
    · rw [List.pairwise_map]
      refine List.pairwise_lt_range.imp fun {i j} hij e he e' he' => .inl ?_
      rwa [hv.level_eq i e (List.mem_reverse.mp he), hv.level_eq j e' (List.mem_reverse.mp he')]
  apply List.pairwise_filterMap.mpr
  refine hlevels.imp fun {e e'} hee a ha b hb => ?_
  obtain ⟨t, -, rfl⟩ := Option.map_eq_some_iff.mp ha
  obtain ⟨t', -, rfl⟩ := Option.map_eq_some_iff.mp hb
  exact hee

lemma mem_loadCache {m : Manifest} {dir : Directory} {p : SSTableEntry × SSTable} :
    p ∈ loadCache m dir ↔ p.1 ∈ m.entries ∧ dir.tables p.1.fileName = some p.2 := by
  rw [loadCache, List.mem_filterMap]
  constructor
  · rintro ⟨e, he, hp⟩
    obtain ⟨t, ht, rfl⟩ := Option.map_eq_some_iff.mp hp
    exact ⟨he, ht⟩
  · rintro ⟨he, ht⟩
    exact ⟨p.1, he, by rw [ht]; rfl⟩

/-- The number identifies a loaded SSTable: an entry, and with its name the file. -/
lemma Loaded.id_inj {s : LsmTree} (h : s.Loaded) {p q : SSTableEntry × SSTable}
    (hp : p ∈ s.sstableCache) (hq : q ∈ s.sstableCache) (hid : p.1.id = q.1.id) : p = q := by
  obtain ⟨hpe, hpt⟩ := mem_loadCache.mp (h.cache.mem_iff.mp hp)
  obtain ⟨hqe, hqt⟩ := mem_loadCache.mp (h.cache.mem_iff.mp hq)
  have hentry := h.sound.id_inj _ hpe _ hqe hid
  rw [hentry, hqt] at hpt
  exact Prod.ext hentry (Option.some.inj hpt).symm

/-- SSTables with different numbers have one reading order. -/
lemma eq_of_pairwise_readsBefore {cache l l' : List (SSTableEntry × SSTable)}
    (hinj : ∀ p ∈ cache, ∀ q ∈ cache, p.1.id = q.1.id → p = q) (hl : l.Perm cache)
    (hl' : l'.Perm cache) (hpair : l.Pairwise ReadsBefore) (hpair' : l'.Pairwise ReadsBefore) :
    l = l' := by
  apply List.Perm.eq_of_pairwise _ hpair hpair' (hl.trans hl'.symm)
  intro p q hp hq hpq hqp
  apply hinj p (hl.mem_iff.mp hp) q (hl'.mem_iff.mp hq)
  simp only [ReadsBefore] at hpq hqp
  omega

lemma Loaded.getSstables_eq {s : LsmTree} (h : s.Loaded) (key : Bytes) :
    s.getSstables key = s.manifest.read s.dir key := by
  have hsort : s.sstableCache.insertionSort ReadsBefore = readOrder s.manifest s.dir :=
    eq_of_pairwise_readsBefore (fun p hp q hq => h.id_inj hp hq) (List.perm_insertionSort _ _)
      ((readOrder_perm _ _).trans h.cache.symm) (List.pairwise_insertionSort _ _)
      (readOrder_pairwise h.sound)
  have hfile : ∀ e : SSTableEntry,
      ((s.dir.tables e.fileName).map fun t => (e, t)).bind (fun p => p.2.get key) =
        s.dir.lookup key e := by
    intro e
    rw [Directory.lookup]
    cases s.dir.tables e.fileName <;> rfl
  rw [getSstables, hsort, readOrder, findSome?_filterMap, findSome?_flatten, Manifest.read,
    Manifest.levels_eq_map, List.findSome?_map, List.findSome?_map]
  apply findSome?_congr
  intro i _
  rw [Manifest.versions, List.getLast?_filterMap]
  exact findSome?_congr fun e _ => hfile e

/-! ### Operations keep states consistent -/

lemma Loaded.of_manifest_eq {s s' : LsmTree} (h : s.Loaded)
    (hmanifest : s'.manifest = s.manifest) (hdir : s'.dir = s.dir)
    (hcache : s'.sstableCache = s.sstableCache) : s'.Loaded := by
  constructor
  · rw [hmanifest]; exact h.numLevels_eq
  · rw [hmanifest, hdir]; exact h.sound
  · rw [hmanifest, hdir]; exact h.saved
  · rw [hmanifest, hdir, hcache]; exact h.cache

lemma Consistent.of_manifest_eq {s s' : LsmTree} (h : s.Consistent)
    (hmanifest : s'.manifest = s.manifest) (hdir : s'.dir = s.dir)
    (hcache : s'.sstableCache = s.sstableCache) : s'.Consistent := by
  refine ⟨h.loaded.of_manifest_eq hmanifest hdir hcache, ?_⟩
  rw [hmanifest, hdir]
  exact h.present

lemma loadCache_addSstable {m : Manifest} {dir : Directory} (hv : m.Sound dir) {t : SSTable}
    {e : SSTableEntry} (hname : e.fileName = sstName m.nextSstId) (n : ℕ) :
    (loadCache ((Manifest.mk m.levels n).addSstable e)
      (dir.writeTable (sstName m.nextSstId) t)).Perm (loadCache m dir ++ [(e, t)]) := by
  have hperm : ((Manifest.mk m.levels n).addSstable e).entries.Perm (m.entries ++ [e]) :=
    Manifest.addSstable_entries_perm _ e
  refine (hperm.filterMap _).trans (List.Perm.of_eq ?_)
  rw [List.filterMap_append]
  congr 1
  · exact List.filterMap_congr fun x hx => by rw [hv.tables_writeTable hx]
  · simp [Directory.writeTable, hname]

/-- A memtable that is not empty has a first and a last entry. -/
lemma exists_head?_getLast? {m : MemTable} (h : ¬m.isEmpty) :
    ∃ first last, m.toTable.entries.head? = some first ∧
      m.toTable.entries.getLast? = some last := by
  have hentries : m.toTable.entries ≠ [] := by
    simpa [MemTable.toTable, MemTable.iter, MemTable.isEmpty, ← List.isEmpty_eq_false_iff] using h
  obtain ⟨first, hfirst⟩ :=
    Option.ne_none_iff_exists'.mp (mt List.head?_eq_none_iff.mp hentries)
  obtain ⟨last, hlast⟩ :=
    Option.ne_none_iff_exists'.mp (mt List.getLast?_eq_none_iff.mp hentries)
  exact ⟨first, last, hfirst, hlast⟩

lemma Loaded.flushMemtable {s : LsmTree} (h : s.Loaded) :
    s.flushMemtable.Loaded ∧
      (s.manifest.Present s.dir → s.flushMemtable.manifest.Present s.flushMemtable.dir) := by
  rw [LsmTree.flushMemtable]
  split
  · exact ⟨h, fun hpresent => hpresent⟩
  · next hne =>
    obtain ⟨first, last, hfirst, hlast⟩ := exists_head?_getLast? hne
    simp only [Manifest.nextSstFilename, hfirst, hlast, Option.map_some, Option.getD_some]
    have hlevel : 0 < s.manifest.numLevels := by
      rw [h.numLevels_eq]
      decide
    refine ⟨⟨?_, ?_, rfl, ?_⟩, fun hpresent => ?_⟩
    · exact (Manifest.addSstable_numLevels hlevel).trans h.numLevels_eq
    · exact (h.sound.flushed hlevel hfirst hlast).of_tables fun _ _ _ ht => ht
    · exact (h.cache.append_right _).trans (loadCache_addSstable h.sound rfl _).symm
    · exact (Manifest.Valid.flushed ⟨h.sound, hpresent⟩ hlevel hfirst hlast).present

lemma Consistent.flushMemtable {s : LsmTree} (h : s.Consistent) : s.flushMemtable.Consistent :=
  ⟨h.loaded.flushMemtable.1, h.loaded.flushMemtable.2 h.present⟩

/-- The level that compaction is started from has a next level. -/
lemma needsCompaction_lt {config : CompactionConfig} {m : Manifest} {level : ℕ}
    (hm : m.numLevels = numLevels) (h : config.needsCompaction m = some level) :
    level + 1 < m.numLevels := by
  rw [CompactionConfig.needsCompaction] at h
  split at h
  · obtain rfl := Option.some.inj h
    rw [hm]
    decide
  · have hmem := List.mem_range'_1.mp (List.mem_of_find?_eq_some h)
    omega

/-- What compaction does to a tree whose manifest is sound: nothing if it is not needed or fails,
and else the level compacted from answers as its oldest version did. -/
lemma maybeCompact_cases {s : LsmTree} (hnum : s.manifest.numLevels = numLevels)
    (hv : s.manifest.Sound s.dir) :
    (s.config.compaction.needsCompaction s.manifest = none ∧ s.maybeCompact = .ok s) ∨
    ∃ level, s.config.compaction.needsCompaction s.manifest = some level ∧
      level + 1 < s.manifest.numLevels ∧
      ((∃ err, LeveledCompaction.compact s.manifest s.dir level = .error err ∧
          s.maybeCompact = .error err) ∨
        ∃ m' dir' result s',
          LeveledCompaction.compact s.manifest s.dir level = .ok (m', dir', result) ∧
          s' = { s with manifest := m'
                        dir := { dir' with manifest := some m' }
                        sstableCache := loadCache m' { dir' with manifest := some m' } } ∧
          s.maybeCompact = .ok s' ∧ s'.Loaded ∧
          (s.manifest.Present s.dir → s'.manifest.Present s'.dir) ∧
          ∀ key, (s'.manifest.read s'.dir key).join = (s.manifest.readWith s.dir key level
            (s.manifest.versions s.dir key level).head?).join) := by
  rw [LsmTree.maybeCompact]
  cases hneeds : s.config.compaction.needsCompaction s.manifest with
  | none => exact .inl ⟨rfl, rfl⟩
  | some level =>
    have hlevel := needsCompaction_lt hnum hneeds
    refine .inr ⟨level, rfl, hlevel, ?_⟩
    dsimp only
    cases hcompact : LeveledCompaction.compact s.manifest s.dir level with
    | error err => exact .inl ⟨err, rfl, rfl⟩
    | ok result =>
      obtain ⟨m', dir', result⟩ := result
      obtain ⟨hsound, hpresent, hnum', hread⟩ := LeveledCompaction.compact_read hv hlevel hcompact
      exact .inr ⟨m', dir', result, _, rfl, rfl, rfl,
        ⟨hnum'.trans hnum, hsound.of_tables fun _ _ _ ht => ht, rfl, List.Perm.refl _⟩,
        hpresent, hread⟩

/-- Compaction succeeds and keeps the state consistent. The memtables stay as they are, and the
level compacted from answers as its oldest version did. -/
lemma Consistent.maybeCompact {s : LsmTree} (h : s.Consistent) :
    ∃ s', s.maybeCompact = .ok s' ∧ s'.Consistent ∧
      (∀ key, s'.getMemtables key = s.getMemtables key) ∧
      (s.config.compaction.needsCompaction s.manifest = none → s' = s) ∧
      ∀ level, s.config.compaction.needsCompaction s.manifest = some level →
        ∀ key, (s'.getSstables key).join = (s.manifest.readWith s.dir key level
          (s.manifest.versions s.dir key level).head?).join := by
  rcases maybeCompact_cases h.numLevels_eq h.valid.sound with ⟨hneeds, hs⟩ |
    ⟨level, hneeds, -, ⟨err, herr, -⟩ |
      ⟨m', dir', result, s', -, hs', hs, hloaded, hpresent, hread⟩⟩
  · exact ⟨s, hs, h, fun _ => rfl, fun _ => rfl, by simp [hneeds]⟩
  · obtain ⟨m', dir', result, hok⟩ :=
      LeveledCompaction.exists_compact_eq_ok h.valid.present level
    simp [hok] at herr
  · refine ⟨s', hs, ⟨hloaded, hpresent h.present⟩, fun key => by rw [hs']; rfl,
      by simp [hneeds], fun level' hlevel' key => ?_⟩
    obtain rfl : level = level' := Option.some.inj (hneeds.symm.trans hlevel')
    rw [hloaded.getSstables_eq]
    exact hread key

lemma Consistent.afterWrite {s s' : LsmTree} (h : s.Consistent) (hs : s.afterWrite = .ok s') :
    s'.Consistent := by
  rw [LsmTree.afterWrite] at hs
  split at hs
  · obtain ⟨s'', hcompact, hconsistent, -⟩ := h.flushMemtable.maybeCompact
    rw [hcompact] at hs
    exact Except.ok.inj hs ▸ hconsistent
  · exact Except.ok.inj hs ▸ h

section

variable [Crc32]

lemma Loaded.openDir {dir : Directory} {walFile : Option Bytes} {config : LsmConfig}
    {s : LsmTree} (hnum : dir.saved.numLevels = numLevels)
    (hsound : dir.saved.Sound dir)
    (hs : LsmTree.openDir dir walFile config = .ok s) : s.Loaded := by
  rw [LsmTree.openDir] at hs
  simp only [bind_eq_ok_iff] at hs
  obtain ⟨records, -, ops, -, hs⟩ := hs
  obtain rfl := Except.ok.inj hs
  exact ⟨hnum, hsound, rfl, List.Perm.refl _⟩

lemma Consistent.openDir {dir : Directory} {walFile : Option Bytes} {config : LsmConfig}
    {s : LsmTree} (hnum : dir.saved.numLevels = numLevels)
    (hvalid : dir.saved.Valid dir)
    (hs : LsmTree.openDir dir walFile config = .ok s) : s.Consistent := by
  rw [LsmTree.openDir] at hs
  simp only [bind_eq_ok_iff] at hs
  obtain ⟨records, -, ops, -, hs⟩ := hs
  obtain rfl := Except.ok.inj hs
  exact ⟨⟨hnum, hvalid.sound, rfl, List.Perm.refl _⟩, hvalid.present⟩

/-- Every operation keeps the state consistent. -/
lemma Consistent.execute {s s' : LsmTree} (h : s.Consistent) {op : TreeOp LsmConfig}
    (hs : s.execute op = .ok s') : s'.Consistent := by
  cases op with
  | put key value =>
    rw [LsmTree.execute, mapError_eq_ok_iff, LsmTree.put] at hs
    refine Consistent.afterWrite ?_ hs
    exact h.of_manifest_eq rfl rfl rfl
  | delete key =>
    rw [LsmTree.execute, mapError_eq_ok_iff, LsmTree.delete] at hs
    refine Consistent.afterWrite ?_ hs
    exact h.of_manifest_eq rfl rfl rfl
  | flush => exact Except.ok.inj hs ▸ h.flushMemtable
  | maybeCompact =>
    obtain ⟨s'', hcompact, hconsistent, -⟩ := h.maybeCompact
    rw [LsmTree.execute, hcompact] at hs
    exact Except.ok.inj hs ▸ hconsistent
  | reopen config =>
    refine Consistent.openDir ?_ ?_ hs
    · rw [h.saved]
      exact h.numLevels_eq
    · rw [h.saved]
      exact h.valid

end

/-! ### Reads before and after -/

/-- If compaction is about to merge level 0, the oldest version there of each key that the
memtables do not have is also the newest. -/
def LevelZeroSettled (s : LsmTree) : Prop :=
  s.config.compaction.needsCompaction s.manifest = some 0 →
    ∀ key, s.getMemtables key = none →
      (s.manifest.versions s.dir key 0).head? = (s.manifest.versions s.dir key 0).getLast?

/-- A read sees the SSTables only through the keys that the memtables do not have. -/
lemma get_eq_get_iff {s s' : LsmTree} {key : Bytes}
    (hmem : s'.getMemtables key = s.getMemtables key) :
    s'.get key = s.get key ↔
      (s.getMemtables key = none → (s'.getSstables key).join = (s.getSstables key).join) := by
  rw [get, get, hmem]
  cases s.getMemtables key <;> simp

/-- On level 0 the oldest and the newest version read the same exactly when they are equal. -/
lemma readWith_zero_join_iff (m : Manifest) (dir : Directory) (key : Bytes) :
    (m.readWith dir key 0 (m.versions dir key 0).head?).join =
        (m.readWith dir key 0 (m.versions dir key 0).getLast?).join ↔
      (m.versions dir key 0).head? = (m.versions dir key 0).getLast? := by
  rw [Manifest.readWith, Manifest.readWith]
  cases hversions : m.versions dir key 0 with
  | nil => simp
  | cons v vs => simp [List.getLast?_cons]

/-- Compaction of a consistent state succeeds, and it leaves all reads unchanged exactly when
level 0 is settled. -/
theorem Consistent.maybeCompact_get_iff {s : LsmTree} (hc : s.Consistent) :
    ∃ s', s.maybeCompact = .ok s' ∧ ((∀ key, s'.get key = s.get key) ↔ s.LevelZeroSettled) := by
  obtain ⟨s', hcompact, -, hmem, hidle, hsst⟩ := hc.maybeCompact
  refine ⟨s', hcompact, ?_⟩
  rw [forall_congr' fun key => get_eq_get_iff (hmem key), LevelZeroSettled]
  rcases hneeds : s.config.compaction.needsCompaction s.manifest with _ | _ | level
  · simp [hidle hneeds]
  · have hlevel := needsCompaction_lt hc.numLevels_eq hneeds
    have hkey : ∀ key, (s'.getSstables key).join = (s.getSstables key).join ↔
        (s.manifest.versions s.dir key 0).head? = (s.manifest.versions s.dir key 0).getLast? := by
      intro key
      rw [hsst 0 hneeds, hc.loaded.getSstables_eq, Manifest.read_eq_readWith hlevel]
      exact readWith_zero_join_iff _ _ _
    simp only [hkey, forall_const]
  · -- from level 1 on a key has one version, the oldest and the newest
    have hlevel := needsCompaction_lt hc.numLevels_eq hneeds
    have hkey : ∀ key, (s'.getSstables key).join = (s.getSstables key).join := by
      intro key
      rw [hsst _ hneeds, hc.loaded.getSstables_eq, Manifest.read_eq_readWith hlevel,
        hc.valid.sound.versions_head?_eq_getLast? (Nat.succ_pos level)]
    simp [hkey]

end LsmTree

end Raftrust.Storage

import Raftrust.Lib.Run
import Raftrust.Storage.ManifestValid

/-!
# The effect of a compaction

A compaction takes the SSTables of its level and those of the next level that meet their range out
of the manifest and puts their merge into the next level, unless nothing is left of it. The result
is valid again, and the next level then says about every key what the first of the merged files
said that had the key. Files that are not merged may be missing; one that is to be merged and is
missing stops the compaction before it has changed anything.
-/

namespace Raftrust.Storage

open Lib

lemma FileOp.foldl_apply_removeTable (dir : Directory) (es : List SSTableEntry) :
    (es.map fun e => FileOp.removeTable e.fileName).foldl apply dir =
      dir.removeTables (es.map (·.fileName)) := by
  induction es generalizing dir with
  | nil => simp [Directory.removeTables]
  | cons e es ih =>
    rw [List.map_cons, List.foldl_cons, ih, List.map_cons, apply, Directory.removeTables,
      Directory.removeTables, Directory.removeTables]
    congr 1
    funext name
    by_cases hname : name ∈ es.map (·.fileName)
    · rw [if_pos hname, if_pos (List.mem_cons_of_mem _ hname)]
    · by_cases heq : name = e.fileName <;> simp [hname, heq]

namespace LeveledCompaction

/-- The files a compaction reads. -/
def inputs (m : Manifest) (level : ℕ) (minKey maxKey : Bytes) : List SSTableEntry :=
  m.level level ++ (m.level (level + 1)).filter (overlaps minKey maxKey)

/-- The merge of the files of some entries. -/
def merged (dir : Directory) (inputs : List SSTableEntry) : SSTable :=
  mergeEntries ((inputs.filterMap fun e => dir.tables e.fileName).flatMap (·.entries))

/-- What is left of the merge on the target level. -/
def output (m : Manifest) (dir : Directory) (level : ℕ) (minKey maxKey : Bytes) : SSTable :=
  let t := merged dir (inputs m level minKey maxKey)
  if m.numLevels - 1 ≤ level + 1 then t.dropTombstones else t

/-- The manifest without the inputs. -/
def others (m : Manifest) (level : ℕ) (minKey maxKey : Bytes) : Manifest :=
  m.removeSstables ((inputs m level minKey maxKey).map (·.id))

/-- The range has all keys of the level. -/
def Spans (m : Manifest) (level : ℕ) (minKey maxKey : Bytes) : Prop :=
  ∀ e ∈ m.level level, minKey ≤ e.minKey ∧ e.maxKey ≤ maxKey

/-- How a merge of `inputs` of which `kept` is left changes the manifest, and how the directory. -/
inductive Merged (m : Manifest) (targetLevel : ℕ) (inputs : List SSTableEntry) (kept : SSTable) :
    Manifest → List FileOp → Prop
  | dropped {n : ℕ} (hnext : m.nextSstId ≤ n) (hempty : kept.entries = []) :
    Merged m targetLevel inputs kept
      ((Manifest.mk m.levels n).removeSstables (inputs.map (·.id))) []
  | written {first last : BlockEntry} (hfirst : kept.entries.head? = some first)
    (hlast : kept.entries.getLast? = some last) :
    Merged m targetLevel inputs kept
      (((Manifest.mk m.levels (m.nextSstId + 1)).removeSstables (inputs.map (·.id))).addSstable
        { id := m.nextSstId, level := targetLevel, fileName := sstName m.nextSstId,
          minKey := first.key, maxKey := last.key })
      (.writeTable (sstName m.nextSstId) kept :: inputs.map fun e => .removeTable e.fileName)

/-- How a compaction changes the manifest and the directory. -/
def Performed (m : Manifest) (dir : Directory) (level : ℕ) (minKey maxKey : Bytes) (m' : Manifest)
    (dir' : Directory) : Prop :=
  ∃ ops, ops.foldl FileOp.apply dir = dir' ∧ Merged m (level + 1) (inputs m level minKey maxKey)
    (output m dir level minKey maxKey) m' ops

lemma overlaps_iff {minKey maxKey : Bytes} {e : SSTableEntry} :
    overlaps minKey maxKey e ↔ e.minKey ≤ maxKey ∧ minKey ≤ e.maxKey := by
  simp [overlaps]

lemma mapM_readTable {dir : Directory} {inputs : List SSTableEntry}
    (h : ∀ e ∈ inputs, dir.tables e.fileName ≠ none) :
    inputs.mapM (fun e => dir.readTable e.fileName) =
      .ok ((inputs.filterMap fun e => dir.tables e.fileName).map (·.entries)) := by
  induction inputs with
  | nil => rfl
  | cons e inputs ih =>
    obtain ⟨t, ht⟩ := Option.ne_none_iff_exists'.mp (h e List.mem_cons_self)
    have hrest := ih fun x hx => h x (List.mem_cons_of_mem _ hx)
    have hread : dir.readTable e.fileName = .ok t.entries := by simp [Directory.readTable, ht]
    rw [List.mapM_cons, hread, hrest, List.filterMap_cons, ht]
    rfl

lemma mapM_readTable_of_missing {dir : Directory} {inputs : List SSTableEntry}
    (h : ∃ e ∈ inputs, dir.tables e.fileName = none) :
    ∃ err, inputs.mapM (fun e => dir.readTable e.fileName) = .error err := by
  induction inputs with
  | nil => simp at h
  | cons e inputs ih =>
    rw [List.mapM_cons, Directory.readTable]
    cases ht : dir.tables e.fileName with
    | none => exact ⟨_, rfl⟩
    | some t =>
      obtain ⟨x, hx, hmissing⟩ := h
      have hne : x ≠ e := fun heq => by simp [← heq, hmissing] at ht
      obtain ⟨err, herr⟩ := ih ⟨x, (List.mem_cons.mp hx).resolve_left hne, hmissing⟩
      exact ⟨err, by rw [herr]; rfl⟩

lemma mergeEntries_get (entries : List BlockEntry) (key : Bytes) :
    (mergeEntries entries).get key = (entries.find? fun e => e.key = key).map (·.value) :=
  congrArg (Option.map BlockEntry.value) (find?_stableMerge entries fun _ => decide_eq_true_iff)

/-- The merge answers like the first of the files that has the key. -/
lemma merged_get (dir : Directory) (inputs : List SSTableEntry) (key : Bytes) :
    (merged dir inputs).get key = inputs.findSome? (dir.lookup key) := by
  rw [merged, mergeEntries_get, List.find?_flatMap, List.map_findSome?, findSome?_filterMap]
  rfl

lemma exists_input_of_mem_merged {dir : Directory} {inputs : List SSTableEntry} {x : BlockEntry}
    (h : x ∈ (merged dir inputs).entries) :
    ∃ e ∈ inputs, ∃ t, dir.tables e.fileName = some t ∧ x ∈ t.entries := by
  have hx := mem_of_mem_stableMerge h
  simp only [List.mem_flatMap, List.mem_filterMap] at hx
  obtain ⟨t, ⟨e, he, ht⟩, hx⟩ := hx
  exact ⟨e, he, t, ht, hx⟩

section

variable {m : Manifest} {dir : Directory} {level : ℕ}

lemma mergeOps_merged (m : Manifest) (targetLevel : ℕ) (inputs : List SSTableEntry)
    (t : SSTable) :
    Merged m targetLevel inputs (if m.numLevels - 1 ≤ targetLevel then t.dropTombstones else t)
      (mergeOps m targetLevel inputs t).1 (mergeOps m targetLevel inputs t).2.1 := by
  by_cases hempty : t.entries = []
  · simp only [mergeOps, if_pos hempty]
    refine .dropped le_rfl ?_
    split
    · simp [SSTable.dropTombstones, hempty]
    · exact hempty
  · simp only [mergeOps, if_neg hempty, Manifest.nextSstFilename]
    generalize (if m.numLevels - 1 ≤ targetLevel then t.dropTombstones else t) = kept
    split
    · next hfirst hlast => exact .written hfirst hlast
    · next hnone =>
      refine .dropped (Nat.le_succ _) ?_
      by_contra hne
      obtain ⟨first, hfirst⟩ := Option.ne_none_iff_exists'.mp (mt List.head?_eq_none_iff.mp hne)
      obtain ⟨last, hlast⟩ :=
        Option.ne_none_iff_exists'.mp (mt List.getLast?_eq_none_iff.mp hne)
      exact hnone first last hfirst hlast

/-- Only the table that is written is listed anew. -/
lemma Merged.mem_entries {targetLevel : ℕ} {inputs : List SSTableEntry} {kept : SSTable}
    {m' : Manifest} {ops : List FileOp} (h : Merged m targetLevel inputs kept m' ops)
    {e : SSTableEntry} (he : e ∈ m'.entries) :
    e ∈ m.entries ∨ .writeTable e.fileName kept ∈ ops := by
  cases h with
  | dropped => exact .inl (Manifest.mem_entries_of_removed he).1
  | written =>
    rcases Manifest.mem_entries_addSstable.mp he with he | rfl
    · exact .inl (Manifest.mem_entries_of_removed he).1
    · exact .inr List.mem_cons_self

lemma mem_entries_of_mem_inputs {minKey maxKey : Bytes} {e : SSTableEntry}
    (he : e ∈ inputs m level minKey maxKey) : e ∈ m.entries := by
  rcases List.mem_append.mp he with hsource | htarget
  · exact Manifest.mem_entries.mpr ⟨_, hsource⟩
  · exact Manifest.mem_entries.mpr ⟨_, List.mem_of_mem_filter htarget⟩

lemma covers_of_mem_inputs (hv : m.Sound dir) {minKey maxKey : Bytes} {e : SSTableEntry}
    (he : e ∈ inputs m level minKey maxKey) : e.Covers dir :=
  hv.covered e (mem_entries_of_mem_inputs he)

lemma range_cases (m : Manifest) (level : ℕ) :
    (m.level level = [] ∧ ((m.level level).map (·.minKey)).min? = none ∧
      ((m.level level).map (·.maxKey)).max? = none) ∨
    ∃ minKey maxKey, Spans m level minKey maxKey ∧
      ((m.level level).map (·.minKey)).min? = some minKey ∧
      ((m.level level).map (·.maxKey)).max? = some maxKey := by
  cases hmin : ((m.level level).map (·.minKey)).min? with
  | none =>
    rw [List.min?_eq_none_iff, List.map_eq_nil_iff] at hmin
    exact .inl ⟨hmin, rfl, by rw [hmin]; rfl⟩
  | some minKey =>
    cases hmax : ((m.level level).map (·.maxKey)).max? with
    | none =>
      rw [List.max?_eq_none_iff, List.map_eq_nil_iff] at hmax
      simp [hmax] at hmin
    | some maxKey =>
      obtain ⟨-, hlower⟩ := List.min?_eq_some_iff.mp hmin
      obtain ⟨-, hupper⟩ := List.max?_eq_some_iff.mp hmax
      exact .inr ⟨minKey, maxKey, fun e he =>
        ⟨hlower _ (List.mem_map_of_mem he), hupper _ (List.mem_map_of_mem he)⟩, rfl, rfl⟩

/-- What a compaction does: nothing on an empty level, and else it merges its inputs if all of them
can be read. -/
lemma compactOps_cases {ε : Type} (read : String → Except ε (List BlockEntry)) (m : Manifest)
    (level : ℕ) :
    (m.level level = [] ∧ compactOps read m level = .ok (m, [], ⟨[], []⟩)) ∨
    ∃ minKey maxKey, Spans m level minKey maxKey ∧
      compactOps read m level = do
        let tables ← (inputs m level minKey maxKey).mapM fun e => read e.fileName
        return mergeOps m (level + 1) (inputs m level minKey maxKey)
          (mergeEntries tables.flatten) := by
  rcases range_cases m level with ⟨hempty, hmin, hmax⟩ | ⟨minKey, maxKey, hrange, hmin, hmax⟩
  · exact .inl ⟨hempty, by simp only [compactOps, hmin, hmax]; rfl⟩
  · exact .inr ⟨minKey, maxKey, hrange, by simp only [compactOps, hmin, hmax]; rfl⟩

/-- Files that are read alike are merged alike. -/
lemma compactOps_mapError {ε ε' : Type} {read : String → Except ε (List BlockEntry)}
    {read' : String → Except ε' (List BlockEntry)} {f : ε → ε'} {m : Manifest}
    (h : ∀ e ∈ m.entries, read' e.fileName = (read e.fileName).mapError f) (level : ℕ) :
    compactOps read' m level = (compactOps read m level).mapError f := by
  rcases range_cases m level with ⟨-, hmin, hmax⟩ | ⟨minKey, maxKey, -, hmin, hmax⟩
  · simp only [compactOps, hmin, hmax]
    rfl
  · have hread : (inputs m level minKey maxKey).mapM (fun e => read' e.fileName) =
        ((inputs m level minKey maxKey).mapM fun e => read e.fileName).mapError f :=
      mapM_mapError fun e he => h e (mem_entries_of_mem_inputs he)
    simp only [compactOps, hmin, hmax]
    rw [inputs] at hread
    rw [hread]
    cases (m.level level ++ (m.level (level + 1)).filter (overlaps minKey maxKey)).mapM
      (fun e => read e.fileName) <;> rfl

section

variable {ε : Type} {read : String → Except ε (List BlockEntry)} {m' : Manifest} {ops : List FileOp}
  {result : CompactionResult} (h : compactOps read m level = .ok (m', ops, result))

include h

lemma merged_of_compactOps :
    (m' = m ∧ ops = []) ∨ ∃ minKey maxKey kept,
      Merged m (level + 1) (inputs m level minKey maxKey) kept m' ops := by
  rcases compactOps_cases read m level with ⟨-, heq⟩ | ⟨minKey, maxKey, -, heq⟩
  · obtain ⟨rfl, rfl, -⟩ : m = m' ∧ [] = ops ∧ _ := by simpa using heq.symm.trans h
    exact .inl ⟨rfl, rfl⟩
  · obtain ⟨tables, -, h⟩ := bind_eq_ok_iff.mp (heq.symm.trans h)
    have hmerged := mergeOps_merged m (level + 1) (inputs m level minKey maxKey)
      (mergeEntries tables.flatten)
    rw [Except.ok.inj h] at hmerged
    exact .inr ⟨minKey, maxKey, _, hmerged⟩

/-- Only files that are written are listed anew. -/
lemma mem_entries_of_compactOps {e : SSTableEntry} (he : e ∈ m'.entries) :
    e ∈ m.entries ∨ ∃ t, FileOp.writeTable e.fileName t ∈ ops := by
  rcases merged_of_compactOps h with ⟨rfl, -⟩ | ⟨minKey, maxKey, kept, hmerged⟩
  · exact .inl he
  · exact (hmerged.mem_entries he).imp_right fun hmem => ⟨kept, hmem⟩

end

/-- The files of a directory can be read if none is missing. -/
lemma compact_cases (m : Manifest) (dir : Directory) (level : ℕ) :
    (m.level level = [] ∧ compact m dir level = .ok (m, dir, ⟨[], []⟩)) ∨
    ∃ minKey maxKey, Spans m level minKey maxKey ∧
      (((∃ e ∈ inputs m level minKey maxKey, dir.tables e.fileName = none) ∧
          ∃ err, compact m dir level = .error err) ∨
        ((∀ e ∈ inputs m level minKey maxKey, dir.tables e.fileName ≠ none) ∧
          ∃ m' dir' result, compact m dir level = .ok (m', dir', result) ∧
            Performed m dir level minKey maxKey m' dir')) := by
  rcases compactOps_cases dir.readTable m level with ⟨hempty, heq⟩ | ⟨minKey, maxKey, hrange, heq⟩
  · exact .inl ⟨hempty, by rw [compact, heq]; rfl⟩
  · refine .inr ⟨minKey, maxKey, hrange, ?_⟩
    rw [compact, heq]
    by_cases hmissing : ∃ e ∈ inputs m level minKey maxKey, dir.tables e.fileName = none
    · obtain ⟨err, herr⟩ := mapM_readTable_of_missing hmissing
      exact .inl ⟨hmissing, err, by rw [herr]; rfl⟩
    · have hpresent : ∀ e ∈ inputs m level minKey maxKey, dir.tables e.fileName ≠ none :=
        fun e he hnone => hmissing ⟨e, he, hnone⟩
      exact .inr ⟨hpresent, _, _, _, by rw [mapM_readTable hpresent]; rfl, _, rfl,
        mergeOps_merged m (level + 1) (inputs m level minKey maxKey) _⟩

/-! ### What stays -/

section

variable {minKey maxKey : Bytes} {m' : Manifest} {dir' : Directory} (hv : m.Sound dir)

include hv

/-- Numbers identify entries. -/
lemma mem_ids_iff {e : SSTableEntry} (he : e ∈ m.entries) :
    e.id ∈ (inputs m level minKey maxKey).map (·.id) ↔ e ∈ inputs m level minKey maxKey := by
  constructor
  · intro hid
    obtain ⟨x, hx, hxe⟩ := List.mem_map.mp hid
    rwa [← hv.id_inj x (mem_entries_of_mem_inputs hx) e he hxe]
  · exact fun h => List.mem_map_of_mem h

lemma mem_inputs_iff {i : ℕ} {e : SSTableEntry} (he : e ∈ m.level i) :
    e ∈ inputs m level minKey maxKey ↔ i = level ∨ (i = level + 1 ∧ overlaps minKey maxKey e) := by
  rw [inputs, List.mem_append, List.mem_filter]
  constructor
  · rintro (hsource | ⟨htarget, hover⟩)
    · exact .inl ((hv.level_eq i e he).symm.trans (hv.level_eq _ e hsource))
    · exact .inr ⟨(hv.level_eq i e he).symm.trans (hv.level_eq _ e htarget), hover⟩
  · rintro (rfl | ⟨rfl, hover⟩)
    · exact .inl he
    · exact .inr ⟨he, hover⟩

/-- Of the level nothing stays, of the next level what does not overlap, of the others all. -/
lemma level_removed (i : ℕ) :
    (others m level minKey maxKey).level i =
      if i = level then []
      else if i = level + 1 then (m.level i).filter (fun e => !overlaps minKey maxKey e)
      else m.level i := by
  have hmem : ∀ e ∈ m.level i, e.id ∉ (inputs m level minKey maxKey).map (·.id) ↔
      ¬ (i = level ∨ (i = level + 1 ∧ overlaps minKey maxKey e)) := by
    intro e he
    rw [mem_ids_iff hv (Manifest.mem_entries.mpr ⟨i, he⟩), mem_inputs_iff hv he]
  rw [others, Manifest.removeSstables_level]
  split
  · next hi =>
    apply List.filter_eq_nil_iff.mpr
    intro e he
    simpa [hi] using (hmem e he).not
  · next hi =>
    split
    · next hi' =>
      apply List.filter_congr
      intro e he
      rw [Bool.eq_iff_iff]
      simpa [hi, hi'] using hmem e he
    · next hi' =>
      apply List.filter_eq_self.mpr
      intro e he
      simpa [hi, hi'] using hmem e he

lemma level_removed_target :
    (others m level minKey maxKey).level (level + 1) =
      (m.level (level + 1)).filter fun e => !overlaps minKey maxKey e := by
  rw [level_removed hv, if_neg (Nat.succ_ne_self level), if_pos rfl]

/-- Deleting the inputs and writing the output leaves the other listed files as they are. -/
lemma Performed.tables_of_kept (h : Performed m dir level minKey maxKey m' dir')
    {e : SSTableEntry} (he : e ∈ (others m level minKey maxKey).entries) :
    dir'.tables e.fileName = dir.tables e.fileName := by
  obtain ⟨he, hid⟩ := Manifest.mem_entries_of_removed he
  have hnew := hv.fileName_ne le_rfl he
  have hold : e.fileName ∉ (inputs m level minKey maxKey).map (·.fileName) := by
    intro h
    obtain ⟨x, hx, hxe⟩ := List.mem_map.mp h
    rw [(covers_of_mem_inputs hv hx).fileName, (hv.covered e he).fileName] at hxe
    exact hid (sstName_injective hxe ▸ List.mem_map_of_mem hx)
  obtain ⟨ops, rfl, hmerged⟩ := h
  cases hmerged with
  | dropped => rfl
  | written =>
    rw [List.foldl_cons, FileOp.foldl_apply_removeTable]
    simp only [FileOp.apply, Directory.removeTables, Directory.writeTable, if_neg hold, if_neg hnew]

/-- The new file is not one of the inputs. -/
lemma tables_of_written {t : SSTable} :
    ((FileOp.writeTable (sstName m.nextSstId) t :: (inputs m level minKey maxKey).map fun e =>
      .removeTable e.fileName).foldl FileOp.apply dir).tables (sstName m.nextSstId) = some t := by
  have hnew : sstName m.nextSstId ∉ (inputs m level minKey maxKey).map (·.fileName) := by
    intro h
    obtain ⟨x, hx, hxe⟩ := List.mem_map.mp h
    exact hv.fileName_ne le_rfl (mem_entries_of_mem_inputs hx) hxe
  rw [List.foldl_cons, FileOp.foldl_apply_removeTable]
  simp only [FileOp.apply, Directory.removeTables, Directory.writeTable, if_neg hnew, if_pos]

/-! ### The merged range -/

/-- A merged key lies in the range of the level, or in that of an overlapping entry of the next
level. -/
lemma key_cases {x : BlockEntry}
    (hrange : Spans m level minKey maxKey)
    (hx : x ∈ (output m dir level minKey maxKey).entries) :
    (minKey ≤ x.key ∧ x.key ≤ maxKey) ∨
    ∃ e ∈ m.level (level + 1), overlaps minKey maxKey e ∧ e.minKey ≤ x.key ∧ x.key ≤ e.maxKey := by
  have hmerged : x ∈ (merged dir (inputs m level minKey maxKey)).entries := by
    rw [output] at hx
    split at hx
    · exact List.mem_of_mem_filter hx
    · exact hx
  obtain ⟨e, he, t, ht, hxt⟩ := exists_input_of_mem_merged hmerged
  obtain ⟨hmin, hmax⟩ := (covers_of_mem_inputs hv he).range t ht x hxt
  rcases List.mem_append.mp he with hsource | htarget
  · exact .inl ⟨(hrange e hsource).1.trans hmin, hmax.trans (hrange e hsource).2⟩
  · exact .inr ⟨e, List.mem_of_mem_filter htarget, (List.mem_filter.mp htarget).2, hmin, hmax⟩

/-- An entry of the next level that does not overlap the range of the level is apart from the
output: the ranges that were merged form an interval, and it meets none of them. -/
lemma apart_of_kept (hrange : Spans m level minKey maxKey)
    {r new : SSTableEntry} (hr : r ∈ m.level (level + 1)) (hover : ¬ overlaps minKey maxKey r)
    {first last : BlockEntry}
    (hfirst : first ∈ (output m dir level minKey maxKey).entries)
    (hlast : last ∈ (output m dir level minKey maxKey).entries)
    (hmin : new.minKey = first.key) (hmax : new.maxKey = last.key) : r.Apart new := by
  have hrr := (hv.covers hr).minKey_le_maxKey
  have hapart : ∀ e ∈ m.level (level + 1), overlaps minKey maxKey e → r.Apart e := by
    intro e he heover
    have hne : r ≠ e := fun h => hover (h ▸ heover)
    exact (hv.apart _ (Nat.succ_pos level)).forall hr he hne
  rw [overlaps_iff, not_and_or, not_le, not_le] at hover
  rw [SSTableEntry.Apart, hmin, hmax]
  rcases hover with habove | hbelow
  · -- `r` is above the range of the level, and so above what the last key comes from
    right
    rcases key_cases hv hrange hlast with ⟨-, hle⟩ | ⟨e, he, heover, -, hle⟩
    · exact hle.trans_lt habove
    · have hemin : e.minKey ≤ maxKey := (overlaps_iff.mp heover).1
      rcases hapart e he heover with hlt | hlt
      · exact absurd (hrr.trans_lt (hlt.trans_le hemin)) habove.not_gt
      · exact hle.trans_lt hlt
  · left
    rcases key_cases hv hrange hfirst with ⟨hle, -⟩ | ⟨e, he, heover, hle, -⟩
    · exact hbelow.trans_le hle
    · have hemax : minKey ≤ e.maxKey := (overlaps_iff.mp heover).2
      rcases hapart e he heover with hlt | hlt
      · exact hlt.trans_le hle
      · exact absurd (hemax.trans_lt (hlt.trans_le hrr)) hbelow.not_gt

/-! ### The result -/

lemma Performed.sound (hlevel : level + 1 < m.numLevels)
    (hrange : Spans m level minKey maxKey)
    (h : Performed m dir level minKey maxKey m' dir') : m'.Sound dir' := by
  have htables := fun e he => h.tables_of_kept (e := e) hv he
  obtain ⟨ops, rfl, hmerged⟩ := h
  cases hmerged with
  | dropped hnext hempty => exact (hv.skip hnext).removeSstables _
  | @written first last hfirst hlast =>
    have hkept := (hv.skip (Nat.le_succ _)).removeSstables
      ((inputs m level minKey maxKey).map (·.id))
    have hkept := hkept.of_tables fun e he t ht => (htables e he).symm.trans ht
    apply hkept.addSstable
    · rw [Manifest.removeSstables_numLevels]
      exact hlevel
    · exact Nat.lt_succ_self _
    · intro x hx
      exact hv.id_lt x (Manifest.mem_entries_of_removed hx).1
    · refine ⟨rfl, (SSTable.key_mem_range hfirst hlast (List.mem_of_head? hfirst)).2, ?_⟩
      intro t ht
      obtain rfl := Option.some.inj ((tables_of_written hv).symm.trans ht)
      exact fun x hx => SSTable.key_mem_range hfirst hlast hx
    · intro _ r hr
      change r ∈ (others m level minKey maxKey).level
        (level + 1) at hr
      rw [level_removed_target hv, List.mem_filter, Bool.not_eq_true'] at hr
      exact apart_of_kept hv hrange hr.1 (by rw [hr.2]; decide) (List.mem_of_head? hfirst)
        (List.mem_of_getLast? hlast) rfl rfl

/-- No file goes missing. -/
lemma Performed.present (hpresent : m.Present dir)
    (h : Performed m dir level minKey maxKey m' dir') : m'.Present dir' := by
  intro e he
  have htables := fun he => h.tables_of_kept (e := e) hv he
  obtain ⟨ops, rfl, hmerged⟩ := h
  cases hmerged with
  | dropped hnext hempty => exact hpresent e (Manifest.mem_entries_of_removed he).1
  | @written first last hfirst hlast =>
    rcases Manifest.mem_entries_addSstable.mp he with hold | rfl
    · rw [htables hold]
      exact hpresent e (Manifest.mem_entries_of_removed hold).1
    · exact ⟨_, tables_of_written hv, List.ne_nil_of_mem (List.mem_of_head? hfirst)⟩

omit hv in
lemma Performed.numLevels_eq (hlevel : level + 1 < m.numLevels)
    (h : Performed m dir level minKey maxKey m' dir') :
    m'.numLevels = m.numLevels := by
  obtain ⟨ops, -, hmerged⟩ := h
  cases hmerged with
  | dropped => rw [Manifest.removeSstables_numLevels]; rfl
  | written =>
    rw [Manifest.addSstable_numLevels] <;> rw [Manifest.removeSstables_numLevels]
    · rfl
    · exact hlevel

lemma Performed.lookup_kept (h : Performed m dir level minKey maxKey m' dir')
    (key : Bytes) {i : ℕ} {e : SSTableEntry}
    (he : e ∈ (others m level minKey maxKey).level i) :
    dir'.lookup key e = dir.lookup key e := by
  rw [Directory.lookup, h.tables_of_kept hv (Manifest.mem_entries.mpr ⟨i, he⟩), Directory.lookup]

/-- Every level keeps its versions, less those of the inputs; the target level gains the
output. -/
lemma Performed.versions_eq (hlevel : level + 1 < m.numLevels)
    (h : Performed m dir level minKey maxKey m' dir') (key : Bytes) (i : ℕ) :
    m'.versions dir' key i =
      (others m level minKey maxKey).versions dir key i ++
        if i = level + 1 then ((output m dir level minKey maxKey).get key).toList
        else [] := by
  have hkept : ((others m level minKey maxKey).level i).filterMap
      (dir'.lookup key) = (others m level minKey maxKey).versions
        dir key i :=
    List.filterMap_congr fun e he => h.lookup_kept hv key he
  obtain ⟨ops, rfl, hmerged⟩ := h
  cases hmerged with
  | dropped hnext hempty =>
    have hnone : (output m dir level minKey maxKey).get key = none := by
      rw [SSTable.get, hempty]
      rfl
    rw [hnone, Option.toList_none, ite_self, List.append_nil]
    rfl
  | @written first last hfirst hlast =>
    rw [Manifest.versions, Manifest.addSstable_level]
    · split
      · rw [List.filterMap_append, List.filterMap_cons, List.filterMap_nil, Directory.lookup,
          tables_of_written hv, Option.bind_some]
        congr 1
      · rw [List.append_nil]
        exact hkept
    · rw [Manifest.removeSstables_numLevels]
      exact hlevel

lemma Performed.versions_of_ne (hlevel : level + 1 < m.numLevels)
    (h : Performed m dir level minKey maxKey m' dir') (key : Bytes) {i : ℕ}
    (hi : i ≠ level + 1) :
    m'.versions dir' key i = if i = level then [] else m.versions dir key i := by
  rw [h.versions_eq hv hlevel, if_neg hi, List.append_nil, Manifest.versions, level_removed hv,
    if_neg hi]
  split <;> rfl

/-! ### Reading the target level -/

/-- The entries of the next level that the compaction leaves. -/
lemma versions_removed_target (key : Bytes) :
    (others m level minKey maxKey).versions dir key (level + 1) =
      ((m.level (level + 1)).filter fun e => !overlaps minKey maxKey e).filterMap
        (dir.lookup key) := by
  rw [Manifest.versions, level_removed_target hv]

omit hv in
lemma merged_inputs_get (key : Bytes) :
    (merged dir (inputs m level minKey maxKey)).get key =
      (m.versions dir key level).head?.or
        (((m.level (level + 1)).filter (overlaps minKey maxKey)).findSome? (dir.lookup key)) := by
  rw [merged_get, inputs, List.findSome?_append, Manifest.versions, List.head?_filterMap]

/-- A key that the level has is in none of the files of the next level that stay. -/
lemma kept_none_of_source (hrange : Spans m level minKey maxKey)
    {key : Bytes} {v : Option Bytes} (hhead : (m.versions dir key level).head? = some v) :
    ((m.level (level + 1)).filter fun e => !overlaps minKey maxKey e).findSome?
      (dir.lookup key) = none := by
  rw [Manifest.versions, List.head?_filterMap] at hhead
  obtain ⟨e, he, hv'⟩ := List.exists_of_findSome?_eq_some hhead
  obtain ⟨hmin, hmax⟩ := (hv.covers he).mem_range hv'
  obtain ⟨hlower, hupper⟩ := hrange e he
  apply List.findSome?_eq_none_iff.mpr
  intro r hr
  obtain ⟨hr, hover⟩ := List.mem_filter.mp hr
  rw [Bool.not_eq_true', ← Bool.not_eq_true, overlaps_iff, not_and_or, not_le, not_le] at hover
  apply (hv.covers hr).lookup_of_lt
  rcases hover with hlt | hlt
  · exact .inl ((hmax.trans hupper).trans_lt hlt)
  · exact .inr (hlt.trans_le (hlower.trans hmin))

omit hv in
/-- Dropping a tombstone shows what was asked after it. If that is nothing, the outcome is the
same. -/
lemma or_filter_join {a b c : Option (Option Bytes)} (ha : ∀ v, a = some v → c = none)
    (hb : ∀ v, b = some v → c = none) :
    ((((a.or b).filter Option.isSome).toList.getLast?.or c).or none).join =
      (a.or ((b.or c).or none)).join := by
  rcases a with _ | v
  · rcases b with _ | w
    · cases c <;> rfl
    · rw [hb w rfl]
      cases w <;> rfl
  · rw [ha v rfl]
    cases v <;> rfl

/-- The target level, and what is below it, now answers as the oldest version on the level and
then the target level did before. Tombstones are dropped only where nothing is below. -/
lemma Performed.read_target (hlevel : level + 1 < m.numLevels)
    (hrange : Spans m level minKey maxKey)
    (h : Performed m dir level minKey maxKey m' dir') (key : Bytes)
    {below : Option (Option Bytes)} (hbelow : m.numLevels - 1 ≤ level + 1 → below = none) :
    ((m'.versions dir' key (level + 1)).getLast?.or below).join =
      ((m.versions dir key level).head?.or
        ((m.versions dir key (level + 1)).getLast?.or below)).join := by
  have hhit := hv.atMostOneHit (Nat.succ_pos level) key
  have hkept : (((m.level (level + 1)).filter fun e => !overlaps minKey maxKey e).filterMap
      (dir.lookup key)).getLast? =
        ((m.level (level + 1)).filter fun e => !overlaps minKey maxKey e).findSome?
          (dir.lookup key) := by
    rw [List.getLast?_filterMap]
    exact AtMostOneHit.findSome?_reverse (hhit.sublist List.filter_sublist)
  have hsource : ∀ v, (m.versions dir key level).head? = some v → _ :=
    fun v => kept_none_of_source hv hrange
  have htarget : ∀ v, ((m.level (level + 1)).filter (overlaps minKey maxKey)).findSome?
      (dir.lookup key) = some v → _ := fun v => hhit.of_filter_hit
  rw [h.versions_eq hv hlevel, if_pos rfl, List.getLast?_append, versions_removed_target hv, hkept,
    hv.versions_getLast? (Nat.succ_pos level), hhit.findSome?_partition (overlaps minKey maxKey)]
  rw [output]
  split
  · next hdeep =>
    rw [hbelow hdeep, SSTable.get_dropTombstones, merged_inputs_get]
    exact or_filter_join hsource htarget
  · rw [merged_inputs_get]
    cases (m.versions dir key level).head? <;>
      cases ((m.level (level + 1)).filter (overlaps minKey maxKey)).findSome? (dir.lookup key) <;>
        rfl

end

end

end LeveledCompaction

end Raftrust.Storage

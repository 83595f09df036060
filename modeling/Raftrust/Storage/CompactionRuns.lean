import Mathlib.Order.CompletePartialOrder
import Mathlib.Order.Interval.Set.Disjoint
import Raftrust.Storage.ReadAgreement

/-!
# Flushes and compactions over files

In every state that a run reaches whose tables fit into their files, the files are intact and the
tables in them are consistent with the manifest. What compaction does to tables it then does to
files, and the ranges that the manifest gives are those of the files. A key that is too long for its
length field is read back outside the range of its file.
-/

namespace Raftrust.Storage

open Lib

namespace Manifest.Valid

variable {m : Manifest} {dir : Directory}

/-- No number is listed twice. -/
lemma nodup_ids (h : m.Valid dir) : (m.entries.map (·.id)).Nodup := by
  rw [List.Nodup, List.pairwise_map, entries, List.pairwise_flatten, m.levels_eq_map]
  constructor
  · intro l hl
    obtain ⟨i, -, rfl⟩ := List.mem_map.mp hl
    exact (h.ordered i).imp fun hlt => hlt.ne
  · rw [List.pairwise_map]
    refine List.pairwise_lt_range.imp fun {i j} hij e he e' he' heq => hij.ne ?_
    -- an entry on two levels would name both
    have hee := h.id_inj e (mem_entries.mpr ⟨i, he⟩) e' (mem_entries.mpr ⟨j, he'⟩) heq
    rw [← h.level_eq i e he, ← h.level_eq j e' he', hee]

end Manifest.Valid

lemma SSTableEntry.Apart.disjoint {e e' : SSTableEntry} (h : e.Apart e') :
    Disjoint (Set.Icc e.minKey e.maxKey) (Set.Icc e'.minKey e'.maxKey) := by
  rw [Set.disjoint_left]
  rintro key ⟨hmin, hmax⟩ ⟨hmin', hmax'⟩
  rcases h with hlt | hlt
  · exact absurd (hmin'.trans hmax) (not_le.mpr hlt)
  · exact absurd (hmin.trans hmax') (not_le.mpr hlt)

namespace FileTree

section

variable [BloomHash] [Crc32] {config : FileConfig} {ops : List Op} {f : FileTree}

/-- The files are intact, and the tables in them are consistent with the manifest. -/
structure Sound (f : FileTree) : Prop where
  intact : f.Intact
  consistent : f.decode.Consistent

lemma Sound.execute (h : f.Sound) {op : Op} (hop : f.Bounded op) {f' : FileTree}
    (hok : f.execute op = .ok f') : f'.Sound := by
  rcases (h.intact.execute hop).cases with ⟨f'', s', hf'', hs', hrep⟩ | ⟨e, herr, -⟩
  · obtain rfl := Except.ok.inj (hok.symm.trans hf'')
    exact ⟨hrep.intact, hrep.decode ▸ h.consistent.execute hs'⟩
  · cases hok.symm.trans herr

lemma sound_of_run (hbounded : AlongOk execute Bounded (create config) ops)
    (hf : run config ops = .ok f) : f.Sound := by
  rw [run, openDir_empty] at hf
  exact hbounded.foldlM_invariant (fun _ _ _ h hop hok => h.execute hop hok)
    ⟨intact_create config, consistent_create config⟩ hf

/-! ### Content -/

/-- **Compaction and content.** In every state that is reached by steps whose tables fit into their
files, that of the compaction included, compaction succeeds, and it leaves all reads unchanged
exactly if level 0 is settled. -/
theorem maybeCompact_get_eq_iff
    (hbounded : AlongOk execute Bounded (create config) (ops ++ [.maybeCompact]))
    (hf : run config ops = .ok f) :
    ∃ f', f.maybeCompact = .ok f' ∧
      ((∀ key, f'.get key = f.get key) ↔ f.decode.LevelZeroSettled) := by
  obtain ⟨hintact, hconsistent⟩ := sound_of_run hbounded.of_append hf
  rw [run, openDir_empty] at hf
  have hagree := hintact.maybeCompact (hbounded.last hf)
  obtain ⟨s', hs', hiff⟩ := hconsistent.maybeCompact_get_iff
  rw [hs'] at hagree
  rcases hagree.cases with ⟨f', s'', hf', hs'', hrep⟩ | ⟨e, -, herr⟩
  · obtain rfl : s' = s'' := Except.ok.inj hs''
    refine ⟨f', hf', hiff.symm.trans ?_ |>.symm⟩
    simp only [hrep.intact.get, hintact.get, hrep.decode, Except.ok.injEq]
  · cases herr

end

/-- Two keys, flushed to two files of level 0. -/
def twoKeys : List Op :=
  [.put [1] [10], .flush, .put [2] [20], .flush]

/-- Two files that share no key are merged without loss. -/
theorem maybeCompact_get_eq_twoKeys :
    letI := BloomHash.sip
    letI := Crc32.ieee
    ∃ f f', run mergeConfig twoKeys = .ok f ∧
      f.config.compaction.needsCompaction f.manifest = some 0 ∧ f.maybeCompact = .ok f' ∧
      ∀ key, f'.get key = f.get key := by
  have hrun : letI := BloomHash.sip; letI := Crc32.ieee
      (run mergeConfig twoKeys).toOption.map (fun f =>
        (f.config.compaction.needsCompaction f.manifest, f.decode.manifest.level 0,
          f.decode.dir.tables "00000000.sst", f.decode.dir.tables "00000001.sst")) =
        some (some 0, [⟨0, 0, "00000000.sst", [1], [1]⟩, ⟨1, 0, "00000001.sst", [2], [2]⟩],
          some ⟨[⟨[1], some [10]⟩], by decide⟩, some ⟨[⟨[2], some [20]⟩], by decide⟩) := by
    decide +kernel
  have hbounded : letI := BloomHash.sip; letI := Crc32.ieee
      AlongOk execute Bounded (create mergeConfig) (twoKeys ++ [.maybeCompact]) := by
    decide +kernel
  let _ := BloomHash.sip
  let _ := Crc32.ieee
  cases hf : run mergeConfig twoKeys with
  | error e => simp [hf, Except.toOption] at hrun
  | ok f =>
    simp only [hf, Except.toOption, Option.map_some, Option.some.injEq, Prod.mk.injEq] at hrun
    obtain ⟨hneeds, hlevel, hfirst, hsecond⟩ := hrun
    obtain ⟨f', hcompact, hiff⟩ := maybeCompact_get_eq_iff hbounded hf
    refine ⟨f, f', rfl, hneeds, hcompact, hiff.mpr fun _ key _ => ?_⟩
    by_cases h1 : [1] = key
    · subst h1
      simp [Manifest.versions, Directory.lookup, SSTable.get, hlevel, hfirst, hsecond]
    · by_cases h2 : [2] = key <;>
        simp [Manifest.versions, Directory.lookup, SSTable.get, hlevel, hfirst, hsecond, h1, h2]

/-- Four versions of one key, flushed to four files of level 0. -/
def fourVersions : List Op :=
  [.put [107] [1], .flush, .put [107] [2], .flush, .put [107] [3], .flush, .put [107] [4], .flush]

/-- With the default configuration compaction brings the first of the four back. -/
theorem fourVersions_compacted :
    letI := BloomHash.sip
    letI := Crc32.ieee
    ((run .default fourVersions).toOption.map fun f =>
      ((f.get [107]).toOption, (f.maybeCompact >>= (·.get [107])).toOption)) =
        some (some (some [4]), some (some [1])) := by
  decide +kernel

/-! ### Structure -/

section

variable [BloomHash] [Crc32] {config : FileConfig} {ops : List Op} {f : FileTree}

/-- **Structure of the manifest.** In every state that is reached by steps whose tables fit into
their files, numbers are unique and below the next one, every entry is on the level it names, level
0 is listed by increasing numbers, the keys of a file are in the range of its entry, and from level
1 on the ranges of a level are disjoint. -/
theorem manifest_structure (hbounded : AlongOk execute Bounded (create config) ops)
    (hf : run config ops = .ok f) :
    (f.manifest.entries.map (·.id)).Nodup ∧
      (∀ e ∈ f.manifest.entries, e.id < f.manifest.nextSstId) ∧
      (∀ i, ∀ e ∈ f.manifest.level i, e.level = i) ∧
      (f.manifest.level 0).Pairwise (fun e e' => e.id < e'.id) ∧
      (∀ e ∈ f.manifest.entries, ∃ es, f.dir.readTable e.fileName = .ok es ∧
        ∀ x ∈ es, x.key ∈ Set.Icc e.minKey e.maxKey) ∧
      ∀ i, 1 ≤ i → (f.manifest.level i).Pairwise fun e e' =>
        Disjoint (Set.Icc e.minKey e.maxKey) (Set.Icc e'.minKey e'.maxKey) := by
  obtain ⟨hintact, hconsistent⟩ := sound_of_run hbounded hf
  have hvalid : f.manifest.Valid f.dir.decode := hconsistent.valid
  refine ⟨hvalid.nodup_ids, hvalid.id_lt, hvalid.level_eq, hvalid.ordered 0, ?_, ?_⟩
  · intro e he
    obtain ⟨t, ht, -⟩ := hvalid.present e he
    refine ⟨t.entries, ?_, (hvalid.covered e he).range t ht⟩
    rw [(hintact.listed e he).readTable, Directory.readTable, ht]
    rfl
  · exact fun i hi => (hvalid.apart i hi).imp fun hapart => hapart.disjoint

/-- The empty key is read back from a file whose keys start with `[1]`. -/
lemma readTable_longPuts {n : ℕ} (hmod : (n + 1) % 2 ^ 32 = 0)
    (hfull : FileConfig.default.memtableSizeLimit ≤ n) (hlt : n < 2 ^ 33) :
    ∃ f, run .default (longPuts n) = .ok f ∧ ∃ e ∈ f.manifest.entries, ∃ es x,
      f.dir.readTable e.fileName = .ok es ∧ x ∈ es ∧ x.key ∉ Set.Icc e.minKey e.maxKey := by
  obtain ⟨f, hrun, -, -, e, -, he, hmin, hfile⟩ := run_longPuts hfull hlt
  refine ⟨f, hrun, e, he, cutEntries, ⟨[], some []⟩, ?_, by simp [cutEntries], fun hmem => ?_⟩
  · rw [Files.readTable, Files.openTable, hfile]
    simp only [openBytes_longReader hlt, bind, Except.bind, iter_longReader hmod hlt]
  · exact absurd hmem.1 (by rw [hmin]; decide)

end

/-- Two files of one key each. -/
theorem manifest_structure_twoKeys :
    letI := BloomHash.sip
    letI := Crc32.ieee
    ∃ f, run mergeConfig twoKeys = .ok f ∧ (f.manifest.entries.map (·.id)).Nodup ∧
      ∀ e ∈ f.manifest.entries, ∃ es, f.dir.readTable e.fileName = .ok es ∧
        ∀ x ∈ es, x.key ∈ Set.Icc e.minKey e.maxKey := by
  have hrun : letI := BloomHash.sip; letI := Crc32.ieee
      (run mergeConfig twoKeys).toOption.isSome := by
    decide +kernel
  have hbounded : letI := BloomHash.sip; letI := Crc32.ieee
      AlongOk execute Bounded (create mergeConfig) twoKeys := by
    decide +kernel
  let _ := BloomHash.sip
  let _ := Crc32.ieee
  cases hf : run mergeConfig twoKeys with
  | error e => simp [hf, Except.toOption] at hrun
  | ok f =>
    have hstructure := manifest_structure hbounded hf
    exact ⟨f, rfl, hstructure.1, hstructure.2.2.2.2.1⟩

/-- A key of 2³² bytes is flushed as the empty key, which is not in the range of the file. -/
theorem longKey_read_outside :
    letI := BloomHash.sip
    letI := Crc32.ieee
    ∃ f, run .default (longPuts (2 ^ 32 - 1)) = .ok f ∧ ∃ e ∈ f.manifest.entries, ∃ es x,
      f.dir.readTable e.fileName = .ok es ∧ x ∈ es ∧ x.key ∉ Set.Icc e.minKey e.maxKey := by
  let _ := BloomHash.sip
  let _ := Crc32.ieee
  exact readTable_longPuts (by decide) (by decide) (by decide)

end FileTree

end Raftrust.Storage

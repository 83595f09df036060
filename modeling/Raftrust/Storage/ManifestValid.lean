import Raftrust.Storage.Compaction

/-!
# Valid manifests

What holds of a manifest and its files between operations: every listed file exists, is named
after its number and holds keys of the listed range; numbers are unique, below the next one and
increase in every level; and from level 1 on the key ranges of a level do not meet. A manifest of
which only files are missing is still sound. Flushing adds an entry to level 0; compaction removes
entries and adds one to the target level.
-/

namespace Raftrust.Storage

open Lib

/-- The keys of the entry's file, if it is there, are in the range of the entry. -/
structure SSTableEntry.Covers (e : SSTableEntry) (dir : Directory) : Prop where
  fileName : e.fileName = sstName e.id
  minKey_le_maxKey : e.minKey ≤ e.maxKey
  range : ∀ t, dir.tables e.fileName = some t → ∀ x ∈ t.entries, e.minKey ≤ x.key ∧ x.key ≤ e.maxKey

/-- The key ranges of the entries do not meet. -/
def SSTableEntry.Apart (e e' : SSTableEntry) : Prop :=
  e.maxKey < e'.minKey ∨ e'.maxKey < e.minKey

/-- Files that are listed may be missing. -/
structure Manifest.Sound (m : Manifest) (dir : Directory) : Prop where
  level_eq : ∀ i, ∀ e ∈ m.level i, e.level = i
  id_lt : ∀ e ∈ m.entries, e.id < m.nextSstId
  id_inj : ∀ e ∈ m.entries, ∀ e' ∈ m.entries, e.id = e'.id → e = e'
  ordered : ∀ i, (m.level i).Pairwise fun e e' => e.id < e'.id
  covered : ∀ e ∈ m.entries, e.Covers dir
  apart : ∀ i, 0 < i → (m.level i).Pairwise SSTableEntry.Apart

/-- No listed file is missing or empty. -/
def Manifest.Present (m : Manifest) (dir : Directory) : Prop :=
  ∀ e ∈ m.entries, ∃ t, dir.tables e.fileName = some t ∧ t.entries ≠ []

structure Manifest.Valid (m : Manifest) (dir : Directory) : Prop
    extends sound : m.Sound dir where
  present : m.Present dir

/-- What the file of an entry says about a key. -/
def Directory.lookup (dir : Directory) (key : Bytes) (e : SSTableEntry) : Option (Option Bytes) :=
  (dir.tables e.fileName).bind (·.get key)

/-- The versions of a key in the files of a level, oldest first. -/
def Manifest.versions (m : Manifest) (dir : Directory) (key : Bytes) (i : ℕ) :
    List (Option Bytes) :=
  (m.level i).filterMap (dir.lookup key)

namespace SSTableEntry

variable {e e' : SSTableEntry} {dir dir' : Directory} {key : Bytes}

instance : Std.Symm Apart := ⟨fun _ _ => Or.symm⟩

lemma Covers.of_tables (h : e.Covers dir)
    (htables : ∀ t, dir'.tables e.fileName = some t → dir.tables e.fileName = some t) :
    e.Covers dir' :=
  ⟨h.fileName, h.minKey_le_maxKey, fun t ht => h.range t (htables t ht)⟩

lemma Covers.mem_range (h : e.Covers dir) {v : Option Bytes}
    (hv : dir.lookup key e = some v) : e.minKey ≤ key ∧ key ≤ e.maxKey := by
  obtain ⟨t, ht, hv⟩ := Option.bind_eq_some_iff.mp hv
  obtain ⟨x, hx, rfl⟩ := SSTable.exists_mem_of_get hv
  exact h.range t ht x hx

lemma Covers.lookup_of_lt (h : e.Covers dir) (hkey : key < e.minKey ∨ e.maxKey < key) :
    dir.lookup key e = none := by
  by_contra hne
  obtain ⟨v, hv⟩ := Option.ne_none_iff_exists'.mp hne
  obtain ⟨hmin, hmax⟩ := h.mem_range hv
  rcases hkey with hlt | hlt
  · exact absurd hmin (not_le.mpr hlt)
  · exact absurd hmax (not_le.mpr hlt)

/-- Of two entries whose ranges do not meet at most one has the key. -/
lemma Apart.lookup (h : e.Apart e') (he : e.Covers dir) (he' : e'.Covers dir) :
    dir.lookup key e = none ∨ dir.lookup key e' = none := by
  by_contra hboth
  obtain ⟨hne, hne'⟩ := not_or.mp hboth
  obtain ⟨v, hv⟩ := Option.ne_none_iff_exists'.mp hne
  obtain ⟨v', hv'⟩ := Option.ne_none_iff_exists'.mp hne'
  obtain ⟨hmin, hmax⟩ := he.mem_range hv
  obtain ⟨hmin', hmax'⟩ := he'.mem_range hv'
  rcases h with hlt | hlt
  · exact absurd (hmin'.trans hmax) (not_le.mpr hlt)
  · exact absurd (hmin.trans hmax') (not_le.mpr hlt)

end SSTableEntry

/-- The range of a table that is not empty is spanned by its first and last key. -/
lemma SSTable.key_mem_range {t : SSTable} {first last x : BlockEntry}
    (hfirst : t.entries.head? = some first) (hlast : t.entries.getLast? = some last)
    (hx : x ∈ t.entries) : first.key ≤ x.key ∧ x.key ≤ last.key := by
  have hsorted := t.sorted
  constructor
  · obtain ⟨rest, heq⟩ := List.head?_eq_some_iff.mp hfirst
    rw [heq] at hsorted hx
    rcases List.mem_cons.mp hx with rfl | hrest
    · exact le_rfl
    · exact ((List.pairwise_cons.mp hsorted).1 x hrest).le
  · obtain ⟨rest, heq⟩ := List.getLast?_eq_some_iff.mp hlast
    rw [heq] at hsorted hx
    rcases List.mem_append.mp hx with hrest | hx
    · exact ((List.pairwise_append.mp hsorted).2.2 x hrest last List.mem_cons_self).le
    · rw [List.mem_singleton.mp hx]

namespace Manifest

variable {m : Manifest} {dir dir' : Directory}

lemma mem_entries_of_removed {ids : List ℕ} {e : SSTableEntry}
    (he : e ∈ (m.removeSstables ids).entries) : e ∈ m.entries ∧ e.id ∉ ids := by
  obtain ⟨i, hi⟩ := mem_entries.mp he
  rw [removeSstables_level, List.mem_filter, decide_eq_true_eq] at hi
  exact ⟨mem_entries.mpr ⟨i, hi.1⟩, hi.2⟩

lemma mem_entries_addSstable {e x : SSTableEntry} :
    x ∈ (m.addSstable e).entries ↔ x ∈ m.entries ∨ x = e := by
  rw [(m.addSstable_entries_perm e).mem_iff, List.mem_append, List.mem_singleton]

namespace Sound

lemma covers (h : m.Sound dir) {i : ℕ} {e : SSTableEntry} (he : e ∈ m.level i) : e.Covers dir :=
  h.covered e (mem_entries.mpr ⟨i, he⟩)

/-- From level 1 on at most one SSTable of a level has a given key. -/
lemma atMostOneHit (h : m.Sound dir) {i : ℕ} (hi : 0 < i) (key : Bytes) :
    AtMostOneHit (dir.lookup key) (m.level i) :=
  (h.apart i hi).imp_of_mem fun he he' hapart => hapart.lookup (h.covers he) (h.covers he')

lemma versions_getLast? (h : m.Sound dir) {i : ℕ} (hi : 0 < i) (key : Bytes) :
    (m.versions dir key i).getLast? = (m.level i).findSome? (dir.lookup key) := by
  rw [versions, List.getLast?_filterMap]
  exact (h.atMostOneHit hi key).findSome?_reverse

/-- From level 1 on the oldest version of a key is the newest. -/
lemma versions_head?_eq_getLast? (h : m.Sound dir) {i : ℕ} (hi : 0 < i) (key : Bytes) :
    (m.versions dir key i).head? = (m.versions dir key i).getLast? := by
  rw [h.versions_getLast? hi, versions, List.head?_filterMap]

/-! ### Updates -/

lemma new (n : ℕ) : (Manifest.new n).Sound dir := by
  have hentries : ∀ e, e ∉ (Manifest.new n).entries := by
    intro e he
    obtain ⟨i, hi⟩ := mem_entries.mp he
    simp at hi
  constructor
  · simp
  · exact fun e he => absurd he (hentries e)
  · exact fun e he => absurd he (hentries e)
  · simp
  · exact fun e he => absurd he (hentries e)
  · simp

/-- Files may be removed, and files that are not listed do not matter. -/
lemma of_tables (h : m.Sound dir) (htables : ∀ e ∈ m.entries, ∀ t,
    dir'.tables e.fileName = some t → dir.tables e.fileName = some t) : m.Sound dir' :=
  { h with covered := fun e he => (h.covered e he).of_tables (htables e he) }

lemma skip (h : m.Sound dir) {n : ℕ} (hn : m.nextSstId ≤ n) :
    { m with nextSstId := n }.Sound dir :=
  { h with id_lt := fun e he => (h.id_lt e he).trans_le hn }

lemma removeSstables (h : m.Sound dir) (ids : List ℕ) : (m.removeSstables ids).Sound dir where
  level_eq := by
    intro i e he
    rw [removeSstables_level] at he
    exact h.level_eq i e (List.mem_of_mem_filter he)
  id_lt := fun e he => h.id_lt e (mem_entries_of_removed he).1
  id_inj := fun e he e' he' =>
    h.id_inj e (mem_entries_of_removed he).1 e' (mem_entries_of_removed he').1
  ordered := by
    intro i
    rw [removeSstables_level]
    exact (h.ordered i).filter _
  covered := fun e he => h.covered e (mem_entries_of_removed he).1
  apart := by
    intro i hi
    rw [removeSstables_level]
    exact (h.apart i hi).filter _

/-- An entry that covers its file, with a new number and on a level from 1 on with a range of its
own. -/
lemma addSstable (h : m.Sound dir) {e : SSTableEntry} (hlevel : e.level < m.numLevels)
    (hnext : e.id < m.nextSstId) (hid : ∀ x ∈ m.entries, x.id < e.id) (hcovers : e.Covers dir)
    (hapart : 0 < e.level → ∀ x ∈ m.level e.level, x.Apart e) : (m.addSstable e).Sound dir where
  level_eq := by
    intro i x hx
    rw [addSstable_level hlevel] at hx
    split at hx
    · next hi =>
      rcases List.mem_append.mp hx with hold | hnew
      · exact h.level_eq i x hold
      · rw [List.mem_singleton.mp hnew, hi]
    · exact h.level_eq i x hx
  id_lt := by
    intro x hx
    rcases (mem_entries_addSstable).mp hx with hold | rfl
    · exact h.id_lt x hold
    · exact hnext
  id_inj := by
    intro x hx y hy hxy
    rw [mem_entries_addSstable] at hx hy
    rcases hx with hx | rfl <;> rcases hy with hy | rfl
    · exact h.id_inj x hx y hy hxy
    · exact absurd hxy (hid x hx).ne
    · exact absurd hxy (hid y hy).ne'
    · rfl
  ordered := by
    intro i
    rw [addSstable_level hlevel]
    split
    · rw [List.pairwise_append]
      refine ⟨h.ordered i, List.pairwise_singleton _ _, ?_⟩
      intro x hx y hy
      rw [List.mem_singleton.mp hy]
      exact hid x (mem_entries.mpr ⟨i, hx⟩)
    · exact h.ordered i
  covered := by
    intro x hx
    rcases (mem_entries_addSstable).mp hx with hold | rfl
    · exact h.covered x hold
    · exact hcovers
  apart := by
    intro i hi
    rw [addSstable_level hlevel]
    split
    · next heq =>
      subst heq
      rw [List.pairwise_append]
      refine ⟨h.apart _ hi, List.pairwise_singleton _ _, ?_⟩
      intro x hx y hy
      rw [List.mem_singleton.mp hy]
      exact hapart hi x hx
    · exact h.apart i hi

lemma fileName_ne (h : m.Sound dir) {n : ℕ} (hn : m.nextSstId ≤ n) {e : SSTableEntry}
    (he : e ∈ m.entries) : e.fileName ≠ sstName n := by
  rw [(h.covered e he).fileName]
  exact fun hname => ((h.id_lt e he).trans_le hn).ne (sstName_injective hname)

/-- Writing a file under the next name does not change the listed ones. -/
lemma tables_writeTable (h : m.Sound dir) {t : SSTable} {e : SSTableEntry} (he : e ∈ m.entries) :
    (dir.writeTable (sstName m.nextSstId) t).tables e.fileName = dir.tables e.fileName :=
  if_neg (h.fileName_ne le_rfl he)

/-- A table that is not empty is written and listed on level 0. -/
lemma flushed (h : m.Sound dir) (hlevel : 0 < m.numLevels) {t : SSTable} {first last : BlockEntry}
    (hfirst : t.entries.head? = some first) (hlast : t.entries.getLast? = some last) :
    ((Manifest.mk m.levels (m.nextSstId + 1)).addSstable
      { id := m.nextSstId, level := 0, fileName := sstName m.nextSstId, minKey := first.key,
        maxKey := last.key }).Sound (dir.writeTable (sstName m.nextSstId) t) := by
  have hwritten := (h.skip (Nat.le_succ _)).of_tables
    fun e he t' ht' => (h.tables_writeTable (t := t) he).symm.trans ht'
  apply hwritten.addSstable
  · exact hlevel
  · exact Nat.lt_succ_self _
  · exact h.id_lt
  · refine ⟨rfl, (SSTable.key_mem_range hfirst hlast (List.mem_of_head? hfirst)).2, ?_⟩
    intro t' ht'
    obtain rfl : t = t' := Option.some.inj ((if_pos rfl).symm.trans ht')
    exact fun x hx => SSTable.key_mem_range hfirst hlast hx
  · exact fun hpos => absurd hpos (lt_irrefl 0)

end Sound

namespace Valid

/-- Files that are not listed do not matter. -/
lemma congr (h : m.Valid dir)
    (htables : ∀ e ∈ m.entries, dir'.tables e.fileName = dir.tables e.fileName) :
    m.Valid dir' := by
  refine ⟨h.sound.of_tables fun e he t ht => (htables e he).symm.trans ht, fun e he => ?_⟩
  rw [htables e he]
  exact h.present e he

lemma new (n : ℕ) : (Manifest.new n).Valid dir := by
  refine ⟨Sound.new n, fun e he => ?_⟩
  obtain ⟨i, hi⟩ := mem_entries.mp he
  simp at hi

lemma flushed (h : m.Valid dir) (hlevel : 0 < m.numLevels) {t : SSTable} {first last : BlockEntry}
    (hfirst : t.entries.head? = some first) (hlast : t.entries.getLast? = some last) :
    ((Manifest.mk m.levels (m.nextSstId + 1)).addSstable
      { id := m.nextSstId, level := 0, fileName := sstName m.nextSstId, minKey := first.key,
        maxKey := last.key }).Valid (dir.writeTable (sstName m.nextSstId) t) := by
  refine ⟨h.sound.flushed hlevel hfirst hlast, fun e he => ?_⟩
  rcases (mem_entries_addSstable).mp he with hold | rfl
  · rw [h.sound.tables_writeTable hold]
    exact h.present e hold
  · exact ⟨t, if_pos rfl, List.ne_nil_of_mem (List.mem_of_head? hfirst)⟩

end Valid

end Manifest

end Raftrust.Storage

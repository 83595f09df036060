import Raftrust.Storage.CompactionContent

/-!
# Range reads of the LSM tree

A scan inserts the entries of all sources in a range into one ordered map, from the oldest source
to the newest, and drops the tombstones. It returns the pairs that single reads return.
-/

namespace Raftrust.Storage

open Lib

/-! ### Ranges -/

/-- The entries with a key in `[start, stop)`. -/
def SSTable.range (t : SSTable) (start stop : Bytes) : SSTable where
  entries := t.entries.filter fun e => start ≤ e.key ∧ e.key < stop
  sorted := t.sorted.filter _

lemma SSTable.get_range (t : SSTable) (start stop key : Bytes) :
    (t.range start stop).get key = if start ≤ key ∧ key < stop then t.get key else none := by
  apply Option.ext
  intro value
  rw [get_eq_some_iff, range, List.mem_filter, decide_eq_true_iff, ← get_eq_some_iff]
  split <;> simp_all

/-- The entries with a key in `[start, stop)`. A map that is not empty panics when the range is
reversed. -/
def MemTable.scan (m : MemTable) (start stop : Bytes) : Except Abort (List BlockEntry) :=
  if stop < start ∧ ¬m.isEmpty then .error .panicked
  else .ok (m.toTable.range start stop).entries

lemma MemTable.scan_eq {m : MemTable} {start stop : Bytes} (h : start ≤ stop) :
    m.scan start stop = .ok (m.toTable.range start stop).entries :=
  if_neg fun hlt => absurd hlt.1 (not_lt.mpr h)

lemma MemTable.get_toTable (m : MemTable) (key : Bytes) : m.toTable.get key = m.get key := by
  apply Option.ext
  intro value
  rw [SSTable.get_eq_some_iff]
  show _ ∈ m.iter ↔ m.data[key]? = some value
  rw [iter, List.mem_map]
  constructor
  · rintro ⟨⟨k, v⟩, hmem, heq⟩
    obtain ⟨rfl, rfl⟩ := BlockEntry.mk.inj heq
    exact Std.TreeMap.mem_toList_iff_getElem?_eq_some.mp hmem
  · intro hget
    exact ⟨(key, value), Std.TreeMap.mem_toList_iff_getElem?_eq_some.mpr hget, rfl⟩

/-! ### Merging -/

/-- Insert entries one after the other. -/
def insertAll (merged : Std.TreeMap Bytes (Option Bytes)) (entries : List BlockEntry) :
    Std.TreeMap Bytes (Option Bytes) :=
  entries.foldl (fun merged e => merged.insert e.key e.value) merged

/-- The pairs that are not tombstones, in key order. -/
def livePairs (merged : Std.TreeMap Bytes (Option Bytes)) : List (Bytes × Bytes) :=
  merged.toList.filterMap fun e => e.2.map fun v => (e.1, v)

/-- Of the entries inserted the last one of a key remains. -/
lemma getElem?_insertAll (entries : List BlockEntry) (merged : Std.TreeMap Bytes (Option Bytes))
    (key : Bytes) : (insertAll merged entries)[key]? =
      ((entries.reverse.find? fun e => e.key = key).map (·.value)).or merged[key]? := by
  induction entries generalizing merged with
  | nil => rfl
  | cons e entries ih =>
    have hcons : insertAll merged (e :: entries) =
        insertAll (merged.insert e.key e.value) entries := rfl
    rw [hcons, ih, List.reverse_cons, List.find?_append, Std.TreeMap.getElem?_insert]
    cases entries.reverse.find? fun e => e.key = key with
    | some e' => rfl
    | none => by_cases hkey : e.key = key <;> simp [hkey]

/-- Of a table whose keys are distinct, the entry of a key is the last one. -/
lemma SSTable.getElem?_insertAll (t : SSTable) (merged : Std.TreeMap Bytes (Option Bytes))
    (key : Bytes) : (insertAll merged t.entries)[key]? = (t.get key).or merged[key]? := by
  have hlast : (t.entries.reverse.find? fun e => e.key = key).map (·.value) = t.get key := by
    have honce : AtMostOneHit (fun e : BlockEntry => if e.key = key then some e.value else none)
        t.entries := t.sorted.imp fun {a b} hab => by
      by_cases ha : a.key = key
      · exact .inr (if_neg fun hb => hab.ne (ha.trans hb.symm))
      · exact .inl (if_neg ha)
    have hfind : ∀ l : List BlockEntry, (l.find? fun e => e.key = key).map (·.value) =
        l.findSome? fun e => if e.key = key then some e.value else none := by
      intro l
      induction l with
      | nil => rfl
      | cons e l ih => by_cases he : e.key = key <;> simp [he, ih]
    rw [SSTable.get, hfind, hfind, honce.findSome?_reverse]
  rw [Storage.getElem?_insertAll, hlast]

lemma getElem?_foldl_insertAll (layers : List SSTable)
    (merged : Std.TreeMap Bytes (Option Bytes)) (key : Bytes) :
    ((layers.map (·.entries)).foldl insertAll merged)[key]? =
      (layers.reverse.findSome? (·.get key)).or merged[key]? := by
  induction layers generalizing merged with
  | nil => rfl
  | cons t layers ih =>
    rw [List.map_cons, List.foldl_cons, ih, t.getElem?_insertAll, List.reverse_cons,
      List.findSome?_append, Option.or_assoc]
    simp

lemma mem_livePairs {merged : Std.TreeMap Bytes (Option Bytes)} {key value : Bytes} :
    (key, value) ∈ livePairs merged ↔ merged[key]? = some (some value) := by
  rw [livePairs, List.mem_filterMap, ← Std.TreeMap.mem_toList_iff_getElem?_eq_some]
  constructor
  · rintro ⟨⟨k, v⟩, hmem, heq⟩
    obtain ⟨v', rfl, hpair⟩ := Option.map_eq_some_iff.mp heq
    obtain ⟨rfl, rfl⟩ := Prod.mk.inj hpair
    exact hmem
  · intro hmem
    exact ⟨_, hmem, rfl⟩

lemma livePairs_sorted (merged : Std.TreeMap Bytes (Option Bytes)) :
    (livePairs merged).Pairwise fun a b => a.1 < b.1 := by
  rw [livePairs, List.pairwise_filterMap]
  refine merged.ordered_keys_toList.imp fun {a b} hab x hx y hy => ?_
  obtain ⟨v, -, rfl⟩ := Option.map_eq_some_iff.mp hx
  obtain ⟨w, -, rfl⟩ := Option.map_eq_some_iff.mp hy
  exact (compare_eq_lt_iff _ _).mp hab

/-! ### The scan -/

/-- The order in which SSTables are scanned: the deepest level first, and its oldest first. -/
def ScansBefore {τ : Type} (a b : SSTableEntry × τ) : Prop :=
  b.1.level < a.1.level ∨ a.1.level = b.1.level ∧ a.1.id ≤ b.1.id

instance {τ : Type} : DecidableRel (@ScansBefore τ) := fun a b =>
  inferInstanceAs (Decidable (b.1.level < a.1.level ∨ a.1.level = b.1.level ∧ a.1.id ≤ b.1.id))

instance {τ : Type} : Std.Total (@ScansBefore τ) := ⟨fun a b => by
  simp only [ScansBefore]
  omega⟩

instance {τ : Type} : IsTrans _ (@ScansBefore τ) := ⟨fun a b c hab hbc => by
  simp only [ScansBefore] at *
  omega⟩

namespace LsmTree

/-- The live pairs with a key in `[start, stop)`. -/
def scan (s : LsmTree) (start stop : Bytes) : Except Abort (List (Bytes × Bytes)) := do
  let ssts := (s.sstableCache.insertionSort ScansBefore).map fun p =>
    (p.2.range start stop).entries
  let immutables ← s.immutableMemtables.mapM fun m => m.scan start stop
  let active ← s.activeMemtable.scan start stop
  return livePairs ((ssts ++ immutables ++ [active]).foldl insertAll ∅)

lemma reverse_scanOrder {cache : List (SSTableEntry × SSTable)}
    (hinj : ∀ p ∈ cache, ∀ q ∈ cache, p.1.id = q.1.id → p = q) :
    (cache.insertionSort ScansBefore).reverse = cache.insertionSort ReadsBefore := by
  refine eq_of_pairwise_readsBefore hinj
    ((List.reverse_perm _).trans (List.perm_insertionSort _ _)) (List.perm_insertionSort _ _) ?_
    (List.pairwise_insertionSort _ _)
  rw [List.pairwise_reverse]
  refine (List.pairwise_insertionSort ScansBefore _).imp fun {a b} hab => ?_
  simp only [ScansBefore, ReadsBefore] at hab ⊢
  omega

/-- A scan returns the pairs of its range that single reads return, in key order. -/
theorem scan_spec {s : LsmTree}
    (hinj : ∀ p ∈ s.sstableCache, ∀ q ∈ s.sstableCache, p.1.id = q.1.id → p = q)
    {start stop : Bytes} (hle : start ≤ stop) : ∃ pairs, s.scan start stop = .ok pairs ∧
      pairs.Pairwise (fun a b => a.1 < b.1) ∧
      ∀ key value, (key, value) ∈ pairs ↔
        start ≤ key ∧ key < stop ∧ s.get key = some value := by
  let layers := (s.sstableCache.insertionSort ScansBefore).map (·.2) ++
    s.immutableMemtables.map (·.toTable) ++ [s.activeMemtable.toTable]
  have himm : s.immutableMemtables.mapM (fun m => m.scan start stop) =
      .ok (s.immutableMemtables.map fun m => (m.toTable.range start stop).entries) := by
    apply mapM_eq_ok
    rw [List.forall₂_map_right_iff, List.forall₂_same]
    exact fun m _ => MemTable.scan_eq hle
  have hscan : s.scan start stop = .ok (livePairs
      (((layers.map fun t => t.range start stop).map (·.entries)).foldl insertAll ∅)) := by
    rw [scan, himm, MemTable.scan_eq hle]
    simp [layers, bind, Except.bind, pure, Except.pure, Function.comp_def]
  have hlayers : ∀ key, layers.reverse.findSome? (·.get key) =
      (s.getMemtables key).or (s.getSstables key) := by
    intro key
    simp only [layers, List.reverse_append, List.reverse_cons, List.reverse_nil, List.nil_append,
      List.singleton_append, List.findSome?_cons, List.findSome?_append, ← List.map_reverse,
      List.findSome?_map, MemTable.get_toTable, reverse_scanOrder hinj, getMemtables, getSstables]
    cases s.activeMemtable.get key <;> simp [Function.comp_def, MemTable.get_toTable]
  refine ⟨_, hscan, livePairs_sorted _, fun key value => ?_⟩
  rw [mem_livePairs, getElem?_foldl_insertAll, ← List.map_reverse, List.findSome?_map, get]
  simp only [Function.comp_def, SSTable.get_range]
  by_cases hin : start ≤ key ∧ key < stop
  · simp only [hin, and_self, if_true, hlayers, Std.TreeMap.getElem?_emptyc, Option.or_none,
      Option.join_eq_some_iff, true_and]
  · have hnone : layers.reverse.findSome? (fun _ => (none : Option (Option Bytes))) = none :=
      List.findSome?_eq_none_iff.mpr fun _ _ => rfl
    simp only [hin, if_false, hnone, Std.TreeMap.getElem?_emptyc, Option.or_none, reduceCtorEq,
      false_iff]
    rintro ⟨hstart, hstop, -⟩
    exact hin ⟨hstart, hstop⟩

end LsmTree

end Raftrust.Storage

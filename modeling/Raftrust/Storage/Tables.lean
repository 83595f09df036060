import Raftrust.Common.Types

/-!
# In-memory and on-disk tables

A memtable is an ordered map from keys to values or tombstones that knows its size. Flushed to
disk it becomes an SSTable. Here an SSTable is its entries, in the order they are written; the
blocks, the index and the Bloom filter of the file come with `Sst`.
-/

namespace Raftrust.Storage

open Lib

/-! ### SSTables -/

structure BlockEntry where
  key : Bytes
  /-- No value marks a tombstone. -/
  value : Option Bytes
  deriving DecidableEq, Repr

/-- The content of an SSTable file. The writer is given entries in key order. -/
structure SSTable where
  entries : List BlockEntry
  sorted : entries.Pairwise fun a b => a.key < b.key
  deriving DecidableEq, Repr

namespace SSTable

/-- `none` for a key that is not in the table, `some none` for a tombstone. -/
def get (t : SSTable) (key : Bytes) : Option (Option Bytes) :=
  (t.entries.find? fun e => e.key = key).map (·.value)

/-- The table without its tombstones. -/
def dropTombstones (t : SSTable) : SSTable where
  entries := t.entries.filter fun e => e.value.isSome
  sorted := t.sorted.filter _

/-- Leaving out tombstones, where that is done, adds nothing. -/
lemma mem_of_mem_ite_dropTombstones {t : SSTable} {deepest : Prop} [Decidable deepest]
    {e : BlockEntry} (h : e ∈ (if deepest then t.dropTombstones else t).entries) :
    e ∈ t.entries := by
  split at h
  · exact List.mem_of_mem_filter h
  · exact h

lemma get_eq_some_iff {t : SSTable} {key : Bytes} {value : Option Bytes} :
    t.get key = some value ↔ ⟨key, value⟩ ∈ t.entries := by
  constructor
  · intro h
    obtain ⟨e, he, rfl⟩ := Option.map_eq_some_iff.mp h
    have hkey : e.key = key := by simpa using List.find?_some he
    subst hkey
    exact List.mem_of_find?_eq_some he
  · intro h
    -- an entry before it would have a smaller key
    obtain ⟨before, after, hsplit⟩ := List.append_of_mem h
    have hbefore : ∀ e ∈ before, e.key ≠ key := by
      have hpair := t.sorted
      rw [hsplit, List.pairwise_append] at hpair
      intro e he
      exact (hpair.2.2 e he _ List.mem_cons_self).ne
    have hnone : before.find? (fun e => e.key = key) = none := by
      simpa [List.find?_eq_none] using hbefore
    simp [get, hsplit, List.find?_append, hnone]

lemma exists_mem_of_get {t : SSTable} {key : Bytes} {value : Option Bytes}
    (h : t.get key = some value) : ∃ e ∈ t.entries, e.key = key :=
  ⟨_, get_eq_some_iff.mp h, rfl⟩

lemma get_dropTombstones (t : SSTable) (key : Bytes) :
    t.dropTombstones.get key = (t.get key).filter Option.isSome := by
  apply Option.ext
  intro value
  rw [get_eq_some_iff, Option.filter_eq_some_iff, get_eq_some_iff]
  simp [dropTombstones]

end SSTable

/-! ### Memtables -/

structure MemTable where
  data : Std.TreeMap Bytes (Option Bytes)
  sizeBytes : ℕ
  maxSize : ℕ

namespace MemTable

def new (maxSize : ℕ) : MemTable where
  data := ∅
  sizeBytes := 0
  maxSize := maxSize

def get (m : MemTable) (key : Bytes) : Option (Option Bytes) :=
  m.data[key]?

def recalculateSize (m : MemTable) : MemTable :=
  { m with sizeBytes := (m.data.toList.map fun e => e.1.length + (e.2.map (·.length)).getD 0).sum }

/-- Insert or update a key. The size kept up to here is replaced by the recalculated one. -/
def put (m : MemTable) (key value : Bytes) : MemTable :=
  { m with data := m.data.insert key (some value) }.recalculateSize

/-- Delete a key by writing a tombstone. -/
def delete (m : MemTable) (key : Bytes) : MemTable :=
  { m with
    data := m.data.insert key none
    sizeBytes := match m.data[key]? with
      | some old => m.sizeBytes - (old.map (·.length)).getD 0
      | none => m.sizeBytes + key.length }

def isFull (m : MemTable) : Bool :=
  m.maxSize ≤ m.sizeBytes

def isEmpty (m : MemTable) : Bool :=
  m.data.isEmpty

/-- The entries in key order. -/
def iter (m : MemTable) : List BlockEntry :=
  m.data.toList.map fun e => ⟨e.1, e.2⟩

lemma iter_sorted (m : MemTable) : m.iter.Pairwise fun a b => a.key < b.key := by
  rw [iter, List.pairwise_map]
  exact m.data.ordered_keys_toList.imp fun {_ _} h => (compare_eq_lt_iff _ _).mp h

/-- The table a memtable is written to. -/
def toTable (m : MemTable) : SSTable where
  entries := m.iter
  sorted := m.iter_sorted

end MemTable

end Raftrust.Storage

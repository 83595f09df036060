import Mathlib.Data.List.Sort
import Raftrust.Common.Types

/-!
# The storage engine contract

What the layers above rely on: an ordered map with point and range reads. An ordered tree in
memory meets the contract.
-/

namespace Raftrust.Storage

open Lib

/-- An engine and the ordered-map contract of its operations. Nothing is said of a scan of an
inverted range, in which `BTreeMap::range` panics. -/
class StorageEngine (σ : Type) where
  empty : σ
  get : σ → Bytes → Option Bytes
  put : σ → Bytes → Bytes → σ
  delete : σ → Bytes → σ
  /-- The pairs with a key in `[start, end)`, sorted by key. -/
  scan : σ → Bytes → Bytes → List (Bytes × Bytes)
  get_empty (key : Bytes) : get empty key = none
  get_put (s : σ) (key value key' : Bytes) :
    get (put s key value) key' = if key = key' then some value else get s key'
  get_delete (s : σ) (key key' : Bytes) :
    get (delete s key) key' = if key = key' then none else get s key'
  mem_scan_of_le {s : σ} {lo hi : Bytes} {e : Bytes × Bytes} : lo ≤ hi →
    (e ∈ scan s lo hi ↔ get s e.1 = some e.2 ∧ lo ≤ e.1 ∧ e.1 < hi)
  scan_sorted_of_le (s : σ) {lo hi : Bytes} : lo ≤ hi →
    (scan s lo hi).Pairwise fun a b => a.1 < b.1

/-- An engine that finds nothing in an inverted range. -/
class OrderedEngine (σ : Type) extends StorageEngine σ where
  scan_of_lt (s : σ) {lo hi : Bytes} : hi < lo → scan s lo hi = []

/-- Scans of the range return what the contract says. -/
class Scans (σ : Type) [StorageEngine σ] (lo hi : Bytes) : Prop where
  mem_scan {s : σ} {e : Bytes × Bytes} :
    e ∈ StorageEngine.scan s lo hi ↔ StorageEngine.get s e.1 = some e.2 ∧ lo ≤ e.1 ∧ e.1 < hi
  scan_sorted (s : σ) : (StorageEngine.scan s lo hi).Pairwise fun a b => a.1 < b.1

lemma Scans.of_le {σ : Type} [StorageEngine σ] {lo hi : Bytes} (h : lo ≤ hi) : Scans σ lo hi :=
  ⟨StorageEngine.mem_scan_of_le h, fun s => StorageEngine.scan_sorted_of_le s h⟩

instance {σ : Type} [OrderedEngine σ] {lo hi : Bytes} : Scans σ lo hi := by
  rcases le_or_gt lo hi with hle | hlt
  · exact .of_le hle
  · refine ⟨fun {s e} => ?_, fun s => ?_⟩
    · rw [OrderedEngine.scan_of_lt s hlt]
      exact iff_of_false (by simp) fun h => lt_asymm hlt (h.2.1.trans_lt h.2.2)
    · rw [OrderedEngine.scan_of_lt s hlt]
      exact .nil

namespace Scans

lemma eq_of_mem_iff {l l' : List (Bytes × Bytes)} (h : l.Pairwise fun a b => a.1 < b.1)
    (h' : l'.Pairwise fun a b => a.1 < b.1) (hmem : ∀ e, e ∈ l ↔ e ∈ l') : l = l' := by
  have : Std.Irrefl fun a b : Bytes × Bytes => a.1 < b.1 := ⟨fun a => lt_irrefl a.1⟩
  exact h.eq_of_mem_iff h' hmem

open StorageEngine

/-- Engines with the same content scan alike. -/
lemma scan_congr {σ τ : Type} [StorageEngine σ] [StorageEngine τ] {lo hi : Bytes} [Scans σ lo hi]
    [Scans τ lo hi] {s : σ} {t : τ} (h : ∀ key, get s key = get t key) :
    scan s lo hi = scan t lo hi := by
  refine eq_of_mem_iff (scan_sorted s) (scan_sorted t) fun e => ?_
  rw [mem_scan, mem_scan, h]

variable {σ : Type} [StorageEngine σ] {lo hi : Bytes} [Scans σ lo hi]

lemma scan_put_of_not_mem (s : σ) {key : Bytes} (h : ¬ (lo ≤ key ∧ key < hi)) (value : Bytes) :
    scan (put s key value) lo hi = scan s lo hi := by
  refine eq_of_mem_iff (scan_sorted _) (scan_sorted s) fun e => ?_
  rw [mem_scan, mem_scan, get_put]
  refine and_congr_left fun hrange => ?_
  rw [if_neg (by rintro rfl; exact h hrange)]

/-- All other pairs are scanned as before. -/
lemma filter_scan_put (s : σ) (key value : Bytes) :
    (scan (put s key value) lo hi).filter (fun e => e.1 ≠ key) =
      (scan s lo hi).filter (fun e => e.1 ≠ key) := by
  refine eq_of_mem_iff ((scan_sorted _).filter _) ((scan_sorted s).filter _) fun e => ?_
  rw [List.mem_filter, List.mem_filter, mem_scan, mem_scan, get_put]
  refine and_congr_left fun hne => ?_
  rw [if_neg fun heq => of_decide_eq_true hne heq.symm]

omit [Scans σ lo hi] in
lemma get_foldl_delete (s : σ) (keys : List Bytes) (key : Bytes) :
    get (keys.foldl delete s) key = if key ∈ keys then none else get s key := by
  induction keys generalizing s with
  | nil => simp
  | cons k keys ih =>
    rw [List.foldl_cons, ih, get_delete]
    by_cases hk : k = key
    · simp [hk]
    · simp [hk, Ne.symm hk]

/-- The pairs that are left after some keys have been deleted. -/
lemma scan_foldl_delete (s : σ) (keys : List Bytes) :
    scan (keys.foldl delete s) lo hi = (scan s lo hi).filter fun e => e.1 ∉ keys := by
  refine eq_of_mem_iff (scan_sorted _) ((scan_sorted s).filter _) fun e => ?_
  rw [List.mem_filter, mem_scan, mem_scan, get_foldl_delete]
  by_cases he : e.1 ∈ keys
  · simp [he]
  · simp [he]

/-- A pair that comes before all others in the range is scanned first. -/
lemma exists_scan_put_eq_cons {s : σ} {key : Bytes} (h : lo ≤ key ∧ key < hi)
    (hleast : ∀ e ∈ scan s lo hi, key ≤ e.1) (value : Bytes) :
    ∃ rest, scan (put s key value) lo hi = (key, value) :: rest := by
  have hmem : (key, value) ∈ scan (put s key value) lo hi :=
    mem_scan.mpr ⟨by rw [get_put, if_pos rfl], h⟩
  have hsorted : (scan (put s key value) lo hi).Pairwise _ := scan_sorted _
  have hall : ∀ e ∈ scan (put s key value) lo hi, key ≤ e.1 := by
    intro e he
    obtain ⟨hget, hrange⟩ := mem_scan.mp he
    rw [get_put] at hget
    split at hget
    · next heq => exact heq.le
    · exact hleast e (mem_scan.mpr ⟨hget, hrange⟩)
  cases hscan : scan (put s key value) lo hi with
  | nil =>
    rw [hscan] at hmem
    cases hmem
  | cons e rest =>
    rw [hscan] at hmem hsorted hall
    rcases List.mem_cons.mp hmem with rfl | hrest
    · exact ⟨rest, rfl⟩
    · have hlt : e.1 < key := List.rel_of_pairwise_cons hsorted hrest
      exact absurd (hall e List.mem_cons_self) (not_le.mpr hlt)

end Scans

/-- An ordered tree in memory. -/
instance : OrderedEngine (Std.TreeMap Bytes Bytes) where
  empty := ∅
  get m key := m[key]?
  put m key value := m.insert key value
  delete m key := m.erase key
  scan m lo hi := m.toList.filter fun e => lo ≤ e.1 ∧ e.1 < hi
  get_empty key := by simp
  get_put m key value key' := by simp [Std.TreeMap.getElem?_insert]
  get_delete m key key' := by simp [Std.TreeMap.getElem?_erase]
  mem_scan_of_le {m lo hi e} _ := by
    rw [List.mem_filter, decide_eq_true_iff, Std.TreeMap.mem_toList_iff_getElem?_eq_some]
  scan_sorted_of_le m _ _ _ :=
    (m.ordered_keys_toList.imp fun {_ _} h => (compare_eq_lt_iff _ _).mp h).filter _
  scan_of_lt m lo hi hlt := by
    rw [List.filter_eq_nil_iff]
    intro e _ hrange
    obtain ⟨hlo, hhi⟩ := of_decide_eq_true hrange
    exact lt_asymm hlt (hlo.trans_lt hhi)

end Raftrust.Storage

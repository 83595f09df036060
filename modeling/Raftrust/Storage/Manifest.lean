import Mathlib.Data.List.Infix
import Mathlib.Tactic.Common
import Raftrust.Common.Types

/-!
# The manifest of an LSM tree

The manifest lists for each level the SSTables in it and hands out their numbers. The entry count
and file size it also records are not read by anything and are left out.
-/

namespace Raftrust.Storage

open Lib

structure SSTableEntry where
  id : ℕ
  level : ℕ
  fileName : String
  minKey : Bytes
  maxKey : Bytes
  deriving DecidableEq, Repr

structure Manifest where
  levels : List (List SSTableEntry)
  nextSstId : ℕ
  deriving DecidableEq, Repr

/-- The file name of an SSTable: its number in at least eight digits. -/
def sstName (id : ℕ) : String :=
  String.ofList ((Nat.toDigits 10 id).leftpad 8 '0') ++ ".sst"

namespace Manifest

def new (numLevels : ℕ) : Manifest where
  levels := List.replicate numLevels []
  nextSstId := 0

/-- The next number and file name, and the manifest that has handed them out. -/
def nextSstFilename (m : Manifest) : ℕ × String × Manifest :=
  (m.nextSstId, sstName m.nextSstId, { m with nextSstId := m.nextSstId + 1 })

/-- Add an entry at the end of its level. Missing levels are created. -/
def addSstable (m : Manifest) (entry : SSTableEntry) : Manifest :=
  { m with levels := (m.levels.rightpad (entry.level + 1) []).modify entry.level (· ++ [entry]) }

/-- Remove the entries with the given numbers from all levels. -/
def removeSstables (m : Manifest) (ids : List ℕ) : Manifest :=
  { m with levels := m.levels.map fun level => level.filter fun e => e.id ∉ ids }

def level (m : Manifest) (level : ℕ) : List SSTableEntry :=
  m.levels[level]?.getD []

def levelCount (m : Manifest) (level : ℕ) : ℕ :=
  (m.level level).length

def numLevels (m : Manifest) : ℕ :=
  m.levels.length

/-- All entries of the manifest. -/
def entries (m : Manifest) : List SSTableEntry :=
  m.levels.flatten

/-! ### Levels after an update -/

lemma mem_entries {m : Manifest} {e : SSTableEntry} : e ∈ m.entries ↔ ∃ i, e ∈ m.level i := by
  rw [entries, List.mem_flatten]
  constructor
  · rintro ⟨es, hes, he⟩
    obtain ⟨i, hi⟩ := List.mem_iff_getElem?.mp hes
    exact ⟨i, by rwa [level, hi]⟩
  · rintro ⟨i, he⟩
    cases hi : m.levels[i]? with
    | none => simp [level, hi] at he
    | some es =>
      rw [level, hi] at he
      exact ⟨es, List.mem_of_getElem? hi, he⟩

@[simp] lemma new_level (n i : ℕ) : (new n).level i = [] := by
  by_cases h : i < n <;> simp [level, new, h]

@[simp] lemma new_numLevels (n : ℕ) : (new n).numLevels = n := by
  simp [numLevels, new]

@[simp] lemma removeSstables_level (m : Manifest) (ids : List ℕ) (i : ℕ) :
    (m.removeSstables ids).level i = (m.level i).filter fun e => e.id ∉ ids := by
  cases h : m.levels[i]? <;> simp [level, removeSstables, h]

@[simp] lemma removeSstables_numLevels (m : Manifest) (ids : List ℕ) :
    (m.removeSstables ids).numLevels = m.numLevels := by
  simp [numLevels, removeSstables]

lemma removeSstables_entries (m : Manifest) (ids : List ℕ) :
    (m.removeSstables ids).entries = m.entries.filter fun e => e.id ∉ ids :=
  List.filter_flatten.symm

lemma addSstable_levels {m : Manifest} {e : SSTableEntry} (h : e.level < m.numLevels) :
    (m.addSstable e).levels = m.levels.modify e.level (· ++ [e]) := by
  have hlen : e.level + 1 ≤ m.levels.length := h
  have hpad : m.levels.rightpad (e.level + 1) [] = m.levels := by
    rw [List.rightpad, Nat.sub_eq_zero_of_le hlen, List.replicate_zero, List.append_nil]
  rw [addSstable, hpad]

lemma addSstable_level {m : Manifest} {e : SSTableEntry} (h : e.level < m.numLevels) (i : ℕ) :
    (m.addSstable e).level i = if i = e.level then m.level i ++ [e] else m.level i := by
  rw [level, addSstable_levels h, List.getElem?_modify, level]
  by_cases hi : i = e.level
  · subst hi
    rw [List.getElem?_eq_getElem h]
    simp
  · simp [hi, Ne.symm hi]

lemma addSstable_numLevels {m : Manifest} {e : SSTableEntry} (h : e.level < m.numLevels) :
    (m.addSstable e).numLevels = m.numLevels := by
  rw [numLevels, addSstable_levels h, List.length_modify, numLevels]

lemma addSstable_entries_perm (m : Manifest) (e : SSTableEntry) :
    (m.addSstable e).entries.Perm (m.entries ++ [e]) := by
  have hmodify : ∀ (levels : List (List SSTableEntry)) (i : ℕ), i < levels.length →
      (levels.modify i (· ++ [e])).flatten.Perm (levels.flatten ++ [e]) := by
    intro levels
    induction levels with
    | nil => intro i hi; simp at hi
    | cons es levels ih =>
      intro i hi
      cases i with
      | zero => simpa using (List.perm_append_singleton e levels.flatten).symm.append_left es
      | succ i => simpa using (ih i (by simpa using hi)).append_left es
  have hperm := hmodify (m.levels.rightpad (e.level + 1) []) e.level
    (by simp [List.rightpad]; omega)
  rwa [List.rightpad, List.flatten_append, List.flatten_replicate_nil, List.append_nil] at hperm

lemma levels_eq_map (m : Manifest) : m.levels = (List.range m.numLevels).map m.level := by
  apply List.ext_getElem
  · simp [numLevels]
  · intro i hi hi'
    simp [level, List.getElem?_eq_getElem hi]

end Manifest

/-! ### File names -/

example : sstName 7 = "00000007.sst" := by decide +kernel

example : sstName 1234567890 = "1234567890.sst" := by decide +kernel

/-- Padding with zeros does not change the number. -/
lemma ofDigitChars_leftpad (n id : ℕ) :
    Nat.ofDigitChars 10 ((Nat.toDigits 10 id).leftpad n '0') 0 = id := by
  have hzeros : ∀ k, Nat.ofDigitChars 10 (List.replicate k '0') 0 = 0 := by
    intro k
    induction k with
    | zero => rfl
    | succ k ih => exact ih
  rw [List.leftpad, Nat.ofDigitChars_append, hzeros,
    Nat.ofDigitChars_toDigits (by decide) (by decide)]

theorem sstName_injective : Function.Injective sstName := by
  intro a b h
  have hlists := congrArg String.toList h
  simp only [sstName, String.toList_append, String.toList_ofList] at hlists
  have hdigits := List.append_cancel_right hlists
  calc
    a = Nat.ofDigitChars 10 ((Nat.toDigits 10 a).leftpad 8 '0') 0 :=
      (ofDigitChars_leftpad 8 a).symm
    _ = Nat.ofDigitChars 10 ((Nat.toDigits 10 b).leftpad 8 '0') 0 := by rw [hdigits]
    _ = b := ofDigitChars_leftpad 8 b

end Raftrust.Storage

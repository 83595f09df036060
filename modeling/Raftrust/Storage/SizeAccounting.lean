import Mathlib.Algebra.Order.BigOperators.Group.List
import Raftrust.Common.Checked
import Raftrust.Storage.Lsm

/-!
# The size of a memtable

A memtable keeps the number of bytes of its keys and values. A put computes it from the old size
and then again from all entries; a delete only adjusts it. Here both are carried out in machine
words, with every sum and difference checked.
-/

namespace Raftrust.Storage

open Lib

namespace MemTable

/-- The bytes of all keys and values. -/
def totalSize (m : MemTable) : ℕ :=
  (m.data.toList.map fun e => e.1.length + (e.2.map (·.length)).getD 0).sum

/-- The kept size is that of the entries. -/
def Exact (m : MemTable) : Prop :=
  m.sizeBytes = m.totalSize

/-! ### In machine words -/

def recalculateSizeChecked (m : MemTable) : Except Abort MemTable := do
  let sizes ← m.data.toList.mapM fun e => checkedAdd e.1.length ((e.2.map (·.length)).getD 0)
  return { m with sizeBytes := ← checkedSum sizes }

def putChecked (m : MemTable) (key value : Bytes) : Except Abort MemTable := do
  let entrySize ← checkedAdd key.length value.length
  let sizeBytes ← match m.data[key]? with
    | some old => do
      let oldSize := (old.map (·.length)).getD 0
      let kept ← checkedSub m.sizeBytes oldSize
      let grown ← checkedAdd kept entrySize
      let surplus ← checkedSub entrySize (min oldSize entrySize)
      checkedSub grown surplus
    | none => checkedAdd m.sizeBytes entrySize
  recalculateSizeChecked { m with data := m.data.insert key (some value), sizeBytes := sizeBytes }

/-- The difference saturates in the code, so that only the sum can panic. -/
def deleteChecked (m : MemTable) (key : Bytes) : Except Abort MemTable := do
  let sizeBytes ← match m.data[key]? with
    | some old => pure (m.sizeBytes - (old.map (·.length)).getD 0)
    | none => checkedAdd m.sizeBytes key.length
  return { m with data := m.data.insert key none, sizeBytes := sizeBytes }

/-! ### The total size after an insertion -/

lemma nodup_toList (m : Std.TreeMap Bytes (Option Bytes)) : m.toList.Nodup :=
  m.ordered_keys_toList.imp fun {_ _} h heq =>
    ((compare_eq_lt_iff _ _).mp h).ne (congrArg Prod.fst heq)

/-- The entries other than that of a key. -/
lemma toList_perm_of_getElem? {m : Std.TreeMap Bytes (Option Bytes)} {key : Bytes}
    {old : Option Bytes} (h : m[key]? = some old) :
    m.toList.Perm ((key, old) :: m.toList.filter fun e => ¬(key == e.1) = true) := by
  have hnodup := nodup_toList m
  rw [List.perm_ext_iff_of_nodup hnodup]
  · rintro ⟨k, v⟩
    rw [List.mem_cons, List.mem_filter, Std.TreeMap.mem_toList_iff_getElem?_eq_some, Prod.mk.injEq]
    by_cases hk : k = key
    · subst hk
      simp [h, eq_comm]
    · simp [hk, Ne.symm hk]
  · rw [List.nodup_cons]
    exact ⟨by simp, hnodup.filter _⟩

/-- What a key takes up. -/
def entrySize (key : Bytes) (value : Option (Option Bytes)) : ℕ :=
  value.elim 0 fun v => key.length + (v.map (·.length)).getD 0

lemma totalSize_insert (m : MemTable) (key : Bytes) (value : Option Bytes) (size : ℕ) :
    totalSize { m with data := m.data.insert key value, sizeBytes := size } +
        entrySize key m.data[key]? =
      m.totalSize + entrySize key (some value) := by
  have hnew := (Std.TreeMap.toList_insert_perm (t := m.data) (k := key) (v := value)).map
    fun e => e.1.length + (e.2.map (·.length)).getD 0
  have htotal := hnew.sum_eq
  rw [List.map_cons, List.sum_cons] at htotal
  dsimp only at htotal
  have hrest : ((m.data.toList.filter fun e => ¬(key == e.1) = true).map
      fun e => e.1.length + (e.2.map (·.length)).getD 0).sum + entrySize key m.data[key]? =
      m.totalSize := by
    cases hold : m.data[key]? with
    | none =>
      rw [List.filter_eq_self.mpr]
      · rfl
      · rintro ⟨k, v⟩ hmem
        rw [Std.TreeMap.mem_toList_iff_getElem?_eq_some] at hmem
        have hne : key ≠ k := by
          rintro rfl
          rw [hold] at hmem
          cases hmem
        simpa using hne
    | some old =>
      have hold := ((toList_perm_of_getElem? hold).map
        fun e => e.1.length + (e.2.map (·.length)).getD 0).sum_eq
      rw [List.map_cons, List.sum_cons] at hold
      rw [totalSize, hold]
      exact Nat.add_comm _ _
  have hentry : entrySize key (some value) = key.length + (value.map (·.length)).getD 0 := rfl
  rw [← hrest, hentry, totalSize, htotal]
  omega

/-- What a key takes up is part of the whole. -/
lemma entrySize_le (m : MemTable) (key : Bytes) : entrySize key m.data[key]? ≤ m.totalSize := by
  cases hold : m.data[key]? with
  | none => exact Nat.zero_le _
  | some old =>
    have hperm := ((toList_perm_of_getElem? hold).map
      fun e => e.1.length + (e.2.map (·.length)).getD 0).sum_eq
    rw [List.map_cons, List.sum_cons] at hperm
    rw [totalSize, hperm]
    exact Nat.le_add_right _ _

/-! ### Calls -/

lemma recalculateSizeChecked_eq {m : MemTable} (h : m.totalSize < 2 ^ 64) :
    m.recalculateSizeChecked = .ok m.recalculateSize := by
  have hsizes : m.data.toList.mapM (fun e => checkedAdd e.1.length ((e.2.map (·.length)).getD 0)) =
      .ok (m.data.toList.map fun e => e.1.length + (e.2.map (·.length)).getD 0) := by
    refine mapM_eq_ok (List.forall₂_map_right_iff.mpr (List.forall₂_same.mpr fun e he => ?_))
    apply checkedAdd_of_lt
    exact (List.single_le_sum (by simp) _ (List.mem_map_of_mem he)).trans_lt h
  rw [recalculateSizeChecked, hsizes]
  show (do return { m with sizeBytes := ← checkedSum _ }) = _
  rw [checkedSum_of_lt h]
  rfl

/-- No sum or difference of a put leaves the machine words. -/
lemma putChecked_eq {m : MemTable} (h : m.Exact) {key value : Bytes}
    (hroom : m.totalSize + (key.length + value.length) < 2 ^ 64) :
    m.putChecked key value = .ok (m.put key value) := by
  have hafter := m.totalSize_insert key (some value) m.sizeBytes
  have hkept := m.entrySize_le key
  have hrecalculate : ∀ size, recalculateSizeChecked
      { m with data := m.data.insert key (some value), sizeBytes := size } =
        .ok (m.put key value) := by
    intro size
    refine recalculateSizeChecked_eq ?_
    have hlt : totalSize { m with data := m.data.insert key (some value), sizeBytes := size } ≤
        m.totalSize + (key.length + value.length) := by
      have := m.totalSize_insert key (some value) size
      simp only [entrySize, Option.elim_some, Option.map_some, Option.getD_some] at this
      omega
    exact hlt.trans_lt hroom
  rw [Exact] at h
  rw [putChecked, checkedAdd_of_lt (by omega)]
  cases hold : m.data[key]? with
  | none =>
    show (do let sizeBytes ← checkedAdd m.sizeBytes _; recalculateSizeChecked _) = _
    rw [checkedAdd_of_lt (by omega)]
    exact hrecalculate _
  | some old =>
    rw [hold] at hkept
    simp only [entrySize, Option.elim_some] at hkept
    simp only [bind, Except.bind]
    rw [checkedSub_of_le (by omega)]
    simp only
    rw [checkedAdd_of_lt (by omega)]
    simp only
    rw [checkedSub_of_le (Nat.min_le_right _ _)]
    simp only
    rw [checkedSub_of_le (by omega)]
    exact hrecalculate _

lemma deleteChecked_eq {m : MemTable} (h : m.Exact) {key : Bytes}
    (hroom : m.totalSize + key.length < 2 ^ 64) : m.deleteChecked key = .ok (m.delete key) := by
  rw [Exact] at h
  rw [deleteChecked, delete]
  cases hold : m.data[key]? with
  | none =>
    show (do let sizeBytes ← checkedAdd m.sizeBytes _; return _) = _
    rw [checkedAdd_of_lt (by omega)]
    rfl
  | some old => rfl

lemma exact_new (maxSize : ℕ) : (new maxSize).Exact :=
  rfl

lemma exact_put (m : MemTable) (key value : Bytes) : (m.put key value).Exact :=
  rfl

/-- A delete takes the old value off, or adds the key. -/
lemma Exact.delete {m : MemTable} (h : m.Exact) (key : Bytes) : (m.delete key).Exact := by
  have hafter := m.totalSize_insert key none m.sizeBytes
  have hkept := m.entrySize_le key
  rw [Exact] at h ⊢
  have htotal : (m.delete key).totalSize =
      totalSize { m with data := m.data.insert key none, sizeBytes := m.sizeBytes } := rfl
  rw [htotal, MemTable.delete]
  cases hold : m.data[key]? with
  | none =>
    rw [hold] at hafter
    simp only [entrySize, Option.elim_none, Option.elim_some, Option.map_none,
      Option.getD_none] at hafter
    simp only
    omega
  | some old =>
    rw [hold] at hafter hkept
    simp only [entrySize, Option.elim_some, Option.map_none, Option.getD_none] at hafter hkept
    simp only
    omega

end MemTable

/-! ### Sequences of calls -/

namespace WalOp

/-- The bytes of the arguments. -/
def size : WalOp → ℕ
  | put key value => key.length + value.length
  | delete key => key.length

def applyChecked (m : MemTable) : WalOp → Except Abort MemTable
  | put key value => m.putChecked key value
  | delete key => m.deleteChecked key

/-- The entries of the table and the arguments of the call, which are in memory together, have
fewer bytes than a word can count. -/
def HasRoom (m : MemTable) (op : WalOp) : Prop :=
  m.totalSize + op.size < 2 ^ 64
  deriving Decidable

lemma applyChecked_eq {m : MemTable} (h : m.Exact) {op : WalOp} (hroom : HasRoom m op) :
    applyChecked m op = .ok (op.apply m) := by
  cases op with
  | put key value => exact MemTable.putChecked_eq h hroom
  | delete key => exact MemTable.deleteChecked_eq h hroom

lemma exact_apply {m : MemTable} (h : m.Exact) (op : WalOp) : (op.apply m).Exact := by
  cases op with
  | put key value => exact MemTable.exact_put m key value
  | delete key => exact h.delete key

end WalOp

namespace MemTable

/-- In every sequence of calls whose data fit into memory, no sum or difference of a put or delete
leaves the machine words, and after each call the kept size is that of the entries. -/
theorem sizeBytes_eq_totalSize (maxSize : ℕ) (ops : List WalOp)
    (h : Along WalOp.apply WalOp.HasRoom (new maxSize) ops) :
    ops.foldlM WalOp.applyChecked (new maxSize) = .ok (run WalOp.apply (new maxSize) ops) ∧
      ∀ ops', ops' <+: ops → (run WalOp.apply (new maxSize) ops').sizeBytes =
        (run WalOp.apply (new maxSize) ops').totalSize := by
  have hexact : ∀ ops', (run WalOp.apply (new maxSize) ops').Exact := by
    intro ops'
    refine run_invariant WalOp.apply (fun ops' => (run WalOp.apply (new maxSize) ops').Exact)
      (exact_new maxSize) ?_ (along_true WalOp.apply (new maxSize) ops')
    intro es op _ ih _
    rw [run_snoc]
    exact WalOp.exact_apply ih op
  refine ⟨?_, fun ops' _ => hexact ops'⟩
  refine run_invariant WalOp.apply (fun ops =>
    ops.foldlM WalOp.applyChecked (new maxSize) = .ok (run WalOp.apply (new maxSize) ops)) rfl ?_ h
  intro es op _ ih hroom
  rw [List.foldlM_append, ih, run_snoc]
  simp only [bind, Except.bind, List.foldlM_cons, List.foldlM_nil,
    WalOp.applyChecked_eq (hexact es) hroom]
  rfl

/-- Overwriting, deleting twice and writing again. -/
theorem sizeBytes_eq_totalSize_overwrites :
    let ops : List WalOp :=
      [.put [1] [7, 7, 7], .put [1] [8], .delete [1], .delete [1], .delete [2], .put [1] [9, 9]]
    Along WalOp.apply WalOp.HasRoom (new 100) ops ∧
      (run WalOp.apply (new 100) ops).sizeBytes = 4 := by
  intro ops
  have hroom : Along WalOp.apply WalOp.HasRoom (new 100) ops := by decide +kernel
  refine ⟨hroom, ?_⟩
  rw [(sizeBytes_eq_totalSize 100 ops hroom).2 ops (List.prefix_refl _)]
  decide +kernel

end MemTable

end Raftrust.Storage

import Raftrust.Mvcc.Replay
import Raftrust.Mvcc.ScanRange

/-!
# Garbage collection

The collector goes through the versions in the order of their internal keys. It keeps a version
that does not come directly behind another one of its key, and deletes any other whose revision is
below a bound. A version that is still what a read at the bound returns is not kept for that.
-/

namespace Raftrust.Mvcc

open Lib Storage

namespace MvccStore

/-- The loop over the scanned entries. Returns the internal keys to delete. -/
def collectible (minRevision : ℕ) :
    Option Bytes → Bool → List (Bytes × Bytes) → Except Abort (List Bytes)
  | _, _, [] => .ok []
  | lastUserKey, seenLatest, (internalKey, _) :: entries => do
    let (userKey, rev) ← decodeKey internalKey
    let (lastUserKey, seenLatest) :=
      if lastUserKey ≠ some userKey then (some userKey, false) else (lastUserKey, seenLatest)
    if !seenLatest then collectible minRevision lastUserKey true entries
    else
      let toDelete ← collectible minRevision lastUserKey seenLatest entries
      return if rev < minRevision then internalKey :: toDelete else toDelete

variable {σ : Type} [StorageEngine σ]

/-- Remove the versions below `minRevision`, except the latest version of each key. Returns how many
were removed. -/
def collect (s : MvccStore σ) (minRevision : ℕ) : Except Abort (ℕ × MvccStore σ) := do
  let allEntries := StorageEngine.scan s.engine [0] (List.replicate 32 255)
  let toDelete ← collectible minRevision none false allEntries
  return (toDelete.length, { s with engine := toDelete.foldl StorageEngine.delete s.engine })

instance : Scans σ [0] (List.replicate 32 255) :=
  .of_le (by decide)

/-! ### What is collected -/

/-- The internal key is in the range that the collector scans. -/
def InCollection (internalKey : Bytes) : Prop :=
  [0] ≤ internalKey ∧ internalKey < List.replicate 32 255
  deriving Decidable

/-- The version of the call at index `i` is deleted. -/
def Collected (history : List Op) (minRevision i : ℕ) : Prop :=
  i + 1 < minRevision ∧ (∃ op ∈ history[i]?, InCollection (encodeKey op.key (i + 1))) ∧
    Superseded history i
  deriving Decidable

variable {s : MvccStore σ} {writes : List Write}

/-- Once a key has been seen its latest version has been seen as well. -/
lemma Holds.collectible_map (h : Holds s writes) (minRevision : ℕ) {L : List (Write × ℕ)}
    (hL : ∀ x ∈ L, writes[x.2]? = some x.1) {last : Option Bytes} {seen : Bool}
    (hseen : last.isSome → seen = true) :
    collectible minRevision last seen (L.map fun x => x.1.entry x.2) =
      .ok (((marked (fun x : Write × ℕ => x.1.op.key) last L).filter fun x =>
        x.2 ∧ x.1.2 + 1 < minRevision).map fun x => x.1.1.internalKey (x.1.2 + 1)) := by
  induction L generalizing last seen with
  | nil => rfl
  | cons x L ih =>
    have hx := hL x List.mem_cons_self
    obtain ⟨hkey, -⟩ := h.decode_entry hx
    have hrest : collectible minRevision (some x.1.op.key) true (L.map fun x => x.1.entry x.2) =
        _ := ih (fun y hy => hL y (List.mem_cons_of_mem _ hy)) fun _ => rfl
    rw [List.map_cons, collectible, hkey, marked]
    by_cases hlast : last = some x.1.op.key
    · subst hlast
      -- a version behind another of its key
      obtain rfl : seen = true := hseen rfl
      by_cases hold : x.2 + 1 < minRevision
      · simp [hrest, hold, bind, Except.bind, pure, Except.pure]
        rfl
      · simp [hrest, hold, bind, Except.bind, pure, Except.pure]
    · simp [hrest, hlast, bind, Except.bind]

/-- No internal key is below the range that is scanned. -/
lemma zero_le_encodeKey (key : Bytes) (revision : ℕ) : [0] ≤ encodeKey key revision := by
  refine singleton_zero_le fun hnil => ?_
  have := congrArg List.length hnil
  simp [encodeKey_length, revisionSuffixLen] at this

lemma Holds.exists_collect (h : Holds s writes) (minRevision : ℕ) : ∃ keys : List Bytes,
    s.collect minRevision =
      .ok (keys.length, { s with engine := keys.foldl StorageEngine.delete s.engine }) ∧
    ∀ i w, writes[i]? = some w →
      (w.internalKey (i + 1) ∈ keys ↔ Collected (writes.map Write.op) minRevision i) := by
  obtain ⟨L, hscan, hsorted, hmem⟩ := h.exists_scanRange [0] (List.replicate 32 255)
  -- the loop marks what comes directly behind a version of the same key
  have hloop : collectible minRevision none false (L.map fun x => x.1.entry x.2) = _ :=
    h.collectible_map minRevision (fun x hx => ((hmem x.1 x.2).mp hx).1) (by simp)
  refine ⟨_, by rw [collect, hscan, hloop]; rfl, fun i w hw => ?_⟩
  have hlo : ∀ j, [0] ≤ encodeKey w.op.key (j + 1) := fun j => zero_le_encodeKey _ _
  have hrange : (w, i) ∈ L ↔ InCollection (w.internalKey (i + 1)) := by
    rw [hmem]
    exact and_iff_right hw
  rw [List.mem_map]
  constructor
  · rintro ⟨⟨⟨x, j⟩, b⟩, hx, heq⟩
    obtain ⟨hx, hmarked⟩ := List.mem_filter.mp hx
    simp only [decide_eq_true_eq] at hmarked
    obtain ⟨hxL, hb⟩ := (mem_marked_iff hsorted).mp hx
    obtain ⟨rfl, rfl⟩ := h.eq_of_internalKey_eq ((hmem x j).mp hxL).1 hw heq
    exact ⟨hmarked.2, ⟨x.op, by simp [hw], hrange.mp hxL⟩,
      (repeats_iff_superseded h.length_lt hmem hxL hlo).mp (hb.mp hmarked.1)⟩
  · rintro ⟨hold, ⟨op, hop, hin⟩, hsuper⟩
    obtain rfl : w.op = op := by simpa [hw] using hop
    have hwL := hrange.mpr hin
    refine ⟨((w, i), true), List.mem_filter.mpr ⟨(mem_marked_iff hsorted).mpr ⟨hwL, ?_⟩, ?_⟩, rfl⟩
    · simpa using (repeats_iff_superseded h.length_lt hmem hwL hlo).mpr hsuper
    · simpa using hold

/-! ### Reads after a collection -/

/-- The call whose version comes first in the range of a key among those that are not newer than
`revision` and are kept. -/
def foundKept (history : List Op) (minRevision : ℕ) (key : Bytes) (revision : ℕ) :
    Option (Op × ℕ) :=
  ((history.take revision).zipIdx.filter fun x =>
    InScan key (encodeKey x.1.key (x.2 + 1)) ∧ ¬ Collected history minRevision x.2).argmin
      fun x => encodeKey x.1.key (x.2 + 1)

/-- The version that a read meets first is kept, or it is a delete marker and the one that comes
first without it is another delete marker or none at all. -/
def Unaffected (history : List Op) (minRevision : ℕ) (key : Bytes) (revision : ℕ) : Prop :=
  ∀ x ∈ found (history.take revision) key, Collected history minRevision x.2 →
    x.1.isPut = false ∧ ∀ y ∈ foundKept history minRevision key revision, y.1.isPut = false
  deriving Decidable

lemma Holds.getAtRevision_deleted (h : Holds s writes) {minRevision : ℕ} {keys : List Bytes}
    (hkeys : ∀ i w, writes[i]? = some w →
      (w.internalKey (i + 1) ∈ keys ↔ Collected (writes.map Write.op) minRevision i))
    (key : Bytes) [ScansKey σ key] (revision : ℕ) :
    getAtRevision { s with engine := keys.foldl StorageEngine.delete s.engine } key revision =
      .ok ((foundKept (writes.map Write.op) minRevision key revision).bind fun x =>
        (versionAt writes x.2).bind (·.toKeyValue key)) := by
  obtain ⟨L, hscan, hsorted, hmem⟩ := h.exists_scan key
  have hscan' : scanKey { s with engine := keys.foldl StorageEngine.delete s.engine } key =
      (L.filter fun x => ¬ Collected (writes.map Write.op) minRevision x.2).map
        fun x => x.1.entry x.2 := by
    rw [scanKey, Scans.scan_foldl_delete]
    change (s.scanKey key).filter _ = _
    rw [hscan, List.filter_map]
    congr 1
    refine List.filter_congr fun x hx => ?_
    have hx := hkeys x.2 x.1 ((hmem x.1 x.2).mp hx).1
    rw [Function.comp_apply, decide_eq_decide, not_iff_not]
    exact hx
  have hread : firstVisible revision _ =
      .ok ((foundKept (writes.map Write.op) minRevision key revision).bind fun x =>
        versionAt writes x.2) := h.firstVisible_filter hsorted hmem revision
    fun i => ¬ Collected (writes.map Write.op) minRevision i
  rw [getAtRevision, hscan', hread]
  cases foundKept (writes.map Write.op) minRevision key revision <;> rfl

section

variable {history : List Op} {minRevision : ℕ} {key : Bytes} {revision : ℕ}

lemma mem_candidates_kept {op : Op} {i : ℕ} :
    (op, i) ∈ (history.take revision).zipIdx.filter (fun x =>
        InScan key (encodeKey x.1.key (x.2 + 1)) ∧ ¬ Collected history minRevision x.2) ↔
      (history.take revision)[i]? = some op ∧ InScan key (encodeKey op.key (i + 1)) ∧
        ¬ Collected history minRevision i := by
  rw [List.mem_filter, List.mk_mem_zipIdx_iff_getElem?, decide_eq_true_iff]

lemma foundKept_of_found_eq_none (h : found (history.take revision) key = none) :
    foundKept history minRevision key revision = none := by
  rw [foundKept, List.argmin_eq_none, List.eq_nil_iff_forall_not_mem]
  rintro ⟨op, i⟩ hx
  obtain ⟨hop, hin, -⟩ := mem_candidates_kept.mp hx
  exact not_inScan_of_found_eq_none h hop hin

lemma foundKept_of_not_collected (hlen : history.length < 2 ^ 64) {op : Op} {i : ℕ}
    (h : found (history.take revision) key = some (op, i))
    (hkept : ¬ Collected history minRevision i) :
    foundKept history minRevision key revision = some (op, i) := by
  have hlt : ∀ {j op'}, (history.take revision)[j]? = some op' → j + 1 < 2 ^ 64 := fun hop' =>
    (Nat.succ_le_of_lt (List.getElem?_eq_some_iff.mp hop').1).trans_lt
      ((List.length_take_le' _ _).trans_lt hlen)
  refine argmin_eq_some (mem_candidates_kept.mpr ⟨getElem?_of_found h, inScan_of_found h, hkept⟩)
    ?_ ?_ _
  · rintro ⟨op', j⟩ hj
    obtain ⟨hop', hin', -⟩ := mem_candidates_kept.mp hj
    exact le_of_found h hop' hin'
  · rintro ⟨op', j⟩ hj heq
    obtain ⟨hop', -, -⟩ := mem_candidates_kept.mp hj
    obtain ⟨-, hij⟩ := encodeKey_inj (hlt (getElem?_of_found h)) (hlt hop') heq
    obtain rfl := Nat.succ.inj hij
    rw [Option.some.inj ((getElem?_of_found h).symm.trans hop')]

end

/-- Versions of different calls read alike only if both are delete markers. -/
lemma Write.toKeyValue_eq_iff {w v : Write} {i j : ℕ} (hne : i ≠ j) (key : Bytes) :
    (v.version (j + 1)).toKeyValue key = (w.version (i + 1)).toKeyValue key ↔
      w.op.isPut = false ∧ v.op.isPut = false := by
  cases hw : w.op.isPut with
  | false =>
    rw [toKeyValue_of_not_isPut hw]
    cases hv : v.op.isPut with
    | false => simp [toKeyValue_of_not_isPut hv]
    | true =>
      obtain ⟨kv, hkv, -⟩ := exists_toKeyValue hv key (j + 1)
      simp [hkv]
  | true =>
    obtain ⟨kv, hkv, hmod⟩ := exists_toKeyValue hw key (i + 1)
    rw [hkv]
    refine iff_of_false (fun heq => ?_) (by simp)
    cases hv : v.op.isPut with
    | false =>
      rw [toKeyValue_of_not_isPut hv] at heq
      cases heq
    | true =>
      obtain ⟨kv', hkv', hmod'⟩ := exists_toKeyValue hv key (j + 1)
      obtain rfl : kv' = kv := Option.some.inj (hkv'.symm.trans heq)
      exact hne (Nat.succ.inj (hmod.symm.trans hmod'))

lemma Holds.getAtRevision_deleted_eq_iff (h : Holds s writes) {minRevision : ℕ}
    {keys : List Bytes} (hkeys : ∀ i w, writes[i]? = some w →
      (w.internalKey (i + 1) ∈ keys ↔ Collected (writes.map Write.op) minRevision i))
    (key : Bytes) [ScansKey σ key] (revision : ℕ) :
    getAtRevision { s with engine := keys.foldl StorageEngine.delete s.engine } key revision =
        s.getAtRevision key revision ↔
      Unaffected (writes.map Write.op) minRevision key revision := by
  have hlen : (writes.map Write.op).length < 2 ^ 64 := by simpa using h.length_lt
  have hwrite : ∀ {i : ℕ} {op : Op}, ((writes.map Write.op).take revision)[i]? = some op →
      ∃ w : Write, writes[i]? = some w ∧ w.op = op := by
    intro i op hop
    simpa using getElem?_of_isPrefix (List.take_prefix revision _) hop
  rw [h.getAtRevision_deleted hkeys, h.getAtRevision_found, Except.ok.injEq, Unaffected]
  cases hfound : found ((writes.map Write.op).take revision) key with
  | none => simp [foundKept_of_found_eq_none hfound]
  | some x =>
    obtain ⟨op, i⟩ := x
    obtain ⟨w, hw, rfl⟩ := hwrite (getElem?_of_found hfound)
    -- the read changes only if the version it met is gone
    by_cases hcollected : Collected (writes.map Write.op) minRevision i
    · simp only [Option.mem_some_iff, forall_eq', hcollected, true_implies, Option.bind_some,
        versionAt, hw, Option.map_some]
      cases hkept : foundKept (writes.map Write.op) minRevision key revision with
      | none =>
        cases hput : w.op.isPut with
        | false => simp [Write.toKeyValue_of_not_isPut hput]
        | true =>
          obtain ⟨kv, hkv, -⟩ := Write.exists_toKeyValue hput key (i + 1)
          simp [hkv]
      | some y =>
        obtain ⟨op', j⟩ := y
        obtain ⟨hop', -, hnot⟩ := mem_candidates_kept.mp (List.argmin_mem hkept)
        obtain ⟨v, hv, rfl⟩ := hwrite hop'
        have hne : i ≠ j := by
          rintro rfl
          exact hnot hcollected
        simpa [hv] using Write.toKeyValue_eq_iff hne key
    · simp [foundKept_of_not_collected hlen hfound hcollected, hcollected]

variable (σ) in
/-- **What garbage collection does to a read.** After any history, a read returns the same before
and after a collection exactly if the version that it meets is kept, or nothing but delete markers
is involved. -/
theorem getAtRevision_collect_iff {history : List Op} (hkeys : ∀ op ∈ history, HasRange op.key)
    (hfits : ∀ op ∈ history, op.Fits) (hlen : history.length < 2 ^ 64) (minRevision : ℕ)
    {key : Bytes} (hkey : HasRange key) (revision : ℕ) :
    ∃ (s s' : MvccStore σ) (count : ℕ), run σ history = .ok s ∧
      s.collect minRevision = .ok (count, s') ∧
      (s'.getAtRevision key revision = s.getAtRevision key revision ↔
        Unaffected history minRevision key revision) := by
  obtain ⟨s, writes, hrun, hholds, rfl, -⟩ :=
    exists_run_created σ (fun op hop => (hkeys op hop).scansKey) hfits hlen
  have := hkey.scansKey (σ := σ)
  obtain ⟨keys, hcollect, hdeleted⟩ := hholds.exists_collect minRevision
  exact ⟨s, _, _, hrun, hcollect, hholds.getAtRevision_deleted_eq_iff hdeleted key revision⟩

/-- Of three versions of `a` the first is deleted below revision 2, and a read at 2 does not need
it. -/
theorem getAtRevision_collect_secondVersion :
    let history : List Op := [.put [0x61] [1] 0 0, .put [0x61] [2] 0 0, .delete [0x61]]
    Unaffected history 2 [0x61] 2 ∧ Collected history 2 0 ∧
      ∃ (s s' : MvccStore (Std.TreeMap Bytes Bytes)) (count : ℕ),
        run (Std.TreeMap Bytes Bytes) history = .ok s ∧ s.collect 2 = .ok (count, s') ∧
        s'.getAtRevision [0x61] 2 = s.getAtRevision [0x61] 2 := by
  intro history
  have hunaffected : Unaffected history 2 [0x61] 2 := by decide +kernel
  have hfits : ∀ op ∈ history, op.Fits := by simp [history, Op.Fits]
  obtain ⟨s, s', count, hrun, hcollect, hread⟩ :=
    getAtRevision_collect_iff (Std.TreeMap Bytes Bytes) (by decide) hfits (by decide) 2
      (show HasRange [0x61] by decide) 2
  exact ⟨hunaffected, by decide +kernel, s, s', count, hrun, hcollect, hread.mpr hunaffected⟩

/-- The put of `a` at revision 1 is still the current version at revision 3. A collection below 3
deletes it because `a` is written again at revision 4, and a read at 3 no longer returns it. -/
theorem collect_loses_current_version :
    let history : List Op :=
      [.put [0x61] [1] 0 0, .put [0x62] [2] 0 0, .put [0x62] [3] 0 0, .put [0x61] [4] 0 0]
    ((run (Std.TreeMap Bytes Bytes) history).bind fun s => do
      let (count, s') ← s.collect 3
      return (count, ← s.getAtRevision [0x61] 3, ← s'.getAtRevision [0x61] 3)) =
        .ok (2, some ⟨[0x61], [1], 1, 1, 0⟩, none) := by
  rfl

end MvccStore

end Raftrust.Mvcc

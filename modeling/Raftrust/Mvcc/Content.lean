import Raftrust.Lib.Layers
import Raftrust.Lib.Neighbours
import Raftrust.Lib.Run
import Raftrust.Mvcc.Store

/-!
# What the engine holds

After a history of calls the engine holds one version for each call, under the key of the call and
its place in the history. A read returns the version with the least internal key among those that
lie in the scanned range and are not too new.
-/

namespace Raftrust.Mvcc

open Lib Storage

/-- The internal key is in the range that is scanned for a user key. -/
def InScan (key internalKey : Bytes) : Prop :=
  encodeKeyPrefixStart key ≤ internalKey ∧ internalKey < encodeKeyPrefixEnd key
  deriving Decidable

namespace MvccStore

/-- A call that was made, and the create revision it recorded. -/
structure Write where
  op : Op
  createRevision : ℕ

namespace Write

/-- The version that is stored for the call at `revision`. -/
def version (w : Write) (revision : ℕ) : VersionedValue :=
  match w.op with
  | .put _ value leaseId ttlSeconds => ⟨some value, w.createRevision, revision, leaseId, ttlSeconds⟩
  | .delete _ => ⟨none, 0, revision, 0, 0⟩

def internalKey (w : Write) (revision : ℕ) : Bytes :=
  encodeKey w.op.key revision

/-- The entry of the engine for the call at index `i` of the history. -/
def entry (w : Write) (i : ℕ) : Bytes × Bytes :=
  (w.internalKey (i + 1), (w.version (i + 1)).encode)

/-- A put reads as a pair that names its revision. -/
lemma exists_toKeyValue {w : Write} (hput : w.op.isPut) (key : Bytes) (revision : ℕ) :
    ∃ kv, (w.version revision).toKeyValue key = some kv ∧ kv.modRevision = revision := by
  obtain ⟨op, createRevision⟩ := w
  cases op with
  | put k value leaseId ttlSeconds => exact ⟨_, rfl, rfl⟩
  | delete k => cases hput

/-- What reads as a pair is a put, and the pair is of its own key and revision. -/
lemma of_toKeyValue_eq_some {w : Write} {key : Bytes} {revision : ℕ} {kv : KeyValue}
    (h : (w.version revision).toKeyValue key = some kv) :
    w.op.isPut ∧ kv.key = key ∧ kv.modRevision = revision := by
  obtain ⟨op, createRevision⟩ := w
  cases op with
  | put k value leaseId ttlSeconds =>
    obtain rfl := Option.some.inj h
    exact ⟨rfl, rfl, rfl⟩
  | delete k => cases h

/-- A delete reads as nothing. -/
lemma toKeyValue_of_not_isPut {w : Write} (hdelete : w.op.isPut = false) (key : Bytes)
    (revision : ℕ) : (w.version revision).toKeyValue key = none := by
  obtain ⟨op, createRevision⟩ := w
  cases op with
  | put k value leaseId ttlSeconds => cases hdelete
  | delete k => rfl

end Write

variable {σ : Type} [StorageEngine σ]

/-- The engine holds exactly the versions of the writes. -/
structure Holds (s : MvccStore σ) (writes : List Write) : Prop where
  revision_eq : s.currentRevision = writes.length
  length_lt : writes.length < 2 ^ 64
  fits : ∀ (i : ℕ) (w : Write), writes[i]? = some w → (w.version (i + 1)).Fits
  get_iff : ∀ e : Bytes × Bytes, StorageEngine.get s.engine e.1 = some e.2 ↔
    ∃ (i : ℕ) (w : Write), writes[i]? = some w ∧ w.entry i = e

/-- A read of `key` at `revision` may meet the write at index `i`. -/
structure Visible (writes : List Write) (key : Bytes) (revision i : ℕ) (w : Write) : Prop where
  write : writes[i]? = some w
  le_revision : i + 1 ≤ revision
  inScan : InScan key (w.internalKey (i + 1))

namespace Holds

variable {s : MvccStore σ} {writes : List Write} (h : Holds s writes)

include h

lemma index_lt {i : ℕ} {w : Write} (hw : writes[i]? = some w) : i + 1 < 2 ^ 64 := by
  have hi := (List.getElem?_eq_some_iff.mp hw).1
  have hlen := h.length_lt
  omega

lemma eq_of_internalKey_eq {i j : ℕ} {w x : Write} (hw : writes[i]? = some w)
    (hx : writes[j]? = some x) (heq : w.internalKey (i + 1) = x.internalKey (j + 1)) :
    i = j ∧ w = x := by
  obtain ⟨-, hij⟩ := encodeKey_inj (h.index_lt hw) (h.index_lt hx) heq
  obtain rfl := Nat.succ.inj hij
  exact ⟨rfl, Option.some.inj (hw.symm.trans hx)⟩

lemma exists_scanRange (lo hi : Bytes) [Scans σ lo hi] : ∃ L : List (Write × ℕ),
    StorageEngine.scan s.engine lo hi = L.map (fun x => x.1.entry x.2) ∧
    (L.Pairwise fun x y => x.1.internalKey (x.2 + 1) < y.1.internalKey (y.2 + 1)) ∧
    ∀ w i, (w, i) ∈ L ↔ writes[i]? = some w ∧ lo ≤ w.internalKey (i + 1) ∧
      w.internalKey (i + 1) < hi := by
  have hentries : ∀ e ∈ StorageEngine.scan s.engine lo hi, ∃ x : Write × ℕ,
      (writes[x.2]? = some x.1 ∧ lo ≤ x.1.internalKey (x.2 + 1) ∧
        x.1.internalKey (x.2 + 1) < hi) ∧ x.1.entry x.2 = e := by
    intro e he
    obtain ⟨hget, hrange⟩ := Scans.mem_scan.mp he
    obtain ⟨i, w, hw, rfl⟩ := (h.get_iff e).mp hget
    exact ⟨(w, i), ⟨hw, hrange⟩, rfl⟩
  -- every entry of the scan is the version of some write
  obtain ⟨L, hL, hmem⟩ := exists_map_eq hentries
  refine ⟨L, hL.symm, ?_, ?_⟩
  · have hsorted : (StorageEngine.scan s.engine lo hi).Pairwise _ := Scans.scan_sorted _
    rw [← hL, List.pairwise_map] at hsorted
    exact hsorted
  · intro w i
    constructor
    · exact hmem (w, i)
    · rintro ⟨hw, hrange⟩
      have he : w.entry i ∈ StorageEngine.scan s.engine lo hi :=
        Scans.mem_scan.mpr ⟨(h.get_iff _).mpr ⟨i, w, hw, rfl⟩, hrange⟩
      rw [← hL] at he
      obtain ⟨x, hx, hxe⟩ := List.mem_map.mp he
      obtain ⟨hi, hwx⟩ := h.eq_of_internalKey_eq (hmem x hx).1 hw (congrArg Prod.fst hxe)
      rwa [← hwx, ← hi]

lemma exists_scan (key : Bytes) [ScansKey σ key] : ∃ L : List (Write × ℕ),
    s.scanKey key = L.map (fun x => x.1.entry x.2) ∧
    (L.Pairwise fun x y => x.1.internalKey (x.2 + 1) < y.1.internalKey (y.2 + 1)) ∧
    ∀ w i, (w, i) ∈ L ↔ writes[i]? = some w ∧ InScan key (w.internalKey (i + 1)) :=
  h.exists_scanRange (encodeKeyPrefixStart key) (encodeKeyPrefixEnd key)

lemma decode_entry {i : ℕ} {w : Write} (hw : writes[i]? = some w) :
    decodeKey (w.entry i).1 = .ok (w.op.key, i + 1) ∧
      VersionedValue.decode (w.entry i).2 = .ok (w.version (i + 1)) :=
  ⟨decodeKey_encodeKey _ (h.index_lt hw), VersionedValue.decode_encode (h.fits i w hw)⟩

/-- The loop of a read over a list of writes. -/
lemma firstVisible_map {L : List (Write × ℕ)} (hL : ∀ x ∈ L, writes[x.2]? = some x.1)
    (revision : ℕ) : firstVisible revision (L.map fun x => x.1.entry x.2) =
      .ok ((L.find? fun x => x.2 + 1 ≤ revision).map fun x => x.1.version (x.2 + 1)) := by
  induction L with
  | nil => rfl
  | cons x L ih =>
    have hx := hL x List.mem_cons_self
    obtain ⟨hkey, hvalue⟩ := h.decode_entry hx
    have hrest := ih fun y hy => hL y (List.mem_cons_of_mem _ hy)
    rw [List.map_cons, firstVisible, hkey]
    by_cases hle : x.2 + 1 ≤ revision
    · rw [List.find?_cons_of_pos (by simpa using hle)]
      simp [hvalue, Nat.not_lt.mpr hle, bind, Except.bind, pure, Except.pure]
    · rw [List.find?_cons_of_neg (by simpa using hle)]
      simpa [Nat.lt_of_not_le hle, bind, Except.bind] using hrest

/-- A read meets the visible version with the least internal key. -/
lemma firstVisible_cases (key : Bytes) [ScansKey σ key] (revision : ℕ) :
    ((∀ i w, ¬ Visible writes key revision i w) ∧
      firstVisible revision (s.scanKey key) = .ok none) ∨
    ∃ i w, Visible writes key revision i w ∧
      (∀ j x, Visible writes key revision j x →
        w.internalKey (i + 1) ≤ x.internalKey (j + 1)) ∧
      firstVisible revision (s.scanKey key) = .ok (some (w.version (i + 1))) := by
  obtain ⟨L, hscan, hsorted, hmem⟩ := h.exists_scan key
  rw [hscan, h.firstVisible_map fun x hx => ((hmem x.1 x.2).mp hx).1]
  cases hfind : L.find? fun x => x.2 + 1 ≤ revision with
  | none =>
    refine .inl ⟨fun i w hv => ?_, rfl⟩
    have hnot := List.find?_eq_none.mp hfind (w, i) ((hmem w i).mpr ⟨hv.write, hv.inScan⟩)
    exact hnot (by simpa using hv.le_revision)
  | some x =>
    obtain ⟨hw, hin⟩ := (hmem x.1 x.2).mp (List.mem_of_find?_eq_some hfind)
    refine .inr ⟨x.2, x.1, ⟨hw, by simpa using List.find?_some hfind, hin⟩, ?_, rfl⟩
    intro j y hv
    exact find?_le_of_sorted hsorted hfind ((hmem y j).mpr ⟨hv.write, hv.inScan⟩)
      (by simpa using hv.le_revision)

lemma firstVisible_of_least {key : Bytes} [ScansKey σ key] {revision i : ℕ} {w : Write}
    (hw : Visible writes key revision i w)
    (hleast : ∀ j x, Visible writes key revision j x →
      w.internalKey (i + 1) ≤ x.internalKey (j + 1)) :
    firstVisible revision (s.scanKey key) = .ok (some (w.version (i + 1))) := by
  rcases h.firstVisible_cases key revision with ⟨hnone, -⟩ | ⟨j, x, hx, hxleast, hread⟩
  · exact absurd hw (hnone i w)
  · obtain ⟨rfl, rfl⟩ := h.eq_of_internalKey_eq hw.write hx.write
      (le_antisymm (hleast j x hx) (hxleast i w hw))
    exact hread

lemma firstVisible_of_none {key : Bytes} [ScansKey σ key] {revision : ℕ}
    (hnone : ∀ i w, ¬ Visible writes key revision i w) :
    firstVisible revision (s.scanKey key) = .ok none := by
  rcases h.firstVisible_cases key revision with ⟨-, hread⟩ | ⟨i, w, hw, -⟩
  · exact hread
  · exact absurd hw (hnone i w)

/-- The latest version is the one that a read at the current revision meets. -/
lemma exists_latest (key : Bytes) [ScansKey σ key] : ∃ latest,
    s.getLatestVersionInfo key = .ok latest ∧
      firstVisible writes.length (s.scanKey key) = .ok (latest.map Prod.snd) := by
  obtain ⟨L, hscan, -, hmem⟩ := h.exists_scan key
  rw [getLatestVersionInfo, hscan, h.firstVisible_map fun x hx => ((hmem x.1 x.2).mp hx).1]
  cases L with
  | nil => exact ⟨none, rfl, rfl⟩
  | cons x L =>
    have hx := ((hmem x.1 x.2).mp List.mem_cons_self).1
    have hlt : x.2 + 1 ≤ writes.length := (List.getElem?_eq_some_iff.mp hx).1
    obtain ⟨hkey, hvalue⟩ := h.decode_entry hx
    refine ⟨some (x.2 + 1, x.1.version (x.2 + 1)), ?_, ?_⟩
    · simp [hkey, hvalue, bind, Except.bind, pure, Except.pure]
    · rw [List.find?_cons_of_pos (by simpa using hlt)]
      rfl

/-! ### Writing -/

/-- The engine after one more version has been stored. -/
lemma snoc {w : Write} (hlen : writes.length + 1 < 2 ^ 64)
    (hfits : (w.version (writes.length + 1)).Fits) :
    Holds ⟨StorageEngine.put s.engine (w.entry writes.length).1 (w.entry writes.length).2,
      writes.length + 1⟩ (writes ++ [w]) where
  revision_eq := by simp
  length_lt := by simpa using hlen
  fits := by
    intro i x hx
    rcases getElem?_snoc_eq_some_iff.mp hx with hold | ⟨rfl, rfl⟩
    · exact h.fits i x hold
    · exact hfits
  get_iff := by
    intro e
    rw [StorageEngine.get_put]
    split
    · next hkey =>
      constructor
      · intro hvalue
        exact ⟨writes.length, w, List.getElem?_concat_length,
          Prod.ext hkey (Option.some.inj hvalue)⟩
      · rintro ⟨i, x, hx, rfl⟩
        -- no earlier version is stored under the new key
        rcases getElem?_snoc_eq_some_iff.mp hx with hold | ⟨rfl, rfl⟩
        · obtain ⟨-, hi⟩ := encodeKey_inj hlen (h.index_lt hold) hkey
          have hlt := (List.getElem?_eq_some_iff.mp hold).1
          omega
        · rfl
    · next hkey =>
      rw [h.get_iff e]
      constructor
      · rintro ⟨i, x, hx, he⟩
        exact ⟨i, x, getElem?_snoc_eq_some_iff.mpr (.inl hx), he⟩
      · rintro ⟨i, x, hx, rfl⟩
        rcases getElem?_snoc_eq_some_iff.mp hx with hold | ⟨rfl, rfl⟩
        · exact ⟨i, x, hold, rfl⟩
        · exact absurd rfl hkey

end Holds

lemma Holds.createRevisionOf_lt {s : MvccStore σ} {writes : List Write} (h : Holds s writes)
    {key : Bytes} [ScansKey σ key] {latest : Option VersionedValue}
    (hlatest : firstVisible writes.length (s.scanKey key) = .ok latest) {revision : ℕ}
    (hrevision : revision < 2 ^ 64) : createRevisionOf latest revision < 2 ^ 64 := by
  rcases h.firstVisible_cases key writes.length with ⟨-, hread⟩ | ⟨i, w, hw, -, hread⟩
  · obtain rfl := Except.ok.inj (hlatest.symm.trans hread)
    exact hrevision
  · obtain rfl := Except.ok.inj (hlatest.symm.trans hread)
    rw [createRevisionOf]
    split
    · exact (h.fits i w hw.write).createRevision
    · exact hrevision

/-- Every call succeeds and stores one version. -/
lemma Holds.execute {s : MvccStore σ} {writes : List Write} (h : Holds s writes) {op : Op}
    [ScansKey σ op.key] (hfits : op.Fits) (hlen : writes.length + 1 < 2 ^ 64) :
    ∃ s' w latest, s.execute op = .ok s' ∧ w.op = op ∧ Holds s' (writes ++ [w]) ∧
      firstVisible writes.length (s.scanKey op.key) = .ok latest ∧
      (op.isPut → w.createRevision = createRevisionOf latest (writes.length + 1)) := by
  obtain ⟨latest, hlatest, hvisible⟩ := h.exists_latest op.key
  have hnext : s.nextRevision = (writes.length + 1, ⟨s.engine, writes.length + 1⟩) := by
    rw [nextRevision, h.revision_eq, Nat.mod_eq_of_lt hlen]
  cases op with
  | put key value leaseId ttlSeconds =>
    let w : Write := ⟨.put key value leaseId ttlSeconds,
      createRevisionOf (latest.map Prod.snd) (writes.length + 1)⟩
    have hsnoc := h.snoc (w := w) hlen
      ⟨by rintro _ ⟨rfl⟩; exact hfits, h.createRevisionOf_lt hvisible hlen, hlen⟩
    refine ⟨_, w, latest.map Prod.snd, ?_, rfl, hsnoc, hvisible, fun _ => rfl⟩
    have hscan : getLatestVersionInfo ⟨s.engine, writes.length + 1⟩ key = .ok latest := hlatest
    simp only [MvccStore.execute, putWithOptions, hnext, hscan]
    cases latest <;> rfl
  | delete key =>
    let w : Write := ⟨.delete key, 0⟩
    have hsnoc := h.snoc (w := w) hlen ⟨by rintro _ ⟨⟩, by simp [w, Write.version], hlen⟩
    refine ⟨_, w, latest.map Prod.snd, ?_, rfl, hsnoc, hvisible, by rintro ⟨⟩⟩
    have hscan : s.getLatestVersionInfo key = .ok latest := hlatest
    simp only [MvccStore.execute, delete, hnext, hscan]
    rfl

variable (σ) in
/-- Every history of calls that fit succeeds, and the engine holds its versions. What is true of no
calls and kept by each of them is true of the history. -/
lemma exists_run_of {P : List Write → Prop} (hnil : P [])
    (hsnoc : ∀ (s : MvccStore σ) writes w latest, ScansKey σ w.op.key → Holds s writes → P writes →
      firstVisible writes.length (s.scanKey w.op.key) = .ok latest →
      (w.op.isPut → w.createRevision = createRevisionOf latest (writes.length + 1)) →
      P (writes ++ [w])) {ops : List Op} (hkeys : ∀ op ∈ ops, ScansKey σ op.key)
    (hfits : ∀ op ∈ ops, op.Fits) (hlen : ops.length < 2 ^ 64) :
    ∃ (s : MvccStore σ) (writes : List Write), run σ ops = .ok s ∧ Holds s writes ∧
      writes.map Write.op = ops ∧ P writes := by
  induction ops using List.reverseRecOn with
  | nil =>
    refine ⟨_, [], rfl, ⟨rfl, by simp, by simp, ?_⟩, rfl, hnil⟩
    simp [new, StorageEngine.get_empty]
  | append_singleton ops op ih =>
    rw [List.length_append, List.length_singleton] at hlen
    obtain ⟨s, writes, hrun, hholds, rfl, hP⟩ :=
      ih (fun op hop => hkeys op (List.mem_append_left _ hop))
        (fun op hop => hfits op (List.mem_append_left _ hop)) (Nat.lt_of_succ_lt hlen)
    rw [List.length_map] at hlen
    have hkey := hkeys op (by simp)
    -- one call more: it succeeds and stores one version
    obtain ⟨s', w, latest, hexec, rfl, hholds', hlatest, hcreate⟩ :=
      hholds.execute (hfits op (by simp)) hlen
    refine ⟨s', writes ++ [w], ?_, hholds', by simp,
      hsnoc s writes w latest hkey hholds hP hlatest hcreate⟩
    rw [run, List.foldlM_append]
    refine bind_eq_ok_iff.mpr ⟨s, hrun, ?_⟩
    rw [List.foldlM_cons, hexec]
    rfl

/-! ### Neighbours -/

/-- The version of the call at index `i` comes directly behind a newer version of the same key. -/
def Superseded (history : List Op) (i : ℕ) : Prop :=
  ∃ op ∈ history[i]?, ∃ j < history.length, i < j ∧ history[j]?.map Op.key = some op.key ∧
    ∀ l < history.length, ∀ x ∈ history[l]?,
      ¬ (encodeKey op.key (j + 1) < encodeKey x.key (l + 1) ∧
        encodeKey x.key (l + 1) < encodeKey op.key (i + 1))

instance (history : List Op) (i : ℕ) : Decidable (Superseded history i) := by
  unfold Superseded
  infer_instance

/-- If there is a newer version of the key and no version of another key between any such and it, it
comes directly behind the next newer one. -/
lemma superseded_of_alone {history : List Op} (hlen : history.length < 2 ^ 64) {i : ℕ} {op : Op}
    (hop : history[i]? = some op) (hnewer : ∃ j, i < j ∧ history[j]?.map Op.key = some op.key)
    (halone : ∀ j l x, history[j]?.map Op.key = some op.key → history[l]? = some x →
      encodeKey op.key (j + 1) < encodeKey x.key (l + 1) →
      encodeKey x.key (l + 1) < encodeKey op.key (i + 1) → x.key = op.key) :
    Superseded history i := by
  have hlt : ∀ {j : ℕ} {op : Op}, history[j]? = some op → j + 1 < 2 ^ 64 := fun hop =>
    (Nat.succ_le_of_lt (List.getElem?_eq_some_iff.mp hop).1).trans_lt hlen
  obtain ⟨hij, hj⟩ := Nat.find_spec hnewer
  obtain ⟨op', hop', -⟩ := Option.map_eq_some_iff.mp hj
  refine ⟨op, hop, Nat.find hnewer, (List.getElem?_eq_some_iff.mp hop').1, hij, hj,
    fun l _ x hx ⟨hjl, hli⟩ => ?_⟩
  have hxkey := halone _ l x hj hx hjl hli
  rw [hxkey] at hjl hli
  have hil := (encodeKey_lt_encodeKey_iff op.key (hlt hx) (hlt hop)).mp hli
  have hlj := (encodeKey_lt_encodeKey_iff op.key (hlt hop') (hlt hx)).mp hjl
  refine Nat.find_min hnewer (show l < _ by omega) ⟨by omega, ?_⟩
  rw [Option.mem_def.mp hx, Option.map_some, hxkey]

/-- In a scan that leaves out no version of its key from below, a version comes directly behind
another of its key exactly if it does among all versions. -/
lemma repeats_iff_superseded {writes : List Write} (hlen : writes.length < 2 ^ 64) {lo hi : Bytes}
    {L : List (Write × ℕ)} (hmem : ∀ w i, (w, i) ∈ L ↔ writes[i]? = some w ∧
      lo ≤ w.internalKey (i + 1) ∧ w.internalKey (i + 1) < hi) {w : Write} {i : ℕ}
    (hw : (w, i) ∈ L) (hlo : ∀ j, lo ≤ encodeKey w.op.key (j + 1)) :
    Repeats (fun x : Write × ℕ => x.1.op.key) (fun x => x.1.internalKey (x.2 + 1)) L (w, i) ↔
      Superseded (writes.map Write.op) i := by
  have hindex : ∀ {j : ℕ} {x : Write}, writes[j]? = some x → j + 1 < 2 ^ 64 := by
    intro j x hx
    have := (List.getElem?_eq_some_iff.mp hx).1
    omega
  obtain ⟨hwi, -, hhi⟩ := (hmem w i).mp hw
  constructor
  -- what stands between the two by key would be in the scan as well
  · rintro ⟨⟨p, j⟩, hp, hlt, hkey, hnone⟩
    obtain ⟨hpj, hlop, -⟩ := (hmem p j).mp hp
    have hpik : p.internalKey (j + 1) = encodeKey w.op.key (j + 1) :=
      congrArg (encodeKey · (j + 1)) hkey
    have hlt : encodeKey w.op.key (j + 1) < encodeKey w.op.key (i + 1) := hpik.symm.trans_lt hlt
    refine ⟨w.op, by simp [hwi], j, by simpa using (List.getElem?_eq_some_iff.mp hpj).1, ?_,
      by simpa [hpj] using hkey, ?_⟩
    · have := (encodeKey_lt_encodeKey_iff _ (hindex hpj) (hindex hwi)).mp hlt
      omega
    · intro l _ op hop ⟨hjl, hli⟩
      obtain ⟨x, hx, rfl⟩ : ∃ x, writes[l]? = some x ∧ x.op = op := by simpa using hop
      have hxL : (x, l) ∈ L := (hmem x l).mpr ⟨hx, (hlo j).trans hjl.le, hli.trans hhi⟩
      exact hnone (x, l) hxL ⟨hpik.trans_lt hjl, hli⟩
  · rintro ⟨op, hop, j, hj, hij, hkey, hnone⟩
    obtain ⟨p, hpj, hpkey⟩ : ∃ p, writes[j]? = some p ∧ p.op.key = op.key := by simpa using hkey
    obtain rfl : w.op = op := by simpa [hwi] using hop
    have hlt : encodeKey w.op.key (j + 1) < encodeKey w.op.key (i + 1) :=
      (encodeKey_lt_encodeKey_iff _ (hindex hpj) (hindex hwi)).mpr (by omega)
    have hpik : p.internalKey (j + 1) = encodeKey w.op.key (j + 1) :=
      congrArg (encodeKey · (j + 1)) hpkey
    refine ⟨(p, j), (hmem p j).mpr ⟨hpj, ?_, hpik.trans_lt (hlt.trans hhi)⟩, hpik.trans_lt hlt,
      hpkey, ?_⟩
    · rw [hpik]
      exact hlo j
    · rintro ⟨x, l⟩ hxL ⟨hjl, hli⟩
      obtain ⟨hx, -, -⟩ := (hmem x l).mp hxL
      refine hnone l ?_ x.op (by simp [hx]) ⟨hpik.symm.trans_lt hjl, hli⟩
      simpa using (List.getElem?_eq_some_iff.mp hx).1

end MvccStore

end Raftrust.Mvcc

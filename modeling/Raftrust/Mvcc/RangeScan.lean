import Raftrust.Mvcc.ScanRange
import Raftrust.Mvcc.SnapshotReads

/-!
# Range scans

A scan of the keys from one bound up to another goes once through the versions in the order of their
internal keys and returns each one that is not too new and does not follow one of the same key. The
order of internal keys is not that of user keys if one key starts with another, and the end of the
scanned range is the incremented end key.
-/

namespace Raftrust.Mvcc

open Lib Storage

namespace MvccStore

/-- The loop of a scan over the entries. -/
def visibleIn (startKey endKey : Bytes) (revision : ℕ) :
    Option Bytes → List (Bytes × Bytes) → Except Abort (List KeyValue)
  | _, [] => .ok []
  | lastUserKey, (internalKey, rawValue) :: entries => do
    let (userKey, rev) ← decodeKey internalKey
    if lastUserKey = some userKey then visibleIn startKey endKey revision lastUserKey entries
    else if revision < rev then visibleIn startKey endKey revision lastUserKey entries
    else
      let vv ← VersionedValue.decode rawValue
      let results ← visibleIn startKey endKey revision (some userKey) entries
      let inRange := (vv.toKeyValue userKey).filter fun _ => startKey ≤ userKey ∧ userKey < endKey
      return inRange.toList ++ results

section

variable {σ : Type} [StorageEngine σ]

/-- Scan the keys from `startKey` up to `endKey` at a revision. -/
def scanAtRevision (s : MvccStore σ) (startKey endKey : Bytes) (revision : ℕ) :
    Except Abort (List KeyValue) :=
  visibleIn startKey endKey revision none
    (StorageEngine.scan s.engine (encodeKeyPrefixStart startKey) (encodeKeyPrefixEnd endKey))

/-! ### What a scan should return -/

/-- The last write to the key of the pair up to `revision` is a put of its value, which recorded its
revisions. -/
def Current (s : MvccStore σ) (history : List Op) (revision : ℕ) (kv : KeyValue) : Prop :=
  ∃ ttlSeconds rawValue,
    (writesTo (history.take revision) kv.key).getLast? =
      some (.put kv.key kv.value kv.leaseId ttlSeconds, kv.modRevision) ∧
    StorageEngine.get s.engine (encodeKey kv.key kv.modRevision) = some rawValue ∧
    VersionedValue.decode rawValue =
      .ok ⟨some kv.value, kv.createRevision, kv.modRevision, kv.leaseId, ttlSeconds⟩

/-- One pair for each key from `startKey` up to `endKey` that has a value, in the order of the
keys. -/
@[mk_iff]
structure ExactScan (s : MvccStore σ) (history : List Op) (startKey endKey : Bytes) (revision : ℕ)
    (result : List KeyValue) : Prop where
  sorted : result.Pairwise fun a b => a.key < b.key
  mem_iff : ∀ kv, kv ∈ result ↔
    (startKey ≤ kv.key ∧ kv.key < endKey) ∧ Current s history revision kv

end

/-! ### When it does -/

/-- The puts to keys from `startKey` up to `endKey`, with their indices. -/
def putsIn (history : List Op) (startKey endKey : Bytes) : List (Op × ℕ) :=
  history.zipIdx.filter fun x => x.1.isPut ∧ startKey ≤ x.1.key ∧ x.1.key < endKey

/-- No later call writes to the key. -/
def IsLast (history : List Op) (x : Op × ℕ) : Prop :=
  ∀ y ∈ history.zipIdx, y.1.key = x.1.key → y.2 ≤ x.2
  deriving Decidable

/-- The last puts of the keys are scanned and in the order of the keys, and the others come directly
behind newer versions of their keys. -/
@[mk_iff]
structure Scannable (history : List Op) (startKey endKey : Bytes) : Prop where
  reached : ∀ x ∈ putsIn history startKey endKey, IsLast history x →
    encodeKey x.1.key (x.2 + 1) < encodeKeyPrefixEnd endKey
  grouped : ∀ x ∈ putsIn history startKey endKey, ¬ IsLast history x →
    encodeKey x.1.key (x.2 + 1) < encodeKeyPrefixEnd endKey → Superseded history x.2
  ordered : ∀ x ∈ putsIn history startKey endKey, ∀ y ∈ putsIn history startKey endKey,
    IsLast history x → IsLast history y → x.1.key < y.1.key →
      encodeKey x.1.key (x.2 + 1) < encodeKey y.1.key (y.2 + 1)

instance (history : List Op) (startKey endKey : Bytes) :
    Decidable (Scannable history startKey endKey) :=
  decidable_of_iff _ (scannable_iff history startKey endKey).symm

section

variable {history : List Op} {startKey endKey : Bytes} {op : Op} {i : ℕ}

lemma mem_putsIn : (op, i) ∈ putsIn history startKey endKey ↔
    history[i]? = some op ∧ op.isPut ∧ startKey ≤ op.key ∧ op.key < endKey := by
  rw [putsIn, List.mem_filter, List.mk_mem_zipIdx_iff_getElem?, decide_eq_true_iff]

lemma isLast_iff : IsLast history (op, i) ↔
    ∀ j op', history[j]? = some op' → op'.key = op.key → j ≤ i := by
  simp only [IsLast, Prod.forall, List.mk_mem_zipIdx_iff_getElem?]
  exact ⟨fun h j op' => h op' j, fun h op' j => h j op'⟩

/-- A last write has no newer version to come behind. -/
lemma IsLast.not_superseded (h : IsLast history (op, i)) (hop : history[i]? = some op) :
    ¬ Superseded history i := by
  rintro ⟨op', hop', j, -, hij, hj, -⟩
  obtain rfl : op = op' := Option.some.inj (hop.symm.trans hop')
  obtain ⟨x, hx, hkey⟩ := Option.map_eq_some_iff.mp hj
  exact absurd (isLast_iff.mp h j x hx hkey) (by omega)

lemma getLast?_writesTo_eq_some_iff {key : Bytes} {revision : ℕ} :
    (writesTo history key).getLast? = some (op, revision) ↔
      ∃ i, revision = i + 1 ∧ history[i]? = some op ∧ op.key = key ∧ IsLast history (op, i) := by
  induction history using List.reverseRecOn with
  | nil => simp [writesTo]
  | append_singleton history a ih =>
    rw [writesTo_snoc]
    by_cases ha : a.key = key
    · rw [if_pos ha, List.getLast?_concat, Option.some.injEq, Prod.mk.injEq]
      constructor
      · rintro ⟨rfl, rfl⟩
        refine ⟨history.length, rfl, List.getElem?_concat_length, ha, isLast_iff.mpr ?_⟩
        intro j op' hop' _
        have := (List.getElem?_eq_some_iff.mp hop').1
        simp at this
        omega
      · rintro ⟨i, rfl, hop, hkey, hlast⟩
        have hle := isLast_iff.mp hlast history.length a List.getElem?_concat_length
          (ha.trans hkey.symm)
        rcases getElem?_snoc_eq_some_iff.mp hop with hold | ⟨rfl, rfl⟩
        · exact absurd (List.getElem?_eq_some_iff.mp hold).1 (by omega)
        · exact ⟨rfl, rfl⟩
    · rw [if_neg ha, List.append_nil, ih]
      refine exists_congr fun i => and_congr_right fun _ => ?_
      constructor
      · rintro ⟨hop, hkey, hlast⟩
        refine ⟨getElem?_snoc_eq_some_iff.mpr (.inl hop), hkey, isLast_iff.mpr ?_⟩
        intro j op' hop' hkey'
        rcases getElem?_snoc_eq_some_iff.mp hop' with hold | ⟨rfl, rfl⟩
        · exact isLast_iff.mp hlast j op' hold hkey'
        · exact absurd (hkey'.trans hkey) ha
      · rintro ⟨hop, hkey, hlast⟩
        refine ⟨?_, hkey, isLast_iff.mpr ?_⟩
        · rcases getElem?_snoc_eq_some_iff.mp hop with hold | ⟨rfl, rfl⟩
          · exact hold
          · exact absurd hkey ha
        · intro j op' hop'
          exact isLast_iff.mp hlast j op' (getElem?_snoc_eq_some_iff.mpr (.inl hop'))

end

/-- A put in the range is the last of its key exactly if its version is scanned and does not come
directly behind a newer one. -/
def LastScanned (history : List Op) (startKey endKey : Bytes) : Prop :=
  ∀ x ∈ putsIn history startKey endKey, IsLast history x ↔
    encodeKey x.1.key (x.2 + 1) < encodeKeyPrefixEnd endKey ∧ ¬ Superseded history x.2

lemma scannable_iff_lastScanned {history : List Op} {startKey endKey : Bytes} :
    Scannable history startKey endKey ↔ LastScanned history startKey endKey ∧
      ∀ x ∈ putsIn history startKey endKey, ∀ y ∈ putsIn history startKey endKey,
        IsLast history x → IsLast history y → x.1.key < y.1.key →
          encodeKey x.1.key (x.2 + 1) < encodeKey y.1.key (y.2 + 1) := by
  constructor
  · intro h
    refine ⟨fun x hx => ⟨fun hlast => ?_, fun ⟨hend, hnot⟩ => ?_⟩, h.ordered⟩
    · exact ⟨h.reached x hx hlast, hlast.not_superseded (mem_putsIn.mp hx).1⟩
    · exact not_not.mp fun hlast => hnot (h.grouped x hx hlast hend)
  · rintro ⟨hlast, hordered⟩
    refine ⟨fun x hx h => ((hlast x hx).mp h).1, fun x hx h hend => ?_, hordered⟩
    exact not_not.mp fun hnot => h ((hlast x hx).mpr ⟨hend, hnot⟩)

/-! ### The loop -/

/-- What a scan returns for a version, if it is the first of its key. -/
def reading (startKey endKey : Bytes) (x : Write × ℕ) : Option KeyValue :=
  ((x.1.version (x.2 + 1)).toKeyValue x.1.op.key).filter fun _ =>
    startKey ≤ x.1.op.key ∧ x.1.op.key < endKey

variable {σ : Type} [OrderedEngine σ] {s : MvccStore σ} {writes : List Write}
  {startKey endKey : Bytes}

lemma reading_eq_some_iff {w : Write} {i : ℕ} {kv : KeyValue} :
    reading startKey endKey (w, i) = some kv ↔
      (w.version (i + 1)).toKeyValue w.op.key = some kv ∧
        startKey ≤ w.op.key ∧ w.op.key < endKey := by
  rw [reading, Option.filter_eq_some_iff, decide_eq_true_iff]

lemma Holds.visibleIn_map (h : Holds s writes) (revision : ℕ) {L : List (Write × ℕ)}
    (hL : ∀ x ∈ L, writes[x.2]? = some x.1) (last : Option Bytes) :
    visibleIn startKey endKey revision last (L.map fun x => x.1.entry x.2) =
      .ok ((firsts (fun x : Write × ℕ => x.1.op.key) last
        (L.filter fun x => x.2 + 1 ≤ revision)).filterMap (reading startKey endKey)) := by
  induction L generalizing last with
  | nil => rfl
  | cons x L ih =>
    obtain ⟨hkey, hvalue⟩ := h.decode_entry (hL x List.mem_cons_self)
    have hrest := ih fun y hy => hL y (List.mem_cons_of_mem _ hy)
    rw [List.map_cons, visibleIn, hkey]
    by_cases hnew : x.2 + 1 ≤ revision
    · rw [List.filter_cons_of_pos (by simpa using hnew)]
      by_cases hlast : last = some x.1.op.key
      · subst hlast
        rw [firsts_cons_self]
        simp only [bind, Except.bind, if_true]
        exact hrest _
      · have hcons : ∀ l, firsts (fun x : Write × ℕ => x.1.op.key) last (x :: l) = _ :=
          firsts_cons_of_ne hlast
        have hmap : ∀ l, List.filterMap (reading startKey endKey) (x :: l) =
            (reading startKey endKey x).toList ++ l.filterMap (reading startKey endKey) := by
          cases hread : reading startKey endKey x <;> simp [hread]
        rw [hcons, hmap]
        simp only [bind, Except.bind, if_neg hlast, if_neg (Nat.not_lt.mpr hnew), hvalue, hrest]
        rfl
    -- a version that is too new is passed over and its key not remembered
    · rw [List.filter_cons_of_neg (by simpa using hnew)]
      simp only [bind, Except.bind, if_pos (Nat.lt_of_not_le hnew), ite_self]
      exact hrest _

/-- A scan as a list of versions, of which those of other keys do not count. -/
lemma Holds.exists_scanAtRevision (h : Holds s writes) (startKey endKey : Bytes) (revision : ℕ) :
    ∃ K : List (Write × ℕ),
      s.scanAtRevision startKey endKey revision =
        .ok (K.filterMap (reading startKey endKey)) ∧
      (K.Pairwise fun x y => x.1.internalKey (x.2 + 1) < y.1.internalKey (y.2 + 1)) ∧
      ∀ w i, startKey ≤ w.op.key → ((w, i) ∈ K ↔ (writes.take revision)[i]? = some w ∧
        w.internalKey (i + 1) < encodeKeyPrefixEnd endKey ∧
        ¬ Superseded ((writes.map Write.op).take revision) i) := by
  obtain ⟨L, hscan, hsorted, hmem⟩ :=
    h.exists_scanRange (encodeKeyPrefixStart startKey) (encodeKeyPrefixEnd endKey)
  set L' := L.filter fun x => x.2 + 1 ≤ revision with hL'
  have hsorted' : L'.Pairwise fun x y => x.1.internalKey (x.2 + 1) < y.1.internalKey (y.2 + 1) :=
    hsorted.filter _
  have hmem' : ∀ w i, (w, i) ∈ L' ↔ (writes.take revision)[i]? = some w ∧
      encodeKeyPrefixStart startKey ≤ w.internalKey (i + 1) ∧
      w.internalKey (i + 1) < encodeKeyPrefixEnd endKey := by
    intro w i
    rw [hL', List.mem_filter, hmem, decide_eq_true_iff, List.getElem?_take]
    split
    · next hi => exact and_iff_left hi
    · next hi => exact iff_of_false (fun hx => hi hx.2) (by simp)
  -- of every run of versions of one key the scan takes the first that is not too new
  refine ⟨firsts (fun x : Write × ℕ => x.1.op.key) none L', ?_, ?_, ?_⟩
  · rw [scanAtRevision, hscan, h.visibleIn_map revision fun x hx => ((hmem x.1 x.2).mp hx).1]
  · exact hsorted'.sublist (firsts_sublist _ _)
  · intro w i hstart
    have hlo : ∀ j, encodeKeyPrefixStart startKey ≤ encodeKey w.op.key (j + 1) := fun j =>
      encodeKeyPrefixStart_le hstart (j + 1)
    have hlen : (writes.take revision).length < 2 ^ 64 :=
      (List.length_take_le' _ _).trans_lt h.length_lt
    rw [mem_firsts_iff hsorted', ← List.map_take]
    constructor
    · rintro ⟨hw, hnot⟩
      rw [repeats_iff_superseded hlen hmem' hw hlo] at hnot
      exact ⟨((hmem' w i).mp hw).1, ((hmem' w i).mp hw).2.2, hnot⟩
    · rintro ⟨hw, hend, hnot⟩
      have hw := (hmem' w i).mpr ⟨hw, hlo i, hend⟩
      exact ⟨hw, by rwa [repeats_iff_superseded hlen hmem' hw hlo]⟩

lemma Holds.current_iff (h : Holds s writes) {revision : ℕ} {kv : KeyValue} :
    Current s (writes.map Write.op) revision kv ↔
      ∃ w i, (writes.take revision)[i]? = some w ∧
        IsLast ((writes.map Write.op).take revision) (w.op, i) ∧
        (w.version (i + 1)).toKeyValue w.op.key = some kv := by
  have hget : ∀ {w : Write} {i : ℕ}, (writes.take revision)[i]? = some w →
      StorageEngine.get s.engine (w.internalKey (i + 1)) = some (w.entry i).2 ∧
        VersionedValue.decode (w.entry i).2 = .ok (w.version (i + 1)) := by
    intro w i hw
    have hw := getElem?_of_isPrefix (List.take_prefix revision _) hw
    exact ⟨(h.get_iff (w.entry i)).mpr ⟨i, w, hw, rfl⟩, (h.decode_entry hw).2⟩
  constructor
  · obtain ⟨key, value, createRevision, modRevision, leaseId⟩ := kv
    rintro ⟨ttlSeconds, rawValue, hlast, hraw, hvalue⟩
    -- the version read back is the one this put stored
    obtain ⟨i, rfl, hop, -, hlast⟩ := getLast?_writesTo_eq_some_iff.mp hlast
    obtain ⟨⟨op, created⟩, hw, rfl⟩ : ∃ w : Write, (writes.take revision)[i]? = some w ∧
        w.op = .put key value leaseId ttlSeconds := by
      rw [← List.map_take, List.getElem?_map] at hop
      exact Option.map_eq_some_iff.mp hop
    obtain ⟨hget, hdecode⟩ := hget hw
    obtain rfl := Option.some.inj (hraw.symm.trans hget)
    obtain ⟨-, rfl, -⟩ := VersionedValue.mk.inj (Except.ok.inj (hdecode.symm.trans hvalue))
    exact ⟨_, i, hw, hlast, rfl⟩
  · rintro ⟨⟨op, createRevision⟩, i, hw, hlast, hread⟩
    obtain ⟨hget, hdecode⟩ := hget hw
    cases op with
    | delete key => cases hread
    | put key value leaseId ttlSeconds =>
      obtain rfl := Option.some.inj hread
      refine ⟨ttlSeconds, _, getLast?_writesTo_eq_some_iff.mpr ⟨i, rfl, ?_, rfl, hlast⟩, hget,
        hdecode⟩
      rw [← List.map_take, List.getElem?_map, hw]
      rfl

section

variable {revision : ℕ} {K : List (Write × ℕ)}
  (hsorted : K.Pairwise fun x y => x.1.internalKey (x.2 + 1) < y.1.internalKey (y.2 + 1))
  (hmem : ∀ w i, startKey ≤ w.op.key → ((w, i) ∈ K ↔ (writes.take revision)[i]? = some w ∧
    w.internalKey (i + 1) < encodeKeyPrefixEnd endKey ∧
    ¬ Superseded ((writes.map Write.op).take revision) i))

lemma mem_putsIn_map {w : Write} {i : ℕ} (hw : (writes.take revision)[i]? = some w) :
    (w.op, i) ∈ putsIn ((writes.map Write.op).take revision) startKey endKey ↔
      w.op.isPut ∧ startKey ≤ w.op.key ∧ w.op.key < endKey := by
  rw [mem_putsIn, ← List.map_take, List.getElem?_map, hw]
  exact and_iff_right rfl

lemma exists_write_of_mem_putsIn {op : Op} {i : ℕ}
    (h : (op, i) ∈ putsIn ((writes.map Write.op).take revision) startKey endKey) :
    ∃ w : Write, (writes.take revision)[i]? = some w ∧ w.op = op := by
  have hop := (mem_putsIn.mp h).1
  rw [← List.map_take, List.getElem?_map] at hop
  exact Option.map_eq_some_iff.mp hop

include hmem in
/-- A scan returns the versions that are reached and not superseded. -/
lemma mem_filterMap_reading_iff {kv : KeyValue} :
    kv ∈ K.filterMap (reading startKey endKey) ↔ ∃ w i, (writes.take revision)[i]? = some w ∧
      w.internalKey (i + 1) < encodeKeyPrefixEnd endKey ∧
      ¬ Superseded ((writes.map Write.op).take revision) i ∧
      (w.version (i + 1)).toKeyValue w.op.key = some kv ∧
      startKey ≤ w.op.key ∧ w.op.key < endKey := by
  rw [List.mem_filterMap]
  constructor
  · rintro ⟨⟨w, i⟩, hK, hread⟩
    obtain ⟨hread, hrange⟩ := reading_eq_some_iff.mp hread
    obtain ⟨hw, hend, hnot⟩ := (hmem w i hrange.1).mp hK
    exact ⟨w, i, hw, hend, hnot, hread, hrange⟩
  · rintro ⟨w, i, hw, hend, hnot, hread, hrange⟩
    exact ⟨(w, i), (hmem w i hrange.1).mpr ⟨hw, hend, hnot⟩,
      reading_eq_some_iff.mpr ⟨hread, hrange⟩⟩

include hmem in
/-- A scan returns what is current exactly if the last puts are the ones that are returned. -/
lemma Holds.mem_iff_current_iff (h : Holds s writes) :
    (∀ kv, kv ∈ K.filterMap (reading startKey endKey) ↔
        (startKey ≤ kv.key ∧ kv.key < endKey) ∧ Current s (writes.map Write.op) revision kv) ↔
      LastScanned ((writes.map Write.op).take revision) startKey endKey := by
  -- a key-value pair tells which write it comes from
  have hindex : ∀ {w v : Write} {i j : ℕ} {kv : KeyValue}, (writes.take revision)[i]? = some w →
      (w.version (i + 1)).toKeyValue w.op.key = some kv → (writes.take revision)[j]? = some v →
      (v.version (j + 1)).toKeyValue v.op.key = some kv → j = i ∧ v = w := by
    intro w v i j kv hw hwkv hv hvkv
    have hij := (Write.of_toKeyValue_eq_some hwkv).2.2.symm.trans
      (Write.of_toKeyValue_eq_some hvkv).2.2
    obtain rfl := Nat.succ.inj hij
    exact ⟨rfl, Option.some.inj (hv.symm.trans hw)⟩
  constructor
  · rintro hexact ⟨op, i⟩ hx
    obtain ⟨w, hw, rfl⟩ := exists_write_of_mem_putsIn hx
    obtain ⟨hput, hrange⟩ := (mem_putsIn_map hw).mp hx
    obtain ⟨kv, hkv, -⟩ := Write.exists_toKeyValue hput w.op.key (i + 1)
    have hkey := (Write.of_toKeyValue_eq_some hkv).2.1
    have hkv' := hexact kv
    rw [mem_filterMap_reading_iff hmem, h.current_iff, hkey, and_iff_right hrange] at hkv'
    constructor
    · intro hlast
      obtain ⟨v, j, hv, hend, hnot, hvkv, -⟩ := hkv'.mpr ⟨w, i, hw, hlast, hkv⟩
      obtain ⟨rfl, rfl⟩ := hindex hw hkv hv hvkv
      exact ⟨hend, hnot⟩
    · rintro ⟨hend, hnot⟩
      obtain ⟨v, j, hv, hlast, hvkv⟩ := hkv'.mp ⟨w, i, hw, hend, hnot, hkv, hrange⟩
      obtain ⟨rfl, rfl⟩ := hindex hw hkv hv hvkv
      exact hlast
  · intro hlast kv
    rw [mem_filterMap_reading_iff hmem, h.current_iff]
    constructor
    · rintro ⟨w, i, hw, hend, hnot, hkv, hrange⟩
      obtain ⟨hput, hkey, -⟩ := Write.of_toKeyValue_eq_some hkv
      rw [hkey]
      exact ⟨hrange, w, i, hw,
        (hlast _ ((mem_putsIn_map hw).mpr ⟨hput, hrange⟩)).mpr ⟨hend, hnot⟩, hkv⟩
    · rintro ⟨hrange, w, i, hw, hwlast, hkv⟩
      obtain ⟨hput, hkey, -⟩ := Write.of_toKeyValue_eq_some hkv
      rw [hkey] at hrange
      obtain ⟨hend, hnot⟩ := (hlast _ ((mem_putsIn_map hw).mpr ⟨hput, hrange⟩)).mp hwlast
      exact ⟨w, i, hw, hend, hnot, hkv, hrange⟩

include hmem in
/-- Of the puts in the range a scan goes through the last ones. -/
lemma mem_iff_isLast
    (hlast : LastScanned ((writes.map Write.op).take revision) startKey endKey) {w : Write} {i : ℕ}
    (hput : w.op.isPut) (hrange : startKey ≤ w.op.key ∧ w.op.key < endKey) :
    (w, i) ∈ K ↔ (writes.take revision)[i]? = some w ∧
      IsLast ((writes.map Write.op).take revision) (w.op, i) := by
  rw [hmem w i hrange.1]
  exact and_congr_right fun hw => (hlast _ ((mem_putsIn_map hw).mpr ⟨hput, hrange⟩)).symm

include hsorted hmem in
/-- Last puts that are returned in the order of their keys are scanned in it. -/
lemma ordered_of_sorted (hlen : writes.length < 2 ^ 64)
    (hlast : LastScanned ((writes.map Write.op).take revision) startKey endKey)
    (hpairs : (K.filterMap (reading startKey endKey)).Pairwise fun a b => a.key < b.key)
    {w v : Write} {i j : ℕ} (hw : (writes.take revision)[i]? = some w)
    (hv : (writes.take revision)[j]? = some v)
    (hwput : w.op.isPut) (hwrange : startKey ≤ w.op.key ∧ w.op.key < endKey)
    (hvput : v.op.isPut) (hvrange : startKey ≤ v.op.key ∧ v.op.key < endKey)
    (hwlast : IsLast ((writes.map Write.op).take revision) (w.op, i))
    (hvlast : IsLast ((writes.map Write.op).take revision) (v.op, j))
    (hlt : w.op.key < v.op.key) : encodeKey w.op.key (i + 1) < encodeKey v.op.key (j + 1) := by
  have hindex : ∀ {w : Write} {i : ℕ}, (writes.take revision)[i]? = some w → i + 1 < 2 ^ 64 :=
    fun hw => (Nat.succ_le_of_lt (List.getElem?_eq_some_iff.mp hw).1).trans_lt
      ((List.length_take_le' _ _).trans_lt hlen)
  rw [List.pairwise_filterMap, pairwise_iff_of_sorted hsorted] at hpairs
  obtain ⟨a, ha, -⟩ := Write.exists_toKeyValue hwput w.op.key (i + 1)
  obtain ⟨b, hb, -⟩ := Write.exists_toKeyValue hvput v.op.key (j + 1)
  -- the other way round they would be returned in the wrong order
  rcases lt_trichotomy (encodeKey w.op.key (i + 1)) (encodeKey v.op.key (j + 1)) with
    hik | hik | hik
  · exact hik
  · exact absurd (encodeKey_inj (hindex hw) (hindex hv) hik).1 hlt.ne
  · have hpair := hpairs (v, j) ((mem_iff_isLast hmem hlast hvput hvrange).mpr ⟨hv, hvlast⟩) (w, i)
      ((mem_iff_isLast hmem hlast hwput hwrange).mpr ⟨hw, hwlast⟩) hik b
      (reading_eq_some_iff.mpr ⟨hb, hvrange⟩) a (reading_eq_some_iff.mpr ⟨ha, hwrange⟩)
    rw [(Write.of_toKeyValue_eq_some ha).2.1, (Write.of_toKeyValue_eq_some hb).2.1] at hpair
    exact absurd hlt (lt_asymm hpair)

include hsorted hmem in
/-- Last puts are returned in the order of their keys exactly if they are scanned in it. -/
lemma sorted_iff_ordered (hlen : writes.length < 2 ^ 64)
    (hlast : LastScanned ((writes.map Write.op).take revision) startKey endKey) :
    ((K.filterMap (reading startKey endKey)).Pairwise fun a b => a.key < b.key) ↔
      ∀ x ∈ putsIn ((writes.map Write.op).take revision) startKey endKey,
        ∀ y ∈ putsIn ((writes.map Write.op).take revision) startKey endKey,
        IsLast ((writes.map Write.op).take revision) x →
        IsLast ((writes.map Write.op).take revision) y → x.1.key < y.1.key →
          encodeKey x.1.key (x.2 + 1) < encodeKey y.1.key (y.2 + 1) := by
  constructor
  · rintro hpairs ⟨op, i⟩ hx ⟨op', j⟩ hy hxlast hylast hlt
    obtain ⟨w, hw, rfl⟩ := exists_write_of_mem_putsIn hx
    obtain ⟨v, hv, rfl⟩ := exists_write_of_mem_putsIn hy
    obtain ⟨hwput, hwrange⟩ := (mem_putsIn_map hw).mp hx
    obtain ⟨hvput, hvrange⟩ := (mem_putsIn_map hv).mp hy
    exact ordered_of_sorted hsorted hmem hlen hlast hpairs hw hv hwput hwrange hvput hvrange hxlast
      hylast hlt
  · intro hordered
    rw [List.pairwise_filterMap, pairwise_iff_of_sorted hsorted]
    rintro ⟨w, i⟩ hwK ⟨v, j⟩ hvK hlt a ha b hb
    obtain ⟨ha, hwrange⟩ := reading_eq_some_iff.mp ha
    obtain ⟨hb, hvrange⟩ := reading_eq_some_iff.mp hb
    obtain ⟨hwput, hwkey, -⟩ := Write.of_toKeyValue_eq_some ha
    obtain ⟨hvput, hvkey, -⟩ := Write.of_toKeyValue_eq_some hb
    obtain ⟨hw, hwlast⟩ := (mem_iff_isLast hmem hlast hwput hwrange).mp hwK
    obtain ⟨hv, hvlast⟩ := (mem_iff_isLast hmem hlast hvput hvrange).mp hvK
    have hwmem := (mem_putsIn_map hw).mpr ⟨hwput, hwrange⟩
    have hvmem := (mem_putsIn_map hv).mpr ⟨hvput, hvrange⟩
    rw [hwkey, hvkey]
    -- two last puts of one key are the same put
    rcases lt_trichotomy w.op.key v.op.key with hkey | hkey | hkey
    · exact hkey
    · have hij : i = j := le_antisymm
        (isLast_iff.mp hvlast i w.op (mem_putsIn.mp hwmem).1 hkey)
        (isLast_iff.mp hwlast j v.op (mem_putsIn.mp hvmem).1 hkey.symm)
      rw [Write.internalKey, Write.internalKey, hkey, hij] at hlt
      exact absurd hlt (lt_irrefl _)
    · exact absurd hlt (lt_asymm (hordered _ hvmem _ hwmem hvlast hwlast hkey))

end

variable (σ) in
/-- **Range scans.** After any history, a scan is exact if and only if the last puts of the keys in
the range are scanned and in the order of the keys, and all others come directly behind newer
versions. -/
theorem scanAtRevision_exact_iff {history : List Op} (hfits : ∀ op ∈ history, op.Fits)
    (hlen : history.length < 2 ^ 64) (startKey endKey : Bytes) (revision : ℕ) :
    ∃ (s : MvccStore σ) (result : List KeyValue), run σ history = .ok s ∧
      s.scanAtRevision startKey endKey revision = .ok result ∧
      (ExactScan s history startKey endKey revision result ↔
        Scannable (history.take revision) startKey endKey) := by
  obtain ⟨s, writes, hrun, hholds, rfl, -⟩ := exists_run σ hfits hlen
  obtain ⟨K, hscan, hsorted, hmem⟩ := hholds.exists_scanAtRevision startKey endKey revision
  refine ⟨s, _, hrun, hscan, ?_⟩
  rw [exactScan_iff, scannable_iff_lastScanned, hholds.mem_iff_current_iff hmem, and_comm]
  exact and_congr_right fun hlast => sorted_iff_ordered hsorted hmem hholds.length_lt hlast

/-- A scan over two keys of one length, one of them written three times, is exact. -/
theorem scanAtRevision_exact_twoKeys :
    let history : List Op :=
      [.put [0x61] [1] 0 0, .put [0x62] [2] 0 0, .delete [0x61], .put [0x61] [3] 0 0]
    Scannable (history.take 4) [0x61] [0x63] ∧
      ∃ (s : MvccStore (Std.TreeMap Bytes Bytes)) (result : List KeyValue),
        run (Std.TreeMap Bytes Bytes) history = .ok s ∧
        s.scanAtRevision [0x61] [0x63] 4 = .ok result ∧
        ExactScan s history [0x61] [0x63] 4 result := by
  intro history
  have hscannable : Scannable (history.take 4) [0x61] [0x63] := by decide +kernel
  have hfits : ∀ op ∈ history, op.Fits := by simp [history, Op.Fits]
  obtain ⟨s, result, hrun, hscan, hexact⟩ := scanAtRevision_exact_iff (Std.TreeMap Bytes Bytes)
    hfits (by decide) [0x61] [0x63] 4
  exact ⟨hscannable, s, result, hrun, hscan, hexact.mpr hscannable⟩

/-- With the keys `a` and `ab`, a scan from `a` up to `b` returns `ab` before `a`, and a scan from
`a` up to `ab` does not return `a`. -/
theorem scan_a_and_ab :
    let history : List Op := [.put [0x61] [1] 0 0, .put [0x61, 0x62] [2] 0 0]
    let a : KeyValue := ⟨[0x61], [1], 1, 1, 0⟩
    let ab : KeyValue := ⟨[0x61, 0x62], [2], 2, 2, 0⟩
    ∃ s : MvccStore (Std.TreeMap Bytes Bytes), run (Std.TreeMap Bytes Bytes) history = .ok s ∧
      s.scanAtRevision [0x61] [0x62] 2 = .ok [ab, a] ∧
      ¬ ExactScan s history [0x61] [0x62] 2 [ab, a] ∧
      s.scanAtRevision [0x61] [0x61, 0x62] 2 = .ok [] ∧
      ¬ ExactScan s history [0x61] [0x61, 0x62] 2 [] := by
  intro history a ab
  refine ⟨_, rfl, rfl, fun hexact => ?_, rfl, fun hexact => ?_⟩
  · have := hexact.sorted
    revert this
    decide
  · have hmem : a ∈ ([] : List KeyValue) := (hexact.mem_iff a).mpr ⟨by decide, 0,
      VersionedValue.encode ⟨some [1], 1, 1, 0, 0⟩, rfl, by decide +kernel, rfl⟩
    cases hmem

/-! ### Keys that do not start with one another -/

section

variable {history : List Op} (hlen : history.length < 2 ^ 64)
  (hkeys : ∀ op ∈ history, ∀ op' ∈ history, op.key <+: op'.key → op.key = op'.key)

include hkeys

/-- The versions of two written keys are in the order of the keys. -/
lemma encodeKey_lt_of_unrelated {i j : ℕ} {op op' : Op} (hop : history[i]? = some op)
    (hop' : history[j]? = some op') (hlt : op.key < op'.key) (m n : ℕ) :
    encodeKey op.key m < encodeKey op'.key n := by
  refine append_lt_append_of_lt hlt (fun hp => hlt.ne ?_) _ _
  exact hkeys op (List.mem_of_getElem? hop) op' (List.mem_of_getElem? hop') hp

include hlen in
/-- The versions of a key are next to one another, the newest first. -/
lemma superseded_of_not_isLast {i : ℕ} {op : Op} (hop : history[i]? = some op)
    (hlast : ¬ IsLast history (op, i)) : Superseded history i := by
  refine superseded_of_alone hlen hop ?_ fun j l x hj hx hjl hli => ?_
  · obtain ⟨j, op', hop', hkey, hij⟩ : ∃ j op', history[j]? = some op' ∧ op'.key = op.key ∧
        ¬ j ≤ i := by
      simpa [isLast_iff] using hlast
    exact ⟨j, by omega, by rw [hop', Option.map_some, hkey]⟩
  · rcases lt_trichotomy x.key op.key with hkey | hkey | hkey
    · exact absurd hjl (lt_asymm (encodeKey_lt_of_unrelated hkeys hx hop hkey _ _))
    · exact hkey
    · exact absurd hli (lt_asymm (encodeKey_lt_of_unrelated hkeys hop hx hkey _ _))

end

/-- Scans are exact as long as no key that is written starts with another one, or the end key with
one. -/
theorem scannable_of_unrelated {history : List Op} (hlen : history.length < 2 ^ 64)
    {startKey endKey : Bytes} (hend : Incrementable endKey)
    (hkeys : ∀ op ∈ history, ∀ op' ∈ history, op.key <+: op'.key → op.key = op'.key)
    (hends : ∀ op ∈ history, op.key <+: endKey → op.key = endKey) :
    Scannable history startKey endKey := by
  refine ⟨?_, ?_, ?_⟩
  · rintro ⟨op, i⟩ hx -
    obtain ⟨hop, -, -, hkey⟩ := mem_putsIn.mp hx
    have hnot : ¬ op.key <+: endKey := fun hp => hkey.ne (hends op (List.mem_of_getElem? hop) hp)
    calc encodeKey op.key (i + 1)
      _ < encodeKey endKey 0 := append_lt_append_of_lt hkey hnot _ _
      _ < encodeKeyPrefixEnd endKey := append_lt_incrementBytes hend _ _
  · rintro ⟨op, i⟩ hx hlast -
    exact superseded_of_not_isLast hlen hkeys (mem_putsIn.mp hx).1 hlast
  · rintro ⟨op, i⟩ hx ⟨op', j⟩ hy - - hkey
    exact encodeKey_lt_of_unrelated hkeys (mem_putsIn.mp hx).1 (mem_putsIn.mp hy).1 hkey _ _

end MvccStore

end Raftrust.Mvcc

import Mathlib.Data.List.DropRight
import Raftrust.Lib.History
import Raftrust.Mvcc.Content

/-!
# Snapshot reads

A read at a revision should return what the last write to its key up to that revision left. User
keys have no fixed length and the internal keys no separator, so that versions of one key can lie
in the range that is scanned for another. Reads of a key are exact as long as each such version
comes behind a version of the key itself.
-/

namespace Raftrust.Mvcc

open Lib Storage

namespace MvccStore

/-! ### What a read should return -/

/-- The calls of a history that write to a key, with their revisions. -/
def writesTo (history : List Op) (key : Bytes) : List (Op × ℕ) :=
  (history.zipIdx 1).filter fun w => w.1.key = key

/-- The revision of the first put after the last delete. -/
def firstPut (writes : List (Op × ℕ)) : Option ℕ :=
  (writes.rtakeWhile fun w => w.1.isPut).head?.map fun w => w.2

/-- What the last write to a key left, with the revision of the first put after the last
delete. -/
def expected (history : List Op) (key : Bytes) : Option KeyValue :=
  match (writesTo history key).getLast?, firstPut (writesTo history key) with
  | some (.put _ value leaseId _, revision), some createRevision =>
    some { key := key, value := value, createRevision := createRevision, modRevision := revision,
           leaseId := leaseId }
  | _, _ => none

lemma writesTo_snoc (history : List Op) (op : Op) (key : Bytes) :
    writesTo (history ++ [op]) key =
      writesTo history key ++ if op.key = key then [(op, history.length + 1)] else [] := by
  rw [writesTo, List.zipIdx_append, List.filter_append, writesTo, List.zipIdx_singleton,
    List.filter_cons, Nat.add_comm 1]
  simp

lemma writesTo_snoc_of_eq {history : List Op} {op : Op} {key : Bytes} (h : op.key = key) :
    writesTo (history ++ [op]) key = writesTo history key ++ [(op, history.length + 1)] := by
  rw [writesTo_snoc, if_pos h]

lemma expected_snoc_of_ne {history : List Op} {op : Op} {key : Bytes} (h : op.key ≠ key) :
    expected (history ++ [op]) key = expected history key := by
  rw [expected, writesTo_snoc, if_neg h, List.append_nil, expected]

lemma expected_snoc_delete (history : List Op) (key : Bytes) :
    expected (history ++ [.delete key]) key = none := by
  rw [expected, writesTo_snoc_of_eq (show (Op.delete key).key = key from rfl),
    List.getLast?_concat]

/-- The first put after the last delete is the new one, or the one from before. -/
lemma firstPut_snoc {writes : List (Op × ℕ)} {op : Op} (h : op.isPut) (revision : ℕ) :
    firstPut (writes ++ [(op, revision)]) = some ((firstPut writes).getD revision) := by
  rw [firstPut, List.rtakeWhile_concat_pos _ writes (op, revision) h, firstPut]
  cases writes.rtakeWhile fun w => w.1.isPut <;> rfl

/-- A key that is expected to be absent has no put after its last delete. -/
lemma firstPut_writesTo (history : List Op) (key : Bytes) :
    firstPut (writesTo history key) = (expected history key).map (·.createRevision) := by
  rcases List.eq_nil_or_concat (writesTo history key) with hnil | ⟨ws, ⟨op, revision⟩, hws⟩
  · rw [expected, hnil]
    rfl
  · rw [expected, hws, List.concat_eq_append, List.getLast?_concat]
    cases op with
    | delete key =>
      rw [firstPut, List.rtakeWhile_concat_neg _ ws (.delete key, revision) Bool.false_ne_true]
      rfl
    | put key value leaseId ttlSeconds =>
      rw [firstPut_snoc rfl]
      rfl

lemma expected_snoc_put (history : List Op) (key value : Bytes) (leaseId ttlSeconds : Int64) :
    expected (history ++ [.put key value leaseId ttlSeconds]) key =
      some { key := key, value := value, modRevision := history.length + 1, leaseId := leaseId
             createRevision :=
              ((expected history key).map (·.createRevision)).getD (history.length + 1) } := by
  have hkey : (Op.put key value leaseId ttlSeconds).key = key := rfl
  rw [expected, writesTo_snoc_of_eq hkey, List.getLast?_concat, firstPut_snoc rfl,
    firstPut_writesTo]

/-- Writes to other keys do not matter. -/
lemma expected_take_eq {history : List Op} {key : Bytes} {m r : ℕ} (hmr : m ≤ r)
    (h : ∀ j op, m ≤ j → j < r → history[j]? = some op → op.key ≠ key) :
    expected (history.take r) key = expected (history.take m) key := by
  induction r, hmr using Nat.le_induction with
  | base => rfl
  | succ r hmr ih =>
    have hrest := ih fun j op hj hjr => h j op hj (hjr.trans (Nat.lt_succ_self r))
    rw [List.take_add_one]
    cases hop : history[r]? with
    | none => simpa using hrest
    | some op =>
      rw [Option.toList_some, expected_snoc_of_ne (h r op hmr (Nat.lt_succ_self r) hop), hrest]

lemma exists_write_of_expected {history : List Op} {key : Bytes} {kv : KeyValue}
    (h : expected history key = some kv) :
    ∃ i op, kv.modRevision = i + 1 ∧ history[i]? = some op ∧ op.key = key := by
  rw [expected] at h
  split at h
  · next hlast _ =>
    obtain rfl := Option.some.inj h
    have hmem := List.mem_filter.mp (List.mem_of_getLast? hlast)
    obtain ⟨hle, hget⟩ := List.mk_mem_zipIdx_iff_le_and_getElem?_sub.mp hmem.1
    exact ⟨_, _, (Nat.sub_add_cancel hle).symm, hget, by simpa using hmem.2⟩
  · cases h

lemma exists_expected_of_put {history : List Op} {key : Bytes} {i : ℕ} {op : Op}
    (hop : history[i]? = some op) (hput : op.isPut) (hkey : op.key = key) :
    ∃ kv, expected (history.take (i + 1)) key = some kv ∧ kv.modRevision = i + 1 := by
  have hi := (List.getElem?_eq_some_iff.mp hop).1
  cases op with
  | delete k => cases hput
  | put k value leaseId ttlSeconds =>
    obtain rfl : k = key := hkey
    rw [List.take_add_one, hop, Option.toList_some, expected_snoc_put]
    exact ⟨_, rfl, by rw [List.length_take_of_le hi.le]⟩

/-! ### Shielded keys -/

/-- The versions of a key that is written as `keys` say are found by a scan for it, and every
version of another key in the range of the scan comes behind an earlier version of the key. -/
def Shielded (keys : List Bytes) (key : Bytes) : Prop :=
  ∀ j < keys.length, ∀ k ∈ keys[j]?,
    if k = key then InScan key (encodeKey key (j + 1))
    else InScan key (encodeKey k (j + 1)) →
      ∃ i < j, keys[i]? = some key ∧ encodeKey key (i + 1) < encodeKey k (j + 1)

instance Shielded.decidable (keys : List Bytes) (key : Bytes) : Decidable (Shielded keys key) :=
  inferInstanceAs (Decidable (∀ j < keys.length, ∀ k ∈ keys[j]?,
    if k = key then InScan key (encodeKey key (j + 1))
    else InScan key (encodeKey k (j + 1)) →
      ∃ i < j, keys[i]? = some key ∧ encodeKey key (i + 1) < encodeKey k (j + 1)))

lemma Shielded.own {keys : List Bytes} {key : Bytes} (h : Shielded keys key) {j : ℕ}
    (hj : keys[j]? = some key) : InScan key (encodeKey key (j + 1)) := by
  have := h j (List.getElem?_eq_some_iff.mp hj).1 key hj
  rwa [if_pos rfl] at this

lemma Shielded.other {keys : List Bytes} {key k : Bytes} (h : Shielded keys key) {j : ℕ}
    (hj : keys[j]? = some k) (hne : k ≠ key) (hin : InScan key (encodeKey k (j + 1))) :
    ∃ i < j, keys[i]? = some key ∧ encodeKey key (i + 1) < encodeKey k (j + 1) := by
  have := h j (List.getElem?_eq_some_iff.mp hj).1 k hj
  rw [if_neg hne] at this
  exact this hin

lemma Shielded.of_snoc {keys : List Bytes} {key k : Bytes} (h : Shielded (keys ++ [k]) key) :
    Shielded keys key := by
  intro j hj x hx
  have hx' : (keys ++ [k])[j]? = some x := getElem?_snoc_eq_some_iff.mpr (.inl hx)
  split
  · next heq =>
    subst heq
    exact h.own hx'
  · next hne =>
    intro hin
    obtain ⟨i, hi, hkey, hlt⟩ := h.other hx' hne hin
    rw [List.getElem?_append_left (hi.trans hj)] at hkey
    exact ⟨i, hi, hkey, hlt⟩

/-- Below any bound a property holds nowhere, or somewhere for the last time. -/
lemma forall_not_or_exists_last (P : ℕ → Prop) (r : ℕ) :
    (∀ j < r, ¬ P j) ∨ ∃ i < r, P i ∧ ∀ j, i < j → j < r → ¬ P j := by
  induction r with
  | zero => exact .inl fun j hj => absurd hj (Nat.not_lt_zero j)
  | succ r ih =>
    by_cases hr : P r
    · exact .inr ⟨r, Nat.lt_succ_self r, hr, fun j hj hjr => absurd hj (by omega)⟩
    · rcases ih with hnone | ⟨i, hi, hPi, hlast⟩
      · left
        intro j hj
        rcases Nat.lt_succ_iff_lt_or_eq.mp hj with hlt | rfl
        · exact hnone j hlt
        · exact hr
      · refine .inr ⟨i, hi.trans (Nat.lt_succ_self r), hPi, fun j hij hj => ?_⟩
        rcases Nat.lt_succ_iff_lt_or_eq.mp hj with hlt | rfl
        · exact hlast j hij hlt
        · exact hr

variable {σ : Type} [OrderedEngine σ]

section

variable {s : MvccStore σ} {writes : List Write} {key : Bytes}

/-- Every stored version of the key is the expected one at its revision. -/
def OwnExpected (writes : List Write) (key : Bytes) : Prop :=
  ∀ (i : ℕ) (w : Write), writes[i]? = some w → w.op.key = key →
    (w.version (i + 1)).toKeyValue key = expected ((writes.map Write.op).take (i + 1)) key

/-- Newer versions of the key come first. -/
lemma Holds.encodeKey_le (h : Holds s writes) {i j : ℕ} (hij : j ≤ i) (hi : i < writes.length) :
    encodeKey key (i + 1) ≤ encodeKey key (j + 1) := by
  have hlen := h.length_lt
  rcases hij.eq_or_lt with rfl | hlt
  · exact le_rfl
  · exact ((encodeKey_lt_encodeKey_iff key (by omega) (by omega)).mpr (by omega)).le

/-- Reads of a shielded key meet what is expected. -/
lemma Holds.exists_visible_expected (h : Holds s writes)
    (hshield : Shielded ((writes.map Write.op).map Op.key) key) (hown : OwnExpected writes key)
    (revision : ℕ) : ∃ vv, firstVisible revision (s.scanKey key) = .ok vv ∧
      vv.bind (·.toKeyValue key) = expected ((writes.map Write.op).take revision) key := by
  have hkeys : ∀ {j : ℕ} {w : Write}, writes[j]? = some w →
      ((writes.map Write.op).map Op.key)[j]? = some w.op.key := by
    intro j w hw
    simp [hw]
  rcases forall_not_or_exists_last
    (fun j => ((writes.map Write.op).map Op.key)[j]? = some key) revision with
    hnone | ⟨i, hi, hkey, hlast⟩
  · -- without a version of the key there is nothing visible at all
    refine ⟨none, h.firstVisible_of_none ?_, ?_⟩
    · intro j w hv
      by_cases heq : w.op.key = key
      · exact hnone j hv.le_revision (heq ▸ hkeys hv.write)
      · obtain ⟨i, hij, hkey, -⟩ := hshield.other (hkeys hv.write) heq hv.inScan
        exact hnone i (hij.trans hv.le_revision) hkey
    · rw [expected_take_eq (Nat.zero_le revision)]
      · rfl
      · intro j op _ hj hop heq
        exact hnone j hj (by rw [List.getElem?_map, hop, Option.map_some, heq])
  · -- the last version of the key comes before everything visible
    obtain ⟨w, hw, hwkey⟩ : ∃ w, writes[i]? = some w ∧ w.op.key = key := by
      simpa using hkey
    have hvisible : Visible writes key revision i w := ⟨hw, hi, by
      rw [Write.internalKey, hwkey]
      exact hshield.own hkey⟩
    have hfirst : ∀ j, ((writes.map Write.op).map Op.key)[j]? = some key → j < revision →
        encodeKey key (i + 1) ≤ encodeKey key (j + 1) := by
      intro j hj hjr
      apply h.encodeKey_le _ (List.getElem?_eq_some_iff.mp hw).1
      exact not_lt.mp fun hij => hlast j hij hjr hj
    refine ⟨some (w.version (i + 1)), h.firstVisible_of_least hvisible ?_, ?_⟩
    · intro j x hv
      rw [Write.internalKey, hwkey, Write.internalKey]
      by_cases heq : x.op.key = key
      · rw [heq]
        exact hfirst j (heq ▸ hkeys hv.write) hv.le_revision
      · obtain ⟨j', hj', hkey', hlt⟩ := hshield.other (hkeys hv.write) heq hv.inScan
        exact (hfirst j' hkey' (hj'.trans hv.le_revision)).trans hlt.le
    · rw [Option.bind_some, hown i w hw hwkey, expected_take_eq hi]
      intro j op hij hj hop heq
      exact hlast j hij hj (by rw [List.getElem?_map, hop, Option.map_some, heq])

omit [OrderedEngine σ] in
lemma createRevisionOf_eq (latest : Option VersionedValue) (key : Bytes) (revision : ℕ) :
    createRevisionOf latest revision =
      ((latest.bind (·.toKeyValue key)).map (·.createRevision)).getD revision := by
  rcases latest with _ | ⟨_ | value, create, mod, lease, ttl⟩ <;> rfl

/-- A call on a store whose reads of `key` are as expected stores what is expected. -/
lemma OwnExpected.snoc (hown : OwnExpected writes key) {w : Write} {latest : Option VersionedValue}
    (hlatest : w.op.key = key →
      latest.bind (·.toKeyValue key) = expected (writes.map Write.op) key)
    (hcreate : w.op.isPut → w.createRevision = createRevisionOf latest (writes.length + 1)) :
    OwnExpected (writes ++ [w]) key := by
  intro i x hx hkey
  rcases getElem?_snoc_eq_some_iff.mp hx with hold | ⟨rfl, rfl⟩
  · have hi : i + 1 ≤ (writes.map Write.op).length := by
      rw [List.length_map]
      exact (List.getElem?_eq_some_iff.mp hold).1
    rw [List.map_append, List.take_append_of_le_length hi]
    exact hown i x hold hkey
  · rw [List.take_of_length_le (by simp), List.map_append, List.map_singleton]
    obtain ⟨op, createRevision⟩ := w
    cases op with
    | delete k =>
      obtain rfl : k = key := hkey
      rw [expected_snoc_delete]
      rfl
    | put k value leaseId ttlSeconds =>
      obtain rfl : k = key := hkey
      obtain rfl : createRevision = _ := hcreate rfl
      rw [expected_snoc_put, ← hlatest rfl, createRevisionOf_eq latest k, List.length_map]
      rfl

variable (σ) in
/-- Every history of calls that fit succeeds. The engine holds its versions, and those of shielded
keys are as expected. -/
lemma exists_run {history : List Op} (hfits : ∀ op ∈ history, op.Fits)
    (hlen : history.length < 2 ^ 64) :
    ∃ (s : MvccStore σ) (writes : List Write), run σ history = .ok s ∧ Holds s writes ∧
      writes.map Write.op = history ∧
      ∀ key, Shielded (history.map Op.key) key → OwnExpected writes key := by
  obtain ⟨s, writes, hrun, hholds, rfl, hown⟩ := exists_run_of σ
    (P := fun writes => ∀ key, Shielded ((writes.map Write.op).map Op.key) key →
      OwnExpected writes key) (by rintro key - i w ⟨⟩)
    (fun s writes w latest _ hholds hown hlatest hcreate key hshield => by
      rw [List.map_append, List.map_append] at hshield
      have hold := hown key hshield.of_snoc
      apply hold.snoc _ hcreate
      rintro rfl
      obtain ⟨vv, hvv, heq⟩ := hholds.exists_visible_expected hshield.of_snoc hold writes.length
      obtain rfl := Except.ok.inj (hlatest.symm.trans hvv)
      rwa [List.take_of_length_le (by simp)] at heq)
    (fun _ _ => inferInstance) hfits hlen
  exact ⟨s, writes, hrun, hholds, rfl, hown⟩

/-! ### Exact reads need shielded keys -/

/-- If a read is exact, the version it meets reads as expected. -/
lemma toKeyValue_eq_of_exact {revision : ℕ} {vv : Option VersionedValue}
    (hread : firstVisible revision (s.scanKey key) = .ok vv) {kv : Option KeyValue}
    (hexact : s.getAtRevision key revision = .ok kv) : vv.bind (·.toKeyValue key) = kv := by
  rw [getAtRevision, hread] at hexact
  exact Except.ok.inj hexact

/-- If all calls are puts and a read is exact, the version it meets is one of the key. -/
lemma key_eq_of_exact (hputs : ∀ w ∈ writes, w.op.isPut) {revision i : ℕ} {w : Write}
    (hexact : s.getAtRevision key revision =
      .ok (expected ((writes.map Write.op).take revision) key))
    (hw : writes[i]? = some w)
    (hread : firstVisible revision (s.scanKey key) = .ok (some (w.version (i + 1)))) :
    w.op.key = key := by
  obtain ⟨kv, hkv, hmod⟩ :=
    Write.exists_toKeyValue (hputs w (List.mem_of_getElem? hw)) key (i + 1)
  have hexp := toKeyValue_eq_of_exact hread hexact
  rw [Option.bind_some, hkv] at hexp
  obtain ⟨i', op, hi', hop, hopkey⟩ := exists_write_of_expected hexp.symm
  obtain rfl : i' = i := by omega
  have hop' := getElem?_of_isPrefix (List.take_prefix revision _) hop
  rw [List.getElem?_map, hw, Option.map_some, Option.some.injEq] at hop'
  rw [hop', hopkey]

/-- If all calls are puts and all reads of the key are exact, the key is shielded. -/
lemma Holds.shielded_of_exact (h : Holds s writes) (hputs : ∀ w ∈ writes, w.op.isPut)
    (hexact : ∀ revision, s.getAtRevision key revision =
      .ok (expected ((writes.map Write.op).take revision) key)) :
    Shielded ((writes.map Write.op).map Op.key) key := by
  intro j hj k hk
  obtain ⟨w, hw, rfl⟩ : ∃ w, writes[j]? = some w ∧ w.op.key = k := by simpa using hk
  have hcases := h.firstVisible_cases key (j + 1)
  split
  · next hkey =>
    -- right after the call its version is expected, so a read must meet it
    have hop : (writes.map Write.op)[j]? = some w.op := by simp [hw]
    obtain ⟨kv, hkv, hmod⟩ :=
      exists_expected_of_put hop (hputs w (List.mem_of_getElem? hw)) hkey
    rcases hcases with ⟨-, hread⟩ | ⟨i, x, hx, -, hread⟩
    · have hexp := toKeyValue_eq_of_exact hread (hexact (j + 1))
      rw [hkv] at hexp
      cases hexp
    · have hexp := toKeyValue_eq_of_exact hread (hexact (j + 1))
      obtain ⟨kv', hkv', hmod'⟩ :=
        Write.exists_toKeyValue (hputs x (List.mem_of_getElem? hx.write)) key (i + 1)
      rw [Option.bind_some, hkv', hkv, Option.some.injEq] at hexp
      obtain rfl : i = j := by
        rw [← hexp, hmod'] at hmod
        exact Nat.succ.inj hmod
      obtain rfl := Option.some.inj (hw.symm.trans hx.write)
      have hin := hx.inScan
      rwa [Write.internalKey, hkey] at hin
  · next hkey =>
    intro hin
    have hvisible : Visible writes key (j + 1) j w := ⟨hw, le_rfl, hin⟩
    rcases hcases with ⟨hnone, -⟩ | ⟨i, x, hx, hleast, hread⟩
    · exact absurd hvisible (hnone j w)
    · have hxkey := key_eq_of_exact hputs (hexact (j + 1)) hx.write hread
      have hij : i ≠ j := by
        rintro rfl
        obtain rfl := Option.some.inj (hw.symm.trans hx.write)
        exact hkey hxkey
      have hle := hleast j w hvisible
      rw [Write.internalKey, Write.internalKey, hxkey] at hle
      refine ⟨i, lt_of_le_of_ne (Nat.le_of_succ_le_succ hx.le_revision) hij, ?_, ?_⟩
      · simp [hx.write, hxkey]
      · refine lt_of_le_of_ne hle fun heq => hkey ?_
        exact (encodeKey_inj (h.index_lt hx.write) (h.index_lt hw) heq).1.symm

end

/-! ### Exact reads -/

/-- Reads of a key are exact after every history that writes to the keys `keys` exactly when the
key is shielded in `keys`. -/
theorem getAtRevision_eq_expected_iff (σ : Type) [OrderedEngine σ] {keys : List Bytes}
    (hlen : keys.length < 2 ^ 64) (key : Bytes) :
    (∀ history : List Op, history.map Op.key = keys → (∀ op ∈ history, op.Fits) →
      ∃ s, run σ history = .ok s ∧
        ∀ revision, s.getAtRevision key revision = .ok (expected (history.take revision) key)) ↔
      Shielded keys key := by
  constructor
  · intro hexact
    have hkeys : (keys.map fun k => Op.put k [] 0 0).map Op.key = keys := by
      simp [Op.key, Function.comp_def]
    have hfits : ∀ op ∈ keys.map fun k => Op.put k [] 0 0, op.Fits := by
      simp [Op.Fits]
    obtain ⟨s, hrun, hread⟩ := hexact _ hkeys hfits
    obtain ⟨s', writes, hrun', hholds, hops, -⟩ := exists_run σ hfits (by simpa using hlen)
    obtain rfl := Except.ok.inj (hrun.symm.trans hrun')
    rw [← hops] at hread
    rw [← hkeys, ← hops]
    apply hholds.shielded_of_exact _ hread
    intro w hw
    have hmem : w.op ∈ keys.map fun k => Op.put k [] 0 0 := hops ▸ List.mem_map_of_mem hw
    obtain ⟨k, -, hk⟩ := List.mem_map.mp hmem
    rw [← hk]
    rfl
  · rintro hshield history rfl hfits
    rw [List.length_map] at hlen
    obtain ⟨s, writes, hrun, hholds, rfl, hown⟩ := exists_run σ hfits hlen
    refine ⟨s, hrun, fun revision => ?_⟩
    obtain ⟨vv, hvisible, heq⟩ :=
      hholds.exists_visible_expected hshield (hown key hshield) revision
    rw [getAtRevision, hvisible, ← heq]
    rfl

/-- Reads of `a` are exact after writes to `a`, `b`, `a` and to a longer key that sorts behind the
versions of `a`. -/
theorem getAtRevision_eq_expected_sortedBehind :
    let keys : List Bytes := [[0x61], [0x62], [0x61],
      [0x61, 0xFF, 0xFF, 0xFF, 0xFF, 0xFF, 0xFF, 0xFF, 0xFF, 0x01]]
    Shielded keys [0x61] ∧ ∀ history : List Op, history.map Op.key = keys →
      (∀ op ∈ history, op.Fits) → ∃ s : MvccStore (Std.TreeMap Bytes Bytes),
        run (Std.TreeMap Bytes Bytes) history = .ok s ∧ ∀ revision,
          s.getAtRevision [0x61] revision = .ok (expected (history.take revision) [0x61]) := by
  intro keys
  have hshield : Shielded keys [0x61] := by decide +kernel
  exact ⟨hshield, (getAtRevision_eq_expected_iff _ (by decide) _).mpr hshield⟩

/-- After a put of `ab` a read of `a`, which was never written, returns the value of `ab`. -/
theorem get_a_after_put_ab :
    let history : List Op := [.put [0x61, 0x62] [1] 0 0]
    ∃ s : MvccStore (Std.TreeMap Bytes Bytes), run (Std.TreeMap Bytes Bytes) history = .ok s ∧
      s.get [0x61] = .ok (some ⟨[0x61], [1], 1, 1, 0⟩) ∧ expected history [0x61] = none := by
  intro history
  have hrun : (run (Std.TreeMap Bytes Bytes) history).toOption.map (fun s =>
      (s.get [0x61]).toOption) = some (some (some ⟨[0x61], [1], 1, 1, 0⟩)) := by decide +kernel
  cases hs : run (Std.TreeMap Bytes Bytes) history with
  | error e => simp [hs, Except.toOption] at hrun
  | ok s =>
    cases hget : s.get [0x61] with
    | error e => simp [hs, hget, Except.toOption] at hrun
    | ok kv =>
      simp only [hs, hget, Except.toOption, Option.map_some, Option.some.injEq] at hrun
      exact ⟨s, rfl, by rw [hget, hrun], by decide +kernel⟩

end MvccStore

end Raftrust.Mvcc

import Mathlib.Data.List.Sigma
import Raftrust.Common.Checked
import Raftrust.Mvcc.Gc
import Raftrust.Mvcc.RangeScan

/-!
# Expiry of keys

A sweep goes through the versions in the order of their internal keys and judges the first one that
it meets of each key. The time of expiry is the sum of two signed words, the revision and the TTL,
and the scan ends at a fixed bound. A key is lost or kept by mistake if the sum leaves the words,
the revision is negative as a signed word, or the versions of the key are behind the bound.
-/

namespace Raftrust.Mvcc

open Lib Storage

/-- The version is live and its TTL has run out. The revision stands for the time of the write. -/
def VersionedValue.isExpired (vv : VersionedValue) (nowSecs : Int64) : Except Abort Bool :=
  if vv.value.isSome ∧ 0 < vv.ttlSeconds then do
    let expiry ← checkedAddI64 (UInt64.ofNat vv.modRevision).toInt64 vv.ttlSeconds
    return expiry ≤ nowSecs
  else return false

namespace MvccStore

/-- The loop over the scanned entries. Returns the user keys to delete. -/
def expiredKeys (nowSecs : Int64) :
    Option Bytes → List (Bytes × Bytes) → Except Abort (List Bytes)
  | _, [] => .ok []
  | lastUserKey, (internalKey, rawValue) :: entries => do
    let (userKey, _) ← decodeKey internalKey
    if lastUserKey = some userKey then expiredKeys nowSecs lastUserKey entries
    else
      let vv ← VersionedValue.decode rawValue
      let expired ← vv.isExpired nowSecs
      let rest ← expiredKeys nowSecs (some userKey) entries
      return if expired then userKey :: rest else rest

variable {σ : Type} [StorageEngine σ]

/-- Delete a list of keys one after the other. -/
def deleteAll (s : MvccStore σ) (keys : List Bytes) : Except Abort (MvccStore σ) :=
  keys.foldlM (fun s key => s.execute (.delete key)) s

/-- Sweep all keys and delete any that have expired. Returns their number. -/
def sweepExpired (s : MvccStore σ) (nowSecs : Int64) : Except Abort (ℕ × MvccStore σ) := do
  let allEntries := StorageEngine.scan s.engine [0] (List.replicate 32 255)
  let keys ← expiredKeys nowSecs none allEntries
  let s ← s.deleteAll keys
  return (keys.length, s)

/-! ### What is due -/

def Op.ttlSeconds : Op → Int64
  | put _ _ _ ttlSeconds => ttlSeconds
  | delete _ => 0

/-- The puts with a TTL that are the last writes to their keys, with their indices. -/
def timed (history : List Op) : List (Op × ℕ) :=
  history.zipIdx.filter fun x => IsLast history x ∧ x.1.isPut ∧ 0 < x.1.ttlSeconds

/-- The keys whose TTL has run out, in the integers. -/
def dueKeys (history : List Op) (nowSecs : Int64) : List Bytes :=
  ((timed history).filter fun x =>
    (x.2 + 1 : ℤ) + x.1.ttlSeconds.toInt ≤ nowSecs.toInt).map fun x => x.1.key

/-- What a sweep is meant to do: to delete the keys that are due, each once, and to say how many
there are. Reads of all other keys stay as they were. -/
def SweepsDue (s : MvccStore σ) (history : List Op) (K : Set Bytes) (nowSecs : Int64) : Prop :=
  ∃ keys s', keys.Perm (dueKeys history nowSecs) ∧
    s.sweepExpired nowSecs = .ok ((dueKeys history nowSecs).length, s') ∧
    s.deleteAll keys = .ok s' ∧
    (∀ key ∈ dueKeys history nowSecs, s'.get key = .ok none) ∧
    ∀ key ∈ K, key ∉ dueKeys history nowSecs → s'.get key = s.get key

/-- Of the keys with a TTL, those that are scanned expire at a signed word, or at a time after now
if their revision is negative as such, and those that are not scanned are not due. -/
def Sweepable (history : List Op) (nowSecs : Int64) : Prop :=
  ∀ x ∈ timed history,
    if InCollection (encodeKey x.1.key (x.2 + 1)) then
      (x.2 + 1 < 2 ^ 63 → (x.2 + 1 : ℤ) + x.1.ttlSeconds.toInt < 2 ^ 63) ∧
      (2 ^ 63 ≤ x.2 + 1 → nowSecs.toInt < (x.2 + 1 : ℤ) + x.1.ttlSeconds.toInt - 2 ^ 64)
    else nowSecs.toInt < (x.2 + 1 : ℤ) + x.1.ttlSeconds.toInt
  deriving Decidable

section

variable {history : List Op} {nowSecs : Int64} {op : Op} {i : ℕ} {key : Bytes}

lemma mem_timed : (op, i) ∈ timed history ↔
    history[i]? = some op ∧ IsLast history (op, i) ∧ op.isPut ∧ 0 < op.ttlSeconds := by
  rw [timed, List.mem_filter, List.mk_mem_zipIdx_iff_getElem?, decide_eq_true_iff]

lemma mem_dueKeys : key ∈ dueKeys history nowSecs ↔ ∃ op i, (op, i) ∈ timed history ∧
    (i + 1 : ℤ) + op.ttlSeconds.toInt ≤ nowSecs.toInt ∧ op.key = key := by
  simp [dueKeys, and_assoc]

lemma IsLast.unique (h : IsLast history (op, i)) (hop : history[i]? = some op) {op' : Op} {j : ℕ}
    (h' : IsLast history (op', j)) (hop' : history[j]? = some op') (hkey : op.key = op'.key) :
    op = op' ∧ i = j := by
  obtain rfl : i = j :=
    le_antisymm (isLast_iff.mp h' i op hop hkey) (isLast_iff.mp h j op' hop' hkey.symm)
  exact ⟨Option.some.inj (hop.symm.trans hop'), rfl⟩

lemma dueKeys_nodup (history : List Op) (nowSecs : Int64) : (dueKeys history nowSecs).Nodup := by
  refine List.Nodup.map_on ?_ ((List.nodup_zipIdx_map_snd history).of_map _ |>.filter _ |>.filter _)
  rintro ⟨op, i⟩ hx ⟨op', j⟩ hy hkey
  obtain ⟨hop, hlast, -⟩ := mem_timed.mp (List.mem_of_mem_filter hx)
  obtain ⟨hop', hlast', -⟩ := mem_timed.mp (List.mem_of_mem_filter hy)
  obtain ⟨rfl, rfl⟩ := hlast.unique hop hlast' hop' hkey
  rfl

end

/-! ### The verdict on a version -/

section

variable {w : Write} {revision : ℕ} {nowSecs : Int64}

lemma Write.isExpired_of_timed (hput : w.op.isPut) (httl : 0 < w.op.ttlSeconds)
    (hrevision : revision < 2 ^ 64) {b : Bool} :
    (w.version revision).isExpired nowSecs = .ok b ↔ ∃ expiry : Int64,
      expiry.toInt = (if revision < 2 ^ 63 then (revision : ℤ) else revision - 2 ^ 64) +
        w.op.ttlSeconds.toInt ∧ decide (expiry ≤ nowSecs) = b := by
  obtain ⟨op, createRevision⟩ := w
  cases op with
  | delete k => cases hput
  | put k value leaseId ttlSeconds =>
    have httl : 0 < ttlSeconds := httl
    simp only [VersionedValue.isExpired, Write.version, Option.isSome_some, httl, and_self, if_true]
    rw [bind_eq_ok_iff]
    simp only [checkedAddI64_eq_ok_iff, toInt_toInt64_ofNat hrevision, pure, Except.pure,
      Except.ok.injEq]
    rfl

/-- Versions without a TTL do not expire. -/
lemma Write.isExpired_of_not_timed (h : ¬ (w.op.isPut ∧ 0 < w.op.ttlSeconds)) :
    (w.version revision).isExpired nowSecs = .ok false := by
  obtain ⟨op, createRevision⟩ := w
  cases op with
  | delete k => rfl
  | put k value leaseId ttlSeconds =>
    have httl : ¬ 0 < ttlSeconds := fun httl => h ⟨rfl, httl⟩
    simp [VersionedValue.isExpired, Write.version, httl, pure, Except.pure]

/-- When there is a verdict, and the right one. -/
lemma Write.judged_iff (hput : w.op.isPut) (httl : 0 < w.op.ttlSeconds)
    (hrevision : revision < 2 ^ 64) :
    (∃ b, (w.version revision).isExpired nowSecs = .ok b ∧
      (b = true ↔ (revision : ℤ) + w.op.ttlSeconds.toInt ≤ nowSecs.toInt)) ↔
    (revision < 2 ^ 63 → (revision : ℤ) + w.op.ttlSeconds.toInt < 2 ^ 63) ∧
      (2 ^ 63 ≤ revision → nowSecs.toInt < (revision : ℤ) + w.op.ttlSeconds.toInt - 2 ^ 64) := by
  have httl' : 0 < w.op.ttlSeconds.toInt := by simpa using Int64.lt_iff_toInt_lt.mp httl
  have hnow := nowSecs.toInt_lt
  simp only [Write.isExpired_of_timed hput httl hrevision]
  constructor
  · rintro ⟨b, ⟨expiry, hexpiry, rfl⟩, hb⟩
    have hlt := expiry.toInt_lt
    rw [decide_eq_true_iff, Int64.le_iff_toInt_le] at hb
    split at hexpiry <;> omega
  · rintro ⟨hsmall, hlarge⟩
    have httl := w.op.ttlSeconds.toInt_lt
    let expiry := (if revision < 2 ^ 63 then (revision : ℤ) else revision - 2 ^ 64) +
      w.op.ttlSeconds.toInt
    have hexpiry : expiry = (if revision < 2 ^ 63 then (revision : ℤ) else revision - 2 ^ 64) +
      w.op.ttlSeconds.toInt := rfl
    have htoInt : (Int64.ofInt expiry).toInt = expiry :=
      Int64.toInt_ofInt_of_le (by split at hexpiry <;> omega) (by split at hexpiry <;> omega)
    refine ⟨_, ⟨Int64.ofInt expiry, htoInt, rfl⟩, ?_⟩
    rw [decide_eq_true_iff, Int64.le_iff_toInt_le, htoInt]
    split at hexpiry <;> omega

end

/-! ### The keys that are swept -/

section

variable {s : MvccStore σ} {writes : List Write} {nowSecs : Int64}

/-- The verdict on the version of a write. -/
def verdict (nowSecs : Int64) (x : Write × ℕ) : Except Abort Bool :=
  (x.1.version (x.2 + 1)).isExpired nowSecs

/-- The loop judges the first version that it meets of each key. -/
lemma Holds.expiredKeys_eq_ok_iff (h : Holds s writes) {L : List (Write × ℕ)}
    (hL : ∀ x ∈ L, writes[x.2]? = some x.1) {last : Option Bytes} {keys : List Bytes} :
    expiredKeys nowSecs last (L.map fun x => x.1.entry x.2) = .ok keys ↔
      (∀ x ∈ firsts (fun x => x.1.op.key) last L, ∃ b, verdict nowSecs x = .ok b) ∧
      keys = ((firsts (fun x => x.1.op.key) last L).filter fun x =>
        verdict nowSecs x = .ok true).map fun x => x.1.op.key := by
  induction L generalizing last keys with
  | nil => simp [expiredKeys, eq_comm]
  | cons x L ih =>
    obtain ⟨hkey, hvalue⟩ := h.decode_entry (hL x List.mem_cons_self)
    have hrest := @ih fun y hy => hL y (List.mem_cons_of_mem _ hy)
    rw [List.map_cons, expiredKeys, hkey]
    by_cases hlast : last = some x.1.op.key
    · subst hlast
      have hfirsts := @firsts_cons_self _ _ _ (fun x : Write × ℕ => x.1.op.key) x L
      simpa [hfirsts, bind, Except.bind] using hrest
    · have hfirsts := @firsts_cons_of_ne _ _ _ (fun x : Write × ℕ => x.1.op.key) _ x hlast L
      simp only [bind, Except.bind, if_neg hlast, hvalue]
      rw [hfirsts, List.forall_mem_cons]
      change (verdict nowSecs x >>= fun b => expiredKeys nowSecs (some x.1.op.key)
        (L.map fun x => x.1.entry x.2) >>= fun rest =>
          .ok (if b = true then x.1.op.key :: rest else rest)) = .ok keys ↔ _
      rw [bind_eq_ok_iff]
      constructor
      · rintro ⟨b, hb, hloop⟩
        obtain ⟨rest, hr, heq⟩ := bind_eq_ok_iff.mp hloop
        obtain ⟨hall, rfl⟩ := hrest.mp hr
        obtain rfl := Except.ok.inj heq
        refine ⟨⟨⟨b, hb⟩, hall⟩, ?_⟩
        cases b <;> simp [hb]
      · rintro ⟨⟨⟨b, hb⟩, hall⟩, rfl⟩
        refine ⟨b, hb, bind_eq_ok_iff.mpr ⟨_, hrest.mpr ⟨hall, rfl⟩, ?_⟩⟩
        cases b <;> simp [hb]

/-- The newest versions of the keys, of those that are scanned. -/
structure Judged (writes : List Write) (F : List (Write × ℕ)) : Prop where
  nodup : (F.map fun x => x.1.op.key).Nodup
  mem_iff : ∀ w i, (w, i) ∈ F ↔ writes[i]? = some w ∧ InCollection (encodeKey w.op.key (i + 1)) ∧
    IsLast (writes.map Write.op) (w.op, i)

omit [StorageEngine σ] in
lemma getElem?_map_op {w : Write} {i : ℕ} (hw : writes[i]? = some w) :
    (writes.map Write.op)[i]? = some w.op := by
  simp [hw]

/-- If no key starts with another one, the sweep judges the newest versions that it scans. -/
lemma Holds.exists_judged (h : Holds s writes)
    (hkeys : ∀ op ∈ writes.map Write.op, ∀ op' ∈ writes.map Write.op,
      op.key <+: op'.key → op.key = op'.key) :
    ∃ F : List (Write × ℕ), Judged writes F ∧
      ∀ nowSecs keys, expiredKeys nowSecs none
          (StorageEngine.scan s.engine [0] (List.replicate 32 255)) = .ok keys ↔
        (∀ x ∈ F, ∃ b, verdict nowSecs x = .ok b) ∧
        keys = (F.filter fun x => verdict nowSecs x = .ok true).map fun x => x.1.op.key := by
  obtain ⟨L, hscan, hsorted, hmem⟩ := h.exists_scanRange [0] (List.replicate 32 255)
  have hlen : (writes.map Write.op).length < 2 ^ 64 := by simpa using h.length_lt
  have hF : ∀ w i, (w, i) ∈ firsts (fun x : Write × ℕ => x.1.op.key) none L ↔ writes[i]? = some w ∧
      InCollection (encodeKey w.op.key (i + 1)) ∧ IsLast (writes.map Write.op) (w.op, i) := by
    intro w i
    rw [mem_firsts_iff hsorted, hmem, and_assoc]
    refine and_congr_right fun hw => and_congr_right fun hin => ?_
    rw [repeats_iff_superseded h.length_lt hmem ((hmem w i).mpr ⟨hw, hin⟩)
      fun j => zero_le_encodeKey _ _]
    constructor
    · intro hnot
      refine not_not.mp fun hlast => hnot ?_
      exact superseded_of_not_isLast hlen hkeys (getElem?_map_op hw) hlast
    · intro hlast
      exact hlast.not_superseded (getElem?_map_op hw)
  refine ⟨_, ⟨?_, hF⟩, fun nowSecs keys => ?_⟩
  · have hnodup : L.Nodup := hsorted.imp fun hlt heq => absurd (heq ▸ hlt) (lt_irrefl _)
    refine List.Nodup.map_on ?_ (hnodup.sublist (firsts_sublist none L))
    rintro ⟨w, i⟩ hx ⟨v, j⟩ hy hkey
    obtain ⟨hw, -, hlast⟩ := (hF w i).mp hx
    obtain ⟨hv, -, hlast'⟩ := (hF v j).mp hy
    obtain ⟨-, rfl⟩ := hlast.unique (getElem?_map_op hw) hlast' (getElem?_map_op hv) hkey
    rw [Option.some.inj (hw.symm.trans hv)]
  · rw [hscan]
    exact h.expiredKeys_eq_ok_iff fun x hx => ((hmem x.1 x.2).mp hx).1

namespace Judged

variable {F : List (Write × ℕ)} (hF : Judged writes F)

include hF

/-- The keys that are swept are those that are due, if both have the same members. -/
lemma perm_dueKeys_iff :
    ((F.filter fun x => verdict nowSecs x = .ok true).map fun x => x.1.op.key).Perm
        (dueKeys (writes.map Write.op) nowSecs) ↔
      ∀ key, (∃ w i, (w, i) ∈ F ∧ verdict nowSecs (w, i) = .ok true ∧ w.op.key = key) ↔
        key ∈ dueKeys (writes.map Write.op) nowSecs := by
  have hnodup := hF.nodup.sublist
    ((List.filter_sublist (p := fun x => verdict nowSecs x = .ok true)).map _)
  rw [List.perm_ext_iff_of_nodup hnodup (dueKeys_nodup _ _)]
  refine forall_congr' fun key => ?_
  simp [and_assoc]

/-- Of the judged versions and the last writes there is one for each key. -/
lemma unique {w v : Write} {i j : ℕ} (hv : (v, j) ∈ F) (hw : writes[i]? = some w)
    (hlast : IsLast (writes.map Write.op) (w.op, i)) (hkey : v.op.key = w.op.key) :
    v = w ∧ j = i := by
  obtain ⟨hvj, -, hvlast⟩ := (hF.mem_iff v j).mp hv
  obtain ⟨-, rfl⟩ := hvlast.unique (getElem?_map_op hvj) hlast (getElem?_map_op hw) hkey
  exact ⟨Option.some.inj (hvj.symm.trans hw), rfl⟩

lemma sweepable_of_perm (hlen : writes.length < 2 ^ 64)
    (hok : ∀ x ∈ F, ∃ b, verdict nowSecs x = .ok b)
    (hperm : ((F.filter fun x => verdict nowSecs x = .ok true).map fun x => x.1.op.key).Perm
      (dueKeys (writes.map Write.op) nowSecs)) :
    Sweepable (writes.map Write.op) nowSecs := by
  have hmem := hF.perm_dueKeys_iff.mp hperm
  rintro ⟨op, i⟩ hx
  obtain ⟨hop, hlast, hput, httl⟩ := mem_timed.mp hx
  obtain ⟨w, hw, rfl⟩ : ∃ w, writes[i]? = some w ∧ w.op = op := by simpa using hop
  -- a key that is due has its last write judged
  have hdue : (i + 1 : ℤ) + w.op.ttlSeconds.toInt ≤ nowSecs.toInt →
      (w, i) ∈ F ∧ verdict nowSecs (w, i) = .ok true := by
    intro hdue
    obtain ⟨v, j, hvF, hv, hkey⟩ :=
      (hmem w.op.key).mpr (mem_dueKeys.mpr ⟨w.op, i, hx, hdue, rfl⟩)
    obtain ⟨rfl, rfl⟩ := hF.unique hvF hw hlast hkey
    exact ⟨hvF, hv⟩
  dsimp only
  split
  · next hin =>
    have hwF := (hF.mem_iff w i).mpr ⟨hw, hin, hlast⟩
    obtain ⟨b, hb⟩ := hok _ hwF
    have hiff : b = true ↔ ((i + 1 : ℕ) : ℤ) + w.op.ttlSeconds.toInt ≤ nowSecs.toInt := by
      push_cast
      constructor
      · rintro rfl
        obtain ⟨op', j, hj, hdue', hkey⟩ := mem_dueKeys.mp ((hmem w.op.key).mp ⟨w, i, hwF, hb, rfl⟩)
        obtain ⟨hop', hlast', -⟩ := mem_timed.mp hj
        obtain ⟨rfl, rfl⟩ := hlast.unique hop hlast' hop' hkey.symm
        exact hdue'
      · intro hdue'
        exact Except.ok.inj (hb.symm.trans (hdue hdue').2)
    have hlt := (List.getElem?_eq_some_iff.mp hw).1
    simpa using (Write.judged_iff hput httl (by omega)).mp ⟨b, hb, hiff⟩
  · next hout =>
    refine lt_of_not_ge fun hdue' => hout ?_
    exact ((hF.mem_iff w i).mp (hdue hdue').1).2.1

lemma perm_of_sweepable (hlen : writes.length < 2 ^ 64)
    (hsweep : Sweepable (writes.map Write.op) nowSecs) :
    (∀ x ∈ F, ∃ b, verdict nowSecs x = .ok b) ∧
      ((F.filter fun x => verdict nowSecs x = .ok true).map fun x => x.1.op.key).Perm
        (dueKeys (writes.map Write.op) nowSecs) := by
  have hjudge : ∀ {w i}, (w, i) ∈ F → w.op.isPut → 0 < w.op.ttlSeconds →
      ∃ b, verdict nowSecs (w, i) = .ok b ∧
        (b = true ↔ ((i + 1 : ℕ) : ℤ) + w.op.ttlSeconds.toInt ≤ nowSecs.toInt) := by
    intro w i hwF hput httl
    obtain ⟨hw, hin, hlast⟩ := (hF.mem_iff w i).mp hwF
    have hlt := (List.getElem?_eq_some_iff.mp hw).1
    have hcond := hsweep (w.op, i) (mem_timed.mpr ⟨getElem?_map_op hw, hlast, hput, httl⟩)
    dsimp only at hcond
    rw [if_pos hin] at hcond
    exact (Write.judged_iff hput httl (by omega)).mpr (by simpa using hcond)
  refine ⟨?_, hF.perm_dueKeys_iff.mpr fun key => ⟨?_, fun hkey => ?_⟩⟩
  · rintro ⟨w, i⟩ hwF
    by_cases htimed : w.op.isPut ∧ 0 < w.op.ttlSeconds
    · obtain ⟨b, hb, -⟩ := hjudge hwF htimed.1 htimed.2
      exact ⟨b, hb⟩
    · exact ⟨false, Write.isExpired_of_not_timed htimed⟩
  · rintro ⟨w, i, hwF, hv, rfl⟩
    obtain ⟨hw, -, hlast⟩ := (hF.mem_iff w i).mp hwF
    have htimed : w.op.isPut ∧ 0 < w.op.ttlSeconds := by
      by_contra htimed
      cases hv.symm.trans (Write.isExpired_of_not_timed htimed)
    obtain ⟨b, hb, hdue⟩ := hjudge hwF htimed.1 htimed.2
    obtain rfl := Except.ok.inj (hb.symm.trans hv)
    exact mem_dueKeys.mpr ⟨w.op, i, mem_timed.mpr ⟨getElem?_map_op hw, hlast, htimed⟩,
      by simpa using hdue, rfl⟩
  · obtain ⟨op, i, hx, hdue, rfl⟩ := mem_dueKeys.mp hkey
    obtain ⟨hop, hlast, hput, httl⟩ := mem_timed.mp hx
    obtain ⟨w, hw, rfl⟩ : ∃ w, writes[i]? = some w ∧ w.op = op := by simpa using hop
    have hin : InCollection (encodeKey w.op.key (i + 1)) := by
      by_contra hout
      have hcond := hsweep _ hx
      dsimp only at hcond
      rw [if_neg hout] at hcond
      exact absurd hdue (not_le.mpr hcond)
    have hwF := (hF.mem_iff w i).mpr ⟨hw, hin, hlast⟩
    obtain ⟨b, hb, hiff⟩ := hjudge hwF hput httl
    obtain rfl : b = true := hiff.mpr (by simpa using hdue)
    exact ⟨w, i, hwF, hb, rfl⟩

end Judged

/-! ### Deleting the keys -/

lemma Holds.exists_deleteAll (h : Holds s writes) {keys : List Bytes}
    (hkeys : ∀ key ∈ keys, ScansKey σ key) (hlen : writes.length + keys.length < 2 ^ 64) :
    ∃ s' deletes, s.deleteAll keys = .ok s' ∧ Holds s' (writes ++ deletes) ∧
      deletes.map Write.op = keys.map Op.delete := by
  induction keys generalizing s writes with
  | nil => exact ⟨s, [], rfl, by simpa using h, rfl⟩
  | cons key keys ih =>
    rw [List.length_cons] at hlen
    have : ScansKey σ (Op.delete key).key := hkeys key List.mem_cons_self
    obtain ⟨s₁, w, -, hexec, hw, hholds, -⟩ := h.execute (show (Op.delete key).Fits from trivial)
      (by omega)
    obtain ⟨s', deletes, hdelete, hholds', hops⟩ :=
      ih hholds (fun k hk => hkeys k (List.mem_cons_of_mem key hk)) (by simp; omega)
    refine ⟨s', w :: deletes, ?_, by simpa using hholds', by simp [hw, hops]⟩
    rw [deleteAll, List.foldlM_cons, hexec]
    exact hdelete

/-- What an engine holds tells the keys that were written. -/
lemma Holds.map_key_unique (h : Holds s writes) {writes' : List Write}
    (h' : Holds s writes') : (writes.map fun w => w.op.key) = writes'.map fun w => w.op.key := by
  have hlength : writes.length = writes'.length := h.revision_eq.symm.trans h'.revision_eq
  refine List.ext_getElem? fun i => ?_
  cases hw : writes[i]? with
  | none =>
    have : writes'[i]? = none := by simpa [hlength] using hw
    simp [hw, this]
  | some w =>
    obtain ⟨j, v, hv, hentry⟩ := (h'.get_iff (w.entry i)).mp ((h.get_iff _).mpr ⟨i, w, hw, rfl⟩)
    obtain ⟨hkey, hji⟩ := encodeKey_inj (h'.index_lt hv) (h.index_lt hw) (congrArg Prod.fst hentry)
    obtain rfl := Nat.succ.inj hji
    simp [hw, hv, hkey]

/-- The store tells which keys were deleted. -/
lemma Holds.deleteAll_inj (h : Holds s writes) {keys keys' : List Bytes} {s' : MvccStore σ}
    (hkeys : ∀ key ∈ keys, ScansKey σ key) (hkeys' : ∀ key ∈ keys', ScansKey σ key)
    (hlen : writes.length + keys.length < 2 ^ 64) (hlen' : writes.length + keys'.length < 2 ^ 64)
    (hdelete : s.deleteAll keys = .ok s') (hdelete' : s.deleteAll keys' = .ok s') :
    keys = keys' := by
  have hkey : ∀ {deletes : List Write} {keys : List Bytes},
      deletes.map Write.op = keys.map Op.delete → (deletes.map fun w => w.op.key) = keys := by
    intro deletes keys hops
    have := congrArg (List.map Op.key) hops
    simpa [Function.comp_def, Op.key] using this
  obtain ⟨_, deletes, hd, hholds, hops⟩ := h.exists_deleteAll hkeys hlen
  obtain ⟨_, deletes', hd', hholds', hops'⟩ := h.exists_deleteAll hkeys' hlen'
  obtain rfl := Except.ok.inj (hd.symm.trans hdelete)
  obtain rfl := Except.ok.inj (hd'.symm.trans hdelete')
  have hsame := hholds.map_key_unique hholds'
  rw [List.map_append, List.map_append] at hsame
  rw [← hkey hops, ← hkey hops', List.append_cancel_left hsame]

/-- A read of the newest version. -/
lemma Holds.get_found (h : Holds s writes) (key : Bytes) [ScansKey σ key] :
    s.get key = .ok ((found (writes.map Write.op) key).bind fun x =>
      (versionAt writes x.2).bind (·.toKeyValue key)) := by
  have hlen := h.length_lt
  rw [get, h.getAtRevision_found, List.take_of_length_le (by simp [u64Max]; omega)]

/-- What is found is one of the calls before the deletes, or a delete. -/
lemma found_append_cases {deletes : List Write} {keys : List Bytes}
    (hdeletes : deletes.map Write.op = keys.map Op.delete) {key : Bytes} {op : Op} {j : ℕ}
    (hfound : found ((writes ++ deletes).map Write.op) key = some (op, j)) :
    (∃ w, writes[j]? = some w ∧ w.op = op) ∨
      ∃ p k, j = writes.length + p ∧ keys[p]? = some k ∧ op = .delete k := by
  have hop := getElem?_of_found hfound
  rw [List.map_append, hdeletes] at hop
  rcases Nat.lt_or_ge j writes.length with hj | hj
  · rw [List.getElem?_append_left (by simpa using hj)] at hop
    exact .inl (by simpa using hop)
  · rw [List.getElem?_append_right (by simpa using hj), List.getElem?_map, List.length_map,
      Option.map_eq_some_iff] at hop
    obtain ⟨k, hk, rfl⟩ := hop
    exact .inr ⟨j - writes.length, k, by omega, hk, rfl⟩

omit [StorageEngine σ] in
lemma getElem?_deletes (writes : List Write) {deletes : List Write} {keys : List Bytes}
    (hdeletes : deletes.map Write.op = keys.map Op.delete) {p : ℕ} {key : Bytes}
    (hp : keys[p]? = some key) :
    ((writes ++ deletes).map Write.op)[writes.length + p]? = some (.delete key) := by
  rw [List.map_append, hdeletes, List.getElem?_append_right (by simp)]
  simp [hp]

omit [StorageEngine σ] in
lemma versionAt_delete {i : ℕ} {k key : Bytes}
    (hop : (writes.map Write.op)[i]? = some (.delete k)) :
    (versionAt writes i).bind (·.toKeyValue key) = none := by
  obtain ⟨w, hw, hdelete⟩ : ∃ w, writes[i]? = some w ∧ w.op = .delete k := by simpa using hop
  rw [versionAt, hw, Option.map_some, Option.bind_some]
  exact Write.toKeyValue_of_not_isPut (by rw [hdelete]; rfl) key (i + 1)

section

variable {K : Set Bytes} (hK : ∀ k ∈ K, ∀ k' ∈ K, k <+: k' → k = k') {deletes : List Write}
  {keys : List Bytes} (hdeletes : deletes.map Write.op = keys.map Op.delete) {s' : MvccStore σ}
  (h' : Holds s' (writes ++ deletes)) (hwrites : ∀ w ∈ writes, w.op.key ∈ K)
  {key : Bytes} (hkey : key ∈ K)

include hK hdeletes h' hwrites hkey

/-- After a delete, what lies in the range of a key from before is of the key itself. -/
lemma key_eq_of_inScan (hkeys : keys ≠ []) {w : Write} {j : ℕ} (hw : writes[j]? = some w)
    (hin : InScan key (encodeKey w.op.key (j + 1))) : w.op.key = key := by
  have hwK := hwrites w (List.mem_of_getElem? hw)
  refine eq_of_inScan_encodeKey (hK key hkey _ hwK) (hK _ hwK key hkey) ?_ hin
  have hlt := (List.getElem?_eq_some_iff.mp hw).1
  have hlen := h'.length_lt
  have hpos := List.length_pos_iff.mpr hkeys
  have hlength : deletes.length = keys.length := by simpa using congrArg List.length hdeletes
  rw [List.length_append] at hlen
  simp only [u64Max]
  omega

lemma Holds.get_of_deleted [ScansKey σ key] (hmem : key ∈ keys) : s'.get key = .ok none := by
  rw [h'.get_found]
  cases hfound : found ((writes ++ deletes).map Write.op) key with
  | none => rfl
  | some x =>
    obtain ⟨op, j⟩ := x
    rcases found_append_cases hdeletes hfound with ⟨w, hw, rfl⟩ | ⟨p, k, rfl, hk, rfl⟩
    · -- the version of the delete comes before all versions from before
      have hown := key_eq_of_inScan hK hdeletes h' hwrites hkey (List.ne_nil_of_mem hmem) hw
        (inScan_of_found hfound)
      obtain ⟨p, hp⟩ := List.getElem?_of_mem hmem
      have hop := getElem?_deletes writes hdeletes hp
      have hlt : encodeKey key (writes.length + p + 1) < encodeKey key (j + 1) := by
        have hj := (List.getElem?_eq_some_iff.mp hw).1
        have hlast := (List.getElem?_eq_some_iff.mp hop).1
        have hlen := h'.length_lt
        rw [List.length_map] at hlast
        exact (encodeKey_lt_encodeKey_iff key (by omega) (by omega)).mpr (by omega)
      have hend := (inScan_of_found hfound).2
      rw [hown] at hend
      have hle := le_of_found hfound hop ⟨encodeKeyPrefixStart_le le_rfl _, hlt.trans hend⟩
      rw [hown] at hle
      exact absurd hlt (not_lt.mpr hle)
    · rw [Option.bind_some, versionAt_delete (getElem?_of_found hfound)]

/-- Other keys are read as before. -/
lemma Holds.get_of_not_deleted [ScansKey σ key] (h : Holds s writes) (hkeysK : ∀ k ∈ keys, k ∈ K)
    (hmem : key ∉ keys) : s'.get key = s.get key := by
  have hlen : ((writes ++ deletes).map Write.op).length < 2 ^ 64 := by
    rw [List.length_map]
    exact h'.length_lt
  have htake : ((writes ++ deletes).map Write.op).take writes.length = writes.map Write.op := by
    rw [List.map_append]
    exact List.take_left' (by simp)
  rw [h.get_found, h'.get_found, ← htake]
  cases hfound : found ((writes ++ deletes).map Write.op) key with
  | none =>
    rw [found_take_of_none hfound]
    rfl
  | some x =>
    obtain ⟨op, j⟩ := x
    rcases found_append_cases hdeletes hfound with ⟨w, hw, rfl⟩ | ⟨p, k, rfl, hk, rfl⟩
    · have hj := (List.getElem?_eq_some_iff.mp hw).1
      rw [found_take hlen hfound hj, Option.bind_some, Option.bind_some, versionAt,
        List.getElem?_append_left hj, versionAt]
    · -- a version of another key that comes first has none of the key itself behind it
      rw [Option.bind_some, versionAt_delete (getElem?_of_found hfound), htake]
      cases hold : found (writes.map Write.op) key with
      | none => rfl
      | some y =>
        obtain ⟨op, i⟩ := y
        obtain ⟨w, hw, rfl⟩ : ∃ w, writes[i]? = some w ∧ w.op = op := by
          simpa using getElem?_of_found hold
        have hown := key_eq_of_inScan hK hdeletes h' hwrites hkey (List.ne_nil_of_mem
          (List.mem_of_getElem? hk)) hw (inScan_of_found hold)
        have hkK := hkeysK k (List.mem_of_getElem? hk)
        have hlow := (inScan_of_found hfound).1
        rcases lt_trichotomy k key with hlt | rfl | hlt
        · exact absurd (append_lt_append_of_lt hlt (fun hp => hlt.ne (hK k hkK key hkey hp)) _ _)
            (not_lt.mpr hlow)
        · exact absurd (List.mem_of_getElem? hk) hmem
        · have hop : ((writes ++ deletes).map Write.op)[i]? = some w.op := by
            refine getElem?_map_op ?_
            rw [List.getElem?_append_left (List.getElem?_eq_some_iff.mp hw).1, hw]
          have hle := le_of_found hfound hop (inScan_of_found hold)
          rw [hown] at hle
          exact absurd (append_lt_append_of_lt hlt
            (fun hp => hlt.ne (hK key hkey k hkK hp)) _ _) (not_lt.mpr hle)

end

variable (σ) in
/-- **Expiry.** After any history on keys none of which starts with another, a sweep deletes the
keys that are due, and leaves the reads of all others as they were, exactly if the times of expiry
are signed words and the keys that are due are scanned. -/
theorem sweepExpired_exact_iff {history : List Op} (hfits : ∀ op ∈ history, op.Fits)
    {K : Set Bytes} (hscan : ∀ k ∈ K, HasRange k) (hK : ∀ k ∈ K, ∀ k' ∈ K, k <+: k' → k = k')
    (hkeys : ∀ op ∈ history, op.key ∈ K) {nowSecs : Int64}
    (hroom : history.length + (dueKeys history nowSecs).length < 2 ^ 64) :
    ∃ s : MvccStore σ, run σ history = .ok s ∧
      (SweepsDue s history K nowSecs ↔ Sweepable history nowSecs) := by
  obtain ⟨s, writes, hrun, hholds, rfl, -⟩ :=
    exists_run_created σ (fun op hop => (hscan _ (hkeys op hop)).scansKey) hfits (by omega)
  rw [List.length_map] at hroom
  obtain ⟨F, hF, hloop⟩ := hholds.exists_judged fun op hop op' hop' =>
    hK _ (hkeys op hop) _ (hkeys op' hop')
  have hwrites : ∀ w ∈ writes, w.op.key ∈ K := fun w hw => hkeys w.op (List.mem_map_of_mem hw)
  have hdueK : ∀ key ∈ dueKeys (writes.map Write.op) nowSecs, key ∈ K := by
    intro key hkey
    obtain ⟨op, i, hx, -, rfl⟩ := mem_dueKeys.mp hkey
    exact hkeys op (List.mem_of_getElem? (mem_timed.mp hx).1)
  have hscans : ∀ key ∈ K, ScansKey σ key := fun key hkey => (hscan key hkey).scansKey
  refine ⟨s, hrun, ?_, fun hsweep => ?_⟩
  · rintro ⟨keys, s', hperm, hswept, hdelete, -⟩
    obtain ⟨swept, hexpired, hswept⟩ := bind_eq_ok_iff.mp hswept
    obtain ⟨_, hdelete', heq⟩ := bind_eq_ok_iff.mp hswept
    obtain ⟨hlength, rfl⟩ := Prod.mk.inj (Except.ok.inj heq)
    obtain ⟨hok, hsweptF⟩ := (hloop nowSecs swept).mp hexpired
    have hsweptK : ∀ key ∈ swept, key ∈ K := by
      intro key hkey
      rw [hsweptF] at hkey
      obtain ⟨⟨w, i⟩, hx, rfl⟩ := List.mem_map.mp hkey
      obtain ⟨hw, -⟩ := (hF.mem_iff w i).mp (List.mem_of_mem_filter hx)
      exact hwrites w (List.mem_of_getElem? hw)
    -- the store tells that the keys that were swept are those that are due
    obtain rfl := hholds.deleteAll_inj (fun k hk => hscans k (hdueK k (hperm.mem_iff.mp hk)))
      (fun k hk => hscans k (hsweptK k hk)) (by rw [hperm.length_eq]; exact hroom)
      (by rw [hlength]; exact hroom) hdelete hdelete'
    exact hF.sweepable_of_perm hholds.length_lt hok (hsweptF ▸ hperm)
  · obtain ⟨hok, hperm⟩ := hF.perm_of_sweepable hholds.length_lt hsweep
    have hsweptK := fun k hk => hdueK k (hperm.mem_iff.mp hk)
    obtain ⟨s', deletes, hdelete, hholds', hops⟩ := hholds.exists_deleteAll
      (fun k hk => hscans k (hsweptK k hk)) (by rw [hperm.length_eq]; exact hroom)
    have hexpired := (hloop nowSecs _).mpr ⟨hok, rfl⟩
    refine ⟨_, s', hperm, ?_, hdelete, fun key hkey => ?_, fun key hkey hnot => ?_⟩
    · rw [← hperm.length_eq]
      exact bind_eq_ok_iff.mpr ⟨_, hexpired, bind_eq_ok_iff.mpr ⟨s', hdelete, rfl⟩⟩
    · have := hscans key (hdueK key hkey)
      exact hholds'.get_of_deleted hK hops hwrites (hdueK key hkey) (hperm.mem_iff.mpr hkey)
    · have := hscans key hkey
      exact hholds'.get_of_not_deleted hK hops hwrites hkey hholds hsweptK
        fun hk => hnot (hperm.mem_iff.mp hk)

/-- One key is due, the other is not. -/
theorem sweepExpired_exact_oneDue :
    let history : List Op := [.put [0x61] [1] 0 5, .put [0x62] [2] 0 0]
    let K : Set Bytes := {[0x61], [0x62]}
    Sweepable history 7 ∧ dueKeys history 7 = [[0x61]] ∧
      ∃ s : MvccStore (Std.TreeMap Bytes Bytes), run (Std.TreeMap Bytes Bytes) history = .ok s ∧
        SweepsDue s history K 7 := by
  intro history K
  have hsweep : Sweepable history 7 := by decide +kernel
  have hdue : dueKeys history 7 = [[0x61]] := by decide +kernel
  have hfits : ∀ op ∈ history, op.Fits := by simp [history, Op.Fits]
  have hK : ∀ k ∈ K, ∀ k' ∈ K, k <+: k' → k = k' := by
    rintro _ (rfl | rfl) _ (rfl | rfl) hp
    · rfl
    · exact absurd hp (by decide)
    · exact absurd hp (by decide)
    · rfl
  have hscan : ∀ k ∈ K, HasRange k := by
    rintro _ (rfl | rfl) <;> decide
  obtain ⟨s, hrun, hiff⟩ := sweepExpired_exact_iff (Std.TreeMap Bytes Bytes) hfits hscan hK
    (by simp [history, K, Op.key]) (show _ < 2 ^ 64 by rw [hdue]; decide)
  exact ⟨hsweep, hdue, s, hrun, hiff.mpr hsweep⟩

/-- A put whose TTL is the greatest signed word makes the sweep panic. A key of 32 bytes `0xFF` and
more is due and is not deleted. -/
theorem sweepExpired_overflows_and_misses :
    ((run (Std.TreeMap Bytes Bytes) [.put [0x61] [1] 0 9223372036854775807]).bind fun s =>
      s.sweepExpired 0) = .error .panicked ∧
    (let key := List.replicate 32 255 ++ [0]
    let history : List Op := [.put key [1] 0 5]
    dueKeys history 100 = [key] ∧
      ((run (Std.TreeMap Bytes Bytes) history).bind fun s => do
        let (count, s') ← s.sweepExpired 100
        return (count, ← s'.get key)) = .ok (0, some ⟨key, [1], 1, 1, 0⟩)) := by
  refine ⟨rfl, by decide +kernel, rfl⟩

end

end MvccStore

end Raftrust.Mvcc

import Raftrust.Mvcc.Commit

/-!
# History is append-only

Every call that writes takes a revision of its own and stores versions under it. What is in the
engine stays as it is, because an internal key determines the revision that it was stored under.
Engine calls may fail anywhere; what has been stored by then follows the same rule.
-/

namespace Raftrust.Mvcc

open Lib Storage

/-! ### The revision in the bytes of a version -/

namespace VersionedValue

/-- The second of the four numbers at the end of an encoded version. -/
def encodedModRevision (data : Bytes) : ℕ :=
  fromLe ((data.drop (data.length - 24)).take 8)

/-- It is found there whatever the length of the value. -/
lemma encodedModRevision_encode (v : VersionedValue) :
    encodedModRevision v.encode = v.modRevision % 2 ^ 64 := by
  have hfields : ∃ front, v.encode = front ++ (toLe 8 v.modRevision ++
      (encodeI64 v.leaseId ++ encodeI64 v.ttlSeconds)) := by
    rw [encode]
    cases v.value with
    | none => exact ⟨2 :: toLe 8 v.createRevision, by simp [encodeFields]⟩
    | some value =>
      exact ⟨1 :: (toLe 4 value.length ++ (value ++ toLe 8 v.createRevision)),
        by simp [encodeFields]⟩
  obtain ⟨front, hfront⟩ := hfields
  have hlen : v.encode.length - 24 = front.length := by
    rw [hfront]
    simp [encodeI64]
  rw [encodedModRevision, hlen, hfront, List.drop_left, take_toLe_append, fromLe_toLe_mod]
  rfl

end VersionedValue

namespace MvccStore

variable {σ : Type} [StorageEngine σ]

/-! ### What a call stores -/

/-- The calls that write, with the engine calls that fail on the way. -/
inductive WriteCall where
  | put (fault : Option EngineFault) (key value : Bytes) (leaseId ttlSeconds : Int64)
  | delete (fault : Option EngineFault) (key : Bytes)
  | commit (faults : ℕ → Option PutFault) (t : Transaction)

/-- The store after a call, whether or not the call succeeds. -/
def call (s : MvccStore σ) : WriteCall → MvccStore σ
  | .put fault key value leaseId ttlSeconds => (s.tryPut fault key value leaseId ttlSeconds).1
  | .delete fault key => (s.tryDelete fault key).1
  | .commit faults t => (s.commit faults t).1

/-- A version as it is stored at a revision. -/
structure StoredAt (revision : ℕ) (vv : VersionedValue) : Prop where
  modRevision : vv.modRevision = revision
  createRevision : vv.createRevision < 2 ^ 64

lemma createRevision_lt_of_latest {s : MvccStore σ} {key : Bytes} {rev : ℕ} {vv : VersionedValue}
    (h : s.getLatestVersionInfo key = .ok (some (rev, vv))) : vv.createRevision < 2 ^ 64 := by
  rw [getLatestVersionInfo] at h
  split at h
  · cases h
  · obtain ⟨⟨_, rev'⟩, _, h⟩ := bind_eq_ok_iff.mp h
    dsimp only at h
    obtain ⟨vv', hdecode, h⟩ := bind_eq_ok_iff.mp h
    obtain ⟨-, rfl⟩ := Prod.mk.inj (Option.some.inj (Except.ok.inj h))
    exact VersionedValue.createRevision_lt_of_decode hdecode

/-- The last step of a put or delete stores the version or nothing. -/
lemma store_cases (s : MvccStore σ) (fault : Option EngineFault) (key : Bytes) (revision : ℕ)
    (vv : VersionedValue) : (s.store fault (encodeKey key revision) vv.encode).1 = s ∨
      (s.store fault (encodeKey key revision) vv.encode).1 = s.after revision [(key, vv)] := by
  rcases fault with _ | e | ⟨e, _ | _⟩
  · exact .inr rfl
  · exact .inr rfl
  · exact .inl rfl
  · exact .inr rfl

lemma applyWrites_after {commitRevision : ℕ} (hrevision : commitRevision < 2 ^ 64)
    (s : MvccStore σ) (faults : ℕ → Option PutFault) (writes : List (Bytes × Option Bytes)) :
    ∃ records : List (Bytes × VersionedValue),
      (∀ record ∈ records, StoredAt commitRevision record.2) ∧
        (s.applyWrites commitRevision faults writes).1 = s.after commitRevision records := by
  induction writes generalizing s faults with
  | nil => exact ⟨[], by simp, rfl⟩
  | cons w writes ih =>
    obtain ⟨key, value⟩ := w
    rw [applyWrites]
    cases hcreate : s.findCreateRevision commitRevision key value with
    | error e => exact ⟨[], by simp, rfl⟩
    | ok createRevision =>
      obtain ⟨vv, hvv⟩ : ∃ vv, versionOf value createRevision commitRevision = vv := ⟨_, rfl⟩
      have hstored : StoredAt commitRevision vv := by
        rw [← hvv]
        exact ⟨rfl, findCreateRevision_lt hrevision hcreate⟩
      have hone : ∀ record ∈ [(key, vv)], StoredAt commitRevision record.2 := by
        simpa using hstored
      cases hfault : faults 0 with
      | none =>
        obtain ⟨records, hrecords, heq⟩ := ih (s.after commitRevision [(key, vv)])
          fun n => faults (n + 1)
        refine ⟨(key, vv) :: records, List.forall_mem_cons.mpr ⟨hstored, hrecords⟩, ?_⟩
        have hput : s.putVersioned none key vv commitRevision =
            (s.after commitRevision [(key, vv)], .ok ()) := rfl
        simp only [hvv, hput]
        exact heq
      -- the loop ends here, with or without this record
      | some f =>
        have hput := putVersioned_some s f key vv commitRevision
        refine ⟨[(key, vv)].take f.stored.toNat,
          fun record hrecord => hone record (List.mem_of_mem_take hrecord), ?_⟩
        simp only [hvv, hput]

/-- A call changes nothing, or takes the next revision and stores versions under it. -/
lemma call_cases (s : MvccStore σ) (c : WriteCall) : s.call c = s ∨
    ∃ records : List (Bytes × VersionedValue),
      (∀ record ∈ records, StoredAt s.nextRevision.1 record.2) ∧
        s.call c = s.nextRevision.2.after s.nextRevision.1 records := by
  have hlt := s.nextRevision_lt
  have hnone : ∃ records : List (Bytes × VersionedValue),
      (∀ record ∈ records, StoredAt s.nextRevision.1 record.2) ∧
        s.nextRevision.2 = s.nextRevision.2.after s.nextRevision.1 records := ⟨[], by simp, rfl⟩
  -- a put call that fails may have stored its record or not
  have hone : ∀ (fault : Option EngineFault) (key : Bytes) (vv : VersionedValue),
      StoredAt s.nextRevision.1 vv → ∃ records : List (Bytes × VersionedValue),
        (∀ record ∈ records, StoredAt s.nextRevision.1 record.2) ∧
          (s.nextRevision.2.store fault (encodeKey key s.nextRevision.1) vv.encode).1 =
            s.nextRevision.2.after s.nextRevision.1 records := by
    intro fault key vv hvv
    rcases s.nextRevision.2.store_cases fault key s.nextRevision.1 vv with h | h
    · rw [h]
      exact hnone
    · exact ⟨[(key, vv)], by simpa using hvv, h⟩
  cases c with
  | put fault key value leaseId ttlSeconds =>
    refine .inr ?_
    simp only [call, tryPut]
    split
    · exact hnone
    · split
      · exact hnone
      · next info hinfo =>
        refine hone fault key _ ⟨rfl, ?_⟩
        rcases info with _ | ⟨rev, vv⟩
        · exact hlt
        · simp only [Option.map_some, createRevisionOf]
          split
          · exact createRevision_lt_of_latest hinfo
          · exact hlt
  -- a delete takes no revision if its lookup fails
  | delete fault key =>
    simp only [call, tryDelete]
    split
    · exact .inl rfl
    · split
      · exact .inl rfl
      · exact .inr (hone fault key _ ⟨rfl, Nat.two_pow_pos 64⟩)
  | commit faults t =>
    simp only [call, commit]
    split
    · exact .inl rfl
    · split
      · exact .inl rfl
      · exact .inr (applyWrites_after hlt _ faults t.writeSet)

/-! ### What the engine holds -/

/-- Every record of the engine is a version under the key and the revision it was stored at, and no
revision is after the current one. -/
structure Recorded (s : MvccStore σ) : Prop where
  revision_lt : s.currentRevision < 2 ^ 64
  record : ∀ internalKey rawValue, StorageEngine.get s.engine internalKey = some rawValue →
    ∃ key revision vv, internalKey = encodeKey key revision ∧ rawValue = VersionedValue.encode vv ∧
      StoredAt revision vv ∧ revision ≤ s.currentRevision

lemma recorded_new : Recorded (new (StorageEngine.empty : σ)) where
  revision_lt := Nat.two_pow_pos 64
  record := by
    intro internalKey rawValue h
    rw [new, StorageEngine.get_empty] at h
    cases h

/-- The counter can be increased once more. -/
def HasNext (s : MvccStore σ) (_ : WriteCall) : Prop :=
  s.currentRevision < 2 ^ 64 - 1
  deriving Decidable

namespace Recorded

variable {s : MvccStore σ} (h : Recorded s)

include h

omit [StorageEngine σ] h in
lemma nextRevision_eq (hnext : s.currentRevision < 2 ^ 64 - 1) :
    s.nextRevision.1 = s.currentRevision + 1 :=
  Nat.mod_eq_of_lt (by omega)

/-- No record lies under an internal key of the next revision. -/
lemma encodeKey_ne (hnext : s.currentRevision < 2 ^ 64 - 1) {internalKey rawValue : Bytes}
    (hget : StorageEngine.get s.engine internalKey = some rawValue) (key : Bytes) :
    encodeKey key s.nextRevision.1 ≠ internalKey := by
  obtain ⟨key', revision, vv, rfl, -, -, hle⟩ := h.record _ _ hget
  intro heq
  have hlt := h.revision_lt
  obtain ⟨-, hrevision⟩ := encodeKey_inj s.nextRevision_lt (by omega) heq
  rw [nextRevision_eq hnext] at hrevision
  omega

lemma call (hnext : s.currentRevision < 2 ^ 64 - 1) (c : WriteCall) : Recorded (s.call c) := by
  rcases s.call_cases c with heq | ⟨records, hrecords, heq⟩
  · rwa [heq]
  rw [heq]
  refine ⟨s.nextRevision_lt, fun internalKey rawValue hget => ?_⟩
  rcases s.nextRevision.2.get_after s.nextRevision.1 records internalKey with
    ⟨key, vv, hlast, hkey, hstored⟩ | ⟨-, hold⟩
  · obtain rfl := Option.some.inj (hget.symm.trans hstored)
    exact ⟨key, s.nextRevision.1, vv, hkey.symm, rfl, hrecords _ (mem_of_lastVersion hlast), le_rfl⟩
  · rw [hold] at hget
    obtain ⟨key, revision, vv, hkey, hvalue, hvv, hle⟩ := h.record _ _ hget
    refine ⟨key, revision, vv, hkey, hvalue, hvv, hle.trans ?_⟩
    exact (Nat.le_succ _).trans (nextRevision_eq hnext).ge

end Recorded

/-- The revision in the internal key is the one encoded in the version, and the one that is decoded
from it if the value fits into its length field. -/
def RevisionsAgree (internalKey rawValue : Bytes) : Prop :=
  ∃ key revision, decodeKey internalKey = .ok (key, revision) ∧
    VersionedValue.encodedModRevision rawValue = revision ∧
    ∃ vv, rawValue = VersionedValue.encode vv ∧ ((∀ value ∈ vv.value, value.length < 2 ^ 32) →
      ∃ vv', VersionedValue.decode rawValue = .ok vv' ∧ vv'.modRevision = revision)

/-- A record that a call adds is under the next revision. -/
lemma exists_decodeKey_of_new {s : MvccStore σ} {c : WriteCall} {internalKey rawValue : Bytes}
    (hget : StorageEngine.get (s.call c).engine internalKey = some rawValue)
    (hnone : StorageEngine.get s.engine internalKey = none) :
    ∃ key, decodeKey internalKey = .ok (key, s.nextRevision.1) := by
  rcases s.call_cases c with heq | ⟨records, -, heq⟩
  · rw [heq, hnone] at hget
    cases hget
  · rcases s.nextRevision.2.get_after s.nextRevision.1 records internalKey with
      ⟨key, -, -, rfl, -⟩ | ⟨-, hold⟩
    · exact ⟨key, decodeKey_encodeKey key s.nextRevision_lt⟩
    · have hsame : StorageEngine.get s.engine internalKey = some rawValue := by
        rw [← hget, heq, hold]
        rfl
      rw [hnone] at hsame
      cases hsame

namespace Recorded

variable {s : MvccStore σ} (h : Recorded s) {internalKey rawValue : Bytes}

include h

lemma get_call (hnext : s.currentRevision < 2 ^ 64 - 1) (c : WriteCall)
    (hget : StorageEngine.get s.engine internalKey = some rawValue) :
    StorageEngine.get (s.call c).engine internalKey = some rawValue := by
  rcases s.call_cases c with heq | ⟨records, -, heq⟩
  · rwa [heq]
  · rcases s.nextRevision.2.get_after s.nextRevision.1 records internalKey with
      ⟨key, -, -, hkey, -⟩ | ⟨-, hold⟩
    · exact absurd hkey (h.encodeKey_ne hnext hget key)
    · rw [heq, hold]
      exact hget

/-- The records before a call are under earlier revisions. -/
lemma exists_earlier (hnext : s.currentRevision < 2 ^ 64 - 1)
    (hget : StorageEngine.get s.engine internalKey = some rawValue) :
    ∃ key earlier, decodeKey internalKey = .ok (key, earlier) ∧ earlier < s.nextRevision.1 := by
  obtain ⟨key, earlier, vv, rfl, -, -, hle⟩ := h.record _ _ hget
  refine ⟨key, earlier, decodeKey_encodeKey key (hle.trans_lt h.revision_lt), ?_⟩
  rw [nextRevision_eq hnext]
  exact Nat.lt_succ_of_le hle

lemma revisionsAgree (hget : StorageEngine.get s.engine internalKey = some rawValue) :
    RevisionsAgree internalKey rawValue := by
  obtain ⟨key, revision, vv, rfl, rfl, hvv, hle⟩ := h.record _ _ hget
  have hlt : revision < 2 ^ 64 := hle.trans_lt h.revision_lt
  refine ⟨key, revision, decodeKey_encodeKey key hlt, ?_, vv, rfl, fun hfits => ?_⟩
  · rw [VersionedValue.encodedModRevision_encode, hvv.modRevision, Nat.mod_eq_of_lt hlt]
  · have hdecode := VersionedValue.decode_encode
      ⟨hfits, hvv.createRevision, hvv.modRevision ▸ hlt⟩
    exact ⟨vv, hdecode, hvv.modRevision⟩

end Recorded

lemma recorded_run {calls : List WriteCall}
    (h : Along MvccStore.call HasNext (new (StorageEngine.empty : σ)) calls) :
    Recorded (Lib.run MvccStore.call (new (StorageEngine.empty : σ)) calls) := by
  refine run_invariant MvccStore.call
    (fun calls => Recorded (Lib.run MvccStore.call (new (StorageEngine.empty : σ)) calls))
    recorded_new ?_ h
  intro es e _ ih he
  rw [run_snoc]
  exact ih.call he e

/-- In every sequence of puts, deletes and commits on a store that started empty, every call keeps
all records as they are and adds records only at one revision after all earlier ones, and the
revision of every record is the one encoded in it. -/
theorem history_appendOnly (calls : List WriteCall) (c : WriteCall)
    (hnext : Along MvccStore.call HasNext (new (StorageEngine.empty : σ)) (calls ++ [c])) :
    let s := Lib.run MvccStore.call (new (StorageEngine.empty : σ)) calls
    (∀ internalKey rawValue, StorageEngine.get s.engine internalKey = some rawValue →
      StorageEngine.get (s.call c).engine internalKey = some rawValue) ∧
    (∃ revision,
      (∀ internalKey rawValue, StorageEngine.get (s.call c).engine internalKey = some rawValue →
        StorageEngine.get s.engine internalKey = none →
        ∃ key, decodeKey internalKey = .ok (key, revision)) ∧
      ∀ internalKey rawValue, StorageEngine.get s.engine internalKey = some rawValue →
        ∃ key earlier, decodeKey internalKey = .ok (key, earlier) ∧ earlier < revision) ∧
    ∀ internalKey rawValue, StorageEngine.get (s.call c).engine internalKey = some rawValue →
      RevisionsAgree internalKey rawValue := by
  intro s
  obtain ⟨hcalls, hc⟩ := (along_snoc MvccStore.call HasNext _ calls c).mp hnext
  have hs : Recorded s := recorded_run hcalls
  refine ⟨fun internalKey rawValue hget => hs.get_call hc c hget, ⟨s.nextRevision.1, ?_, ?_⟩, ?_⟩
  · intro internalKey rawValue hget hnone
    exact exists_decodeKey_of_new hget hnone
  · intro internalKey rawValue hget
    exact hs.exists_earlier hc hget
  · intro internalKey rawValue hget
    exact (hs.call hc c).revisionsAgree hget

/-- A put, and then a commit that writes the same key twice. -/
theorem history_appendOnly_twoWrites :
    let calls : List WriteCall := [.put none [0x61] [1] 0 0]
    let c : WriteCall := .commit (fun _ => none)
      ⟨1, [([0x61], 1)], [([0x61], none), ([0x61], some [2])]⟩
    let s := Lib.run MvccStore.call (new (StorageEngine.empty : Std.TreeMap Bytes Bytes)) calls
    Along MvccStore.call HasNext (new (StorageEngine.empty : Std.TreeMap Bytes Bytes))
      (calls ++ [c]) ∧
    (s.call c).get [0x61] = .ok (some ⟨[0x61], [2], 2, 2, 0⟩) ∧
    ∀ internalKey rawValue, StorageEngine.get (s.call c).engine internalKey = some rawValue →
      RevisionsAgree internalKey rawValue := by
  intro calls c s
  have hnext : Along MvccStore.call HasNext (new (StorageEngine.empty : Std.TreeMap Bytes Bytes))
      (calls ++ [c]) := by decide +kernel
  exact ⟨hnext, by decide +kernel, (history_appendOnly calls c hnext).2.2⟩

end MvccStore

end Raftrust.Mvcc

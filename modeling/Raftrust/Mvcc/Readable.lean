import Raftrust.Lib.Run
import Raftrust.Mvcc.Faults

/-!
# Stores that can be read

Reads decode what the engine holds and panic on anything else. All that the store itself writes
decodes, also a value that is too long for its length field, which decodes to a part of itself.
-/

namespace Raftrust.Mvcc

open Lib Storage

lemma exists_decodeKey {encoded : Bytes} (h : revisionSuffixLen ≤ encoded.length) :
    ∃ result, decodeKey encoded = .ok result := by
  rw [decodeKey, if_neg (not_lt.mpr h)]
  exact ⟨_, rfl⟩

namespace VersionedValue

lemma exists_decodeFields (value : Option Bytes) {data : Bytes} (h : 32 ≤ data.length) :
    ∃ vv, decodeFields value data = .ok vv ∧ vv.value = value := by
  rw [decodeFields, if_neg (not_lt.mpr h)]
  exact ⟨_, rfl, rfl⟩

/-- Versions decode, to a part of the value if it does not fit. -/
lemma exists_decode_encode (v : VersionedValue) :
    ∃ vv, decode v.encode = .ok vv ∧
      vv.value = v.value.map fun value => value.take (value.length % 2 ^ 32) := by
  cases hvalue : v.value with
  | none =>
    rw [encode, hvalue, decode, if_neg (by decide)]
    exact exists_decodeFields none v.encodeFields_length.ge
  | some value =>
    -- the length field holds the length modulo 2 ^ 32
    have hcount : fromLe (toLe 4 value.length) = value.length % 2 ^ 32 :=
      fromLe_toLe_mod 4 value.length
    have hle : value.length % 2 ^ 32 ≤ value.length := Nat.mod_le _ _
    have hlen : (toLe 4 value.length ++ value ++ v.encodeFields).length =
        4 + value.length + 32 := by
      simp [encodeFields_length, Nat.add_assoc]
    have htake : (toLe 4 value.length ++ value ++ v.encodeFields).take 4 =
        toLe 4 value.length := by
      simp
    have hrest : (toLe 4 value.length ++ value ++ v.encodeFields).drop 4 =
        value ++ v.encodeFields := by
      simp
    rw [encode, hvalue]
    simp only [List.cons_append, decode, if_true, htake, hlen, hrest, hcount]
    rw [if_neg (by omega), List.take_append_of_le_length hle]
    apply exists_decodeFields
    rw [List.length_drop, List.length_append, encodeFields_length]
    omega

/-- The value of a version can be told from its bytes, whatever its length. -/
lemma value_eq_of_encode_eq {v v' : VersionedValue} (h : v.encode = v'.encode) :
    v.value = v'.value := by
  cases hv : v.value with
  | none =>
    cases hv' : v'.value with
    | none => rfl
    | some value' => simp [encode, hv, hv'] at h
  | some value =>
    cases hv' : v'.value with
    | none => simp [encode, hv, hv'] at h
    | some value' =>
      simp only [encode, hv, hv', List.cons_append, List.append_assoc, List.cons.injEq,
        true_and] at h
      have hlen := congrArg List.length h
      simp only [List.length_append, toLe_length, encodeFields_length] at hlen
      obtain ⟨-, hrest⟩ := List.append_inj h (by simp)
      exact congrArg some (List.append_inj hrest (by omega)).1

end VersionedValue

namespace MvccStore

variable {σ : Type} [StorageEngine σ]

/-- Everything in the engine decodes. -/
def Readable (s : MvccStore σ) : Prop :=
  ∀ internalKey rawValue, StorageEngine.get s.engine internalKey = some rawValue →
    (∃ result, decodeKey internalKey = .ok result) ∧
      ∃ vv, VersionedValue.decode rawValue = .ok vv

lemma readable_new : Readable (new (StorageEngine.empty : σ)) := by
  intro internalKey rawValue h
  rw [new, StorageEngine.get_empty] at h
  cases h

namespace Readable

variable {s : MvccStore σ}

lemma of_engine_eq {s' : MvccStore σ} (h : s.Readable) (heq : s'.engine = s.engine) :
    s'.Readable := by
  rw [Readable, heq]
  exact h

lemma store (h : s.Readable) (key : Bytes) (revision currentRevision : ℕ) (vv : VersionedValue) :
    Readable ⟨StorageEngine.put s.engine (encodeKey key revision) vv.encode, currentRevision⟩ := by
  intro internalKey rawValue hget
  rw [StorageEngine.get_put] at hget
  split at hget
  · next heq =>
    obtain rfl := Option.some.inj hget
    subst heq
    obtain ⟨decoded, hdecoded, -⟩ := vv.exists_decode_encode
    exact ⟨exists_decodeKey (by simp [encodeKey_length]), decoded, hdecoded⟩
  · exact h internalKey rawValue hget

lemma of_mem_scanKey (h : s.Readable) {key : Bytes} [ScansKey σ key] {e : Bytes × Bytes}
    (he : e ∈ s.scanKey key) :
    (∃ result, decodeKey e.1 = .ok result) ∧ ∃ vv, VersionedValue.decode e.2 = .ok vv :=
  h e.1 e.2 (Scans.mem_scan.mp he).1

lemma exists_getAtRevision (h : s.Readable) (key : Bytes) [ScansKey σ key] (revision : ℕ) :
    ∃ result, s.getAtRevision key revision = .ok result := by
  have hloop : ∀ entries : List (Bytes × Bytes), (∀ e ∈ entries, e ∈ s.scanKey key) →
      ∃ vv, firstVisible revision entries = .ok vv := by
    intro entries hentries
    induction entries with
    | nil => exact ⟨none, rfl⟩
    | cons e entries ih =>
      obtain ⟨⟨⟨k, rev⟩, hkey⟩, vv, hvalue⟩ := h.of_mem_scanKey (hentries e List.mem_cons_self)
      obtain ⟨rest, hrest⟩ := ih fun x hx => hentries x (List.mem_cons_of_mem e hx)
      rw [firstVisible, hkey]
      by_cases hrev : revision < rev
      · exact ⟨rest, by simpa [bind, Except.bind, hrev] using hrest⟩
      · exact ⟨some vv, by simp [bind, Except.bind, hrev, hvalue, pure, Except.pure]⟩
  obtain ⟨vv, hvv⟩ := hloop _ fun e he => he
  exact ⟨vv.bind (·.toKeyValue key), by rw [getAtRevision, hvv]; rfl⟩

lemma exists_get (h : s.Readable) (key : Bytes) [ScansKey σ key] :
    ∃ result, s.get key = .ok result :=
  h.exists_getAtRevision key u64Max

lemma exists_latest (h : s.Readable) (key : Bytes) [ScansKey σ key] :
    ∃ info, s.getLatestVersionInfo key = .ok info := by
  rw [getLatestVersionInfo]
  cases hscan : s.scanKey key with
  | nil => exact ⟨none, rfl⟩
  | cons e entries =>
    have he : e ∈ s.scanKey key := hscan ▸ List.mem_cons_self
    obtain ⟨⟨⟨k, rev⟩, hkey⟩, vv, hvalue⟩ := h.of_mem_scanKey he
    exact ⟨some (rev, vv), by simp [bind, Except.bind, hkey, hvalue, pure, Except.pure]⟩

/-- A put stores a version at the next revision. -/
lemma exists_putWithOptions (h : s.Readable) (key : Bytes) [ScansKey σ key] (value : Bytes)
    (leaseId ttlSeconds : Int64) :
    ∃ createRevision, s.putWithOptions key value leaseId ttlSeconds =
      .ok (s.nextRevision.1,
        { engine := StorageEngine.put s.engine (encodeKey key s.nextRevision.1)
            (VersionedValue.mk (some value) createRevision s.nextRevision.1 leaseId
              ttlSeconds).encode
          currentRevision := s.nextRevision.1 }) := by
  have hnext : s.nextRevision.2.Readable := h.of_engine_eq rfl
  obtain ⟨info, hinfo⟩ := hnext.exists_latest key
  exact ⟨_, by simp only [putWithOptions, hinfo]; rfl⟩

/-- A delete stores a marker at the next revision. -/
lemma exists_delete (h : s.Readable) (key : Bytes) [ScansKey σ key] :
    ∃ existed, s.delete key =
      .ok (s.nextRevision.1, existed,
        { engine := StorageEngine.put s.engine (encodeKey key s.nextRevision.1)
            (VersionedValue.mk none 0 s.nextRevision.1 0 0).encode
          currentRevision := s.nextRevision.1 }) := by
  obtain ⟨info, hinfo⟩ := h.exists_latest key
  exact ⟨_, by rw [delete, hinfo]; rfl⟩

lemma execute (h : s.Readable) {op : Op} {s' : MvccStore σ} (hexec : s.execute op = .ok s') :
    s'.Readable := by
  cases op with
  | put key value leaseId ttlSeconds =>
    simp only [MvccStore.execute, putWithOptions] at hexec
    cases hlatest : s.nextRevision.2.getLatestVersionInfo key with
    | error e =>
      rw [hlatest] at hexec
      cases hexec
    | ok latest =>
      rw [hlatest] at hexec
      obtain rfl := Except.ok.inj hexec
      exact h.store _ _ _ _
  | delete key =>
    simp only [MvccStore.execute, delete] at hexec
    cases hlatest : s.getLatestVersionInfo key with
    | error e =>
      rw [hlatest] at hexec
      cases hexec
    | ok latest =>
      rw [hlatest] at hexec
      obtain rfl := Except.ok.inj hexec
      exact h.store _ _ _ _

/-! ### Calls that may fail -/

lemma tryStore (h : s.Readable) (fault : Option EngineFault) (key : Bytes) (revision : ℕ)
    (vv : VersionedValue) : (s.store fault (encodeKey key revision) vv.encode).1.Readable := by
  have hstored : Readable ⟨StorageEngine.put s.engine (encodeKey key revision) vv.encode,
      s.currentRevision⟩ := h.store key revision _ vv
  rcases fault with _ | e | ⟨e, _ | _⟩
  · exact hstored
  · exact hstored
  · exact h
  · exact hstored

/-- A put leaves a store that can be read, whether or not it fails. -/
lemma tryPut (h : s.Readable) (fault : Option EngineFault) (key value : Bytes)
    (leaseId ttlSeconds : Int64) :
    (s.tryPut fault key value leaseId ttlSeconds).1.Readable := by
  have hnext : s.nextRevision.2.Readable := h.of_engine_eq rfl
  simp only [MvccStore.tryPut]
  split
  · exact hnext
  · cases s.nextRevision.2.getLatestVersionInfo key with
    | error e => exact hnext
    | ok latest => exact hnext.tryStore _ _ _ _

lemma tryDelete (h : s.Readable) (fault : Option EngineFault) (key : Bytes) :
    (s.tryDelete fault key).1.Readable := by
  have hnext : s.nextRevision.2.Readable := h.of_engine_eq rfl
  simp only [MvccStore.tryDelete]
  split
  · exact h
  · cases s.getLatestVersionInfo key with
    | error e => exact h
    | ok latest => exact hnext.tryStore _ _ _ _

end Readable

/-- A delete that returns has done what a call that cannot fail does. -/
lemma delete_of_tryDelete {s store : MvccStore σ} {fault : Option EngineFault} {key : Bytes}
    {result : ℕ × Bool} (h : s.tryDelete fault key = (store, .ok result)) :
    s.delete key = .ok (result.1, result.2, store) := by
  have hnone : s.tryDelete none key = (store, .ok result) := by
    rcases fault with _ | e | ⟨e, stored⟩
    · exact h
    · cases congrArg Prod.snd h
    · simp only [tryDelete] at h
      cases hinfo : s.getLatestVersionInfo key with
      | error abort => simp [hinfo] at h
      | ok info => cases stored <;> simp [hinfo, MvccStore.store, Except.map] at h
  rw [delete_eq_tryDelete, hnone]
  rfl

end MvccStore

end Raftrust.Mvcc

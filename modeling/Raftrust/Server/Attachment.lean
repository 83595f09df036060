import Raftrust.Mvcc.ScanRange
import Raftrust.Server.LeaseTable

/-!
# Keys and the leases they are bound to

The lease of a key is recorded twice: in the version that the store holds, and in the key set of the
lease. A put writes the version and enters the key under the new lease, but does not take it out of
the key set of the old one.
-/

namespace Raftrust.Server

open Lib Mvcc Storage

namespace KvCommand

def key? : KvCommand → Option Bytes
  | .put key _ _ _ => some key
  | .delete key => some key
  | .leaseGrant _ _ => none
  | .leaseRevoke _ => none

end KvCommand

/-- None of the keys that the commands write is the start of another one. -/
def PrefixFree (cmds : List KvCommand) : Prop :=
  ∀ key ∈ cmds.filterMap KvCommand.key?, ∀ key' ∈ cmds.filterMap KvCommand.key?,
    key <+: key' → key = key'

instance (cmds : List KvCommand) : Decidable (PrefixFree cmds) := by
  unfold PrefixFree
  infer_instance

namespace Replica

variable {σ : Type} [StorageEngine σ]

/-- Apply commands one after another. -/
def applyAll (r : Replica σ) (cmds : List (KvCommand × Moment)) : Except Abort (Replica σ) :=
  cmds.foldlM (fun r x => r.applyCommand x.2 x.1) r

variable (σ) in
def new : Replica σ where
  store := .new StorageEngine.empty
  leases := .new

/-- The latest version of every attached key is live and carries the lease. -/
def AttachedBound (r : Replica σ) : Prop :=
  ∀ id key, key ∈ r.leases.keySet id →
    ∃ kv, r.store.get key = .ok (some kv) ∧ kv.leaseId = id

/-- The number of versions that a command writes. -/
def writes (r : Replica σ) : KvCommand → ℕ
  | .put _ _ _ _ => 1
  | .delete _ => 1
  | .leaseGrant _ _ => 0
  | .leaseRevoke id => (r.leases.keySet id).card

/-- A put finds its key in the key set of no other lease. If it attaches the key, the value fits and
some byte of the key is not `0xFF`; the ranges of other keys may not be inverted either. Revisions
stay below the last one. -/
def KeepsBound (r : Replica σ) (cmd : KvCommand) : Prop :=
  r.store.currentRevision + r.writes cmd < u64Max ∧
    match cmd with
    | .put key value leaseId _ =>
      MvccStore.HasRange key ∧
        (∀ id ∈ r.leases.leases.keys, key ∈ r.leases.keySet id → id = leaseId) ∧
        (0 < leaseId → leaseId ∈ r.leases.leases.keys →
          Incrementable key ∧ value.length < 2 ^ 32)
    | .delete key => MvccStore.HasRange key
    | _ => True

instance (r : Replica σ) : (cmd : KvCommand) → Decidable (r.KeepsBound cmd)
  | .put key value leaseId _ =>
    -- over the listed leases, not over all numbers
    have : Decidable (∀ id ∈ r.leases.leases.keys, key ∈ r.leases.keySet id → id = leaseId) :=
      List.decidableBAll _ _
    inferInstanceAs (Decidable (_ ∧ _ ∧ (∀ id ∈ r.leases.leases.keys, key ∈ r.leases.keySet id →
      id = leaseId) ∧ (0 < leaseId → leaseId ∈ r.leases.leases.keys →
        Incrementable key ∧ value.length < 2 ^ 32)))
  | .delete key => inferInstanceAs (Decidable (_ ∧ MvccStore.HasRange key))
  | .leaseGrant _ _ | .leaseRevoke _ => inferInstanceAs (Decidable (_ ∧ True))

/-- What commands on the keys `known` leave. -/
structure Attached (known : Bytes → Prop) (r : Replica σ) : Prop where
  revision_lt : r.store.currentRevision < u64Max
  readable : r.store.Readable
  versions : ∀ internalKey rawValue,
    StorageEngine.get r.store.engine internalKey = some rawValue →
      ∃ key revision, known key ∧ revision ≤ r.store.currentRevision ∧
        internalKey = encodeKey key revision
  keys : ∀ id key, key ∈ r.leases.keySet id → 0 < id ∧ known key ∧ Incrementable key ∧
    ∃ kv, r.store.get key = .ok (some kv) ∧ kv.leaseId = id

namespace Attached

variable {known : Bytes → Prop} {r : Replica σ}

lemma new : Attached known (Replica.new σ) where
  revision_lt := show 0 < u64Max by decide
  readable := MvccStore.readable_new
  versions := by
    intro internalKey rawValue h
    rw [Replica.new, MvccStore.new, StorageEngine.get_empty] at h
    cases h
  keys := by
    intro id key h
    simp [Replica.new] at h

lemma attachedBound (h : Attached known r) : r.AttachedBound :=
  fun id key hkey => (h.keys id key hkey).2.2.2

/-- A key is attached to one lease only. -/
lemma id_unique (h : Attached known r) {id id' : Int64} {key : Bytes}
    (hid : key ∈ r.leases.keySet id) (hid' : key ∈ r.leases.keySet id') : id = id' := by
  obtain ⟨kv, hget, rfl⟩ := h.attachedBound id key hid
  obtain ⟨kv', hget', rfl⟩ := h.attachedBound id' key hid'
  cases hget.symm.trans hget'
  rfl

lemma nextRevision (h : Attached known r) :
    r.store.nextRevision.1 = r.store.currentRevision + 1 := by
  have := h.revision_lt
  rw [MvccStore.nextRevision]
  simp only [u64Max] at this
  exact Nat.mod_eq_of_lt (by omega)

lemma of_subset (h : Attached known r) {leases : LeaseManager}
    (hsub : ∀ id, leases.keySet id ⊆ r.leases.keySet id) :
    Attached known { r with leases := leases } where
  revision_lt := h.revision_lt
  readable := h.readable
  versions := h.versions
  keys id key hkey := h.keys id key (hsub id hkey)

/-- What a read of a key scans are its own versions. -/
lemma exists_of_inScan (h : Attached known r)
    (hfree : ∀ k k', known k → known k' → k <+: k' → k = k') {key : Bytes} (hknown : known key)
    (hinc : Incrementable key) {e : Bytes × Bytes}
    (he : StorageEngine.get r.store.engine e.1 = some e.2) (hin : InScan key e.1) :
    ∃ revision ≤ r.store.currentRevision, e.1 = encodeKey key revision := by
  obtain ⟨k, revision, hk, hle, heq⟩ := h.versions e.1 e.2 he
  rw [heq] at hin
  have hrevision : revision < u64Max := hle.trans_lt h.revision_lt
  obtain rfl : key = k := by
    by_contra hne
    exact not_inScan_encodeKey hinc (fun hp => hne (hfree key k hknown hk hp))
      (fun hp => hne (hfree k key hk hknown hp).symm) hrevision hin
  exact ⟨revision, hle, heq⟩

/-- A version of a key is stored. Other keys stay bound as they are; the key itself must be bound as
the version says. -/
lemma store (h : Attached known r) (hfree : ∀ k k', known k → known k' → k <+: k' → k = k')
    {key : Bytes} (hknown : known key) (hlen : r.store.currentRevision + 1 < u64Max)
    (vv : VersionedValue) {leases : LeaseManager}
    (hother : ∀ id k, k ∈ leases.keySet id → k ≠ key → k ∈ r.leases.keySet id)
    (hself : ∀ id, key ∈ leases.keySet id → 0 < id ∧ Incrementable key ∧
      ∃ kv, (VersionedValue.decode vv.encode).map (·.toKeyValue key) = .ok (some kv) ∧
        kv.leaseId = id) :
    Attached known ⟨⟨StorageEngine.put r.store.engine
      (encodeKey key (r.store.currentRevision + 1)) vv.encode, r.store.currentRevision + 1⟩,
      leases⟩ where
  revision_lt := hlen
  readable := h.readable.store _ _ _ _
  versions := by
    intro internalKey rawValue hget
    rw [StorageEngine.get_put] at hget
    split at hget
    · next heq => exact ⟨key, _, hknown, le_rfl, heq.symm⟩
    · obtain ⟨k, revision, hk, hle, heq⟩ := h.versions internalKey rawValue hget
      exact ⟨k, revision, hk, Nat.le_succ_of_le hle, heq⟩
  keys := by
    intro id k hk
    by_cases hne : k = key
    · subst hne
      obtain ⟨hpos, hinc, hkv⟩ := hself id hk
      refine ⟨hpos, hknown, hinc, ?_⟩
      rw [MvccStore.get_store_self hinc]
      · exact hkv
      · -- versions in the range are older ones of the same key
        intro e he hin
        obtain ⟨revision, hle, heq⟩ := h.exists_of_inScan hfree hknown hinc he hin
        rw [heq]
        simp only [u64Max] at hlen
        exact ((encodeKey_lt_encodeKey_iff k (by omega) (by omega)).mpr (by omega)).le
    · obtain ⟨hpos, hk', hinc, hkv⟩ := h.keys id k (hother id k hk hne)
      refine ⟨hpos, hk', hinc, ?_⟩
      have := hinc.scansKey (σ := σ)
      rw [MvccStore.get_store_of_not_inScan]
      · exact hkv
      · exact not_inScan_encodeKey hinc (fun hp => hne (hfree k key hk' hknown hp))
          (fun hp => hne (hfree key k hknown hk' hp).symm) hlen

/-! ### Commands -/

variable (hfree : ∀ k k', known k → known k' → k <+: k' → k = k')

include hfree

lemma put (h : Attached known r) {key value : Bytes} {leaseId ttlSeconds : Int64}
    (hknown : known key) (hkeeps : r.KeepsBound (.put key value leaseId ttlSeconds)) (m : Moment) :
    ∃ r', r.applyCommand m (.put key value leaseId ttlSeconds) = .ok r' ∧ Attached known r' := by
  obtain ⟨hlen, hrange, honly, hfits⟩ := hkeeps
  have := hrange.scansKey (σ := σ)
  obtain ⟨prev, hprev⟩ := h.readable.exists_get key
  obtain ⟨createRevision, hput⟩ := h.readable.exists_putWithOptions key value leaseId ttlSeconds
  rw [h.nextRevision] at hput
  refine ⟨_, by rw [applyCommand, hprev, hput]; rfl, ?_⟩
  refine h.store hfree hknown hlen _ (fun id k hk hne => ?_) fun id hk => ?_
  · rw [keySet_attach] at hk
    split at hk
    · exact (Finset.mem_insert.mp hk).resolve_left hne
    · exact hk
  · -- whichever lease has the key now is the one of the put
    obtain ⟨rfl, hpos, hlease⟩ : id = leaseId ∧ 0 < leaseId ∧ leaseId ∈ r.leases.leases.keys := by
      rw [keySet_attach] at hk
      split at hk
      · next hcond => exact ⟨hcond.1, hcond.2.1, AList.lookup_isSome.mp hcond.2.2⟩
      · have hmem := LeaseManager.mem_keys_of_mem_keySet hk
        obtain rfl := honly id hmem hk
        exact ⟨rfl, (h.keys id key hk).1, hmem⟩
    obtain ⟨hinc, hvalue⟩ := hfits hpos hlease
    refine ⟨hpos, hinc, ?_⟩
    rw [VersionedValue.decode_encode_wrap (by simpa using hvalue)]
    exact ⟨_, rfl, rfl⟩

lemma delete (h : Attached known r) {key : Bytes} (hknown : known key)
    (hkeeps : r.KeepsBound (.delete key)) (m : Moment) :
    ∃ r', r.applyCommand m (.delete key) = .ok r' ∧ Attached known r' := by
  have := hkeeps.2.scansKey (σ := σ)
  obtain ⟨prev, hprev⟩ := h.readable.exists_get key
  obtain ⟨existed, hdelete⟩ := h.readable.exists_delete key
  rw [h.nextRevision] at hdelete
  refine ⟨_, by rw [applyCommand, hprev, hdelete]; rfl, ?_⟩
  refine h.store hfree hknown hkeeps.1 _ (fun id k hk _ => ?_) fun id hk => ?_
  · rw [keySet_detach] at hk
    split at hk
    · exact Finset.mem_of_mem_erase hk
    · exact hk
  · -- the key was detached from the lease of its last value
    exfalso
    rw [keySet_detach] at hk
    split at hk
    · exact absurd rfl (Finset.ne_of_mem_erase hk)
    · next hcond =>
      obtain ⟨hpos, -, -, kv, hget, rfl⟩ := h.keys id key hk
      obtain rfl := Except.ok.inj (hprev.symm.trans hget)
      exact hcond ⟨kv, rfl, hpos, rfl⟩

/-- Keys that are attached to no lease are deleted. -/
lemma deleteAll {keys : List Bytes} (h : Attached known r)
    (hkeys : ∀ key ∈ keys, known key ∧ Incrementable key ∧ ∀ id, key ∉ r.leases.keySet id)
    (hlen : r.store.currentRevision + keys.length < u64Max) :
    ∃ store, Replica.deleteAll r.store keys = .ok store ∧
      Attached known { r with store := store } := by
  induction keys generalizing r with
  | nil => exact ⟨r.store, rfl, h⟩
  | cons key keys ih =>
    obtain ⟨hknown, hinc, hfree'⟩ := hkeys key List.mem_cons_self
    have := hinc.scansKey (σ := σ)
    rw [List.length_cons] at hlen
    obtain ⟨existed, hdelete⟩ := h.readable.exists_delete key
    rw [h.nextRevision] at hdelete
    have hstored := h.store hfree hknown (by omega)
      ⟨none, 0, r.store.currentRevision + 1, 0, 0⟩ (fun id k hk _ => hk)
      fun id hk => absurd hk (hfree' id)
    obtain ⟨store, hrest, hattached⟩ :=
      ih hstored (fun k hk => hkeys k (List.mem_cons_of_mem key hk)) (by dsimp only; omega)
    refine ⟨store, ?_, hattached⟩
    rw [Replica.deleteAll, List.foldlM_cons, deleteKey, hdelete]
    exact hrest

lemma leaseRevoke (h : Attached known r) {id : Int64} (hkeeps : r.KeepsBound (.leaseRevoke id))
    (m : Moment) :
    ∃ r', r.applyCommand m (.leaseRevoke id) = .ok r' ∧ Attached known r' := by
  rw [applyCommand]
  cases hrevoke : r.leases.revoke id m.order with
  | error e => exact ⟨r, rfl, h⟩
  | ok result =>
    obtain ⟨keys, leases⟩ := result
    obtain ⟨hkeys, hsets, -⟩ := LeaseManager.revoke_eq hrevoke
    obtain rfl : keys = m.order.toList (r.leases.keySet id) := hkeys
    have hsub : ∀ id', leases.keySet id' ⊆ r.leases.keySet id' := by
      intro id'
      rw [show leases.keySet id' = _ from hsets id']
      split
      · exact Finset.empty_subset _
      · exact Finset.Subset.refl _
    have hgone : ∀ key ∈ m.order.toList (r.leases.keySet id), known key ∧ Incrementable key ∧
        ∀ id', key ∉ leases.keySet id' := by
      intro key hkey
      rw [m.order.mem_toList] at hkey
      obtain ⟨-, hknown, hinc, -⟩ := h.keys id key hkey
      refine ⟨hknown, hinc, fun id' hid' => ?_⟩
      have heq := h.id_unique (hsub id' hid') hkey
      rw [show leases.keySet id' = _ from hsets id', if_pos heq] at hid'
      simp at hid'
    obtain ⟨store, hdelete, hattached⟩ := (h.of_subset hsub).deleteAll hfree hgone (by
      rw [m.order.length_toList]
      exact hkeeps.1)
    exact ⟨_, by simp only [hdelete]; rfl, hattached⟩

lemma applyCommand (h : Attached known r) {cmd : KvCommand} (hknown : ∀ key ∈ cmd.key?, known key)
    (hkeeps : r.KeepsBound cmd) (m : Moment) :
    ∃ r', r.applyCommand m cmd = .ok r' ∧ Attached known r' := by
  cases cmd with
  | put key value leaseId ttlSeconds => exact h.put hfree (hknown key rfl) hkeeps m
  | delete key => exact h.delete hfree (hknown key rfl) hkeeps m
  | leaseRevoke id => exact h.leaseRevoke hfree hkeeps m
  | leaseGrant id ttl =>
    rw [Replica.applyCommand]
    cases hgrant : r.leases.grant id ttl m.now with
    | error e => exact ⟨r, rfl, h⟩
    | ok result =>
      obtain ⟨id', ttl', leases⟩ := result
      refine ⟨_, rfl, h.of_subset fun i => ?_⟩
      rw [show leases.keySet i = _ from LeaseManager.keySet_grant hgrant i]
      split
      · exact Finset.empty_subset _
      · exact Finset.Subset.refl _

end Attached

/-- As long as a put finds its key in the key set of no other lease, and keys and values can be
looked up, commands leave every attached key with a live version that carries the lease. A lease
that is revoked or expires then hands out only keys that are bound to it. -/
theorem attachedBound_of_keepsBound (cmds : List (KvCommand × Moment))
    (hfree : PrefixFree (cmds.map Prod.fst))
    (h : AlongOk (fun (r : Replica σ) (x : KvCommand × Moment) => r.applyCommand x.2 x.1)
      (fun r x => r.KeepsBound x.1) (new σ) cmds) :
    ∃ r, (new σ).applyAll cmds = .ok r ∧ r.AttachedBound ∧
      (∀ id order keys leases, r.leases.revoke id order = .ok (keys, leases) → ∀ key ∈ keys,
        ∃ kv, r.store.get key = .ok (some kv) ∧ kv.leaseId = id) ∧
      ∀ now ids order, ∀ x ∈ (r.leases.collectExpired now ids order).1, ∀ key ∈ x.2,
        ∃ kv, r.store.get key = .ok (some kv) ∧ kv.leaseId = x.1 := by
  obtain ⟨r, hrun, hattached⟩ := h.exists_foldlM
    (Attached fun key => key ∈ (cmds.map Prod.fst).filterMap KvCommand.key?)
    (fun r x hx hr hkeeps => hr.applyCommand
      (fun k k' hk hk' => hfree k hk k' hk')
      (fun key hkey => List.mem_filterMap.mpr ⟨x.1, List.mem_map_of_mem hx, hkey⟩) hkeeps x.2)
    .new
  have hbound := hattached.attachedBound
  refine ⟨r, hrun, hbound, ?_, ?_⟩
  · intro id order keys leases hrevoke key hkey
    obtain ⟨hkeys, -⟩ := LeaseManager.revoke_eq hrevoke
    rw [show keys = _ from hkeys, order.mem_toList] at hkey
    exact hbound id key hkey
  · intro now ids order x hx key hkey
    obtain ⟨expiredIds, hlist, -⟩ := r.leases.collectExpired_eq now ids order
    rw [hlist] at hx
    obtain ⟨id, -, rfl⟩ := List.mem_map.mp hx
    exact hbound id key (order.mem_toList.mp hkey)

end Replica

/-! ### Runs -/

namespace AttachmentRuns

def moment : Moment where
  now := 0
  order := .ascending Bytes

/-- A key is put with one lease and then with another. -/
def rebind : List (KvCommand × Moment) :=
  [.leaseGrant 1 10, .leaseGrant 2 10, .put [97] [49] 1 0, .put [97] [50] 2 0].map (·, moment)

/-- The key is deleted in between. -/
def releaseFirst : List (KvCommand × Moment) :=
  [.leaseGrant 1 10, .leaseGrant 2 10, .put [97] [49] 1 0, .delete [97], .put [97] [50] 2 0,
    .put [98] [51] 2 0, .leaseRevoke 1].map (·, moment)

def replica (cmds : List (KvCommand × Moment)) :
    Except Abort (Replica (Std.TreeMap Bytes Bytes)) :=
  (Replica.new _).applyAll cmds

end AttachmentRuns

open AttachmentRuns in
theorem Replica.attachedBound_releaseFirst :
    ∃ r, replica releaseFirst = .ok r ∧ r.AttachedBound := by
  have hkeeps : AlongOk (fun (r : Replica (Std.TreeMap Bytes Bytes)) (x : KvCommand × Moment) =>
      r.applyCommand x.2 x.1) (fun r x => r.KeepsBound x.1) (Replica.new _) releaseFirst := by
    decide +kernel
  obtain ⟨r, hrun, hbound, -⟩ :=
    Replica.attachedBound_of_keepsBound releaseFirst (by decide +kernel) hkeeps
  exact ⟨r, hrun, hbound⟩

open AttachmentRuns in
/-- A key that is put with a second lease stays in the key set of the first. When the first lease is
revoked, the key is deleted although it is bound to the second. -/
theorem Replica.rebind_not_attachedBound :
    PrefixFree (rebind.map Prod.fst) ∧
      (∀ r, replica rebind = .ok r → [97] ∈ r.leases.keySet 1 ∧
        (∃ kv, r.store.get [97] = .ok (some kv) ∧ kv.leaseId = 2) ∧ ¬ r.AttachedBound) ∧
      (replica (rebind ++ [(.leaseRevoke 1, moment)])).bind (fun r => r.store.get [97]) =
        .ok none := by
  refine ⟨by decide +kernel, fun r hr => ?_, by decide +kernel⟩
  have hset : (replica rebind).map (fun r => decide ([97] ∈ r.leases.keySet 1)) = .ok true := by
    decide +kernel
  have hget : (replica rebind).bind (fun r => r.store.get [97]) =
      .ok (some ⟨[97], [50], 1, 2, 2⟩) := by
    decide +kernel
  rw [hr] at hset hget
  have hmem : [97] ∈ r.leases.keySet 1 := of_decide_eq_true (Except.ok.inj hset)
  refine ⟨hmem, ⟨_, hget, rfl⟩, fun hbound => ?_⟩
  obtain ⟨kv, hkv, hid⟩ := hbound 1 [97] hmem
  cases hget.symm.trans hkv
  exact absurd hid (by decide)

end Raftrust.Server

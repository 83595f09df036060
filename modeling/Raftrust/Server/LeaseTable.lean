import Raftrust.Lib.Table
import Raftrust.Server.Apply

/-!
# The keys of leases

What each operation on the table of leases does to the keys that are attached to a lease.
-/

namespace Raftrust.Server

open Lib Mvcc

namespace LeaseManager

/-- The keys attached to a lease, none for a lease that does not exist. -/
def keySet (mgr : LeaseManager) (id : Int64) : Finset Bytes :=
  ((mgr.leases.lookup id).map (·.keys)).getD ∅

/-- The number of keys attached to leases. -/
def keyCount (mgr : LeaseManager) : ℕ :=
  total (fun lease : Lease => lease.keys.card) mgr.leases

variable {mgr mgr' : LeaseManager} {id : Int64} {key : Bytes}

@[simp] lemma keySet_new (id : Int64) : new.keySet id = ∅ := rfl

lemma card_keySet (mgr : LeaseManager) (id : Int64) :
    (mgr.keySet id).card = ((mgr.leases.lookup id).map fun lease => lease.keys.card).getD 0 := by
  rw [keySet]
  cases mgr.leases.lookup id <;> rfl

/-! ### One operation -/

/-- A lease that has been replaced by one with other keys. -/
lemma keySet_replace (mgr : LeaseManager) {lease : Lease}
    (hlease : mgr.leases.lookup id = some lease)
    (lease' : Lease) (id' : Int64) :
    keySet { mgr with leases := mgr.leases.replace id lease' } id' =
      if id' = id then lease'.keys else mgr.keySet id' := by
  rw [keySet, lookup_replace, hlease]
  split <;> rfl

lemma keyCount_replace (mgr : LeaseManager) {lease : Lease}
    (hlease : mgr.leases.lookup id = some lease) (lease' : Lease) :
    keyCount { mgr with leases := mgr.leases.replace id lease' } + lease.keys.card =
      mgr.keyCount + lease'.keys.card :=
  total_replace _ hlease lease'

lemma keySet_of_lookup {lease : Lease} (h : mgr.leases.lookup id = some lease) :
    mgr.keySet id = lease.keys := by
  rw [keySet, h]
  rfl

lemma mem_keys_of_mem_keySet (h : key ∈ mgr.keySet id) : id ∈ mgr.leases.keys := by
  rw [keySet] at h
  cases hlease : mgr.leases.lookup id with
  | none => simp [hlease] at h
  | some lease => exact AList.lookup_isSome.mp (by simp [hlease])

lemma keySet_erase (mgr : LeaseManager) (id id' : Int64) :
    keySet { mgr with leases := mgr.leases.erase id } id' =
      if id' = id then ∅ else mgr.keySet id' := by
  rw [keySet]
  by_cases h : id' = id
  · subst h
    rw [AList.lookup_erase, if_pos rfl]
    rfl
  · rw [AList.lookup_erase_ne h, if_neg h]
    rfl

lemma keyCount_erase (mgr : LeaseManager) (id : Int64) :
    keyCount { mgr with leases := mgr.leases.erase id } + (mgr.keySet id).card = mgr.keyCount := by
  rw [card_keySet]
  exact total_erase _ mgr.leases id

/-- A new lease has no keys; what had its identifier before is gone. -/
lemma keySet_insert_new (leases : AList fun _ : Int64 => Lease) (nextId id ttl : Int64) (now : ℕ)
    (id' : Int64) : keySet ⟨leases.insert id (.new id ttl now), nextId⟩ id' =
      if id' = id then ∅ else ((leases.lookup id').map (·.keys)).getD ∅ := by
  rw [keySet]
  by_cases h : id' = id
  · subst h
    rw [AList.lookup_insert, if_pos rfl]
    rfl
  · rw [AList.lookup_insert_ne h, if_neg h]

/-- The identifier that a grant uses. -/
def grantedId (mgr : LeaseManager) (id : Int64) : Int64 :=
  if id = 0 then mgr.nextId else id

/-- A grant that succeeds. An identifier that is asked for is not taken. -/
lemma grant_eq {ttl : Int64} {now : ℕ} {result : Int64 × Int64 × LeaseManager}
    (h : mgr.grant id ttl now = .ok result) :
    (∃ nextId, result.2.2 = ⟨mgr.leases.insert (mgr.grantedId id)
        (.new (mgr.grantedId id) ttl now), nextId⟩) ∧
      (id ≠ 0 → mgr.leases.lookup id = none) := by
  rw [grant] at h
  split at h
  · cases h
  · rw [grantedId]
    split at h
    · next h0 =>
      obtain rfl := Except.ok.inj h
      rw [if_pos h0]
      exact ⟨⟨_, rfl⟩, fun hne => absurd h0 hne⟩
    · next h0 =>
      split at h
      · cases h
      · next hnone =>
        obtain rfl := Except.ok.inj h
        rw [if_neg h0]
        exact ⟨⟨_, rfl⟩, fun _ => Option.not_isSome_iff_eq_none.mp hnone⟩

lemma keySet_grant {ttl : Int64} {now : ℕ} {result : Int64 × Int64 × LeaseManager}
    (h : mgr.grant id ttl now = .ok result) (id' : Int64) :
    result.2.2.keySet id' = if id' = mgr.grantedId id then ∅ else mgr.keySet id' := by
  obtain ⟨⟨nextId, heq⟩, -⟩ := grant_eq h
  rw [heq]
  exact keySet_insert_new _ _ _ _ _ _

/-- A grant takes no keys from a lease, unless it draws the identifier of one. -/
lemma keySet_subset_grant {ttl : Int64} {now : ℕ} {result : Int64 × Int64 × LeaseManager}
    (h : mgr.grant id ttl now = .ok result) (hempty : id = 0 → mgr.keySet mgr.nextId = ∅)
    (id' : Int64) : mgr.keySet id' ⊆ result.2.2.keySet id' := by
  rw [keySet_grant h]
  split
  · next heq =>
    rw [heq, grantedId]
    split
    · next h0 => rw [hempty h0]
    · next h0 =>
      rw [keySet, (grant_eq h).2 h0]
      exact Finset.Subset.refl _
  · exact Finset.Subset.refl _

lemma keyCount_grant {ttl : Int64} {now : ℕ} {result : Int64 × Int64 × LeaseManager}
    (h : mgr.grant id ttl now = .ok result) : result.2.2.keyCount ≤ mgr.keyCount := by
  obtain ⟨⟨nextId, heq⟩, -⟩ := grant_eq h
  have herase := total_erase (fun lease : Lease => lease.keys.card) mgr.leases (mgr.grantedId id)
  have hnew : (Lease.new (mgr.grantedId id) ttl now).keys.card = 0 := rfl
  rw [heq, keyCount, keyCount, total_insert, hnew]
  omega

lemma keySet_keepalive {now : ℕ} {result : Int64 × LeaseManager}
    (h : mgr.keepalive id now = .ok result) (id' : Int64) :
    result.2.keySet id' = mgr.keySet id' := by
  rw [keepalive] at h
  split at h
  · cases h
  · next lease hlease =>
    split at h
    · cases h
    · obtain rfl := Except.ok.inj h
      rw [keySet_replace mgr hlease]
      split
      · next heq =>
        subst heq
        exact (keySet_of_lookup hlease).symm
      · rfl

/-- A revoked lease hands out its keys and is gone. -/
lemma revoke_eq {order : IterationOrder Bytes} {result : List Bytes × LeaseManager}
    (h : mgr.revoke id order = .ok result) :
    result.1 = order.toList (mgr.keySet id) ∧
      (∀ id', result.2.keySet id' = if id' = id then ∅ else mgr.keySet id') ∧
      result.2.keyCount + result.1.length = mgr.keyCount := by
  rw [revoke] at h
  split at h
  · cases h
  · next lease hlease =>
    obtain rfl := Except.ok.inj h
    have hkeys : mgr.keySet id = lease.keys := keySet_of_lookup hlease
    have hlen : (order.toList lease.keys).length = (mgr.keySet id).card := by
      rw [hkeys]
      exact order.length_toList lease.keys
    refine ⟨by rw [hkeys], keySet_erase mgr id, ?_⟩
    rw [hlen]
    exact keyCount_erase mgr id

/-- A key that is taken from a lease by a revocation is handed out. -/
lemma mem_of_revoke {order : IterationOrder Bytes} {result : List Bytes × LeaseManager}
    (h : mgr.revoke id order = .ok result) {id' : Int64} {key : Bytes}
    (hmem : key ∈ mgr.keySet id') (hnot : key ∉ result.2.keySet id') : key ∈ result.1 := by
  obtain ⟨hkeys, hsets, -⟩ := revoke_eq h
  rw [hsets] at hnot
  split at hnot
  · next heq => rwa [hkeys, order.mem_toList, ← heq]
  · exact absurd hmem hnot

/-- The loop over the leases that have expired. -/
lemma foldl_collect (order : IterationOrder Bytes) {ids : List Int64} (hnodup : ids.Nodup)
    (hids : ∀ id ∈ ids, id ∈ mgr.leases.keys) (expired : List (Int64 × List Bytes)) :
    let result := ids.foldl
      (fun (expired, mgr) id =>
        match mgr.leases.lookup id with
        | some lease =>
          (expired ++ [(id, order.toList lease.keys)], { mgr with leases := mgr.leases.erase id })
        | none => (expired, mgr))
      (expired, mgr)
    result.1 = expired ++ ids.map (fun id => (id, order.toList (mgr.keySet id))) ∧
      ∀ id, result.2.keySet id = if id ∈ ids then ∅ else mgr.keySet id := by
  induction ids generalizing mgr expired with
  | nil => simp
  | cons i ids ih =>
    obtain ⟨hi, hrest⟩ := List.nodup_cons.mp hnodup
    obtain ⟨lease, hlease⟩ := Option.isSome_iff_exists.mp
      (AList.lookup_isSome.mpr (hids i List.mem_cons_self))
    have hmem : ∀ id ∈ ids, id ∈ (mgr.leases.erase i).keys := by
      intro id hid
      have hne : id ≠ i := by
        rintro rfl
        exact hi hid
      exact AList.mem_erase.mpr ⟨hne, hids id (List.mem_cons_of_mem i hid)⟩
    have hkeys := keySet_erase mgr i
    obtain ⟨hlist, hsets⟩ := @ih { mgr with leases := mgr.leases.erase i } hrest hmem
      (expired ++ [(i, order.toList lease.keys)])
    simp only [List.foldl_cons, hlease]
    refine ⟨?_, fun id => ?_⟩
    · rw [hlist, List.map_cons, keySet_of_lookup hlease, List.append_assoc, List.singleton_append]
      congr 2
      refine List.map_congr_left fun id hid => ?_
      rw [hkeys id, if_neg (by rintro rfl; exact hi hid)]
    · rw [hsets id, hkeys id]
      by_cases hid : id ∈ ids
      · simp [hid]
      · by_cases heq : id = i <;> simp [hid, heq]

/-- The leases that have expired hand out their keys and are gone. -/
lemma collectExpired_eq (mgr : LeaseManager) (now : ℕ) (ids : IterationOrder Int64)
    (order : IterationOrder Bytes) : ∃ expiredIds : List Int64,
      (mgr.collectExpired now ids order).1 =
        expiredIds.map (fun id => (id, order.toList (mgr.keySet id))) ∧
      ∀ id, (mgr.collectExpired now ids order).2.keySet id =
        if id ∈ expiredIds then ∅ else mgr.keySet id := by
  refine ⟨_, foldl_collect order (ids.nodup _) (fun id hid => ?_) []⟩
  rw [ids.mem_toList, List.mem_toFinset, List.mem_filter] at hid
  exact hid.1

/-- A key that is taken from a lease by a sweep is handed out. -/
lemma mem_of_collectExpired {now : ℕ} {ids : IterationOrder Int64} {order : IterationOrder Bytes}
    {key : Bytes} (hmem : key ∈ mgr.keySet id)
    (hnot : key ∉ (mgr.collectExpired now ids order).2.keySet id) :
    key ∈ (mgr.collectExpired now ids order).1.flatMap (·.2) := by
  obtain ⟨expiredIds, hlist, hsets⟩ := mgr.collectExpired_eq now ids order
  rw [hsets] at hnot
  split at hnot
  · next hid =>
    rw [hlist, List.mem_flatMap]
    exact ⟨_, List.mem_map_of_mem hid, order.mem_toList.mpr hmem⟩
  · exact absurd hmem hnot

end LeaseManager

/-! ### Commands -/

namespace Replica

variable (leases : LeaseManager) (leaseId : Int64) (key : Bytes)

lemma keySet_attach (id : Int64) : (attach leases leaseId key).keySet id =
    if id = leaseId ∧ 0 < leaseId ∧ (leases.leases.lookup leaseId).isSome then
      insert key (leases.keySet id)
    else leases.keySet id := by
  rw [attach, LeaseManager.attachKey]
  by_cases hpos : 0 < leaseId
  · rw [if_pos hpos]
    cases hlease : leases.leases.lookup leaseId with
    | none => simp
    | some lease =>
      simp only [LeaseManager.keySet_replace leases hlease, hpos, Option.isSome_some, and_self,
        and_true]
      split
      · next heq => rw [heq, LeaseManager.keySet_of_lookup hlease, Lease.attachKey]
      · rfl
  · simp [hpos]

lemma keySet_subset_attach (id : Int64) :
    leases.keySet id ⊆ (attach leases leaseId key).keySet id := by
  rw [keySet_attach]
  split
  · exact Finset.subset_insert _ _
  · exact Finset.Subset.refl _

lemma keyCount_attach_le : (attach leases leaseId key).keyCount ≤ leases.keyCount + 1 := by
  rw [attach, LeaseManager.attachKey]
  split
  · cases hlease : leases.leases.lookup leaseId with
    | none => exact Nat.le_succ _
    | some lease =>
      have hcount := LeaseManager.keyCount_replace leases hlease (lease.attachKey key)
      have hcard : (lease.attachKey key).keys.card ≤ lease.keys.card + 1 :=
        Finset.card_insert_le _ _
      dsimp only
      omega
  · exact Nat.le_succ _

lemma keySet_detach (prev : Option KeyValue) (id : Int64) : (detach leases prev key).keySet id =
    if ∃ kv ∈ prev, 0 < kv.leaseId ∧ id = kv.leaseId then (leases.keySet id).erase key
    else leases.keySet id := by
  cases prev with
  | none => simp [detach]
  | some kv =>
    simp only [detach, Option.mem_some_iff, exists_eq_left']
    by_cases hpos : 0 < kv.leaseId
    · rw [if_pos hpos, LeaseManager.detachKey]
      cases hlease : leases.leases.lookup kv.leaseId with
      | none =>
        simp only [hpos, true_and]
        split
        · next heq =>
          have hempty : leases.keySet id = ∅ := by rw [heq, LeaseManager.keySet, hlease]; rfl
          rw [hempty, Finset.erase_empty]
        · rfl
      | some lease =>
        simp only [LeaseManager.keySet_replace leases hlease, hpos, true_and]
        split
        · next heq => rw [heq, LeaseManager.keySet_of_lookup hlease, Lease.detachKey]
        · rfl
    · simp [hpos]

lemma eq_of_detach {prev : Option KeyValue} {id : Int64} {k : Bytes}
    (hmem : k ∈ leases.keySet id) (hnot : k ∉ (detach leases prev key).keySet id) : k = key := by
  by_contra hne
  rw [keySet_detach] at hnot
  split at hnot
  · exact hnot (Finset.mem_erase.mpr ⟨hne, hmem⟩)
  · exact hnot hmem

lemma keyCount_detach_le (prev : Option KeyValue) :
    (detach leases prev key).keyCount ≤ leases.keyCount := by
  cases prev with
  | none => exact le_rfl
  | some kv =>
    dsimp only [detach]
    split
    · rw [LeaseManager.detachKey]
      cases hlease : leases.leases.lookup kv.leaseId with
      | none => exact le_rfl
      | some lease =>
        have hcount := LeaseManager.keyCount_replace leases hlease (lease.detachKey key)
        have hcard : (lease.detachKey key).keys.card ≤ lease.keys.card :=
          Finset.card_le_card (Finset.erase_subset _ _)
        dsimp only
        omega
    · exact le_rfl

end Replica

end Raftrust.Server

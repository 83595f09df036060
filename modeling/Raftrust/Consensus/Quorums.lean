import Raftrust.Consensus.Membership
import Raftrust.Lib.Quorum
import Raftrust.Lib.Run

/-!
# Quorums across configuration changes

A change of configuration goes through a joint phase in which a quorum needs a majority of the old
and of the new configuration. So a quorum before a step and one after it are always majorities of
one configuration in common.
-/

namespace Raftrust.Consensus

open Lib

/-! ### Configurations -/

/-- At least one member, and no id twice. -/
structure ClusterConfig.WellFormed (c : ClusterConfig) : Prop where
  nonempty : c.members ≠ []
  nodup : (c.members.map (·.id)).Nodup

lemma ClusterConfig.mem_memberIds {c : ClusterConfig} {id : NodeId} :
    id ∈ c.memberIds ↔ ∃ m ∈ c.members, m.id = id := by
  simp [memberIds]

lemma ClusterConfig.contains_iff {c : ClusterConfig} {id : NodeId} :
    c.contains id = true ↔ id ∈ c.memberIds := by
  simp [contains, mem_memberIds]

namespace MembershipState

/-- Counting the listed members is counting ids, if no id is listed twice. -/
lemma majorityOf_iff {c : ClusterConfig} (h : (c.members.map (·.id)).Nodup)
    {voters : Finset NodeId} :
    majorityOf c voters = true ↔ IsMajority c.memberIds (c.memberIds.filter (· ∈ voters)) := by
  have hcard : c.memberIds.card = c.len := by
    rw [ClusterConfig.memberIds, List.toFinset_card_of_nodup h, List.length_map, ClusterConfig.len]
  have hfilter : (c.memberIds.filter (· ∈ voters)).card =
      (c.members.filter fun m => m.id ∈ voters).length := by
    have heq : c.memberIds.filter (· ∈ voters) =
        ((c.members.map (·.id)).filter (· ∈ voters)).toFinset := by
      ext id
      simp [ClusterConfig.memberIds]
    rw [heq, List.toFinset_card_of_nodup (h.filter _), List.filter_map, List.length_map]
    rfl
  rw [majorityOf, decide_eq_true_eq, ← hcard, ← hfilter]
  exact ⟨fun hmaj => ⟨Finset.filter_subset _ _, hmaj⟩, IsMajority.card_le⟩

/-- Two sets of voters with a majority of one configuration share a node. -/
lemma exists_mem_of_majorityOf {c : ClusterConfig} (h : (c.members.map (·.id)).Nodup)
    {voters voters' : Finset NodeId} (hmaj : majorityOf c voters = true)
    (hmaj' : majorityOf c voters' = true) : ∃ id, id ∈ voters ∧ id ∈ voters' := by
  obtain ⟨id, hid, hid'⟩ :=
    ((majorityOf_iff h).mp hmaj).exists_mem_mem ((majorityOf_iff h).mp hmaj')
  exact ⟨id, (Finset.mem_filter.mp hid).2, (Finset.mem_filter.mp hid').2⟩

lemma hasQuorum_iff {s : MembershipState} {voters : Finset NodeId} :
    s.hasQuorum voters = true ↔
      majorityOf s.current voters = true ∧ ∀ c ∈ s.pending, majorityOf c voters = true := by
  cases hpending : s.pending with
  | none => simp [hasQuorum, hpending]
  | some c => simp [hasQuorum, hpending]

/-! ### Steps -/

inductive Op where
  | beginChange (change : ConfigChange)
  | finalizeJoint
  | abortChange
  deriving DecidableEq, Repr

/-- One operation. A change that is refused leaves the state as it is. -/
def step (s : MembershipState) : Op → MembershipState
  | .beginChange change =>
    match s.beginChange change with
    | .ok (s', _) => s'
    | .error _ => s
  | .finalizeJoint => s.finalizeJoint.1
  | .abortChange => s.abortChange

/-- A change that is accepted makes a configuration with one member more or one less pending. -/
lemma beginChange_cases {s s' : MembershipState} {change : ConfigChange} {data : JointConfigData}
    (h : s.beginChange change = .ok (s', data)) :
    s.changeInProgress = false ∧
      ∃ newConfig, s' = { s with pending := some newConfig, changeInProgress := true } ∧
        data = { old := s.current, new := newConfig } ∧
        ((∃ id address, change = .addNode id address ∧ s.current.contains id = false ∧
            newConfig.members = s.current.members ++ [⟨id, address⟩]) ∨
          ∃ id, change = .removeNode id ∧ s.current.contains id = true ∧
            newConfig.members = s.current.members.filter (fun m => m.id ≠ id) ∧
            newConfig.members ≠ []) := by
  unfold beginChange at h
  split at h
  · cases h
  · next hprogress =>
    refine ⟨by simpa using hprogress, ?_⟩
    cases change with
    | addNode id address =>
      dsimp only at h
      split at h
      · cases h
      · next hnew =>
        obtain ⟨rfl, rfl⟩ := Prod.mk.inj (Except.ok.inj h)
        exact ⟨_, rfl, rfl, .inl ⟨id, address, rfl, by simpa using hnew, rfl⟩⟩
    | removeNode id =>
      dsimp only at h
      split at h
      · cases h
      · next hold =>
        split at h
        · cases h
        · next hrest =>
          obtain ⟨rfl, rfl⟩ := Prod.mk.inj (Except.ok.inj h)
          exact ⟨_, rfl, rfl, .inr ⟨id, rfl, by simpa using hold, rfl, by simpa using hrest⟩⟩

/-- Both configurations are well-formed. -/
structure WellFormed (s : MembershipState) : Prop where
  current : s.current.WellFormed
  pending : ∀ c ∈ s.pending, c.WellFormed

lemma WellFormed.new {selfId : NodeId} {peers : List NodeId} (h : (selfId :: peers).Nodup) :
    (MembershipState.new selfId peers).WellFormed where
  current := ⟨by simp [MembershipState.new], by
    simpa [MembershipState.new, Function.comp_def] using h⟩
  pending := by simp [MembershipState.new]

lemma WellFormed.beginChange {s s' : MembershipState} {change : ConfigChange}
    {data : JointConfigData} (h : s.WellFormed) (hok : s.beginChange change = .ok (s', data)) :
    s'.WellFormed := by
  obtain ⟨-, newConfig, rfl, -, hnew⟩ := beginChange_cases hok
  refine ⟨h.current, ?_⟩
  rintro c ⟨⟩
  rcases hnew with ⟨id, address, -, hnot, hmembers⟩ | ⟨id, -, -, hmembers, hne⟩
  · refine ⟨by simp [hmembers], ?_⟩
    rw [hmembers, List.map_append, List.nodup_append]
    refine ⟨h.current.nodup, by simp, ?_⟩
    -- the new id is not among those of the current configuration
    rintro x hx y hy rfl
    obtain rfl : x = id := by simpa using hy
    have hmem : x ∈ s.current.memberIds := by simpa [ClusterConfig.memberIds] using hx
    rw [← ClusterConfig.contains_iff, hnot] at hmem
    cases hmem
  · refine ⟨hne, ?_⟩
    rw [hmembers]
    exact h.current.nodup.sublist (List.filter_sublist.map _)

lemma WellFormed.step {s : MembershipState} (h : s.WellFormed) (op : Op) :
    (s.step op).WellFormed := by
  cases op with
  | beginChange change =>
    cases hbegin : s.beginChange change with
    | error e => simpa only [MembershipState.step, hbegin] using h
    | ok r => simpa only [MembershipState.step, hbegin] using h.beginChange hbegin
  | finalizeJoint =>
    cases hpending : s.pending with
    | none => simpa only [MembershipState.step, finalizeJoint, hpending] using h
    | some c =>
      simp only [MembershipState.step, finalizeJoint, hpending]
      exact ⟨h.pending c hpending, by simp⟩
  | abortChange => exact ⟨h.current, by simp [MembershipState.step, abortChange]⟩

lemma WellFormed.run {s : MembershipState} (h : s.WellFormed) (ops : List Op) :
    (run MembershipState.step s ops).WellFormed := by
  induction ops generalizing s with
  | nil => exact h
  | cons op ops ih => exact ih (h.step op)

/-- Before and after a step there is one configuration that every quorum has a majority of. -/
lemma exists_common_config (s : MembershipState) (op : Op) :
    ∃ c, (c = s.current ∨ c ∈ s.pending) ∧
      (∀ voters, s.hasQuorum voters = true → majorityOf c voters = true) ∧
      ∀ voters, (s.step op).hasQuorum voters = true → majorityOf c voters = true := by
  have hcurrent : ∀ voters, s.hasQuorum voters = true → majorityOf s.current voters = true :=
    fun voters h => (hasQuorum_iff.mp h).1
  have hsame : (s.step op).current = s.current → ∀ voters,
      (s.step op).hasQuorum voters = true → majorityOf s.current voters = true := by
    intro heq voters h
    rw [← heq]
    exact (hasQuorum_iff.mp h).1
  cases op with
  | beginChange change =>
    refine ⟨s.current, .inl rfl, hcurrent, hsame ?_⟩
    cases hbegin : s.beginChange change with
    | error e => simp [MembershipState.step, hbegin]
    | ok r =>
      obtain ⟨-, newConfig, heq, -⟩ := beginChange_cases hbegin
      simp [MembershipState.step, hbegin, heq]
  | finalizeJoint =>
    cases hpending : s.pending with
    | none =>
      exact ⟨s.current, .inl rfl, hcurrent,
        hsame (by simp [MembershipState.step, finalizeJoint, hpending])⟩
    | some c =>
      -- the joint phase already asked for a majority of what becomes current
      refine ⟨c, .inr rfl, fun voters h => (hasQuorum_iff.mp h).2 c hpending, ?_⟩
      intro voters h
      simp only [MembershipState.step, finalizeJoint, hpending] at h
      exact (hasQuorum_iff.mp h).1
  | abortChange => exact ⟨s.current, .inl rfl, hcurrent, hsame rfl⟩

lemma WellFormed.exists_mem_mem {s : MembershipState} (h : s.WellFormed) (op : Op)
    {voters voters' : Finset NodeId} (hq : s.hasQuorum voters = true)
    (hq' : (s.step op).hasQuorum voters' = true) : ∃ id, id ∈ voters ∧ id ∈ voters' := by
  obtain ⟨c, hc, hold, hnew⟩ := s.exists_common_config op
  refine exists_mem_of_majorityOf ?_ (hold voters hq) (hnew voters' hq')
  rcases hc with rfl | hc
  · exact h.current.nodup
  · exact (h.pending c hc).nodup

/-- **Quorums overlap.** In every state that changes of configuration lead to, the current and the
pending configuration have members and list none of them twice, and a quorum of that state shares a
node with every quorum of the same state and with every quorum of a state one step later. -/
theorem quorums_overlap (selfId : NodeId) (peers : List NodeId) (h : (selfId :: peers).Nodup)
    (ops : List Op) :
    let s := Lib.run step (new selfId peers) ops
    s.current.WellFormed ∧ (∀ c ∈ s.pending, c.WellFormed) ∧
      ∀ s', (s' = s ∨ ∃ op, s' = s.step op) → ∀ voters voters' : Finset NodeId,
        s.hasQuorum voters = true → s'.hasQuorum voters' = true →
          ∃ id, id ∈ voters ∧ id ∈ voters' := by
  intro s
  have hwf : s.WellFormed := (WellFormed.new h).run ops
  refine ⟨hwf.current, hwf.pending, ?_⟩
  rintro s' (rfl | ⟨op, rfl⟩) voters voters' hq hq'
  · exact exists_mem_of_majorityOf hwf.current.nodup (hasQuorum_iff.mp hq).1
      (hasQuorum_iff.mp hq').1
  · exact hwf.exists_mem_mem op hq hq'

/-- Node 4 joins a cluster of three: the pair 1, 2 is a quorum before, nodes 2, 3 and 4 are one
while the change is pending. -/
theorem quorums_overlap_addNode :
    ([1, 2, 3] : List NodeId).Nodup ∧
      (Lib.run step (new 1 [2, 3]) []).hasQuorum {1, 2} = true ∧
      ((Lib.run step (new 1 [2, 3]) []).step (.beginChange (.addNode 4 "d"))).hasQuorum {2, 3, 4} =
        true ∧
      ∃ id : NodeId, id ∈ ({1, 2} : Finset NodeId) ∧ id ∈ ({2, 3, 4} : Finset NodeId) := by
  refine ⟨by decide, by decide, by decide, ?_⟩
  exact (quorums_overlap 1 [2, 3] (by decide) []).2.2 _
    (.inr ⟨.beginChange (.addNode 4 "d"), rfl⟩) {1, 2} {2, 3, 4} (by decide) (by decide)

end MembershipState

end Raftrust.Consensus

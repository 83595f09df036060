import Raftrust.Consensus.LogEffect
import Raftrust.Consensus.Peers

/-!
# What a call does to the commit index and to the leader's bookkeeping

A follower takes its commit index from an accepted request; a leader moves it to a match index that
has a quorum and an entry of its own term. Match indices come from the leader's own log and from
acknowledgements.
-/

namespace Raftrust.Consensus

open Lib Storage

/-! ### Match indices -/

section

variable {leader : LeaderState} {p : NodeId} {i : LogIndex}

lemma LeaderState.new_matchIndex {peers : List NodeId} {lastLogIndex : LogIndex}
    (h : (LeaderState.new peers lastLogIndex).matchIndex.lookup p = some i) : i = 0 := by
  have hzero : ∀ m : IndexMap, (∀ q j, m.lookup q = some j → j = 0) →
      ∀ q j, (peers.foldl (fun m peer => m.insert peer 0) m).lookup q = some j → j = 0 := by
    clear h
    induction peers with
    | nil => exact fun m hm => hm
    | cons peer peers ih =>
      intro m hm
      apply ih
      intro q j hq
      rcases eq_or_ne q peer with rfl | hne
      · simpa [eq_comm] using hq
      · exact hm q j (by rwa [AList.lookup_insert_ne hne] at hq)
  exact hzero ∅ (by simp) p i h

lemma LeaderState.mem_voters :
    p ∈ leader.voters i ↔ ∃ j, leader.matchIndex.lookup p = some j ∧ i ≤ j := by
  simp only [voters, List.mem_toFinset, List.mem_map, List.mem_filter, decide_eq_true_eq]
  constructor
  · rintro ⟨⟨q, j⟩, ⟨hmem, hle⟩, rfl⟩
    exact ⟨j, AList.mem_lookup_iff.mpr hmem, hle⟩
  · rintro ⟨j, hj, hle⟩
    exact ⟨⟨p, j⟩, ⟨AList.mem_lookup_iff.mp hj, hle⟩, rfl⟩

end

namespace RaftNode

/-- Where the match index `i` of `p` comes from: it was there before, it is the leader's own log,
it is the start value, or an acknowledgement of `p` has just brought it. -/
inductive MatchSource (n : RaftNode) (call : Call) (n' : RaftNode) (p : NodeId) (i : LogIndex) :
    Prop where
  | kept (leader : LeaderState) (role : n.state.role = .leader)
      (hleader : n.leaderState = some leader) (lookup : leader.matchIndex.lookup p = some i)
  | own (hp : p = n.config.id) (hi : i = n'.log.lastIndex)
  | start (hi : i = 0)
  | acknowledged (response : AppendResponse) (hcall : call = .appendResponse p response)
      (role : n.state.role = .leader) (success : response.success = true)
      (hterm : response.term ≤ n.term) (hi : i = response.matchIndex)

/-- The match indices of `n'`, if it leads, come from somewhere. -/
def MatchesFrom (n : RaftNode) (call : Call) (n' : RaftNode) : Prop :=
  n'.state.role = .leader → ∀ leader, n'.leaderState = some leader →
    ∀ p i, leader.matchIndex.lookup p = some i → n.MatchSource call n' p i

variable {n n' m : RaftNode} {call : Call}

lemma MatchesFrom.of_eq (hrole : n'.state.role = n.state.role)
    (hleader : n'.leaderState = n.leaderState) : n.MatchesFrom call n' := by
  intro hr leader hl p i hp
  exact .kept leader (hrole.symm.trans hr) (hleader.symm.trans hl) hp

lemma MatchesFrom.of_not_leader (h : n'.state.role ≠ .leader) : n.MatchesFrom call n' :=
  fun hr => absurd hr h

lemma MatchesFrom.of_observeTerm {t : Term} (hrole : n'.state.role = (n.observeTerm t).state.role)
    (hleader : n'.leaderState = (n.observeTerm t).leaderState) : n.MatchesFrom call n' := by
  by_cases hterm : n.term < t
  · rw [observeTerm_of_lt n hterm] at hrole
    exact .of_not_leader (by simp [hrole, stepDownInner, savePersistent])
  · rw [observeTerm_of_le n (not_lt.mp hterm)] at hrole hleader
    exact .of_eq hrole hleader

lemma MatchesFrom.recordOwnMatch (h : n.MatchesFrom call m) (hid : m.config = n.config) :
    n.MatchesFrom call m.recordOwnMatch := by
  intro hr leader' hl p i hp
  obtain ⟨leader, hleader, rfl⟩ := Option.map_eq_some_iff.mp hl
  rcases eq_or_ne p m.config.id with rfl | hne
  · rw [AList.lookup_insert] at hp
    exact .own (by rw [hid]) (Option.some.inj hp).symm
  · rw [AList.lookup_insert_ne hne] at hp
    cases h hr leader hleader p i hp with
    | kept l hrole hl' hlookup => exact .kept l hrole hl' hlookup
    | own hp' hi => exact absurd (hp'.trans (by rw [hid])) hne
    | start hi => exact .start hi
    | acknowledged response hcall hrole hs ht hi =>
      exact .acknowledged response hcall hrole hs ht hi

section

variable [Crc32] (n) (fault : Option WalFault)

lemma OwnAppend.matchesFrom {m n' : RaftNode} {fault : Option WalFault}
    (h : OwnAppend m fault n') (hrole : m.state.role = n.state.role)
    (hleader : m.leaderState = n.leaderState) (hconfig : m.config = n.config) (call : Call) :
    n.MatchesFrom call n' := by
  cases h with
  | kept heq =>
    rw [heq]
    exact .of_eq hrole hleader
  | appended data ty _ heq =>
    rw [heq]
    exact .of_eq hrole hleader
  | recorded data ty _ heq =>
    rw [heq]
    have happ : n.MatchesFrom call (m.appendEntry data ty fault).1 := .of_eq hrole hleader
    exact happ.recordOwnMatch hconfig

/-- A new leader starts with what it has itself. -/
lemma becomeLeaderInner_matchesFrom (hconfig : m.config = n.config) (call : Call) :
    n.MatchesFrom call (m.becomeLeaderInner fault) := by
  refine MatchesFrom.recordOwnMatch (fun _ leader hl p i hp => ?_) hconfig
  obtain rfl := Option.some.inj hl
  exact .start (LeaderState.new_matchIndex hp)

omit [Crc32] in
/-- A response of a peer changes no match index but the peer's. -/
lemma tryAdvanceCommit_matchesFrom {sender : NodeId} {response : AppendResponse}
    {leader leader' : LeaderState} (hterm : response.term ≤ n.term)
    (hrole : n.state.role = .leader) (hleader : n.leaderState = some leader)
    (hmatch : leader'.matchIndex = if response.success then
      leader.matchIndex.insert sender response.matchIndex else leader.matchIndex) :
    n.MatchesFrom (.appendResponse sender response)
      (tryAdvanceCommit { n with leaderState := some leader' }) := by
  intro _ leader'' hl p i hp
  obtain rfl := Option.some.inj hl
  rw [hmatch] at hp
  split at hp
  · next hsuccess =>
    rcases eq_or_ne p sender with rfl | hne
    · rw [AList.lookup_insert] at hp
      exact .acknowledged response rfl hrole hsuccess hterm (Option.some.inj hp).symm
    · rw [AList.lookup_insert_ne hne] at hp
      exact .kept leader hrole hleader hp
  · exact .kept leader hrole hleader hp

variable [ConfigJson]

theorem execute_matchesFrom (call : Call) : n.MatchesFrom call (n.execute fault call).1 := by
  cases n.execute_outcome fault call with
  | kept heq => exact .of_eq (by rw [heq]) (by rw [heq])
  | preVote heq => exact .of_not_leader (by simp [heq, startPreVote])
  | election heq => exact .of_not_leader (by simp [heq, startElection, savePersistent])
  | observed t _ heq => exact .of_observeTerm (by rw [heq]) (by rw [heq])
  | granted request _ heq => exact .of_observeTerm (by rw [heq]; rfl) (by rw [heq]; rfl)
  | counted _ _ _ _ _ _ heq => exact .of_eq (by rw [heq]) (by rw [heq])
  | elected sender election heq =>
    rw [heq]
    exact n.becomeLeaderInner_matchesFrom fault rfl call
  | followed request _ _ _ heq => exact .of_not_leader (by simp [heq, followLeader])
  | acknowledged _ _ _ _ hcall hterm role hleader hmatch heq =>
    rw [heq, hcall]
    exact n.tryAdvanceCommit_matchesFrom hterm role hleader hmatch
  | proposed happend => exact happend.matchesFrom n rfl rfl rfl call
  | reconfigured _ _ happend => exact happend.matchesFrom n rfl rfl rfl call
  | compacted _ _ _ heq => exact .of_eq (by rw [heq]) (by rw [heq])
  | installed _ _ _ _ _ _ _ _ _ heq => exact .of_not_leader (by simp [heq, followLeader])
  | quiet hquiet =>
    exact .of_eq (n.execute_quiet fault hquiet).role (n.execute_quiet fault hquiet).leaderState

end

/-! ### The commit index -/

/-- What a call can do to the commit index, snapshots apart. -/
inductive CommitEffect (n : RaftNode) (call : Call) (n' : RaftNode) : Prop where
  | kept (commit : n'.state.commitIndex = n.state.commitIndex)
  | followed (request : AppendRequest) (hcall : call = .appendEntries request)
      (haccepts : n.Accepts request)
      (commit : n'.state.commitIndex = min request.leaderCommit n'.log.lastIndex)
      (later : n.state.commitIndex < request.leaderCommit)
  | advanced (leader : LeaderState) (role : n'.state.role = .leader)
      (hleader : n'.leaderState = some leader)
      (quorum : n'.membership.hasQuorum (leader.voters n'.state.commitIndex) = true)
      (own : ∃ e, n'.log.get n'.state.commitIndex = some e ∧ e.term = n'.term)
      (later : n.state.commitIndex < n'.state.commitIndex)

lemma advanceCommit_cases (n : RaftNode) (leader : LeaderState) (candidates : List LogIndex) :
    n.advanceCommit leader candidates = n.state.commitIndex ∨
      (n.membership.hasQuorum (leader.voters (n.advanceCommit leader candidates)) = true ∧
        (∃ e, n.log.get (n.advanceCommit leader candidates) = some e ∧ e.term = n.term) ∧
        n.state.commitIndex < n.advanceCommit leader candidates) := by
  induction candidates with
  | nil => exact .inl rfl
  | cons candidate rest ih =>
    unfold advanceCommit
    split
    · exact .inl rfl
    · next hlater =>
      split
      · next h => exact .inr ⟨h.1, by simpa [Option.any_eq_true] using h.2, not_le.mp hlater⟩
      · exact ih

section

variable [Crc32] (n) (fault : Option WalFault)

omit [Crc32] in
lemma tryAdvanceCommit_commitEffect {leader : LeaderState} (hrole : n.state.role = .leader) :
    n.CommitEffect call (tryAdvanceCommit { n with leaderState := some leader }) := by
  rcases advanceCommit_cases { n with leaderState := some leader } leader
    ((leader.matchIndex.entries.map (·.2)).insertionSort (· ≥ ·)) with hkept | ⟨hq, hown, hlater⟩
  · exact .kept hkept
  · exact .advanced leader hrole rfl hq hown hlater

lemma OwnAppend.commitIndex {m n' : RaftNode} {fault : Option WalFault}
    (h : OwnAppend m fault n') : n'.state.commitIndex = m.state.commitIndex := by
  obtain ⟨log, leaderState, rfl⟩ := h.exists_eq
  rfl

variable [ConfigJson]

theorem execute_commitEffect {call : Call} (hsnap : call.isSnapshot = false) :
    n.CommitEffect call (n.execute fault call).1 := by
  cases n.execute_outcome fault call with
  | kept heq => exact .kept (by rw [heq])
  | preVote heq => exact .kept (by rw [heq]; rfl)
  | election heq => exact .kept (by rw [heq]; rfl)
  | observed t _ heq => exact .kept (by rw [heq, observeTerm_commitIndex])
  | granted request _ heq =>
    exact .kept (by rw [heq]; exact n.observeTerm_commitIndex request.term)
  | counted _ _ _ _ _ _ heq => exact .kept (by rw [heq])
  | elected _ _ heq => exact .kept (by rw [heq]; rfl)
  | followed request hcall =>
    subst hcall
    by_cases h : n.Accepts request
    · obtain ⟨-, -, -, hcommit, -⟩ := n.handleAppendEntries_of_accepts fault h
      split at hcommit
      · next hlater => exact .followed request rfl h hcommit hlater
      · exact .kept hcommit
    · exact .kept (n.handleAppendEntries_of_not_accepts fault h).2.2
  | acknowledged _ _ _ _ _ _ role _ _ heq =>
    rw [heq]
    exact n.tryAdvanceCommit_commitEffect role
  | proposed happend => exact .kept happend.commitIndex
  | reconfigured _ _ happend => exact .kept happend.commitIndex
  | compacted _ _ hcall => simp [hsnap] at hcall
  | installed _ _ _ hcall => simp [hsnap] at hcall
  | quiet hquiet => exact .kept (n.execute_quiet fault hquiet).commitIndex

/-- A success is reported for an accepted request, with everything the log holds. -/
lemma appendResponse_of_sent {call : Call} {target sender : NodeId} {response : AppendResponse}
    (h : Packet.appendResponse target sender response ∈ (n.execute fault call).2)
    (hs : response.success = true) :
    ∃ request, call = .appendEntries request ∧ n.Accepts request ∧ sender = n.config.id ∧
      response.term = request.term ∧
      response.matchIndex = (n.execute fault call).1.log.lastIndex := by
  cases call with
  | appendEntries request =>
    simp only [execute, List.mem_singleton, Packet.appendResponse.injEq] at h
    obtain ⟨-, rfl, rfl⟩ := h
    have haccepts : n.Accepts request := by
      by_contra hnot
      rw [(n.handleAppendEntries_of_not_accepts fault hnot).1] at hs
      cases hs
    obtain ⟨-, -, -, -, hresponse⟩ := n.handleAppendEntries_of_accepts fault haccepts
    exact ⟨request, rfl, haccepts, rfl, by rw [hresponse], by rw [hresponse]; rfl⟩
  | _ => simp [execute] at h

end

/-! ### Membership -/

/-- The configuration is the one the node started with, and no change is pending. -/
def FixedMembership (n : RaftNode) : Prop :=
  n.membership.current = (MembershipState.new n.config.id n.config.peers).current ∧
    n.membership.pending = none

lemma FixedMembership.of_eq (h : n.FixedMembership) (hconfig : n'.config = n.config)
    (hmember : n'.membership = n.membership ∨ n'.membership = n.membership.abortChange) :
    n'.FixedMembership := by
  rcases hmember with heq | heq
  · exact ⟨by rw [heq, hconfig, h.1], by rw [heq, h.2]⟩
  · exact ⟨by rw [heq, hconfig, ← h.1]; rfl, by rw [heq]; rfl⟩

lemma FixedMembership.currentSize (h : n.FixedMembership) {T : Topology} {k : NodeId}
    (hk : k ∈ T.members) (hconfig : n.config = { id := k, peers := T.peers k }) :
    n.membership.currentSize = T.members.card := by
  rw [MembershipState.currentSize, h.1, hconfig, ← T.length_peers hk]
  simp [MembershipState.new, ClusterConfig.len]

lemma FixedMembership.listsPeers (h : n.FixedMembership) :
    n.ListsPeers n.membership.current := by
  rw [ListsPeers, h.1]
  simp [MembershipState.new, Function.comp_def]

lemma FixedMembership.isMajority {T : Topology} {k : NodeId} (hk : k ∈ T.members)
    (h : n.FixedMembership) (hconfig : n.config = { id := k, peers := T.peers k })
    {voters : Finset NodeId} (hq : n.membership.hasQuorum voters = true) :
    IsMajority T.members (T.members.filter (· ∈ voters)) := by
  have hnodup := (h.listsPeers.withinPeers hk hconfig).nodup
  rw [← h.listsPeers.memberIds hk hconfig]
  exact (MembershipState.majorityOf_iff hnodup).mp (MembershipState.hasQuorum_iff.mp hq).1

end RaftNode

end Raftrust.Consensus

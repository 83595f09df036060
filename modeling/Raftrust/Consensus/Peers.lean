import Raftrust.Consensus.Configuration

/-!
# Voters and peers

A node counts the votes of an election against the size of its peer list, and a leader sends its
requests to the peers it was started with. Both agree with the membership as long as no change makes
other nodes members: only a configuration that leaves out one of an even number of nodes may be
pending.
-/

namespace Raftrust.Consensus

open Lib Storage

/-! ### The leader's books -/

lemma SameProgress.leaderState_isSome {n n' : RaftNode} (hs : SameProgress n' n)
    (h : n.state.role = .leader → n.leaderState.isSome = true) (hlead : n'.state.role = .leader) :
    n'.leaderState.isSome = true := by
  rw [hs.leaderState]
  exact h (hs.role.symm.trans hlead)

/-! ### Configurations and peers -/

namespace RaftNode

/-- The configuration lists exactly the node and its configured peers. -/
def ListsPeers (n : RaftNode) (c : ClusterConfig) : Prop :=
  (c.members.map (·.id)).Perm (n.config.id :: n.config.peers)
  deriving Decidable

/-- The configuration lists none but these, and so many of them that a majority of all has a
majority of it: all, or all but one of an even number. -/
@[mk_iff]
structure WithinPeers (n : RaftNode) (c : ClusterConfig) : Prop where
  nodup : (c.members.map (·.id)).Nodup
  subset : ∀ m ∈ c.members, m.id ∈ n.config.id :: n.config.peers
  size : n.clusterSize + c.len / 2 ≤ c.len + n.clusterSize / 2

instance (n : RaftNode) (c : ClusterConfig) : Decidable (n.WithinPeers c) :=
  decidable_of_iff _ (withinPeers_iff n c).symm

/-- What is current lists exactly the configured nodes, and what is pending is within them. -/
structure AgreesWithPeers (n : RaftNode) : Prop where
  current : n.ListsPeers n.membership.current
  pending : ∀ c ∈ n.membership.pending, n.WithinPeers c

/-! ### Changes within the peers -/

section

variable [ConfigJson]

/-- A change that is begun or adopted is within the configured nodes, and what becomes current lists
exactly these. A leader makes a joint configuration that it applies its current one at once. -/
def ChangesWithinPeers (n : RaftNode) (call : Call) : Prop :=
  (∀ c ∈ n.joint? call,
      n.WithinPeers c ∧ (call.applied ≠ none → n.state.role = .leader → n.ListsPeers c)) ∧
    ∀ c ∈ call.final?, n.ListsPeers c
  deriving Decidable

/-- The agreement outlives every call with such changes. -/
lemma AgreesWithPeers.of_effect {n n' : RaftNode} (h : n.AgreesWithPeers) {call : Call}
    (hconfig : n'.config = n.config) (heffect : MembershipEffect n call n')
    (hchange : n.ChangesWithinPeers call) : n'.AgreesWithPeers := by
  -- it is enough to compare with the peers of `n`, which are those of `n'`
  have hagrees : n.ListsPeers n'.membership.current →
      (∀ c ∈ n'.membership.pending, n.WithinPeers c) → n'.AgreesWithPeers := by
    intro hcurrent hpending
    refine ⟨?_, fun c hc => ⟨(hpending c hc).nodup, hconfig ▸ (hpending c hc).subset, ?_⟩⟩
    · rwa [ListsPeers, hconfig]
    · rw [clusterSize, hconfig]
      exact (hpending c hc).size
  cases heffect with
  | kept heq =>
    refine hagrees ?_ ?_ <;> rw [heq]
    · exact h.current
    · exact h.pending
  | aborted t _ _ heq =>
    refine hagrees ?_ ?_ <;> rw [heq]
    · exact h.current
    · simp [MembershipState.abortChange]
  | begun change data hcall role begin_eq =>
    obtain ⟨-, newConfig, hnew, hdata, -⟩ := MembershipState.beginChange_cases begin_eq
    have hjoint : n.joint? call = some newConfig := by
      simp [joint?, hcall, role, begin_eq, hdata, Except.toOption]
    refine hagrees ?_ ?_ <;> rw [hnew]
    · exact h.current
    · exact fun c hc => Option.some.inj hc ▸ (hchange.1 newConfig hjoint).1
  | joined data joint hcall decoded _ heq =>
    have hjoint : n.joint? call = some joint.new := by simp [joint?, hcall, decoded]
    refine hagrees ?_ ?_ <;> rw [heq]
    · exact h.current
    · exact fun c hc => Option.some.inj hc ▸ (hchange.1 joint.new hjoint).1
  | finalized data joint hcall decoded role heq =>
    have hjoint : n.joint? call = some joint.new := by simp [joint?, hcall, decoded]
    refine hagrees ?_ ?_ <;> rw [heq]
    · exact (hchange.1 joint.new hjoint).2 (by simp [hcall, Call.applied]) role
    · simp [MembershipState.applyNewConfig]
  | applied data config hcall single decoded heq =>
    have hfinal : call.final? = some config := by simp [Call.final?, hcall, single, decoded]
    refine hagrees ?_ ?_ <;> rw [heq]
    · exact hchange.2 config hfinal
    · simp [MembershipState.applyNewConfig]

end

/-! ### Members of the cluster -/

section

variable {n : RaftNode} {T : Topology} {k : NodeId} (hk : k ∈ T.members)
  (hconfig : n.config = { id := k, peers := T.peers k })

include hk hconfig

lemma mem_self_and_peers_iff {id : NodeId} :
    id ∈ n.config.id :: n.config.peers ↔ id ∈ T.members := by
  rw [hconfig, List.mem_cons, T.mem_peers k hk]
  by_cases hid : id = k
  · simp [hid, hk]
  · simp [hid]

lemma ListsPeers.memberIds {c : ClusterConfig} (h : n.ListsPeers c) : c.memberIds = T.members := by
  ext id
  rw [ClusterConfig.memberIds, List.mem_toFinset, h.mem_iff, mem_self_and_peers_iff hk hconfig]

lemma ListsPeers.withinPeers {c : ClusterConfig} (h : n.ListsPeers c) : n.WithinPeers c := by
  refine ⟨?_, fun m hm => h.mem_iff.mp (List.mem_map_of_mem hm), ?_⟩
  · rw [h.nodup_iff, hconfig, List.nodup_cons]
    exact ⟨by simp [T.mem_peers k hk], T.nodup_peers k hk⟩
  · have hlen : c.len = n.clusterSize := by
      have := h.length_eq
      rwa [List.length_map, List.length_cons] at this
    omega

lemma WithinPeers.memberIds_subset {c : ClusterConfig} (h : n.WithinPeers c) :
    c.memberIds ⊆ T.members := by
  intro id hid
  obtain ⟨m, hm, rfl⟩ := List.mem_map.mp (List.mem_toFinset.mp hid)
  exact (mem_self_and_peers_iff hk hconfig).mp (h.subset m hm)

lemma WithinPeers.majorityOf {c : ClusterConfig} (h : n.WithinPeers c) {voters : Finset NodeId}
    (hvoters : IsMajority T.members voters) : MembershipState.majorityOf c voters = true := by
  rw [MembershipState.majorityOf_iff h.nodup]
  refine ⟨Finset.filter_subset _ _, ?_⟩
  have hcard : c.memberIds.card = c.len := by
    rw [ClusterConfig.memberIds, List.toFinset_card_of_nodup h.nodup, List.length_map,
      ClusterConfig.len]
  have hsize : n.clusterSize = T.members.card := by
    rw [clusterSize, hconfig]
    exact T.length_peers hk
  -- at most the nodes that are not in the configuration can be missing
  have hinter := Finset.card_union_add_card_inter c.memberIds voters
  have hunion := Finset.card_le_card
    (Finset.union_subset (h.memberIds_subset hk hconfig) hvoters.subset)
  have hle := hvoters.card_le
  have := h.size
  rw [Finset.filter_mem_eq_inter, hcard]
  omega

lemma AgreesWithPeers.hasQuorum (h : n.AgreesWithPeers) {voters : Finset NodeId}
    (hvoters : IsMajority T.members voters) : n.membership.hasQuorum voters = true := by
  rw [MembershipState.hasQuorum_iff]
  exact ⟨(h.current.withinPeers hk hconfig).majorityOf hk hconfig hvoters,
    fun c hc => (h.pending c hc).majorityOf hk hconfig hvoters⟩

lemma AgreesWithPeers.allVoters (h : n.AgreesWithPeers) :
    n.membership.allVoters = T.members := by
  have hcurrent := h.current.memberIds hk hconfig
  cases hpending : n.membership.pending with
  | none => simpa [MembershipState.allVoters, hpending] using hcurrent
  | some c =>
    have hsubset := (h.pending c hpending).memberIds_subset hk hconfig
    simp [MembershipState.allVoters, hpending, hcurrent, Finset.union_eq_left.mpr hsubset]

end

/-! ### Votes and recipients -/

section

variable [Crc32] [ConfigJson] (n : RaftNode)

omit [Crc32] [ConfigJson] in
lemma observeTerm_electionState (t : Term) :
    (n.observeTerm t).electionState = n.electionState ∨ (n.observeTerm t).electionState = none := by
  unfold observeTerm
  split
  · exact .inr rfl
  · exact .inl rfl

/-- An election is left alone, given up, started with the node's own vote, or gains a vote. -/
lemma execute_electionState_cases (fault : Option WalFault) (call : Call) :
    let election' := (n.execute fault call).1.electionState
    election' = n.electionState ∨ election' = none ∨
      election' = some ((ElectionState.new n.clusterSize).recordVote n.config.id).1 ∨
      ∃ sender response wasPreVote election, call = .voteResponse sender response wasPreVote ∧
        n.electionState = some election ∧ election' = some (election.recordVote sender).1 := by
  intro election'
  -- a later term only ends an election
  have hobserve (t : Term) (ht : election' = (n.observeTerm t).electionState) :
      election' = n.electionState ∨ election' = none := by
    rw [ht]
    exact n.observeTerm_electionState t
  cases n.execute_outcome fault call with
  | kept heq => exact .inl (congrArg electionState heq)
  | preVote heq => exact .inr (.inr (.inl (congrArg electionState heq)))
  | election heq => exact .inr (.inr (.inl (congrArg electionState heq)))
  | observed t _ heq => exact (hobserve t (congrArg electionState heq)).imp id .inl
  | granted request _ heq =>
    exact (hobserve request.term ((congrArg electionState heq).trans rfl)).imp id .inl
  | counted sender response wasPreVote election hcall helection heq =>
    exact .inr (.inr (.inr ⟨sender, response, wasPreVote, election, hcall, helection,
      congrArg electionState heq⟩))
  | elected _ _ heq => exact .inr (.inl (congrArg electionState heq))
  | followed request _ _ _ heq =>
    exact (hobserve request.term ((congrArg electionState heq).trans rfl)).imp id .inl
  | acknowledged _ _ _ _ _ _ _ _ _ heq => exact .inl ((congrArg electionState heq).trans rfl)
  | proposed happend => exact .inl happend.sameVotes.electionState
  | reconfigured _ _ happend => exact .inl happend.sameVotes.electionState
  | compacted _ _ _ heq => exact .inl ((congrArg electionState heq).trans rfl)
  | installed t _ _ _ _ _ _ _ _ heq =>
    exact (hobserve t ((congrArg electionState heq).trans rfl)).imp id .inl
  | quiet hquiet => exact .inl (n.execute_quiet_sameVotes fault hquiet).electionState

omit [ConfigJson] in
lemma OwnAppend.leaderState_isSome {m n' : RaftNode} {fault : Option WalFault}
    (h : OwnAppend m fault n') (hm : m.leaderState.isSome = true) :
    n'.leaderState.isSome = true := by
  cases h with
  | kept heq => rwa [heq]
  | appended data ty _ heq => rwa [heq]
  | recorded data ty _ heq =>
    rw [heq]
    simpa [recordOwnMatch, appendEntry] using hm

lemma execute_leaderState_isSome (fault : Option WalFault) (call : Call)
    (h : n.state.role = .leader → n.leaderState.isSome = true)
    (hlead : (n.execute fault call).1.state.role = .leader) :
    (n.execute fault call).1.leaderState.isSome = true := by
  -- observing a term ends leadership or changes nothing
  have hobserve (t : Term) (hlead : (n.observeTerm t).state.role = .leader) :
      (n.observeTerm t).leaderState.isSome = true := by
    by_cases hterm : n.term < t
    · rw [observeTerm_of_lt n hterm] at hlead
      cases hlead
    · rw [observeTerm_of_le n (not_lt.mp hterm)] at hlead ⊢
      exact h hlead
  cases n.execute_outcome fault call with
  | kept heq =>
    rw [heq] at hlead ⊢
    exact h hlead
  | preVote heq =>
    rw [heq] at hlead
    cases hlead
  | election heq =>
    rw [heq] at hlead
    cases hlead
  | observed t _ heq =>
    rw [heq] at hlead ⊢
    exact hobserve t hlead
  | granted request _ heq =>
    rw [heq] at hlead ⊢
    exact hobserve request.term hlead
  | counted _ _ _ _ _ _ heq =>
    rw [heq] at hlead ⊢
    exact h hlead
  | elected _ _ heq =>
    rw [heq]
    rfl
  | followed _ _ _ _ heq =>
    rw [heq] at hlead
    cases hlead
  | acknowledged _ _ _ _ _ _ _ _ _ heq =>
    rw [heq]
    rfl
  | proposed happend =>
    exact happend.leaderState_isSome (h (happend.sameVotes.role.symm.trans hlead))
  | reconfigured _ _ happend =>
    exact happend.leaderState_isSome (h (happend.sameVotes.role.symm.trans hlead))
  | compacted _ _ _ heq =>
    rw [heq] at hlead ⊢
    exact h hlead
  | installed _ _ _ _ _ _ _ _ _ heq =>
    rw [heq] at hlead
    cases hlead
  | quiet hquiet => exact (n.execute_quiet fault hquiet).leaderState_isSome h hlead

/-- Votes come from the node that was asked. -/
lemma voteResponse_sender {fault : Option WalFault} {call : Call} {target sender : NodeId}
    {response : VoteResponse} {wasPreVote : Bool}
    (h : Packet.voteResponse target sender response wasPreVote ∈ (n.execute fault call).2) :
    sender = n.config.id := by
  cases call with
  | voteRequest request =>
    simp only [execute, List.mem_singleton, Packet.voteResponse.injEq] at h
    exact h.2.1
  | _ => simp [execute] at h

omit [ConfigJson] in
/-- A vote makes a node leader only when it completes the votes of an election. -/
lemma handleVoteResponse_elected {sender : NodeId} {response : VoteResponse} {wasPreVote : Bool}
    {fault : Option WalFault}
    (h : (n.handleVoteResponse sender response wasPreVote fault).2 = true) :
    response.voteGranted = true ∧ wasPreVote = false ∧ ∃ election,
      n.electionState = some election ∧
        election.votesNeeded ≤ (insert sender election.votesReceived).card := by
  unfold handleVoteResponse at h
  split at h
  · cases h
  · split at h
    · cases h
    · next hgranted =>
      split at h
      · cases h
      · next election helection =>
        dsimp only at h
        split at h
        · next quorum =>
          split at h
          · cases h
          · next hreal =>
            exact ⟨by simpa using hgranted, by simpa using hreal, election, helection,
              (election.recordVote_quorum_iff sender).mp quorum⟩
        · cases h

omit [Crc32] [ConfigJson] in
lemma createAppendRequests_targets (hrole : n.state.role = .leader)
    (hleader : n.leaderState.isSome = true) :
    n.createAppendRequests.map (·.1) = n.config.peers := by
  obtain ⟨leader, hleader⟩ := Option.isSome_iff_exists.mp hleader
  simp [createAppendRequests, hrole, hleader, Function.comp_def]

end

end RaftNode

/-! ### Runs -/

namespace Cluster

/-- Votes come from members of the cluster, and leaders keep their books. -/
structure VotesFromMembers (T : Topology) (c : Cluster) : Prop where
  response : ∀ target sender response wasPreVote,
    Packet.voteResponse target sender response wasPreVote ∈ c.network → sender ∈ T.members
  election : ∀ n ∈ T.members, ∀ election, (c.nodes n).electionState = some election →
    election.votesNeeded = T.members.card / 2 + 1 ∧ election.votesReceived ⊆ T.members
  leader : ∀ n, (c.nodes n).state.role = .leader → (c.nodes n).leaderState.isSome = true

section

variable [Crc32] [ConfigJson]

lemma VotesFromMembers.perform {T : Topology} {c : Cluster} (h : VotesFromMembers T c)
    {k : NodeId} (hk : k ∈ T.members)
    (hconfig : (c.nodes k).config = { id := k, peers := T.peers k }) (fault : Option WalFault)
    {call : Call} (hpacket : ∀ p ∈ call.packet k, p ∈ c.network) :
    VotesFromMembers T (c.perform k fault call) where
  response := by
    intro target sender response wasPreVote hmem
    rcases mem_network_put.mp hmem with hmem | hmem
    · exact h.response target sender response wasPreVote hmem
    · rw [(c.nodes k).voteResponse_sender hmem, hconfig]
      exact hk
  election := by
    intro n hn election helection
    rcases eq_or_ne n k with rfl | hne
    swap
    · rw [put_nodes_of_ne c hne] at helection
      exact h.election n hn election helection
    rw [put_nodes_self] at helection
    rcases (c.nodes n).execute_electionState_cases fault call with
      heq | heq | heq | ⟨sender, response, wasPreVote, old, rfl, hold, heq⟩
    · exact h.election n hn election (heq.symm.trans helection)
    · rw [heq] at helection
      cases helection
    · -- a new election starts with the node's own vote
      rw [heq] at helection
      obtain rfl := Option.some.inj helection
      have hsize : (c.nodes n).clusterSize = T.members.card := by
        rw [RaftNode.clusterSize, hconfig]
        exact T.length_peers hn
      refine ⟨by simp [hsize], ?_⟩
      simp [hconfig, hn]
    · rw [heq] at helection
      obtain rfl := Option.some.inj helection
      obtain ⟨hneeded, hvotes⟩ := h.election n hn old hold
      have hsender := h.response n sender response wasPreVote (hpacket _ rfl)
      exact ⟨hneeded, by simpa using Finset.insert_subset hsender hvotes⟩
  leader := by
    intro n hlead
    rcases eq_or_ne n k with rfl | hne
    · rw [put_nodes_self] at hlead ⊢
      exact (c.nodes n).execute_leaderState_isSome fault call (h.leader n) hlead
    · rw [put_nodes_of_ne c hne] at hlead ⊢
      exact h.leader n hlead

lemma votesFromMembers (T : Topology) (es : List Event) :
    VotesFromMembers T (after T es) := by
  refine run_invariant (step T) (fun es => VotesFromMembers T (after T es)) ?_ ?_
    (along_true (step T) (init T) es)
  · constructor
    · simp [init]
    · simp [init, freshNode]
    · simp [init, freshNode]
  · intro es e _ h _
    rw [after_snoc]
    rcases step_cases T (after T es) e with ⟨-, heq⟩ | ⟨⟨hmem, hpacket⟩, heq⟩
    · rwa [heq]
    · rw [heq]
      exact h.perform hmem (run_config T es e.node) e.fault hpacket

lemma agreesWithPeers (T : Topology) {es : List Event}
    (h : Along (step T) (fun c e => (c.nodes e.node).ChangesWithinPeers e.call) (init T) es)
    (k : NodeId) : ((after T es).nodes k).AgreesWithPeers := by
  refine run_invariant (step T)
    (fun es => ∀ k, ((after T es).nodes k).AgreesWithPeers) ?_ ?_ h k
  · -- a node starts with itself and its peers
    intro k
    refine ⟨?_, by simp [init, freshNode, MembershipState.new]⟩
    simp [RaftNode.ListsPeers, init, freshNode, MembershipState.new, Function.comp_def]
  · intro es e _ hagrees hchange k
    have hconfig : ((after T (es ++ [e])).nodes k).config =
        ((after T es).nodes k).config := by
      rw [run_config, run_config]
    rw [after_snoc] at hconfig ⊢
    rcases step_cases T (after T es) e with ⟨-, heq⟩ | ⟨-, heq⟩
    · rw [heq]
      exact hagrees k
    · rw [heq] at hconfig ⊢
      rcases eq_or_ne k e.node with rfl | hne
      · rw [put_nodes_self] at hconfig ⊢
        exact (hagrees e.node).of_effect hconfig
          (RaftNode.execute_membershipEffect _ e.fault e.call) hchange
      · rw [put_nodes_of_ne _ hne]
        exact hagrees k

/-- **The effective configuration governs elections and replication.** In every run whose changes
stay within the configured nodes, pending ones without at most one of an even number of them, a node
is made leader by a quorum of its own membership, and a leader's requests go to all voters but
itself. -/
theorem governed_of_changesWithinPeers (T : Topology) (es : List Event)
    (h : Along (step T) (fun c e => (c.nodes e.node).ChangesWithinPeers e.call) (init T) es)
    {es' : List Event} {e : Event} (hp : es' ++ [e] <+: es)
    (henabled : (after T es').Enabled T e) :
    let n := (after T es').nodes e.node
    (∀ sender response wasPreVote, e.call = .voteResponse sender response wasPreVote →
        (n.handleVoteResponse sender response wasPreVote e.fault).2 = true →
          ∃ election, n.electionState = some election ∧
            n.membership.hasQuorum (insert sender election.votesReceived) = true) ∧
      (e.call = .createAppendRequests → n.state.role = .leader →
        (n.createAppendRequests.map (·.1)).toFinset =
          n.membership.allVoters.erase n.config.id) := by
  intro n
  have hinv := votesFromMembers T es'
  have hagrees : n.AgreesWithPeers :=
    agreesWithPeers T ((along_snoc _ _ _ _ _).mp (h.of_isPrefix _ hp)).1 e.node
  have hconfig : n.config = { id := e.node, peers := T.peers e.node } := run_config T es' e.node
  obtain ⟨hmem, hpacket⟩ := henabled
  constructor
  -- the votes counted are a majority of the configured nodes, so they are a quorum here too
  · intro sender response wasPreVote hcall helected
    obtain ⟨-, rfl, election, helection, hcard⟩ := n.handleVoteResponse_elected helected
    refine ⟨election, helection, ?_⟩
    obtain ⟨hneeded, hvotes⟩ := hinv.election e.node hmem election helection
    have hsender : sender ∈ T.members :=
      hinv.response e.node sender response false (hpacket _ (by rw [hcall]; rfl))
    exact hagrees.hasQuorum hmem hconfig
      ⟨Finset.insert_subset hsender hvotes, by rwa [hneeded] at hcard⟩
  · intro hcall hrole
    rw [n.createAppendRequests_targets hrole (hinv.leader e.node hrole),
      hagrees.allVoters hmem hconfig, hconfig]
    ext m
    simp [T.mem_peers e.node hmem, and_comm]

end

/-- The request that brings the no-op and a joint configuration to a fresh node. -/
def jointRequest (data : Bytes) : AppendRequest where
  term := 1
  leaderId := 1
  prevLogIndex := 0
  prevLogTerm := 0
  entries := [⟨1, 1, [], .noop⟩, ⟨2, 1, data, .configChange⟩]
  leaderCommit := 0

/-- Nodes 2 and 3 accept the joint configuration, node 1 commits it, and node 2 learns of that,
applies the entry and stands for election. -/
def adoptedByTwo (data : Bytes) : List Event :=
  [⟨1, .createAppendRequests, none⟩, ⟨2, .appendEntries (jointRequest data), none⟩,
    ⟨3, .appendEntries (jointRequest data), none⟩, ⟨1, .appendResponse 2 ⟨1, true, 2⟩, none⟩,
    ⟨1, .appendResponse 3 ⟨1, true, 2⟩, none⟩, ⟨1, .createAppendRequests, none⟩,
    ⟨2, .appendEntries ⟨1, 1, 2, 1, [], 2⟩, none⟩, ⟨2, .takeCommittedEntries, none⟩,
    ⟨2, .applyConfigChange data, none⟩, ⟨2, .startElection, none⟩,
    ⟨3, .voteRequest ⟨2, 2, 2, 1, false⟩, none⟩]

namespace RemovalRun

def fourNodes : Topology :=
  Topology.ofIds [1, 2, 3, 4] (by decide)

/-- Of the four nodes, node 4 is to be removed. -/
def removesFourth : JointConfigData where
  old := ⟨[⟨1, ""⟩, ⟨2, ""⟩, ⟨3, ""⟩, ⟨4, ""⟩]⟩
  new := ⟨[⟨1, ""⟩, ⟨2, ""⟩, ⟨3, ""⟩]⟩

scoped instance : Crc32 := Crc32.ieee

scoped instance : ConfigJson := ConfigJson.text [removesFourth] []

/-- Node 1 is elected and proposes to remove node 4. Node 2 adopts the change, stands for election
and has the vote of node 4. -/
def removeFourthAndStand : List Event :=
  [⟨1, .startElection, none⟩, ⟨2, .voteRequest ⟨1, 1, 0, 0, false⟩, none⟩,
    ⟨3, .voteRequest ⟨1, 1, 0, 0, false⟩, none⟩, ⟨1, .voteResponse 2 ⟨1, true⟩ false, none⟩,
    ⟨1, .voteResponse 3 ⟨1, true⟩ false, none⟩,
    ⟨1, .proposeConfigChange (.removeNode 4), none⟩] ++
  adoptedByTwo (ConfigJson.encodeJoint removesFourth) ++
  [⟨4, .voteRequest ⟨2, 2, 2, 1, false⟩, none⟩, ⟨2, .voteResponse 4 ⟨2, true⟩ false, none⟩]

end RemovalRun

open RemovalRun in
/-- Node 2 is elected with the removal pending, by nodes 2, 3 and 4: three of the four current
members, and two of the three that are to stay. -/
theorem governed_of_changesWithinPeers_removal :
    let n := (after fourNodes removeFourthAndStand).nodes 2
    n.membership.pending = some removesFourth.new ∧
      (n.handleVoteResponse 3 ⟨2, true⟩ false none).2 = true ∧
      ∃ election, n.electionState = some election ∧
        n.membership.hasQuorum (insert 3 election.votesReceived) = true := by
  let vote : Event := ⟨2, .voteResponse 3 ⟨2, true⟩ false, none⟩
  have hchanges : Along (step fourNodes) (fun c e => (c.nodes e.node).ChangesWithinPeers e.call)
      (init fourNodes) (removeFourthAndStand ++ [vote]) := by
    decide +kernel
  have hp : removeFourthAndStand ++ [vote] <+: removeFourthAndStand ++ [vote] := List.prefix_rfl
  have henabled : (after fourNodes removeFourthAndStand).Enabled fourNodes
      vote := by
    decide +kernel
  have helected : (((after fourNodes removeFourthAndStand).nodes
      2).handleVoteResponse 3 ⟨2, true⟩ false none).2 = true := by
    decide +kernel
  have hpending : ((after fourNodes removeFourthAndStand).nodes
      2).membership.pending = some removesFourth.new := by
    decide +kernel
  have hgoverned := (governed_of_changesWithinPeers fourNodes _ hchanges hp henabled).1
  generalize after fourNodes removeFourthAndStand = c at *
  exact ⟨hpending, helected, hgoverned 3 ⟨2, true⟩ false rfl helected⟩

section

open ConfigRuns

/-- Node 1 is elected and proposes to add node 4. -/
def addFourth : List Event :=
  plainElection ++ [⟨1, .proposeConfigChange (.addNode 4 "d"), none⟩]

/-- Node 2 adopts the change and stands for election. -/
def addFourthAndStand : List Event :=
  addFourth ++ adoptedByTwo addsFourthData

/-- The leader that has proposed node 4 sends it nothing, and node 2 becomes leader with the votes
of nodes 2 and 3, which are no majority of the pending configuration. -/
theorem addFourth_ungoverned :
    let n := (after .three addFourth).nodes 1
    let m := (after .three addFourthAndStand).nodes 2
    (n.state.role = .leader ∧ n.createAppendRequests.map (·.1) = [2, 3] ∧
        n.membership.allVoters.erase 1 = {2, 3, 4}) ∧
      Enabled .three (after .three addFourthAndStand)
        ⟨2, .voteResponse 3 ⟨2, true⟩ false, none⟩ ∧
      (m.handleVoteResponse 3 ⟨2, true⟩ false none).2 = true ∧
      m.electionState.map (·.votesReceived) = some {2} ∧
      m.membership.pending = some fourNodes ∧ m.membership.hasQuorum {2, 3} = false := by
  decide +kernel

end

end Cluster

end Raftrust.Consensus

import Raftrust.Consensus.CatchUp
import Raftrust.Consensus.CommitAdvance
import Raftrust.Consensus.Finality

/-!
# A majority goes on

Safety leaves open whether anything is ever committed. As long as a leader and enough others to form
a majority are not in later terms, their requests and responses alone bring them to the same log,
and everything in it gets committed on all of them, from every state that an orderly run can reach.
-/

namespace Raftrust.Consensus

open Lib Storage Function

/-! ### The leader's own match index -/

namespace RaftNode

/-- A leader has recorded how far its own log reaches. -/
def RecordsOwn (n : RaftNode) : Prop :=
  n.state.role = .leader → ∃ leader, n.leaderState = some leader ∧
    leader.matchIndex.lookup n.config.id = some n.log.lastIndex

variable {n n' : RaftNode}

lemma RecordsOwn.of_eq (h : n.RecordsOwn) (hrole : n'.state.role = n.state.role)
    (hleader : n'.leaderState = n.leaderState) (hconfig : n'.config = n.config)
    (hlog : n'.log = n.log) : n'.RecordsOwn := by
  intro hr
  rw [hleader, hconfig, hlog]
  exact h (hrole.symm.trans hr)

lemma RecordsOwn.of_not_leader (h : n.state.role ≠ .leader) : n.RecordsOwn :=
  fun hr => absurd hr h

lemma RecordsOwn.recordOwnMatch (h : n.leaderState.isSome = true) :
    n.recordOwnMatch.RecordsOwn := by
  obtain ⟨leader, hleader⟩ := Option.isSome_iff_exists.mp h
  intro _
  refine ⟨_, by rw [RaftNode.recordOwnMatch, hleader]; rfl, ?_⟩
  exact AList.lookup_insert _

lemma RecordsOwn.observeTerm (h : n.RecordsOwn) (t : Term)
    (hrole : n'.state.role = (n.observeTerm t).state.role)
    (hleader : n'.leaderState = (n.observeTerm t).leaderState) (hconfig : n'.config = n.config)
    (hlog : n'.log = n.log) : n'.RecordsOwn := by
  by_cases hterm : n.term < t
  · rw [observeTerm_of_lt n hterm] at hrole
    exact .of_not_leader (by simp [hrole, stepDownInner, savePersistent])
  · rw [observeTerm_of_le n (not_lt.mp hterm)] at hrole hleader
    exact h.of_eq hrole hleader hconfig hlog

section

variable [Crc32]

lemma RecordsOwn.propose (h : n.RecordsOwn) (data : Bytes) :
    (n.propose data none).1.RecordsOwn := by
  unfold RaftNode.propose
  split_ifs with hrole htransfer
  · exact h
  · exact h
  · obtain ⟨leader, hleader, -⟩ := h (not_not.mp hrole)
    exact RecordsOwn.recordOwnMatch (by simp [hleader])

variable [ConfigJson]

lemma RecordsOwn.of_quiet (h : n.RecordsOwn) {call : Call} (hquiet : call.isQuiet = true) :
    (n.execute none call).1.RecordsOwn :=
  h.of_eq (n.execute_quiet none hquiet).role (n.execute_quiet none hquiet).leaderState
    (n.execute_config none call) (n.execute_quiet_log none hquiet)

omit [Crc32] [ConfigJson] in
lemma RecordsOwn.handleAppendResponse (h : n.RecordsOwn) {sender : NodeId}
    (response : AppendResponse) (hsender : sender ≠ n.config.id) :
    (n.handleAppendResponse sender response).RecordsOwn := by
  rcases n.handleAppendResponse_cases sender response with
    ⟨-, heq⟩ | ⟨-, heq⟩ | ⟨-, hrole, leader, leader', hleader, hmatch, heq⟩
  · exact .of_not_leader (by simp [heq, stepDownInner, savePersistent])
  · rwa [heq]
  · obtain ⟨leader₀, hleader₀, hown⟩ := h hrole
    obtain rfl : leader₀ = leader := Option.some.inj (hleader₀.symm.trans hleader)
    intro _
    refine ⟨leader', by rw [heq]; rfl, ?_⟩
    rw [heq, hmatch]
    split
    · exact (AList.lookup_insert_ne hsender.symm).trans hown
    · exact hown

lemma RecordsOwn.execute (h : n.RecordsOwn) {call : Call} (hsnap : call.isSnapshot = false)
    (hmember : call.isMembershipChange = false)
    (hsender : ∀ sender response, call = .appendResponse sender response → sender ≠ n.config.id) :
    (n.execute none call).1.RecordsOwn := by
  have hconfig := n.execute_config none call
  cases call with
  -- calls that leave the role of leader, or make the node record its own log anew, keep the record
  | startPreVote => exact .of_not_leader (by simp [RaftNode.execute, startPreVote])
  | startElection =>
    exact .of_not_leader (by simp [RaftNode.execute, startElection, savePersistent])
  | timeoutNow msg =>
    simp only [RaftNode.execute, handleTimeoutNow]
    split
    · exact h
    · exact .of_not_leader (by simp [startElection, savePersistent])
  | voteRequest request =>
    rcases n.handleVoteRequest_cases request with heq | heq | ⟨-, heq⟩
    · exact h.of_eq (congrArg (·.state.role) heq) (congrArg (·.leaderState) heq) hconfig
        (congrArg (·.log) heq)
    · exact h.observeTerm request.term (congrArg (·.state.role) heq)
        (congrArg (·.leaderState) heq) hconfig (n.handleVoteRequest_log request)
    · exact h.observeTerm request.term (congrArg (·.state.role) heq)
        (congrArg (·.leaderState) heq) hconfig (n.handleVoteRequest_log request)
  | voteResponse sender response wasPreVote =>
    simp only [RaftNode.execute]
    rcases n.handleVoteResponse_cases sender response wasPreVote none with
      ⟨-, heq⟩ | heq | ⟨election, -, -, -, heq | ⟨-, -, heq⟩⟩
    · rw [heq]
      exact .of_not_leader (by simp [stepDownInner, savePersistent])
    · rwa [heq]
    · rw [heq]
      exact h.of_eq rfl rfl rfl rfl
    · rw [heq]
      exact RecordsOwn.recordOwnMatch rfl
  | appendEntries request =>
    simp only [RaftNode.execute]
    rcases n.handleAppendEntries_cases request none with ⟨-, heq⟩ | ⟨-, log, commitIndex, heq⟩
    · rwa [heq]
    · rw [heq]
      exact .of_not_leader (by simp [followLeader])
  -- only an acknowledgement from the leader itself could change it
  | appendResponse sender response =>
    exact h.handleAppendResponse response (hsender sender response rfl)
  | propose data => exact h.propose data
  | triggerSnapshot => cases hsnap
  | installSnapshot => cases hsnap
  | proposeConfigChange => cases hmember
  | applyConfigChange => cases hmember
  | _ => exact h.of_quiet rfl

end

end RaftNode

/-- What a quorum has, and is of the leader's term, the leader commits. -/
lemma RaftNode.le_tryAdvanceCommit {n : RaftNode} {leader : LeaderState}
    (hleader : n.leaderState = some leader) {p : NodeId} {M : LogIndex}
    (hp : leader.matchIndex.lookup p = some M)
    (hquorum : n.membership.hasQuorum (leader.voters M) = true)
    (hown : ∃ e, n.log.get M = some e ∧ e.term = n.term) :
    M ≤ n.tryAdvanceCommit.state.commitIndex := by
  rw [tryAdvanceCommit, hleader]
  dsimp only
  by_cases hlater : n.state.commitIndex < M
  · refine le_advanceCommit (List.pairwise_insertionSort _ _) ?_ hlater hquorum hown
    exact (List.mem_insertionSort _).mpr (List.mem_map_of_mem (AList.mem_lookup_iff.mp hp))
  · refine (not_lt.mp hlater).trans ?_
    rcases n.advanceCommit_cases leader _ with hkept | ⟨-, -, hlt⟩
    · exact hkept.ge
    · exact hlt.le

lemma RaftNode.handleAppendResponse_of_acked {n : RaftNode} {leader : LeaderState} {p : NodeId}
    {M : LogIndex} (hrole : n.state.role = .leader) (hleader : n.leaderState = some leader) :
    n.handleAppendResponse p { term := n.term, success := true, matchIndex := M } =
      tryAdvanceCommit { n with
        leaderState := some
          { nextIndex := leader.nextIndex.insert p (M + 1)
            matchIndex := leader.matchIndex.insert p M } } := by
  unfold handleAppendResponse
  rw [if_neg (lt_irrefl _), if_neg (not_not.mpr hrole), hleader]
  rfl

/-- The calls by which a leader replicates its log. -/
def Call.isReplication : Call → Bool
  | .createAppendRequests => true
  | .appendEntries _ => true
  | .appendResponse _ _ => true
  | _ => false

lemma RaftNode.FixedMembership.hasQuorum {n : RaftNode} {T : Topology} {k : NodeId}
    (hk : k ∈ T.members) (h : n.FixedMembership)
    (hconfig : n.config = { id := k, peers := T.peers k }) {voters : Finset NodeId}
    (hmajority : IsMajority T.members (T.members.filter (· ∈ voters))) :
    n.membership.hasQuorum voters = true := by
  have hnodup := (h.listsPeers.withinPeers hk hconfig).nodup
  rw [← h.listsPeers.memberIds hk hconfig] at hmajority
  exact MembershipState.hasQuorum_iff.mpr
    ⟨(MembershipState.majorityOf_iff hnodup).mpr hmajority, by simp [h.2]⟩

/-! ### Leaders in a run -/

namespace Cluster

section

variable [Crc32] [ConfigJson] {T : Topology} {es : List Event}

/-- Nobody acknowledges its own requests, and leaders know how far their own log reaches. -/
structure SelfRecorded (c : Cluster) : Prop where
  others : ∀ target sender response,
    Packet.appendResponse target sender response ∈ c.network → sender ≠ target
  own : ∀ n, (c.nodes n).RecordsOwn

lemma selfRecorded (h : OrderlyRun T es) :
    SelfRecorded (after T es) := by
  refine run_invariant (step T) (fun es => SelfRecorded (after T es))
    ⟨by simp [init], fun n => .of_not_leader (by simp [init, freshNode])⟩ ?_ h
  rintro es ⟨k, call, fault⟩ hes ih ⟨⟨hsnap, hfault⟩, hmember, -⟩
  obtain rfl : fault = none := hfault
  have hsim := (simulated_of_orderly T hes).1.simulated
  have hconfig := run_config T es k
  rcases ghost_snoc_cases T es ⟨k, call, none⟩ with ⟨heq, -⟩ | ⟨henabled, heq, -⟩
  · rwa [heq]
  rw [heq]
  constructor
  · intro target sender response hmem
    rcases mem_network_put.mp hmem with hmem | hmem
    · exact ih.others target sender response hmem
    · cases call with
      | appendEntries request =>
        obtain ⟨rfl, rfl, -⟩ : target = request.leaderId ∧
            sender = ((after T es).nodes k).config.id ∧ _ := by
          simpa [RaftNode.execute] using hmem
        rw [hconfig]
        exact (hsim.request k request (henabled.2 _ rfl)).2.1
      | _ => simp [RaftNode.execute] at hmem
  · intro m
    rcases eq_or_ne m k with rfl | hm
    · rw [put_nodes_self]
      refine (ih.own m).execute hsnap hmember ?_
      rintro sender response rfl
      rw [hconfig]
      exact ih.others m sender response (henabled.2 _ rfl)
    · rw [put_nodes_of_ne _ hm]
      exact ih.own m

/-! ### One exchange -/

/-- The leader `n` makes its requests, `p` answers the one for it, and the answer comes back. -/
def exchangeEvents (c : Cluster) (n p : NodeId) (leader : LeaderState) : List Event :=
  let request := (c.nodes n).appendRequestFor leader p
  [⟨n, .createAppendRequests, none⟩, ⟨p, .appendEntries request, none⟩,
    ⟨n, .appendResponse p ((c.nodes p).handleAppendEntries request none).2, none⟩]

/-- A leader and another member that is not in a later term. -/
structure InTouch (T : Topology) (c : Cluster) (n p : NodeId) : Prop where
  leads : (c.nodes n).state.role = .leader
  leader_mem : n ∈ T.members
  mem : p ∈ T.members
  ne : p ≠ n
  term_le : (c.nodes p).term ≤ (c.nodes n).term

section

variable {c : Cluster} {n p : NodeId} {leader : LeaderState}

/-- Making requests changes no node, and the one for `p` is in the network then. -/
lemma step_createAppendRequests (hn : (c.nodes n).config = { id := n, peers := T.peers n })
    (htouch : InTouch T c n p) (hleader : (c.nodes n).leaderState = some leader) :
    (step T c ⟨n, .createAppendRequests, none⟩).nodes = c.nodes ∧
      Packet.appendRequest p ((c.nodes n).appendRequestFor leader p) ∈
        (step T c ⟨n, .createAppendRequests, none⟩).network := by
  have hpeer : p ∈ (c.nodes n).config.peers := by
    rw [hn]
    exact (T.mem_peers n htouch.leader_mem p).mpr ⟨htouch.mem, htouch.ne⟩
  have hrequests : (c.nodes n).createAppendRequests =
      (c.nodes n).config.peers.map fun peer =>
        (peer, (c.nodes n).appendRequestFor leader peer) := by
    simp [RaftNode.createAppendRequests, htouch.leads, hleader]
  rw [step, if_pos ⟨htouch.leader_mem, by simp [Call.packet]⟩]
  refine ⟨update_eq_self _ _, mem_network_put.mpr (.inr (List.mem_map.mpr
    ⟨(p, (c.nodes n).appendRequestFor leader p), ?_, rfl⟩))⟩
  rw [hrequests]
  exact List.mem_map.mpr ⟨p, hpeer, rfl⟩

/-- A request that was sent is answered. -/
lemma step_appendEntries (hp : (c.nodes p).config = { id := p, peers := T.peers p })
    (hmem : p ∈ T.members) {request : AppendRequest}
    (hsent : Packet.appendRequest p request ∈ c.network) :
    step T c ⟨p, .appendEntries request, none⟩ =
      c.put p ((c.nodes p).handleAppendEntries request none).1
        [.appendResponse request.leaderId p ((c.nodes p).handleAppendEntries request none).2] := by
  have henabled : c.Enabled T ⟨p, .appendEntries request, none⟩ :=
    ⟨hmem, by simpa [Call.packet] using hsent⟩
  rw [step, if_pos henabled]
  simp only [RaftNode.execute, hp]

omit [Crc32] [ConfigJson] in
/-- Calls other than votes and acknowledgements are orderly, if they are no snapshots and no
membership changes. -/
lemma orderly_of_request {k : NodeId} {call : Call} (hsnap : call.isSnapshot = false)
    (hmember : call.isMembershipChange = false) (hvote : call.vote = none)
    (hack : call.acknowledgement = none) : c.Orderly ⟨k, call, none⟩ :=
  ⟨⟨hsnap, rfl⟩, hmember, by simp [Cluster.CountsOwnVotes, RaftNode.CountsOwnVotes, hvote],
    by simp [RaftNode.CountsOwnAcks, hack]⟩

omit [Crc32] [ConfigJson] in
/-- So is an acknowledgement, if a leader gets it in its own term. -/
lemma orderly_appendResponse {k sender : NodeId} {response : AppendResponse}
    (h : (c.nodes k).state.role = .leader → response.success = true →
      response.term = (c.nodes k).term) : c.Orderly ⟨k, .appendResponse sender response, none⟩ := by
  refine ⟨⟨rfl, rfl⟩, rfl, by simp [Cluster.CountsOwnVotes, RaftNode.CountsOwnVotes, Call.vote],
    fun ack hack hrole hsuccess _ => ?_⟩
  obtain rfl : response = ack := by simpa [Call.acknowledgement] using hack
  exact h hrole hsuccess

omit [Crc32] [ConfigJson] in
/-- And a vote, if it is counted in the election it was given in. -/
lemma orderly_voteResponse {k sender : NodeId} {response : VoteResponse} {wasPreVote : Bool}
    (h : response.voteGranted = true → response.term ≤ (c.nodes k).term →
      (c.nodes k).electionState.isSome = true →
      if wasPreVote then (c.nodes k).state.role = .preCandidate
      else (c.nodes k).state.role = .candidate ∧ response.term = (c.nodes k).term) :
    c.Orderly ⟨k, .voteResponse sender response wasPreVote, none⟩ := by
  refine ⟨⟨rfl, rfl⟩, rfl, fun vote hvote => ?_,
    by simp [RaftNode.CountsOwnAcks, Call.acknowledgement]⟩
  obtain rfl : (response, wasPreVote) = vote := by simpa [Call.vote] using hvote
  exact h

omit [ConfigJson] in
/-- A request is only acknowledged in its own term. -/
lemma success_term {f : RaftNode} {request : AppendRequest}
    (h : (f.handleAppendEntries request none).2.success = true) :
    (f.handleAppendEntries request none).2.term = request.term := by
  have haccepts : f.Accepts request := by
    by_contra hnot
    rw [(f.handleAppendEntries_of_not_accepts none hnot).1] at h
    cases h
  rw [(f.handleAppendEntries_of_accepts none haccepts).2.2.2.2]

end

lemma run_exchangeEvents (h : OrderlyRun T es) {n p : NodeId}
    {leader : LeaderState} (htouch : InTouch T (after T es) n p)
    (hleader : ((after T es).nodes n).leaderState = some leader) :
    let c := after T es
    let request := (c.nodes n).appendRequestFor leader p
    let answer := (c.nodes p).handleAppendEntries request none
    OrderlyRun T (es ++ exchangeEvents c n p leader) ∧
      (after T (es ++ exchangeEvents c n p leader)).nodes =
        update (update c.nodes p answer.1) n ((c.nodes n).handleAppendResponse p answer.2) := by
  intro c request answer
  obtain ⟨hnodes₁, hsent⟩ := step_createAppendRequests (run_config T es n) htouch hleader
  rw [OrderlyRun, along_append, after_append]
  simp only [exchangeEvents, along_cons, along_nil, run_cons, run_nil]
  change (step T c ⟨n, .createAppendRequests, none⟩).nodes = c.nodes at hnodes₁
  change Packet.appendRequest p request ∈
    (step T c ⟨n, .createAppendRequests, none⟩).network at hsent
  -- the requests are on the network, and no node has changed
  generalize step T c ⟨n, .createAppendRequests, none⟩ = c₁ at hnodes₁ hsent ⊢
  have hid : request.leaderId = n := by
    rw [← show (c.nodes n).config.id = n by rw [run_config]]
    rfl
  have hstep₂ : step T c₁ ⟨p, .appendEntries request, none⟩ =
      c₁.put p answer.1 [.appendResponse n p answer.2] := by
    have := step_appendEntries (by rw [hnodes₁]; exact run_config T es p) htouch.mem hsent
    rwa [hnodes₁, hid] at this
  have hnode₂ : (c₁.put p answer.1 [.appendResponse n p answer.2]).nodes n = c.nodes n := by
    rw [put_nodes_of_ne _ htouch.ne.symm, hnodes₁]
  have henabled₃ : (c₁.put p answer.1 [.appendResponse n p answer.2]).Enabled T
      ⟨n, .appendResponse p answer.2, none⟩ :=
    ⟨htouch.leader_mem, by simp [Call.packet, mem_network_put]⟩
  refine ⟨⟨h, ?_, ?_, ?_, trivial⟩, ?_⟩
  · exact orderly_of_request rfl rfl rfl rfl
  · exact orderly_of_request rfl rfl rfl rfl
  · rw [hstep₂]
    refine orderly_appendResponse fun _ hsuccess => ?_
    rw [hnode₂]
    exact success_term hsuccess
  · rw [hstep₂, step, if_pos henabled₃]
    dsimp only
    rw [hnode₂]
    simp only [put, hnodes₁]
    rfl

/-! ### What an exchange leaves and what it brings -/

/-- Exchanges between the leader `n` and the nodes of `Q` concern nobody else. -/
structure Keeps (n : NodeId) (Q : Finset NodeId) (c c' : Cluster) : Prop where
  leads : (c'.nodes n).state.role = .leader
  term : (c'.nodes n).term = (c.nodes n).term
  log : (c'.nodes n).log = (c.nodes n).log
  commits : (c.nodes n).state.commitIndex ≤ (c'.nodes n).state.commitIndex
  peerTerm : ∀ p ∈ Q, (c'.nodes p).term = (c.nodes n).term
  others : ∀ q, q ≠ n → q ∉ Q → c'.nodes q = c.nodes q
  matched : ∀ q ∉ Q, (c'.nodes n).matched? q = (c.nodes n).matched? q

/-- In the end all of `Q` have the leader's log, the leader knows, and they know what the leader had
committed. If that makes a majority, the leader has committed its log. -/
structure CaughtUp (T : Topology) (n : NodeId) (Q : Finset NodeId) (c c' : Cluster) : Prop extends
    Keeps n Q c c' where
  same : ∀ p ∈ Q, (c'.nodes p).log.entries = (c.nodes n).log.entries
  acked : ∀ p ∈ Q, (c'.nodes n).matched? p = some (c.nodes n).log.lastIndex
  told : ∀ p ∈ Q, (c.nodes n).state.commitIndex ≤ (c'.nodes p).state.commitIndex
  decided : Q.Nonempty → IsMajority T.members
      (T.members.filter fun q => (c'.nodes n).matched? q = some (c.nodes n).log.lastIndex) →
    (c.nodes n).log.lastIndex ≤ (c'.nodes n).state.commitIndex

section

variable {n p : NodeId} {Q : Finset NodeId} {c c' c'' : Cluster}

omit [Crc32] [ConfigJson] in
lemma Keeps.trans_caughtUp (h : Keeps n Q c c') (h' : CaughtUp T n Q c' c'') :
    CaughtUp T n Q c c'' where
  leads := h'.leads
  term := h'.term.trans h.term
  log := h'.log.trans h.log
  commits := h.commits.trans h'.commits
  peerTerm p hp := (h'.peerTerm p hp).trans h.term
  others q hn hq := (h'.others q hn hq).trans (h.others q hn hq)
  matched q hq := (h'.matched q hq).trans (h.matched q hq)
  same := by rw [← h.log]; exact h'.same
  acked := by rw [← h.log]; exact h'.acked
  told p hp := h.commits.trans (h'.told p hp)
  decided := by rw [← h.log]; exact h'.decided

omit [Crc32] [ConfigJson] in
lemma InTouch.of_keeps {q : NodeId} (h : InTouch T c n q) (hkeeps : Keeps n Q c c') :
    InTouch T c' n q := by
  refine ⟨hkeeps.leads, h.leader_mem, h.mem, h.ne, ?_⟩
  rw [hkeeps.term]
  by_cases hq : q ∈ Q
  · exact (hkeeps.peerTerm q hq).le
  · rw [hkeeps.others q h.ne hq]
    exact h.term_le

omit [Crc32] [ConfigJson] in
/-- First `p`, then the others. -/
lemma CaughtUp.insert (h : CaughtUp T n {p} c c') (h' : CaughtUp T n Q c' c'') (hp : p ∉ Q)
    (hn : p ≠ n) : CaughtUp T n (insert p Q) c c'' where
  leads := h'.leads
  term := h'.term.trans h.term
  log := h'.log.trans h.log
  commits := h.commits.trans h'.commits
  peerTerm := by
    refine Finset.forall_mem_insert _ _ _ |>.mpr ⟨?_, fun q hq => ?_⟩
    · rw [h'.others p hn hp]
      exact h.peerTerm p (Finset.mem_singleton_self p)
    · exact (h'.peerTerm q hq).trans h.term
  others q hqn hq := by
    rw [Finset.mem_insert, not_or] at hq
    rw [h'.others q hqn hq.2]
    exact h.others q hqn (by simpa using hq.1)
  matched q hq := by
    rw [Finset.mem_insert, not_or] at hq
    rw [h'.matched q hq.2]
    exact h.matched q (by simpa using hq.1)
  same := by
    refine Finset.forall_mem_insert _ _ _ |>.mpr ⟨?_, fun q hq => ?_⟩
    · rw [h'.others p hn hp]
      exact h.same p (Finset.mem_singleton_self p)
    · rw [h'.same q hq, h.log]
  acked := by
    refine Finset.forall_mem_insert _ _ _ |>.mpr ⟨?_, fun q hq => ?_⟩
    · rw [h'.matched p hp]
      exact h.acked p (Finset.mem_singleton_self p)
    · rw [h'.acked q hq, h.log]
  told := by
    refine Finset.forall_mem_insert _ _ _ |>.mpr ⟨?_, fun q hq => ?_⟩
    · rw [h'.others p hn hp]
      exact h.told p (Finset.mem_singleton_self p)
    · exact h.commits.trans (h'.told q hq)
  decided _ hmajority := by
    rcases Q.eq_empty_or_nonempty with rfl | hQ
    · -- the exchange with `p` was the last one
      have hsame : ∀ q, (c''.nodes n).matched? q = (c'.nodes n).matched? q :=
        fun q => h'.matched q (Finset.notMem_empty q)
      simp only [hsame] at hmajority
      exact (h.decided (Finset.singleton_nonempty p) hmajority).trans h'.commits
    · rw [← h.log] at hmajority ⊢
      exact h'.decided hQ hmajority

end

omit [ConfigJson] in
/-- An accepted request that reaches to the end of the leader's log makes the follower's log the
leader's. -/
lemma Simulated.mergeEntries_eq_hist {A : Ghost} {c : Cluster} (h : Simulated A c)
    (hown : OwnEnds A c) (hsafe : A.Safe LogEntry.term EntryAt T.members) {f : NodeId}
    {request : AppendRequest} (hmem : Packet.appendRequest f request ∈ c.network)
    (haccepts : (c.nodes f).Accepts request)
    (hslice : SliceOf (A.hist request.term) (A.hist request.term).length request) :
    (RaftNode.mergeEntries (c.nodes f).log request.entries none).entries =
      A.hist request.term := by
  obtain ⟨hle, -⟩ := h.adopt_conditions hown hsafe hmem haccepts
  rcases (h.mergeEntries hslice haccepts none).2 with ⟨hp, heq⟩ | ⟨-, heq⟩ | ⟨hne, -⟩
  · rw [heq] at hle ⊢
    rw [List.take_length] at hp
    exact hle.eq_of_length_le hp.length_le
  · rw [heq, List.take_length]
  · exact absurd rfl hne

omit [ConfigJson] in
/-- The answer to a request that is not of an old term is of the request's term. -/
lemma answer_term {f : RaftNode} {request : AppendRequest} (hterm : f.term ≤ request.term) :
    (f.handleAppendEntries request none).2.term = request.term ∧
      (f.handleAppendEntries request none).1.term = request.term := by
  rw [RaftNode.handleAppendEntries_responseTerm]
  rcases f.handleAppendEntries_cases request none with ⟨hold, -⟩ | ⟨-, log, commitIndex, heq⟩
  · exact absurd hold (not_lt.mpr hterm)
  · rw [heq]
    have := (f.observeTerm_term request.term).trans (max_eq_right hterm)
    exact ⟨this, this⟩

lemma commitIndex_le_lastIndex (h : OrderlyRun T es) (n : NodeId) :
    ((after T es).nodes n).state.commitIndex ≤
      ((after T es).nodes n).log.lastIndex := by
  rcases Nat.eq_zero_or_pos ((after T es).nodes n).state.commitIndex with h0 | hpos
  · rw [h0]
    exact Nat.zero_le _
  · obtain ⟨e, he⟩ := exists_get_of_le_commitIndex h hpos le_rfl
    exact ((simulated_of_orderly T h).1.simulated.contiguous n).le_lastIndex_of_get
      (by rw [he]; rfl)

lemma lastIndex_eq_of_entries_eq {es' : List Event} (h : OrderlyRun T es)
    (h' : OrderlyRun T es') {n m : NodeId}
    (heq : ((after T es).nodes n).log.entries =
      ((after T es').nodes m).log.entries) :
    ((after T es).nodes n).log.lastIndex =
      ((after T es').nodes m).log.lastIndex := by
  rw [RaftLog.lastIndex, heq, (simulated_of_orderly T h).1.simulated.base n, RaftLog.lastIndex,
    (simulated_of_orderly T h').1.simulated.base m]

lemma matched?_own (h : OrderlyRun T es) {n : NodeId}
    (hrole : ((after T es).nodes n).state.role = .leader) :
    ((after T es).nodes n).matched? n =
      some ((after T es).nodes n).log.lastIndex := by
  obtain ⟨leader, hleader, hown⟩ := (selfRecorded h).own n hrole
  rw [run_config] at hown
  rw [RaftNode.matched?, hleader, Option.bind_some, hown]

lemma exists_last_own (h : OrderlyRun T es) {n : NodeId}
    (hrole : ((after T es).nodes n).state.role = .leader) :
    let node := (after T es).nodes n
    ∃ e, node.log.get node.log.lastIndex = some e ∧ e.term = node.term := by
  intro node
  obtain ⟨htraced, hends⟩ := simulated_of_orderly T h
  have hsim := htraced.simulated
  obtain ⟨e, he, hterm⟩ := hends.leader n hrole
  rw [hsim.hist_eq hrole] at he
  have hlen := (List.getElem?_eq_some_iff.mp he).1
  have hlast : node.log.lastIndex = node.log.entries.length := by
    rw [(hsim.contiguous n).lastIndex_eq, hsim.base n, Nat.zero_add]
  refine ⟨e, ?_, hterm⟩
  rw [hlast, RaftLog.get_of_base (hsim.base n) (by change _ < node.log.entries.length at hlen; lia)]
  exact he

section

variable {n p : NodeId} {leader : LeaderState} (h : OrderlyRun T es)
  (htouch : InTouch T (after T es) n p)
  (hleader : ((after T es).nodes n).leaderState = some leader)

include h htouch hleader

lemma exchange_nodes :
    let c := after T es
    let c' := after T (es ++ exchangeEvents c n p leader)
    let answer := (c.nodes p).handleAppendEntries ((c.nodes n).appendRequestFor leader p) none
    c'.nodes n = (c.nodes n).handleAppendResponse p answer.2 ∧ c'.nodes p = answer.1 ∧
      ∀ q, q ≠ n → q ≠ p → c'.nodes q = c.nodes q := by
  intro c c' answer
  have hnodes := (run_exchangeEvents h htouch hleader).2
  refine ⟨?_, ?_, fun q hn hp => ?_⟩
  · rw [show c'.nodes = _ from hnodes, update_self]
  · rw [show c'.nodes = _ from hnodes, update_of_ne htouch.ne, update_self]
  · rw [show c'.nodes = _ from hnodes, update_of_ne hn, update_of_ne hp]

lemma exchange_keeps :
    let c := after T es
    Keeps n {p} c (after T (es ++ exchangeEvents c n p leader)) := by
  intro c
  obtain ⟨hn, hp, hothers⟩ := exchange_nodes h htouch hleader
  obtain ⟨hresponse, hterm⟩ := @answer_term _ (c.nodes p)
    ((c.nodes n).appendRequestFor leader p) htouch.term_le
  obtain ⟨commitIndex, heq⟩ := RaftNode.exists_handleAppendResponse_eq p htouch.leads hleader
    hresponse.le
  have hcommits := commitIndex_le (run_exchangeEvents h htouch hleader).1
    (List.prefix_append es _) n
  rw [heq] at hn
  refine ⟨by rw [hn]; exact htouch.leads, by rw [hn], by rw [hn], hcommits, ?_,
    fun q hq hne => hothers q hq (by simpa using hne), fun q hq => ?_⟩
  · intro q hq
    obtain rfl := Finset.mem_singleton.mp hq
    rw [hp]
    exact hterm
  · rw [hn, RaftNode.matched?, RaftNode.matched?, hleader, Option.bind_some, Option.bind_some]
    split
    · exact AList.lookup_insert_ne (by simpa using hq)
    · rfl

/-- A request that is refused moves the leader back by one. -/
lemma exchange_refused
    (hnot : ¬ ((after T es).nodes p).Accepts
      (((after T es).nodes n).appendRequestFor leader p)) :
    let c := after T es
    let c' := after T (es ++ exchangeEvents c n p leader)
    (c'.nodes n).nextOf p + 1 = (c.nodes n).nextOf p := by
  intro c c'
  obtain ⟨hn, -, -⟩ := exchange_nodes h htouch hleader
  obtain ⟨hresponse, -⟩ := @answer_term _ (c.nodes p)
    ((c.nodes n).appendRequestFor leader p) htouch.term_le
  obtain ⟨commitIndex, heq⟩ := RaftNode.exists_handleAppendResponse_eq p htouch.leads hleader
    hresponse.le
  have hfailed : ((c.nodes p).handleAppendEntries ((c.nodes n).appendRequestFor leader p)
      none).2.success = false := ((c.nodes p).handleAppendEntries_of_not_accepts none hnot).1
  -- a request from the first entry on is never refused for what is before it
  have hback : 1 ≤ (leader.nextIndex.lookup p).getD 1 - 1 := by
    by_contra hzero
    refine hnot ⟨htouch.term_le, .inl ?_⟩
    change (leader.nextIndex.lookup p).getD 1 - 1 = 0
    lia
  rw [heq, hfailed, if_neg Bool.false_ne_true] at hn
  rw [show c'.nodes n = _ from hn, RaftNode.nextOf, RaftNode.nextOf,
    show (c.nodes n).leaderState = _ from hleader, Option.bind_some, Option.bind_some,
    AList.lookup_insert, Option.getD_some]
  rw [max_eq_left hback]
  exact Nat.sub_add_cancel (hback.trans (Nat.sub_le _ _))

variable (haccepts : ((after T es).nodes p).Accepts
  (((after T es).nodes n).appendRequestFor leader p))

include haccepts

/-- A request that is accepted makes the log of `p` the leader's. -/
lemma exchange_same :
    let c := after T es
    let c' := after T (es ++ exchangeEvents c n p leader)
    (c'.nodes p).log.entries = (c.nodes n).log.entries := by
  intro c c'
  obtain ⟨-, hp, -⟩ := exchange_nodes h htouch hleader
  rw [show c'.nodes p = _ from hp, ((c.nodes p).handleAppendEntries_of_accepts none haccepts).2.2.1]
  -- seen from the moment when the request is under way
  have horderly : OrderlyRun T (es ++ [⟨n, .createAppendRequests, none⟩]) :=
    (run_exchangeEvents h htouch hleader).1.of_isPrefix _
      ((List.prefix_append_right_inj es).mpr ⟨_, rfl⟩)
  obtain ⟨hnodes, hsent⟩ := step_createAppendRequests (run_config T es n) htouch hleader
  rw [← after_snoc] at hnodes hsent
  obtain ⟨htraced, hends⟩ := simulated_of_orderly T horderly
  have hsim := htraced.simulated
  have hhist := @Simulated.hist_eq _ _ hsim n (by rw [hnodes]; exact htouch.leads)
  have hslice := (c.nodes n).sliceOf_appendRequestFor leader p
    (by rw [← show _ = c.nodes from hnodes]; exact hsim.base n)
  rw [hnodes] at hhist
  rw [← show _ = (c.nodes n).log.entries from hhist] at hslice ⊢
  have hmerge := hsim.mergeEntries_eq_hist hends (backed T horderly).safe hsent
    (by rw [hnodes]; exact haccepts) hslice
  rwa [hnodes] at hmerge

/-- What the leader hears back. -/
lemma exchange_acked :
    let c := after T es
    ((c.nodes p).handleAppendEntries ((c.nodes n).appendRequestFor leader p) none).2 =
      { term := (c.nodes n).term, success := true, matchIndex := (c.nodes n).log.lastIndex } := by
  intro c
  obtain ⟨-, hp, -⟩ := exchange_nodes h htouch hleader
  have hsame := exchange_same h htouch hleader haccepts
  have hbase := (simulated_of_orderly T (run_exchangeEvents h htouch hleader).1).1.simulated.base p
  dsimp only at hsame
  rw [hp] at hsame hbase
  rw [((c.nodes p).handleAppendEntries_of_accepts none haccepts).2.2.2.2]
  congr 1
  rw [RaftLog.lastIndex, hsame, hbase, RaftLog.lastIndex,
    (simulated_of_orderly T h).1.simulated.base n]

lemma exchange_told :
    let c := after T es
    let c' := after T (es ++ exchangeEvents c n p leader)
    (c.nodes n).state.commitIndex ≤ (c'.nodes p).state.commitIndex := by
  intro c c'
  obtain ⟨-, hp, -⟩ := exchange_nodes h htouch hleader
  have hacked := exchange_acked h htouch hleader haccepts
  obtain ⟨-, -, -, hcommit, hresponse⟩ := (c.nodes p).handleAppendEntries_of_accepts none haccepts
  have hlast := congrArg (·.matchIndex) (hresponse.symm.trans hacked)
  rw [show c'.nodes p = _ from hp, hcommit, show RaftLog.lastIndex _ = _ from hlast]
  split_ifs with hlater
  · exact le_min le_rfl (commitIndex_le_lastIndex h n)
  · exact not_lt.mp hlater

lemma exchange_decided :
    let c := after T es
    let c' := after T (es ++ exchangeEvents c n p leader)
    IsMajority T.members
        (T.members.filter fun q => (c'.nodes n).matched? q = some (c.nodes n).log.lastIndex) →
      (c.nodes n).log.lastIndex ≤ (c'.nodes n).state.commitIndex := by
  intro c c' hmajority
  obtain ⟨hn, -, -⟩ := exchange_nodes h htouch hleader
  have hacked := exchange_acked h htouch hleader haccepts
  dsimp only at hacked
  rw [hacked, RaftNode.handleAppendResponse_of_acked htouch.leads hleader] at hn
  -- the leader has recorded the acknowledgement, and with it the majority
  have hmatch : ∀ q, (c'.nodes n).matched? q =
      (leader.matchIndex.insert p (c.nodes n).log.lastIndex).lookup q := by
    intro q
    rw [show c'.nodes n = _ from hn]
    rfl
  rw [show c'.nodes n = _ from hn]
  refine RaftNode.le_tryAdvanceCommit rfl (AList.lookup_insert _) ?_
    (exists_last_own h htouch.leads)
  refine ((backed T h).commits.membership n).hasQuorum htouch.leader_mem (run_config T es n)
    (hmajority.mono (Finset.filter_subset _ _) fun q hq => ?_)
  obtain ⟨hq, hlast⟩ := Finset.mem_filter.mp hq
  rw [hmatch] at hlast
  exact Finset.mem_filter.mpr ⟨hq, LeaderState.mem_voters.mpr ⟨_, hlast, le_rfl⟩⟩

/-- A request that is accepted brings `p` up to date. -/
lemma exchange_caughtUp :
    let c := after T es
    CaughtUp T n {p} c (after T (es ++ exchangeEvents c n p leader)) := by
  intro c
  obtain ⟨hn, -, -⟩ := exchange_nodes h htouch hleader
  have hacked := exchange_acked h htouch hleader haccepts
  dsimp only at hacked
  rw [hacked, RaftNode.handleAppendResponse_of_acked htouch.leads hleader] at hn
  refine ⟨exchange_keeps h htouch hleader, ?_, ?_, ?_,
    fun _ => exchange_decided h htouch hleader haccepts⟩
  all_goals
    intro q hq
    obtain rfl := Finset.mem_singleton.mp hq
  · exact exchange_same h htouch hleader haccepts
  · rw [hn]
    exact AList.lookup_insert _
  · exact exchange_told h htouch hleader haccepts

end

/-! ### Catching up -/

/-- The events between a leader `n` and the nodes of `Q` by which it replicates its log. -/
def Replicates (n : NodeId) (Q : Finset NodeId) (e : Event) : Prop :=
  e.node ∈ insert n Q ∧ e.call.isReplication = true

omit [Crc32] [ConfigJson] in
lemma Replicates.mono {n : NodeId} {Q Q' : Finset NodeId} {e : Event} (h : Replicates n Q e)
    (hle : Q ⊆ Q') : Replicates n Q' e :=
  ⟨Finset.insert_subset_insert n hle h.1, h.2⟩

omit [ConfigJson] in
lemma exchangeEvents_replicates (c : Cluster) (n p : NodeId) (leader : LeaderState) :
    ∀ e ∈ exchangeEvents c n p leader, Replicates n {p} e := by
  simp [exchangeEvents, Replicates, Call.isReplication]

/-- However far back the leader has to go, in the end `p` accepts and has the leader's log. -/
lemma exists_caughtUp {n p : NodeId} (h : OrderlyRun T es)
    (htouch : InTouch T (after T es) n p) :
    ∃ more, (∀ e ∈ more, Replicates n {p} e) ∧ OrderlyRun T (es ++ more) ∧
      CaughtUp T n {p} (after T es) (after T (es ++ more)) := by
  -- every refusal takes the next index down by one
  induction hnext : ((after T es).nodes n).nextOf p generalizing es with
  | zero =>
    obtain ⟨leader, hleader, -⟩ := (selfRecorded h).own n htouch.leads
    refine ⟨_, exchangeEvents_replicates _ n p leader, (run_exchangeEvents h htouch hleader).1,
      exchange_caughtUp h htouch hleader ?_⟩
    by_contra hnot
    have := exchange_refused h htouch hleader hnot
    lia
  | succ k ih =>
    obtain ⟨leader, hleader, -⟩ := (selfRecorded h).own n htouch.leads
    obtain ⟨horderly, -⟩ := run_exchangeEvents h htouch hleader
    by_cases haccepts : ((after T es).nodes p).Accepts
        (((after T es).nodes n).appendRequestFor leader p)
    · exact ⟨_, exchangeEvents_replicates _ n p leader, horderly,
        exchange_caughtUp h htouch hleader haccepts⟩
    · have hkeeps := exchange_keeps h htouch hleader
      have hback := exchange_refused h htouch hleader haccepts
      obtain ⟨more, hreplicates, hmore, hcaught⟩ := ih horderly (htouch.of_keeps hkeeps)
        (by dsimp only at hback; lia)
      rw [List.append_assoc] at hmore hcaught
      refine ⟨_, ?_, hmore, hkeeps.trans_caughtUp hcaught⟩
      intro e he
      rcases List.mem_append.mp he with he | he
      · exact exchangeEvents_replicates _ n p leader e he
      · exact hreplicates e he

lemma exists_caughtUp_all {n : NodeId} (h : OrderlyRun T es)
    {Q : Finset NodeId} (hrole : ((after T es).nodes n).state.role = .leader)
    (htouch : ∀ p ∈ Q, InTouch T (after T es) n p) :
    ∃ more, (∀ e ∈ more, Replicates n Q e) ∧ OrderlyRun T (es ++ more) ∧
      CaughtUp T n Q (after T es) (after T (es ++ more)) := by
  -- one after the other: an exchange with one node keeps the others in touch
  induction Q using Finset.induction_on generalizing es with
  | empty =>
    refine ⟨[], by simp, by rwa [List.append_nil], ?_⟩
    rw [List.append_nil]
    exact ⟨⟨hrole, rfl, rfl, le_rfl, by simp, fun _ _ _ => rfl, fun _ _ => rfl⟩, by simp, by simp,
      by simp, by simp⟩
  | insert p Q hp ih =>
    have htouch₀ := htouch p (Finset.mem_insert_self p Q)
    obtain ⟨first, hfirst, horderly, hcaught⟩ := exists_caughtUp h htouch₀
    obtain ⟨rest, hrest, hmore, hcaught'⟩ := ih horderly hcaught.leads fun q hq =>
      (htouch q (Finset.mem_insert_of_mem hq)).of_keeps hcaught.toKeeps
    rw [List.append_assoc] at hmore hcaught'
    refine ⟨first ++ rest, ?_, hmore, hcaught.insert hcaught' hp htouch₀.ne⟩
    intro e he
    rcases List.mem_append.mp he with he | he
    · exact (hfirst e he).mono (by simp)
    · exact (hrest e he).mono (Finset.subset_insert p Q)

/-- **A majority goes on.** From every state of an orderly run: a leader and others that are not in
later terms, together a majority, have among themselves a continuation after which each of them has
the leader's log and has committed all of it. Nobody else has to take part. -/
theorem majority_commits (T : Topology) (es : List Event)
    (h : OrderlyRun T es) {n : NodeId} {Q : Finset NodeId}
    (hrole : ((after T es).nodes n).state.role = .leader)
    (hmajority : IsMajority T.members (insert n Q)) (hQ : Q.Nonempty) (hn : n ∉ Q)
    (hterm : ∀ q ∈ Q, ((after T es).nodes q).term ≤
      ((after T es).nodes n).term) :
    let c := after T es
    ∃ more, (∀ e ∈ more, Replicates n Q e) ∧ OrderlyRun T (es ++ more) ∧
      ∀ q ∈ insert n Q, let q' := (after T (es ++ more)).nodes q
        q'.log.entries = (c.nodes n).log.entries ∧
          q'.state.commitIndex = (c.nodes n).log.lastIndex := by
  intro c
  have htouch : ∀ p ∈ Q, InTouch T c n p := fun p hp =>
    ⟨hrole, hmajority.subset (Finset.mem_insert_self n Q),
      hmajority.subset (Finset.mem_insert_of_mem hp), fun heq => hn (heq ▸ hp), hterm p hp⟩
  obtain ⟨first, hfirst, horderly, hcaught⟩ := exists_caughtUp_all h hrole htouch
  -- after the first pass the leader has committed everything, after the second all know
  obtain ⟨second, hsecond, horderly', hcaught'⟩ := exists_caughtUp_all horderly hcaught.leads
    fun p hp => (htouch p hp).of_keeps hcaught.toKeeps
  have hdecided : (c.nodes n).log.lastIndex ≤
      ((after T (es ++ first)).nodes n).state.commitIndex := by
    refine hcaught.decided hQ (hmajority.mono (Finset.filter_subset _ _) fun q hq => ?_)
    refine Finset.mem_filter.mpr ⟨hmajority.subset hq, ?_⟩
    rcases Finset.mem_insert.mp hq with rfl | hq
    · rw [hcaught.matched q hn]
      exact matched?_own h hrole
    · exact hcaught.acked q hq
  have hlog : ∀ q ∈ insert n Q, ((after T (es ++ first ++ second)).nodes
      q).log.entries = (c.nodes n).log.entries := by
    refine (Finset.forall_mem_insert _ _ _).mpr ⟨?_, fun q hq => ?_⟩
    · rw [hcaught'.log, hcaught.log]
    · rw [hcaught'.same q hq, hcaught.log]
  have hcommit : ∀ q ∈ insert n Q, (c.nodes n).log.lastIndex ≤
      ((after T (es ++ first ++ second)).nodes q).state.commitIndex := by
    refine (Finset.forall_mem_insert _ _ _).mpr ⟨?_, fun q hq => ?_⟩
    · exact hdecided.trans hcaught'.commits
    · exact hdecided.trans (hcaught'.told q hq)
  rw [List.append_assoc] at horderly' hlog hcommit
  refine ⟨first ++ second, fun e he => ?_, horderly', fun q hq => ⟨hlog q hq, ?_⟩⟩
  · exact (List.mem_append.mp he).elim (hfirst e) (hsecond e)
  · refine le_antisymm ((commitIndex_le_lastIndex horderly' q).trans_eq ?_) (hcommit q hq)
    exact lastIndex_eq_of_entries_eq horderly' h (hlog q hq)

end

end Cluster

/-! ### Runs -/

namespace Cluster

open scoped Runs

/-- Node 2 leads the second term, and node 3 has nothing of that term yet. -/
theorem majority_commits_newLeader :
    let c := after .three newLeader
    (c.nodes 3).log.lastIndex = 1 ∧ (c.nodes 2).log.lastIndex = 2 ∧
      ∃ more, Along (step .three) Orderly (init .three) (newLeader ++ more) ∧
        let c' := after .three (newLeader ++ more)
        (c'.nodes 3).log.entries = (c.nodes 2).log.entries ∧
          (c'.nodes 3).state.commitIndex = 2 := by
  have horderly : Along (step .three) Orderly (init .three) newLeader := by decide +kernel
  have hlast : ((after .three newLeader).nodes 2).log.lastIndex = 2 := by
    decide +kernel
  refine ⟨by decide +kernel, hlast, ?_⟩
  obtain ⟨more, -, hmore, hall⟩ := majority_commits .three newLeader horderly
    (by decide +kernel : ((after .three newLeader).nodes 2).state.role = .leader)
    (⟨by decide, by decide⟩ : IsMajority Topology.three.members (insert 2 {3})) (by decide)
    (by decide) (by decide +kernel)
  obtain ⟨hlog, hcommit⟩ := hall 3 (by decide)
  exact ⟨more, hmore, hlog, hcommit.trans hlast⟩

end Cluster

end Raftrust.Consensus

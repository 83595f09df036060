import Raftrust.Consensus.LeaderCompleteness

/-!
# State machine safety

A leader commits what a majority has acknowledged. Acknowledgements carry the term they were given
in, but the handler takes them at their word in every later term, just as it takes votes. Where
votes and acknowledgements are only counted in the term they were given in, committed entries are
the same on all nodes.
-/

namespace Raftrust.Consensus

open Lib Storage Function

/-- The acknowledgement a call delivers. -/
def Call.acknowledgement : Call → Option AppendResponse
  | appendResponse _ response => some response
  | _ => none

/-- An acknowledgement that a leader counts was given in its own term. -/
def RaftNode.CountsOwnAcks (n : RaftNode) (call : Call) : Prop :=
  ∀ response ∈ call.acknowledgement, n.state.role = .leader → response.success = true →
    response.term ≤ n.term → response.term = n.term
  deriving Decidable

namespace Cluster

/-- No snapshots, no failing writes, no membership changes, and votes and acknowledgements count
only in the term they were given in. -/
def Orderly (c : Cluster) (e : Event) : Prop :=
  Plain c e ∧ e.call.isMembershipChange = false ∧ c.CountsOwnVotes e ∧
    (c.nodes e.node).CountsOwnAcks e.call
  deriving Decidable

/-- All events are orderly when they happen. -/
abbrev OrderlyRun [Crc32] [ConfigJson] (T : Topology) (es : List Event) : Prop :=
  Along (step T) Orderly (init T) es

/-- Everything that is counted or committed has been accepted by those it is said of. -/
structure CommitsBacked (T : Topology) (A : Ghost) (c : Cluster) : Prop where
  membership : ∀ n, (c.nodes n).FixedMembership
  acknowledged : ∀ target sender response,
    Packet.appendResponse target sender response ∈ c.network → response.success = true →
      response.matchIndex ≤ A.acc sender response.term
  matched : ∀ n leader p i, (c.nodes n).state.role = .leader →
    (c.nodes n).leaderState = some leader → leader.matchIndex.lookup p = some i →
      i ≤ A.acc p (c.nodes n).term
  committed : ∀ n, A.CommittedUpTo LogEntry.term T.members (c.nodes n).state.commitIndex (A.log n)
    (c.nodes n).term
  request : ∀ target request, Packet.appendRequest target request ∈ c.network →
    ∃ L, A.CommittedUpTo LogEntry.term T.members request.leaderCommit L request.term

lemma CommitsBacked.init (T : Topology) : CommitsBacked T Replication.init (init T) where
  membership := fun _ => ⟨rfl, rfl⟩
  acknowledged := by simp [Cluster.init]
  matched := by simp [Cluster.init, freshNode]
  committed := fun _ => .inl rfl
  request := by simp [Cluster.init]

/-! ### One call -/

section

variable {T : Topology} {A : Ghost} {c : Cluster} (h : Simulated A c) {k : NodeId}
  (hk : k ∈ T.members) (hmember : (c.nodes k).FixedMembership)
  (hconfig : (c.nodes k).config = { id := k, peers := T.peers k })
  (hrole : (c.nodes k).state.role = .leader) {leader : LeaderState}
  (hmatched : ∀ p i, leader.matchIndex.lookup p = some i → i ≤ A.acc p (c.nodes k).term)
  {i : LogIndex} (hq : (c.nodes k).membership.hasQuorum (leader.voters i) = true) {e : LogEntry}
  (he : (c.nodes k).log.get i = some e) (hterm : e.term = (c.nodes k).term)

include h hk hmember hconfig hrole hmatched hq he hterm

/-- A leader that finds a quorum for an entry of its own term has a majority that accepted it. -/
lemma Simulated.chosen_of_quorum :
    0 < i ∧ A.Chosen LogEntry.term T.members (c.nodes k).term (i - 1) := by
  have hpos : 0 < i := by
    rcases Nat.eq_zero_or_pos i with rfl | hpos
    · simp [RaftLog.get] at he
    · exact hpos
  rw [RaftLog.get_of_base (h.base k) hpos, ← h.hist_eq hrole] at he
  refine ⟨hpos, ⟨e, he, hterm⟩, _, hmember.isMajority hk hconfig hq, ?_⟩
  intro v hv
  obtain ⟨j, hj, hle⟩ := LeaderState.mem_voters.mp (Finset.mem_filter.mp hv).2
  have := hmatched v j hj
  lia

lemma Simulated.committed_of_quorum :
    A.CommittedUpTo LogEntry.term T.members i (A.log k) (c.nodes k).term := by
  obtain ⟨hpos, hchosen⟩ := h.chosen_of_quorum hk hmember hconfig hrole hmatched hq he hterm
  refine .inr ⟨(c.nodes k).term, i - 1, hchosen, by lia, le_rfl, ?_⟩
  rw [h.hist_eq hrole, h.log k]
  exact List.take_prefix _ _

end

section

variable [Crc32] [ConfigJson] {T : Topology} {A A' : Ghost} {c : Cluster} {k : NodeId} {call : Call}

variable (h : CommitsBacked T A c) (hsim : Simulated A c) (hends : OwnEnds A c)
  (hsafe : A.Safe LogEntry.term EntryAt T.members) (hk : k ∈ T.members)
  (hconfig : (c.nodes k).config = { id := k, peers := T.peers k })
  (hpacket : ∀ p ∈ call.packet k, p ∈ c.network) (hsnap : call.isSnapshot = false)
  (hmember : call.isMembershipChange = false) (hacks : (c.nodes k).CountsOwnAcks call)
  (hghost : A' = ghostStep A k call (c.nodes k) ((c.nodes k).execute none call).1)
  (hgrows : A.Grows A') (hsim' : Simulated A' (c.perform k none call))

include h hmember in
lemma CommitsBacked.membership_perform (m : NodeId) :
    ((c.perform k none call).nodes m).FixedMembership := by
  rcases eq_or_ne m k with rfl | hm
  · rw [put_nodes_self]
    exact (h.membership m).of_eq ((c.nodes m).execute_config none call)
      ((c.nodes m).execute_membership none hmember)
  · rw [put_nodes_of_ne c hm]
    exact h.membership m

include h hconfig hghost hgrows hsim' in
lemma CommitsBacked.acknowledged_perform {target sender : NodeId} {response : AppendResponse}
    (hmem : Packet.appendResponse target sender response ∈ (c.perform k none call).network)
    (hs : response.success = true) :
    response.matchIndex ≤ A'.acc sender response.term := by
  rcases mem_network_put.mp hmem with hmem | hmem
  · exact (h.acknowledged target sender response hmem hs).trans (hgrows.acc_le _ _)
  · obtain ⟨request, rfl, haccepts, rfl, hterm, hindex⟩ :=
      (c.nodes k).appendResponse_of_sent none hmem hs
    obtain ⟨hrole, hnow, -⟩ := (c.nodes k).handleAppendEntries_of_accepts none haccepts
    change ((c.nodes k).execute none (.appendEntries request)).1.state.role = _ at hrole
    change ((c.nodes k).execute none (.appendEntries request)).1.term = request.term at hnow
    -- the node has accepted exactly what it reports
    have hlast := hsim'.lastIndex k
    rw [ghostStep_of_accepts A k hrole haccepts] at hghost
    rw [put_nodes_self, hghost] at hlast
    rw [hindex, hlast, hterm, hconfig, hghost, hnow]
    simp

include h hsim hconfig hpacket hsnap hacks hghost hgrows hsim' in
lemma CommitsBacked.matched_perform (m : NodeId) (leader : LeaderState) (p : NodeId) (i : LogIndex)
    (hrole : ((c.perform k none call).nodes m).state.role = .leader)
    (hleader : ((c.perform k none call).nodes m).leaderState = some leader)
    (hp : leader.matchIndex.lookup p = some i) :
    i ≤ A'.acc p ((c.perform k none call).nodes m).term := by
  rcases eq_or_ne m k with rfl | hm
  swap
  · rw [put_nodes_of_ne c hm] at hrole hleader ⊢
    exact (h.matched m leader p i hrole hleader hp).trans (hgrows.acc_le _ _)
  have hlast := hsim'.lastIndex m
  rw [put_nodes_self] at hrole hleader hlast ⊢
  have hterm := (((c.nodes m).execute_roleEffect none call).leader_cases hrole).1
  rw [hterm]
  cases (c.nodes m).execute_matchesFrom none call hrole leader hleader p i hp with
  | kept leader₀ hr hl hlookup =>
    exact (h.matched m leader₀ p i hr hl hlookup).trans (hgrows.acc_le _ _)
  | own hp' hi =>
    -- a leader has accepted all of its own log
    obtain rfl : p = m := by rw [hp', hconfig]
    rw [hi, hlast]
    cases (c.nodes p).execute_logMove none hsnap with
    | led es role _ _ entries =>
      rw [hghost, ghostStep_of_leader A p role entries, ← hsim.cur p]
      simp
    | accepted _ _ _ role => simp [role] at hrole
    | raised role => exact absurd hrole role
  | start hi =>
    rw [hi]
    exact Nat.zero_le _
  | acknowledged response hcall hr hs ht hi =>
    subst hcall
    have hack := h.acknowledged m p response (hpacket _ rfl) hs
    rw [hacks response rfl hr hs ht] at hack
    rw [hi]
    exact hack.trans (hgrows.acc_le _ _)

include hsim hends hsafe hpacket in
/-- What an accepted request leaves is part of the leader's log. -/
lemma Simulated.execute_accepts {request : AppendRequest} (hcall : call = .appendEntries request)
    (haccepts : (c.nodes k).Accepts request) :
    ((c.nodes k).execute none call).1.term = request.term ∧
      ((c.nodes k).execute none call).1.log.entries <+: A.hist request.term ∧
      A.leader request.term ≠ none ∧
      (((c.nodes k).execute none call).1.log.entries = A.log k ∨
        ¬ ((c.nodes k).execute none call).1.log.entries <+: A.log k) := by
  subst hcall
  obtain ⟨-, hnow, hmerge, -⟩ := (c.nodes k).handleAppendEntries_of_accepts none haccepts
  obtain ⟨hp, -, -, hkeep⟩ := hsim.adopt_conditions hends hsafe (hpacket _ rfl) haccepts
  have hl := (hsim.request k request (hpacket _ rfl)).1
  rw [← hmerge] at hp hkeep
  exact ⟨hnow, hp, by simp [hl], hkeep⟩

include h hsim hends hsafe hk hconfig hpacket hsnap hmember hacks hghost hgrows hsim' in
lemma CommitsBacked.committed_perform (m : NodeId) :
    A'.CommittedUpTo LogEntry.term T.members ((c.perform k none call).nodes m).state.commitIndex
      (A'.log m) ((c.perform k none call).nodes m).term := by
  have hlog := hsim'.log m
  have hold := h.committed m
  rcases eq_or_ne m k with rfl | hm
  swap
  · rw [put_nodes_of_ne c hm] at hlog ⊢
    rw [hlog, ← hsim.log m]
    exact hold.mono hgrows le_rfl (List.take_prefix _ _)
  have hterm := (c.nodes m).execute_term_le none call
  have hquorum := Simulated.committed_of_quorum hsim' hk (h.membership_perform hmember m)
    (by rw [put_nodes_self, RaftNode.execute_config, hconfig])
  have hmatched := h.matched_perform hsim hconfig hpacket hsnap hacks hghost hgrows hsim' m
  rw [put_nodes_self] at hlog hmatched hquorum ⊢
  cases (c.nodes m).execute_commitEffect none hsnap with
  | kept hcommit =>
    rw [hcommit]
    cases (c.nodes m).execute_logMove none hsnap with
    | led es _ _ _ entries =>
      apply hold.mono hgrows hterm
      rw [hlog, entries, ← hsim.log m]
      exact (List.take_prefix _ _).trans (List.prefix_append _ _)
    | accepted request hcall haccepts =>
      obtain ⟨hnow, hp, hl, hkeep⟩ := hsim.execute_accepts hends hsafe hpacket hcall haccepts
      rw [hlog, hnow]
      rw [hnow] at hterm
      exact (hold.adopt hsafe hterm hl hp hkeep).mono hgrows le_rfl (List.take_prefix _ _)
    | raised _ _ _ hsame =>
      apply hold.mono hgrows hterm
      rw [hlog, hsame, ← hsim.log m]
      exact List.take_prefix _ _
  -- what a follower commits on is a prefix of the leader's log
  | followed request hcall haccepts hcommit =>
    obtain ⟨hnow, hp, hl, -⟩ := hsim.execute_accepts hends hsafe hpacket hcall haccepts
    subst hcall
    obtain ⟨L, hL⟩ := h.request m request (hpacket _ rfl)
    have hlast := hsim'.lastIndex m
    rw [put_nodes_self, hlog] at hlast
    rw [hcommit, hlast, hlog, hnow]
    have htake := (List.prefix_iff_eq_take.mp hp).symm
    refine (hL.of_hist hsafe hl ?_).mono hgrows le_rfl (List.take_prefix _ _)
    rw [htake]
  -- a quorum has accepted it in the leader's term
  | advanced leader hrole hleader hq hown =>
    obtain ⟨e, he, hterm'⟩ := hown
    exact hquorum hrole (fun p i => hmatched leader p i hrole hleader) hq he hterm'

include h hgrows in
lemma CommitsBacked.request_perform {target : NodeId} {request : AppendRequest}
    (hmem : Packet.appendRequest target request ∈ (c.perform k none call).network) :
    ∃ L, A'.CommittedUpTo LogEntry.term T.members request.leaderCommit L request.term := by
  rcases mem_network_put.mp hmem with hmem | hmem
  · obtain ⟨L, hL⟩ := h.request target request hmem
    exact ⟨L, hL.mono hgrows le_rfl (List.take_prefix _ _)⟩
  · obtain ⟨-, -, -, leader, -, rfl⟩ := (c.nodes k).appendRequest_of_sent none hmem
    exact ⟨A.log k, (h.committed k).mono hgrows le_rfl (List.take_prefix _ _)⟩

include h hsim hends hsafe hk hconfig hpacket hsnap hmember hacks hghost hgrows hsim' in
lemma CommitsBacked.perform : CommitsBacked T A' (c.perform k none call) where
  membership := h.membership_perform hmember
  acknowledged := fun _ _ _ => h.acknowledged_perform hconfig hghost hgrows hsim'
  matched := h.matched_perform hsim hconfig hpacket hsnap hacks hghost hgrows hsim'
  committed := h.committed_perform hsim hends hsafe hk hconfig hpacket hsnap hmember hacks hghost
    hgrows hsim'
  request := fun _ _ => h.request_perform hgrows

end

/-! ### Whole runs -/

section

variable [Crc32] [ConfigJson]

/-- The cluster is in the abstract state of the run, and that state is safe. -/
structure Backed (T : Topology) (es : List Event) : Prop where
  safe : (ghost T es).Safe LogEntry.term EntryAt T.members
  votes : VotesCovered T (ghost T es) (after T es)
  commits : CommitsBacked T (ghost T es) (after T es)

lemma Backed.safe_snoc {T : Topology} {es : List Event} {e : Event} (ih : Backed T es)
    (hsnoc : OrderlyRun T (es ++ [e])) :
    (ghost T (es ++ [e])).Safe LogEntry.term EntryAt T.members ∧
      (ghost T es).Grows (ghost T (es ++ [e])) := by
  obtain ⟨k, call, fault⟩ := e
  have hunique : UniqueLeaders T (es ++ [⟨k, call, fault⟩]) :=
    uniqueLeaders T (hsnoc.mono (step T) fun _ _ h => h.2.2.1)
  obtain ⟨hes, ⟨hsnap, hfault⟩, -, hown, -⟩ := (along_snoc _ _ _ _ _).mp hsnoc
  obtain rfl : fault = none := hfault
  have hplain : Along (step T) Plain (init T) es := hes.mono (step T) fun _ _ h => h.1
  have hunique' := hunique.of_isPrefix (List.prefix_append es _)
  have htraced := traced T (hplain.mono (step T) fun _ _ h => h.1) hunique'
  obtain ⟨voted, hrec, -⟩ := electedSoFar T (hes.mono (step T) fun _ _ h => h.2.2.1)
  rcases ghost_snoc_cases T es ⟨k, call, none⟩ with ⟨-, hghost⟩ | ⟨henabled, -, hghost⟩
  · rw [hghost]
    exact ⟨ih.safe, .refl _⟩
  · rw [hghost]
    -- a new leader is unique in its term, and its votes cover what is committed
    have hleads := fun hr => leadsIn_snoc henabled hr
    exact htraced.simulated.safe_ghostStep (ownEnds T hplain hunique') ih.safe henabled.2 hsnap
      (fun hr => by
        obtain ⟨hrole, hterm⟩ := hleads hr
        exact hterm ▸ (positiveTerms T (es ++ [⟨k, call, none⟩])).leader _ hrole)
      (fun hr m => htraced.unique hunique henabled hr)
      fun hold hnew => ih.votes.elected hrec henabled.1 henabled.2 hown hold hnew

/-- The run is simulated, and every log ends in an entry of its leader's own term where that
matters. -/
lemma simulated_of_orderly (T : Topology) {es : List Event}
    (h : OrderlyRun T es) :
    Traced T es ∧ OwnEnds (ghost T es) (after T es) := by
  have hplain : Along (step T) Plain (init T) es := h.mono (step T) fun _ _ h => h.1
  have hunique := uniqueLeaders T (h.mono (step T) fun _ _ h => h.2.2.1)
  exact ⟨traced T (hplain.mono (step T) fun _ _ h => h.1) hunique, ownEnds T hplain hunique⟩

lemma backed (T : Topology) {es : List Event} (h : OrderlyRun T es) :
    Backed T es := by
  refine run_invariant (step T) (Backed T) ?_ ?_ h
  · exact ⟨Replication.Safe.init, VotesCovered.init T, CommitsBacked.init T⟩
  · rintro es ⟨k, call, fault⟩ hes ih he
    have hsnoc := (along_snoc _ _ _ _ _).mpr ⟨hes, he⟩
    obtain ⟨hsafe, hgrows⟩ := ih.safe_snoc hsnoc
    obtain ⟨htraced, hends⟩ := simulated_of_orderly T hes
    have hsim' := (simulated_of_orderly T hsnoc).1.simulated
    obtain ⟨⟨hsnap, hfault⟩, hmember, hown, hacks⟩ := he
    obtain rfl : fault = none := hfault
    refine ⟨hsafe, ?_, ?_⟩
    all_goals
      rcases ghost_snoc_cases T es ⟨k, call, none⟩ with ⟨heq, hghost⟩ | ⟨henabled, heq, hghost⟩
    · rw [heq, hghost]
      exact ih.votes
    · rw [hghost] at hsafe hgrows
      rw [heq, hghost] at hsim' ⊢
      exact ih.votes.perform htraced.simulated ih.safe (run_config T es k) henabled.2 hsnap hown
        hsafe hgrows hsim'
    · rw [heq, hghost]
      exact ih.commits
    · rw [hghost] at hgrows
      rw [heq, hghost] at hsim' ⊢
      exact ih.commits.perform htraced.simulated hends ih.safe henabled.1 (run_config T es k)
        henabled.2 hsnap hmember hacks rfl hgrows hsim'

/-- **State machine safety.** In every run in which votes and acknowledgements are only counted in
the term they were given in, two nodes that have both committed an index hold the same entry
there. -/
theorem committed_entries_eq (T : Topology) (es : List Event)
    (h : OrderlyRun T es) {n m : NodeId} {i : LogIndex} (hi : 1 ≤ i)
    (hn : i ≤ ((after T es).nodes n).state.commitIndex)
    (hm : i ≤ ((after T es).nodes m).state.commitIndex) :
    ∃ e, ((after T es).nodes n).log.get i = some e ∧
      ((after T es).nodes m).log.get i = some e := by
  have hbacked := backed T h
  have hsim := (simulated_of_orderly T h).1.simulated
  have hcn := hbacked.commits.committed n
  have heq := hbacked.safe.committed_agree hcn (hbacked.commits.committed m)
    (j := i - 1) (by lia) (by lia)
  rw [RaftLog.get_of_base (hsim.base n) hi, RaftLog.get_of_base (hsim.base m) hi, ← hsim.log,
    ← hsim.log, ← heq]
  obtain ⟨e, he⟩ := hcn.exists_getElem? (j := i - 1) (by lia)
  exact ⟨e, he, he⟩

end

end Cluster

/-! ### Two runs -/

namespace Cluster

open scoped Runs

/-- Node 1 is elected, replicates its no-op to node 2 and commits it; node 2 hears of it. -/
def plainCommit : List Event :=
  plainReplication ++
  [⟨1, .appendResponse 2 ⟨1, true, 1⟩, none⟩, ⟨1, .createAppendRequests, none⟩,
    ⟨2, .appendEntries ⟨1, 1, 1, 1, [], 1⟩, none⟩]

theorem committed_entries_eq_plainCommit :
    let c := after .three plainCommit
    Along (step .three) Orderly (init .three) plainCommit ∧
      (c.nodes 1).state.commitIndex = 1 ∧ (c.nodes 2).state.commitIndex = 1 ∧
      ∃ e, (c.nodes 1).log.get 1 = some e ∧ (c.nodes 2).log.get 1 = some e := by
  have horderly : Along (step .three) Orderly (init .three) plainCommit := by decide +kernel
  refine ⟨horderly, by decide +kernel, by decide +kernel, ?_⟩
  exact committed_entries_eq .three _ horderly le_rfl (by decide +kernel) (by decide +kernel)

/-- Node 2 votes for node 3 in term 1, but node 3 goes on to term 3. Meanwhile node 1 is elected in
term 2 and commits its no-op with node 2. Then the late vote makes node 3 leader of term 3, with an
empty log, and it commits a no-op of its own with node 2. -/
def lateVoteCommits : List Event :=
  [⟨3, .startElection, none⟩, ⟨2, .voteRequest ⟨1, 3, 0, 0, false⟩, none⟩,
    ⟨3, .startElection, none⟩, ⟨3, .startElection, none⟩,
    ⟨1, .startElection, none⟩, ⟨1, .startElection, none⟩,
    ⟨2, .voteRequest ⟨2, 1, 0, 0, false⟩, none⟩, ⟨1, .voteResponse 2 ⟨2, true⟩ false, none⟩,
    ⟨1, .createAppendRequests, none⟩,
    ⟨2, .appendEntries ⟨2, 1, 0, 0, [⟨1, 2, [], .noop⟩], 0⟩, none⟩,
    ⟨1, .appendResponse 2 ⟨2, true, 1⟩, none⟩,
    ⟨3, .voteResponse 2 ⟨1, true⟩ false, none⟩, ⟨3, .createAppendRequests, none⟩,
    ⟨2, .appendEntries ⟨3, 3, 0, 0, [⟨1, 3, [], .noop⟩], 0⟩, none⟩,
    ⟨3, .appendResponse 2 ⟨3, true, 1⟩, none⟩]

/-- Every term has one leader, and yet nodes 1 and 3 have committed different entries. -/
theorem lateVoteCommits_differ :
    UniqueLeaders .three lateVoteCommits ∧
      Along (step .three) Plain (init .three) lateVoteCommits ∧
      let c := after .three lateVoteCommits
      (c.nodes 1).state.commitIndex = 1 ∧ (c.nodes 3).state.commitIndex = 1 ∧
        (c.nodes 1).log.get 1 = some ⟨1, 2, [], .noop⟩ ∧
        (c.nodes 3).log.get 1 = some ⟨1, 3, [], .noop⟩ := by
  refine ⟨?_, by decide +kernel, by decide +kernel⟩
  exact .of_leaders .three [1, 2, 3] (by decide) [(1, 2), (3, 3)] (by decide +kernel)
    (by decide)

end Cluster

end Raftrust.Consensus

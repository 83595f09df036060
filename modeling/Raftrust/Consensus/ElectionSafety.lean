import Raftrust.Consensus.Votes
import Raftrust.Lib.Quorum

/-!
# Election safety

A leader is elected by a majority that voted for it in its term, as long as every vote that is
counted was given in the election it is counted for. The handler does not check this: it counts a
late vote of an earlier term, or a pre-vote, like any other.
-/

namespace Raftrust.Consensus

open Lib Storage Function

/-- A vote that is counted belongs to the present election: a pre-vote to a pre-vote phase, a vote
to the candidacy in the term it was given in. -/
def RaftNode.CountsOwnVotes (n : RaftNode) (call : Call) : Prop :=
  ∀ vote ∈ call.vote, vote.1.voteGranted = true → vote.1.term ≤ n.term →
    n.electionState.isSome = true →
      if vote.2 then n.state.role = .preCandidate
      else n.state.role = .candidate ∧ vote.1.term = n.term
  deriving Decidable

lemma RaftNode.CountsOwnVotes.of_candidate {n : RaftNode} {sender : NodeId}
    {response : VoteResponse} {wasPreVote : Bool} {election : ElectionState}
    (h : n.CountsOwnVotes (.voteResponse sender response wasPreVote))
    (hterm : response.term ≤ n.term) (hg : response.voteGranted = true)
    (helection : n.electionState = some election) (hcand : n.state.role = .candidate) :
    wasPreVote = false ∧ response.term = n.term := by
  have hown := h _ rfl hg hterm (by simp [helection])
  cases wasPreVote with
  | true => simp [hcand] at hown
  | false => exact ⟨rfl, hown.2⟩

lemma RaftNode.CountsOwnVotes.candidate {n : RaftNode} {sender : NodeId}
    {response : VoteResponse} {election : ElectionState}
    (h : n.CountsOwnVotes (.voteResponse sender response false))
    (hterm : response.term ≤ n.term) (hg : response.voteGranted = true)
    (helection : n.electionState = some election) : n.state.role = .candidate :=
  (h _ rfl hg hterm (by simp [helection])).1

lemma Topology.length_peers (T : Topology) {n : NodeId} (h : n ∈ T.members) :
    (T.peers n).length + 1 = T.members.card := by
  have heq : (T.peers n).toFinset = T.members.erase n := by
    ext m
    simp [T.mem_peers n h, and_comm]
  rw [← List.toFinset_card_of_nodup (T.nodup_peers n h), heq, Finset.card_erase_add_one h]

namespace Cluster

/-- A vote counts only for the election it was given in. -/
def CountsOwnVotes (c : Cluster) (e : Event) : Prop :=
  (c.nodes e.node).CountsOwnVotes e.call
  deriving Decidable

/-! ### Votes and majorities -/

/-- Who voted for whom in which term. -/
abbrev VoteRecord := NodeId → Term → Option NodeId

/-- A majority voted for `n` in term `t`. -/
def Elected (T : Topology) (voted : VoteRecord) (n : NodeId) (t : Term) : Prop :=
  ∃ Q, IsMajority T.members Q ∧ ∀ v ∈ Q, voted v t = some n

/-- Later records keep every vote. -/
def VoteRecord.Extends (voted' voted : VoteRecord) : Prop :=
  ∀ v t c, voted v t = some c → voted' v t = some c

lemma Elected.mono {T : Topology} {voted voted' : VoteRecord} {n : NodeId} {t : Term}
    (h : Elected T voted n t) (hext : voted'.Extends voted) : Elected T voted' n t := by
  obtain ⟨Q, hQ, hv⟩ := h
  exact ⟨Q, hQ, fun v hvQ => hext v t n (hv v hvQ)⟩

lemma Elected.unique {T : Topology} {voted : VoteRecord} {n m : NodeId} {t : Term}
    (h : Elected T voted n t) (h' : Elected T voted m t) : n = m := by
  obtain ⟨Q, hQ, hv⟩ := h
  obtain ⟨Q', hQ', hv'⟩ := h'
  obtain ⟨v, hvQ, hvQ'⟩ := hQ.exists_mem_mem hQ'
  have := (hv v hvQ).symm.trans (hv' v hvQ')
  exact Option.some.inj this

/-- The nodes and the network agree with the record of votes. -/
structure VotesRecorded (T : Topology) (voted : VoteRecord) (c : Cluster) : Prop where
  voted_term : ∀ v, voted v (c.nodes v).term = (c.nodes v).state.persistent.votedFor
  voted_later : ∀ v t, (c.nodes v).term < t → voted v t = none
  granted : ∀ target sender response,
    Packet.voteResponse target sender response false ∈ c.network → response.voteGranted = true →
      sender ∈ T.members ∧ voted sender response.term = some target
  candidate : ∀ n election, n ∈ T.members → (c.nodes n).state.role = .candidate →
    (c.nodes n).electionState = some election →
      election.votesNeeded = T.members.card / 2 + 1 ∧
        ∀ v ∈ election.votesReceived, v ∈ T.members ∧ voted v (c.nodes n).term = some n
  leader : ∀ n, (c.nodes n).state.role = .leader → Elected T voted n (c.nodes n).term

lemma VotesRecorded.init (T : Topology) : VotesRecorded T (fun _ _ => none) (init T) where
  voted_term := fun _ => rfl
  voted_later := fun _ _ _ => rfl
  granted := by simp [Cluster.init]
  candidate := by simp [Cluster.init, freshNode]
  leader := by simp [Cluster.init, freshNode]

/-! ### One call -/

section

variable {T : Topology} {voted : VoteRecord} {c : Cluster}

/-- The record after a node changed to `n'`. -/
def VoteRecord.vote (voted : VoteRecord) (k : NodeId) (n' : RaftNode) : VoteRecord :=
  update voted k (update (voted k) n'.term n'.state.persistent.votedFor)

lemma VoteRecord.vote_self (voted : VoteRecord) (k : NodeId) (n' : RaftNode) :
    voted.vote k n' k n'.term = n'.state.persistent.votedFor := by
  simp [VoteRecord.vote]

lemma VotesRecorded.extends_vote (h : VotesRecorded T voted c) {k : NodeId} {n' : RaftNode}
    (hadv : (c.nodes k).state.persistent.Advances n'.state.persistent) :
    (voted.vote k n').Extends voted := by
  intro v t d hd
  rcases eq_or_ne v k with rfl | hv
  · rcases eq_or_ne t n'.term with rfl | ht
    · simp only [VoteRecord.vote, update_self]
      rcases hadv.term_le.lt_or_eq with hlt | heq
      · rw [h.voted_later v n'.term hlt] at hd
        cases hd
      · apply hadv.votedFor heq
        rw [← h.voted_term v]
        exact (congrArg (voted v) heq).trans hd
    · simpa [VoteRecord.vote, update_of_ne ht] using hd
  · simpa [VoteRecord.vote, update_of_ne hv] using hd

/-- The votes a candidate has counted, a new one included, were given to it in its term. -/
lemma VotesRecorded.counted (h : VotesRecorded T voted c) {k : NodeId} (hk : k ∈ T.members)
    {sender : NodeId} {response : VoteResponse} {wasPreVote : Bool} {election : ElectionState}
    (hpacket : ∀ p, (Call.voteResponse sender response wasPreVote).packet k = some p →
      p ∈ c.network)
    (hown : (c.nodes k).CountsOwnVotes (.voteResponse sender response wasPreVote))
    (hterm : response.term ≤ (c.nodes k).term) (hg : response.voteGranted = true)
    (helection : (c.nodes k).electionState = some election)
    (hcand : (c.nodes k).state.role = .candidate) :
    election.votesNeeded = T.members.card / 2 + 1 ∧ ∀ v ∈ insert sender election.votesReceived,
      v ∈ T.members ∧ voted v (c.nodes k).term = some k := by
  obtain ⟨rfl, hresp⟩ := hown.of_candidate hterm hg helection hcand
  obtain ⟨hneed, hvotes⟩ := h.candidate k election hk hcand helection
  obtain ⟨hmem, hvoted⟩ := h.granted k sender response (hpacket _ rfl) hg
  refine ⟨hneed, fun v hv => ?_⟩
  rcases Finset.mem_insert.mp hv with rfl | hv
  · exact ⟨hmem, hresp ▸ hvoted⟩
  · exact hvotes v hv

/-- One node changes and sends packets. The record still agrees if the votes sent, the node's own
election and its leadership do. -/
lemma VotesRecorded.put (h : VotesRecorded T voted c) {k : NodeId} {n' : RaftNode}
    (hadv : (c.nodes k).state.persistent.Advances n'.state.persistent) {packets : List Packet}
    (hgranted : ∀ target sender response,
      Packet.voteResponse target sender response false ∈ packets → response.voteGranted = true →
        sender ∈ T.members ∧ voted.vote k n' sender response.term = some target)
    (hcandidate : ∀ election, k ∈ T.members → n'.state.role = .candidate →
      n'.electionState = some election → election.votesNeeded = T.members.card / 2 + 1 ∧
        ∀ v ∈ election.votesReceived, v ∈ T.members ∧ voted.vote k n' v n'.term = some k)
    (hleader : n'.state.role = .leader → Elected T (voted.vote k n') k n'.term) :
    VotesRecorded T (voted.vote k n') (c.put k n' packets) := by
  have hext : (voted.vote k n').Extends voted := h.extends_vote hadv
  refine ⟨?voted_term, ?voted_later, ?granted, ?candidate, ?leader⟩
  case voted_term =>
    intro v
    rcases eq_or_ne v k with rfl | hv
    · rw [put_nodes_self, VoteRecord.vote_self]
    · simpa [VoteRecord.vote, update_of_ne hv, put_nodes_of_ne c hv] using h.voted_term v
  case voted_later =>
    intro v t ht
    rcases eq_or_ne v k with rfl | hv
    · rw [put_nodes_self] at ht
      simp only [VoteRecord.vote, update_self, update_of_ne ht.ne']
      exact h.voted_later v t (hadv.term_le.trans_lt ht)
    · rw [put_nodes_of_ne c hv] at ht
      simpa [VoteRecord.vote, update_of_ne hv] using h.voted_later v t ht
  case granted =>
    intro target sender response hmem hg
    rcases mem_network_put.mp hmem with hmem | hmem
    · obtain ⟨hs, hv⟩ := h.granted target sender response hmem hg
      exact ⟨hs, hext _ _ _ hv⟩
    · exact hgranted target sender response hmem hg
  case candidate =>
    intro m election hm hcand helection
    rcases eq_or_ne m k with rfl | hmk
    · rw [put_nodes_self] at hcand helection ⊢
      exact hcandidate election hm hcand helection
    · rw [put_nodes_of_ne c hmk] at hcand helection ⊢
      obtain ⟨hneed, hv⟩ := h.candidate m election hm hcand helection
      exact ⟨hneed, fun v hvm => ⟨(hv v hvm).1, hext _ _ _ (hv v hvm).2⟩⟩
  case leader =>
    intro m hlead
    rcases eq_or_ne m k with rfl | hmk
    · rw [put_nodes_self] at hlead ⊢
      exact hleader hlead
    · rw [put_nodes_of_ne c hmk] at hlead ⊢
      exact (h.leader m hlead).mono hext

section

variable [Crc32] [ConfigJson] (h : VotesRecorded T voted c) {k : NodeId} (hk : k ∈ T.members)
  {call : Call} (hpacket : ∀ p, call.packet k = some p → p ∈ c.network) (fault : Option WalFault)
  (hown : (c.nodes k).CountsOwnVotes call)

include h hk hpacket hown

/-- After a call, the votes that a candidate has counted were given to it in its term. -/
lemma VotesRecorded.candidate_execute
    (hconfig : (c.nodes k).config = { id := k, peers := T.peers k }) {n' : RaftNode}
    (hn' : ((c.nodes k).execute fault call).1 = n') (hext : (voted.vote k n').Extends voted)
    {election : ElectionState} (hcand : n'.state.role = .candidate)
    (helection : n'.electionState = some election) :
    election.votesNeeded = T.members.card / 2 + 1 ∧ ∀ v ∈ election.votesReceived,
      v ∈ T.members ∧ voted.vote k n' v n'.term = some k := by
  have hrole := (c.nodes k).execute_roleEffect fault call
  rw [hn'] at hrole
  have hid : (c.nodes k).config.id = k := by rw [hconfig]
  have hsize : (c.nodes k).clusterSize = T.members.card := by
    rw [RaftNode.clusterSize, hconfig]
    exact T.length_peers hk
  cases hrole with
  | kept hr ht he =>
    obtain ⟨hneed, hv⟩ := h.candidate k election hk (hr ▸ hcand) (he ▸ helection)
    refine ⟨hneed, fun v hvm => ⟨(hv v hvm).1, hext _ _ _ ?_⟩⟩
    rw [ht]
    exact (hv v hvm).2
  | follower hr => simp [hr] at hcand
  | preCandidate hr => simp [hr] at hcand
  | candidate hr ht hvote he =>
    obtain rfl := Option.some.inj (he.symm.trans helection)
    refine ⟨by simp [hsize], fun v hvm => ?_⟩
    obtain rfl : v = k := by simpa [hid] using hvm
    exact ⟨hk, by rw [VoteRecord.vote_self, hvote, hid]⟩
  | counted sender response wasPreVote election₀ hcall hterm hg helection₀ hr ht he =>
    obtain rfl := Option.some.inj (he.symm.trans helection)
    subst hcall
    rw [hr] at hcand
    obtain ⟨hneed, hv⟩ := h.counted hk hpacket hown hterm hg helection₀ hcand
    refine ⟨hneed, fun v hvm => ⟨(hv v hvm).1, hext _ _ _ ?_⟩⟩
    rw [ht]
    exact (hv v hvm).2
  | elected sender response election₀ hcall hterm hg helection₀ hq hr => simp [hr] at hcand

/-- After a call, a leader has been elected in its term. -/
lemma VotesRecorded.leader_execute {n' : RaftNode}
    (hn' : ((c.nodes k).execute fault call).1 = n') (hext : (voted.vote k n').Extends voted)
    (hlead : n'.state.role = .leader) : Elected T (voted.vote k n') k n'.term := by
  have hrole := (c.nodes k).execute_roleEffect fault call
  rw [hn'] at hrole
  cases hrole with
  | kept hr ht he =>
    rw [ht]
    exact (h.leader k (hr ▸ hlead)).mono hext
  | follower hr => simp [hr] at hlead
  | preCandidate hr => simp [hr] at hlead
  | candidate hr => simp [hr] at hlead
  | counted sender response wasPreVote election₀ hcall hterm hg helection₀ hr ht he =>
    rw [ht]
    exact (h.leader k (hr ▸ hlead)).mono hext
  | elected sender response election₀ hcall hterm hg helection₀ hq hr ht =>
    subst hcall
    -- the votes counted, the last one included, are the majority
    obtain ⟨hneed, hv⟩ := h.counted hk hpacket hown hterm hg helection₀
      (hown.candidate hterm hg helection₀)
    rw [ElectionState.recordVote_quorum_iff, hneed] at hq
    refine ⟨_, ⟨fun v hvm => (hv v hvm).1, hq⟩, fun v hvm => ?_⟩
    rw [ht]
    exact hext _ _ _ (hv v hvm).2

/-- A call that counts only votes of its own election keeps nodes and record in agreement. -/
lemma VotesRecorded.execute (hconfig : (c.nodes k).config = { id := k, peers := T.peers k }) :
    ∃ voted' : VoteRecord, voted'.Extends voted ∧ VotesRecorded T voted'
      (c.put k ((c.nodes k).execute fault call).1 ((c.nodes k).execute fault call).2) := by
  have hadv := ((c.nodes k).savesTo_execute fault call).advances
  have hext := h.extends_vote hadv
  refine ⟨_, hext, h.put hadv (fun target sender response hmem hg => ?_)
    (fun election hk hcand helection => ?_) fun hlead => ?_⟩
  · obtain ⟨rfl, hgiven⟩ := (c.nodes k).givenVote_of_sent hmem hg
    obtain ⟨hterm, hvote⟩ := (c.nodes k).givenVote_eq fault hgiven
    rw [hconfig, hterm, VoteRecord.vote_self]
    exact ⟨hk, hvote⟩
  · exact h.candidate_execute hk hpacket fault hown hconfig rfl hext hcand helection
  · exact h.leader_execute hk hpacket fault hown rfl hext hlead

end

end

/-! ### Whole runs -/

variable [Crc32] [ConfigJson]

/-- The record agrees with the state reached, and every node that ever led was elected. -/
def ElectedSoFar (T : Topology) (es : List Event) : Prop :=
  ∃ voted, VotesRecorded T voted (after T es) ∧
    ∀ es' n t, es' <+: es → (after T es').LeadsIn n t → Elected T voted n t

lemma electedSoFar (T : Topology) {es : List Event}
    (h : Along (step T) CountsOwnVotes (init T) es) : ElectedSoFar T es := by
  refine run_invariant (step T) (ElectedSoFar T) ?_ ?_ h
  · refine ⟨_, VotesRecorded.init T, fun es' n t hp hl => ?_⟩
    obtain rfl := List.prefix_nil.mp hp
    exact absurd hl.1 (by simp [Cluster.init, freshNode])
  · rintro es e - ⟨voted, hrec, hpast⟩ hown
    -- one step: a record that extends the old one and fits the new state
    obtain ⟨voted', hext, hrec'⟩ : ∃ voted' : VoteRecord, voted'.Extends voted ∧
        VotesRecorded T voted' (after T (es ++ [e])) := by
      rw [after_snoc]
      rcases step_cases T (after T es) e with ⟨-, heq⟩ | ⟨⟨hk, hpacket⟩, heq⟩
      · exact ⟨voted, fun _ _ _ hd => hd, by rwa [heq]⟩
      · rw [heq]
        exact hrec.execute hk hpacket e.fault hown (run_config T es e.node)
    refine ⟨voted', hrec', fun es' n t hp hl => ?_⟩
    rcases List.prefix_concat_iff.mp hp with rfl | hp
    · obtain ⟨hr, rfl⟩ := hl
      exact hrec'.leader n hr
    · exact (hpast es' n t hp hl).mono hext

lemma uniqueLeaders (T : Topology) {es : List Event}
    (h : Along (step T) CountsOwnVotes (init T) es) : UniqueLeaders T es := by
  obtain ⟨voted, -, hpast⟩ := electedSoFar T h
  intro es₁ es₂ h₁ h₂ n m t hn hm
  exact (hpast es₁ n t h₁ hn).unique (hpast es₂ m t h₂ hm)

/-- **Election safety.** In every run in which votes are only counted for the election they were
given in, two nodes that lead the same term, at whatever moments, are the same node. -/
theorem leaders_eq_of_countsOwnVotes (T : Topology) (es : List Event)
    (h : Along (step T) CountsOwnVotes (init T) es) {es₁ es₂ : List Event} (h₁ : es₁ <+: es)
    (h₂ : es₂ <+: es) {n m : NodeId} {t : Term} (hn : (after T es₁).LeadsIn n t)
    (hm : (after T es₂).LeadsIn m t) : n = m :=
  uniqueLeaders T h es₁ es₂ h₁ h₂ n m t hn hm

end Cluster

/-! ### Two runs -/

namespace Cluster

open scoped Runs

/-- Node 2 votes for node 1 in term 1. -/
def plainElection : List Event :=
  [⟨1, .startElection, none⟩, ⟨2, .voteRequest ⟨1, 1, 0, 0, false⟩, none⟩,
    ⟨1, .voteResponse 2 ⟨1, true⟩ false, none⟩]

theorem leaders_eq_of_countsOwnVotes_plainElection :
    Along (step .three) CountsOwnVotes (init .three) plainElection ∧
      (after .three plainElection).LeadsIn 1 1 ∧
      ∀ m, (after .three plainElection).LeadsIn m 1 → m = 1 := by
  have hown : Along (step .three) CountsOwnVotes (init .three) plainElection := by decide +kernel
  have hlead : (after .three plainElection).LeadsIn 1 1 := by decide +kernel
  refine ⟨hown, hlead, fun m hm => ?_⟩
  exact leaders_eq_of_countsOwnVotes .three _ hown List.prefix_rfl List.prefix_rfl hm hlead

/-- Node 1 stands again before the vote of term 1 arrives, and node 2 stands in term 2 as well. -/
def lateVote : List Event :=
  [⟨1, .startElection, none⟩, ⟨2, .voteRequest ⟨1, 1, 0, 0, false⟩, none⟩,
    ⟨1, .startElection, none⟩, ⟨1, .voteResponse 2 ⟨1, true⟩ false, none⟩,
    ⟨2, .startElection, none⟩, ⟨3, .voteRequest ⟨2, 2, 0, 0, false⟩, none⟩,
    ⟨2, .voteResponse 3 ⟨2, true⟩ false, none⟩]

/-- The late vote makes node 1 leader of term 2, in which nodes 2 and 3 elect node 2. -/
theorem lateVote_two_leaders :
    (after .three lateVote).LeadsIn 1 2 ∧
      (after .three lateVote).LeadsIn 2 2 := by
  decide +kernel

end Cluster

end Raftrust.Consensus

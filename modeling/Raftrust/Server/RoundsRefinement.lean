import Raftrust.Consensus.Availability
import Raftrust.Consensus.Finality
import Raftrust.Server.Rounds

/-!
# Servers follow orderly runs

Servers that do not hand over leadership stay within the runs for which the protocol is safe. A
candidate that has come to follow the leader of its term goes on to count votes, and those are the
only ones that are counted out of place; but the votes of that term are the leader's, so nothing
comes of it. So the servers are safe, whatever they are sent and whenever.
-/

namespace Raftrust.Consensus

open Storage

namespace RaftNode

/-- The node, with other votes counted. -/
def withVotes (n : RaftNode) (e : Option ElectionState) : RaftNode :=
  { n with electionState := e }

variable (n : RaftNode) (e : Option ElectionState)

lemma observeTerm_withVotes (t : Term) :
    ∃ e', (n.withVotes e).observeTerm t = (n.observeTerm t).withVotes e' := by
  dsimp only [observeTerm, withVotes, term]
  split_ifs
  · exact ⟨none, rfl⟩
  · exact ⟨e, rfl⟩

lemma advanceCommit_withVotes (leader : LeaderState) (candidates : List LogIndex) :
    (n.withVotes e).advanceCommit leader candidates = n.advanceCommit leader candidates := by
  induction candidates with
  | nil => rfl
  | cons candidate rest ih =>
    simp only [advanceCommit, ih]
    rfl

lemma tryAdvanceCommit_withVotes :
    (n.withVotes e).tryAdvanceCommit = n.tryAdvanceCommit.withVotes e := by
  rcases n with ⟨_, _, _, _ | leader, _, _, _, _, _⟩
  · rfl
  · simp only [tryAdvanceCommit, advanceCommit_withVotes]
    rfl

variable [Crc32] [ConfigJson]

lemma execute_withVotes {call : Call} (hvote : call.vote = none) (hsnap : call.isSnapshot = false)
    (hmember : call.isMembershipChange = false) :
    ∃ e', (n.withVotes e).execute none call =
      ((n.execute none call).1.withVotes e', (n.execute none call).2) := by
  cases call with
  | voteRequest request =>
    obtain ⟨e', heq⟩ := n.observeTerm_withVotes e request.term
    by_cases hpre : request.isPreVote = true
    · exact ⟨e, by simp [execute, handleVoteRequest, withVotes, hpre]⟩
    · refine ⟨e', ?_⟩
      simp only [execute, handleVoteRequest, heq]
      generalize n.observeTerm request.term = n'
      by_cases hgrant : shouldGrantVote n'.state request n'.log.lastIndex n'.log.lastTerm
      · simp [withVotes, hpre, hgrant, grantVote, savePersistent]
      · simp [withVotes, hpre, hgrant]
  | appendEntries request =>
    obtain ⟨e', heq⟩ := n.observeTerm_withVotes e request.term
    by_cases hterm : request.term < n.term
    · exact ⟨e, by simp [execute, handleAppendEntries, withVotes, hterm]⟩
    · refine ⟨e', ?_⟩
      simp only [execute, handleAppendEntries, heq]
      generalize n.observeTerm request.term = n'
      by_cases hmatch : 0 < request.prevLogIndex ∧
          n'.log.matchTerm request.prevLogIndex request.prevLogTerm = false
      · simp [withVotes, hterm, hmatch, followLeader]
      · simp [withVotes, hterm, hmatch, followLeader]
  | appendResponse sender response =>
    dsimp only [execute, handleAppendResponse, withVotes, term]
    split_ifs
    · exact ⟨none, rfl⟩
    · exact ⟨e, rfl⟩
    all_goals
      refine ⟨e, ?_⟩
      cases hleader : n.leaderState with
      | none => simp only [hleader]
      | some leader =>
        exact congrArg (·, []) (tryAdvanceCommit_withVotes { n with leaderState := some _ } e)
  | propose data =>
    dsimp only [execute, propose, withVotes]
    split_ifs
    · exact ⟨e, rfl⟩
    · exact ⟨e, rfl⟩
    · refine ⟨e, ?_⟩
      dsimp only [appendEntry, term]
      cases (n.log.append _ none).2 <;> rfl
  | voteResponse => cases hvote
  | triggerSnapshot => cases hsnap
  | installSnapshot => cases hsnap
  | proposeConfigChange => cases hmember
  | applyConfigChange => cases hmember
  | timeoutNow msg =>
    dsimp only [execute, handleTimeoutNow, withVotes, term]
    split_ifs <;> exact ⟨_, rfl⟩
  | requestReadIndex =>
    dsimp only [execute, requestReadIndex, withVotes]
    split_ifs <;> exact ⟨e, rfl⟩
  | transferLeadership target =>
    dsimp only [execute, transferLeadership, withVotes]
    split_ifs <;> exact ⟨e, rfl⟩
  | checkTransferProgress =>
    dsimp only [execute, checkTransferProgress, withVotes]
    rcases n with ⟨_, _, _, _, _, _, _ | transfer, _, _⟩
    · exact ⟨e, rfl⟩
    · dsimp only
      split_ifs <;> exact ⟨e, rfl⟩
  | checkTransferTimeout expired =>
    dsimp only [execute, checkTransferTimeout, withVotes]
    split_ifs <;> exact ⟨e, rfl⟩
  | _ => exact ⟨_, rfl⟩

/-- What a call does to a node in a round that it has no part in. -/
inductive Passes (n : RaftNode) (call : Call) (n' : RaftNode) : Prop where
  | quit (role : n'.state.role = .follower) (electionState : n'.electionState = none)
  | kept (role : n'.state.role = n.state.role) (term : n'.term = n.term)
      (electionState : n'.electionState = n.electionState)
  | followed (role : n'.state.role = .follower) (term : n'.term = n.term)
      (electionState : n'.electionState = n.electionState) (request : AppendRequest)
      (hcall : call = .appendEntries request) (hterm : request.term = n.term)

omit [Crc32] [ConfigJson] in
variable {n} in
lemma Passes.of_eq {call : Call} {n' m : RaftNode} (h : n.Passes call m)
    (hrole : n'.state.role = m.state.role) (hterm : n'.term = m.term)
    (helection : n'.electionState = m.electionState) : n.Passes call n' := by
  cases h with
  | quit hr he => exact .quit (hrole.trans hr) (helection.trans he)
  | kept hr ht he => exact .kept (hrole.trans hr) (hterm.trans ht) (helection.trans he)
  | followed hr ht he request hcall hreq =>
    exact .followed (hrole.trans hr) (hterm.trans ht) (helection.trans he) request hcall hreq

omit [Crc32] [ConfigJson] in
lemma passes_observeTerm (t : Term) (call : Call) : n.Passes call (n.observeTerm t) := by
  unfold observeTerm
  split
  · exact .quit rfl rfl
  · exact .kept rfl rfl rfl

lemma execute_passes {call : Call} (hvote : call.vote = none) (hsnap : call.isSnapshot = false)
    (hcampaigns : call.campaigns = false) : n.Passes call (n.execute none call).1 := by
  have hsame := n.execute_sameVotes none call
  refine Passes.of_eq ?_ hsame.role (by rw [term, hsame.persistent]) hsame.electionState
  cases call with
  | voteRequest request =>
    simp only [voteEffect, handleVoteRequest]
    split
    · exact .kept rfl rfl rfl
    · have h := n.passes_observeTerm request.term (.voteRequest request)
      split
      · exact h.of_eq rfl rfl rfl
      · exact h
  | appendEntries request =>
    simp only [voteEffect]
    split
    · exact .kept rfl rfl rfl
    · next hterm =>
      rcases lt_or_ge n.term request.term with hlt | hge
      · rw [observeTerm_of_lt n hlt]
        exact .quit rfl rfl
      · rw [observeTerm_of_le n hge]
        exact .followed rfl rfl rfl request rfl (le_antisymm hge (not_lt.mp hterm))
  | appendResponse sender response => exact n.passes_observeTerm _ _
  | startPreVote => cases hcampaigns
  | startElection => cases hcampaigns
  | timeoutNow => cases hcampaigns
  | voteResponse => cases hvote
  | installSnapshot => cases hsnap
  | _ => exact .kept rfl rfl rfl

end RaftNode

/-- The nodes are the same, but for votes that nobody waits for any more. -/
def SameButVotes (m n : RaftNode) : Prop :=
  ∃ e, m = n.withVotes e ∧
    (n.state.role = .candidate ∨ n.state.role = .preCandidate → e = n.electionState)

namespace SameButVotes

variable {m n : RaftNode}

protected lemma refl (n : RaftNode) : SameButVotes n n :=
  ⟨n.electionState, rfl, fun _ => rfl⟩

lemma eq_of_campaign (h : SameButVotes m n)
    (hrole : n.state.role = .candidate ∨ n.state.role = .preCandidate) : m = n := by
  obtain ⟨e, rfl, he⟩ := h
  rw [he hrole]
  rfl

lemma state_eq (h : SameButVotes m n) : m.state = n.state := by
  obtain ⟨e, rfl, -⟩ := h
  rfl

lemma config_eq (h : SameButVotes m n) : m.config = n.config := by
  obtain ⟨e, rfl, -⟩ := h
  rfl

lemma log_eq (h : SameButVotes m n) : m.log = n.log := by
  obtain ⟨e, rfl, -⟩ := h
  rfl

lemma execute [Crc32] [ConfigJson] (h : SameButVotes m n) {call : Call} (hvote : call.vote = none)
    (hsnap : call.isSnapshot = false) (hmember : call.isMembershipChange = false)
    (hcampaigns : call.campaigns = false) :
    SameButVotes (m.execute none call).1 (n.execute none call).1 ∧
      (m.execute none call).2 = (n.execute none call).2 := by
  by_cases hrole : n.state.role = .candidate ∨ n.state.role = .preCandidate
  · rw [h.eq_of_campaign hrole]
    exact ⟨.refl _, rfl⟩
  obtain ⟨e, rfl, -⟩ := h
  obtain ⟨e', heq⟩ := n.execute_withVotes e hvote hsnap hmember
  rw [heq]
  refine ⟨⟨e', rfl, fun hr => absurd ?_ hrole⟩, rfl⟩
  cases n.execute_passes hvote hsnap hcampaigns with
  | quit hr' => simp [hr'] at hr
  | kept hr' => rwa [hr'] at hr
  | followed hr' => simp [hr'] at hr

/-- A vote of a later term makes both step down. -/
lemma voteResponse [Crc32] [ConfigJson] (h : SameButVotes m n) {sender : NodeId}
    {response : VoteResponse} {wasPreVote : Bool} (hlt : m.term < response.term) :
    SameButVotes (m.execute none (.voteResponse sender response wasPreVote)).1
      (n.execute none (.voteResponse sender response wasPreVote)).1 := by
  obtain ⟨e, rfl, -⟩ := h
  simp only [RaftNode.execute, RaftNode.handleVoteResponse]
  rw [if_pos hlt, if_pos (show n.term < response.term from hlt)]
  exact .refl _

/-- A vote that nobody waits for changes nothing but the votes, unless it makes a majority. -/
lemma handleVoteResponse_unwaited [Crc32] (h : SameButVotes m n) {sender : NodeId}
    {response : VoteResponse} {wasPreVote : Bool}
    (hrole : ¬(n.state.role = .candidate ∨ n.state.role = .preCandidate))
    (hle : response.term ≤ m.term)
    (hlost : ∀ election, wasPreVote = false → response.voteGranted = true →
      m.electionState = some election → (election.recordVote sender).2 = false) :
    SameButVotes (m.handleVoteResponse sender response wasPreVote none).1 n := by
  rcases m.handleVoteResponse_cases sender response wasPreVote none with
    ⟨hlt, -⟩ | hkept | ⟨election, -, hg, helection, hcounted | ⟨hpre, hquorum, -⟩⟩
  · exact absurd hlt (not_lt.mpr hle)
  · rwa [hkept]
  · obtain ⟨e, heq, -⟩ := h
    rw [hcounted, heq]
    exact ⟨_, rfl, fun hr => absurd hr hrole⟩
  · rw [hlost election hpre hg helection] at hquorum
    cases hquorum

end SameButVotes

end Raftrust.Consensus

namespace Raftrust.Server

open Lib Consensus Consensus.Cluster Storage Function

namespace Servers

variable {T : Topology} {net net' : List Packet} {k : NodeId} {n n' : RaftNode} {t : Term}

/-- The votes counted for server `k` in the election of term `t` have been given to it. It is still
a candidate, or has heard of the leader of the term. -/
structure Stands (T : Topology) (net : List Packet) (k : NodeId) (t : Term) (n : RaftNode) :
    Prop where
  term : n.term = t
  votedFor : n.state.persistent.votedFor = some k
  votes : ∀ election ∈ n.electionState, election.votesNeeded = T.members.card / 2 + 1 ∧
    ∀ v ∈ election.votesReceived, v = k ∨ ∃ response : VoteResponse,
      response.voteGranted = true ∧ response.term = t ∧ .voteResponse k v response false ∈ net
  role : n.state.role = .candidate ∨ (n.state.role = .follower ∧
    ∃ request, .appendRequest k request ∈ net ∧ request.term = t)

/-- Votes that are counted in the round are votes of it. -/
def Counts (T : Topology) (net : List Packet) (k : NodeId) (t : Term) (n : RaftNode) :
    Bool → Prop
  | true => n.state.role = .preCandidate ∨ n.state.role = .follower
  | false => Stands T net k t n

/-- What holds of server `k` in the midst of a round of term `t`. -/
def Fits (T : Topology) (net : List Packet) (k : NodeId) (n : RaftNode) : RoundState → Prop
  | .idle => True
  | .woken _ => True
  | .voting isPreVote requests answer _ => ∃ t,
    (∀ r ∈ requests, .voteRequest r.1 r.2 ∈ net ∧ r.1 ∈ T.members ∧ r.1 ≠ k ∧
      r.2.candidateId = k ∧ r.2.isPreVote = isPreVote ∧ r.2.term = t) ∧
    (∀ r ∈ requests.head?, ∀ response ∈ answer, .voteResponse k r.1 response isPreVote ∈ net ∧
      (isPreVote = false → response.voteGranted = true → response.term = t)) ∧
    (n.electionState.isSome = true → Counts T net k t n isPreVote)
  | .replicating requests answers => ∃ t,
    (∀ r ∈ requests, .appendRequest r.1 r.2 ∈ net ∧ r.1 ∈ T.members ∧ r.1 ≠ k ∧
      r.2.leaderId = k ∧ r.2.term = t) ∧
    (∀ a ∈ answers, .appendResponse k a.1 a.2 ∈ net ∧ (a.2.success = true → a.2.term = t)) ∧
    (n.state.role = .leader → n.term = t)

lemma Stands.mono (h : Stands T net k t n) (hnet : net ⊆ net') : Stands T net' k t n where
  term := h.term
  votedFor := h.votedFor
  votes := fun election he => ⟨(h.votes election he).1, fun v hv =>
    ((h.votes election he).2 v hv).imp_right fun ⟨response, hg, ht, hmem⟩ =>
      ⟨response, hg, ht, hnet hmem⟩⟩
  role := h.role.imp_right fun ⟨hr, request, hmem, ht⟩ => ⟨hr, request, hnet hmem, ht⟩

lemma Counts.mono {isPreVote : Bool} (h : Counts T net k t n isPreVote) (hnet : net ⊆ net') :
    Counts T net' k t n isPreVote := by
  cases isPreVote with
  | true => exact h
  | false => exact Stands.mono h hnet

lemma Fits.mono {round : RoundState} (h : Fits T net k n round) (hnet : net ⊆ net') :
    Fits T net' k n round := by
  cases round with
  | idle => trivial
  | woken role => trivial
  | voting isPreVote requests answer anySuccess =>
    obtain ⟨t, hrequests, hanswer, hcounts⟩ := h
    exact ⟨t, fun r hr => ⟨hnet (hrequests r hr).1, (hrequests r hr).2⟩,
      fun r hr response ha => ⟨hnet (hanswer r hr response ha).1, (hanswer r hr response ha).2⟩,
      fun hsome => (hcounts hsome).mono hnet⟩
  | replicating requests answers =>
    obtain ⟨t, hrequests, hanswers, hterm⟩ := h
    exact ⟨t, fun r hr => ⟨hnet (hrequests r hr).1, (hrequests r hr).2⟩,
      fun a ha => ⟨hnet (hanswers a ha).1, (hanswers a ha).2⟩, hterm⟩

/-- Calls of other tasks. -/
lemma Counts.passes {isPreVote : Bool} {call : Call} (h : Counts T net k t n isPreVote)
    (hpasses : n.Passes call n') (hadv : n.state.persistent.Advances n'.state.persistent)
    (hpacket : ∀ p ∈ call.packet k, p ∈ net) (hsome : n'.electionState.isSome = true) :
    Counts T net k t n' isPreVote := by
  cases isPreVote with
  | true =>
    cases hpasses with
    | quit hr he => exact .inr hr
    | kept hr => exact h.imp (hr.trans ·) (hr.trans ·)
    | followed hr => exact .inr hr
  | false =>
    have hvoted (ht : n'.term = n.term) : n'.state.persistent.votedFor = some k :=
      hadv.votedFor ht.symm h.votedFor
    cases hpasses with
    | quit hr he => simp [he] at hsome
    | kept hr ht he =>
      exact ⟨ht.trans h.term, hvoted ht, by rw [he]; exact h.votes, by rw [hr]; exact h.role⟩
    | followed hr ht he request hcall hreq =>
      subst hcall
      exact ⟨ht.trans h.term, hvoted ht, by rw [he]; exact h.votes,
        .inr ⟨hr, request, hpacket _ rfl, hreq.trans h.term⟩⟩

lemma Fits.passes {round : RoundState} {call : Call} (h : Fits T net k n round)
    (hpasses : n.Passes call n') (hadv : n.state.persistent.Advances n'.state.persistent)
    (hpacket : ∀ p ∈ call.packet k, p ∈ net) : Fits T net k n' round := by
  cases round with
  | idle => trivial
  | woken role => trivial
  | voting isPreVote requests answer anySuccess =>
    obtain ⟨t, hrequests, hanswer, hcounts⟩ := h
    refine ⟨t, hrequests, hanswer, fun hsome => ?_⟩
    refine Counts.passes (hcounts ?_) hpasses hadv hpacket hsome
    cases hpasses with
    | quit hr he => simp [he] at hsome
    | kept hr ht he => rwa [he] at hsome
    | followed hr ht he => rwa [he] at hsome
  | replicating requests answers =>
    obtain ⟨t, hrequests, hanswers, hterm⟩ := h
    refine ⟨t, hrequests, hanswers, fun hlead => ?_⟩
    cases hpasses with
    | quit hr => simp [hr] at hlead
    | kept hr ht => exact ht.trans (hterm (hr ▸ hlead))
    | followed hr => simp [hr] at hlead

/-! ### One step -/

variable [Crc32] [ConfigJson] {s : Servers} {c : Cluster} {es : List Consensus.Event}

/-- The servers are where the cluster is, and every one of them is in the midst of its round. -/
structure Follows (T : Topology) (s : Servers) (c : Cluster) : Prop where
  network : s.cluster.network = c.network
  nodes : ∀ k, SameButVotes (s.cluster.nodes k) (c.nodes k)
  fits : ∀ k ∈ T.members, Fits T s.cluster.network k (s.cluster.nodes k) (s.rounds k)

/-- The orderly run `es` has led to `c`, and the servers are there as well. -/
structure Mirrors (T : Topology) (es : List Consensus.Event) (c : Cluster) (s : Servers) : Prop
    extends Follows T s c where
  orderly : OrderlyRun T es
  reached : Cluster.after T es = c

/-- The cluster can go on to where the servers are. -/
def Reachable (T : Topology) (es : List Consensus.Event) (s : Servers) : Prop :=
  ∃ more c, Mirrors T (es ++ more) c s

lemma Mirrors.reachable (h : Mirrors T es c s) : Reachable T es s :=
  ⟨[], c, by rwa [List.append_nil]⟩

lemma Mirrors.config (h : Mirrors T es c s) (k : NodeId) :
    (s.cluster.nodes k).config = { id := k, peers := T.peers k } := by
  rw [(h.nodes k).config_eq, ← h.reached, run_config]

omit [Crc32] [ConfigJson] in
lemma Follows.fits_of_eq (h : Follows T s c) (hk : k ∈ T.members) {round : RoundState}
    (hround : s.rounds k = round) :
    Fits T s.cluster.network k (s.cluster.nodes k) round :=
  hround ▸ h.fits k hk

lemma Mirrors.setRound (h : Mirrors T es c s) {round : RoundState}
    (hfits : Fits T s.cluster.network k (s.cluster.nodes k) round) :
    Mirrors T es c (s.setRound k round) := by
  refine ⟨⟨h.network, h.nodes, fun m hm => ?_⟩, h.orderly, h.reached⟩
  rcases eq_or_ne m k with rfl | hne
  · simpa [Servers.setRound] using hfits
  · simpa [Servers.setRound, hne] using h.fits m hm

omit [Crc32] [ConfigJson] in
lemma Follows.put (h : Follows T s c) {m n' : RaftNode} (hsame : SameButVotes m n')
    (hfits : Fits T s.cluster.network k m (s.rounds k)) (sent : List Packet) :
    Follows T { s with cluster := s.cluster.put k m sent } (c.put k n' sent) := by
  refine ⟨congrArg (· ++ sent) h.network, fun q => ?_, fun q hq => ?_⟩
  · rcases eq_or_ne q k with rfl | hne
    · simpa using hsame
    · rw [put_nodes_of_ne _ hne, put_nodes_of_ne _ hne]
      exact h.nodes q
  · refine Fits.mono ?_ (List.subset_append_left _ _)
    rcases eq_or_ne q k with rfl | hne
    · simpa using hfits
    · dsimp only
      rw [put_nodes_of_ne _ hne]
      exact h.fits q hq

lemma call_eq {call : Call} (henabled : s.cluster.Enabled T ⟨k, call, none⟩) :
    s.call T k call = { s with cluster := s.cluster.perform k none call } := by
  rw [Servers.call, Cluster.step, if_pos henabled]

lemma mem_call {call : Call} (henabled : s.cluster.Enabled T ⟨k, call, none⟩) {p : Packet}
    (hp : p ∈ ((s.cluster.nodes k).execute none call).2) :
    p ∈ (s.call T k call).cluster.network := by
  rw [call_eq henabled]
  exact List.mem_append_right _ hp

/-- A call on both sides. -/
lemma Mirrors.perform (h : Mirrors T es c s) {call : Call}
    (henabled : s.cluster.Enabled T ⟨k, call, none⟩)
    (hsame : SameButVotes ((s.cluster.nodes k).execute none call).1
      ((c.nodes k).execute none call).1)
    (hsent : ((s.cluster.nodes k).execute none call).2 = ((c.nodes k).execute none call).2)
    (horderly : c.Orderly ⟨k, call, none⟩)
    (hfits : Fits T s.cluster.network k ((s.cluster.nodes k).execute none call).1 (s.rounds k)) :
    Mirrors T (es ++ [⟨k, call, none⟩]) (c.perform k none call) (s.call T k call) := by
  refine ⟨?_, (along_snoc _ _ _ _ _).mpr ⟨h.orderly, by rwa [← h.reached] at horderly⟩, ?_⟩
  · rw [call_eq henabled, Cluster.perform, hsent]
    exact h.put hsame hfits _
  · rw [Cluster.after_snoc, h.reached, Cluster.step,
      if_pos ⟨henabled.1, by rw [← h.network]; exact henabled.2⟩]

/-- A call of another task, or one that asks for or brings in acknowledgements. -/
lemma Mirrors.call (h : Mirrors T es c s) {call : Call}
    (henabled : s.cluster.Enabled T ⟨k, call, none⟩) (hvote : call.vote = none)
    (hsnap : call.isSnapshot = false) (hmember : call.isMembershipChange = false)
    (hcampaigns : call.campaigns = false) (horderly : c.Orderly ⟨k, call, none⟩) :
    Mirrors T (es ++ [⟨k, call, none⟩]) (c.perform k none call) (s.call T k call) := by
  obtain ⟨hsame, hsent⟩ := (h.nodes k).execute hvote hsnap hmember hcampaigns
  exact h.perform henabled hsame hsent horderly ((h.fits k henabled.1).passes
    (RaftNode.execute_passes _ hvote hsnap hcampaigns)
    (RaftNode.savesTo_execute _ none call).advances henabled.2)

lemma handle_reachable (h : Mirrors T es c s) {call : Call} (hhandled : isHandled call = true)
    (hundisturbed : Undisturbed s ⟨k, .handle call⟩) : Reachable T es (s.call T k call) := by
  obtain ⟨hcampaigns, hsnap, hmember⟩ := hundisturbed call rfl
  have hvote : call.vote = none := by cases call <;> first | rfl | cases hhandled
  have hack : call.acknowledgement = none := by cases call <;> first | rfl | cases hhandled
  by_cases henabled : s.cluster.Enabled T ⟨k, call, none⟩
  · exact ⟨_, _, h.call henabled hvote hsnap hmember hcampaigns
      (orderly_of_request hsnap hmember hvote hack)⟩
  · rw [Servers.call, Cluster.step, if_neg henabled]
    exact h.reachable

/-! ### Votes -/

omit [ConfigJson] in
lemma Fits.voteResponse {isPreVote anySuccess : Bool} {peer : NodeId} {request : VoteRequest}
    {rest : List (NodeId × VoteRequest)} {response : VoteResponse}
    (h : Fits T net k n (.voting isPreVote ((peer, request) :: rest) (some response) anySuccess)) :
    Fits T net k (n.handleVoteResponse peer response isPreVote none).1
      (.voting isPreVote ((peer, request) :: rest) (some response) anySuccess) := by
  obtain ⟨t, hrequests, hanswer, hcounts⟩ := h
  refine ⟨t, hrequests, hanswer, ?_⟩
  rcases n.handleVoteResponse_cases peer response isPreVote none with
    ⟨-, heq⟩ | heq | ⟨election, -, hg, helection, heq | ⟨-, -, heq⟩⟩ <;> rw [heq]
  · exact fun hsome => by simp [RaftNode.stepDownInner, RaftNode.savePersistent] at hsome
  · exact hcounts
  · intro _
    have hcounts := hcounts (by simp [helection])
    cases isPreVote with
    | true => exact hcounts
    | false =>
      obtain ⟨hmem, hterm⟩ := hanswer _ rfl _ rfl
      obtain ⟨hneed, hvotes⟩ := hcounts.votes election helection
      refine ⟨hcounts.term, hcounts.votedFor, fun election' he => ?_, hcounts.role⟩
      obtain rfl := Option.some.inj he
      refine ⟨hneed, fun v hv => ?_⟩
      rcases Finset.mem_insert.mp hv with rfl | hv
      · exact .inr ⟨response, hg, hterm rfl hg, hmem⟩
      · exact hvotes v hv
  · exact fun hsome => by
      simp [RaftNode.becomeLeaderInner, RaftNode.appendEntry, RaftNode.recordOwnMatch] at hsome

/-- A candidate that has heard of the leader of its term does not get a majority as well. -/
lemma Mirrors.not_elected (h : Mirrors T es c s) (hk : k ∈ T.members)
    (hstands : Stands T s.cluster.network k t (s.cluster.nodes k))
    (hrole : (s.cluster.nodes k).state.role ≠ .candidate) {election : ElectionState}
    (helection : (s.cluster.nodes k).electionState = some election) {peer : NodeId}
    {response : VoteResponse} (hg : response.voteGranted = true) (hterm : response.term = t)
    (hmem : .voteResponse k peer response false ∈ s.cluster.network) :
    (election.recordVote peer).2 = false := by
  by_contra hquorum
  obtain ⟨voted, hrec, hpast⟩ := electedSoFar T (h.orderly.mono _ fun _ _ h => h.2.2.1)
  have htraced := (simulated_of_orderly T h.orderly).1
  have hsim := htraced.simulated
  rw [h.reached] at hrec hsim
  have hpacket (v : NodeId) (r : VoteResponse) (hg : r.voteGranted = true) (ht : r.term = t)
      (hr : .voteResponse k v r false ∈ s.cluster.network) :
      v ∈ T.members ∧ voted v t = some k := by
    rw [← ht]
    exact hrec.granted k v r (h.network ▸ hr) hg
  obtain ⟨hneed, hvotes⟩ := hstands.votes election helection
  have hown : ∀ v ∈ insert peer election.votesReceived, v ∈ T.members ∧ voted v t = some k := by
    intro v hv
    rcases Finset.mem_insert.mp hv with rfl | hv
    · exact hpacket v response hg hterm hmem
    · rcases hvotes v hv with rfl | ⟨r, hr, ht, hnet⟩
      · have hvoted := hrec.voted_term v
        rw [RaftNode.term, ← (h.nodes v).state_eq, hstands.votedFor] at hvoted
        exact ⟨hk, hstands.term ▸ hvoted⟩
      · exact hpacket v r hr ht hnet
  -- the leader that `k` has heard of was elected in the same term
  obtain ⟨-, request, hrequest, hreq⟩ := hstands.role.resolve_left hrole
  obtain ⟨hleader, hne, -⟩ := hsim.request k request (h.network ▸ hrequest)
  obtain ⟨es', hp, hleads, -⟩ := htraced.led _ _ hleader
  rw [Bool.not_eq_false, ElectionState.recordVote_quorum_iff, hneed] at hquorum
  exact hne (Elected.unique ⟨_, ⟨fun v hv => (hown v hv).1, hquorum⟩, fun v hv => (hown v hv).2⟩
    (hreq ▸ hpast es' _ _ hp hleads))

lemma receiveVote_reachable (h : Mirrors T es c s) (hk : k ∈ T.members)
    {isPreVote anySuccess : Bool} {peer : NodeId} {request : VoteRequest}
    {rest : List (NodeId × VoteRequest)} {response : VoteResponse} (hround : s.rounds k =
      .voting isPreVote ((peer, request) :: rest) (some response) anySuccess) :
    Reachable T es (s.call T k (.voteResponse peer response isPreVote)) := by
  have hfits := h.fits_of_eq hk hround
  obtain ⟨t, -, hanswer, hcounts⟩ := id hfits
  obtain ⟨hmem, hterm⟩ := hanswer _ rfl _ rfl
  have henabled : s.cluster.Enabled T ⟨k, .voteResponse peer response isPreVote, none⟩ :=
    ⟨hk, by simpa [Call.packet] using hmem⟩
  have hfits' := hfits.voteResponse
  rw [← hround] at hfits'
  have hsame := h.nodes k
  by_cases hcampaign : (c.nodes k).state.role = .candidate ∨ (c.nodes k).state.role = .preCandidate
  · have heq := hsame.eq_of_campaign hcampaign
    refine ⟨_, _, h.perform henabled (by rw [heq]; exact .refl _) (by rw [heq])
      (orderly_voteResponse fun hg hle hsome => ?_) hfits'⟩
    rw [← heq] at hcampaign hsome ⊢
    have hcounts := hcounts hsome
    cases isPreVote with
    | true => exact hcounts.resolve_right fun hr => by simp [hr] at hcampaign
    | false =>
      exact ⟨hcounts.role.resolve_right fun hr => by simp [hr.1] at hcampaign,
        (hterm rfl hg).trans hcounts.term.symm⟩
  -- nobody waits for the vote, but its term may still be news
  rcases lt_or_ge (s.cluster.nodes k).term response.term with hlt | hge
  · refine ⟨_, _, h.perform henabled (hsame.voteResponse hlt) rfl
      (orderly_voteResponse fun _ hle => ?_) hfits'⟩
    rw [RaftNode.term, ← hsame.state_eq] at hle
    exact absurd hlt (not_lt.mpr hle)
  have hsame' : SameButVotes ((s.cluster.nodes k).handleVoteResponse peer response isPreVote
      none).1 (c.nodes k) :=
    hsame.handleVoteResponse_unwaited hcampaign hge fun election hpre hg helection => by
      subst hpre
      refine h.not_elected hk (hcounts (by simp [helection])) (fun hr => ?_) helection hg
        (hterm rfl hg) hmem
      rw [hsame.state_eq] at hr
      exact hcampaign (.inl hr)
  have hkept : c.put k (c.nodes k) [] = c := by simp [put]
  refine Mirrors.reachable ⟨?_, h.orderly, h.reached⟩
  rw [call_eq henabled, ← hkept]
  exact h.put hsame' hfits' []

/-! ### Rounds -/

lemma Mirrors.begin {call : Call} {round : RoundState} (h : Mirrors T es c (s.call T k call))
    (henabled : s.cluster.Enabled T ⟨k, call, none⟩)
    (hfits : Fits T (s.cluster.network ++ ((s.cluster.nodes k).execute none call).2) k
      ((s.cluster.nodes k).execute none call).1 round) :
    Mirrors T es c ((s.call T k call).setRound k round) := by
  refine h.setRound ?_
  rw [call_eq henabled]
  simpa [put] using hfits

omit [Crc32] [ConfigJson] in
lemma enabled (hk : k ∈ T.members) {call : Call} (hcall : call.packet k = none) :
    s.cluster.Enabled T ⟨k, call, none⟩ :=
  ⟨hk, by simp [hcall]⟩

lemma Mirrors.mem_peers (h : Mirrors T es c s) (hk : k ∈ T.members) {peer : NodeId}
    (hpeer : peer ∈ (s.cluster.nodes k).config.peers) : peer ∈ T.members ∧ peer ≠ k := by
  rw [h.config] at hpeer
  exact (T.mem_peers k hk peer).mp hpeer

lemma Mirrors.id_eq (h : Mirrors T es c s) (k : NodeId) : (s.cluster.nodes k).config.id = k := by
  rw [h.config]

/-- Elections begin with new votes, whatever was counted before. -/
lemma Mirrors.start (h : Mirrors T es c s) (hk : k ∈ T.members) {role : Role}
    (hround : s.rounds k = .woken role) {call : Call} (hcall : call.packet k = none)
    (horderly : c.Orderly ⟨k, call, none⟩)
    (hsame : ∀ e, ((c.nodes k).withVotes e).execute none call = (c.nodes k).execute none call) :
    Mirrors T (es ++ [⟨k, call, none⟩]) (c.perform k none call) (s.call T k call) := by
  obtain ⟨e, heq, -⟩ := h.nodes k
  exact h.perform (enabled hk hcall) (by rw [heq, hsame]; exact .refl _) (by rw [heq, hsame])
    horderly (by rw [hround]; trivial)

section

variable {role : Role} (h : Mirrors T es c s) (hk : k ∈ T.members)
  (hround : s.rounds k = .woken role)

include h hk hround

lemma startPreVote_reachable :
    Reachable T es ((s.call T k .startPreVote).setRound k
      (.voting true (s.cluster.nodes k).startPreVote.2 none false)) := by
  have hm : Mirrors T (es ++ [⟨k, .startPreVote, none⟩]) _ (s.call T k .startPreVote) :=
    h.start hk hround rfl (orderly_of_request rfl rfl rfl rfl) fun _ => rfl
  refine ⟨_, _, hm.begin (enabled hk rfl)
    ⟨(s.cluster.nodes k).term + 1, fun r hr => ?_, by simp, fun _ => .inl rfl⟩⟩
  refine ⟨List.mem_append_right _ (List.mem_map_of_mem hr), ?_⟩
  obtain ⟨peer, hpeer, rfl⟩ := List.mem_map.mp hr
  exact ⟨(h.mem_peers hk hpeer).1, (h.mem_peers hk hpeer).2, h.id_eq k, rfl, rfl⟩

lemma startElection_reachable :
    Reachable T es ((s.call T k .startElection).setRound k
      (.voting false (s.cluster.nodes k).startElection.2 none false)) := by
  have hm : Mirrors T (es ++ [⟨k, .startElection, none⟩]) _ (s.call T k .startElection) :=
    h.start hk hround rfl (orderly_of_request rfl rfl rfl rfl) fun _ => rfl
  refine ⟨_, _, hm.begin (enabled hk rfl) ⟨(s.cluster.nodes k).term + 1, fun r hr => ?_, by simp,
    fun _ => ⟨rfl, congrArg some (h.id_eq k), fun election he => ?_, .inl rfl⟩⟩⟩
  · refine ⟨List.mem_append_right _ (List.mem_map_of_mem hr), ?_⟩
    obtain ⟨peer, hpeer, rfl⟩ := List.mem_map.mp hr
    exact ⟨(h.mem_peers hk hpeer).1, (h.mem_peers hk hpeer).2, h.id_eq k, rfl, rfl⟩
  · obtain rfl := Option.some.inj he
    refine ⟨?_, fun v hv => .inl ?_⟩
    · change ((s.cluster.nodes k).config.peers.length + 1) / 2 + 1 = _
      rw [h.config, T.length_peers hk]
    · rw [← h.id_eq k]
      simpa [ElectionState.recordVote, RaftNode.savePersistent] using hv

end

lemma createAppendRequests_reachable (h : Mirrors T es c s) (hk : k ∈ T.members) :
    Reachable T es ((s.call T k .createAppendRequests).setRound k
      (.replicating (s.cluster.nodes k).createAppendRequests [])) := by
  have hm : Mirrors T (es ++ [⟨k, .createAppendRequests, none⟩]) _ (s.call T k _) :=
    h.call (enabled hk rfl) rfl rfl rfl rfl (orderly_of_request rfl rfl rfl rfl)
  refine ⟨_, _, hm.begin (enabled hk rfl)
    ⟨(s.cluster.nodes k).term, fun r hr => ?_, by simp, fun _ => rfl⟩⟩
  have hsent : Packet.appendRequest r.1 r.2 ∈
      ((s.cluster.nodes k).execute none .createAppendRequests).2 := List.mem_map_of_mem hr
  obtain ⟨-, -, hpeer, _, -, hrequest⟩ := (s.cluster.nodes k).appendRequest_of_sent none hsent
  refine ⟨List.mem_append_right _ hsent, ?_⟩
  rw [hrequest]
  exact ⟨(h.mem_peers hk hpeer).1, (h.mem_peers hk hpeer).2, h.id_eq k, rfl⟩

lemma act_reachable (h : Mirrors T es c s) (hk : k ∈ T.members) {role : Role}
    (hround : s.rounds k = .woken role) : Reachable T es (s.act T k role) := by
  cases role with
  | leader => exact createAppendRequests_reachable h hk
  | candidate => exact startElection_reachable h hk hround
  | follower => exact startPreVote_reachable h hk hround
  | preCandidate => exact startPreVote_reachable h hk hround

omit [Crc32] [ConfigJson] in
lemma Fits.next {isPreVote anySuccess anySuccess' : Bool} {r : NodeId × VoteRequest}
    {rest : List (NodeId × VoteRequest)} {answer : Option VoteResponse}
    (h : Fits T net k n (.voting isPreVote (r :: rest) answer anySuccess)) :
    Fits T net k n (.voting isPreVote rest none anySuccess') := by
  obtain ⟨t, hrequests, -, hcounts⟩ := h
  exact ⟨t, fun r hr => hrequests r (List.mem_cons_of_mem _ hr), by simp, hcounts⟩

omit [Crc32] [ConfigJson] in
lemma Fits.proceed {round : RoundState} (h : Fits T net k n round) (m : RaftNode) :
    Fits T net k n (Servers.proceed m round) := by
  unfold Servers.proceed
  split
  · split <;> trivial
  · trivial
  · trivial
  · exact h

lemma answerVote_reachable (h : Mirrors T es c s) (hk : k ∈ T.members)
    {isPreVote anySuccess : Bool} {peer : NodeId} {request : VoteRequest}
    {rest : List (NodeId × VoteRequest)}
    (hround : s.rounds k = .voting isPreVote ((peer, request) :: rest) none anySuccess) :
    Reachable T es ((s.call T peer (.voteRequest request)).setRound k
      (.voting isPreVote ((peer, request) :: rest)
        (some ((s.cluster.nodes peer).handleVoteRequest request).2) anySuccess)) := by
  obtain ⟨_, hrequests, -, -⟩ := h.fits_of_eq hk hround
  obtain ⟨hmem, hpeer, -⟩ := hrequests _ List.mem_cons_self
  have henabled : s.cluster.Enabled T ⟨peer, .voteRequest request, none⟩ :=
    ⟨hpeer, by simpa [Call.packet] using hmem⟩
  have hm := h.call henabled rfl rfl rfl rfl (orderly_of_request rfl rfl rfl rfl)
  obtain ⟨t, hrequests', -, hcounts⟩ := hm.fits_of_eq hk hround
  obtain ⟨-, -, -, hid, hpre, hterm⟩ := hrequests' _ List.mem_cons_self
  refine ⟨_, _, hm.setRound ⟨t, hrequests', ?_, hcounts⟩⟩
  rintro _ ⟨⟩ _ ⟨⟩
  refine ⟨mem_call henabled ?_, fun hreal hg => ?_⟩
  · dsimp only at hid hpre
    simp [RaftNode.execute, hid, hpre, h.config]
  · exact (RaftNode.handleVoteRequest_granted _ (hpre.trans hreal) hg).1.trans hterm

section

variable {peer : NodeId} {requests : List (NodeId × AppendRequest)}
  {answers : List (NodeId × AppendResponse)}

lemma answerAppend_reachable (h : Mirrors T es c s) (hk : k ∈ T.members)
    (hround : s.rounds k = .replicating requests answers) {request : AppendRequest}
    (hr : (peer, request) ∈ requests) :
    Reachable T es ((s.call T peer (.appendEntries request)).setRound k
      (.replicating (requests.erase (peer, request)) (answers ++
        [(peer, ((s.cluster.nodes peer).handleAppendEntries request none).2)]))) := by
  obtain ⟨_, hrequests, -, -⟩ := h.fits_of_eq hk hround
  obtain ⟨hmem, hpeer, -⟩ := hrequests _ hr
  have henabled : s.cluster.Enabled T ⟨peer, .appendEntries request, none⟩ :=
    ⟨hpeer, by simpa [Call.packet] using hmem⟩
  have hm := h.call henabled rfl rfl rfl rfl (orderly_of_request rfl rfl rfl rfl)
  obtain ⟨t, hrequests', hanswers, hlead⟩ := hm.fits_of_eq hk hround
  obtain ⟨-, -, -, hid, hterm⟩ := hrequests' _ hr
  refine ⟨_, _, hm.setRound ⟨t, fun r hr' => hrequests' r (List.mem_of_mem_erase hr'), ?_, hlead⟩⟩
  intro a ha
  rcases List.mem_append.mp ha with ha | ha
  · exact hanswers a ha
  obtain rfl := List.mem_singleton.mp ha
  refine ⟨mem_call henabled ?_, fun hsuccess => (success_term hsuccess).trans hterm⟩
  dsimp only at hid
  simp [RaftNode.execute, hid, h.config]

lemma receiveAppend_reachable (h : Mirrors T es c s) (hk : k ∈ T.members)
    (hround : s.rounds k = .replicating requests answers) {response : AppendResponse}
    (ha : (peer, response) ∈ answers) :
    Reachable T es ((s.call T k (.appendResponse peer response)).setRound k
      (.replicating requests (answers.erase (peer, response)))) := by
  obtain ⟨t, -, hanswers, hlead⟩ := h.fits_of_eq hk hround
  obtain ⟨hmem, hterm⟩ := hanswers _ ha
  have henabled : s.cluster.Enabled T ⟨k, .appendResponse peer response, none⟩ :=
    ⟨hk, by simpa [Call.packet] using hmem⟩
  have hm := h.call henabled rfl rfl rfl rfl (orderly_appendResponse fun hrole hsuccess => by
    rw [RaftNode.term, ← (h.nodes k).state_eq] at *
    exact (hterm hsuccess).trans (hlead hrole).symm)
  obtain ⟨t, hrequests, hanswers, hlead⟩ := hm.fits_of_eq hk hround
  exact ⟨_, _, hm.setRound
    ⟨t, hrequests, fun a ha' => hanswers a (List.mem_of_mem_erase ha'), hlead⟩⟩

end

/-- Whatever happens next. -/
lemma step_reachable (h : Mirrors T es c s) {e : ServersEvent} (hundisturbed : Undisturbed s e) :
    Reachable T es (step T s e) := by
  obtain ⟨k, e⟩ := e
  rw [step]
  split
  swap
  · exact h.reachable
  next hk =>
  dsimp only at hk ⊢
  unfold stepServer
  split
  case h_1 call _ =>
    split
    · next hhandled => exact handle_reachable h hhandled hundisturbed
    · exact h.reachable
  case h_2 => exact Mirrors.reachable (h.setRound (by exact trivial))
  case h_3 hround => exact act_reachable h hk hround
  case h_4 hround => exact answerVote_reachable h hk hround
  case h_5 hround =>
    obtain ⟨more, c', hm⟩ := receiveVote_reachable h hk hround
    refine ⟨more, c', hm.setRound ?_⟩
    split
    · trivial
    · exact (hm.fits_of_eq hk hround).next
  case h_6 hround => exact (h.setRound (h.fits_of_eq hk hround).next).reachable
  case h_7 hround =>
    split
    · next hr => exact answerAppend_reachable h hk hround hr
    · exact h.reachable
  case h_8 hround =>
    split
    · next ha => exact receiveAppend_reachable h hk hround ha
    · exact h.reachable
  case h_9 hround =>
    obtain ⟨t, hrequests, hanswers, hlead⟩ := h.fits_of_eq hk hround
    exact Mirrors.reachable (h.setRound ⟨t, fun r hr => hrequests r (List.mem_of_mem_filter hr),
      fun a ha => hanswers a (List.mem_of_mem_filter ha), hlead⟩)
  case h_10 => exact (h.setRound ((h.fits k hk).proceed _)).reachable
  case h_11 => exact h.reachable

/-! ### Whole runs -/

variable {es : List ServersEvent}

lemma exists_follows (h : Along (step T) Undisturbed (init T) es) :
    ∃ calls, OrderlyRun T calls ∧
      ∀ es₁, es₁ <+: es → ∃ calls₁, calls₁ <+: calls ∧
        Follows T (run (step T) (init T) es₁) (Cluster.after T calls₁) := by
  obtain ⟨calls, horderly, -, hmoments⟩ := exists_run_of_simulates (R := Follows T)
    (show Follows T (init T) _ from ⟨rfl, fun _ => .refl _, fun _ _ => trivial⟩)
    (fun _ _ _ hundisturbed horderly hfollows => by
      obtain ⟨more, _, hm⟩ := step_reachable ⟨hfollows, horderly, rfl⟩ hundisturbed
      exact ⟨more, hm.orderly, show Follows T _ (Cluster.after T _) from
        hm.reached ▸ hm.toFollows⟩) h
  exact ⟨calls, horderly, hmoments⟩

omit [Crc32] [ConfigJson] in
lemma Follows.leadsIn (h : Follows T s c) (hl : s.cluster.LeadsIn k t) : c.LeadsIn k t := by
  rwa [LeadsIn, RaftNode.term, ← (h.nodes k).state_eq]

/-- **Servers keep to orderly runs.** As long as no leadership is handed over, the nodes of the
servers go through an orderly run of the protocol, up to votes that nobody waits for any more. -/
theorem follows_orderly_run (T : Topology) (es : List ServersEvent)
    (h : Along (step T) Undisturbed (init T) es) :
    ∃ calls, OrderlyRun T calls ∧
      ∀ es₁, es₁ <+: es → ∃ calls₁, calls₁ <+: calls ∧ ∀ k,
        SameButVotes ((run (step T) (init T) es₁).cluster.nodes k)
          ((Cluster.after T calls₁).nodes k) := by
  obtain ⟨calls, horderly, hmoments⟩ := exists_follows h
  refine ⟨calls, horderly, fun es₁ hp => ?_⟩
  obtain ⟨calls₁, hp', hfollows⟩ := hmoments es₁ hp
  exact ⟨calls₁, hp', hfollows.nodes⟩

/-- **Servers are safe.** Two servers that lead the same term, at whatever moments, are the same,
and two that have committed an index hold the same entry there. Nothing is asked of the votes and
acknowledgements that are counted: the rounds see to it. -/
theorem servers_safe (T : Topology) (es : List ServersEvent)
    (h : Along (step T) Undisturbed (init T) es) {es₁ es₂ : List ServersEvent} (h₁ : es₁ <+: es)
    (h₂ : es₂ <+: es) {n m : NodeId} :
    let c₁ := (run (step T) (init T) es₁).cluster
    let c₂ := (run (step T) (init T) es₂).cluster
    (∀ t, c₁.LeadsIn n t → c₂.LeadsIn m t → n = m) ∧
      ∀ i, 1 ≤ i → i ≤ (c₁.nodes n).state.commitIndex → i ≤ (c₂.nodes m).state.commitIndex →
        ∃ e, (c₁.nodes n).log.get i = some e ∧ (c₂.nodes m).log.get i = some e := by
  intro c₁ c₂
  obtain ⟨calls, horderly, hmoments⟩ := exists_follows h
  obtain ⟨calls₁, hp₁, hf₁⟩ := hmoments es₁ h₁
  obtain ⟨calls₂, hp₂, hf₂⟩ := hmoments es₂ h₂
  refine ⟨fun t hn hm => ?_, fun i hi hn hm => ?_⟩
  · exact uniqueLeaders T (horderly.mono _ fun _ _ h => h.2.2.1) calls₁ calls₂ hp₁ hp₂ n m t
      (hf₁.leadsIn hn) (hf₂.leadsIn hm)
  · rw [(hf₁.nodes n).state_eq] at hn
    rw [(hf₂.nodes m).state_eq] at hm
    obtain ⟨e, he⟩ := exists_get_of_le_commitIndex (horderly.of_isPrefix _ hp₁) hi hn
    rw [(hf₁.nodes n).log_eq, (hf₂.nodes m).log_eq]
    exact ⟨e, he, (get_eq_of_committed horderly hp₁ hp₂ hi hn hm).symm.trans he⟩

end Servers

/-! ### A run -/

namespace Servers

open scoped Runs

/-- Server 1 is elected by server 2 and commits its no-op, and server 2 hears of it. -/
def electedAndCommitted : List ServersEvent :=
  [.wake, .act, .answerVote, .receiveVote, .loseVote, .proceed, .act, .answerVote, .receiveVote,
    .wake, .act, .answerAppend 2 ⟨1, 1, 0, 0, [⟨1, 1, [], .noop⟩], 0⟩,
    .receiveAppend 2 ⟨1, true, 1⟩, .loseAppend 3, .proceed, .wake, .act,
    .answerAppend 2 ⟨1, 1, 1, 1, [], 1⟩].map (⟨1, ·⟩)

theorem follows_orderly_run_electedAndCommitted :
    ∃ calls, Along (Cluster.step .three) Orderly (Cluster.init .three) calls ∧
      ((run (Cluster.step .three) (Cluster.init .three) calls).nodes 2).state.commitIndex = 1 := by
  obtain ⟨calls, horderly, hmoments⟩ := follows_orderly_run .three electedAndCommitted
    (by decide +kernel)
  obtain ⟨calls₁, hp, hsame⟩ := hmoments _ List.prefix_rfl
  refine ⟨calls₁, horderly.of_isPrefix _ hp, ?_⟩
  rw [← (hsame 2).state_eq]
  decide +kernel

theorem servers_safe_electedAndCommitted :
    let c := (run (step .three) (init .three) electedAndCommitted).cluster
    (c.nodes 1).state.commitIndex = 1 ∧ (c.nodes 2).state.commitIndex = 1 ∧
      ∃ e, (c.nodes 1).log.get 1 = some e ∧ (c.nodes 2).log.get 1 = some e := by
  refine ⟨by decide +kernel, by decide +kernel, ?_⟩
  exact (servers_safe .three electedAndCommitted (by decide +kernel) List.prefix_rfl
    List.prefix_rfl).2 1 le_rfl (by decide +kernel) (by decide +kernel)

end Servers

end Raftrust.Server

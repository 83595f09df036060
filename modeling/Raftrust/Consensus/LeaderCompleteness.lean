import Raftrust.Consensus.Acknowledgement
import Raftrust.Consensus.Progress

/-!
# Leader completeness

A vote is only given to a candidate whose log is up to date, and a candidate's log does not change
while it stands. So the votes a leader is elected by come from nodes whose logs its own covers, and
what a majority has accepted is in the log of every later leader.
-/

namespace Raftrust.Consensus

open Lib Storage Function

/-! ### Candidates -/

lemma RaftLog.lastTerm_of_base {log : RaftLog} (h : log.snapshotTerm = 0) :
    log.lastTerm = Replication.lastTerm LogEntry.term log.entries := by
  unfold RaftLog.lastTerm Replication.lastTerm
  cases log.entries.getLast? with
  | none => exact h
  | some e => rfl

section

variable [Crc32] [ConfigJson]

/-- A candidate has just entered its term, or was candidate in it before, with the same log. -/
lemma RaftNode.execute_candidate {n : RaftNode} {fault : Option WalFault} {call : Call}
    (hsnap : call.isSnapshot = false)
    (hrole : (n.execute fault call).1.state.role = .candidate) :
    (n.execute fault call).1.log = n.log ∧
      ((n.execute fault call).1.term = n.term + 1 ∨
        (n.state.role = .candidate ∧ (n.execute fault call).1.term = n.term)) := by
  have heffect := n.execute_roleEffect fault call
  have hmove := n.execute_logMove fault hsnap
  generalize (n.execute fault call).1 = n' at *
  constructor
  · cases hmove with
    | led _ hr => simp [hr] at hrole
    | accepted _ _ _ hr => simp [hr] at hrole
    | raised _ _ _ hlog => exact hlog
  · cases heffect with
    | kept hr ht => exact .inr ⟨hr.symm.trans hrole, ht⟩
    | follower hr => simp [hr] at hrole
    | preCandidate hr => simp [hr] at hrole
    | candidate _ ht => exact .inl ht
    | counted _ _ _ _ _ _ _ _ hr ht => exact .inr ⟨hr.symm.trans hrole, ht⟩
    | elected _ _ _ _ _ _ _ _ hr => simp [hr] at hrole

end

namespace Cluster

/-- `n` stands for election in term `t`. -/
def StandsIn (n : RaftNode) (t : Term) : Prop :=
  n.state.role = .candidate ∧ n.term = t

/-- Votes come from nodes whose logs are covered by the candidate's. -/
structure VotesCovered (T : Topology) (A : Ghost) (c : Cluster) : Prop where
  base : ∀ n, (c.nodes n).log.snapshotTerm = 0
  request : ∀ target request, Packet.voteRequest target request ∈ c.network →
    request.isPreVote = false → request.term ≤ (c.nodes request.candidateId).term ∧
      (StandsIn (c.nodes request.candidateId) request.term →
        request.lastLogIndex = (c.nodes request.candidateId).log.lastIndex ∧
          request.lastLogTerm = (c.nodes request.candidateId).log.lastTerm)
  granted : ∀ target sender response,
    Packet.voteResponse target sender response false ∈ c.network → response.voteGranted = true →
      response.term ≤ (c.nodes target).term ∧ (StandsIn (c.nodes target) response.term →
        A.Covers LogEntry.term T.members sender (A.log target) response.term)
  counted : ∀ n election, (c.nodes n).state.role = .candidate →
    (c.nodes n).electionState = some election → ∀ v ∈ election.votesReceived,
      A.Covers LogEntry.term T.members v (A.log n) (c.nodes n).term

lemma VotesCovered.init (T : Topology) : VotesCovered T Replication.init (init T) where
  base := fun _ => rfl
  request := by simp [Cluster.init]
  granted := by simp [Cluster.init]
  counted := by simp [Cluster.init, freshNode]

/-! ### One call -/

section

variable {T : Topology} {A A' : Ghost} {c : Cluster}

lemma Simulated.upToDate (h : Simulated A c) {n m : NodeId}
    (hn : (c.nodes n).log.snapshotTerm = 0) (hm : (c.nodes m).log.snapshotTerm = 0)
    (hup : isLogUpToDate (c.nodes n).log.lastTerm (c.nodes n).log.lastIndex
      (c.nodes m).log.lastTerm (c.nodes m).log.lastIndex = true) :
    Replication.UpToDate LogEntry.term (A.log n) (A.log m) := by
  rw [isLogUpToDate_iff, RaftLog.lastTerm_of_base hn, RaftLog.lastTerm_of_base hm,
    h.lastIndex n, h.lastIndex m, ← h.log n, ← h.log m] at hup
  exact hup

variable [Crc32] [ConfigJson]

omit [Crc32] [ConfigJson] in
/-- The voters a candidate has counted, a new one included, are covered by its log. -/
lemma VotesCovered.counted_insert (h : VotesCovered T A c) {k sender : NodeId}
    {response : VoteResponse} {wasPreVote : Bool} {election : ElectionState}
    (hpacket : ∀ p ∈ (Call.voteResponse sender response wasPreVote).packet k, p ∈ c.network)
    (hown : (c.nodes k).CountsOwnVotes (.voteResponse sender response wasPreVote))
    (hterm : response.term ≤ (c.nodes k).term) (hg : response.voteGranted = true)
    (helection : (c.nodes k).electionState = some election)
    (hcand : (c.nodes k).state.role = .candidate) :
    ∀ v ∈ insert sender election.votesReceived,
      A.Covers LogEntry.term T.members v (A.log k) (c.nodes k).term := by
  obtain ⟨rfl, hresp⟩ := hown.of_candidate hterm hg helection hcand
  intro v hv
  rcases Finset.mem_insert.mp hv with rfl | hv
  · have hcov := (h.granted k v response (hpacket _ rfl) hg).2 ⟨hcand, hresp.symm⟩
    rwa [hresp] at hcov
  · exact h.counted k election hcand helection v hv

/-- A node that becomes leader is covered by a majority. -/
lemma VotesCovered.elected (h : VotesCovered T A c) {voted : VoteRecord}
    (hrec : VotesRecorded T voted c) {k : NodeId} (hk : k ∈ T.members) {call : Call}
    (hpacket : ∀ p ∈ call.packet k, p ∈ c.network) (hown : (c.nodes k).CountsOwnVotes call)
    {fault : Option WalFault} (hold : (c.nodes k).state.role ≠ .leader)
    (hnew : ((c.nodes k).execute fault call).1.state.role = .leader) :
    ∃ Q, IsMajority T.members Q ∧
      ∀ v ∈ Q, A.Covers LogEntry.term T.members v (A.log k) (c.nodes k).term := by
  cases (c.nodes k).execute_roleEffect fault call with
  | kept hr => exact absurd (hr.symm.trans hnew) hold
  | follower hr => simp [hr] at hnew
  | preCandidate hr => simp [hr] at hnew
  | candidate hr => simp [hr] at hnew
  | counted _ _ _ _ _ _ _ _ hr => exact absurd (hr.symm.trans hnew) hold
  | elected sender response election hcall hterm hg helection hq =>
    subst hcall
    have hcand := hown.candidate hterm hg helection
    obtain ⟨hneed, hvotes⟩ := hrec.counted hk hpacket hown hterm hg helection hcand
    rw [ElectionState.recordVote_quorum_iff, hneed] at hq
    exact ⟨_, ⟨fun v hv => (hvotes v hv).1, hq⟩,
      h.counted_insert hpacket hown hterm hg helection hcand⟩

omit [ConfigJson] in
/-- What a follower takes over from a request meets the conditions of `Safe.adopt`. -/
lemma Simulated.adopt_conditions (h : Simulated A c) (hown : OwnEnds A c)
    (hsafe : A.Safe LogEntry.term EntryAt T.members) {f : NodeId} {request : AppendRequest}
    (hmem : Packet.appendRequest f request ∈ c.network)
    (haccepts : (c.nodes f).Accepts request) :
    let L := (RaftNode.mergeEntries (c.nodes f).log request.entries none).entries
    L <+: A.hist request.term ∧ A.Own LogEntry.term request.term (L.length - 1) ∧
      A.acc f request.term ≤ L.length ∧ (L = A.log f ∨ ¬ L <+: A.log f) := by
  intro L
  obtain ⟨i, hi, ⟨e, he, hterm⟩, hlen, hp⟩ := h.mergeEntries_prefix hown hmem haccepts
  obtain ⟨j, hj, hslice, -⟩ := hown.request f request hmem
  have hkeep : L = A.log f ∨ ¬ L <+: A.log f := by
    rcases (h.mergeEntries hslice haccepts none).2 with ⟨-, heq⟩ | ⟨hnot, heq⟩ | ⟨hne, -⟩
    · exact .inl heq
    · refine .inr ?_
      rwa [show L = _ from heq]
    · exact absurd rfl hne
  refine ⟨hp, ?_, ?_, hkeep⟩
  · -- behind an entry of the term there are only entries of the term
    change i ≤ L.length at hlen
    have hlast : L[L.length - 1]? = some L[L.length - 1] := List.getElem?_eq_getElem (by lia)
    have hlast' := getElem?_of_isPrefix hp hlast
    refine ⟨_, hlast', le_antisymm ?_ ?_⟩
    · exact h.consistent.wf.term_le _ _ (List.mem_of_getElem? hlast')
    · rw [← hterm]
      exact (h.consistent.wf.self _).term_mono h.consistent.wf (by lia) he hlast'
  · -- what the node had accepted in this term it still has
    rcases Nat.eq_zero_or_pos (A.acc f request.term) with h0 | hpos
    · rw [h0]
      exact Nat.zero_le _
    have hcur : A.cur f = request.term :=
      le_antisymm (by rw [h.cur f]; exact haccepts.1) (hsafe.acc_cur f _ hpos)
    rw [← hcur] at hpos hp ⊢
    obtain ⟨hlog, hacc⟩ := hsafe.pinned f hpos
    rw [← hacc]
    rcases hkeep with heq | hnot
    · rw [heq]
    · by_contra hshort
      exact hnot (List.prefix_of_prefix_length_le hp hlog (by lia))

lemma Simulated.safe_ghostStep (h : Simulated A c) (hown : OwnEnds A c)
    (hsafe : A.Safe LogEntry.term EntryAt T.members) {k : NodeId} {call : Call}
    (hpacket : ∀ p ∈ call.packet k, p ∈ c.network) (hsnap : call.isSnapshot = false)
    (hpos : ((c.nodes k).execute none call).1.state.role = .leader → 1 ≤ (c.nodes k).term)
    (hunique : ((c.nodes k).execute none call).1.state.role = .leader →
      ∀ m, A.leader (c.nodes k).term = some m → m = k)
    (helected : (c.nodes k).state.role ≠ .leader →
      ((c.nodes k).execute none call).1.state.role = .leader →
      ∃ Q, IsMajority T.members Q ∧
        ∀ v ∈ Q, A.Covers LogEntry.term T.members v (A.log k) (c.nodes k).term) :
    (ghostStep A k call (c.nodes k) ((c.nodes k).execute none call).1).Safe LogEntry.term EntryAt
        T.members ∧
      A.Grows (ghostStep A k call (c.nodes k) ((c.nodes k).execute none call).1) := by
  have hmove := (c.nodes k).execute_logMove none hsnap
  generalize ((c.nodes k).execute none call).1 = n' at *
  cases hmove with
  | led es role term base entries own _ =>
    rw [ghostStep_of_leader A k role entries]
    have hlead := h.leader_cases (hunique role)
    obtain ⟨hes, hok⟩ := h.own_entries (hpos role) own
    refine ⟨hsafe.lead ?_ hes hok, hsafe.grows_lead es hlead⟩
    -- a node that leads already, or one that covered votes have just elected
    by_cases hold : (c.nodes k).state.role = .leader
    · left
      rw [h.cur k]
      exact h.leader k hold
    · rcases hlead with hnone | hself
      · right
        rw [h.cur k] at hnone ⊢
        exact ⟨hnone, helected hold role⟩
      · exact .inl hself
  | accepted request hcall haccepts role term log =>
    subst hcall
    rw [ghostStep_of_accepts A k role haccepts, term, log]
    obtain ⟨hl, hne, -⟩ := h.request k request (hpacket _ rfl)
    obtain ⟨hp, hlast, hacc, -⟩ := h.adopt_conditions hown hsafe (hpacket _ rfl) haccepts
    have hcur : A.cur k ≤ request.term := by
      rw [h.cur k]
      exact haccepts.1
    refine ⟨hsafe.adopt hcur ?_ hp hlast hacc, Replication.grows_adopt hcur hacc⟩
    rw [hl]
    exact fun heq => hne (Option.some.inj heq).symm
  | raised role term rejects log =>
    rw [ghostStep_of_rejects A k role rejects]
    have hcur : A.cur k ≤ n'.term := by
      rw [h.cur k]
      exact term
    exact ⟨hsafe.raise hcur, Replication.grows_raise hcur⟩

/-! ### Votes stay covered -/

section

variable {k : NodeId} {call : Call}

/-- A node that stands in a term it had reached before the call stood in it already, with the same
log. -/
lemma standsIn_of_perform (hsnap : call.isSnapshot = false) {m : NodeId} {t : Term}
    (ht : t ≤ (c.nodes m).term) (h : StandsIn ((c.perform k none call).nodes m) t) :
    StandsIn (c.nodes m) t ∧ ((c.perform k none call).nodes m).log = (c.nodes m).log := by
  rcases eq_or_ne m k with rfl | hm
  · rw [put_nodes_self] at h ⊢
    obtain ⟨hrole, heq⟩ := h
    obtain ⟨hlog, hnew | ⟨hcand, hsame⟩⟩ := RaftNode.execute_candidate hsnap hrole
    · lia
    · exact ⟨⟨hcand, hsame.symm.trans heq⟩, hlog⟩
  · rw [put_nodes_of_ne c hm] at h ⊢
    exact ⟨h, rfl⟩

lemma term_le_perform (m : NodeId) : (c.nodes m).term ≤ ((c.perform k none call).nodes m).term := by
  rcases eq_or_ne m k with rfl | hm
  · rw [put_nodes_self]
    exact (c.nodes m).execute_term_le none call
  · rw [put_nodes_of_ne c hm]

variable (h : VotesCovered T A c) (hsim : Simulated A c)
  (hsafe : A.Safe LogEntry.term EntryAt T.members)
  (hconfig : (c.nodes k).config = { id := k, peers := T.peers k })
  (hpacket : ∀ p ∈ call.packet k, p ∈ c.network) (hsnap : call.isSnapshot = false)
  (hown : (c.nodes k).CountsOwnVotes call)
  (hsafe' : A'.Safe LogEntry.term EntryAt T.members) (hgrows : A.Grows A')
  (hsim' : Simulated A' (c.perform k none call))

include hsim hsafe hgrows hsim' in
/-- Covered votes stay covered as long as the candidate's log does not change. -/
lemma covers_perform {m v : NodeId} {t : Term}
    (hlog : ((c.perform k none call).nodes m).log = (c.nodes m).log)
    (hcov : A.Covers LogEntry.term T.members v (A.log m) t) :
    A'.Covers LogEntry.term T.members v (A'.log m) t := by
  rw [hsim'.log m, hlog, ← hsim.log m]
  exact hgrows.covers hsafe.acc_le hcov

include h hsnap in
lemma VotesCovered.base_perform (m : NodeId) :
    ((c.perform k none call).nodes m).log.snapshotTerm = 0 := by
  rcases eq_or_ne m k with rfl | hm
  · rw [put_nodes_self, (RaftNode.execute_snapshot _ _ hsnap).2, h.base]
  · rw [put_nodes_of_ne c hm, h.base]

include h hconfig hsnap in
lemma VotesCovered.request_perform {target : NodeId} {request : VoteRequest}
    (hmem : Packet.voteRequest target request ∈ (c.perform k none call).network)
    (hreal : request.isPreVote = false) :
    request.term ≤ ((c.perform k none call).nodes request.candidateId).term ∧
      (StandsIn ((c.perform k none call).nodes request.candidateId) request.term →
        request.lastLogIndex = ((c.perform k none call).nodes request.candidateId).log.lastIndex ∧
          request.lastLogTerm =
            ((c.perform k none call).nodes request.candidateId).log.lastTerm) := by
  rcases mem_network_put.mp hmem with hmem | hmem
  · obtain ⟨hle, hlast⟩ := h.request target request hmem hreal
    refine ⟨hle.trans (term_le_perform _), fun hstands => ?_⟩
    obtain ⟨hstands', hlog⟩ := standsIn_of_perform hsnap hle hstands
    rw [hlog]
    exact hlast hstands'
  · obtain ⟨heq, rfl⟩ := (c.nodes k).voteRequest_of_sent hmem hreal
    have hid : (c.nodes k).config.id = k := by rw [hconfig]
    dsimp only
    rw [hid, put_nodes_self, heq]
    exact ⟨le_rfl, fun _ => ⟨rfl, rfl⟩⟩

include h hsim hsafe hconfig hpacket hsnap hsafe' hgrows hsim' in
lemma VotesCovered.granted_perform {target sender : NodeId} {response : VoteResponse}
    (hmem : Packet.voteResponse target sender response false ∈ (c.perform k none call).network)
    (hg : response.voteGranted = true) :
    response.term ≤ ((c.perform k none call).nodes target).term ∧
      (StandsIn ((c.perform k none call).nodes target) response.term →
        A'.Covers LogEntry.term T.members sender (A'.log target) response.term) := by
  rcases mem_network_put.mp hmem with hmem | hmem
  · obtain ⟨hle, hcov⟩ := h.granted target sender response hmem hg
    refine ⟨hle.trans (term_le_perform _), fun hstands => ?_⟩
    obtain ⟨hstands', hlog⟩ := standsIn_of_perform hsnap hle hstands
    exact covers_perform hsim hsafe hgrows hsim' hlog (hcov hstands')
  · obtain ⟨request, rfl, hreal, rfl, rfl, rfl⟩ := (c.nodes k).voteResponse_of_sent hmem
    obtain ⟨hresp, hnow, hup⟩ := (c.nodes k).handleVoteRequest_granted hreal hg
    rw [hresp, hconfig]
    obtain ⟨hle, hlast⟩ := h.request_perform hconfig hsnap
      (mem_network_put.mpr (.inl (hpacket _ rfl))) hreal
    refine ⟨hle, fun hstands => ?_⟩
    -- the log the voter compared its own with is still the candidate's
    obtain ⟨hindex, hterm⟩ := hlast hstands
    refine hsafe'.covers_of_upToDate ?_ (hsafe'.log_matches _)
      (hsim'.upToDate (h.base_perform hsnap _) (h.base_perform hsnap k) ?_)
    · rw [hsim'.cur k, put_nodes_self]
      exact hnow.ge
    · have hlog : ((c.nodes k).execute none (.voteRequest request)).1.log = (c.nodes k).log :=
        (c.nodes k).handleVoteRequest_log request
      rw [hindex, hterm] at hup
      rwa [put_nodes_self, hlog]

include h hsim hsafe hconfig hpacket hsnap hown hsafe' hgrows hsim' in
lemma VotesCovered.counted_perform {m : NodeId} {election : ElectionState}
    (hcand : ((c.perform k none call).nodes m).state.role = .candidate)
    (helection : ((c.perform k none call).nodes m).electionState = some election) {v : NodeId}
    (hv : v ∈ election.votesReceived) :
    A'.Covers LogEntry.term T.members v (A'.log m) ((c.perform k none call).nodes m).term := by
  have hkeep {w : NodeId} {t : Term} := covers_perform (m := m) (v := w) (t := t) hsim hsafe hgrows
    hsim'
  rcases eq_or_ne m k with rfl | hm
  swap
  · rw [put_nodes_of_ne c hm] at hcand helection hkeep ⊢
    exact hkeep rfl (h.counted m election hcand helection v hv)
  have hcur := hsim'.cur m
  rw [put_nodes_self] at hcand helection hcur hkeep ⊢
  replace hkeep {w : NodeId} {t : Term} := @hkeep w t (RaftNode.execute_candidate hsnap hcand).1
  cases (c.nodes m).execute_roleEffect none call with
  | kept hr ht he =>
    rw [ht]
    exact hkeep (h.counted m election (hr ▸ hcand) (he ▸ helection) v hv)
  | follower hr => simp [hr] at hcand
  | preCandidate hr => simp [hr] at hcand
  -- its own vote: it covers its own log
  | candidate hr ht hvote he =>
    obtain rfl := Option.some.inj (he.symm.trans helection)
    obtain rfl : v = m := by simpa [hconfig] using hv
    exact hsafe'.covers_of_upToDate hcur.ge (hsafe'.log_matches v) (.inr ⟨rfl, le_rfl⟩)
  | counted sender response wasPreVote election₀ hcall hle hg helection₀ hr ht he =>
    obtain rfl := Option.some.inj (he.symm.trans helection)
    subst hcall
    rw [hr] at hcand
    rw [ht]
    exact hkeep (h.counted_insert hpacket hown hle hg helection₀ hcand v hv)
  | elected _ _ _ _ _ _ _ _ hr => simp [hr] at hcand

include h hsim hsafe hconfig hpacket hsnap hown hsafe' hgrows hsim' in
lemma VotesCovered.perform : VotesCovered T A' (c.perform k none call) where
  base := h.base_perform hsnap
  request := fun _ _ => h.request_perform hconfig hsnap
  granted := fun _ _ _ => h.granted_perform hsim hsafe hconfig hpacket hsnap hsafe' hgrows hsim'
  counted := fun _ _ hcand helection _ => h.counted_perform hsim hsafe hconfig hpacket hsnap hown
    hsafe' hgrows hsim' hcand helection

end

end

end Cluster

end Raftrust.Consensus

import Raftrust.Consensus.Cluster

/-!
# What each call comes to

For every call of the node, the states it can end in and the guards under which it does. What calls
do to votes, to logs and to the commit index is read off these cases.
-/

namespace Raftrust.Consensus

open Storage

/-! ### Observed terms -/

/-- The term a call makes the node see. -/
def Call.observedTerm : Call → Option Term
  | voteRequest request => if request.isPreVote then none else some request.term
  | voteResponse _ response _ => some response.term
  | appendEntries request => some request.term
  | appendResponse _ response => some response.term
  | installSnapshot leaderTerm _ _ _ _ => some leaderTerm
  | _ => none

namespace RaftNode

variable (n : RaftNode)

@[simp] lemma observeTerm_config (t : Term) : (n.observeTerm t).config = n.config := by
  unfold observeTerm
  split <;> rfl

@[simp] lemma observeTerm_log (t : Term) : (n.observeTerm t).log = n.log := by
  unfold observeTerm
  split <;> rfl

@[simp] lemma observeTerm_term (t : Term) : (n.observeTerm t).term = max n.term t := by
  unfold observeTerm
  split
  · next h => exact (max_eq_right h.le).symm
  · next h => exact (max_eq_left (not_lt.mp h)).symm

@[simp] lemma observeTerm_commitIndex (t : Term) :
    (n.observeTerm t).state.commitIndex = n.state.commitIndex := by
  unfold observeTerm
  split <;> rfl

lemma observeTerm_of_lt {t : Term} (h : n.term < t) : n.observeTerm t = n.stepDownInner t :=
  if_pos h

lemma observeTerm_of_le {t : Term} (h : t ≤ n.term) : n.observeTerm t = n :=
  if_neg (not_lt.mpr h)

/-! ### Elections -/

lemma handleVoteRequest_cases (request : VoteRequest) :
    let m := n.observeTerm request.term
    (n.handleVoteRequest request).1 = n ∨ (n.handleVoteRequest request).1 = m ∨
      (shouldGrantVote m.state request m.log.lastIndex m.log.lastTerm = true ∧
        (n.handleVoteRequest request).1 = m.grantVote request.candidateId) := by
  unfold handleVoteRequest
  split
  · exact .inl rfl
  · dsimp only
    split
    · next hgrant => exact .inr (.inr ⟨hgrant, rfl⟩)
    · exact .inr (.inl rfl)

lemma handleVoteRequest_log (request : VoteRequest) :
    (n.handleVoteRequest request).1.log = n.log := by
  rcases n.handleVoteRequest_cases request with heq | heq | ⟨-, heq⟩
  · rw [heq]
  · rw [heq, observeTerm_log]
  · rw [heq]
    exact n.observeTerm_log request.term

lemma handleVoteResponse_cases [Crc32] (sender : NodeId) (response : VoteResponse)
    (wasPreVote : Bool) (fault : Option WalFault) :
    let n' := (n.handleVoteResponse sender response wasPreVote fault).1
    (n.term < response.term ∧ n' = n.stepDownInner response.term) ∨ n' = n ∨
      ∃ election, response.term ≤ n.term ∧ response.voteGranted = true ∧
        n.electionState = some election ∧
        let m := { n with electionState := some (election.recordVote sender).1 }
        (n' = m ∨ (wasPreVote = false ∧ (election.recordVote sender).2 = true ∧
          n' = m.becomeLeaderInner fault)) := by
  unfold handleVoteResponse
  split
  · next hterm => exact .inl ⟨hterm, rfl⟩
  · next hterm =>
    split
    · exact .inr (.inl rfl)
    · next hgranted =>
      split
      · exact .inr (.inl rfl)
      · next election helection =>
        refine .inr (.inr ⟨election, not_lt.mp hterm, by simpa using hgranted, helection, ?_⟩)
        dsimp only
        split
        · next quorum =>
          split
          · exact .inl rfl
          · next hreal => exact .inr ⟨by simpa using hreal, quorum, rfl⟩
        · exact .inl rfl

/-! ### Following a leader -/

section

variable [Crc32]

/-- Whether or not the request is accepted, the node follows its sender, unless the request is of an
old term. -/
lemma handleAppendEntries_cases (request : AppendRequest) (fault : Option WalFault) :
    let n' := (n.handleAppendEntries request fault).1
    let m := (n.observeTerm request.term).followLeader request.leaderId
    (request.term < n.term ∧ n' = n) ∨
      (¬ request.term < n.term ∧ ∃ log commitIndex,
        n' = { m with log := log, state := { m.state with commitIndex := commitIndex } }) := by
  unfold handleAppendEntries
  split
  · next hterm => exact .inl ⟨hterm, rfl⟩
  · next hterm =>
    refine .inr ⟨hterm, ?_⟩
    dsimp only
    split
    · exact ⟨_, _, rfl⟩
    · exact ⟨_, _, rfl⟩

lemma handleInstallSnapshot_cases (t : Term) (l : NodeId) (metadata : SnapshotMetadata)
    (data : Bytes) (files : SnapshotFiles) :
    let n' := (n.handleInstallSnapshot t l metadata data files).1
    let m := (n.observeTerm t).followLeader l
    (t < n.term ∧ n' = n) ∨
      (¬ t < n.term ∧ ∃ log commitIndex lastApplied,
        (log = n.log ∨
          log = n.log.compact metadata.lastIncludedIndex metadata.lastIncludedTerm) ∧
        n' = { m with
          log := log
          state := { m.state with commitIndex := commitIndex, lastApplied := lastApplied } }) := by
  unfold handleInstallSnapshot
  split
  · next hterm => exact .inl ⟨hterm, rfl⟩
  · next hterm =>
    refine .inr ⟨hterm, ?_⟩
    have hlog : ((n.observeTerm t).followLeader l).log = n.log := n.observeTerm_log t
    dsimp only
    split
    · exact ⟨_, _, _, .inl hlog, rfl⟩
    · split
      · exact ⟨_, _, _, .inl hlog, rfl⟩
      · exact ⟨_, _, _, .inr (by rw [hlog]), rfl⟩

lemma triggerSnapshot_cases (data : Bytes) (files : SnapshotFiles) :
    (n.triggerSnapshot data files).1 = n ∨
      ∃ s t, (n.triggerSnapshot data files).1 = { n with log := n.log.compact s t } := by
  unfold triggerSnapshot
  dsimp only
  split
  · exact .inl rfl
  · cases files with
    | noDirectory => exact .inl rfl
    | writeFails => exact .inl rfl
    | written => exact .inr ⟨_, _, rfl⟩

end

/-! ### Leading -/

/-- A leader takes a response that is not of a later term into its bookkeeping, and only a success
changes the match indices. -/
lemma handleAppendResponse_cases (sender : NodeId) (response : AppendResponse) :
    let n' := n.handleAppendResponse sender response
    (n.term < response.term ∧ n' = n.stepDownInner response.term) ∨
      (response.term ≤ n.term ∧ n' = n) ∨
      (response.term ≤ n.term ∧ n.state.role = .leader ∧
        ∃ leader leader', n.leaderState = some leader ∧
          leader'.matchIndex = (if response.success then
            leader.matchIndex.insert sender response.matchIndex else leader.matchIndex) ∧
          n' = tryAdvanceCommit { n with leaderState := some leader' }) := by
  unfold handleAppendResponse
  split
  · next hterm => exact .inl ⟨hterm, rfl⟩
  · next hterm =>
    have hle := not_lt.mp hterm
    right
    split
    · exact .inl ⟨hle, rfl⟩
    · next hrole =>
      split
      · exact .inl ⟨hle, rfl⟩
      · next leader hleader =>
        refine .inr ⟨hle, not_not.mp hrole, leader, _, hleader, ?_, rfl⟩
        split <;> rfl

/-- A node `m` stays as it is, or appends an entry of its own as leader. Whether it also records how
far its log reaches depends on the call and on the write. -/
inductive OwnAppend [Crc32] (m : RaftNode) (fault : Option WalFault) (n' : RaftNode) : Prop where
  | kept (heq : n' = m)
  | appended (data : Bytes) (ty : EntryType) (role : m.state.role = .leader)
      (heq : n' = (m.appendEntry data ty fault).1)
  | recorded (data : Bytes) (ty : EntryType) (role : m.state.role = .leader)
      (heq : n' = (m.appendEntry data ty fault).1.recordOwnMatch)

section

variable [Crc32]

/-- Only the log and the bookkeeping change. -/
lemma OwnAppend.exists_eq {m n' : RaftNode} {fault : Option WalFault} (h : OwnAppend m fault n') :
    ∃ log leaderState, n' = { m with log := log, leaderState := leaderState } := by
  cases h with
  | kept heq => exact ⟨_, _, heq⟩
  | appended data ty _ heq => exact ⟨_, _, heq⟩
  | recorded data ty _ heq => exact ⟨_, _, heq⟩

lemma propose_ownAppend (data : Bytes) (fault : Option WalFault) :
    OwnAppend n fault (n.propose data fault).1 := by
  unfold propose
  split
  · exact .kept rfl
  · next hrole =>
    split
    · exact .kept rfl
    · cases fault with
      | none => exact .recorded data .normal (not_not.mp hrole) rfl
      | some f => exact .appended data .normal (not_not.mp hrole) rfl

/-- A leader that is not handing over appends what is proposed, if the write succeeds. -/
lemma propose_entries (hrole : n.state.role = .leader)
    (htransfer : n.transferState.isSome = false) (data : Bytes) :
    (n.propose data none).1.log.entries =
      n.log.entries ++ [⟨n.log.lastIndex + 1, n.term, data, .normal⟩] := by
  rw [propose, if_neg (not_not.mpr hrole), if_neg (by simp [htransfer])]
  rfl

variable [ConfigJson]

lemma proposeConfigChange_ownAppend (change : ConfigChange) (fault : Option WalFault) :
    ∃ membership, OwnAppend { n with membership := membership } fault
      (n.proposeConfigChange change fault).1 := by
  unfold proposeConfigChange
  split
  · exact ⟨_, .kept rfl⟩
  · next hrole =>
    split
    · exact ⟨_, .kept rfl⟩
    · next membership jointData _ =>
      refine ⟨membership, ?_⟩
      cases fault with
      | none =>
        exact .recorded (ConfigJson.encodeJoint jointData) .configChange (not_not.mp hrole) rfl
      | some f =>
        exact .appended (ConfigJson.encodeJoint jointData) .configChange (not_not.mp hrole) rfl

lemma applyConfigChange_ownAppend (data : Bytes) (fault : Option WalFault) :
    ∃ membership, OwnAppend { n with membership := membership } fault
      (n.applyConfigChange data fault).1 := by
  unfold applyConfigChange
  split
  · dsimp only
    split
    · next hrole =>
      split
      · next membership newConfig _ =>
        exact ⟨membership, .recorded (ConfigJson.encodeConfig newConfig) .configChange hrole rfl⟩
      · exact ⟨_, .kept rfl⟩
    · exact ⟨_, .kept rfl⟩
  · split
    · exact ⟨_, .kept rfl⟩
    · exact ⟨_, .kept rfl⟩

end

end RaftNode

/-! ### Reads and transfers -/

/-- Calls that only read the state or belong to reads and leadership transfers. -/
def Call.isQuiet : Call → Bool
  | createAppendRequests => true
  | takeCommittedEntries => true
  | requestReadIndex => true
  | readIndexAck _ => true
  | takeReadIndex _ => true
  | transferLeadership _ => true
  | checkTransferProgress => true
  | checkTransferTimeout _ => true
  | _ => false

lemma RaftNode.execute_quiet_eq [Crc32] [ConfigJson] (n : RaftNode) (fault : Option WalFault)
    {call : Call} (h : call.isQuiet = true) :
    ∃ lastApplied readIndexState transferState,
      (call = .takeCommittedEntries ∨ lastApplied = n.state.lastApplied) ∧
      (n.execute fault call).1 =
        { n with
          state := { n.state with lastApplied := lastApplied }
          readIndexState := readIndexState
          transferState := transferState } := by
  cases call with
  | createAppendRequests => exact ⟨_, _, _, .inr rfl, rfl⟩
  | takeCommittedEntries => exact ⟨_, _, _, .inl rfl, rfl⟩
  | requestReadIndex =>
    simp only [execute, requestReadIndex]
    split <;> exact ⟨_, _, _, .inr rfl, rfl⟩
  | readIndexAck sender => exact ⟨_, _, _, .inr rfl, rfl⟩
  | takeReadIndex id => exact ⟨_, _, _, .inr rfl, rfl⟩
  | transferLeadership target =>
    simp only [execute, transferLeadership]
    split_ifs <;> exact ⟨_, _, _, .inr rfl, rfl⟩
  | checkTransferProgress =>
    simp only [execute, checkTransferProgress]
    split
    · exact ⟨_, _, _, .inr rfl, rfl⟩
    · split_ifs <;> exact ⟨_, _, _, .inr rfl, rfl⟩
  | checkTransferTimeout expired =>
    simp only [execute, checkTransferTimeout]
    split <;> exact ⟨_, _, _, .inr rfl, rfl⟩
  | _ => cases h

/-- The nodes agree on their roles and on everything commitment depends on, their logs apart. -/
structure SameProgress (n m : RaftNode) : Prop where
  role : n.state.role = m.state.role
  leaderState : n.leaderState = m.leaderState
  commitIndex : n.state.commitIndex = m.state.commitIndex
  membership : n.membership = m.membership

lemma RaftNode.execute_quiet [Crc32] [ConfigJson] (n : RaftNode) (fault : Option WalFault)
    {call : Call} (h : call.isQuiet = true) : SameProgress (n.execute fault call).1 n := by
  obtain ⟨lastApplied, readIndexState, transferState, -, heq⟩ := n.execute_quiet_eq fault h
  rw [heq]
  exact ⟨rfl, rfl, rfl, rfl⟩

/-! ### All calls -/

namespace RaftNode

variable [Crc32]

/-- What a call can do to a node, whichever call it is. Quiet calls stand for themselves. -/
inductive Outcome (n : RaftNode) (fault : Option WalFault) (call : Call) (n' : RaftNode) :
    Prop where
  | kept (heq : n' = n)
  | preVote (heq : n' = n.startPreVote.1)
  | election (heq : n' = n.startElection.1)
  | observed (t : Term) (observed : call.observedTerm = some t) (heq : n' = n.observeTerm t)
  | granted (request : VoteRequest) (observed : call.observedTerm = some request.term)
      (heq : n' = (n.observeTerm request.term).grantVote request.candidateId)
  | counted (sender : NodeId) (response : VoteResponse) (wasPreVote : Bool)
      (election : ElectionState) (hcall : call = .voteResponse sender response wasPreVote)
      (helection : n.electionState = some election)
      (heq : n' = { n with electionState := some (election.recordVote sender).1 })
  | elected (sender : NodeId) (election : ElectionState)
      (heq : n' = becomeLeaderInner
        { n with electionState := some (election.recordVote sender).1 } fault)
  | followed (request : AppendRequest) (hcall : call = .appendEntries request) (log : RaftLog)
      (commitIndex : LogIndex)
      (heq : n' =
        let m := (n.observeTerm request.term).followLeader request.leaderId
        { m with log := log, state := { m.state with commitIndex := commitIndex } })
  | acknowledged (sender : NodeId) (response : AppendResponse) (leader leader' : LeaderState)
      (hcall : call = .appendResponse sender response) (hterm : response.term ≤ n.term)
      (role : n.state.role = .leader) (hleader : n.leaderState = some leader)
      (hmatch : leader'.matchIndex = if response.success then
        leader.matchIndex.insert sender response.matchIndex else leader.matchIndex)
      (heq : n' = tryAdvanceCommit { n with leaderState := some leader' })
  | proposed (happend : OwnAppend n fault n')
  | reconfigured (membership : MembershipState) (hcall : call.isMembershipChange = true)
      (happend : OwnAppend { n with membership := membership } fault n')
  | compacted (s : LogIndex) (t : Term) (hcall : call.isSnapshot = true)
      (heq : n' = { n with log := n.log.compact s t })
  | installed (t : Term) (l : NodeId) (metadata : SnapshotMetadata)
      (hcall : call.isSnapshot = true) (observed : call.observedTerm = some t)
      (log : RaftLog) (commitIndex lastApplied : LogIndex)
      (hlog : log = n.log ∨
        log = n.log.compact metadata.lastIncludedIndex metadata.lastIncludedTerm)
      (heq : n' =
        let m := (n.observeTerm t).followLeader l
        { m with
          log := log
          state := { m.state with commitIndex := commitIndex, lastApplied := lastApplied } })
  | quiet (hquiet : call.isQuiet = true)

variable [ConfigJson]

theorem execute_outcome (n : RaftNode) (fault : Option WalFault) (call : Call) :
    Outcome n fault call (n.execute fault call).1 := by
  cases call with
  | startPreVote => exact .preVote rfl
  | startElection => exact .election rfl
  | timeoutNow msg =>
    simp only [execute, handleTimeoutNow]
    split
    · exact .kept rfl
    · exact .election rfl
  | voteRequest request =>
    by_cases hpre : request.isPreVote = true
    · exact .kept (by simp [execute, handleVoteRequest, hpre])
    · have hobserved : (Call.voteRequest request).observedTerm = some request.term := if_neg hpre
      rcases n.handleVoteRequest_cases request with heq | heq | ⟨-, heq⟩
      · exact .kept heq
      · exact .observed request.term hobserved heq
      · exact .granted request hobserved heq
  | voteResponse sender response wasPreVote =>
    rcases n.handleVoteResponse_cases sender response wasPreVote fault with
      ⟨hterm, heq⟩ | heq | ⟨election, -, -, helection, heq | ⟨-, -, heq⟩⟩
    · exact .observed response.term rfl (heq.trans (observeTerm_of_lt n hterm).symm)
    · exact .kept heq
    · exact .counted sender response wasPreVote election rfl helection heq
    · exact .elected sender election heq
  | appendEntries request =>
    rcases n.handleAppendEntries_cases request fault with ⟨-, heq⟩ | ⟨-, log, commitIndex, heq⟩
    · exact .kept heq
    · exact .followed request rfl log commitIndex heq
  | appendResponse sender response =>
    rcases n.handleAppendResponse_cases sender response with
      ⟨hterm, heq⟩ | ⟨-, heq⟩ | ⟨hterm, role, leader, leader', hleader, hmatch, heq⟩
    · exact .observed response.term rfl (heq.trans (observeTerm_of_lt n hterm).symm)
    · exact .kept heq
    · exact .acknowledged sender response leader leader' rfl hterm role hleader hmatch heq
  | propose data => exact .proposed (n.propose_ownAppend data fault)
  | triggerSnapshot data files =>
    rcases n.triggerSnapshot_cases data files with heq | ⟨s, t, heq⟩
    · exact .kept heq
    · exact .compacted s t rfl heq
  | installSnapshot t l metadata data files =>
    rcases n.handleInstallSnapshot_cases t l metadata data files with
      ⟨-, heq⟩ | ⟨-, log, commitIndex, lastApplied, hlog, heq⟩
    · exact .kept heq
    · exact .installed t l metadata rfl rfl log commitIndex lastApplied hlog heq
  | proposeConfigChange change =>
    obtain ⟨membership, happend⟩ := n.proposeConfigChange_ownAppend change fault
    exact .reconfigured membership rfl happend
  | applyConfigChange data =>
    obtain ⟨membership, happend⟩ := n.applyConfigChange_ownAppend data fault
    exact .reconfigured membership rfl happend
  | _ => exact .quiet rfl

end RaftNode

end Raftrust.Consensus

import Raftrust.Consensus.Configuration
import Raftrust.Consensus.Merge

/-!
# Proposals

What a refused proposal leaves behind, and what can still be appended during a leadership transfer.
Client proposals look at the transfer and append before they change anything else. Configuration
changes do neither: the membership is changed before the write to the log, and the transfer is not
looked at.
-/

namespace Raftrust.Consensus

open Lib Storage

lemma MembershipState.beginChange_of_applicable {s : MembershipState} {change : ConfigChange}
    (hflag : s.changeInProgress = false) (happ : change.Applicable s.current) :
    ∃ s' data, s.beginChange change = .ok (s', data) := by
  unfold beginChange
  rw [hflag]
  cases change with
  | addNode id address =>
    have hnew : s.current.contains id = false := happ
    simp [hnew]
  | removeNode id =>
    obtain ⟨hmem, m, hm, hne⟩ := happ
    have hrest : ¬ ∀ a ∈ s.current.members, a.id = id := fun h => hne (h m hm)
    simp [hmem, hrest]

namespace RaftNode

/-! ### Changes that are taken up -/

/-- The node is a leader free to start the change, and the change is one its configuration
allows. -/
structure Admits (n : RaftNode) (change : ConfigChange) : Prop where
  role : n.state.role = .leader
  idle : n.membership.changeInProgress = false
  applicable : change.Applicable n.membership.current

section

variable [Crc32] {n : RaftNode}

lemma appendEntry_lastIndex (data : Bytes) (ty : EntryType) :
    (n.appendEntry data ty none).1.log.lastIndex = n.log.lastIndex + 1 := by
  simp [appendEntry, RaftLog.append, RaftLog.lastIndex]

variable [ConfigJson]

lemma proposeConfigChange_of_not_admits {change : ConfigChange} (h : ¬ n.Admits change)
    (fault : Option WalFault) : ∃ e, n.proposeConfigChange change fault = (n, .error e) := by
  unfold proposeConfigChange
  split
  · exact ⟨_, rfl⟩
  · next hrole =>
    cases hbegin : n.membership.beginChange change with
    | error e => exact ⟨e, rfl⟩
    | ok begun =>
      obtain ⟨hidle, happ⟩ := MembershipState.applicable_of_beginChange hbegin
      exact absurd ⟨not_not.mp hrole, hidle, happ⟩ h

lemma Admits.proposeConfigChange_none {change : ConfigChange} (h : n.Admits change) :
    ∃ membership data, n.proposeConfigChange change none =
      ((appendEntry { n with membership := membership } data .configChange none).1.recordOwnMatch,
        .ok (n.log.lastIndex + 1)) := by
  obtain ⟨membership, joint, hbegin⟩ :=
    MembershipState.beginChange_of_applicable h.idle h.applicable
  refine ⟨membership, ConfigJson.encodeJoint joint, ?_⟩
  simp only [proposeConfigChange, h.role, hbegin, ne_eq, not_true_eq_false, if_false]
  rfl

/-- The change is in progress before the entry is written. -/
lemma Admits.proposeConfigChange_some {change : ConfigChange} (h : n.Admits change)
    (f : WalFault) :
    ∃ membership, membership.changeInProgress = true ∧
      n.proposeConfigChange change (some f) =
        ({ n with membership := membership, log := { n.log with wal := f.wal } },
          .error .invalidConfigData) := by
  obtain ⟨membership, joint, hbegin⟩ :=
    MembershipState.beginChange_of_applicable h.idle h.applicable
  obtain ⟨-, newConfig, hnew, -, -⟩ := MembershipState.beginChange_cases hbegin
  refine ⟨membership, by rw [hnew], ?_⟩
  simp only [proposeConfigChange, h.role, hbegin, ne_eq, not_true_eq_false, if_false]
  rfl

end

/-! ### Refused proposals -/

/-- The nodes agree on everything in memory that a proposal could touch. -/
structure Unchanged (n n' : RaftNode) : Prop where
  role : n'.state.role = n.state.role
  persistent : n'.state.persistent = n.state.persistent
  entries : n'.log.entries = n.log.entries
  snapshotIndex : n'.log.snapshotIndex = n.log.snapshotIndex
  snapshotTerm : n'.log.snapshotTerm = n.log.snapshotTerm
  leaderState : n'.leaderState = n.leaderState
  membership : n'.membership = n.membership
  transferState : n'.transferState = n.transferState

lemma Unchanged.refl (n : RaftNode) : Unchanged n n :=
  ⟨rfl, rfl, rfl, rfl, rfl, rfl, rfl, rfl⟩

section

variable [Crc32] (n : RaftNode)

lemma unchanged_of_propose_error {data : Bytes} {fault : Option WalFault} {e : ProposalResult}
    (h : (n.propose data fault).2 = .error e) : Unchanged n (n.propose data fault).1 := by
  unfold propose at h ⊢
  by_cases hrole : n.state.role = .leader
  · rw [if_neg (not_not.mpr hrole)] at h ⊢
    by_cases htransfer : n.transferState.isSome = true
    · rw [if_pos htransfer]
      exact .refl n
    · rw [if_neg htransfer] at h ⊢
      cases fault with
      | none => cases h
      | some f => exact ⟨rfl, rfl, rfl, rfl, rfl, rfl, rfl, rfl⟩
  · rw [if_pos hrole]
    exact .refl n

/-- **A refused proposal changes nothing**, with one exception: a configuration change that is
taken up and then cannot be written stays in progress. -/
theorem refused_unchanged_iff [ConfigJson] (fault : Option WalFault) :
    (∀ data e, (n.propose data fault).2 = .error e → Unchanged n (n.propose data fault).1) ∧
      ∀ change, (∀ e, (n.proposeConfigChange change fault).2 = .error e →
          Unchanged n (n.proposeConfigChange change fault).1) ↔
        (n.Admits change → fault = none) := by
  refine ⟨fun data e => n.unchanged_of_propose_error, fun change => ⟨fun h hadmits => ?_, ?_⟩⟩
  -- a write that fails leaves the change in progress
  · cases fault with
    | none => rfl
    | some f =>
      obtain ⟨membership, hflag, heq⟩ := hadmits.proposeConfigChange_some f
      have hmembership := (h .invalidConfigData (by rw [heq])).membership
      rw [heq] at hmembership
      have hidle : membership.changeInProgress = false :=
        (congrArg MembershipState.changeInProgress hmembership).trans hadmits.idle
      exact absurd (hflag.symm.trans hidle) (by decide)
  · intro hfault e herror
    by_cases hadmits : n.Admits change
    · obtain ⟨membership, data, heq⟩ := hadmits.proposeConfigChange_none
      rw [hfault hadmits, heq] at herror
      cases herror
    · obtain ⟨e', heq⟩ := proposeConfigChange_of_not_admits hadmits fault
      rw [heq]
      exact .refl n

end

/-- A leader of three nodes with one entry, known to be on node 2. -/
def settledLeader : RaftNode :=
  let n := Cluster.freshNode ⟨1, [2, 3]⟩
  { n with
    state := { n.state with role := .leader, persistent := ⟨1, some 1⟩, leaderId := some 1 }
    log := { n.log with entries := [⟨1, 1, [], .noop⟩] }
    leaderState := some
      { nextIndex := (AList.insert 2 2 ∅).insert 3 1
        matchIndex := ((AList.insert 1 1 ∅).insert 2 1).insert 3 0 } }

/-- A node is being added, the write fails, and the node counts as a voter from then on. -/
theorem failedWrite_changes_membership :
    let n := settledLeader
    let result := @proposeConfigChange Crc32.ieee .unused n (.addNode 4 "d")
      (some ⟨n.log.wal, .io "no space left on device"⟩)
    result.2 = .error .invalidConfigData ∧ result.1.membership ≠ n.membership ∧
      result.1.membership.changeInProgress = true ∧ n.membership.isVoter 4 = false ∧
      result.1.membership.isVoter 4 = true := by
  decide +kernel

/-! ### Leadership transfer -/

/-- A leader of term `t` that is handing over. -/
structure InTransfer (t : Term) (n : RaftNode) : Prop where
  role : n.state.role = .leader
  term : n.term = t
  transfer : n.transferState.isSome = true

/-- The response completes a quorum of an election that is still open. -/
def Elects (n : RaftNode) (sender : NodeId) (response : VoteResponse) (wasPreVote : Bool) : Prop :=
  response.term ≤ n.term ∧ response.voteGranted = true ∧ wasPreVote = false ∧
    ∃ election ∈ n.electionState, (election.recordVote sender).2 = true

/-- A snapshot at the commit index takes all entries, and the last of them has another index. -/
def CutsShort (n : RaftNode) : Prop :=
  n.log.snapshotIndex < n.state.commitIndex ∧
    n.log.snapshotIndex + n.log.entries.length ≤ n.state.commitIndex ∧
    n.log.lastIndex ≠ n.state.commitIndex

/-- The calls that leave the last index of a leader handing over as it is. -/
def KeepsLastIndex [ConfigJson] (n : RaftNode) (e : NodeEvent) : Prop :=
  match e.call with
  | .proposeConfigChange change => n.Admits change → e.fault ≠ none
  | .applyConfigChange data => (ConfigJson.decodeJoint data).isSome → e.fault ≠ none
  | .voteResponse sender response wasPreVote =>
    n.Elects sender response wasPreVote → e.fault ≠ none
  | .triggerSnapshot _ files => files = .written → ¬ n.CutsShort
  | _ => True

/-- How far the leader knows the log of `peer` to agree with its own. -/
def matched? (n : RaftNode) (peer : NodeId) : Option LogIndex :=
  n.leaderState.bind fun leader => leader.matchIndex.lookup peer

/-- The same with nothing known read as zero. -/
def matchOf (n : RaftNode) (peer : NodeId) : LogIndex :=
  (n.matched? peer).getD 0

lemma le_matchOf_of_checkTransferProgress {n : RaftNode} {target : NodeId}
    (h : n.checkTransferProgress.2 = some target) : n.log.lastIndex ≤ n.matchOf target := by
  unfold checkTransferProgress at h
  cases htransfer : n.transferState with
  | none => simp [htransfer] at h
  | some transfer =>
    simp only [htransfer] at h
    split_ifs at h with _ hle
    obtain rfl := Option.some.inj h
    exact hle

section

variable [Crc32] {n : RaftNode}

lemma becomeLeaderInner_lastIndex (fault : Option WalFault) :
    (n.becomeLeaderInner fault).log.lastIndex = n.log.lastIndex ↔ fault ≠ none := by
  cases fault with
  | none => simp [becomeLeaderInner, recordOwnMatch, appendEntry_lastIndex]
  | some f => simp [becomeLeaderInner, recordOwnMatch, appendEntry, RaftLog.append,
      RaftLog.lastIndex]

lemma handleVoteResponse_lastIndex (sender : NodeId) (response : VoteResponse)
    (wasPreVote : Bool) (fault : Option WalFault) :
    (n.handleVoteResponse sender response wasPreVote fault).1.log.lastIndex = n.log.lastIndex ↔
      (n.Elects sender response wasPreVote → fault ≠ none) := by
  by_cases helects : n.Elects sender response wasPreVote
  · obtain ⟨hterm, hgranted, hreal, election, helection, hquorum⟩ := helects
    have heq : (n.handleVoteResponse sender response wasPreVote fault).1 =
        becomeLeaderInner
          { n with electionState := some (election.recordVote sender).1 } fault := by
      simp [handleVoteResponse, not_lt.mpr hterm, hgranted, Option.mem_def.mp helection, hquorum,
        hreal]
    rw [heq]
    refine Iff.trans (becomeLeaderInner_lastIndex fault) ⟨fun h _ => h, fun h => h ?_⟩
    exact ⟨hterm, hgranted, hreal, election, helection, hquorum⟩
  · have hlog : (n.handleVoteResponse sender response wasPreVote fault).1.log = n.log := by
      rcases n.handleVoteResponse_cases sender response wasPreVote fault with
        ⟨-, heq⟩ | heq | ⟨election, hterm, hgranted, helection, heq | ⟨hreal, hquorum, heq⟩⟩
      · rw [heq]
        rfl
      · rw [heq]
      · rw [heq]
      · exact absurd ⟨hterm, hgranted, hreal, election, helection, hquorum⟩ helects
    simp [hlog, helects]

lemma triggerSnapshot_lastIndex (data : Bytes) (files : SnapshotFiles) :
    (n.triggerSnapshot data files).1.log.lastIndex = n.log.lastIndex ↔
      (files = .written → ¬ n.CutsShort) := by
  unfold triggerSnapshot CutsShort
  by_cases hzero : n.state.commitIndex = 0
  · simp [hzero]
  · cases files with
    | noDirectory => simp [hzero]
    | writeFails => simp [hzero]
    | written =>
      simp only [hzero, if_false, RaftLog.compact_lastIndex, forall_const]
      split
      · next h => simp [h, eq_comm]
      · next h => exact iff_of_true rfl fun hcut => h ⟨hcut.1, hcut.2.1⟩

variable [ConfigJson]

lemma proposeConfigChange_lastIndex (change : ConfigChange) (fault : Option WalFault) :
    (n.proposeConfigChange change fault).1.log.lastIndex = n.log.lastIndex ↔
      (n.Admits change → fault ≠ none) := by
  by_cases hadmits : n.Admits change
  · cases fault with
    | none =>
      obtain ⟨membership, data, heq⟩ := hadmits.proposeConfigChange_none
      rw [heq]
      simp [hadmits, recordOwnMatch, appendEntry_lastIndex]
    | some f =>
      obtain ⟨membership, -, heq⟩ := hadmits.proposeConfigChange_some f
      rw [heq]
      simp [RaftLog.lastIndex]
  · obtain ⟨e, heq⟩ := proposeConfigChange_of_not_admits hadmits fault
    simp [heq, hadmits]

lemma applyConfigChange_lastIndex (hrole : n.state.role = .leader) (data : Bytes)
    (fault : Option WalFault) :
    (n.applyConfigChange data fault).1.log.lastIndex = n.log.lastIndex ↔
      ((ConfigJson.decodeJoint data).isSome → fault ≠ none) := by
  unfold applyConfigChange
  cases hjoint : ConfigJson.decodeJoint data with
  | some joint =>
    cases fault with
    | none => simp [hrole, MembershipState.finalizeJoint, recordOwnMatch, appendEntry_lastIndex]
    | some f => simp [hrole, MembershipState.finalizeJoint, recordOwnMatch, appendEntry,
        RaftLog.append, RaftLog.lastIndex]
  | none =>
    cases ConfigJson.decodeConfig data with
    | some config => simp
    | none => simp

lemma InTransfer.lastIndex_eq {t : Term} (h : InTransfer t n) {fault : Option WalFault}
    {call : Call} (hstill : (n.execute fault call).1.state.role = .leader)
    (hchange : call.isMembershipChange = false) (hvote : call.vote = none)
    (htrigger : ∀ data files, call ≠ .triggerSnapshot data files) :
    (n.execute fault call).1.log.lastIndex = n.log.lastIndex := by
  by_cases hquiet : call.isQuiet = true
  · obtain ⟨lastApplied, readIndexState, transferState, -, heq⟩ := n.execute_quiet_eq fault hquiet
    rw [heq]
  cases call with
  -- a call either ends the leadership or leaves the log alone
  | startPreVote => cases hstill
  | startElection => cases hstill
  | timeoutNow msg =>
    simp only [execute, handleTimeoutNow] at hstill ⊢
    by_cases hold : msg.term < n.term
    · rw [if_pos hold]
    · rw [if_neg hold] at hstill
      cases hstill
  | voteResponse sender response wasPreVote => cases hvote
  | voteRequest request => exact congrArg RaftLog.lastIndex (n.handleVoteRequest_log request)
  | appendEntries request =>
    rcases n.handleAppendEntries_cases request fault with ⟨-, heq⟩ | ⟨-, log, commitIndex, heq⟩
    · exact congrArg (fun m => m.log.lastIndex) heq
    · rw [execute, heq] at hstill
      cases hstill
  | appendResponse sender response =>
    rcases n.handleAppendResponse_cases sender response with
      ⟨-, heq⟩ | ⟨-, heq⟩ | ⟨-, -, leader, leader', -, -, heq⟩
    all_goals exact congrArg (fun m => m.log.lastIndex) heq
  -- proposals are refused during a transfer
  | propose data =>
    have hrefused : n.propose data fault = (n, .error .transferInProgress) := by
      rw [propose, if_neg (not_not.mpr h.role), if_pos h.transfer]
    exact congrArg (fun m => m.1.log.lastIndex) hrefused
  | triggerSnapshot data files => exact absurd rfl (htrigger data files)
  | installSnapshot leaderTerm leaderId metadata data files =>
    rcases n.handleInstallSnapshot_cases leaderTerm leaderId metadata data files with
      ⟨-, heq⟩ | ⟨-, log, commitIndex, lastApplied, -, heq⟩
    · exact congrArg (fun m => m.log.lastIndex) heq
    · rw [execute, heq] at hstill
      cases hstill
  | proposeConfigChange change => cases hchange
  | applyConfigChange data => cases hchange
  | _ => exact absurd rfl hquiet

/-- One call of a leader that goes on handing over. -/
lemma InTransfer.step_lastIndex {t : Term} (h : InTransfer t n) {e : NodeEvent}
    (h' : InTransfer t (n.step e)) :
    (n.step e).log.lastIndex = n.log.lastIndex ↔ n.KeepsLastIndex e := by
  obtain ⟨call, fault⟩ := e
  cases call with
  | proposeConfigChange change => exact proposeConfigChange_lastIndex change fault
  | applyConfigChange data => exact applyConfigChange_lastIndex h.role data fault
  | voteResponse sender response wasPreVote =>
    exact handleVoteResponse_lastIndex sender response wasPreVote fault
  | triggerSnapshot data files => exact triggerSnapshot_lastIndex data files
  | _ => exact iff_of_true (h.lastIndex_eq h'.role rfl rfl (by simp)) trivial

lemma run_lastIndex_of_inTransfer {t : Term} {es : List NodeEvent}
    (hes : ∀ es', es' <+: es → InTransfer t (run step n es'))
    (hkeeps : Along step KeepsLastIndex n es) :
    (run step n es).log.lastIndex = n.log.lastIndex := by
  refine run_invariant step (fun es => (∀ es', es' <+: es → InTransfer t (run step n es')) →
    (run step n es).log.lastIndex = n.log.lastIndex) (fun _ => rfl) ?_ hkeeps hes
  intro es e _ ih hkeep hes
  have hbefore : InTransfer t (run step n es) := hes es (List.prefix_append _ _)
  have hafter := hes _ (List.prefix_refl _)
  rw [run_snoc] at hafter ⊢
  refine ((hbefore.step_lastIndex hafter).mpr hkeep).trans (ih fun es' hp => hes es' ?_)
  exact hp.trans (List.prefix_append _ _)

/-- **The log is frozen during a leadership transfer**, but for configuration changes, an election
that is still open and a snapshot taken beyond the log: these are the calls that move the last
index. While no such call is made, a target that was found caught up stays so. -/
theorem transfer_lastIndex_iff (hn : InTransfer n.term n) :
    (∀ e, InTransfer n.term (n.step e) →
      ((n.step e).log.lastIndex = n.log.lastIndex ↔ n.KeepsLastIndex e)) ∧
    ∀ es, (∀ es', es' <+: es → InTransfer n.term (run step n es')) →
      Along step KeepsLastIndex n es →
      (run step n es).log.lastIndex = n.log.lastIndex ∧
        ∀ target, n.checkTransferProgress.2 = some target →
          (run step n es).log.lastIndex ≤ n.matchOf target := by
  refine ⟨fun e => hn.step_lastIndex, fun es hes hkeeps => ?_⟩
  have hlast := run_lastIndex_of_inTransfer hes hkeeps
  refine ⟨hlast, fun target htarget => ?_⟩
  rw [hlast]
  exact le_matchOf_of_checkTransferProgress htarget

end

/-- The leader hands over to node 2. -/
def handingOver : RaftNode :=
  { settledLeader with transferState := some (TransferState.new 2) }

/-- The target is found, a read comes in and a proposal is refused. -/
def transferCalls : List NodeEvent :=
  [⟨.checkTransferProgress, none⟩, ⟨.requestReadIndex, none⟩, ⟨.propose [120], none⟩]

theorem transfer_lastIndex_iff_refusedProposal :
    letI := Crc32.ieee
    letI := ConfigJson.unused
    (run step handingOver transferCalls).log.lastIndex ≤ handingOver.matchOf 2 := by
  let _ := Crc32.ieee
  let _ := ConfigJson.unused
  have htransfer : ∀ es' ∈ transferCalls.inits, InTransfer 1 (run step handingOver es') := by
    simp only [transferCalls, List.inits, List.map, List.forall_mem_cons]
    refine ⟨⟨?_, ?_, ?_⟩, ⟨?_, ?_, ?_⟩, ⟨?_, ?_, ?_⟩, ⟨?_, ?_, ?_⟩, by simp⟩
    all_goals decide +kernel
  have hkeeps : Along step KeepsLastIndex handingOver transferCalls :=
    ⟨trivial, trivial, trivial, trivial⟩
  refine ((transfer_lastIndex_iff (n := handingOver) ⟨rfl, rfl, rfl⟩).2 transferCalls
    (fun es' hp => ?_) hkeeps).2 2 (by decide +kernel)
  exact htransfer es' ((List.mem_inits _ _).mpr hp)

/-- The target is found caught up. Then a change is proposed, or one that was proposed before is
applied, and the leader has an entry that the target does not have, with the transfer still going
on. -/
theorem configChange_moves_lastIndex :
    letI := Crc32.ieee
    letI := ConfigJson.text [ConfigRuns.addsFourth] []
    let n := handingOver.checkTransferProgress.1
    let proposed := n.step ⟨.proposeConfigChange (.addNode 4 "d"), none⟩
    let applied := n.step
      ⟨.applyConfigChange (ConfigJson.encodeJoint ConfigRuns.addsFourth), none⟩
    handingOver.checkTransferProgress.2 = some 2 ∧ InTransfer 1 n ∧ n.log.lastIndex = 1 ∧
      (InTransfer 1 proposed ∧ proposed.log.lastIndex = 2 ∧ proposed.matchOf 2 = 1) ∧
      (InTransfer 1 applied ∧ applied.log.lastIndex = 2 ∧ applied.matchOf 2 = 1) := by
  refine ⟨?_, ⟨?_, ?_, ?_⟩, ?_, ⟨⟨?_, ?_, ?_⟩, ?_, ?_⟩, ⟨?_, ?_, ?_⟩, ?_, ?_⟩
  all_goals decide +kernel

end RaftNode

end Raftrust.Consensus

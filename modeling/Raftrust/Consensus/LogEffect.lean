import Raftrust.Consensus.Merge
import Raftrust.Consensus.Votes

/-!
# What a call does to the log

A call leaves the log as it is, appends one entry of the leader, merges the entries of an accepted
request, or compacts the log.
-/

namespace Raftrust.Consensus

open Lib Storage

namespace RaftNode

/-- The request passes the checks of `handleAppendEntries`. -/
def Accepts (n : RaftNode) (request : AppendRequest) : Prop :=
  n.term ≤ request.term ∧ (request.prevLogIndex = 0 ∨
    n.log.matchTerm request.prevLogIndex request.prevLogTerm = true)
  deriving Decidable

variable [Crc32]

/-- The effects a call can have on the log. -/
inductive LogEffect (n : RaftNode) (call : Call) (fault : Option WalFault) (n' : RaftNode) :
    Prop where
  | kept (log : n'.log = n.log)
  | appended (data : Bytes) (entryType : EntryType) (role : n'.state.role = .leader)
      (term : n'.term = n.term)
      (log : n'.log = (n.appendEntry data entryType fault).1.log)
  | merged (request : AppendRequest) (hcall : call = .appendEntries request)
      (haccepts : n.Accepts request) (role : n'.state.role = .follower)
      (term : n'.term = request.term)
      (log : n'.log = mergeEntries n.log request.entries fault)
  | compacted (s : LogIndex) (t : Term) (hcall : call.isSnapshot = true)
      (log : n'.log = n.log.compact s t)

variable (n : RaftNode) (fault : Option WalFault)

/-- A request that fails a check changes neither log nor commit index. -/
lemma handleAppendEntries_of_not_accepts {request : AppendRequest} (h : ¬ n.Accepts request) :
    let r := n.handleAppendEntries request fault
    r.2.success = false ∧ r.1.log = n.log ∧ r.1.state.commitIndex = n.state.commitIndex := by
  unfold handleAppendEntries
  split
  · exact ⟨rfl, rfl, rfl⟩
  · next hterm =>
    dsimp only
    rw [if_pos]
    · exact ⟨rfl, n.observeTerm_log request.term, n.observeTerm_commitIndex request.term⟩
    · simp only [Accepts, not_and, not_or, not_lt.mp hterm, true_implies] at h
      simpa [followLeader, Nat.pos_iff_ne_zero] using h

lemma handleAppendEntries_of_accepts {request : AppendRequest} (h : n.Accepts request) :
    let r := n.handleAppendEntries request fault
    r.1.state.role = .follower ∧ r.1.term = request.term ∧
      r.1.log = mergeEntries n.log request.entries fault ∧
      r.1.state.commitIndex =
        (if request.leaderCommit > n.state.commitIndex then
          min request.leaderCommit r.1.log.lastIndex
        else n.state.commitIndex) ∧
      r.2 = { term := request.term, success := true, matchIndex := r.1.log.lastIndex } := by
  obtain ⟨hterm, hprev⟩ := h
  have hmax : (n.observeTerm request.term).term = request.term := by
    rw [observeTerm_term, max_eq_right hterm]
  unfold handleAppendEntries
  rw [if_neg (not_lt.mpr hterm)]
  dsimp only
  rw [if_neg]
  · refine ⟨rfl, hmax, ?_, ?_, ?_⟩
    · simp [followLeader]
    · simp [followLeader]
    · exact congrArg (fun t => AppendResponse.mk t true _) hmax
  · simp only [followLeader, observeTerm_log, not_and, Bool.not_eq_true, Bool.not_eq_false']
    intro hpos
    exact hprev.resolve_left hpos.ne'

/-- A leader appends an entry of its own, whatever else changes about it. -/
lemma OwnAppend.logEffect {m n' : RaftNode} {fault : Option WalFault} (h : OwnAppend m fault n')
    (hlog : m.log = n.log) (hterm : m.term = n.term) (call : Call) :
    LogEffect n call fault n' := by
  have hsame : ∀ data ty,
      (m.appendEntry data ty fault).1.log = (n.appendEntry data ty fault).1.log := by
    intro data ty
    simp [appendEntry, hlog, hterm]
  cases h with
  | kept heq => exact .kept (by rw [heq, hlog])
  | appended data ty role heq =>
    rw [heq]
    exact .appended data ty role hterm (hsame data ty)
  | recorded data ty role heq =>
    rw [heq]
    exact .appended data ty role hterm (hsame data ty)

variable [ConfigJson]

lemma execute_quiet_log {call : Call} (h : call.isQuiet = true) :
    (n.execute fault call).1.log = n.log := by
  obtain ⟨lastApplied, readIndexState, transferState, -, heq⟩ := n.execute_quiet_eq fault h
  rw [heq]

/-- Every call has one of these effects on the log. -/
theorem execute_logEffect (call : Call) : LogEffect n call fault (n.execute fault call).1 := by
  cases n.execute_outcome fault call with
  | kept heq => exact .kept (by rw [heq])
  | preVote heq => exact .kept (by rw [heq]; rfl)
  | election heq => exact .kept (by rw [heq]; rfl)
  | observed t _ heq => exact .kept (by rw [heq, observeTerm_log])
  | granted request _ heq => exact .kept (by rw [heq]; exact n.observeTerm_log request.term)
  | counted _ _ _ _ _ _ heq => exact .kept (by rw [heq])
  -- a new leader begins with a no-op
  | elected sender election heq =>
    rw [heq]
    exact .appended [] .noop rfl rfl rfl
  | followed request hcall =>
    subst hcall
    by_cases h : n.Accepts request
    · obtain ⟨hrole, hterm, hlog, -⟩ := n.handleAppendEntries_of_accepts fault h
      exact .merged request rfl h hrole hterm hlog
    · exact .kept (n.handleAppendEntries_of_not_accepts fault h).2.1
  | acknowledged _ _ _ _ _ _ _ _ _ heq => exact .kept (by rw [heq]; rfl)
  | proposed happend => exact happend.logEffect n rfl rfl call
  | reconfigured _ _ happend => exact happend.logEffect n rfl rfl call
  | compacted s t hcall heq => exact .compacted s t hcall (by rw [heq])
  | installed t l metadata hcall _ log _ _ hlog heq =>
    rcases hlog with hlog | hlog
    · exact .kept (by rw [heq, hlog])
    · exact .compacted metadata.lastIncludedIndex metadata.lastIncludedTerm hcall
        (by rw [heq, hlog])
  | quiet hquiet => exact .kept (n.execute_quiet_log fault hquiet)

/-- Only snapshots change where the log starts from. -/
lemma execute_snapshot {call : Call} (hsnap : call.isSnapshot = false) :
    (n.execute fault call).1.log.snapshotIndex = n.log.snapshotIndex ∧
      (n.execute fault call).1.log.snapshotTerm = n.log.snapshotTerm := by
  cases n.execute_logEffect fault call with
  | kept heq => rw [heq]; exact ⟨rfl, rfl⟩
  | appended data ty _ _ heq =>
    rw [heq]
    exact ⟨RaftLog.append_snapshotIndex _ _ _, RaftLog.append_snapshotTerm _ _ _⟩
  | merged request _ _ _ _ heq => rw [heq]; exact mergeEntries_snapshot _ _ _
  | compacted s t hcall => simp [hsnap] at hcall

lemma appendRequest_of_sent {call : Call} {target : NodeId} {request : AppendRequest}
    (h : Packet.appendRequest target request ∈ (n.execute fault call).2) :
    (n.execute fault call).1 = n ∧ n.state.role = .leader ∧ target ∈ n.config.peers ∧
      ∃ leader, n.leaderState = some leader ∧ request = n.appendRequestFor leader target := by
  cases call with
  | createAppendRequests =>
    simp only [execute, createAppendRequests, List.mem_map, Prod.exists,
      Packet.appendRequest.injEq] at h
    obtain ⟨target', request', hmem, rfl, rfl⟩ := h
    split at hmem
    · simp at hmem
    · next hrole =>
      split at hmem
      · simp at hmem
      · next leader hleader =>
        simp only [List.mem_map, Prod.mk.injEq] at hmem
        obtain ⟨peer, hpeer, rfl, rfl⟩ := hmem
        exact ⟨rfl, not_not.mp hrole, hpeer, leader, hleader, rfl⟩
  | _ => simp [execute] at h

end RaftNode

end Raftrust.Consensus

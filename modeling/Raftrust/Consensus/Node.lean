import Mathlib.Data.List.Sort
import Raftrust.Consensus.Log
import Raftrust.Consensus.Membership
import Raftrust.Consensus.ReadIndex
import Raftrust.Consensus.State

/-!
# The Raft node

Every call takes the node and returns it changed, together with the result of the call. Time is
not modelled: whether a transfer has expired is an argument. A call that writes to the log takes
the fault of that write, if it fails.
-/

namespace Raftrust.Consensus

open Storage

structure NodeConfig where
  id : NodeId
  peers : List NodeId
  deriving DecidableEq, Repr

/-! ### Leadership transfer and snapshots -/

/-- A leadership transfer in progress. -/
structure TransferState where
  target : NodeId
  timeoutNowSent : Bool
  deriving DecidableEq, Repr

def TransferState.new (target : NodeId) : TransferState where
  target := target
  timeoutNowSent := false

inductive TransferError where
  | notLeader
  | alreadyInProgress
  | targetNotInCluster
  | alreadyLeader
  deriving DecidableEq, Repr

structure SnapshotMetadata where
  lastIncludedIndex : LogIndex
  lastIncludedTerm : Term
  checksum : UInt32
  size : ℕ
  deriving DecidableEq, Repr

/-- How the file operations of a snapshot go: the directory cannot be made, a write fails, or all
is well. -/
inductive SnapshotFiles where
  | noDirectory
  | writeFails
  | written
  deriving DecidableEq, Repr

/-! ### The node -/

/-- The node. `saves` are the states written to the state file so far, oldest first. -/
structure RaftNode where
  config : NodeConfig
  state : RaftState
  log : RaftLog
  leaderState : Option LeaderState
  electionState : Option ElectionState
  readIndexState : ReadIndexState
  transferState : Option TransferState
  membership : MembershipState
  saves : List PersistentState

namespace RaftNode

def clusterSize (n : RaftNode) : ℕ :=
  n.config.peers.length + 1

abbrev term (n : RaftNode) : Term :=
  n.state.persistent.currentTerm

def savePersistent (n : RaftNode) : RaftNode :=
  { n with saves := n.saves ++ [n.state.persistent] }

def stepDownInner (n : RaftNode) (newTerm : Term) : RaftNode :=
  savePersistent
    { n with
      state :=
        { n.state with
          persistent := { currentTerm := newTerm, votedFor := none }
          role := .follower
          leaderId := none }
      leaderState := none
      electionState := none
      readIndexState := n.readIndexState.clear
      transferState := none
      membership := n.membership.abortChange }

/-- Step down on a higher term. -/
def observeTerm (n : RaftNode) (t : Term) : RaftNode :=
  if t > n.term then n.stepDownInner t else n

/-- Accept `leaderId` as the leader of the current term. -/
def followLeader (n : RaftNode) (leaderId : NodeId) : RaftNode :=
  { n with state := { n.state with role := .follower, leaderId := some leaderId } }

/-- Remember how far the node's own log reaches. -/
def recordOwnMatch (n : RaftNode) : RaftNode :=
  { n with
    leaderState := n.leaderState.map fun l =>
      { l with matchIndex := l.matchIndex.insert n.config.id n.log.lastIndex } }

/-! ### Election -/

/-- Start a pre-vote phase: ask for votes in the next term without entering it. -/
def startPreVote (n : RaftNode) : RaftNode × List (NodeId × VoteRequest) :=
  let election := ((ElectionState.new n.clusterSize).recordVote n.config.id).1
  let request : VoteRequest :=
    { term := n.term + 1
      candidateId := n.config.id
      lastLogIndex := n.log.lastIndex
      lastLogTerm := n.log.lastTerm
      isPreVote := true }
  ({ n with state := { n.state with role := .preCandidate }, electionState := some election },
    n.config.peers.map fun peer => (peer, request))

/-- Start a real election: enter the next term, vote for oneself, save. -/
def startElection (n : RaftNode) : RaftNode × List (NodeId × VoteRequest) :=
  let n := savePersistent
    { n with
      state :=
        { n.state with
          persistent := { currentTerm := n.term + 1, votedFor := some n.config.id }
          role := .candidate
          leaderId := none } }
  let election := ((ElectionState.new n.clusterSize).recordVote n.config.id).1
  let request : VoteRequest :=
    { term := n.term
      candidateId := n.config.id
      lastLogIndex := n.log.lastIndex
      lastLogTerm := n.log.lastTerm
      isPreVote := false }
  ({ n with electionState := some election }, n.config.peers.map fun peer => (peer, request))

/-- Start an election at once, whatever the sender, unless the message is of an old term. -/
def handleTimeoutNow (n : RaftNode) (msg : TimeoutNow) :
    RaftNode × List (NodeId × VoteRequest) :=
  if msg.term < n.term then (n, []) else n.startElection

def preVoteHasQuorum (n : RaftNode) : Bool :=
  n.electionState.any (·.hasQuorum)

def grantVote (n : RaftNode) (candidateId : NodeId) : RaftNode :=
  savePersistent
    { n with
      state :=
        { n.state with persistent := { n.state.persistent with votedFor := some candidateId } } }

def handleVoteRequest (n : RaftNode) (request : VoteRequest) : RaftNode × VoteResponse :=
  if request.isPreVote then
    let wouldGrant := decide (request.term > n.term) &&
      isLogUpToDate request.lastLogTerm request.lastLogIndex n.log.lastTerm n.log.lastIndex
    (n, { term := n.term, voteGranted := wouldGrant })
  else
    let n := n.observeTerm request.term
    let grant := shouldGrantVote n.state request n.log.lastIndex n.log.lastTerm
    let n := if grant then n.grantVote request.candidateId else n
    (n, { term := n.term, voteGranted := grant })

section

variable [Crc32]

/-- Append one entry of the current term. -/
def appendEntry (n : RaftNode) (data : Bytes) (entryType : EntryType) (fault : Option WalFault) :
    RaftNode × Except Error LogIndex :=
  let index := n.log.lastIndex + 1
  let entry : LogEntry := { index := index, term := n.term, data := data, entryType := entryType }
  let (log, result) := n.log.append [entry] fault
  ({ n with log := log }, result.map fun _ => index)

/-- Become leader and append a no-op, whether or not that write succeeds. -/
def becomeLeaderInner (n : RaftNode) (fault : Option WalFault) : RaftNode :=
  let n :=
    { n with
      state := { n.state with role := .leader, leaderId := some n.config.id }
      electionState := none
      leaderState := some (LeaderState.new n.config.peers n.log.lastIndex) }
  (n.appendEntry [] .noop fault).1.recordOwnMatch

/-- Count a vote. The response says its term and whether the vote was granted; neither the term
nor the role of the node decides whether it counts for the present election. -/
def handleVoteResponse (n : RaftNode) (sender : NodeId) (response : VoteResponse)
    (wasPreVote : Bool) (fault : Option WalFault) : RaftNode × Bool :=
  if response.term > n.term then (n.stepDownInner response.term, false)
  else if !response.voteGranted then (n, false)
  else
    match n.electionState with
    | none => (n, false)
    | some election =>
      let (election, hasQuorum) := election.recordVote sender
      let n := { n with electionState := some election }
      if hasQuorum then
        if wasPreVote then (n, false) else (n.becomeLeaderInner fault, true)
      else (n, false)

/-! ### Append entries -/

/-- One round of the merge loop: skip an entry that is there, cut the log at a conflict. -/
def mergeEntry (merged : RaftLog × List LogEntry) (entry : LogEntry) :
    RaftLog × List LogEntry :=
  match merged.1.get entry.index with
  | some existing =>
    if existing.term ≠ entry.term then
      (merged.1.truncateAfter (entry.index - 1), merged.2 ++ [entry])
    else merged
  | none => (merged.1, merged.2 ++ [entry])

/-- Merge the leader's entries into the log; those that are new are appended in one go. A request
without entries leaves the loop at once and changes nothing. -/
def mergeEntries (log : RaftLog) (entries : List LogEntry) (fault : Option WalFault) : RaftLog :=
  let (log, newEntries) := entries.foldl mergeEntry (log, [])
  if newEntries.isEmpty then log else (log.append newEntries fault).1

def handleAppendEntries (n : RaftNode) (request : AppendRequest) (fault : Option WalFault) :
    RaftNode × AppendResponse :=
  if request.term < n.term then (n, { term := n.term, success := false, matchIndex := 0 })
  else
    let n := (n.observeTerm request.term).followLeader request.leaderId
    if 0 < request.prevLogIndex ∧ !n.log.matchTerm request.prevLogIndex request.prevLogTerm then
      (n, { term := n.term, success := false, matchIndex := n.log.lastIndex })
    else
      let n := { n with log := mergeEntries n.log request.entries fault }
      let commitIndex :=
        if request.leaderCommit > n.state.commitIndex then
          min request.leaderCommit n.log.lastIndex
        else n.state.commitIndex
      let n := { n with state := { n.state with commitIndex := commitIndex } }
      (n, { term := n.term, success := true, matchIndex := n.log.lastIndex })

/-! ### Leader operations -/

def propose (n : RaftNode) (data : Bytes) (fault : Option WalFault) :
    RaftNode × Except ProposalResult LogIndex :=
  if n.state.role ≠ .leader then (n, .error (.notLeader n.state.leaderId))
  else if n.transferState.isSome then (n, .error .transferInProgress)
  else
    match n.appendEntry data .normal fault with
    | (n, .error e) => (n, .error (.error e.toText))
    | (n, .ok index) => (n.recordOwnMatch, .ok index)

/-- The request that brings a peer up to date from its next index on. -/
def appendRequestFor (n : RaftNode) (leader : LeaderState) (peer : NodeId) : AppendRequest :=
  let nextIdx := (leader.nextIndex.lookup peer).getD 1
  let prevLogIndex := nextIdx - 1
  { term := n.term
    leaderId := n.config.id
    prevLogIndex := prevLogIndex
    prevLogTerm := (n.log.termAt prevLogIndex).getD 0
    entries := n.log.entriesFrom nextIdx
    leaderCommit := n.state.commitIndex }

def createAppendRequests (n : RaftNode) : List (NodeId × AppendRequest) :=
  if n.state.role ≠ .leader then []
  else
    match n.leaderState with
    | none => []
    | some leader => n.config.peers.map fun peer => (peer, n.appendRequestFor leader peer)

/-- Go through the match indices, highest first, and take the first that has a quorum and an entry
of the current term. -/
def advanceCommit (n : RaftNode) (leader : LeaderState) : List LogIndex → LogIndex
  | [] => n.state.commitIndex
  | candidate :: rest =>
    if candidate ≤ n.state.commitIndex then n.state.commitIndex
    else if n.membership.hasQuorum (leader.voters candidate) ∧
        (n.log.get candidate).any (·.term = n.term) then candidate
    else advanceCommit n leader rest

def tryAdvanceCommit (n : RaftNode) : RaftNode :=
  match n.leaderState with
  | none => n
  | some leader =>
    let matchIndices := (leader.matchIndex.entries.map (·.2)).insertionSort (· ≥ ·)
    { n with state := { n.state with commitIndex := n.advanceCommit leader matchIndices } }

/-- Record how far a peer has come. A success is taken at its word in whatever term it was
given. -/
def handleAppendResponse (n : RaftNode) (sender : NodeId) (response : AppendResponse) :
    RaftNode :=
  if response.term > n.term then n.stepDownInner response.term
  else if n.state.role ≠ .leader then n
  else
    match n.leaderState with
    | none => n
    | some leader =>
      let leader :=
        if response.success then
          { nextIndex := leader.nextIndex.insert sender (response.matchIndex + 1)
            matchIndex := leader.matchIndex.insert sender response.matchIndex }
        else
          let next := (leader.nextIndex.lookup sender).getD 1
          { leader with nextIndex := leader.nextIndex.insert sender (max (next - 1) 1) }
      tryAdvanceCommit { n with leaderState := some leader }

/-- The entries from `applied + 1` on, `count` steps. -/
def committedFrom (log : RaftLog) (applied : LogIndex) : ℕ → List LogEntry
  | 0 => []
  | count + 1 => (log.get (applied + 1)).toList ++ committedFrom log (applied + 1) count

/-- Entries that have been committed but not yet applied. -/
def takeCommittedEntries (n : RaftNode) : RaftNode × List LogEntry :=
  let count := n.state.commitIndex - n.state.lastApplied
  ({ n with state := { n.state with lastApplied := n.state.lastApplied + count } },
    committedFrom n.log n.state.lastApplied count)

/-! ### Snapshots -/

/-- Snapshot the state machine at the commit index and compact the log. -/
def triggerSnapshot (n : RaftNode) (snapshotData : Bytes) (files : SnapshotFiles) :
    RaftNode × Option SnapshotMetadata :=
  let commitIndex := n.state.commitIndex
  if commitIndex = 0 then (n, none)
  else
    let commitTerm := (n.log.termAt commitIndex).getD 0
    match files with
    | .noDirectory => (n, none)
    | .writeFails => (n, none)
    | .written =>
      ({ n with log := n.log.compact commitIndex commitTerm },
        some { lastIncludedIndex := commitIndex
               lastIncludedTerm := commitTerm
               checksum := Crc32.hash snapshotData
               size := snapshotData.length })

/-- Install a snapshot sent by the leader. When the snapshot directory cannot be made the log is
compacted all the same. -/
def handleInstallSnapshot (n : RaftNode) (leaderTerm : Term) (leaderId : NodeId)
    (metadata : SnapshotMetadata) (data : Bytes) (files : SnapshotFiles) : RaftNode × Term :=
  if leaderTerm < n.term then (n, n.term)
  else
    let n := (n.observeTerm leaderTerm).followLeader leaderId
    if metadata.lastIncludedIndex ≤ n.log.snapshotIndex then (n, n.term)
    else if files ≠ .noDirectory ∧
        (Crc32.hash data ≠ metadata.checksum ∨ files = .writeFails) then (n, n.term)
    else
      let n :=
        { n with
          log := n.log.compact metadata.lastIncludedIndex metadata.lastIncludedTerm
          state :=
            { n.state with
              commitIndex := max n.state.commitIndex metadata.lastIncludedIndex
              lastApplied := max n.state.lastApplied metadata.lastIncludedIndex } }
      (n, n.term)

end

/-! ### Read index -/

def requestReadIndex (n : RaftNode) : RaftNode × Except ProposalResult (ℕ × LogIndex) :=
  if n.state.role ≠ .leader then (n, .error (.notLeader n.state.leaderId))
  else
    let readIndex := n.state.commitIndex
    let (readIndexState, id) :=
      n.readIndexState.register readIndex n.config.id n.membership.currentSize
    ({ n with readIndexState := readIndexState }, .ok (id, readIndex))

def readIndexAck (n : RaftNode) (sender : NodeId) : RaftNode × List ℕ :=
  let (readIndexState, confirmed) := n.readIndexState.recordAck sender
  ({ n with readIndexState := readIndexState }, confirmed)

def isReadIndexConfirmed (n : RaftNode) (id : ℕ) : Bool :=
  n.readIndexState.isConfirmed id

def takeReadIndex (n : RaftNode) (id : ℕ) : RaftNode × Option LogIndex :=
  let (readIndexState, readIndex) := n.readIndexState.takeConfirmed id
  ({ n with readIndexState := readIndexState }, readIndex)

/-! ### Leadership transfer -/

def transferLeadership (n : RaftNode) (target : NodeId) :
    RaftNode × Except TransferError Unit :=
  if n.state.role ≠ .leader then (n, .error .notLeader)
  else if target = n.config.id then (n, .error .alreadyLeader)
  else if n.transferState.isSome then (n, .error .alreadyInProgress)
  else if !n.membership.isVoter target then (n, .error .targetNotInCluster)
  else ({ n with transferState := some (TransferState.new target) }, .ok ())

/-- The target to send a timeout message to, once its log is caught up. -/
def checkTransferProgress (n : RaftNode) : RaftNode × Option NodeId :=
  match n.transferState with
  | none => (n, none)
  | some transfer =>
    if transfer.timeoutNowSent then (n, none)
    else
      let targetMatch :=
        (n.leaderState.bind fun l => l.matchIndex.lookup transfer.target).getD 0
      if n.log.lastIndex ≤ targetMatch then
        ({ n with transferState := some { transfer with timeoutNowSent := true } },
          some transfer.target)
      else (n, none)

/-- Abort a transfer that has expired. -/
def checkTransferTimeout (n : RaftNode) (expired : Bool) : RaftNode × Bool :=
  if n.transferState.isSome && expired then ({ n with transferState := none }, true)
  else (n, false)

/-! ### Membership changes -/

section

variable [Crc32] [ConfigJson]

/-- Propose a membership change. A failed write leaves the change in progress. -/
def proposeConfigChange (n : RaftNode) (change : ConfigChange) (fault : Option WalFault) :
    RaftNode × Except MembershipError LogIndex :=
  if n.state.role ≠ .leader then (n, .error .notLeader)
  else
    match n.membership.beginChange change with
    | .error e => (n, .error e)
    | .ok (membership, jointData) =>
      let n := { n with membership := membership }
      match n.appendEntry (ConfigJson.encodeJoint jointData) .configChange fault with
      | (n, .error _) => (n, .error .invalidConfigData)
      | (n, .ok index) => (n.recordOwnMatch, .ok index)

/-- Called when a configuration entry is committed. -/
def applyConfigChange (n : RaftNode) (data : Bytes) (fault : Option WalFault) :
    RaftNode × Option ClusterConfig :=
  match ConfigJson.decodeJoint data with
  | some joint =>
    let n := { n with membership := { n.membership with pending := some joint.new } }
    if n.state.role = .leader then
      match n.membership.finalizeJoint with
      | (membership, some newConfig) =>
        let n := { n with membership := membership }
        let n := (n.appendEntry (ConfigJson.encodeConfig newConfig) .configChange fault).1
        (n.recordOwnMatch, some newConfig)
      | (membership, none) => ({ n with membership := membership }, none)
    else (n, none)
  | none =>
    match ConfigJson.decodeConfig data with
    | some newConfig =>
      ({ n with membership := n.membership.applyNewConfig newConfig }, some newConfig)
    | none => (n, none)

end

/-! ### Start -/

/-- A node starts from its state file and its log file. -/
def new [Crc32] (config : NodeConfig) (saves : List PersistentState) (wal : Bytes) :
    Except Abort RaftNode := do
  let log ← RaftLog.openFile wal
  return {
    config := config
    state :=
      { id := config.id
        role := .follower
        persistent := PersistentState.load saves
        leaderId := none
        commitIndex := 0
        lastApplied := 0 }
    log := log
    leaderState := none
    electionState := none
    readIndexState := ReadIndexState.new
    transferState := none
    membership := MembershipState.new config.id config.peers
    saves := saves }

end RaftNode

end Raftrust.Consensus

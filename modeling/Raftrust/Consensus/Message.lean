import Raftrust.Common.Types

/-!
# Messages and log entries
-/

namespace Raftrust.Consensus

structure VoteRequest where
  term : Term
  candidateId : NodeId
  lastLogIndex : LogIndex
  lastLogTerm : Term
  isPreVote : Bool
  deriving DecidableEq, Repr

structure VoteResponse where
  term : Term
  voteGranted : Bool
  deriving DecidableEq, Repr

inductive EntryType where
  | normal
  | configChange
  | noop
  deriving DecidableEq, Repr

structure LogEntry where
  index : LogIndex
  term : Term
  data : Bytes
  entryType : EntryType
  deriving DecidableEq, Repr

structure AppendRequest where
  term : Term
  leaderId : NodeId
  prevLogIndex : LogIndex
  prevLogTerm : Term
  entries : List LogEntry
  leaderCommit : LogIndex
  deriving DecidableEq, Repr

structure AppendResponse where
  term : Term
  success : Bool
  matchIndex : LogIndex
  deriving DecidableEq, Repr

/-- Sent during a leadership transfer: start an election at once. -/
structure TimeoutNow where
  term : Term
  leaderId : NodeId
  deriving DecidableEq, Repr

inductive ProposalResult where
  | success (index : LogIndex)
  | notLeader (leaderId : Option NodeId)
  | transferInProgress
  | error (msg : String)
  deriving DecidableEq, Repr

end Raftrust.Consensus

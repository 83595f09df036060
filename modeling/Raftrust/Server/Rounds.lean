import Raftrust.Consensus.StateMachineSafety

/-!
# Rounds of requests

The other half of the event loop holds elections and sends heartbeats. It asks its peers for votes
one after the other and for acknowledgements all at once, and goes on only when every request has
been answered or given up. So a server counts an answer only in the round it asked for it in. All
other calls on the node come from other tasks, at any time.

Log writes do not fail here.
-/

namespace Raftrust

/-- Calls that start an election. -/
def Consensus.Call.campaigns : Consensus.Call → Bool
  | startPreVote => true
  | startElection => true
  | timeoutNow _ => true
  | _ => false

namespace Server

open Lib Consensus Storage Function

/-- Where the loop of a server stands. -/
inductive RoundState where
  | idle
  /-- It has read the role of its node and acts on it. -/
  | woken (role : Role)
  /-- The first request is under way, or has the answer; the others wait. -/
  | voting (isPreVote : Bool) (requests : List (NodeId × VoteRequest))
      (answer : Option VoteResponse) (anySuccess : Bool)
  /-- The requests under way, and the answers that have not been handled yet. -/
  | replicating (requests : List (NodeId × AppendRequest))
      (answers : List (NodeId × AppendResponse))

structure Servers where
  cluster : Cluster
  rounds : NodeId → RoundState

/-- The calls that do not belong to a round: those of the handlers and services, of the applying
half of the loop, `check_transfer` and `read_index_ack`. -/
def isHandled : Call → Bool
  | .startPreVote => false
  | .startElection => false
  | .voteResponse _ _ _ => false
  | .createAppendRequests => false
  | .appendResponse _ _ => false
  | _ => true

inductive RoundEvent where
  | handle (call : Call)
  | wake
  | act
  /-- The peer that has been asked for its vote handles the request. -/
  | answerVote
  | receiveVote
  /-- The request or its answer is lost. -/
  | loseVote
  | answerAppend (peer : NodeId) (request : AppendRequest)
  | receiveAppend (peer : NodeId) (response : AppendResponse)
  | loseAppend (peer : NodeId)
  | proceed

/-- The call of another task. -/
def RoundEvent.handled : RoundEvent → Option Call
  | .handle call => some call
  | _ => none

/-- Something happens in the loop of a server, or to one of its requests. -/
structure ServersEvent where
  server : NodeId
  event : RoundEvent

namespace Servers

def init (T : Topology) : Servers where
  cluster := .init T
  rounds := fun _ => .idle

def setRound (s : Servers) (k : NodeId) (round : RoundState) : Servers :=
  { s with rounds := update s.rounds k round }

/-- `send_vote_requests` and `send_append_entries` are through. -/
def proceed (n : RaftNode) : RoundState → RoundState
  | .voting true [] _ anySuccess =>
    if anySuccess && n.preVoteHasQuorum then .woken .candidate else .idle
  | .voting false [] _ _ => .idle
  | .replicating [] [] => .idle
  | round => round

variable [Crc32] [ConfigJson]

def call (T : Topology) (s : Servers) (k : NodeId) (call : Call) : Servers :=
  { s with cluster := s.cluster.step T ⟨k, call, none⟩ }

/-- The loop does what the role it has seen calls for. -/
def act (T : Topology) (s : Servers) (k : NodeId) : Role → Servers
  | .leader =>
    (s.call T k .createAppendRequests).setRound k
      (.replicating (s.cluster.nodes k).createAppendRequests [])
  | .candidate =>
    (s.call T k .startElection).setRound k
      (.voting false (s.cluster.nodes k).startElection.2 none false)
  | _ =>
    (s.call T k .startPreVote).setRound k
      (.voting true (s.cluster.nodes k).startPreVote.2 none false)

def stepServer (T : Topology) (s : Servers) (k : NodeId) (e : RoundEvent) : Servers :=
  match e, s.rounds k with
  | .handle call, _ => if isHandled call then s.call T k call else s
  | .wake, .idle => s.setRound k (.woken (s.cluster.nodes k).state.role)
  | .act, .woken role => s.act T k role
  | .answerVote, .voting isPreVote ((peer, request) :: rest) none anySuccess =>
    (s.call T peer (.voteRequest request)).setRound k
      (.voting isPreVote ((peer, request) :: rest)
        (some ((s.cluster.nodes peer).handleVoteRequest request).2) anySuccess)
  | .receiveVote, .voting isPreVote ((peer, _) :: rest) (some response) _ =>
    (s.call T k (.voteResponse peer response isPreVote)).setRound k
      (if ((s.cluster.nodes k).handleVoteResponse peer response isPreVote none).2 then .idle
        else .voting isPreVote rest none true)
  | .loseVote, .voting isPreVote (_ :: rest) _ anySuccess =>
    s.setRound k (.voting isPreVote rest none anySuccess)
  | .answerAppend peer request, .replicating requests answers =>
    if (peer, request) ∈ requests then
      (s.call T peer (.appendEntries request)).setRound k
        (.replicating (requests.erase (peer, request)) (answers ++
          [(peer, ((s.cluster.nodes peer).handleAppendEntries request none).2)]))
    else s
  | .receiveAppend peer response, .replicating requests answers =>
    if (peer, response) ∈ answers then
      (s.call T k (.appendResponse peer response)).setRound k
        (.replicating requests (answers.erase (peer, response)))
    else s
  | .loseAppend peer, .replicating requests answers =>
    s.setRound k (.replicating (requests.filter (·.1 ≠ peer)) (answers.filter (·.1 ≠ peer)))
  | .proceed, round => s.setRound k (proceed (s.cluster.nodes k) round)
  | _, _ => s

def step (T : Topology) (s : Servers) (e : ServersEvent) : Servers :=
  if e.server ∈ T.members then s.stepServer T e.server e.event else s

/-- No leadership is handed over, and there are no snapshots and no membership changes. -/
def Undisturbed (_ : Servers) (e : ServersEvent) : Prop :=
  ∀ call ∈ e.event.handled, call.campaigns = false ∧ call.isSnapshot = false ∧
    call.isMembershipChange = false
  deriving Decidable

end Servers

end Server

end Raftrust

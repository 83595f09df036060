import Raftrust.Mvcc.RangeScan
import Raftrust.Server.Deployment

/-!
# The key-value service

A request runs as a task of its own next to the server's loop. It looks at the consensus node and at
the store in separate calls, and between any two of them the loop, other requests and the other
servers go on. A linearizable read registers with the node, polls until the read is confirmed, polls
until the node has counted the read index as applied, and then reads the store.
-/

namespace Raftrust.Server

open Lib Consensus Mvcc Storage

/-! ### Requests and answers -/

inductive KvRequest where
  | get (key : Bytes) (linearizable : Bool)
  | put (key value : Bytes) (leaseId ttlSeconds : Int64)
  | delete (key : Bytes)
  | range (startKey endKey : Bytes) (limit : Int64)
  | txn
  deriving DecidableEq, Repr

inductive KvResponse where
  | get (value : Bytes) (revision : ℕ)
  | put (revision : LogIndex)
  | delete (revision : LogIndex) (deleted : Bool)
  | range (kvs : List KeyValue) (count : ℕ)
  deriving DecidableEq, Repr

/-- Why a request fails. Internal errors come with what their text describes. -/
inductive KvStatus where
  | failedPrecondition (message : String)
  | deadlineExceeded (message : String)
  | unimplemented (message : String)
  | proposal (result : ProposalResult)
  | store (error : Error)
  deriving DecidableEq, Repr

/-- An optional node id as `\x7b:?\x7d` prints it. -/
def debugLeader : Option NodeId → String
  | none => "None"
  | some id => "Some(" ++ toString id ++ ")"

def KvStatus.notLeader (leader : Option NodeId) : KvStatus :=
  .failedPrecondition ("not leader, leader is " ++ debugLeader leader)

/-! ### The wait of a linearizable read -/

/-- Where `wait_for_linearizable_read` stands, by the next call it makes. -/
inductive ReadWait where
  | checkLeader
  /-- The node was not the leader and is asked who is. -/
  | askLeader
  | request
  /-- A single node confirms the read at once. -/
  | checkConfirmed (id : ℕ) (readIndex : LogIndex)
  | poll (id : ℕ) (readIndex : LogIndex) (attempts : ℕ)
  /-- After the sleep. -/
  | checkRole (id : ℕ) (readIndex : LogIndex) (attempts : ℕ)
  /-- The read has not been confirmed in time. -/
  | giveUp (id : ℕ)
  | take (id : ℕ) (readIndex : LogIndex)
  | waitForApplied (readIndex : LogIndex) (attempts : ℕ)
  deriving DecidableEq, Repr

namespace ReadWait

/-- How often a read asks for its confirmation. -/
def maxPolls : ℕ := 200

/-- How often a read asks for the applied index. -/
def maxApplyPolls : ℕ := 100

/-- The call that changes the node, if the next one does. -/
def call : ReadWait → Option Call
  | request => some .requestReadIndex
  | giveUp id => some (.takeReadIndex id)
  | take id _ => some (.takeReadIndex id)
  | _ => none

/-- What follows from the next call: the wait goes on, or it is over. -/
def next (n : RaftNode) : ReadWait → ReadWait ⊕ Except KvStatus Unit
  | checkLeader => if n.state.role ≠ .leader then .inl askLeader else .inl request
  | askLeader => .inr (.error (.notLeader n.state.leaderId))
  | request =>
    match n.requestReadIndex.2 with
    | .ok (id, readIndex) => .inl (checkConfirmed id readIndex)
    | .error e => .inr (.error (.proposal e))
  | checkConfirmed id readIndex =>
    if n.isReadIndexConfirmed id then .inl (take id readIndex) else .inl (poll id readIndex 0)
  | poll id readIndex attempts =>
    if n.isReadIndexConfirmed id then .inl (take id readIndex)
    else if maxPolls < attempts + 1 then .inl (giveUp id)
    else .inl (checkRole id readIndex (attempts + 1))
  | checkRole id readIndex attempts =>
    if n.state.role ≠ .leader then
      .inr (.error (.failedPrecondition "lost leadership during read"))
    else .inl (poll id readIndex attempts)
  | giveUp _ => .inr (.error (.deadlineExceeded "read index confirmation timed out"))
  | take _ readIndex => .inl (waitForApplied readIndex 0)
  | waitForApplied readIndex attempts =>
    if n.state.lastApplied < readIndex then
      if maxApplyPolls < attempts + 1 then
        .inr (.error (.deadlineExceeded "timed out waiting for state machine to catch up"))
      else .inl (waitForApplied readIndex (attempts + 1))
    else .inr (.ok ())

end ReadWait

/-! ### Tasks -/

/-- A request that is being served. -/
inductive KvTask where
  | checking (request : KvRequest)
  /-- The node was not the leader and is asked who is. -/
  | refusing
  | waiting (request : KvRequest) (wait : ReadWait)
  /-- About to read the store. -/
  | reading (request : KvRequest)
  /-- About to propose a write. -/
  | proposing (request : KvRequest)
  | done (result : Except KvStatus KvResponse)
  | panicked
  deriving DecidableEq

namespace KvTask

/-- The beginning of a request, on a service with or without linearizable reads. -/
def start (linearizableReads : Bool) : KvRequest → KvTask
  | .get key true =>
    if linearizableReads then .waiting (.get key true) .checkLeader else .reading (.get key true)
  | .get key false => .checking (.get key false)
  | .put key value leaseId ttlSeconds => .checking (.put key value leaseId ttlSeconds)
  | .delete key => .checking (.delete key)
  | .range startKey endKey limit =>
    if linearizableReads then .waiting (.range startKey endKey limit) .checkLeader
    else .reading (.range startKey endKey limit)
  | .txn => .done (.error (.unimplemented "txn not yet implemented"))

/-- The command a write proposes. -/
def command? : KvRequest → Option KvCommand
  | .put key value leaseId ttlSeconds => some (.put key value leaseId ttlSeconds)
  | .delete key => some (.delete key)
  | _ => none

/-- The answer to a write that the node has accepted at `index`. -/
def accepted (index : LogIndex) : KvRequest → KvResponse
  | .delete _ => .delete index true
  | _ => .put index

section

variable {σ : Type} [StorageEngine σ]

/-- Answer a read from the store. -/
def read (store : MvccStore σ) (fault : Option EngineFault) : KvRequest → KvTask
  | .get key _ =>
    match store.tryGet fault key with
    | .ok (some kv) => .done (.ok (.get kv.value kv.modRevision))
    | .ok none => .done (.ok (.get [] 0))
    | .error (.error e) => .done (.error (.store e))
    | .error .panicked => .panicked
  | .range startKey endKey limit =>
    match fault with
    | some (.scan e) => .done (.error (.store e))
    | _ =>
      match store.scanAtRevision startKey endKey u64Max with
      | .ok results =>
        let kvs := if 0 < limit then results.take limit.toInt.toNat else results
        .done (.ok (.range kvs kvs.length))
      | .error (.error e) => .done (.error (.store e))
      | .error .panicked => .panicked
  | _ => .panicked

variable [CommandJson]

/-- The call to the node that the task makes next, if it changes the node. -/
def nodeEvent? (walFault : Option WalFault) : KvTask → Option NodeEvent
  | waiting _ wait => wait.call.map fun call => ⟨call, none⟩
  | proposing request =>
    (command? request).map fun cmd => ⟨.propose cmd.encode, walFault⟩
  | _ => none

variable [Crc32]

/-- The next call of the task, on the server in the state `s`. -/
def next (s : ServerState σ) (fault : Option EngineFault) (walFault : Option WalFault) :
    KvTask → KvTask
  | checking request =>
    if s.app.node.state.role ≠ .leader then refusing
    else
      match command? request with
      | some _ => proposing request
      | none => reading request
  | refusing => done (.error (.notLeader s.app.node.state.leaderId))
  | waiting request wait =>
    match wait.next s.app.node with
    | .inl wait => waiting request wait
    | .inr (.ok ()) => reading request
    | .inr (.error status) => done (.error status)
  | reading request => read s.replica.store fault request
  | proposing request =>
    match command? request with
    | some cmd =>
      match (s.app.node.propose cmd.encode walFault).2 with
      | .ok index => done (.ok (accepted index request))
      | .error e => done (.error (.proposal e))
    | none => panicked
  | done result => done result
  | panicked => panicked

end

end KvTask

/-! ### A request in a deployment -/

/-- A deployment with one of the requests it serves. All other requests are part of what its servers
do. -/
structure Serving (σ : Type) where
  deployment : Deployment σ
  task : KvTask

inductive ServingEvent where
  | other (e : DeploymentEvent)
  | task (fault : Option EngineFault) (walFault : Option WalFault)

namespace Serving

variable {σ : Type} [CommandJson]

/-- What an event does in the deployment, when the request is served by server `k`. -/
def deploymentEvent? (k : NodeId) (s : Serving σ) : ServingEvent → Option DeploymentEvent
  | .other e => some e
  | .task _ walFault => (s.task.nodeEvent? walFault).map fun ev => ⟨k, .call ev⟩

variable [StorageEngine σ] [Crc32] [ConfigJson]

/-- One event. -/
def step (T : Topology) (k : NodeId) (s : Serving σ) (e : ServingEvent) : Serving σ where
  deployment := (s.deploymentEvent? k e).elim s.deployment (s.deployment.step T)
  task :=
    match e with
    | .other _ => s.task
    | .task fault walFault => s.task.next (s.deployment.servers k) fault walFault

/-- The request arrives before anything has happened. -/
def init (T : Topology) (initial : Replica σ) (request : KvRequest) : Serving σ where
  deployment := .init T initial
  task := .start true request

end Serving

end Raftrust.Server

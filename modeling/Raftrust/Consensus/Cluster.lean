import Mathlib.Logic.Function.Basic
import Raftrust.Consensus.Node
import Raftrust.Lib.Run

/-!
# Clusters

A cluster is its nodes and everything they ever sent. A message may be delivered to its target at
any time after it was sent, any number of times, or never.
-/

namespace Raftrust.Consensus

open Lib Storage

/-! ### Calls -/

/-- A message in the network. A response goes back to the node whose request it answers, and the
receiver knows what kind of request that was. -/
inductive Packet where
  | voteRequest (target : NodeId) (request : VoteRequest)
  | voteResponse (target sender : NodeId) (response : VoteResponse) (wasPreVote : Bool)
  | appendRequest (target : NodeId) (request : AppendRequest)
  | appendResponse (target sender : NodeId) (response : AppendResponse)
  deriving DecidableEq, Repr

/-- What a node can be called to do. -/
inductive Call where
  | startPreVote
  | startElection
  | timeoutNow (msg : TimeoutNow)
  | voteRequest (request : VoteRequest)
  | voteResponse (sender : NodeId) (response : VoteResponse) (wasPreVote : Bool)
  | appendEntries (request : AppendRequest)
  | appendResponse (sender : NodeId) (response : AppendResponse)
  | propose (data : Bytes)
  | createAppendRequests
  | takeCommittedEntries
  | triggerSnapshot (data : Bytes) (files : SnapshotFiles)
  | installSnapshot (leaderTerm : Term) (leaderId : NodeId) (metadata : SnapshotMetadata)
      (data : Bytes) (files : SnapshotFiles)
  | requestReadIndex
  | readIndexAck (sender : NodeId)
  | takeReadIndex (id : ℕ)
  | transferLeadership (target : NodeId)
  | checkTransferProgress
  | checkTransferTimeout (expired : Bool)
  | proposeConfigChange (change : ConfigChange)
  | applyConfigChange (data : Bytes)
  deriving DecidableEq, Repr

namespace Call

/-- The message a call delivers to `target`, if it delivers one. -/
def packet (target : NodeId) : Call → Option Packet
  | voteRequest request => some (.voteRequest target request)
  | voteResponse sender response wasPreVote =>
    some (.voteResponse target sender response wasPreVote)
  | appendEntries request => some (.appendRequest target request)
  | appendResponse sender response => some (.appendResponse target sender response)
  | _ => none

/-- The vote a call brings in, and whether it is a pre-vote. -/
def vote : Call → Option (VoteResponse × Bool)
  | voteResponse _ response wasPreVote => some (response, wasPreVote)
  | _ => none

/-- The append request a call delivers. -/
def request : Call → Option AppendRequest
  | appendEntries request => some request
  | _ => none

def isSnapshot : Call → Bool
  | triggerSnapshot _ _ => true
  | installSnapshot _ _ _ _ _ => true
  | _ => false

def isMembershipChange : Call → Bool
  | proposeConfigChange _ => true
  | applyConfigChange _ => true
  | _ => false

end Call

section

variable [Crc32] [ConfigJson]

/-- Run a call: the node afterwards and what it sends. -/
def RaftNode.execute (n : RaftNode) (fault : Option WalFault) : Call → RaftNode × List Packet
  | .startPreVote =>
    (n.startPreVote.1, n.startPreVote.2.map fun p => .voteRequest p.1 p.2)
  | .startElection =>
    (n.startElection.1, n.startElection.2.map fun p => .voteRequest p.1 p.2)
  | .timeoutNow msg =>
    -- the node returns these requests, and its server drops them: here they may be delivered or not
    ((n.handleTimeoutNow msg).1, (n.handleTimeoutNow msg).2.map fun p => .voteRequest p.1 p.2)
  | .voteRequest request =>
    ((n.handleVoteRequest request).1,
      [.voteResponse request.candidateId n.config.id (n.handleVoteRequest request).2
        request.isPreVote])
  | .voteResponse sender response wasPreVote =>
    ((n.handleVoteResponse sender response wasPreVote fault).1, [])
  | .appendEntries request =>
    ((n.handleAppendEntries request fault).1,
      [.appendResponse request.leaderId n.config.id (n.handleAppendEntries request fault).2])
  | .appendResponse sender response => (n.handleAppendResponse sender response, [])
  | .propose data => ((n.propose data fault).1, [])
  | .createAppendRequests =>
    (n, n.createAppendRequests.map fun p => .appendRequest p.1 p.2)
  | .takeCommittedEntries => (n.takeCommittedEntries.1, [])
  | .triggerSnapshot data files => ((n.triggerSnapshot data files).1, [])
  | .installSnapshot leaderTerm leaderId metadata data files =>
    ((n.handleInstallSnapshot leaderTerm leaderId metadata data files).1, [])
  | .requestReadIndex => (n.requestReadIndex.1, [])
  | .readIndexAck sender => ((n.readIndexAck sender).1, [])
  | .takeReadIndex id => ((n.takeReadIndex id).1, [])
  | .transferLeadership target => ((n.transferLeadership target).1, [])
  | .checkTransferProgress => (n.checkTransferProgress.1, [])
  | .checkTransferTimeout expired => ((n.checkTransferTimeout expired).1, [])
  | .proposeConfigChange change => ((n.proposeConfigChange change fault).1, [])
  | .applyConfigChange data => ((n.applyConfigChange data fault).1, [])

end

/-! ### Topologies and runs -/

/-- Fixed, mutually consistent peer lists: every member's peers are the other members. -/
structure Topology where
  members : Finset NodeId
  peers : NodeId → List NodeId
  nodup_peers : ∀ n ∈ members, (peers n).Nodup
  mem_peers : ∀ n ∈ members, ∀ m, m ∈ peers n ↔ m ∈ members ∧ m ≠ n

/-- The topology of the given nodes, each listing the others in the same order. -/
def Topology.ofIds (ids : List NodeId) (h : ids.Nodup) : Topology where
  members := ids.toFinset
  peers := fun n => ids.filter (· ≠ n)
  nodup_peers := fun _ _ => h.filter _
  mem_peers := by simp

/-- Three nodes, for concrete runs. -/
def Topology.three : Topology :=
  ofIds [1, 2, 3] (by decide)

structure Cluster where
  nodes : NodeId → RaftNode
  network : List Packet

/-- A call on one of the nodes, and the fault of the log write it makes, if that fails. -/
structure Event where
  node : NodeId
  call : Call
  fault : Option WalFault

namespace Cluster

/-- A node that starts for the first time: no state file, an empty log. -/
def freshNode (config : NodeConfig) : RaftNode where
  config := config
  state :=
    { id := config.id
      role := .follower
      persistent := PersistentState.new
      leaderId := none
      commitIndex := 0
      lastApplied := 0 }
  log := { entries := [], wal := WalWriter.openFile [], snapshotIndex := 0, snapshotTerm := 0 }
  leaderState := none
  electionState := none
  readIndexState := ReadIndexState.new
  transferState := none
  membership := MembershipState.new config.id config.peers
  saves := []

lemma new_eq_freshNode [Crc32] (config : NodeConfig) :
    RaftNode.new config [] [] = .ok (freshNode config) := by
  simp [RaftNode.new, RaftLog.openFile, freshNode, Except.mapError, pure, Except.pure, bind,
    Except.bind]

def init (T : Topology) : Cluster where
  nodes := fun n => freshNode { id := n, peers := T.peers n }
  network := []

/-- Node `k` becomes `n'` and sends `sent`. -/
def put (c : Cluster) (k : NodeId) (n' : RaftNode) (sent : List Packet) : Cluster where
  nodes := Function.update c.nodes k n'
  network := c.network ++ sent

@[simp] lemma put_nodes_self (c : Cluster) (k : NodeId) (n' : RaftNode) (sent : List Packet) :
    (c.put k n' sent).nodes k = n' := by
  simp [put]

lemma put_nodes_of_ne (c : Cluster) {k m : NodeId} (h : m ≠ k) (n' : RaftNode)
    (sent : List Packet) : (c.put k n' sent).nodes m = c.nodes m := by
  simp [put, h]

lemma mem_network_put {c : Cluster} {k : NodeId} {n' : RaftNode} {sent : List Packet}
    {p : Packet} : p ∈ (c.put k n' sent).network ↔ p ∈ c.network ∨ p ∈ sent :=
  List.mem_append

/-- Calls on nodes outside the cluster and deliveries of messages that were never sent do not
happen. -/
def Enabled (T : Topology) (c : Cluster) (e : Event) : Prop :=
  e.node ∈ T.members ∧ ∀ p ∈ e.call.packet e.node, p ∈ c.network
  deriving Decidable

variable [Crc32] [ConfigJson]

/-- Node `k` runs a call. -/
abbrev perform (c : Cluster) (k : NodeId) (fault : Option WalFault) (call : Call) : Cluster :=
  c.put k ((c.nodes k).execute fault call).1 ((c.nodes k).execute fault call).2

/-- One event. -/
def step (T : Topology) (c : Cluster) (e : Event) : Cluster :=
  if c.Enabled T e then
    let executed := (c.nodes e.node).execute e.fault e.call
    c.put e.node executed.1 executed.2
  else c

/-- The cluster after a run. -/
abbrev after (T : Topology) (es : List Event) : Cluster :=
  run (step T) (init T) es

lemma after_append (T : Topology) (es es' : List Event) :
    after T (es ++ es') = run (step T) (after T es) es' :=
  run_append _ _ _ _

@[simp] lemma after_snoc (T : Topology) (es : List Event) (e : Event) :
    after T (es ++ [e]) = step T (after T es) e :=
  run_snoc _ _ _ _

/-- What an event does: nothing, or it runs its call on a member. -/
lemma step_cases (T : Topology) (c : Cluster) (e : Event) :
    (¬ c.Enabled T e ∧ step T c e = c) ∨
      (c.Enabled T e ∧
        step T c e = c.put e.node ((c.nodes e.node).execute e.fault e.call).1
          ((c.nodes e.node).execute e.fault e.call).2) := by
  by_cases h : c.Enabled T e
  · exact .inr ⟨h, if_pos h⟩
  · exact .inl ⟨h, if_neg h⟩

/-- Node `n` leads term `t`. -/
def LeadsIn (c : Cluster) (n : NodeId) (t : Term) : Prop :=
  (c.nodes n).state.role = .leader ∧ (c.nodes n).term = t
  deriving Decidable

/-- Over the whole run, at most one node ever leads a term. -/
def UniqueLeaders (T : Topology) (es : List Event) : Prop :=
  ∀ es₁ es₂, es₁ <+: es → es₂ <+: es → ∀ n m t,
    (after T es₁).LeadsIn n t → (after T es₂).LeadsIn m t → n = m

lemma UniqueLeaders.of_isPrefix {T : Topology} {es es' : List Event} (h : UniqueLeaders T es)
    (hp : es' <+: es) : UniqueLeaders T es' :=
  fun es₁ es₂ h₁ h₂ => h es₁ es₂ (h₁.trans hp) (h₂.trans hp)

/-! ### Leaders of a given run -/

/-- Nodes outside the cluster stay as they are. -/
lemma run_nodes_of_not_mem (T : Topology) (es : List Event) {n : NodeId} (h : n ∉ T.members) :
    (after T es).nodes n = (init T).nodes n := by
  induction es using List.reverseRecOn with
  | nil => rfl
  | append_singleton es e ih =>
    rw [after_snoc]
    rcases step_cases T (after T es) e with ⟨-, heq⟩ | ⟨henabled, heq⟩
    · rw [heq, ih]
    · have hne : n ≠ e.node := fun hn => h (hn ▸ henabled.1)
      rw [heq, put_nodes_of_ne _ hne, ih]

/-- Which of the nodes `ids` lead at the moments of a run, and in which terms. -/
def leaders (T : Topology) (ids : List NodeId) (c : Cluster) : List Event → List (NodeId × Term)
  | [] => (ids.filter fun n => (c.nodes n).state.role = .leader).map fun n => (n, (c.nodes n).term)
  | e :: es =>
    (ids.filter fun n => (c.nodes n).state.role = .leader).map (fun n => (n, (c.nodes n).term)) ++
      leaders T ids (step T c e) es

lemma mem_leaders (T : Topology) {ids : List NodeId} {c : Cluster} {es es' : List Event}
    (hp : es' <+: es) {n : NodeId} (hn : n ∈ ids) {t : Term}
    (h : (run (step T) c es').LeadsIn n t) : (n, t) ∈ leaders T ids c es := by
  induction es generalizing c es' with
  | nil =>
    obtain rfl := List.prefix_nil.mp hp
    obtain ⟨hr, rfl⟩ := h
    simpa [leaders] using ⟨hn, hr⟩
  | cons e es ih =>
    rw [leaders, List.mem_append]
    cases es' with
    | nil =>
      obtain ⟨hr, rfl⟩ := h
      left
      simpa using ⟨hn, hr⟩
    | cons e' es' =>
      obtain ⟨rfl, hp'⟩ := List.cons_prefix_cons.mp hp
      exact .inr (ih hp' h)

/-- Check the one-leader condition on a run, given all pairs of leaders and terms. -/
lemma UniqueLeaders.of_leaders (T : Topology) (ids : List NodeId) (hids : ∀ n ∈ T.members, n ∈ ids)
    {es : List Event} (pairs : List (NodeId × Term))
    (hpairs : ∀ p ∈ leaders T ids (init T) es, p ∈ pairs)
    (h : ∀ p ∈ pairs, ∀ q ∈ pairs, p.2 = q.2 → p.1 = q.1) : UniqueLeaders T es := by
  have hmem : ∀ es', es' <+: es → ∀ n t, (after T es').LeadsIn n t →
      (n, t) ∈ pairs := by
    intro es' hp n t hlead
    by_cases hn : n ∈ T.members
    · exact hpairs _ (mem_leaders T hp (hids n hn) hlead)
    · rw [LeadsIn, run_nodes_of_not_mem T es' hn] at hlead
      simp [init, freshNode] at hlead
  intro es₁ es₂ h₁ h₂ n m t hn hm
  exact h _ (hmem es₁ h₁ n t hn) _ (hmem es₂ h₂ m t hm) rfl

end Cluster

/-! ### Concrete runs -/

namespace Runs

/-- Concrete runs use the checksum of the code. -/
scoped instance : Crc32 := Crc32.ieee

/-- Concrete runs do not change the configuration. -/
scoped instance : ConfigJson := ConfigJson.unused

end Runs

end Raftrust.Consensus

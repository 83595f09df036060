import Raftrust.Consensus.Finality
import Raftrust.Server.EventLoop
import Raftrust.Server.StateMachine

/-!
# A deployment of servers

Every node of the cluster is a server: a consensus node, and next to it the loop that applies what
the node has committed to a store. Servers act in any order, and their messages arrive whenever and
as often as they like. The consensus nodes of a deployment are a cluster, so what is known of
clusters says which entries the servers apply.
-/

namespace Raftrust.Server

open Lib Consensus Mvcc Storage

/-- The servers and everything their nodes ever sent. -/
structure Deployment (σ : Type) where
  servers : NodeId → ServerState σ
  network : List Packet

/-- One event of one server. -/
structure DeploymentEvent where
  server : NodeId
  event : ServerEvent

namespace ServerState

section

variable {σ : Type}

lemma fail_app (s : ServerState σ) (store : MvccStore σ) (entry : LogEntry) (rest : List LogEntry)
    (abort : Abort) : (s.fail store entry rest abort).app = s.app := by
  cases abort <;> rfl

variable [StorageEngine σ]

lemma beginCommand_app (s : ServerState σ) (fault : Option EngineFault) (m : Moment)
    (entry : LogEntry) (rest : List LogEntry) (cmd : KvCommand) :
    (s.beginCommand fault m entry rest cmd).app = s.app := by
  cases cmd with
  | put key value leaseId ttlSeconds =>
    simp only [beginCommand]
    split
    · rfl
    · exact s.fail_app _ _ _ _
  | delete key =>
    simp only [beginCommand]
    split
    · rfl
    · exact s.fail_app _ _ _ _
  | leaseGrant leaseId ttl =>
    simp only [beginCommand]
    split <;> rfl
  | leaseRevoke leaseId =>
    simp only [beginCommand]
    split <;> rfl

variable [Crc32] [ConfigJson] [CommandJson]

lemma beginEntry_app (s : ServerState σ) (fault : Option EngineFault) (walFault : Option WalFault)
    (m : Moment) (entry : LogEntry) (rest : List LogEntry) :
    (s.beginEntry fault walFault m entry rest).app =
      (if entry.entryType = .configChange then
        some (⟨.applyConfigChange entry.data, walFault⟩ : NodeEvent) else none).elim s.app
        s.app.step := by
  rw [beginEntry]
  cases entry.entryType with
  | noop => rfl
  | configChange => rfl
  | normal =>
    simp only [reduceCtorEq, if_false, Option.elim_none]
    split
    · rfl
    · split
      · exact s.beginCommand_app _ _ _ _ _
      · rfl

/-- A server calls its node where `nodeEvent?` says so, and nowhere else. -/
lemma step_app (s : ServerState σ) (e : ServerEvent) :
    (s.step e).app = (s.nodeEvent? e).elim s.app s.app.step := by
  cases e with
  | call e =>
    simp only [step, nodeEvent?]
    split <;> rfl
  | sweep now ids order =>
    simp only [step, nodeEvent?]
    split <;> rfl
  | take =>
    simp only [step, nodeEvent?]
    split <;> rfl
  | advance fault walFault m =>
    simp only [step, nodeEvent?, advance]
    cases s.loop with
    | idle => rfl
    | stopped rest => rfl
    | expiring keys => cases keys <;> rfl
    | applying rest =>
      cases rest with
      | nil => rfl
      | cons entry rest => exact s.beginEntry_app fault walFault m entry rest
    | putting entry key value leaseId ttlSeconds rest =>
      dsimp only
      split
      · rfl
      · exact s.fail_app _ _ _ _
    | deleting entry key prev rest =>
      dsimp only
      split
      · rfl
      · exact s.fail_app _ _ _ _
    | revoking entry m keys rest =>
      cases keys with
      | nil => rfl
      | cons key keys =>
        dsimp only
        split <;> rfl

end

end ServerState

namespace Deployment

variable {σ : Type}

/-- All servers start for the first time, with the same replica. -/
def init (T : Topology) (initial : Replica σ) : Deployment σ where
  servers := fun n => .init { id := n, peers := T.peers n } initial
  network := []

/-- The consensus nodes alone. -/
def cluster (d : Deployment σ) : Cluster where
  nodes := fun n => (d.servers n).app.node
  network := d.network

/-- Only the node of the server that acts can change. -/
lemma cluster_update (d : Deployment σ) (k : NodeId) (s : ServerState σ) (sent : List Packet) :
    cluster { servers := Function.update d.servers k s, network := d.network ++ sent } =
      d.cluster.put k s.app.node sent := by
  have hnodes : (fun n => (Function.update d.servers k s n).app.node) =
      Function.update d.cluster.nodes k s.app.node := by
    funext n
    rcases eq_or_ne n k with rfl | hn
    · simp
    · simp [hn, cluster]
  simp only [cluster, Cluster.put, hnodes]

variable [Crc32] [ConfigJson] [CommandJson]

/-- The call that an event makes to the server's node. -/
def clusterEvent? (d : Deployment σ) (e : DeploymentEvent) : Option Consensus.Event :=
  ((d.servers e.server).nodeEvent? e.event).map fun ev => ⟨e.server, ev.call, ev.fault⟩

/-- Events of servers outside the cluster and deliveries of messages that were never sent do not
happen. -/
def Enabled (T : Topology) (d : Deployment σ) (e : DeploymentEvent) : Prop :=
  e.server ∈ T.members ∧ ∀ ev ∈ d.clusterEvent? e, ∀ p ∈ ev.call.packet ev.node, p ∈ d.network
  deriving Decidable

/-- What the server's node sends. -/
def sent (d : Deployment σ) (e : DeploymentEvent) : List Packet :=
  (d.clusterEvent? e).elim [] fun ev => ((d.servers e.server).app.node.execute ev.fault ev.call).2

variable [StorageEngine σ]

/-- One event. -/
def step (T : Topology) (d : Deployment σ) (e : DeploymentEvent) : Deployment σ :=
  if d.Enabled T e then
    { servers := Function.update d.servers e.server ((d.servers e.server).step e.event)
      network := d.network ++ d.sent e }
  else d

/-! ### The cluster of a deployment -/

/-- The consensus nodes make the step of the call, if there is one. -/
lemma cluster_step (T : Topology) (d : Deployment σ) (e : DeploymentEvent) :
    (step T d e).cluster = (d.clusterEvent? e).elim d.cluster (Cluster.step T d.cluster) := by
  have happ := (d.servers e.server).step_app e.event
  unfold step
  cases hev : (d.servers e.server).nodeEvent? e.event with
  | none =>
    have hnone : d.clusterEvent? e = none := by simp [clusterEvent?, hev]
    rw [hnone, Option.elim_none]
    split_ifs
    · rw [cluster_update, happ, hev]
      simp [Cluster.put, cluster, sent, hnone]
    · rfl
  | some ev =>
    have hsome : d.clusterEvent? e = some ⟨e.server, ev.call, ev.fault⟩ := by
      simp [clusterEvent?, hev]
    have henabled : d.Enabled T e ↔ d.cluster.Enabled T ⟨e.server, ev.call, ev.fault⟩ := by
      simp [Enabled, Cluster.Enabled, hsome, cluster]
    rw [hsome, Option.elim_some, Cluster.step]
    by_cases h : d.Enabled T e
    · rw [if_pos h, if_pos (henabled.mp h), cluster_update, happ, hev]
      simp only [sent, hsome]
      rfl
    · rw [if_neg h, if_neg (mt henabled.mpr h)]

/-- The calls to the consensus nodes in a run. -/
def calls (T : Topology) (initial : Replica σ) (es : List DeploymentEvent) : List Consensus.Event :=
  labels (step T) clusterEvent? (init T initial) es

lemma cluster_run (T : Topology) (initial : Replica σ) (es : List DeploymentEvent) :
    (run (step T) (init T initial) es).cluster =
      Cluster.after T (calls T initial es) :=
  proj_run (cluster_step T) (init T initial) es

/-- The consensus nodes of the deployment go through an orderly run, and no call of an engine
fails. -/
def Orderly (d : Deployment σ) (e : DeploymentEvent) : Prop :=
  (∀ ev ∈ d.clusterEvent? e, d.cluster.Orderly ev) ∧ (d.servers e.server).CallsSucceed e.event
  deriving Decidable

lemma orderly_calls {T : Topology} {initial : Replica σ} {es : List DeploymentEvent}
    (h : Along (step T) Orderly (init T initial) es) :
    Cluster.OrderlyRun T (calls T initial es) :=
  Along.labels (cluster_step T) (h.mono (step T) fun _ _ he => he.1)

/-! ### What the servers apply -/

section

variable {T : Topology} {initial : Replica σ} {es es' : List DeploymentEvent}

lemma calls_isPrefix (hp : es' <+: es) : calls T initial es' <+: calls T initial es :=
  labels_isPrefix (step T) clusterEvent? (init T initial) hp

lemma node_eq (n : NodeId) : ((run (step T) (init T initial) es).servers n).app.node =
    (Cluster.after T (calls T initial es)).nodes n := by
  rw [← cluster_run]
  rfl

lemma servers_step {d : Deployment σ} {e : DeploymentEvent} (henabled : d.Enabled T e) :
    (step T d e).servers e.server = (d.servers e.server).step e.event := by
  rw [step, if_pos henabled]
  exact Function.update_self _ _ _

/-- In an orderly run a server never loses what it has committed. -/
lemma keepsEntries {e : DeploymentEvent}
    (h : Along (step T) Orderly (init T initial) (es ++ [e]))
    (henabled : (run (step T) (init T initial) es).Enabled T e) :
    ((run (step T) (init T initial) es).servers e.server).KeepsEntries e.event := by
  intro ev hev
  have horderly := ((along_snoc _ _ _ _ _).mp h).2.1 ⟨e.server, ev.call, ev.fault⟩
    (by rw [clusterEvent?, hev]; rfl)
  have hsnap : ev.call.isSnapshot = false := horderly.1.1
  have hcalls := orderly_calls h
  have hpre : calls T initial es <+: calls T initial (es ++ [e]) :=
    calls_isPrefix (List.prefix_append _ _)
  have hnode : (((run (step T) (init T initial) es).servers e.server).app.step ev).node =
      (Cluster.after T (calls T initial (es ++ [e]))).nodes e.server := by
    rw [← node_eq, run_snoc, servers_step henabled, ServerState.step_app, hev]
    rfl
  refine ⟨⟨?_, ?_, fun i hi hpos => ?_⟩, fun hcompacts => ?_⟩
  · cases hcall : ev.call <;> simp_all [Call.installs, Call.isSnapshot]
  · rw [hnode]
    exact (Cluster.simulated_of_orderly T hcalls).1.simulated.contiguous _
  · have hi' := hi
    rw [node_eq] at hi'
    rw [hnode, node_eq]
    exact Cluster.get_eq_of_committed hcalls List.prefix_rfl hpre (Nat.one_le_of_lt hpos)
      (hi'.trans (Cluster.commitIndex_le hcalls hpre _)) hi'
  · cases hcall : ev.call <;> simp_all [Call.compacts, Call.isSnapshot]

/-- Every server is in step with its node. -/
lemma inSync (h : Along (step T) Orderly (init T initial) es) (n : NodeId) :
    ((run (step T) (init T initial) es).servers n).InSync initial := by
  refine run_invariant (step T)
    (fun es => ∀ n, ((run (step T) (init T initial) es).servers n).InSync initial)
    (fun n => ⟨.init _, rfl, initial, rfl, rfl⟩) (fun es e hes ih he n => ?_) h n
  rw [run_snoc]
  by_cases henabled : (run (step T) (init T initial) es).Enabled T e
  · rcases eq_or_ne n e.server with rfl | hn
    · rw [servers_step henabled]
      exact (ih e.server).step (keepsEntries ((along_snoc _ _ _ _ _).mpr ⟨hes, he⟩) henabled) he.2
    · rw [step, if_pos henabled]
      simpa only [Function.update_of_ne hn] using ih n
  · rw [step, if_neg henabled]
    exact ih n

/-- Of two servers, each at a moment of its own, the one that has committed less has committed the
first of what the other one has. -/
lemma committed_isPrefix {es₁ es₂ : List DeploymentEvent}
    (h : Along (step T) Orderly (init T initial) es) (h₁ : es₁ <+: es) (h₂ : es₂ <+: es)
    {n m : NodeId}
    (hle : ((run (step T) (init T initial) es₁).servers n).app.node.state.commitIndex ≤
      ((run (step T) (init T initial) es₂).servers m).app.node.state.commitIndex) :
    ((run (step T) (init T initial) es₁).servers n).app.committed <+:
      ((run (step T) (init T initial) es₂).servers m).app.committed := by
  have hn := (inSync (h.of_isPrefix _ h₁) n).exact
  have hm := (inSync (h.of_isPrefix _ h₂) m).exact
  have hcalls := orderly_calls h
  have hbase : ∀ {es'} (_ : es' <+: es) (k : NodeId),
      ((run (step T) (init T initial) es').servers k).app.node.log.snapshotIndex = 0 := by
    intro es' hp k
    rw [node_eq]
    exact (Cluster.simulated_of_orderly T (orderly_calls (h.of_isPrefix _ hp))).1.simulated.base k
  rw [List.prefix_iff_getElem?]
  intro j hj
  have hj' := hj
  rw [hn.length_committed] at hj'
  have hget := Cluster.get_eq_of_committed hcalls (calls_isPrefix h₁) (calls_isPrefix h₂)
    (n := n) (m := m) (i := j + 1) (Nat.le_add_left _ _)
    (by rw [← node_eq]; exact hj') (by rw [← node_eq]; exact hj'.trans_le hle)
  rw [← node_eq, ← node_eq, hn.held (j + 1) (by rw [hbase h₁]; exact Nat.succ_pos j) hj',
    hm.held (j + 1) (by rw [hbase h₂]; exact Nat.succ_pos j) (hj'.trans_le hle)] at hget
  rw [← List.getElem?_eq_getElem hj]
  simpa using hget.symm

end

end Deployment

namespace ServerState

/-- The entries whose application is complete. -/
def applied {σ : Type} (s : ServerState σ) : List LogEntry :=
  s.trace.filterMap ReplicaEvent.entry?

lemma InSync.applied_isPrefix {σ : Type} [StorageEngine σ] [CommandJson] {initial : Replica σ}
    {s : ServerState σ} (h : s.InSync initial) : s.applied <+: s.app.committed := by
  have htaken := h.taken
  rw [h.exact.taken] at htaken
  exact (List.prefix_append _ _).trans (htaken ▸ List.take_prefix _ _)

end ServerState

namespace Deployment

variable {σ : Type} [StorageEngine σ] [Crc32] [ConfigJson] [CommandJson]

/-- **A replicated state machine.** Take two servers of an orderly run that have no command pending,
and let the first have applied no more entries than the second. Then these are the first of the
entries that the second has applied, and if the leases that both have revoked had the same keys on
both, the second's store is what the entries that it is ahead make of the first's. -/
theorem replicated (T : Topology) (initial : Replica σ) (es : List DeploymentEvent)
    (h : Along (step T) Orderly (init T initial) es) (n m : NodeId) :
    let s := (run (step T) (init T initial) es).servers n
    let s' := (run (step T) (init T initial) es).servers m
    (∀ entry ∈ s.loop.pending ++ s'.loop.pending, command? entry = none) →
      s.applied.length ≤ s'.applied.length →
      s.applied <+: s'.applied ∧
        (((initial.inputs s.trace).map Prod.snd) <+: ((initial.inputs s'.trace).map Prod.snd) →
          ∃ ahead : List (LogEntry × List Bytes),
            ahead.map Prod.fst = s'.applied.drop s.applied.length ∧
              ahead.foldlM storeStep s.replica.store = .ok s'.replica.store) := by
  intro s s' hpending hlen
  have hs : s.InSync initial := inSync h n
  have hs' : s'.InSync initial := inSync h m
  have hpre : s.applied <+: s'.applied := by
    rcases le_total s.app.node.state.commitIndex s'.app.node.state.commitIndex with hle | hle
    · exact List.prefix_of_prefix_length_le
        (hs.applied_isPrefix.trans (committed_isPrefix h List.prefix_rfl List.prefix_rfl hle))
        hs'.applied_isPrefix hlen
    · exact List.prefix_of_prefix_length_le hs.applied_isPrefix
        (hs'.applied_isPrefix.trans (committed_isPrefix h List.prefix_rfl List.prefix_rfl hle))
        hlen
  refine ⟨hpre, fun hkeys => ?_⟩
  have hrun := (hs.effectsApplied_iff.mpr fun entry he =>
    hpending entry (List.mem_append_left _ he)).2
  have hrun' := (hs'.effectsApplied_iff.mpr fun entry he =>
    hpending entry (List.mem_append_right _ he)).2
  have hentries := Replica.inputs_entries hrun
  have hentries' := Replica.inputs_entries hrun'
  obtain ⟨ahead, hahead⟩ := isPrefix_of_map_fst_snd
    (by rw [hentries, hentries']; exact hpre) hkeys
  refine ⟨ahead, ?_, ?_⟩
  · have happlied : s'.applied = s.applied ++ ahead.map Prod.fst := by
      rw [ServerState.applied, ServerState.applied, ← hentries', ← hahead, List.map_append,
        hentries]
    rw [happlied, List.drop_left]
  · have hstore' := Replica.run_store hrun'
    rw [← hahead, List.foldlM_append, Replica.run_store hrun] at hstore'
    exact hstore'

end Deployment

/-! ### A run -/

namespace LoopRuns

open Runs

/-- A call on the node of a server. -/
def nodeCall (server : NodeId) (call : Call) : DeploymentEvent :=
  ⟨server, .call ⟨call, none⟩⟩

/-- Server 1 is elected, commits its no-op and then a put with server 2. Server 2 has heard of the
first commit only; both apply what they have committed. -/
def putOnTwo : List DeploymentEvent :=
  [nodeCall 1 .startElection, nodeCall 2 (.voteRequest ⟨1, 1, 0, 0, false⟩),
    nodeCall 1 (.voteResponse 2 ⟨1, true⟩ false), nodeCall 1 .createAppendRequests,
    nodeCall 2 (.appendEntries ⟨1, 1, 0, 0, [⟨1, 1, [], .noop⟩], 0⟩),
    nodeCall 1 (.appendResponse 2 ⟨1, true, 1⟩), nodeCall 1 (.propose putA.encode),
    nodeCall 1 .createAppendRequests,
    nodeCall 2 (.appendEntries ⟨1, 1, 1, 1, [⟨2, 1, putA.encode, .normal⟩], 1⟩),
    nodeCall 1 (.appendResponse 2 ⟨1, true, 2⟩), ⟨2, .take⟩, ⟨2, next none⟩, ⟨2, next none⟩,
    ⟨1, .take⟩, ⟨1, next none⟩, ⟨1, next none⟩, ⟨1, next none⟩, ⟨1, next none⟩]

def emptyReplica : Replica (Std.TreeMap Bytes Bytes) where
  store := .new ∅
  leases := .new

end LoopRuns

section

open Runs LoopRuns

/-- Server 2 has applied the no-op, server 1 also the put. -/
theorem Deployment.replicated_putOnTwo :
    let d := run (Deployment.step .three) (Deployment.init .three emptyReplica) putOnTwo
    (d.servers 2).applied.length = 1 ∧ (d.servers 1).applied.length = 2 ∧
      (d.servers 2).applied <+: (d.servers 1).applied ∧
      ∃ ahead : List (LogEntry × List Bytes),
        ahead.map Prod.fst = (d.servers 1).applied.drop 1 ∧
          ahead.foldlM storeStep (d.servers 2).replica.store = .ok (d.servers 1).replica.store := by
  have horderly : Along (Deployment.step .three) Deployment.Orderly
      (Deployment.init .three emptyReplica) putOnTwo := by decide +kernel
  obtain ⟨hp, hstore⟩ := Deployment.replicated .three emptyReplica putOnTwo horderly 2 1
    (by decide +kernel) (by decide +kernel)
  have hlen : ((run (Deployment.step .three) (Deployment.init .three emptyReplica)
      putOnTwo).servers 2).applied.length = 1 := by decide +kernel
  rw [hlen] at hstore
  exact ⟨hlen, by decide +kernel, hp, hstore (by decide +kernel)⟩

end

end Raftrust.Server

import Raftrust.Server.KvService

/-!
# Reads through the service

Whatever the servers do, a request is answered after a bounded number of calls. A read that the
service has let through sees everything that any server had committed when the read was registered,
if the leader had committed an entry of its own term, the acknowledgements counted for the read are
fresh, and the loop of the server has no command pending: the read waits for the index that the node
counts as applied, and the node counts entries when they are handed out.
-/

namespace Raftrust.Server

open Lib Consensus Mvcc Storage

/-! ### Every request is answered -/

/-- How many calls the wait still makes at most. -/
def ReadWait.remaining : ReadWait → ℕ
  | checkLeader => 2 * maxPolls + maxApplyPolls + 6
  | askLeader => 1
  | request => 2 * maxPolls + maxApplyPolls + 5
  | checkConfirmed _ _ => 2 * maxPolls + maxApplyPolls + 4
  | poll _ _ attempts => 2 * (maxPolls - attempts) + maxApplyPolls + 3
  | checkRole _ _ attempts => 2 * (maxPolls - attempts) + maxApplyPolls + 4
  | giveUp _ => 1
  | take _ _ => maxApplyPolls + 2
  | waitForApplied _ attempts => maxApplyPolls - attempts + 1

lemma ReadWait.remaining_pos (w : ReadWait) : 0 < w.remaining := by
  cases w <;> exact Nat.succ_pos _

lemma ReadWait.remaining_next (n : RaftNode) {w w' : ReadWait} (h : w.next n = .inl w') :
    w'.remaining < w.remaining := by
  cases w with
  | checkLeader =>
    simp only [next] at h
    split_ifs at h <;> cases h <;> simp only [remaining] <;> omega
  | askLeader => cases h
  | request =>
    simp only [next] at h
    split at h
    · cases h
      simp only [remaining]
      omega
    · cases h
  | checkConfirmed id readIndex =>
    simp only [next] at h
    split_ifs at h <;> cases h <;> simp only [remaining] <;> omega
  | poll id readIndex attempts =>
    simp only [next] at h
    split_ifs at h <;> cases h <;> simp only [remaining] <;> omega
  | checkRole id readIndex attempts =>
    simp only [next] at h
    split_ifs at h
    cases h
    simp only [remaining]
    omega
  | giveUp id => cases h
  | take id readIndex =>
    cases h
    simp only [remaining]
    omega
  | waitForApplied readIndex attempts =>
    simp only [next] at h
    split_ifs at h
    cases h
    simp only [remaining]
    omega

namespace KvTask

/-- How many calls the task still makes at most. -/
def remaining : KvTask → ℕ
  | checking _ => 2
  | refusing => 1
  | waiting _ wait => wait.remaining + 1
  | reading _ => 1
  | proposing _ => 1
  | done _ => 0
  | panicked => 0

/-- The most calls a request makes. -/
def maxCalls : ℕ :=
  2 * ReadWait.maxPolls + ReadWait.maxApplyPolls + 7

lemma remaining_start (request : KvRequest) : (start true request).remaining ≤ maxCalls := by
  rcases request with ⟨key, _ | _⟩ | _ | _ | _ | _ <;> exact Nat.le_of_ble_eq_true rfl

/-- A task without calls left has ended. -/
lemma ended_of_remaining {task : KvTask} (h : task.remaining = 0) :
    (∃ result, task = done result) ∨ task = panicked := by
  cases task with
  | done result => exact .inl ⟨result, rfl⟩
  | panicked => exact .inr rfl
  | _ => cases h

section

variable {σ : Type} [StorageEngine σ]

lemma remaining_read (store : MvccStore σ) (fault : Option EngineFault) (request : KvRequest) :
    (read store fault request).remaining = 0 := by
  cases request with
  | get key linearizable =>
    simp only [read]
    split <;> rfl
  | range startKey endKey limit =>
    simp only [read]
    split
    · rfl
    · split <;> rfl
  | _ => rfl

variable [CommandJson] [Crc32]

lemma remaining_next (s : ServerState σ) (fault : Option EngineFault)
    (walFault : Option WalFault) (task : KvTask) :
    (task.next s fault walFault).remaining ≤ task.remaining - 1 := by
  cases task with
  | checking request =>
    simp only [next]
    split_ifs
    · exact le_rfl
    · split <;> exact le_rfl
  | refusing => exact le_rfl
  | waiting request wait =>
    simp only [next]
    split
    · next wait' hnext => exact ReadWait.remaining_next _ hnext
    · exact wait.remaining_pos
    · exact Nat.zero_le _
  | reading request => exact (remaining_read _ _ _).le
  | proposing request =>
    simp only [next]
    split
    · split <;> exact le_rfl
    · exact le_rfl
  | done result => exact le_rfl
  | panicked => exact le_rfl

end

end KvTask

def ServingEvent.isTask : ServingEvent → Bool
  | .task _ _ => true
  | .other _ => false

namespace Serving

variable {σ : Type} [CommandJson] [StorageEngine σ] [Crc32] [ConfigJson]

/-- **Requests end.** Whatever the servers and the network do in between, a request has been
answered, or its task has panicked, after `maxCalls` calls of its own. -/
theorem answered_within (T : Topology) (k : NodeId) (initial : Replica σ) (request : KvRequest)
    (es : List ServingEvent) (h : KvTask.maxCalls ≤ (es.filter ServingEvent.isTask).length) :
    (∃ result, (run (step T k) (init T initial request) es).task = .done result) ∨
      (run (step T k) (init T initial request) es).task = .panicked := by
  have hrun : ∀ es, (run (step T k) (init T initial request) es).task.remaining ≤
      KvTask.maxCalls - (es.filter ServingEvent.isTask).length := by
    intro es
    induction es using List.reverseRecOn with
    | nil => exact KvTask.remaining_start request
    | append_singleton es e ih =>
      rw [run_snoc, List.filter_append]
      cases e with
      | other e => simpa [step, ServingEvent.isTask] using ih
      | task fault walFault =>
        refine (KvTask.remaining_next _ fault walFault _).trans ?_
        have hone : [ServingEvent.task fault walFault].filter ServingEvent.isTask =
          [.task fault walFault] := rfl
        rw [hone, List.length_append, List.length_singleton]
        omega
  exact KvTask.ended_of_remaining (by have := hrun es; omega)

end Serving

/-! ### What a read that is let through has seen -/

/-- What a read knows after it has registered as `id` with the index `index`. -/
def KvTask.Knows (id : ℕ) (index : LogIndex) (confirmed applied : Prop) : KvTask → Prop
  | .waiting _ (.checkConfirmed i j) => i = id ∧ j = index
  | .waiting _ (.poll i j _) => i = id ∧ j = index
  | .waiting _ (.checkRole i j _) => i = id ∧ j = index
  | .waiting _ (.giveUp _) => True
  | .waiting _ (.take _ j) => j = index ∧ confirmed
  | .waiting _ (.waitForApplied j _) => j = index ∧ confirmed
  | .reading _ => confirmed ∧ applied
  | .done _ => True
  | .panicked => True
  | _ => False

section

variable {σ : Type} [StorageEngine σ] [CommandJson] [Crc32]

omit [StorageEngine σ] [CommandJson] [Crc32] in
lemma KvTask.Knows.mono {id : ℕ} {index : LogIndex} {C A C' A' : Prop} {task : KvTask}
    (h : task.Knows id index C A) (hC : C → C') (hA : A → A') : task.Knows id index C' A' := by
  rcases task with _ | _ | ⟨_, _ | _⟩ | _ | _ | _ | _ <;> simp_all [Knows]

/-- The next call of the task adds what it looks at. -/
lemma KvTask.Knows.next {id : ℕ} {index : LogIndex} {C A C' A' : Prop} {task : KvTask}
    (h : task.Knows id index C A) (s : ServerState σ) (fault : Option EngineFault)
    (walFault : Option WalFault) (hC : C → C')
    (hconfirmed : s.app.node.isReadIndexConfirmed id = true → C')
    (happlied : index ≤ s.app.node.state.lastApplied → A') :
    (task.next s fault walFault).Knows id index C' A' := by
  cases task with
  | waiting request wait =>
    simp only [KvTask.next]
    cases wait with
    | checkConfirmed i j =>
      obtain ⟨rfl, rfl⟩ := h
      simp only [ReadWait.next]
      split_ifs with hc
      · exact ⟨rfl, hconfirmed hc⟩
      · exact ⟨rfl, rfl⟩
    | poll i j attempts =>
      obtain ⟨rfl, rfl⟩ := h
      simp only [ReadWait.next]
      split_ifs with hc
      · exact ⟨rfl, hconfirmed hc⟩
      · trivial
      · exact ⟨rfl, rfl⟩
    | checkRole i j attempts =>
      simp only [ReadWait.next]
      split_ifs
      · trivial
      · exact h
    | giveUp i => trivial
    | take i j => exact ⟨h.1, hC h.2⟩
    | waitForApplied j attempts =>
      obtain ⟨rfl, hconf⟩ := h
      simp only [ReadWait.next]
      split_ifs with hlt
      · trivial
      · exact ⟨rfl, hC hconf⟩
      · exact ⟨hC hconf, happlied (not_lt.mp hlt)⟩
    | _ => exact h.elim
  | reading request =>
    simp only [KvTask.next]
    rcases ended_of_remaining (remaining_read s.replica.store fault request) with
      ⟨result, heq⟩ | heq
    · rw [heq]
      trivial
    · rw [heq]
      trivial
  | done result => trivial
  | panicked => trivial
  | _ => exact h.elim

end

namespace Serving

variable {σ : Type} [CommandJson] [StorageEngine σ] [Crc32] [ConfigJson]

/-- The calls to the consensus nodes in a run. -/
def calls (T : Topology) (k : NodeId) (initial : Replica σ) (request : KvRequest)
    (es : List ServingEvent) : List Consensus.Event :=
  Deployment.calls T initial (labels (step T k) (deploymentEvent? k) (init T initial request) es)

/-- The deployment goes through an orderly run. -/
def Orderly (k : NodeId) (s : Serving σ) (e : ServingEvent) : Prop :=
  ∀ ev ∈ s.deploymentEvent? k e, s.deployment.Orderly ev
  deriving Decidable

section

variable {T : Topology} {k : NodeId} {initial : Replica σ} {request : KvRequest}
  {es es' : List ServingEvent}

lemma deployment_run : (run (step T k) (init T initial request) es).deployment =
    run (Deployment.step T) (.init T initial)
      (labels (step T k) (deploymentEvent? k) (init T initial request) es) :=
  proj_run (fun _ _ => rfl) _ es

lemma orderly_deployment (h : Along (step T k) (Orderly k) (init T initial request) es) :
    Along (Deployment.step T) Deployment.Orderly (.init T initial)
      (labels (step T k) (deploymentEvent? k) (init T initial request) es) :=
  @Along.labels _ _ _ _ _ _ _ Serving.deployment _ (fun _ _ => rfl) _ _ h

lemma calls_isPrefix (hp : es' <+: es) :
    calls T k initial request es' <+: calls T k initial request es :=
  Deployment.calls_isPrefix (labels_isPrefix _ _ _ hp)

lemma node_eq (n : NodeId) :
    ((run (step T k) (init T initial request) es).deployment.servers n).app.node =
      (Cluster.after T (calls T k initial request es)).nodes n := by
  rw [deployment_run]
  exact Deployment.node_eq n

/-- The call that registers a read. -/
lemma calls_register {fault : Option EngineFault} {walFault : Option WalFault}
    (htask : (run (step T k) (init T initial request) es).task = .waiting request .request) :
    calls T k initial request (es ++ [.task fault walFault]) =
      calls T k initial request es ++ [⟨k, .requestReadIndex, none⟩] := by
  have hevent : deploymentEvent? k (run (step T k) (init T initial request) es)
      (.task fault walFault) = some ⟨k, .call ⟨.requestReadIndex, none⟩⟩ := by
    simp [deploymentEvent?, htask, KvTask.nodeEvent?, ReadWait.call]
  rw [calls, labels_snoc, hevent, Option.toList_some, Deployment.calls, labels_snoc]
  rfl

/-- Node `k` has had the property at some moment of `es₁`, which follows `es₀`. -/
def Once (T : Topology) (k : NodeId) (initial : Replica σ) (request : KvRequest)
    (es₀ es₁ : List ServingEvent) (P : RaftNode → Prop) : Prop :=
  ∃ es', es' <+: es₁ ∧
    P ((run (step T k) (init T initial request) (es₀ ++ es')).deployment.servers k).app.node

lemma Once.snoc {es₀ es₁ : List ServingEvent} {P : RaftNode → Prop}
    (h : Once T k initial request es₀ es₁ P) (e : ServingEvent) :
    Once T k initial request es₀ (es₁ ++ [e]) P := by
  obtain ⟨es', hp, hP⟩ := h
  exact ⟨es', hp.trans (List.prefix_append _ _), hP⟩

/-- From its registration on, a read is let through only when it was confirmed and its index was
counted as applied. -/
lemma knows {es₀ : List ServingEvent} {fault : Option EngineFault} {walFault : Option WalFault}
    (htask : (run (step T k) (init T initial request) es₀).task = .waiting request .request)
    {id : ℕ} {index : LogIndex}
    (hreg : ((run (step T k) (init T initial request) es₀).deployment.servers
      k).app.node.requestReadIndex.2 = .ok (id, index)) (es₁ : List ServingEvent) :
    (run (step T k) (init T initial request) (es₀ ++ .task fault walFault :: es₁)).task.Knows id
      index
      (Once T k initial request (es₀ ++ [.task fault walFault]) es₁
        fun n => n.isReadIndexConfirmed id = true)
      (Once T k initial request (es₀ ++ [.task fault walFault]) es₁
        fun n => index ≤ n.state.lastApplied) := by
  induction es₁ using List.reverseRecOn with
  | nil =>
    rw [run_snoc]
    simp only [step, htask, KvTask.next, ReadWait.next, hreg]
    exact ⟨rfl, rfl⟩
  | append_singleton es₁ e ih =>
    have hsplit : es₀ ++ .task fault walFault :: es₁ = (es₀ ++ [.task fault walFault]) ++ es₁ := by
      simp
    rw [show es₀ ++ .task fault walFault :: (es₁ ++ [e]) =
      (es₀ ++ .task fault walFault :: es₁) ++ [e] by simp, run_snoc]
    cases e with
    | other e => exact ih.mono (fun hC => hC.snoc _) (fun hA => hA.snoc _)
    | task fault' walFault' =>
      refine ih.next _ fault' walFault' (fun hC => hC.snoc _) (fun hc => ?_) (fun ha => ?_)
      · exact Once.snoc ⟨es₁, List.prefix_rfl, by rw [← hsplit]; exact hc⟩ _
      · exact Once.snoc ⟨es₁, List.prefix_rfl, by rw [← hsplit]; exact ha⟩ _

omit [CommandJson] [StorageEngine σ] [Crc32] [ConfigJson] in
/-- The moments after a read was registered. -/
lemma registered_isPrefix (es₀ : List ServingEvent) (e : ServingEvent)
    {es₁ es₂ : List ServingEvent} (hp : es₂ <+: es₁) : (es₀ ++ [e]) ++ es₂ <+: es₀ ++ e :: es₁ := by
  obtain ⟨rest, rfl⟩ := hp
  exact ⟨rest, by simp⟩

/-- A read that has been confirmed covers what any server had committed when it was registered. -/
lemma commitIndex_le_index {es₀ es₁ : List ServingEvent} {fault : Option EngineFault}
    {walFault : Option WalFault} (hk : k ∈ T.members)
    (h : Along (step T k) (Orderly k) (init T initial request)
      (es₀ ++ .task fault walFault :: es₁))
    (htask : (run (step T k) (init T initial request) es₀).task = .waiting request .request)
    {id : ℕ} {index : LogIndex}
    (hreg : ((run (step T k) (init T initial request) es₀).deployment.servers
      k).app.node.requestReadIndex.2 = .ok (id, index))
    (hown : ((run (step T k) (init T initial request) es₀).deployment.servers
      k).app.node.CommittedOwnTerm)
    {later : List Consensus.Event}
    (hcalls : calls T k initial request (es₀ ++ .task fault walFault :: es₁) =
      calls T k initial request es₀ ++ ⟨k, .requestReadIndex, none⟩ :: later)
    (hfresh : Cluster.FreshAcks T (calls T k initial request es₀) ⟨k, .requestReadIndex, none⟩
      later id)
    (hconfirmed : Once T k initial request (es₀ ++ [.task fault walFault]) es₁
      fun n => n.isReadIndexConfirmed id = true) (m : NodeId) :
    ((run (step T k) (init T initial request) es₀).deployment.servers
      m).app.node.state.commitIndex ≤ index := by
  obtain ⟨es₂, hp₂, hconfirmed⟩ := hconfirmed
  have horderly := Deployment.orderly_calls (orderly_deployment h)
  obtain ⟨later₂, hlater₂⟩ : ∃ later₂, calls T k initial request
      ((es₀ ++ [.task fault walFault]) ++ es₂) =
        calls T k initial request es₀ ++ ⟨k, .requestReadIndex, none⟩ :: later₂ := by
    obtain ⟨rest, hrest⟩ := @calls_isPrefix σ _ _ _ _ T k initial request _ _
      (List.prefix_append (es₀ ++ [.task fault walFault]) es₂)
    exact ⟨rest, by rw [← hrest, calls_register htask]; simp⟩
  have hp := @calls_isPrefix σ _ _ _ _ T k initial request _ _
    (registered_isPrefix es₀ (.task fault walFault) hp₂)
  rw [hlater₂, hcalls, List.prefix_append_right_inj, List.cons_prefix_cons] at hp
  rw [node_eq, hlater₂] at hconfirmed
  rw [node_eq] at hreg hown ⊢
  exact Cluster.commitIndex_le_of_confirmed
    (horderly.of_isPrefix _ (calls_isPrefix (List.prefix_append _ _))) hk rfl hreg hown hfresh hp.2
    hconfirmed m

end

/-- The entries that carry a command. -/
def commandEntries (entries : List LogEntry) : List LogEntry :=
  entries.filter fun entry => (command? entry).isSome

/-- **Linearizable reads.** In an orderly run let server `k` register a read while its node, the
leader, has committed an entry of its own term, and let the acknowledgements that are counted for
the read be fresh. When the read is let through and the server's loop has no command pending, the
read is answered from a replica that has applied every command that any server had committed when
the read was registered, as its first commands and in order. -/
theorem read_covers_committed (T : Topology) (initial : Replica σ) {k : NodeId}
    (hk : k ∈ T.members) (request : KvRequest) (es₀ es₁ : List ServingEvent)
    (fault : Option EngineFault) (walFault : Option WalFault)
    (h : Along (step T k) (Orderly k) (init T initial request)
      (es₀ ++ .task fault walFault :: es₁))
    (htask : (run (step T k) (init T initial request) es₀).task = .waiting request .request)
    {id : ℕ} {index : LogIndex}
    (hreg : ((run (step T k) (init T initial request) es₀).deployment.servers
      k).app.node.requestReadIndex.2 = .ok (id, index))
    (hown : ((run (step T k) (init T initial request) es₀).deployment.servers
      k).app.node.CommittedOwnTerm)
    {later : List Consensus.Event}
    (hcalls : calls T k initial request (es₀ ++ .task fault walFault :: es₁) =
      calls T k initial request es₀ ++ ⟨k, .requestReadIndex, none⟩ :: later)
    (hfresh : Cluster.FreshAcks T (calls T k initial request es₀) ⟨k, .requestReadIndex, none⟩
      later id) :
    let s₀ := run (step T k) (init T initial request) es₀
    let s := run (step T k) (init T initial request) (es₀ ++ .task fault walFault :: es₁)
    s.task = .reading request →
      (∀ entry ∈ (s.deployment.servers k).loop.pending, Server.command? entry = none) →
      ∃ r trace, initial.run trace = .ok r ∧
        (∀ m, commandEntries (s₀.deployment.servers m).app.committed <+:
          commandEntries (trace.filterMap ReplicaEvent.entry?)) ∧
        (s.step T k (.task none none)).task = .read r.store none request := by
  intro s₀ s hreading hpending
  have hpre₀ : es₀ <+: es₀ ++ .task fault walFault :: es₁ := List.prefix_append _ _
  have hdeployment := orderly_deployment h
  have hknows := @knows σ _ _ _ _ T k initial request es₀ fault walFault htask id index hreg es₁
  rw [show (run (step T k) (init T initial request)
    (es₀ ++ .task fault walFault :: es₁)).task = .reading request from hreading] at hknows
  obtain ⟨hconfirmed, es₃, hp₃, happlied⟩ := hknows
  have hcovers := commitIndex_le_index hk h htask hreg hown hcalls hfresh hconfirmed
  have happlied : index ≤ (s.deployment.servers k).app.node.state.lastApplied := by
    rw [node_eq] at happlied ⊢
    exact happlied.trans (Cluster.lastApplied_le (Deployment.orderly_calls hdeployment)
      (calls_isPrefix (registered_isPrefix es₀ (.task fault walFault) hp₃)) k)
  -- what had been committed anywhere is the beginning of what this server has been handed out
  have hsync : (s.deployment.servers k).InSync initial := by
    rw [show s.deployment = _ from deployment_run]
    exact Deployment.inSync hdeployment k
  obtain ⟨heffects, hrun⟩ := hsync.effectsApplied_iff.mpr hpending
  refine ⟨_, _, hrun, fun m => ?_, by simp only [step, show s.task = _ from hreading]; rfl⟩
  have hlen : (s₀.deployment.servers m).app.committed.length =
      (s₀.deployment.servers m).app.node.state.commitIndex := by
    rw [show s₀.deployment = _ from deployment_run]
    exact (Deployment.inSync (hdeployment.of_isPrefix _ (labels_isPrefix _ _ _ hpre₀))
      m).exact.length_committed
  have hcommitted : (s₀.deployment.servers m).app.committed <+:
      (s.deployment.servers k).app.committed := by
    have hle := (hcovers m).trans (happlied.trans hsync.exact.applied_le)
    rw [show s₀.deployment = _ from deployment_run,
      show s.deployment = _ from deployment_run] at hle ⊢
    exact Deployment.committed_isPrefix hdeployment (labels_isPrefix _ _ _ hpre₀)
      List.prefix_rfl hle
  rw [commandEntries, commandEntries, heffects]
  refine List.IsPrefix.filter _ (List.prefix_take_iff.mpr ⟨hcommitted, ?_⟩)
  rw [hlen]
  exact (hcovers m).trans happlied

end Serving

/-! ### A run -/

namespace LoopRuns

open Runs

/-- After the put on two servers a client reads the key, and the service finds itself leading. -/
def beforeRead : List ServingEvent :=
  putOnTwo.map .other ++ [.task none none]

/-- The read is not confirmed at once; server 2 acknowledges a heartbeat, and the read goes on. -/
def confirmRead : List ServingEvent :=
  [.task none none, .other (nodeCall 1 .createAppendRequests),
    .other (nodeCall 2 (.appendEntries ⟨1, 1, 2, 1, [], 2⟩)),
    .other (nodeCall 1 (.readIndexAck 2)), .task none none, .task none none, .task none none]

/-- The calls to the consensus nodes after the read was registered. -/
def confirmCalls : List Consensus.Event :=
  [⟨1, .createAppendRequests, none⟩, ⟨2, .appendEntries ⟨1, 1, 2, 1, [], 2⟩, none⟩,
    ⟨1, .readIndexAck 2, none⟩, ⟨1, .takeReadIndex 1, none⟩]

deriving instance DecidableEq for Consensus.Event

lemma confirm_fresh :
    Cluster.FreshAcks .three (Serving.calls .three 1 emptyReplica (.get [97] true) beforeRead)
      ⟨1, .requestReadIndex, none⟩ confirmCalls 1 := by
  intro es₂ a p hp hnode hcall _
  -- only the third of the four calls is an acknowledgement
  obtain ⟨rfl, rfl⟩ : es₂ = confirmCalls.take 2 ∧ p = 2 := by
    rcases es₂ with _ | ⟨x, _ | ⟨y, _ | ⟨z, _ | ⟨w, rest⟩⟩⟩⟩
    · obtain rfl : a = ⟨1, .createAppendRequests, none⟩ := by simpa [confirmCalls] using hp
      cases hcall
    · obtain ⟨-, rfl⟩ : _ ∧ a = ⟨2, .appendEntries ⟨1, 1, 2, 1, [], 2⟩, none⟩ := by
        simpa [confirmCalls] using hp
      cases hcall
    · obtain ⟨rfl, rfl, rfl⟩ : x = _ ∧ y = _ ∧ a = ⟨1, .readIndexAck 2, none⟩ := by
        simpa [confirmCalls] using hp
      exact ⟨rfl, (Call.readIndexAck.inj hcall).symm⟩
    · obtain ⟨-, -, -, rfl⟩ : _ ∧ _ ∧ _ ∧ a = ⟨1, .takeReadIndex 1, none⟩ := by
        simpa [confirmCalls] using hp
      cases hcall
    · simp [confirmCalls] at hp
  exact ⟨[⟨1, .createAppendRequests, none⟩], _, ⟨1, 1, 2, 1, [], 2⟩, List.prefix_rfl, rfl, rfl,
    by decide +kernel, by decide +kernel, by decide +kernel⟩

end LoopRuns

section

open Runs LoopRuns

/-- The read of the key is answered with the value that was put, from a replica that has applied
the put. -/
theorem Serving.read_covers_committed_put :
    let s₀ := run (Serving.step .three 1) (Serving.init .three emptyReplica (.get [97] true))
      beforeRead
    let s := run (Serving.step .three 1) (Serving.init .three emptyReplica (.get [97] true))
      (beforeRead ++ .task none none :: confirmRead)
    s.task = .reading (.get [97] true) ∧
      ∃ r trace, emptyReplica.run trace = .ok r ∧
        (∀ m, commandEntries (s₀.deployment.servers m).app.committed <+:
          commandEntries (trace.filterMap ReplicaEvent.entry?)) ∧
        (s.step .three 1 (.task none none)).task = .read r.store none (.get [97] true) := by
  have hreading : (run (Serving.step .three 1)
      (Serving.init .three emptyReplica (.get [97] true))
      (beforeRead ++ .task none none :: confirmRead)).task = .reading (.get [97] true) := by
    decide +kernel
  have hreg : ((run (Serving.step .three 1)
      (Serving.init .three emptyReplica (.get [97] true)) beforeRead).deployment.servers
      1).app.node.requestReadIndex.2 = .ok (1, 2) := by decide +kernel
  refine ⟨hreading, ?_⟩
  exact Serving.read_covers_committed .three emptyReplica (by decide) (.get [97] true) beforeRead
    confirmRead none none (by decide +kernel) (by decide +kernel) hreg (by decide +kernel)
    (by decide +kernel) confirm_fresh hreading (by decide +kernel)

/-- A read that the leader has registered and nobody confirms does not wait for ever. -/
theorem Serving.answered_within_unconfirmed :
    let es := beforeRead ++ List.replicate 507 (.task none none)
    KvTask.maxCalls ≤ (es.filter ServingEvent.isTask).length ∧
      let s := run (Serving.step .three 1) (Serving.init .three emptyReplica (.get [97] true)) es
      (∃ result, s.task = .done result) ∨ s.task = .panicked := by
  have hcalls : KvTask.maxCalls ≤ ((beforeRead ++ List.replicate 507
      (ServingEvent.task none none)).filter ServingEvent.isTask).length := by decide +kernel
  exact ⟨hcalls, Serving.answered_within .three 1 emptyReplica (.get [97] true) _ hcalls⟩

end

end Raftrust.Server

import Raftrust.Consensus.Reads
import Raftrust.Consensus.Rejoin
import Raftrust.Consensus.Restart

/-!
# Clusters of hosts that crash

Every node of a cluster runs on a host of its own, and hosts crash and start again at any moment,
also in the middle of a call. Elections rest on the state file alone and are safe whatever a crash
does to the log file. Committed entries are safe as long as a node that starts again finds the log
it had, or the one that the call it crashed in was about to leave.
-/

namespace Raftrust.Consensus

open Lib Storage Function

/-! ### What a host brings back -/

/-- A node that has just started, with whatever term, vote and log it found. -/
structure RaftNode.Fresh (config : NodeConfig) (n : RaftNode) : Prop where
  config : n.config = config
  role : n.state.role = .follower
  snapshotIndex : n.log.snapshotIndex = 0
  snapshotTerm : n.log.snapshotTerm = 0
  commitIndex : n.state.commitIndex = 0
  membership : n.FixedMembership

lemma RaftNode.Fresh.rejoins {config : NodeConfig} {n n' : RaftNode} (h : n'.Fresh config)
    (hconfig : n.config = config) (hadv : n.state.persistent.Advances n'.state.persistent) :
    n.Rejoins n' where
  config := h.config.trans hconfig.symm
  role := h.role
  persistent := hadv

lemma RaftNode.Fresh.recovers {config : NodeConfig} {n n' : RaftNode} (h : n'.Fresh config)
    (hconfig : n.config = config) (hadv : n.state.persistent.Advances n'.state.persistent)
    (hentries : n'.log.entries = n.log.entries) : n.Recovers n' where
  toRejoins := h.rejoins hconfig hadv
  entries := hentries
  snapshotIndex := h.snapshotIndex
  snapshotTerm := h.snapshotTerm
  commitIndex := h.commitIndex
  membership := h.membership

namespace Host

variable [Crc32]

lemma new_fresh {config : NodeConfig} {saves : List PersistentState} {wal : Bytes} {n : RaftNode}
    (h : RaftNode.new config saves wal = .ok n) : n.Fresh config := by
  unfold RaftNode.new at h
  unfold RaftLog.openFile at h
  cases hread : WalReader.readAll wal with
  | error a => simp [hread, bind, Except.bind, Except.mapError] at h
  | ok records =>
    cases hdecode : records.mapM (fun record => RaftLog.decodeEntry record.data) with
    | error a => simp [hread, hdecode, bind, Except.bind, Except.mapError] at h
    | ok entries =>
      simp only [hread, hdecode, bind, Except.bind, Except.mapError, pure, Except.pure,
        Except.ok.injEq] at h
      subst h
      exact ⟨rfl, rfl, rfl, rfl, rfl, rfl, rfl⟩

/-- The node that runs, or the one that would start now. A log file that cannot be read leaves the
host down; then only term and vote count. -/
def image (config : NodeConfig) (h : Host) : RaftNode :=
  match h.node with
  | some n => n
  | none =>
    match RaftNode.new config h.saves h.wal with
    | .ok n => n
    | .error _ =>
      let fresh := Cluster.freshNode config
      { fresh with state := { fresh.state with persistent := PersistentState.load h.saves } }

variable {config : NodeConfig} {h : Host}

lemma image_of_some {n : RaftNode} (hn : h.node = some n) : h.image config = n := by
  rw [image, hn]

lemma image_fresh (hdown : h.node = none) : (h.image config).Fresh config := by
  rw [image, hdown]
  dsimp only
  split
  · next n hnew => exact new_fresh hnew
  · exact ⟨rfl, rfl, rfl, rfl, rfl, rfl, rfl⟩

lemma image_persistent : (h.image config).state.persistent = h.persistent := by
  cases hn : h.node with
  | some n => rw [image_of_some hn, persistent_some hn]
  | none =>
    simp only [image, persistent, hn]
    split
    · next n hnew => exact (new_eq hnew).1
    · rfl

variable [ConfigJson]

/-- What the host sends. A call that is cut off sends nothing. -/
def sent (h : Host) : HostEvent → List Packet
  | .call call fault =>
    match h.node with
    | none => []
    | some n => (n.execute fault call).2
  | _ => []

/-- An event runs a call on a node that is up, does nothing, or the node starts from its files. -/
lemma image_step_cases (config : NodeConfig) (h : Host) (e : HostEvent) :
    (∃ n call fault, h.node = some n ∧ e = .call call fault ∧
        (h.step config e).node = some (n.execute fault call).1) ∨
      (h.sent e = [] ∧
        (h.step config e = h ∨ ((∀ call fault, e ≠ .call call fault) ∧
          ((h.step config e).image config).Fresh config))) := by
  cases e with
  | call call fault =>
    cases hn : h.node with
    | none => exact .inr ⟨by simp [sent, hn], .inl (by simp [Host.step, hn])⟩
    | some n => exact .inl ⟨n, call, fault, rfl, rfl, by simp [Host.step, hn]⟩
  | crash wal => exact .inr ⟨rfl, .inr ⟨by simp, image_fresh rfl⟩⟩
  -- what a crash cuts short sends nothing
  | crashDuring call fault made wal =>
    refine .inr ⟨rfl, ?_⟩
    cases hn : h.node with
    | none => exact .inl (by simp [Host.step, hn])
    | some n => exact .inr ⟨by simp, image_fresh (by simp [Host.step, hn])⟩
  | restart =>
    refine .inr ⟨rfl, .inr ⟨by simp, ?_⟩⟩
    cases hnew : RaftNode.new config h.saves h.wal with
    | error a => exact image_fresh (by simp [Host.step, hnew])
    | ok n =>
      rw [image_of_some (n := n) (by simp [Host.step, hnew])]
      exact new_fresh hnew

end Host

/-- The call that an event begins. -/
def HostEvent.begun : HostEvent → Option Call
  | .call begun _ => some begun
  | .crashDuring begun _ _ _ => some begun
  | _ => none

/-! ### Clusters of hosts -/

structure HostCluster where
  hosts : NodeId → Host
  network : List Packet

/-- An event on one of the hosts. -/
structure HostedEvent where
  node : NodeId
  event : HostEvent

namespace HostCluster

/-- No host has ever been started. -/
def init : HostCluster where
  hosts := fun _ => .init
  network := []

/-- Only members run, and only messages that were sent arrive. -/
def Enabled (T : Topology) (c : HostCluster) (e : HostedEvent) : Prop :=
  e.node ∈ T.members ∧
    ∀ call ∈ e.event.begun, ∀ p ∈ call.packet e.node, p ∈ c.network
  deriving Decidable

/-- What the node on host `k` is configured with. -/
abbrev config (T : Topology) (k : NodeId) : NodeConfig := { id := k, peers := T.peers k }

variable [Crc32]

/-- The nodes that run or would start now. -/
def image (T : Topology) (c : HostCluster) : Cluster where
  nodes := fun k => (c.hosts k).image (config T k)
  network := c.network

variable [ConfigJson]

/-- One event. -/
def step (T : Topology) (c : HostCluster) (e : HostedEvent) : HostCluster :=
  if c.Enabled T e then
    { hosts := update c.hosts e.node ((c.hosts e.node).step (config T e.node) e.event)
      network := c.network ++ (c.hosts e.node).sent e.event }
  else c

/-- Host `n` is up and leads term `t`. -/
def LeadsIn (c : HostCluster) (n : NodeId) (t : Term) : Prop :=
  ∃ node ∈ (c.hosts n).node, node.state.role = .leader ∧ node.term = t
  deriving Decidable

/-- A vote counts only for the election it was given in. -/
def CountsOwnVotes (c : HostCluster) (e : HostedEvent) : Prop :=
  match e.event with
  | .call call _ => ∀ n ∈ (c.hosts e.node).node, n.CountsOwnVotes call
  | _ => True

instance (c : HostCluster) : (e : HostedEvent) → Decidable (c.CountsOwnVotes e)
  | ⟨k, .call _ _⟩ => inferInstanceAs (Decidable (∀ n ∈ (c.hosts k).node, _))
  | ⟨_, .crash _⟩ => .isTrue trivial
  | ⟨_, .crashDuring _ _ _ _⟩ => .isTrue trivial
  | ⟨_, .restart⟩ => .isTrue trivial

/-- Calls are as in `Cluster.Orderly`. After a crash the node finds the log it had; a crash during
an orderly call may also come after everything the call writes. -/
def Orderly (T : Topology) (c : HostCluster) (e : HostedEvent) : Prop :=
  let n := (c.image T).nodes e.node
  let n' := ((c.hosts e.node).step (config T e.node) e.event).image (config T e.node)
  match e.event with
  | .call call fault => (c.image T).Orderly ⟨e.node, call, fault⟩
  | .crashDuring call fault _ _ =>
    n'.log.entries = n.log.entries ∨
      ((c.image T).Orderly ⟨e.node, call, fault⟩ ∧
        n'.log.entries = (n.execute fault call).1.log.entries ∧
        n'.state.persistent = (n.execute fault call).1.state.persistent)
  | _ => n'.log.entries = n.log.entries

instance (T : Topology) (c : HostCluster) : (e : HostedEvent) → Decidable (c.Orderly T e)
  | ⟨k, .call call fault⟩ => inferInstanceAs (Decidable ((c.image T).Orderly ⟨k, call, fault⟩))
  | ⟨_, .crash _⟩ => inferInstanceAs (Decidable (_ = _))
  | ⟨_, .crashDuring _ _ _ _⟩ => inferInstanceAs (Decidable (_ ∨ _))
  | ⟨_, .restart⟩ => inferInstanceAs (Decidable (_ = _))

/-! ### What the hosts know of themselves -/

/-- Every host is faithful to its votes and runs the node it is configured for. -/
structure Faithful (T : Topology) (c : HostCluster) : Prop where
  host : ∀ k, (c.hosts k).Faithful
  config : ∀ k n, (c.hosts k).node = some n → n.config = config T k

variable {T : Topology} {c : HostCluster}

omit [ConfigJson] in
lemma Faithful.image_config (h : Faithful T c) (k : NodeId) :
    ((c.image T).nodes k).config = HostCluster.config T k := by
  cases hn : (c.hosts k).node with
  | some n => exact (congrArg (·.config) (Host.image_of_some hn)).trans (h.config k n hn)
  | none => exact (Host.image_fresh hn).config

lemma Faithful.step (h : Faithful T c) (e : HostedEvent) : Faithful T (c.step T e) := by
  unfold HostCluster.step
  split
  swap
  · exact h
  refine ⟨fun k => ?_, fun k n hn => ?_⟩
  · dsimp only
    rcases eq_or_ne k e.node with rfl | hk
    · rw [update_self]
      exact ((h.host e.node).step _ e.event).1
    · rw [update_of_ne hk]
      exact h.host k
  · dsimp only at hn
    rcases eq_or_ne k e.node with rfl | hk
    · rw [update_self] at hn
      rcases Host.image_step_cases (HostCluster.config T e.node) (c.hosts e.node) e.event with
        ⟨n₀, call, fault, hup, -, heq⟩ | ⟨-, heq | ⟨-, hfresh⟩⟩
      · obtain rfl : (n₀.execute fault call).1 = n := Option.some.inj (heq.symm.trans hn)
        rw [RaftNode.execute_config]
        exact h.config _ n₀ hup
      · rw [heq] at hn
        exact h.config _ n hn
      · rw [← hfresh.config, Host.image_of_some hn]
    · rw [update_of_ne hk] at hn
      exact h.config k n hn

omit [ConfigJson] in
lemma image_update (T : Topology) (c : HostCluster) (k : NodeId) (h : Host) (sent : List Packet) :
    image T { hosts := update c.hosts k h, network := c.network ++ sent } =
      (c.image T).put k (h.image (config T k)) sent := by
  simp only [image, Cluster.put, Cluster.mk.injEq, and_true]
  funext m
  rcases eq_or_ne m k with rfl | hm
  · rw [update_self, update_self]
  · rw [update_of_ne hm, update_of_ne hm]

lemma Faithful.image_step (h : Faithful T c) (e : HostedEvent) :
    let n' := ((c.hosts e.node).step (HostCluster.config T e.node) e.event).image
      (HostCluster.config T e.node)
    (c.step T e).image T = c.image T ∨
      (∃ call fault, e.event = .call call fault ∧
        (c.hosts e.node).node = some ((c.image T).nodes e.node) ∧
        (c.image T).Enabled T ⟨e.node, call, fault⟩ ∧
        (c.step T e).image T = (c.image T).perform e.node fault call) ∨
      (c.Enabled T e ∧ (∀ call fault, e.event ≠ .call call fault) ∧
        n'.Fresh (HostCluster.config T e.node) ∧
        ((c.image T).nodes e.node).state.persistent.Advances n'.state.persistent ∧
        (c.step T e).image T = (c.image T).put e.node n' []) := by
  intro n'
  by_cases henabled : c.Enabled T e
  swap
  · exact .inl (by rw [HostCluster.step, if_neg henabled])
  rw [HostCluster.step, if_pos henabled, image_update]
  -- a call on a node that is up, no change, or a start from the files
  rcases Host.image_step_cases (HostCluster.config T e.node) (c.hosts e.node) e.event with
    ⟨n, call, fault, hup, hevent, heq⟩ | ⟨hsent, heq | ⟨hcall, hfresh⟩⟩
  · right
    left
    have hnode : (c.image T).nodes e.node = n := Host.image_of_some hup
    refine ⟨call, fault, hevent, by rw [hnode, hup], ⟨henabled.1, ?_⟩, ?_⟩
    · exact henabled.2 call (by rw [hevent]; rfl)
    · rw [Host.image_of_some heq, Cluster.perform, hnode, hevent, Host.sent, hup]
  · left
    rw [hsent, heq]
    simp [Cluster.put, image]
  · right
    right
    refine ⟨henabled, hcall, hfresh, ?_, by rw [hsent]⟩
    rw [show ((c.image T).nodes e.node).state.persistent = _ from Host.image_persistent,
      show n'.state.persistent = _ from Host.image_persistent]
    exact ((h.host e.node).step _ e.event).2

/-! ### Elections -/

lemma faithful (T : Topology) (es : List HostedEvent) : Faithful T (run (step T) init es) :=
  run_invariant (step T) (fun es => Faithful T (run (step T) init es))
    ⟨fun _ => .init, by simp [init, Host.init]⟩
    (fun es e _ hes _ => by rw [run_snoc]; exact hes.step e) (along_true (step T) init es)

omit [ConfigJson] in
lemma image_init (T : Topology) : image T init = Cluster.init T := by
  simp [image, init, Host.image, Host.init, Cluster.new_eq_freshNode, Cluster.init]

/-- The record agrees with the state reached, and every node that ever led was elected. -/
def ElectedSoFar (T : Topology) (es : List HostedEvent) : Prop :=
  ∃ voted, Cluster.VotesRecorded T voted ((run (step T) init es).image T) ∧
    ∀ es' n t, es' <+: es → (run (step T) init es').LeadsIn n t → Cluster.Elected T voted n t

lemma electedSoFar (T : Topology) {es : List HostedEvent}
    (h : Along (step T) CountsOwnVotes init es) : ElectedSoFar T es := by
  refine run_invariant (step T) (ElectedSoFar T) ?_ ?_ h
  · refine ⟨_, by rw [run_nil, image_init]; exact .init T, fun es' n t hp hl => ?_⟩
    obtain rfl := List.prefix_nil.mp hp
    obtain ⟨node, hnode, -⟩ := hl
    cases hnode
  · rintro es e - ⟨voted, hrec, hpast⟩ hown
    obtain ⟨voted', hext, hrec'⟩ : ∃ voted' : Cluster.VoteRecord, voted'.Extends voted ∧
        Cluster.VotesRecorded T voted' ((run (step T) init (es ++ [e])).image T) := by
      rw [run_snoc]
      have hf := faithful T es
      rcases hf.image_step e with heq | ⟨call, fault, hevent, hup, henabled, heq⟩ |
        ⟨-, -, hfresh, hadv, heq⟩
      · exact ⟨voted, fun _ _ _ hd => hd, by rwa [heq]⟩
      · rw [heq]
        refine hrec.execute henabled.1 henabled.2 fault ?_ (hf.image_config e.node)
        rw [CountsOwnVotes, hevent] at hown
        exact hown _ hup
      · rw [heq]
        exact ⟨_, hrec.rejoin (hfresh.rejoins (hf.image_config e.node) hadv)⟩
    refine ⟨voted', hrec', fun es' n t hp hl => ?_⟩
    rcases List.prefix_concat_iff.mp hp with rfl | hp
    · obtain ⟨node, hnode, hr, rfl⟩ := hl
      have himage : ((run (step T) init (es ++ [e])).image T).nodes n = node :=
        Host.image_of_some hnode
      rw [← himage] at hr ⊢
      exact hrec'.leader n hr
    · exact (hpast es' n t hp hl).mono hext

/-- **Election safety across crashes.** Hosts may crash at any moment, in the middle of calls, and
come back with any log: two nodes that lead the same term, at whatever moments of the run, are the
same node. -/
theorem leaders_eq_across_crashes (T : Topology) (es : List HostedEvent)
    (h : Along (step T) CountsOwnVotes init es) {es₁ es₂ : List HostedEvent} (h₁ : es₁ <+: es)
    (h₂ : es₂ <+: es) {n m : NodeId} {t : Term} (hn : (run (step T) init es₁).LeadsIn n t)
    (hm : (run (step T) init es₂).LeadsIn m t) : n = m := by
  obtain ⟨voted, -, hpast⟩ := electedSoFar T h
  exact (hpast es₁ n t h₁ hn).unique (hpast es₂ m t h₂ hm)

/-! ### Committed entries -/

/-- One orderly event. -/
lemma sound_step {voted : Cluster.VoteRecord} {A : Ghost} (hf : Faithful T c)
    (h : Cluster.Sound T voted A (c.image T)) {e : HostedEvent} (he : Orderly T c e) :
    ∃ voted' A', A.Grows A' ∧ Cluster.Sound T voted' A' ((c.step T e).image T) := by
  rcases hf.image_step e with heq | ⟨call, fault, hevent, hup, henabled, heq⟩ |
    ⟨henabled, hcall, hfresh, hadv, heq⟩
  · rw [heq]
    exact ⟨voted, A, .refl _, h⟩
  · rw [Orderly, hevent] at he
    obtain rfl : fault = none := he.1.2
    rw [heq]
    exact h.perform henabled he
  rw [heq]
  have hconfig := hf.image_config e.node
  have hkept := fun hentries => h.rejoin (hfresh.recovers hconfig hadv hentries)
  rcases e with ⟨k, call | wal | ⟨call, fault, made, wal⟩ | _⟩
  · exact absurd rfl (hcall _ _)
  · exact hkept he
  · rcases he with he | ⟨he, hentries, hpersistent⟩
    · exact hkept he
    · -- the call, its messages lost, and then the crash
      obtain rfl : fault = none := he.1.2
      obtain ⟨voted₁, A₁, hgrows₁, h₁⟩ := h.perform ⟨henabled.1, henabled.2 call rfl⟩ he
      have hsub : (c.image T).network ⊆ ((c.image T).perform k none call).network :=
        List.subset_append_left _ _
      have hrecovers := hfresh.recovers
        ((RaftNode.execute_config ((c.image T).nodes k) none call).trans hconfig)
        (by rw [hpersistent]; exact .refl _) hentries
      rw [← Cluster.put_nodes_self (c.image T) k (((c.image T).nodes k).execute none call).1
        (((c.image T).nodes k).execute none call).2] at hrecovers
      obtain ⟨voted₂, A₂, hgrows₂, h₂⟩ := (h₁.of_subset hsub).rejoin hrecovers
      refine ⟨voted₂, A₂, hgrows₁.trans hgrows₂, ?_⟩
      simpa [Cluster.put, update_idem] using h₂
  · exact hkept he

/-- The abstract state backs the state reached, and every commit there ever was. -/
def SoundSoFar (T : Topology) (es : List HostedEvent) : Prop :=
  ∃ voted A, Cluster.Sound T voted A ((run (step T) init es).image T) ∧
    ∀ es' n, es' <+: es → let node := ((run (step T) init es').image T).nodes n
      node.log.snapshotIndex = 0 ∧ A.CommittedUpTo LogEntry.term T.members
        node.state.commitIndex node.log.entries node.term

lemma soundSoFar (T : Topology) {es : List HostedEvent}
    (h : Along (step T) (Orderly T) init es) : SoundSoFar T es := by
  refine run_invariant (step T) (SoundSoFar T) ?_ ?_ h
  · refine ⟨_, _, by rw [run_nil, image_init]; exact .init T, fun es' n hp => ?_⟩
    obtain rfl := List.prefix_nil.mp hp
    rw [run_nil, image_init]
    exact ⟨rfl, .inl rfl⟩
  · rintro es e - ⟨voted, A, hsound, hpast⟩ he
    obtain ⟨voted', A', hgrows, hsound'⟩ := sound_step (faithful T es) hsound he
    rw [← run_snoc (step T)] at hsound'
    refine ⟨voted', A', hsound', fun es' n hp => ?_⟩
    rcases List.prefix_concat_iff.mp hp with rfl | hp
    · have hcommitted := hsound'.commits.committed n
      rw [hsound'.simulated.log n] at hcommitted
      exact ⟨hsound'.simulated.base n, hcommitted⟩
    · obtain ⟨hbase, hcommitted⟩ := hpast es' n hp
      exact ⟨hbase, hcommitted.mono hgrows le_rfl (List.take_prefix _ _)⟩

/-- **Commits survive crashes.** What a node has committed at some moment, a node that has committed
that index at any other moment holds too, whoever crashed and came back with its log in between. A
node that comes back has committed nothing and may forget that it ever did; the others then hold it
to the same entries. -/
theorem committed_eq_across_crashes (T : Topology) (es : List HostedEvent)
    (h : Along (step T) (Orderly T) init es) {es₁ es₂ : List HostedEvent} (h₁ : es₁ <+: es)
    (h₂ : es₂ <+: es) {n m : NodeId} {node node' : RaftNode}
    (hn : ((run (step T) init es₁).hosts n).node = some node)
    (hm : ((run (step T) init es₂).hosts m).node = some node') {i : LogIndex} (hi : 1 ≤ i)
    (hle : i ≤ node.state.commitIndex) (hle' : i ≤ node'.state.commitIndex) :
    ∃ e, node.log.get i = some e ∧ node'.log.get i = some e := by
  obtain ⟨voted, A, hsound, hpast⟩ := soundSoFar T h
  obtain ⟨hbase, hcommitted⟩ := hpast es₁ n h₁
  obtain ⟨hbase', hcommitted'⟩ := hpast es₂ m h₂
  rw [show ((run (step T) init es₁).image T).nodes n = node from Host.image_of_some hn]
    at hbase hcommitted
  rw [show ((run (step T) init es₂).image T).nodes m = node' from Host.image_of_some hm]
    at hbase' hcommitted'
  rw [RaftLog.get_of_base hbase hi, RaftLog.get_of_base hbase' hi,
    ← hsound.safe.committed_agree hcommitted hcommitted' (j := i - 1) (by lia) (by lia)]
  obtain ⟨e, he⟩ := hcommitted.exists_getElem? (j := i - 1) (by lia)
  exact ⟨e, he, he⟩

end HostCluster

/-! ### A run -/

namespace HostCluster

open scoped Runs

/-- A call on a host. -/
def ofEvent (e : Event) : HostedEvent := ⟨e.node, .call e.call e.fault⟩

/-- Three hosts start, and node 1 is elected and commits its no-op with node 2. -/
def bootAndCommit : List HostedEvent :=
  [⟨1, .restart⟩, ⟨2, .restart⟩, ⟨3, .restart⟩] ++ Cluster.commitByTwo.map ofEvent

/-- The log file of node 1 at that moment. -/
def fileOfOne : Bytes :=
  (((run (step .three) init bootAndCommit).image .three).nodes 1).log.wal.file

/-- Node 1 crashes and starts again. Node 2 stands in term 2; node 3 crashes after it has saved its
vote, and node 1 makes node 2 the leader. Node 2 commits its own no-op with node 1. -/
def crashAndCommit : List HostedEvent :=
  bootAndCommit ++
    [⟨1, .crash fileOfOne⟩, ⟨1, .restart⟩, ofEvent ⟨2, .startElection, none⟩,
      ⟨3, .crashDuring (.voteRequest ⟨2, 2, 1, 1, false⟩) none 2 fileOfOne⟩] ++
    [⟨1, .voteRequest ⟨2, 2, 1, 1, false⟩, none⟩, ⟨2, .voteResponse 1 ⟨2, true⟩ false, none⟩,
      ⟨2, .createAppendRequests, none⟩,
      ⟨1, .appendEntries ⟨2, 2, 1, 1, [⟨2, 2, [], .noop⟩], 0⟩, none⟩,
      ⟨2, .appendResponse 1 ⟨2, true, 2⟩, none⟩].map ofEvent

/-- Node 1 led term 1 before its crash, and nobody else ever did. -/
theorem leaders_eq_across_crashes_crashAndCommit :
    (run (step .three) init bootAndCommit).LeadsIn 1 1 ∧
      ∀ m, (run (step .three) init crashAndCommit).LeadsIn m 1 → m = 1 := by
  have hown : Along (step .three) CountsOwnVotes init crashAndCommit := by decide +kernel
  have hlead : (run (step .three) init bootAndCommit).LeadsIn 1 1 := by decide +kernel
  refine ⟨hlead, fun m hm => ?_⟩
  exact leaders_eq_across_crashes .three _ hown List.prefix_rfl ⟨_, (List.append_assoc _ _ _).symm⟩
    hm hlead

/-- What node 1 had committed before its crash, node 2 has committed in the end. -/
theorem committed_eq_across_crashes_crashAndCommit :
    ∃ node ∈ ((run (step .three) init bootAndCommit).hosts 1).node,
      ∃ node' ∈ ((run (step .three) init crashAndCommit).hosts 2).node,
        node.state.commitIndex = 1 ∧ node'.state.commitIndex = 2 ∧
          ∃ e, node.log.get 1 = some e ∧ node'.log.get 1 = some e := by
  have horderly : Along (step .three) (Orderly .three) init crashAndCommit := by decide +kernel
  obtain ⟨node, hn, hcommit⟩ : ∃ node ∈ ((run (step .three) init bootAndCommit).hosts 1).node,
      node.state.commitIndex = 1 := by decide +kernel
  obtain ⟨node', hm, hcommit'⟩ : ∃ node ∈ ((run (step .three) init crashAndCommit).hosts 2).node,
      node.state.commitIndex = 2 := by decide +kernel
  refine ⟨node, hn, node', hm, hcommit, hcommit', ?_⟩
  exact committed_eq_across_crashes .three _ horderly ⟨_, (List.append_assoc _ _ _).symm⟩
    List.prefix_rfl hn hm le_rfl hcommit.ge (by rw [hcommit']; decide)

end HostCluster

end Raftrust.Consensus

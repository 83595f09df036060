import Raftrust.Consensus.ElectionSafety
import Raftrust.Consensus.Quorums

/-!
# Configurations of a running node

What the calls of a node do to its configurations. A node keeps a pending configuration and a flag
that a change is in progress; a follower that adopts a joint configuration sets only the first, a
step-down clears both, and elections and append requests look at neither.
-/

namespace Raftrust.Consensus

open Lib Storage

/-! ### The text of a configuration -/

namespace ConfigJson

def ascii (text : List Char) : Bytes :=
  text.map fun c => Fin.ofNat 256 c.toNat

def memberText (m : MemberInfo) : List Char :=
  ['\x7b', '"', 'i', 'd', '"', ':'] ++ Nat.toDigits 10 m.id ++
    [',', '"', 'a', 'd', 'd', 'r', 'e', 's', 's', '"', ':', '"'] ++
    m.address.toList ++ ['"', '\x7d']

def configText (c : ClusterConfig) : List Char :=
  ['\x7b', '"', 'm', 'e', 'm', 'b', 'e', 'r', 's', '"', ':', '['] ++
    [','].intercalate (c.members.map memberText) ++ [']', '\x7d']

def jointText (j : JointConfigData) : List Char :=
  ['\x7b', '"', 'o', 'l', 'd', '"', ':'] ++ configText j.old ++
    [',', '"', 'n', 'e', 'w', '"', ':'] ++ configText j.new ++ ['\x7d']

/-- The JSON text of configurations with plain addresses. It is read back for the configurations
given. -/
@[reducible] def text (joints : List JointConfigData) (configs : List ClusterConfig) :
    ConfigJson where
  encodeJoint := fun j => ascii (jointText j)
  decodeJoint := fun data => joints.find? fun j => ascii (jointText j) = data
  encodeConfig := fun c => ascii (configText c)
  decodeConfig := fun data => configs.find? fun c => ascii (configText c) = data

end ConfigJson

/-! ### What a call does to the configurations -/

/-- The configuration entry a call applies. -/
def Call.applied : Call → Option Bytes
  | applyConfigChange data => some data
  | _ => none

/-- The change a call proposes. -/
def Call.proposal : Call → Option ConfigChange
  | proposeConfigChange change => some change
  | _ => none

namespace RaftNode

variable [ConfigJson]

/-- What a call can do to the configurations of a node. -/
inductive MembershipEffect (n : RaftNode) (call : Call) (n' : RaftNode) : Prop where
  | kept (heq : n'.membership = n.membership)
  | aborted (t : Term) (observed : call.observedTerm = some t) (later : n.term < t)
      (heq : n'.membership = n.membership.abortChange)
  | begun (change : ConfigChange) (data : JointConfigData)
      (hcall : call = .proposeConfigChange change) (role : n.state.role = .leader)
      (begin_eq : n.membership.beginChange change = .ok (n'.membership, data))
  | joined (data : Bytes) (joint : JointConfigData) (hcall : call = .applyConfigChange data)
      (decoded : ConfigJson.decodeJoint data = some joint) (role : n.state.role ≠ .leader)
      (heq : n'.membership = { n.membership with pending := some joint.new })
  | finalized (data : Bytes) (joint : JointConfigData) (hcall : call = .applyConfigChange data)
      (decoded : ConfigJson.decodeJoint data = some joint) (role : n.state.role = .leader)
      (heq : n'.membership = n.membership.applyNewConfig joint.new)
  | applied (data : Bytes) (config : ClusterConfig) (hcall : call = .applyConfigChange data)
      (single : ConfigJson.decodeJoint data = none)
      (decoded : ConfigJson.decodeConfig data = some config)
      (heq : n'.membership = n.membership.applyNewConfig config)

variable (n : RaftNode)

lemma MembershipEffect.of_observeTerm {n' : RaftNode} {call : Call} {t : Term}
    (observed : call.observedTerm = some t)
    (heq : n'.membership = (n.observeTerm t).membership) : MembershipEffect n call n' := by
  by_cases hterm : n.term < t
  · rw [observeTerm_of_lt n hterm] at heq
    exact .aborted t observed hterm heq
  · rw [observeTerm_of_le n (not_lt.mp hterm)] at heq
    exact .kept heq

variable [Crc32]

lemma MembershipEffect.proposeConfigChange (change : ConfigChange) (fault : Option WalFault) :
    MembershipEffect n (.proposeConfigChange change) (n.proposeConfigChange change fault).1 := by
  unfold RaftNode.proposeConfigChange
  split
  · exact .kept rfl
  · next hrole =>
    split
    · exact .kept rfl
    · next membership data hbegin =>
      have hrole := not_not.mp hrole
      cases fault with
      | none => exact .begun change data rfl hrole hbegin
      | some f => exact .begun change data rfl hrole hbegin

lemma MembershipEffect.applyConfigChange (data : Bytes) (fault : Option WalFault) :
    MembershipEffect n (.applyConfigChange data) (n.applyConfigChange data fault).1 := by
  unfold RaftNode.applyConfigChange
  split
  · next joint hjoint =>
    dsimp only
    split
    · next hrole => exact .finalized data joint rfl hjoint hrole rfl
    · next hrole => exact .joined data joint rfl hjoint hrole rfl
  · next hjoint =>
    split
    · next config hconfig => exact .applied data config rfl hjoint hconfig rfl
    · exact .kept rfl

/-- Every call has one of these effects on the configurations. -/
theorem execute_membershipEffect (fault : Option WalFault) (call : Call) :
    MembershipEffect n call (n.execute fault call).1 := by
  cases n.execute_outcome fault call with
  | kept heq => exact .kept (by rw [heq])
  | preVote heq => exact .kept (by rw [heq]; rfl)
  | election heq => exact .kept (by rw [heq]; rfl)
  | observed t observed heq => exact .of_observeTerm n observed (by rw [heq])
  | granted request observed heq => exact .of_observeTerm n observed (by rw [heq]; rfl)
  | counted _ _ _ _ _ _ heq => exact .kept (by rw [heq])
  | elected _ _ heq => exact .kept (by rw [heq]; rfl)
  | followed request hcall _ _ heq =>
    exact .of_observeTerm n (by rw [hcall]; rfl) (by rw [heq]; rfl)
  | acknowledged _ _ _ _ _ _ _ _ _ heq => exact .kept (by rw [heq]; rfl)
  | proposed happend =>
    obtain ⟨log, leaderState, heq⟩ := happend.exists_eq
    exact .kept (by rw [heq])
  -- all other calls change the configurations only by aborting a pending one
  | reconfigured _ hcall =>
    cases call with
    | proposeConfigChange change => exact .proposeConfigChange n change fault
    | applyConfigChange data => exact .applyConfigChange n data fault
    | _ => cases hcall
  | compacted _ _ _ heq => exact .kept (by rw [heq])
  | installed t _ _ _ observed _ _ _ _ heq =>
    exact .of_observeTerm n observed (by rw [heq]; rfl)
  | quiet hquiet => exact .kept (n.execute_quiet fault hquiet).membership

/-- Calls that are not about membership leave it alone, or abort a change. -/
lemma execute_membership (fault : Option WalFault) {call : Call}
    (h : call.isMembershipChange = false) :
    (n.execute fault call).1.membership = n.membership ∨
      (n.execute fault call).1.membership = n.membership.abortChange := by
  cases n.execute_membershipEffect fault call with
  | kept heq => exact .inl heq
  | aborted t _ _ heq => exact .inr heq
  | begun change data hcall => simp [hcall, Call.isMembershipChange] at h
  | joined data joint hcall => simp [hcall, Call.isMembershipChange] at h
  | finalized data joint hcall => simp [hcall, Call.isMembershipChange] at h
  | applied data config hcall => simp [hcall, Call.isMembershipChange] at h

end RaftNode

/-! ### Runs of one node -/

/-- A call on a node, and the fault of the log write it makes, if that fails. -/
structure NodeEvent where
  call : Call
  fault : Option WalFault

section

variable [Crc32] [ConfigJson]

def RaftNode.step (n : RaftNode) (e : NodeEvent) : RaftNode :=
  (n.execute e.fault e.call).1

end

/-! ### One change at a time -/

/-- A change the configuration allows: the node to add is not in it, the node to remove is in it
and not the last one. -/
def ConfigChange.Applicable (config : ClusterConfig) : ConfigChange → Prop
  | addNode id _ => config.contains id = false
  | removeNode id => config.contains id = true ∧ ∃ m ∈ config.members, m.id ≠ id

instance (config : ClusterConfig) : ∀ change : ConfigChange, Decidable (change.Applicable config)
  | .addNode id _ => inferInstanceAs (Decidable (config.contains id = false))
  | .removeNode _ => inferInstanceAs (Decidable (_ ∧ _))

lemma MembershipState.applicable_of_beginChange {s s' : MembershipState} {change : ConfigChange}
    {data : JointConfigData} (h : s.beginChange change = .ok (s', data)) :
    s.changeInProgress = false ∧ change.Applicable s.current := by
  obtain ⟨hflag, newConfig, -, -, hnew⟩ := beginChange_cases h
  refine ⟨hflag, ?_⟩
  rcases hnew with ⟨id, address, rfl, hnot, -⟩ | ⟨id, rfl, hmem, hmembers, hne⟩
  · exact hnot
  · refine ⟨hmem, ?_⟩
    rw [hmembers] at hne
    obtain ⟨m, hm⟩ := List.exists_mem_of_ne_nil _ hne
    exact ⟨m, by simpa using hm⟩

/-- The final configuration that a call applies. -/
def Call.final? [ConfigJson] : Call → Option ClusterConfig
  | applyConfigChange data =>
    if (ConfigJson.decodeJoint data).isSome then none else ConfigJson.decodeConfig data
  | _ => none

namespace RaftNode

variable [ConfigJson]

/-- The joint configuration that a call begins or applies. -/
def joint? (n : RaftNode) : Call → Option ClusterConfig
  | .proposeConfigChange change =>
    if n.state.role = .leader then (n.membership.beginChange change).toOption.map (·.2.new)
    else none
  | .applyConfigChange data => (ConfigJson.decodeJoint data).map (·.new)
  | _ => none

/-- The joint configuration that was begun or applied last, unless a final one has been applied
since. Aborting a change does not close it. -/
def opened (n : RaftNode) (last : Option ClusterConfig) (call : Call) : Option ClusterConfig :=
  if call.final?.isSome then none else (n.joint? call).or last

/-- A pending configuration stays pending until it is dropped, becomes the current one, or a final
configuration is applied. -/
def KeepsChange (n : RaftNode) (call : Call) (n' : RaftNode) : Prop :=
  ∀ c, n.membership.pending = some c →
    n'.membership.pending = some c ∨
      (n'.membership.pending = none ∧
        (n'.membership.current = n.membership.current ∨ n'.membership.current = c ∨
          ∃ data, call = .applyConfigChange data ∧
            ConfigJson.decodeConfig data = some n'.membership.current))

section

variable [Crc32]

/-- A call together with what it does to the joint configuration that was opened last. -/
def trackStep (p : RaftNode × Option ClusterConfig) (e : NodeEvent) :
    RaftNode × Option ClusterConfig :=
  (p.1.step e, p.1.opened p.2 e.call)

/-- A node does not come to lead with a pending configuration that it has only adopted, and a joint
configuration is applied only when the one that was opened last, if any, is the same. -/
def ChangesInTurn (p : RaftNode × Option ClusterConfig) (e : NodeEvent) : Prop :=
  (p.1.state.role ≠ .leader → (p.1.step e).state.role = .leader → p.1.membership.pending ≠ none →
      p.1.membership.changeInProgress = true) ∧
    ∀ data ∈ e.call.applied, ∀ joint ∈ ConfigJson.decodeJoint data, ∀ c ∈ p.2, joint.new = c
  deriving Decidable

/-- A leader with a pending configuration knows that a change is in progress, and what is pending
was opened last. -/
structure OneAtATime (p : RaftNode × Option ClusterConfig) : Prop where
  flagged : p.1.state.role = .leader → p.1.membership.pending ≠ none →
    p.1.membership.changeInProgress = true
  tracked : ∀ c ∈ p.1.membership.pending, p.2 = some c

omit [ConfigJson] [Crc32] in
lemma OneAtATime.of_pending_eq_none {p : RaftNode × Option ClusterConfig}
    (h : p.1.membership.pending = none) : OneAtATime p :=
  ⟨fun _ hne => absurd h hne, by simp [h]⟩

namespace OneAtATime

variable {n : RaftNode} {last : Option ClusterConfig}

lemma proposeConfigChange (h : OneAtATime (n, last)) (change : ConfigChange)
    (fault : Option WalFault) :
    OneAtATime (trackStep (n, last) ⟨.proposeConfigChange change, fault⟩) := by
  have hfinal : (Call.proposeConfigChange change).final? = none := rfl
  simp only [trackStep, opened, hfinal, Option.isSome_none, Bool.false_eq_true, if_false, joint?,
    RaftNode.step, execute, RaftNode.proposeConfigChange]
  by_cases hrole : n.state.role = .leader
  · rw [if_neg (not_not.mpr hrole), if_pos hrole]
    cases hbegin : n.membership.beginChange change with
    | error e => exact h
    | ok begun =>
      obtain ⟨-, newConfig, hpending, hdata, -⟩ := MembershipState.beginChange_cases hbegin
      -- the flag is set with the pending configuration, also if the entry cannot be written
      have hone : ∀ {n' : RaftNode}, n'.membership = begun.1 →
          OneAtATime (n', some begun.2.new) := by
        intro n' hn'
        refine ⟨fun _ _ => by rw [hn', hpending], fun c hc => ?_⟩
        rw [hn', hpending] at hc
        rw [← Option.some.inj hc, hdata]
      cases fault <;> exact hone rfl
  · rw [if_pos hrole, if_neg hrole]
    exact h

lemma applyConfigChange (h : OneAtATime (n, last)) (data : Bytes) (fault : Option WalFault) :
    OneAtATime (trackStep (n, last) ⟨.applyConfigChange data, fault⟩) := by
  cases hjoint : ConfigJson.decodeJoint data with
  | some joint =>
    have hopened : n.opened last (.applyConfigChange data) = some joint.new := by
      simp [opened, Call.final?, joint?, hjoint]
    by_cases hrole : n.state.role = .leader
    · -- a leader makes the configuration its current one at once
      refine .of_pending_eq_none ?_
      simp only [trackStep, RaftNode.step, execute, RaftNode.applyConfigChange, hjoint, hrole,
        if_true, MembershipState.finalizeJoint]
      cases fault <;> rfl
    · have hstep : n.step ⟨.applyConfigChange data, fault⟩ =
          { n with membership := { n.membership with pending := some joint.new } } := by
        simp [RaftNode.step, execute, RaftNode.applyConfigChange, hjoint, hrole]
      rw [trackStep, hstep, hopened]
      exact ⟨fun hlead => absurd hlead hrole, fun c hc => hc⟩
  | none =>
    cases hconfig : ConfigJson.decodeConfig data with
    | some config =>
      refine .of_pending_eq_none ?_
      simp [trackStep, RaftNode.step, execute, RaftNode.applyConfigChange, hjoint, hconfig,
        MembershipState.applyNewConfig]
    | none =>
      have heq : trackStep (n, last) ⟨.applyConfigChange data, fault⟩ = (n, last) := by
        simp [trackStep, RaftNode.step, execute, RaftNode.applyConfigChange, opened, Call.final?,
          joint?, hjoint, hconfig]
      rwa [heq]

/-- Every call keeps it. -/
lemma step (h : OneAtATime (n, last)) {e : NodeEvent} (hturn : ChangesInTurn (n, last) e) :
    OneAtATime (trackStep (n, last) e) := by
  obtain ⟨call, fault⟩ := e
  cases hchange : call.isMembershipChange with
  | true =>
    cases call with
    | proposeConfigChange change => exact h.proposeConfigChange change fault
    | applyConfigChange data => exact h.applyConfigChange data fault
    | _ => cases hchange
  | false =>
    have hopened : n.opened last call = last := by
      cases call with
      | proposeConfigChange => cases hchange
      | applyConfigChange => cases hchange
      | _ => rfl
    rcases n.execute_membership fault hchange with heq | heq
    · refine ⟨fun hlead hpending => ?_, fun c hc => hopened.trans (h.tracked c (heq ▸ hc))⟩
      change (n.execute fault call).1.membership.pending ≠ none at hpending
      change (n.execute fault call).1.membership.changeInProgress = true
      rw [heq] at hpending ⊢
      -- it led before, or it is elected by this call
      by_cases hrole : n.state.role = .leader
      · exact h.flagged hrole hpending
      · exact hturn.1 hrole hlead hpending
    · exact .of_pending_eq_none (congrArg MembershipState.pending heq)

lemma keepsChange (h : OneAtATime (n, last)) {e : NodeEvent} (hturn : ChangesInTurn (n, last) e) :
    n.KeepsChange e.call (n.step e) := by
  intro c hc
  have hsame : ∀ data joint, e.call = .applyConfigChange data →
      ConfigJson.decodeJoint data = some joint → joint.new = c :=
    fun data joint hcall hjoint => hturn.2 data (by rw [hcall]; rfl) joint hjoint c (h.tracked c hc)
  cases n.execute_membershipEffect e.fault e.call with
  | kept heq => exact .inl (by rw [RaftNode.step, heq, hc])
  | aborted t _ _ heq => exact .inr ⟨by rw [RaftNode.step, heq]; rfl, .inl (by
      rw [RaftNode.step, heq]; rfl)⟩
  -- a leader does not begin a change while one is pending
  | begun change data hcall role begin_eq =>
    have hflag := (MembershipState.applicable_of_beginChange begin_eq).1
    have hset := h.flagged role (show n.membership.pending ≠ none by simp [hc])
    exact absurd (hset.symm.trans hflag) (by decide)
  | joined data joint hcall decoded _ heq =>
    exact .inl (by rw [RaftNode.step, heq, hsame data joint hcall decoded])
  | finalized data joint hcall decoded _ heq =>
    refine .inr ⟨by rw [RaftNode.step, heq]; rfl, .inr (.inl ?_)⟩
    rw [RaftNode.step, heq, hsame data joint hcall decoded]
    rfl
  | applied data config hcall _ decoded heq =>
    refine .inr ⟨by rw [RaftNode.step, heq]; rfl, .inr (.inr ⟨data, hcall, ?_⟩)⟩
    rw [RaftNode.step, heq, decoded]
    rfl

end OneAtATime

/-- Tracking does not change what the node does. -/
lemma run_trackStep_fst (n : RaftNode) (last : Option ClusterConfig) (es : List NodeEvent) :
    (run trackStep (n, last) es).1 = run RaftNode.step n es := by
  induction es generalizing n last with
  | nil => rfl
  | cons e es ih => exact ih (n.step e) (n.opened last e.call)

lemma oneAtATime_of_changesInTurn (config : NodeConfig) {es : List NodeEvent}
    (h : Along trackStep ChangesInTurn (Cluster.freshNode config, none) es) :
    OneAtATime (run trackStep (Cluster.freshNode config, none) es) := by
  refine run_invariant trackStep
    (fun es => OneAtATime (run trackStep (Cluster.freshNode config, none) es)) ?_ ?_ h
  · exact .of_pending_eq_none rfl
  · intro es e _ hone hturn
    rw [run_snoc]
    exact hone.step hturn

end

variable [Crc32]

/-- A change is accepted from a leader whose membership accepts it. -/
lemma beginChange_of_proposeConfigChange {n : RaftNode} {change : ConfigChange}
    {fault : Option WalFault} {index : LogIndex}
    (h : (n.proposeConfigChange change fault).2 = .ok index) :
    n.state.role = .leader ∧ ∃ s' data, n.membership.beginChange change = .ok (s', data) := by
  unfold proposeConfigChange at h
  split at h
  · cases h
  · next hrole =>
    split at h
    · cases h
    · next s' data hbegin => exact ⟨not_not.mp hrole, s', data, hbegin⟩

/-- **One change at a time.** Whatever calls a node sees from its start, as long as it is never
elected with a configuration that it has only adopted, and joint configurations are applied to it in
turn, each closed by a final one before a different one comes: a proposal succeeds only when nothing
is pending, and a pending configuration is given up only for good. -/
theorem pending_kept_of_changesInTurn (config : NodeConfig) (es : List NodeEvent)
    (h : Along trackStep ChangesInTurn (Cluster.freshNode config, none) es)
    {es' : List NodeEvent} {e : NodeEvent} (hp : es' ++ [e] <+: es) :
    let n := run step (Cluster.freshNode config) es'
    (∀ change index, e.call = .proposeConfigChange change →
        (n.proposeConfigChange change e.fault).2 = .ok index → n.membership.pending = none) ∧
      n.KeepsChange e.call (n.step e) := by
  intro n
  obtain ⟨hpast, hturn⟩ := (along_snoc _ _ _ _ _).mp (h.of_isPrefix _ hp)
  have hone := oneAtATime_of_changesInTurn config hpast
  have hn : (run trackStep (Cluster.freshNode config, none) es').1 = n := run_trackStep_fst _ _ _
  refine ⟨fun change index _ hok => ?_, hn ▸ hone.keepsChange hturn⟩
  obtain ⟨hrole, s', data, hbegin⟩ := beginChange_of_proposeConfigChange hok
  have hflag := (MembershipState.applicable_of_beginChange hbegin).1
  -- a leader with something pending would refuse
  by_contra hpending
  rw [← hn] at hrole hpending hflag
  exact absurd ((hone.flagged hrole hpending).symm.trans hflag) (by decide)

end RaftNode

namespace ConfigRuns

/-- The three nodes of the concrete runs, without addresses. -/
def threeNodes : ClusterConfig :=
  ⟨[⟨1, ""⟩, ⟨2, ""⟩, ⟨3, ""⟩]⟩

/-- The same with node 4 added. -/
def fourNodes : ClusterConfig :=
  ⟨threeNodes.members ++ [⟨4, "d"⟩]⟩

def addsFourth : JointConfigData where
  old := threeNodes
  new := fourNodes

scoped instance : Crc32 := Crc32.ieee

scoped instance : ConfigJson := ConfigJson.text [addsFourth] [threeNodes, fourNodes]

/-- The entry by which node 4 is added, as it stands in the log. -/
def addsFourthData : Bytes :=
  ConfigJson.encodeJoint addsFourth

end ConfigRuns

section

open ConfigRuns

/-- A follower adopts the joint configuration, hears from a leader of a later term, is elected
itself and proposes the change again. -/
def adoptAndAbort : List NodeEvent :=
  [⟨.applyConfigChange addsFourthData, none⟩,
    ⟨.appendEntries ⟨1, 2, 0, 0, [], 0⟩, none⟩,
    ⟨.startElection, none⟩, ⟨.voteResponse 2 ⟨2, true⟩ false, none⟩]

theorem pending_kept_adoptAndAbort :
    Along RaftNode.trackStep RaftNode.ChangesInTurn (Cluster.freshNode ⟨1, [2, 3]⟩, none)
        (adoptAndAbort ++ [⟨.proposeConfigChange (.addNode 4 "d"), none⟩]) ∧
      ((run RaftNode.step (Cluster.freshNode ⟨1, [2, 3]⟩) adoptAndAbort).proposeConfigChange
        (.addNode 4 "d") none).2 = .ok 2 ∧
      (run RaftNode.step (Cluster.freshNode ⟨1, [2, 3]⟩) adoptAndAbort).membership.pending =
        none := by
  have hturn : Along RaftNode.trackStep RaftNode.ChangesInTurn (Cluster.freshNode ⟨1, [2, 3]⟩, none)
      (adoptAndAbort ++ [⟨.proposeConfigChange (.addNode 4 "d"), none⟩]) := by decide +kernel
  have hok : ((run RaftNode.step (Cluster.freshNode ⟨1, [2, 3]⟩) adoptAndAbort).proposeConfigChange
      (.addNode 4 "d") none).2 = .ok 2 := by decide +kernel
  exact ⟨hturn, hok,
    (RaftNode.pending_kept_of_changesInTurn ⟨1, [2, 3]⟩ _ hturn List.prefix_rfl).1 _ 2 rfl hok⟩

/-- A follower adopts the joint configuration and is elected before it is finalized. -/
def adoptAndLead : List NodeEvent :=
  [⟨.applyConfigChange addsFourthData, none⟩,
    ⟨.startElection, none⟩, ⟨.voteResponse 2 ⟨1, true⟩ false, none⟩]

/-- The new leader accepts another change, which takes the place of the pending one. -/
theorem adoptAndLead_replaced :
    let n := run RaftNode.step (Cluster.freshNode ⟨1, [2, 3]⟩) adoptAndLead
    n.membership.pending = some fourNodes ∧
      (n.proposeConfigChange (.addNode 5 "e") none).2 = .ok 2 ∧
      (n.step ⟨.proposeConfigChange (.addNode 5 "e"), none⟩).membership.pending =
        some ⟨threeNodes.members ++ [⟨5, "e"⟩]⟩ := by
  decide +kernel

end

/-! ### Configurations as a function of what was applied -/

/-- The configuration entries a run applies, in order. -/
def appliedConfigs (es : List NodeEvent) : List Bytes :=
  es.filterMap fun e => e.call.applied

namespace MembershipState

/-- What an applied entry means to a node that does not lead: the current and the pending
configuration afterwards. -/
def replayEntry [ConfigJson] (s : ClusterConfig × Option ClusterConfig) (data : Bytes) :
    ClusterConfig × Option ClusterConfig :=
  match ConfigJson.decodeJoint data with
  | some joint => (s.1, some joint.new)
  | none =>
    match ConfigJson.decodeConfig data with
    | some config => (config, none)
    | none => s

/-- The two configurations. -/
def configs (s : MembershipState) : ClusterConfig × Option ClusterConfig :=
  (s.current, s.pending)

/-- The order of the current members does not matter to what is replayed. -/
lemma replayEntry_perm [ConfigJson] {s s' : ClusterConfig × Option ClusterConfig}
    (h : s.1.members.Perm s'.1.members) (hpending : s.2 = s'.2) (data : Bytes) :
    (replayEntry s data).1.members.Perm (replayEntry s' data).1.members ∧
      (replayEntry s data).2 = (replayEntry s' data).2 := by
  unfold replayEntry
  split
  · exact ⟨h, rfl⟩
  · split
    · exact ⟨.refl _, rfl⟩
    · exact ⟨h, hpending⟩

lemma replay_perm [ConfigJson] (data : List Bytes) {s s' : ClusterConfig × Option ClusterConfig}
    (h : s.1.members.Perm s'.1.members) (hpending : s.2 = s'.2) :
    (run replayEntry s data).1.members.Perm (run replayEntry s' data).1.members ∧
      (run replayEntry s data).2 = (run replayEntry s' data).2 := by
  induction data generalizing s s' with
  | nil => exact ⟨h, hpending⟩
  | cons d data ih =>
    obtain ⟨h', hpending'⟩ := replayEntry_perm h hpending d
    exact ih h' hpending'

lemma hasQuorum_congr {s s' : MembershipState} (h : s.current.members.Perm s'.current.members)
    (hpending : s.pending = s'.pending) (voters : Finset NodeId) :
    s.hasQuorum voters = s'.hasQuorum voters := by
  have hmaj : majorityOf s.current voters = majorityOf s'.current voters := by
    have hlen : s.current.len = s'.current.len := h.length_eq
    simp only [majorityOf, hlen, (h.filter _).length_eq]
  rw [hasQuorum, hasQuorum, hmaj, hpending]

end MembershipState

namespace RaftNode

/-- The node proposes nothing, and does not lead when it applies an entry. -/
def OnlyApplies (n : RaftNode) (call : Call) : Prop :=
  call.proposal = none ∧ (call.applied ≠ none → n.state.role ≠ .leader)
  deriving Decidable

/-- The node does not step down while a configuration is pending. -/
def KeepsPending (n : RaftNode) (call : Call) : Prop :=
  ∀ t ∈ call.observedTerm, n.term < t → n.membership.pending = none
  deriving Decidable

variable [Crc32] [ConfigJson]

lemma applyConfigChange_configs {n : RaftNode} (h : n.state.role ≠ .leader) (data : Bytes)
    (fault : Option WalFault) :
    (n.applyConfigChange data fault).1.membership.configs =
      MembershipState.replayEntry n.membership.configs data := by
  cases hjoint : ConfigJson.decodeJoint data with
  | some joint => simp [applyConfigChange, MembershipState.replayEntry, hjoint, h,
      MembershipState.configs]
  | none =>
    cases hconfig : ConfigJson.decodeConfig data with
    | some config => simp [applyConfigChange, MembershipState.replayEntry, hjoint, hconfig,
        MembershipState.configs, MembershipState.applyNewConfig]
    | none => simp [applyConfigChange, MembershipState.replayEntry, hjoint, hconfig]

/-- A call does to the configurations what the entry it applies does, and nothing if it applies
none. -/
lemma step_configs {n : RaftNode} {e : NodeEvent} (honly : n.OnlyApplies e.call)
    (hkeeps : n.KeepsPending e.call) :
    (n.step e).membership.configs =
      run MembershipState.replayEntry n.membership.configs e.call.applied.toList := by
  obtain ⟨call, fault⟩ := e
  cases happlied : call.applied with
  | some data =>
    obtain rfl : call = .applyConfigChange data := by
      cases call with
      | applyConfigChange data' => exact congrArg _ (Option.some.inj happlied)
      | _ => cases happlied
    exact applyConfigChange_configs (honly.2 (by simp [happlied])) data fault
  | none =>
    show (n.execute fault call).1.membership.configs = n.membership.configs
    cases n.execute_membershipEffect fault call with
    | kept heq => rw [heq]
    -- the change that stepping down would abort is none
    | aborted t observed later heq =>
      rw [heq]
      exact Prod.ext rfl (hkeeps t observed later).symm
    | begun change data hcall =>
      subst hcall
      cases honly.1
    | joined data joint hcall =>
      subst hcall
      cases happlied
    | finalized data joint hcall =>
      subst hcall
      cases happlied
    | applied data config hcall =>
      subst hcall
      cases happlied

/-- The configurations after a run are a function of those before it and of what was applied. -/
lemma run_configs {n : RaftNode} {es : List NodeEvent}
    (h : Along step (fun n e => n.OnlyApplies e.call ∧ n.KeepsPending e.call) n es) :
    (run step n es).membership.configs =
      run MembershipState.replayEntry n.membership.configs (appliedConfigs es) := by
  induction es generalizing n with
  | nil => rfl
  | cons e es ih =>
    obtain ⟨⟨honly, hkeeps⟩, hrest⟩ := h
    rw [run_cons, ih hrest, step_configs honly hkeeps, ← run_append]
    congr 1
    cases happlied : e.call.applied <;> simp [appliedConfigs, happlied]

/-- **Membership is a function of the applied entries.** Two nodes that start with the same members
and apply the same configuration entries, without leading or proposing, have the same configurations
in the end and accept the same quorums, whatever else they see, if neither of them steps down while
a configuration is pending. -/
theorem configs_eq_of_keepsPending (n m : RaftNode) (es es' : List NodeEvent)
    (hcurrent : n.membership.current.members.Perm m.membership.current.members)
    (hpending : n.membership.pending = m.membership.pending)
    (h : Along step (fun n e => n.OnlyApplies e.call ∧ n.KeepsPending e.call) n es)
    (h' : Along step (fun n e => n.OnlyApplies e.call ∧ n.KeepsPending e.call) m es')
    (happlied : appliedConfigs es = appliedConfigs es') :
    let n' := (run step n es).membership
    let m' := (run step m es').membership
    n'.current.members.Perm m'.current.members ∧
      (n.membership.current = m.membership.current → n'.current = m'.current) ∧
      n'.pending = m'.pending ∧ ∀ voters, n'.hasQuorum voters = m'.hasQuorum voters := by
  intro n' m'
  -- on both sides the configurations are a replay of the same entries
  have hn : n'.configs = run MembershipState.replayEntry n.membership.configs _ := run_configs h
  have hm : m'.configs = run MembershipState.replayEntry m.membership.configs _ := run_configs h'
  rw [← happlied] at hm
  obtain ⟨hcurrents, hpendings⟩ := MembershipState.replay_perm (appliedConfigs es)
    (show n.membership.configs.1.members.Perm m.membership.configs.1.members from hcurrent) hpending
  rw [← hn, ← hm] at hcurrents hpendings
  refine ⟨hcurrents, ?_, hpendings, MembershipState.hasQuorum_congr hcurrents hpendings⟩
  intro heq
  have hconfigs : n.membership.configs = m.membership.configs := Prod.ext heq hpending
  rw [hconfigs, ← hm] at hn
  exact congrArg Prod.fst hn

end RaftNode

section

open ConfigRuns

/-- Nodes 1 and 2 apply the joint configuration; node 2 stands for election in between, and hears of
a later term before it applies the entry. -/
theorem configs_eq_electionBefore :
    let es : List NodeEvent := [⟨.applyConfigChange addsFourthData, none⟩]
    let es' : List NodeEvent :=
      [⟨.startElection, none⟩, ⟨.appendEntries ⟨2, 3, 0, 0, [], 0⟩, none⟩,
        ⟨.applyConfigChange addsFourthData, none⟩]
    (run RaftNode.step (Cluster.freshNode ⟨1, [2, 3]⟩) es).membership.pending = some fourNodes ∧
      (run RaftNode.step (Cluster.freshNode ⟨2, [1, 3]⟩) es').membership.pending =
        some fourNodes := by
  intro es es'
  have hpending : (run RaftNode.step (Cluster.freshNode ⟨1, [2, 3]⟩) es).membership.pending =
      some fourNodes := by decide +kernel
  refine ⟨hpending, ?_⟩
  rw [← hpending]
  exact (RaftNode.configs_eq_of_keepsPending (Cluster.freshNode ⟨2, [1, 3]⟩)
    (Cluster.freshNode ⟨1, [2, 3]⟩) es' es (by decide) rfl (by decide +kernel) (by decide +kernel)
    (by decide +kernel)).2.2.1

/-- Both nodes apply the joint configuration, and node 2 then hears from a leader of a later term:
nodes 1 and 2 alone are a quorum to it again, but not to node 1. -/
theorem laterTerm_drops_pending :
    let n := run RaftNode.step (Cluster.freshNode ⟨1, [2, 3]⟩)
      [⟨.applyConfigChange addsFourthData, none⟩]
    let m := run RaftNode.step (Cluster.freshNode ⟨2, [1, 3]⟩)
      [⟨.applyConfigChange addsFourthData, none⟩, ⟨.appendEntries ⟨1, 3, 0, 0, [], 0⟩, none⟩]
    n.membership.pending = some fourNodes ∧ m.membership.pending = none ∧
      n.membership.hasQuorum {1, 2} = false ∧ m.membership.hasQuorum {1, 2} = true := by
  decide +kernel

end

end Raftrust.Consensus

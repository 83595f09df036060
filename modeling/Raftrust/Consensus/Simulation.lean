import Raftrust.Consensus.LogEffect
import Raftrust.Lib.Replication

/-!
# The cluster as a replicated log

Without snapshots every call is one of the moves of `Lib.Replication`: a node that leads appends, a
node that accepts a request takes over what the leader of its term has, and all other calls at most
raise the term. `ghost` is the abstract state that goes along with a run; `Simulated` says how the
nodes and the network are related to it.
-/

namespace Raftrust.Consensus

open Lib Storage Function

/-! ### Moves -/

section

variable [Crc32]

/-- What a call other than a snapshot does to the log, by the role the node ends up in. -/
inductive RaftNode.LogMove (n : RaftNode) (call : Call) (fault : Option WalFault)
    (n' : RaftNode) : Prop where
  | led (es : List LogEntry) (role : n'.state.role = .leader) (term : n'.term = n.term)
      (base : n'.log.snapshotIndex = n.log.snapshotIndex)
      (entries : n'.log.entries = n.log.entries ++ es)
      (own : es = [] ∨ ∃ data ty, es = [⟨n.log.lastIndex + 1, n.term, data, ty⟩])
      (fresh : n.state.role = .leader ∨ es ≠ [] ∨ fault ≠ none)
  | accepted (request : AppendRequest) (hcall : call = .appendEntries request)
      (haccepts : n.Accepts request) (role : n'.state.role = .follower)
      (term : n'.term = request.term)
      (log : n'.log = mergeEntries n.log request.entries fault)
  | raised (role : n'.state.role ≠ .leader) (term : n.term ≤ n'.term)
      (rejects : ∀ request ∈ call.request, ¬ n.Accepts request) (log : n'.log = n.log)

lemma RaftNode.execute_term_le [ConfigJson] (n : RaftNode) (fault : Option WalFault)
    (call : Call) : n.term ≤ (n.execute fault call).1.term :=
  (n.savesTo_execute fault call).advances.term_le

lemma Cluster.run_term_le [ConfigJson] (T : Topology) (c : Cluster) (es : List Event)
    (n : NodeId) : (c.nodes n).term ≤ ((run (step T) c es).nodes n).term := by
  induction es generalizing c with
  | nil => exact le_rfl
  | cons e es ih =>
    refine le_trans ?_ (ih (step T c e))
    rcases step_cases T c e with ⟨-, heq⟩ | ⟨-, heq⟩
    · rw [heq]
    · rw [heq]
      rcases eq_or_ne n e.node with rfl | hn
      · rw [put_nodes_self]
        exact RaftNode.execute_term_le _ _ _
      · rw [put_nodes_of_ne _ hn]

/-- A node that becomes leader appends a no-op. -/
lemma RaftNode.execute_log_of_elected [ConfigJson] {n : RaftNode} {fault : Option WalFault}
    {call : Call} (hold : n.state.role ≠ .leader)
    (hnew : (n.execute fault call).1.state.role = .leader) :
    (n.execute fault call).1.log = (n.appendEntry [] .noop fault).1.log := by
  obtain ⟨-, hlead | ⟨sender, response, election, rfl, hterm, hg, helection, hq⟩⟩ :=
    (n.execute_roleEffect fault call).leader_cases hnew
  · exact absurd hlead hold
  · simp only [execute, handleVoteResponse, gt_iff_lt, not_lt.mpr hterm, if_false, hg,
      Bool.not_true, Bool.false_eq_true, helection, hq, if_true]
    rfl

theorem RaftNode.execute_logMove [ConfigJson] (n : RaftNode) (fault : Option WalFault)
    {call : Call} (hsnap : call.isSnapshot = false) :
    n.LogMove call fault (n.execute fault call).1 := by
  have hle := n.execute_term_le fault call
  have hrole := n.execute_roleEffect fault call
  have hlog := n.execute_logEffect fault call
  have helected : n.state.role ≠ .leader → (n.execute fault call).1.state.role = .leader → _ :=
    n.execute_log_of_elected
  -- an accepted request is merged, whatever else the effects would allow
  have haccepted : ∀ request ∈ call.request, n.Accepts request →
      n.LogMove call fault (n.execute fault call).1 := by
    intro request hcall haccepts
    cases call with
    | appendEntries request' =>
      obtain rfl : request' = request := by simpa [Call.request] using hcall
      obtain ⟨hr, ht, hl, -⟩ := n.handleAppendEntries_of_accepts fault haccepts
      exact .accepted request' rfl haccepts hr ht hl
    | _ => simp [Call.request] at hcall
  generalize (n.execute fault call).1 = n' at *
  by_cases hlead : n'.state.role = .leader
  · have hterm := (hrole.leader_cases hlead).1
    -- one entry of its own, if the write succeeds
    have happended : ∀ data ty, n'.log = (n.appendEntry data ty fault).1.log →
        n.LogMove call fault n' := by
      intro data ty heq
      refine .led (if fault = none then [⟨n.log.lastIndex + 1, n.term, data, ty⟩] else []) hlead
        hterm ?_ ?_ ?_ ?_
      · rw [heq]
        exact RaftLog.append_snapshotIndex _ _ _
      · rw [heq]
        exact RaftLog.append_entries _ _ _
      · split
        · exact .inr ⟨data, ty, rfl⟩
        · exact .inl rfl
      · by_cases hfault : fault = none
        · exact .inr (.inl (by simp [hfault]))
        · exact .inr (.inr hfault)
    cases hlog with
    | kept heq =>
      by_cases hold : n.state.role = .leader
      · exact .led [] hlead hterm (by rw [heq]) (by simp [heq]) (.inl rfl) (.inl hold)
      · exact happended [] .noop (helected hold hlead)
    | appended data ty _ _ heq => exact happended data ty heq
    | merged request hcall haccepts =>
      exact haccepted request (by simp [hcall, Call.request]) haccepts
    | compacted s t hcall => simp [hsnap] at hcall
  · by_cases hacc : ∃ request ∈ call.request, n.Accepts request
    · obtain ⟨request, hcall, haccepts⟩ := hacc
      exact haccepted request hcall haccepts
    · have hrejects : ∀ request ∈ call.request, ¬ n.Accepts request := by
        intro request hcall haccepts
        exact hacc ⟨request, hcall, haccepts⟩
      cases hlog with
      | kept heq => exact .raised hlead hle hrejects heq
      | appended _ _ hr => exact absurd hr hlead
      | merged request hcall haccepts =>
        exact haccepted request (by simp [hcall, Call.request]) haccepts
      | compacted s t hcall => simp [hsnap] at hcall

end

/-! ### The abstract state -/

/-- The abstract state of a cluster. -/
abbrev Ghost := Replication NodeId LogEntry

/-- Entries carry the index of their position and a term after the initial one. -/
def EntryAt (i : ℕ) (e : LogEntry) : Prop :=
  e.index = i + 1 ∧ 1 ≤ e.term

/-- The abstract move of a call on node `k` that turns it from `n` into `n'`. -/
def ghostStep (A : Ghost) (k : NodeId) (call : Call) (n n' : RaftNode) : Ghost :=
  if n'.state.role = .leader then A.lead k (n'.log.entries.drop n.log.entries.length)
  else if call.request.any fun request => n.Accepts request then
    A.adopt k n'.term n'.log.entries
  else A.raise k n'.term

section

variable {n n' : RaftNode} {call : Call} (A : Ghost) (k : NodeId)

lemma ghostStep_of_leader {es : List LogEntry} (hrole : n'.state.role = .leader)
    (hentries : n'.log.entries = n.log.entries ++ es) :
    ghostStep A k call n n' = A.lead k es := by
  rw [ghostStep, if_pos hrole, hentries, List.drop_left]

lemma ghostStep_of_accepts {request : AppendRequest} (hrole : n'.state.role = .follower)
    (h : n.Accepts request) :
    ghostStep A k (.appendEntries request) n n' = A.adopt k n'.term n'.log.entries := by
  rw [ghostStep, if_neg (by simp [hrole]), if_pos (by simpa [Call.request] using h)]

lemma ghostStep_of_rejects (hrole : n'.state.role ≠ .leader)
    (h : ∀ request ∈ call.request, ¬ n.Accepts request) :
    ghostStep A k call n n' = A.raise k n'.term := by
  rw [ghostStep, if_neg hrole, if_neg]
  cases hreq : call.request with
  | none => simp
  | some request => simpa using h request hreq

end

namespace Cluster

variable [Crc32] [ConfigJson]

/-- One event, with the abstract state going along. -/
def traceStep (T : Topology) (s : Cluster × Ghost) (e : Event) : Cluster × Ghost :=
  (step T s.1 e,
    if s.1.Enabled T e then
      ghostStep s.2 e.node e.call (s.1.nodes e.node) ((step T s.1 e).nodes e.node)
    else s.2)

/-- The abstract state after a run. -/
def ghost (T : Topology) (es : List Event) : Ghost :=
  (run (traceStep T) (init T, Replication.init) es).2

lemma run_traceStep_fst (T : Topology) (s : Cluster × Ghost) (es : List Event) :
    (run (traceStep T) s es).1 = run (step T) s.1 es := by
  induction es generalizing s with
  | nil => rfl
  | cons e es ih => exact ih _

lemma ghost_snoc (T : Topology) (es : List Event) (e : Event) :
    let c := after T es
    ghost T (es ++ [e]) =
      if c.Enabled T e then
        ghostStep (ghost T es) e.node e.call (c.nodes e.node) ((step T c e).nodes e.node)
      else ghost T es := by
  have hfst := run_traceStep_fst T (init T, Replication.init) es
  simp only [ghost, run_snoc, traceStep, hfst]

/-- An event either does nothing or is a call on a member, with its abstract move. -/
lemma ghost_snoc_cases (T : Topology) (es : List Event) (e : Event) :
    let c := after T es
    let executed := (c.nodes e.node).execute e.fault e.call
    (after T (es ++ [e]) = c ∧ ghost T (es ++ [e]) = ghost T es) ∨
      (c.Enabled T e ∧
        after T (es ++ [e]) = c.put e.node executed.1 executed.2 ∧
        ghost T (es ++ [e]) =
          ghostStep (ghost T es) e.node e.call (c.nodes e.node) executed.1) := by
  intro c executed
  rw [after_snoc, ghost_snoc]
  rcases step_cases T c e with ⟨hnot, heq⟩ | ⟨henabled, heq⟩
  · exact .inl ⟨heq, if_neg hnot⟩
  · refine .inr ⟨henabled, heq, ?_⟩
    rw [if_pos henabled, heq, put_nodes_self]

end Cluster

end Raftrust.Consensus

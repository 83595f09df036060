import Raftrust.Consensus.Applied
import Raftrust.Consensus.Reads

/-!
# Committed for good

State machine safety compares two nodes at one moment. Over a whole run more holds: what a node has
committed is never taken back, it is what every other node commits there later, and every leader
that comes after holds it. An index that a leader has handed out to a client stands for the client's
proposal only together with the term it was handed out in.
-/

namespace Raftrust.Consensus

open Lib Storage Function

namespace Cluster

variable [Crc32] [ConfigJson]

/-! ### Moments of one run -/

section

variable {T : Topology} {es es' : List Event}

lemma ghost_grows (h : OrderlyRun T es) (hp : es' <+: es) :
    (ghost T es').Grows (ghost T es) := by
  refine @rel_of_isPrefix _ (fun es₁ es₂ => (ghost T es₁).Grows (ghost T es₂))
    (fun _ => .refl _) (fun _ _ _ => .trans) _ _ (fun es₁ e hp => ?_) hp
  have hsnoc := h.of_isPrefix _ hp
  exact ((backed T ((along_snoc _ _ _ _ _).mp hsnoc).1).safe_snoc hsnoc).2

lemma commitIndex_le (h : OrderlyRun T es) (hp : es' <+: es) (m : NodeId) :
    ((after T es').nodes m).state.commitIndex ≤
      ((after T es).nodes m).state.commitIndex := by
  refine @rel_of_isPrefix _ (fun es₁ es₂ =>
    ((after T es₁).nodes m).state.commitIndex ≤
      ((after T es₂).nodes m).state.commitIndex)
    (fun _ => le_rfl) (fun _ _ _ => le_trans) _ _ (fun es₁ e hp => ?_) hp
  have hsnoc := h.of_isPrefix _ hp
  exact (backed T ((along_snoc _ _ _ _ _).mp hsnoc).1).commitIndex_le_snoc hsnoc m

lemma lastApplied_le (h : OrderlyRun T es) (hp : es' <+: es) (m : NodeId) :
    ((after T es').nodes m).state.lastApplied ≤
      ((after T es).nodes m).state.lastApplied := by
  refine @rel_of_isPrefix _ (fun es₁ es₂ =>
    ((after T es₁).nodes m).state.lastApplied ≤
      ((after T es₂).nodes m).state.lastApplied)
    (fun _ => le_rfl) (fun _ _ _ => le_trans) _ _ (fun es₁ e hp => ?_) hp
  have hsnap := ((along_snoc _ _ _ _ _).mp (h.of_isPrefix _ hp)).2.1.1
  rw [after_snoc]
  rcases step_cases T (after T es₁) e with ⟨-, heq⟩ | ⟨-, heq⟩
  · rw [heq]
  rw [heq]
  rcases eq_or_ne m e.node with rfl | hm
  · rw [put_nodes_self]
    by_cases htake : e.call = .takeCommittedEntries
    · rw [htake]
      exact Nat.le_add_right _ _
    · rw [RaftNode.execute_lastApplied _ e.fault hsnap htake]
  · rw [put_nodes_of_ne _ hm]

lemma committed_earlier (h : OrderlyRun T es) (hp : es' <+: es) (n : NodeId) :
    (ghost T es).CommittedUpTo LogEntry.term T.members
      ((after T es').nodes n).state.commitIndex
      ((after T es').nodes n).log.entries
      ((after T es').nodes n).term := by
  have hes' := h.of_isPrefix _ hp
  have hold := (backed T hes').commits.committed n
  rw [(simulated_of_orderly T hes').1.simulated.log n] at hold
  exact hold.mono (ghost_grows h hp) le_rfl (List.take_prefix _ _)

lemma exists_get_of_le_commitIndex (h : OrderlyRun T es) {n : NodeId}
    {i : LogIndex} (hi : 1 ≤ i)
    (hn : i ≤ ((after T es).nodes n).state.commitIndex) :
    ∃ e, ((after T es).nodes n).log.get i = some e := by
  rw [RaftLog.get_of_base ((simulated_of_orderly T h).1.simulated.base n) hi]
  exact (committed_earlier h List.prefix_rfl n).exists_getElem? (by lia)

/-- Two nodes, each at a moment of its own, hold the same entry below both their commit indices. -/
lemma get_eq_of_committed {es₁ es₂ : List Event} (h : OrderlyRun T es)
    (h₁ : es₁ <+: es) (h₂ : es₂ <+: es) {n m : NodeId} {i : LogIndex} (hi : 1 ≤ i)
    (hn : i ≤ ((after T es₁).nodes n).state.commitIndex)
    (hm : i ≤ ((after T es₂).nodes m).state.commitIndex) :
    ((after T es₁).nodes n).log.get i =
      ((after T es₂).nodes m).log.get i := by
  have hsim₁ := (simulated_of_orderly T (h.of_isPrefix _ h₁)).1.simulated
  have hsim₂ := (simulated_of_orderly T (h.of_isPrefix _ h₂)).1.simulated
  rw [RaftLog.get_of_base (hsim₁.base n) hi, RaftLog.get_of_base (hsim₂.base m) hi]
  exact (backed T h).safe.committed_agree (committed_earlier h h₁ n) (committed_earlier h h₂ m)
    (by lia) (by lia)

end

/-! ### Finality -/

/-- **Commits are final.** What a node has committed at some moment of an orderly run it has still
committed at every later one, and whoever has committed that index by then holds the same entry. -/
theorem committed_entry_final (T : Topology) (es : List Event)
    (h : OrderlyRun T es) {es' : List Event} (hp : es' <+: es) {n : NodeId}
    {i : LogIndex} (hi : 1 ≤ i)
    (hn : i ≤ ((after T es').nodes n).state.commitIndex) :
    i ≤ ((after T es).nodes n).state.commitIndex ∧
      ∃ e, ((after T es').nodes n).log.get i = some e ∧
        ∀ m, i ≤ ((after T es).nodes m).state.commitIndex →
          ((after T es).nodes m).log.get i = some e := by
  refine ⟨hn.trans (commitIndex_le h hp n), ?_⟩
  obtain ⟨e, he⟩ := exists_get_of_le_commitIndex (h.of_isPrefix _ hp) hi hn
  refine ⟨e, he, fun m hm => ?_⟩
  rw [← he]
  exact get_eq_of_committed h List.prefix_rfl hp hi hm hn

/-- **Leader completeness.** What a node has committed at some moment of an orderly run is in the
log of every node that leads at that moment or later in a term not before the node's. -/
theorem leader_holds_committed (T : Topology) (es : List Event)
    (h : OrderlyRun T es) {es' : List Event} (hp : es' <+: es) {n m : NodeId}
    {i : LogIndex} (hi : 1 ≤ i)
    (hn : i ≤ ((after T es').nodes n).state.commitIndex)
    (hm : ((after T es).nodes m).state.role = .leader)
    (hterm : ((after T es').nodes n).term ≤
      ((after T es).nodes m).term) :
    ∃ e, ((after T es').nodes n).log.get i = some e ∧
      ((after T es).nodes m).log.get i = some e := by
  obtain ⟨e, he⟩ := exists_get_of_le_commitIndex (h.of_isPrefix _ hp) hi hn
  refine ⟨e, he, ?_⟩
  have hsim := (simulated_of_orderly T h).1.simulated
  rw [RaftLog.get_of_base ((simulated_of_orderly T (h.of_isPrefix _ hp)).1.simulated.base n) hi]
    at he
  rw [RaftLog.get_of_base (hsim.base m) hi, ← hsim.hist_eq hm]
  exact (committed_earlier h hp n).getElem?_hist (backed T h).safe (by lia) he hterm
    (by simp [hsim.leader m hm])

/-! ### Proposals -/

section

variable {T : Topology} {es es' : List Event}

/-- Without snapshots, and with one leader per term, the histories of all terms only grow. -/
lemma hist_isPrefix (h : Along (step T) (fun _ e => e.call.isSnapshot = false) (init T) es)
    (hunique : UniqueLeaders T es) (hp : es' <+: es) (t : Term) :
    (ghost T es').hist t <+: (ghost T es).hist t := by
  refine @rel_of_isPrefix _ (fun es₁ es₂ => (ghost T es₁).hist t <+: (ghost T es₂).hist t)
    (fun _ => List.prefix_rfl) (fun _ _ _ => List.IsPrefix.trans) _ _ (fun es₁ e hp => ?_) hp
  have hes₁ := (List.prefix_append es₁ [e]).trans hp
  have htraced := traced T (h.of_isPrefix _ hes₁) (hunique.of_isPrefix hes₁)
  rcases ghost_snoc_cases T es₁ e with ⟨-, hghost⟩ | ⟨henabled, -, hghost⟩
  · rw [hghost]
  rw [hghost, ghostStep]
  split
  · next hrole =>
    exact htraced.simulated.consistent.hist_prefix_lead (htraced.simulated.leader_cases
      fun m => htraced.unique (hunique.of_isPrefix hp) henabled hrole) _ t
  · split
    · exact List.prefix_rfl
    · exact List.prefix_rfl

omit [ConfigJson] in
/-- A proposal that is accepted is appended to the leader's log. -/
lemma propose_eq_ok {n : RaftNode} {data : Bytes} {fault : Option WalFault} {i : LogIndex}
    (h : (n.propose data fault).2 = .ok i) :
    (n.propose data fault).1.state.role = .leader ∧ (n.propose data fault).1.term = n.term ∧
      i = n.log.lastIndex + 1 ∧
      (n.propose data fault).1.log.entries = n.log.entries ++ [⟨i, n.term, data, .normal⟩] := by
  obtain ⟨log, leaderState, heq⟩ := (n.propose_ownAppend data fault).exists_eq
  unfold RaftNode.propose at h
  split_ifs at h with hrole htransfer
  have hrole : n.state.role = .leader := not_not.mp hrole
  cases fault with
  | some f => simp [RaftNode.appendEntry, RaftLog.append, Except.map] at h
  | none =>
    obtain rfl : n.log.lastIndex + 1 = i := by
      simpa [RaftNode.appendEntry, RaftLog.append, Except.map] using h
    refine ⟨by rw [heq]; exact hrole, by rw [heq], rfl, ?_⟩
    exact n.propose_entries hrole (by simpa using htransfer) data

lemma hist_of_propose (h : Along (step T) (fun _ e => e.call.isSnapshot = false) (init T) es)
    (hunique : UniqueLeaders T es) {n : NodeId} {data : Bytes} {fault : Option WalFault}
    (hp : es' ++ [⟨n, .propose data, fault⟩] <+: es) (hn : n ∈ T.members) {i : LogIndex}
    (hpropose : (((after T es').nodes n).propose data fault).2 = .ok i) :
    1 ≤ i ∧ ((ghost T es).hist ((after T es').nodes n).term)[i - 1]? =
      some ⟨i, ((after T es').nodes n).term, data, .normal⟩ := by
  obtain ⟨hrole, hterm, hi, hentries⟩ := propose_eq_ok hpropose
  have hes' := (List.prefix_append es' _).trans hp
  have hlast := (traced T (h.of_isPrefix _ hes') (hunique.of_isPrefix hes')).simulated.lastIndex n
  have hlog := (traced T (h.of_isPrefix _ hes') (hunique.of_isPrefix hes')).simulated.log n
  have hsim := (traced T (h.of_isPrefix _ hp) (hunique.of_isPrefix hp)).simulated
  have henabled : (after T es').Enabled T ⟨n, .propose data, fault⟩ :=
    ⟨hn, by simp [Call.packet]⟩
  have hnode : (after T (es' ++ [⟨n, .propose data, fault⟩])).nodes n =
      (((after T es').nodes n).propose data fault).1 := by
    rw [after_snoc, step, if_pos henabled, put_nodes_self]
    rfl
  refine ⟨by lia, getElem?_of_isPrefix (hist_isPrefix h hunique hp _) ?_⟩
  rw [← hnode] at hrole hterm hentries
  rw [← hterm, hsim.hist_eq hrole, hentries, ← hlog, hterm, hi, hlast]
  simp

end

/-- **An index and a term identify a proposal.** In runs without snapshots in which at most one node
leads a term, let a leader accept a proposal and hand out an index for it. Whatever node holds an
entry of the leader's term at that index then or later, holds that proposal. -/
theorem proposal_identified (T : Topology) (es₀ es₁ : List Event) {n : NodeId} {data : Bytes}
    {fault : Option WalFault}
    (h : Along (step T) (fun _ e => e.call.isSnapshot = false) (init T)
      (es₀ ++ ⟨n, .propose data, fault⟩ :: es₁))
    (hunique : UniqueLeaders T (es₀ ++ ⟨n, .propose data, fault⟩ :: es₁)) (hn : n ∈ T.members)
    {i : LogIndex}
    (hpropose : (((after T es₀).nodes n).propose data fault).2 = .ok i)
    {m : NodeId} {e : LogEntry}
    (hm : ((after T (es₀ ++ ⟨n, .propose data, fault⟩ :: es₁)).nodes m).log.get i =
      some e)
    (hterm : e.term = ((after T es₀).nodes n).term) :
    e = ⟨i, e.term, data, .normal⟩ := by
  obtain ⟨hi, hhist⟩ := hist_of_propose h hunique ⟨es₁, by simp⟩ hn hpropose
  have hsim := (traced T h hunique).simulated
  rw [RaftLog.get_of_base (hsim.base m) hi, ← hsim.log] at hm
  have hm := (hsim.consistent.log_matches m).getElem?_history hm
  rw [hterm, hhist] at hm
  rw [hterm]
  exact (Option.some.inj hm).symm

end Cluster

/-! ### Runs -/

namespace Cluster

open scoped Runs

/-- Node 1 commits its no-op and tells node 2, which had not committed anything before. -/
theorem committed_entry_final_plainCommit :
    let c := after .three plainCommit
    ((after .three plainReplication).nodes 2).state.commitIndex = 0 ∧
      1 ≤ (c.nodes 1).state.commitIndex ∧
      ∃ e, ((after .three plainCommit.dropLast).nodes 1).log.get 1 = some e ∧
        ∀ m, 1 ≤ (c.nodes m).state.commitIndex → (c.nodes m).log.get 1 = some e := by
  have horderly : Along (step .three) Orderly (init .three) plainCommit := by decide +kernel
  refine ⟨by decide +kernel, ?_⟩
  exact committed_entry_final .three _ horderly (List.dropLast_prefix _) le_rfl
    (by decide +kernel)

/-- Node 1 has committed its no-op with node 2, and node 2 leads the next term. -/
theorem leader_holds_committed_newLeader :
    ∃ e, ((after .three commitByTwo).nodes 1).log.get 1 = some e ∧
      ((after .three newLeader).nodes 2).log.get 1 = some e := by
  have horderly : Along (step .three) Orderly (init .three) newLeader := by decide +kernel
  exact leader_holds_committed .three _ horderly (List.prefix_append _ _) le_rfl
    (by decide +kernel) (by decide +kernel) (by decide +kernel)

/-- Node 1 accepts a proposal and replicates it to node 2. -/
def replicateProposal : List Event :=
  [⟨1, .createAppendRequests, none⟩,
    ⟨2, .appendEntries ⟨1, 1, 0, 0, [⟨1, 1, [], .noop⟩, ⟨2, 1, [7], .normal⟩], 0⟩, none⟩]

theorem proposal_identified_replicated :
    let c := after .three
      (plainElection ++ ⟨1, .propose [7], none⟩ :: replicateProposal)
    ∃ e, (c.nodes 2).log.get 2 = some e ∧ e.term = 1 ∧ e = ⟨2, e.term, [7], .normal⟩ := by
  have horderly : Along (step .three) Orderly (init .three)
      (plainElection ++ ⟨1, .propose [7], none⟩ :: replicateProposal) := by decide +kernel
  have hget : ((after .three
      (plainElection ++ ⟨1, .propose [7], none⟩ :: replicateProposal)).nodes 2).log.get 2 =
        some ⟨2, 1, [7], .normal⟩ := by decide +kernel
  refine ⟨⟨2, 1, [7], .normal⟩, hget, rfl, ?_⟩
  exact proposal_identified .three plainElection replicateProposal
    (horderly.mono _ fun _ _ h => h.1.1)
    (uniqueLeaders .three (horderly.mono _ fun _ _ h => h.2.2.1)) (by decide) (by decide +kernel)
    hget (by decide +kernel)

end Cluster

end Raftrust.Consensus

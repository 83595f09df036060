import Raftrust.Consensus.LogMatching

/-!
# Acknowledgements

A follower acknowledges its whole log. That is sound because every request ends in an entry of the
leader's own term: the no-op a leader starts with, or something later. What a follower has behind
such an entry it has from the same leader.
-/

namespace Raftrust.Consensus

open Lib Storage Function

namespace Cluster

/-- Leaders have an entry of their own at the end, and so has everything they send. -/
structure OwnEnds (A : Ghost) (c : Cluster) : Prop where
  leader : ∀ n, (c.nodes n).state.role = .leader →
    A.Own LogEntry.term (c.nodes n).term ((c.nodes n).log.entries.length - 1)
  request : ∀ target request, Packet.appendRequest target request ∈ c.network →
    ∃ i, 1 ≤ i ∧ SliceOf (A.hist request.term) i request ∧
      A.Own LogEntry.term request.term (i - 1)

lemma OwnEnds.init (T : Topology) : OwnEnds Replication.init (init T) where
  leader := by simp [Cluster.init, freshNode]
  request := by simp [Cluster.init]

lemma Own.mono {A A' : Ghost} (hhist : ∀ t, A.hist t <+: A'.hist t) {t i : ℕ}
    (h : A.Own LogEntry.term t i) : A'.Own LogEntry.term t i := by
  obtain ⟨e, he, hterm⟩ := h
  exact ⟨e, getElem?_of_isPrefix (hhist t) he, hterm⟩

/-! ### One call -/

section

variable {A : Ghost} {c : Cluster}

/-- A leader's log is the history of its term. -/
lemma Simulated.hist_eq (h : Simulated A c) {n : NodeId}
    (hr : (c.nodes n).state.role = .leader) :
    A.hist (c.nodes n).term = (c.nodes n).log.entries := by
  rw [← h.consistent.leader_log _ n (h.leader n hr) (h.cur n), h.log n]

/-- The histories only grow, if no second leader appears. -/
lemma Simulated.hist_prefix (h : Simulated A c) {k : NodeId} {call : Call} {n' : RaftNode}
    (hunique : n'.state.role = .leader → ∀ m, A.leader (c.nodes k).term = some m → m = k)
    (t : Term) : A.hist t <+: (ghostStep A k call (c.nodes k) n').hist t := by
  unfold ghostStep
  split
  · next hrole =>
    exact h.consistent.hist_prefix_lead (h.leader_cases (hunique hrole)) _ t
  · split <;> exact List.prefix_rfl

variable [Crc32] [ConfigJson]

lemma OwnEnds.execute {A' : Ghost} (h : OwnEnds A c) (hsim : Simulated A c)
    (hhist : ∀ t, A.hist t <+: A'.hist t) {k : NodeId} {call : Call}
    (hsnap : call.isSnapshot = false)
    (hsim' : Simulated A'
      (c.put k ((c.nodes k).execute none call).1 ((c.nodes k).execute none call).2)) :
    OwnEnds A' (c.put k ((c.nodes k).execute none call).1 ((c.nodes k).execute none call).2) where
  leader := by
    intro m hlead
    rcases eq_or_ne m k with rfl | hm
    swap
    · rw [put_nodes_of_ne c hm] at hlead ⊢
      exact Own.mono hhist (h.leader m hlead)
    have hlog := hsim'.hist_eq hlead
    rw [put_nodes_self] at hlead hlog ⊢
    have hmove := (c.nodes m).execute_logMove none hsnap
    generalize ((c.nodes m).execute none call).1 = n' at *
    cases hmove with
    | led es _ term _ entries own fresh =>
      rcases own with rfl | ⟨data, ty, rfl⟩
      · -- nothing appended: the node was leader before
        have hold : (c.nodes m).state.role = .leader := by simpa using fresh
        rw [entries, List.append_nil, term]
        exact Own.mono hhist (h.leader m hold)
      · refine ⟨⟨(c.nodes m).log.lastIndex + 1, (c.nodes m).term, data, ty⟩, ?_, term.symm⟩
        rw [hlog, entries]
        simp
    | accepted _ _ _ role => simp [role] at hlead
    | raised role => exact absurd hlead role
  request := by
    intro target request hmem
    rcases mem_network_put.mp hmem with hmem | hmem
    · obtain ⟨i, hi, hslice, hown⟩ := h.request target request hmem
      exact ⟨i, hi, hslice.mono (hhist _), Own.mono hhist hown⟩
    · obtain ⟨-, hrole, -, leader, -, rfl⟩ := (c.nodes k).appendRequest_of_sent none hmem
      have hown := h.leader k hrole
      have hslice := (c.nodes k).sliceOf_appendRequestFor leader target (hsim.base k)
      have hlt := hown.lt_length
      rw [← hsim.hist_eq hrole] at hslice hown hlt
      refine ⟨_, ?_, hslice.mono (hhist _), Own.mono hhist hown⟩
      exact Nat.one_le_iff_ne_zero.mpr fun h0 => by rw [h0] at hlt; exact Nat.not_lt_zero _ hlt

omit [ConfigJson] in
/-- After an accepted request the follower's log is part of the leader's. -/
lemma Simulated.mergeEntries_prefix (h : Simulated A c) (hown : OwnEnds A c) {f : NodeId}
    {request : AppendRequest} (hmem : Packet.appendRequest f request ∈ c.network)
    (haccepts : (c.nodes f).Accepts request) :
    ∃ i, 1 ≤ i ∧ A.Own LogEntry.term request.term (i - 1) ∧
      i ≤ (RaftNode.mergeEntries (c.nodes f).log request.entries none).entries.length ∧
      (RaftNode.mergeEntries (c.nodes f).log request.entries none).entries <+:
        A.hist request.term := by
  obtain ⟨i, hi, hslice, e, he, hterm⟩ := hown.request f request hmem
  refine ⟨i, hi, ⟨e, he, hterm⟩, ?_⟩
  have hlen : ((A.hist request.term).take i).length = i := by
    rw [List.length_take, min_eq_left hslice.le_length]
  rcases (h.mergeEntries hslice haccepts none).2 with ⟨hp, heq⟩ | ⟨-, heq⟩ | ⟨hne, -⟩
  · rw [heq]
    refine ⟨hlen.symm.le.trans hp.length_le, ?_⟩
    refine (h.consistent.log_matches f).prefix_of_own h.consistent.wf ?_
      (getElem?_of_take_isPrefix hp (by lia) he) hterm
    intro x hx
    exact (h.consistent.term_le f x hx).trans (by rw [h.cur f]; exact haccepts.1)
  · rw [heq]
    exact ⟨hlen.symm.le, List.take_prefix _ _⟩
  · exact absurd rfl hne

end

/-! ### Whole runs -/

variable [Crc32] [ConfigJson]

/-- No snapshots, and no log write fails. -/
def Plain (_ : Cluster) (e : Event) : Prop :=
  e.call.isSnapshot = false ∧ e.fault = none
  deriving Decidable

lemma ownEnds (T : Topology) {es : List Event} (h : Along (step T) Plain (init T) es)
    (hunique : UniqueLeaders T es) : OwnEnds (ghost T es) (after T es) := by
  have hsnaps {es : List Event} (h : Along (step T) Plain (init T) es) :
      Along (step T) (fun _ e => e.call.isSnapshot = false) (init T) es :=
    h.mono (step T) fun _ _ hplain => hplain.1
  refine run_invariant (step T) (fun es => UniqueLeaders T es →
    OwnEnds (ghost T es) (after T es)) ?_ ?_ h hunique
  · intro _
    exact OwnEnds.init T
  · rintro es ⟨k, call, fault⟩ hes ih ⟨hsnap, hfault⟩ hunique
    obtain rfl : fault = none := hfault
    have hunique' := hunique.of_isPrefix (List.prefix_append es _)
    have htraced := traced T (hsnaps hes) hunique'
    have hsim := (htraced.snoc hsnap hunique).simulated
    rcases ghost_snoc_cases T es ⟨k, call, none⟩ with ⟨heq, hghost⟩ | ⟨henabled, heq, hghost⟩
    · rw [heq, hghost]
      exact ih hunique'
    · rw [heq, hghost] at hsim ⊢
      refine (ih hunique').execute htraced.simulated ?_ hsnap hsim
      exact htraced.simulated.hist_prefix fun hr m => htraced.unique hunique henabled hr

/-- **Acknowledgements are sound.** When a follower answers a request of the leader of a term with
success, its log up to the match index it reports is the log that the leader held at some moment
while it led that term, up to there; and a commit index it takes from the request does not exceed
that match index. -/
theorem acknowledged_log_eq (T : Topology) (es : List Event)
    (h : Along (step T) Plain (init T) es) (hunique : UniqueLeaders T es) {f : NodeId}
    {request : AppendRequest}
    (hmem : Packet.appendRequest f request ∈ (after T es).network)
    (hsuccess : (((after T es).nodes f).handleAppendEntries request
      none).2.success = true) :
    let n := (after T es).nodes f
    let r := n.handleAppendEntries request none
    (∃ es', es' <+: es ∧ (after T es').LeadsIn request.leaderId request.term ∧
      ∀ i, 1 ≤ i → i ≤ r.2.matchIndex → ∃ e, r.1.log.get i = some e ∧
        ((after T es').nodes request.leaderId).log.get i = some e) ∧
    (request.leaderCommit > n.state.commitIndex → r.1.state.commitIndex ≤ r.2.matchIndex) := by
  intro n r
  have hsnaps : Along (step T) (fun _ e => e.call.isSnapshot = false) (init T) es :=
    h.mono (step T) fun _ _ hplain => hplain.1
  have htraced := traced T hsnaps hunique
  have hsim := htraced.simulated
  have haccepts : n.Accepts request := by
    by_contra hnot
    rw [(n.handleAppendEntries_of_not_accepts none hnot).1] at hsuccess
    cases hsuccess
  obtain ⟨-, -, hlog, hcommit, hresponse⟩ := n.handleAppendEntries_of_accepts none haccepts
  obtain ⟨i₀, -, -, -, hprefix⟩ := hsim.mergeEntries_prefix (ownEnds T h hunique) hmem haccepts
  obtain ⟨hl, -, i₁, hslice⟩ := hsim.request f request hmem
  have hbase : r.1.log.snapshotIndex = 0 := by
    rw [hlog]
    exact (hsim.mergeEntries hslice haccepts none).1
  change RaftLog.entries (RaftNode.mergeEntries n.log request.entries none) <+: _ at hprefix
  rw [← hlog] at hprefix
  have hmatch : r.2.matchIndex = r.1.log.entries.length := by
    have hcontig : r.1.log.Contiguous := by
      intro j e he
      have := (hsim.consistent.hist_ok _ _ _ (getElem?_of_isPrefix hprefix he)).1
      rw [hbase]
      lia
    rw [hresponse]
    change r.1.log.lastIndex = _
    rw [hcontig.lastIndex_eq, hbase, Nat.zero_add]
  constructor
  · obtain ⟨es', hp, hlead, hentries⟩ := htraced.led _ _ hl
    refine ⟨es', hp, hlead, fun i hi hle => ?_⟩
    rw [hmatch] at hle
    have hbase' : ((after T es').nodes request.leaderId).log.snapshotIndex = 0 :=
      (traced T (hsnaps.of_isPrefix (step T) hp) (hunique.of_isPrefix hp)).simulated.base _
    have hlt : i - 1 < r.1.log.entries.length := by lia
    have hget : r.1.log.entries[i - 1]? = some r.1.log.entries[i - 1] :=
      List.getElem?_eq_getElem hlt
    refine ⟨r.1.log.entries[i - 1], ?_, ?_⟩
    · rw [RaftLog.get_of_base hbase hi, hget]
    · rw [RaftLog.get_of_base hbase' hi, hentries]
      exact getElem?_of_isPrefix hprefix hget
  · intro hgt
    rw [hresponse]
    change r.1.state.commitIndex ≤ r.1.log.lastIndex
    rw [hcommit, if_pos hgt]
    exact min_le_right _ _

end Cluster

/-! ### A run -/

namespace Cluster

open scoped Runs

/-- Node 1 is elected and has sent its no-op. -/
def electionAndRequests : List Event :=
  plainElection ++ [⟨1, .createAppendRequests, none⟩]

theorem acknowledged_log_eq_electionAndRequests :
    let c := after .three electionAndRequests
    let request : AppendRequest := ⟨1, 1, 0, 0, [⟨1, 1, [], .noop⟩], 0⟩
    Along (step .three) Plain (init .three) electionAndRequests ∧
      UniqueLeaders .three electionAndRequests ∧
      Packet.appendRequest 2 request ∈ c.network ∧
      ((c.nodes 2).handleAppendEntries request none).2 = ⟨1, true, 1⟩ ∧
      ∃ es', es' <+: electionAndRequests ∧ (after .three es').LeadsIn 1 1 ∧
        ∀ i, 1 ≤ i → i ≤ ((c.nodes 2).handleAppendEntries request none).2.matchIndex →
          ∃ e, ((c.nodes 2).handleAppendEntries request none).1.log.get i = some e ∧
            ((after .three es').nodes 1).log.get i = some e := by
  have hplain : Along (step .three) Plain (init .three) electionAndRequests := by decide +kernel
  have hunique : UniqueLeaders .three electionAndRequests :=
    uniqueLeaders .three (by decide +kernel)
  have hmem : Packet.appendRequest 2 ⟨1, 1, 0, 0, [⟨1, 1, [], .noop⟩], 0⟩ ∈
      (after .three electionAndRequests).network := by
    decide +kernel
  refine ⟨hplain, hunique, hmem, by decide +kernel, ?_⟩
  exact (acknowledged_log_eq .three _ hplain hunique hmem (by decide +kernel)).1

end Cluster

end Raftrust.Consensus

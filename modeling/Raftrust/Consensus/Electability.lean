import Mathlib.Data.Finset.Lattice.Fold
import Mathlib.Data.Finset.Max
import Mathlib.Data.Prod.Lex
import Raftrust.Consensus.Availability

/-!
# A majority elects

Nodes can keep an election from succeeding for ever, but they can never make it impossible: out of
every state, any majority can elect one of its members by itself. The member with the most recent
log stands in a term that none of the others has reached, and their votes make it the leader. The
same argument shows that a leadership transfer leads to its end.
-/

namespace Raftrust.Consensus

open Lib Storage Function

/-- The calls by which a leader is elected. -/
def Call.isElection : Call → Bool
  | .startElection => true
  | .timeoutNow _ => true
  | .voteRequest _ => true
  | .voteResponse _ _ _ => true
  | _ => false

/-- The vote request of `p` in term `t` with the log it has. -/
def VoteRequest.standing (p : NodeId) (t : Term) (log : RaftLog) : VoteRequest where
  term := t
  candidateId := p
  lastLogIndex := log.lastIndex
  lastLogTerm := log.lastTerm
  isPreVote := false

lemma RaftNode.handleVoteRequest_of_upToDate {n : RaftNode} {request : VoteRequest}
    (hreal : request.isPreVote = false) (hterm : n.term < request.term)
    (hup : isLogUpToDate request.lastLogTerm request.lastLogIndex n.log.lastTerm n.log.lastIndex =
      true) :
    (n.handleVoteRequest request).2 = { term := request.term, voteGranted := true } ∧
      (n.handleVoteRequest request).1.term = request.term := by
  have hgrant : shouldGrantVote (n.observeTerm request.term).state request
      (n.observeTerm request.term).log.lastIndex (n.observeTerm request.term).log.lastTerm =
        true := by
    rw [shouldGrantVote_iff, observeTerm_log, observeTerm_of_lt n hterm]
    exact ⟨le_rfl, by simp [stepDownInner, savePersistent], hup⟩
  have hnow : ((n.observeTerm request.term).grantVote request.candidateId).term = request.term := by
    rw [observeTerm_of_lt n hterm]
    rfl
  rw [handleVoteRequest, if_neg (by simp [hreal])]
  dsimp only
  rw [hgrant, if_pos rfl, hnow]
  exact ⟨rfl, rfl⟩

namespace Cluster

/-! ### Standing -/

/-- `p` stands in term `t` with the log `log` and the votes of `V`, which are not enough yet, and
has asked everyone. -/
structure Stands (T : Topology) (p : NodeId) (t : Term) (log : RaftLog) (V : Finset NodeId)
    (c : Cluster) : Prop where
  role : (c.nodes p).state.role = .candidate
  term : (c.nodes p).term = t
  same : (c.nodes p).log = log
  election : (c.nodes p).electionState = some ⟨V, T.members.card / 2 + 1⟩
  few : V.card < T.members.card / 2 + 1
  asked : ∀ q ∈ T.members, q ≠ p → Packet.voteRequest q (.standing p t log) ∈ c.network

/-- `q` would vote for a candidate of term `t` with this log. -/
structure WouldVote (q : RaftNode) (t : Term) (log : RaftLog) : Prop where
  term_lt : q.term < t
  upToDate : isLogUpToDate log.lastTerm log.lastIndex q.log.lastTerm q.log.lastIndex = true

section

variable [Crc32] [ConfigJson] {T : Topology} {es : List Event} {c : Cluster} {p : NodeId}

lemma stands_of_startElection (hp : p ∈ T.members) (htwo : 2 ≤ T.members.card)
    (hconfig : (c.nodes p).config = { id := p, peers := T.peers p }) :
    Stands T p ((c.nodes p).term + 1) (c.nodes p).log {p} (c.perform p none .startElection) where
  role := by rw [put_nodes_self]; rfl
  term := by rw [put_nodes_self]; rfl
  same := by rw [put_nodes_self]; rfl
  election := by
    have hsize : (c.nodes p).clusterSize = T.members.card := by
      rw [RaftNode.clusterSize, hconfig]
      exact T.length_peers hp
    rw [put_nodes_self, ← hsize]
    have hid : (c.nodes p).config.id = p := by rw [hconfig]
    change some (ElectionState.mk (insert (c.nodes p).config.id ∅) _) = _
    rw [hid]
    rfl
  few := by
    rw [Finset.card_singleton]
    omega
  asked := by
    intro q hq hne
    have hpeer : q ∈ (c.nodes p).config.peers := by
      rw [hconfig]
      exact (T.mem_peers p hp q).mpr ⟨hq, hne⟩
    have hid : (c.nodes p).config.id = p := by rw [hconfig]
    refine mem_network_put.mpr (.inr (List.mem_map.mpr ⟨(q, .standing p _ (c.nodes p).log),
      List.mem_map.mpr ⟨q, hpeer, ?_⟩, rfl⟩))
    rw [VoteRequest.standing, Prod.mk.injEq, VoteRequest.mk.injEq]
    exact ⟨rfl, rfl, hid, rfl, rfl, rfl⟩

lemma Stands.execute_voteResponse {t : Term} {log : RaftLog} {V : Finset NodeId} {q : NodeId}
    (h : Stands T p t log V c) :
    let n' := ((c.nodes p).execute none (.voteResponse q ⟨t, true⟩ false)).1
    (n'.state.role = .leader ∧ n'.term = t) ∨
      (n'.state.role = .candidate ∧ n'.term = t ∧ n'.log = log ∧
        n'.electionState = some ⟨insert q V, T.members.card / 2 + 1⟩ ∧
        (insert q V).card < T.members.card / 2 + 1) := by
  intro n'
  have hn' : n' = ((c.nodes p).handleVoteResponse q ⟨t, true⟩ false none).1 := rfl
  unfold RaftNode.handleVoteResponse at hn'
  rw [if_neg (by rw [h.term]; exact lt_irrefl t), if_neg (by simp), h.election] at hn'
  dsimp only at hn'
  -- the vote completes a majority, or it is one more
  by_cases hquorum : T.members.card / 2 + 1 ≤ (insert q V).card
  · left
    rw [if_pos ((ElectionState.recordVote_quorum_iff _ _).mpr hquorum),
      if_neg Bool.false_ne_true] at hn'
    rw [hn']
    exact ⟨rfl, h.term⟩
  · right
    rw [if_neg (fun hq => hquorum ((ElectionState.recordVote_quorum_iff _ _).mp hq))] at hn'
    rw [hn']
    exact ⟨h.role, h.term, h.same, rfl, not_le.mp hquorum⟩

omit [Crc32] [ConfigJson] in
/-- Others may answer while `p` stands. -/
lemma Stands.put {t : Term} {log : RaftLog} {V : Finset NodeId} {q : NodeId} {n' : RaftNode}
    {sent : List Packet} (h : Stands T p t log V c) (hne : p ≠ q) :
    Stands T p t log V (c.put q n' sent) where
  role := by rw [put_nodes_of_ne c hne]; exact h.role
  term := by rw [put_nodes_of_ne c hne]; exact h.term
  same := by rw [put_nodes_of_ne c hne]; exact h.same
  election := by rw [put_nodes_of_ne c hne]; exact h.election
  few := h.few
  asked r hr hrp := mem_network_put.mpr (.inl (h.asked r hr hrp))

omit [Crc32] [ConfigJson] in
lemma Stands.orderly {t : Term} {log : RaftLog} {V : Finset NodeId} (h : Stands T p t log V c)
    (q : NodeId) : c.Orderly ⟨p, .voteResponse q ⟨t, true⟩ false, none⟩ :=
  orderly_voteResponse fun _ _ _ => ⟨h.role, h.term.symm⟩

/-- One more vote: `q` answers, and the answer comes back. -/
def voteEvents (p q : NodeId) (t : Term) (log : RaftLog) : List Event :=
  [⟨q, .voteRequest (.standing p t log), none⟩, ⟨p, .voteResponse q ⟨t, true⟩ false, none⟩]

lemma run_voteEvents (h : OrderlyRun T es) {q : NodeId} {t : Term}
    {log : RaftLog} {V : Finset NodeId} (hp : p ∈ T.members) (hq : q ∈ T.members) (hne : q ≠ p)
    (hstands : Stands T p t log V (after T es))
    (hvote : WouldVote ((after T es).nodes q) t log) :
    let c := after T es
    let c' := after T (es ++ voteEvents p q t log)
    OrderlyRun T (es ++ voteEvents p q t log) ∧
      (c'.LeadsIn p t ∨ Stands T p t log (insert q V) c') ∧ (c'.nodes q).term = t ∧
      ∀ r, r ≠ p → r ≠ q → c'.nodes r = c.nodes r := by
  intro c c'
  obtain ⟨hresponse, hterm⟩ := @RaftNode.handleVoteRequest_of_upToDate (c.nodes q)
    (.standing p t log) rfl hvote.term_lt hvote.upToDate
  have hid : (c.nodes q).config.id = q := by rw [run_config]
  -- `q` grants its vote
  obtain ⟨c₁, hc₁⟩ : ∃ c₁, c₁ = c.put q ((c.nodes q).handleVoteRequest (.standing p t log)).1
    [.voteResponse p q ⟨t, true⟩ false] := ⟨_, rfl⟩
  have hstep₁ : step T c ⟨q, .voteRequest (.standing p t log), none⟩ = c₁ := by
    have henabled : c.Enabled T ⟨q, .voteRequest (.standing p t log), none⟩ :=
      ⟨hq, by simpa [Call.packet] using hstands.asked q hq hne⟩
    rw [step, if_pos henabled, hc₁]
    simp only [RaftNode.execute, hresponse, hid]
    rfl
  have hstands₁ : Stands T p t log V c₁ := by
    rw [hc₁]
    exact hstands.put hne.symm
  -- and `p` counts it
  have hstep₂ : step T c₁ ⟨p, .voteResponse q ⟨t, true⟩ false, none⟩ =
      c₁.put p ((c₁.nodes p).execute none (.voteResponse q ⟨t, true⟩ false)).1 [] := by
    have henabled : c₁.Enabled T ⟨p, .voteResponse q ⟨t, true⟩ false, none⟩ :=
      ⟨hp, by simp [Call.packet, hc₁, mem_network_put]⟩
    rw [step, if_pos henabled]
    rfl
  have hc' : c' = c₁.put p ((c₁.nodes p).execute none (.voteResponse q ⟨t, true⟩ false)).1 [] := by
    rw [← hstep₂, ← hstep₁]
    exact after_append ..
  refine ⟨?_, ?_, ?_, fun r hrp hrq => ?_⟩
  · rw [OrderlyRun, along_append]
    refine ⟨h, ?_, ?_, trivial⟩
    · exact orderly_of_request rfl rfl rfl rfl
    · change Orderly (step T c _) _
      rw [hstep₁]
      exact hstands₁.orderly q
  · rw [hc']
    rcases hstands₁.execute_voteResponse (q := q) with ⟨hrole, hnow⟩ |
      ⟨hrole, hnow, hlog, helection, hfew⟩
    · exact .inl ⟨by rwa [put_nodes_self], by rwa [put_nodes_self]⟩
    · right
      refine ⟨by rwa [put_nodes_self], by rwa [put_nodes_self], by rwa [put_nodes_self],
        by rwa [put_nodes_self], hfew, fun r hr hrp => ?_⟩
      exact mem_network_put.mpr (.inl (hstands₁.asked r hr hrp))
  · rw [hc', put_nodes_of_ne _ hne, hc₁, put_nodes_self, hterm]
    rfl
  · rw [hc', put_nodes_of_ne _ hrp, hc₁, put_nodes_of_ne _ hrq]

lemma exists_leads_or_stands (hp : p ∈ T.members) {t : Term} {log : RaftLog} (Q : Finset NodeId)
    {V : Finset NodeId} (h : OrderlyRun T es)
    (hstands : Stands T p t log V (after T es))
    (hQ : ∀ q ∈ Q, q ∈ T.members ∧ q ≠ p ∧
      WouldVote ((after T es).nodes q) t log) :
    ∃ more, (∀ e ∈ more, e.node ∈ insert p Q ∧ e.call.isElection = true ∧
        e.call.observedTerm = some t) ∧
      OrderlyRun T (es ++ more) ∧
      let c' := after T (es ++ more)
      (c'.LeadsIn p t ∨ Stands T p t log (V ∪ Q) c') ∧ (∀ q ∈ Q, (c'.nodes q).term ≤ t) ∧
        ∀ r, r ≠ p → r ∉ Q → c'.nodes r = (after T es).nodes r := by
  -- one voter after the other; once `p` leads the rest need not answer
  induction Q using Finset.induction_on generalizing es V with
  | empty =>
    refine ⟨[], by simp, by rwa [List.append_nil], ?_⟩
    rw [List.append_nil, Finset.union_empty]
    exact ⟨.inr hstands, by simp, fun _ _ _ => rfl⟩
  | insert q Q hq ih =>
    obtain ⟨hmem, hne, hvote⟩ := hQ q (Finset.mem_insert_self q Q)
    obtain ⟨horderly, hcases, hterm, hothers⟩ := run_voteEvents h hp hmem hne hstands hvote
    have hevents : ∀ e ∈ voteEvents p q t log,
        e.node ∈ insert p (insert q Q) ∧ e.call.isElection = true ∧
          e.call.observedTerm = some t := by
      simp [voteEvents, Call.isElection, Call.observedTerm, VoteRequest.standing]
    have hrest : ∀ r ∈ Q, (after T (es ++ voteEvents p q t log)).nodes r =
        (after T es).nodes r := by
      intro r hr
      exact hothers r (hQ r (Finset.mem_insert_of_mem hr)).2.1 (fun heq => hq (heq ▸ hr))
    rcases hcases with hleads | hstands'
    · refine ⟨_, hevents, horderly, .inl hleads, ?_, fun r hrp hr => ?_⟩
      · refine (Finset.forall_mem_insert _ _ _).mpr ⟨hterm.le, fun r hr => ?_⟩
        rw [hrest r hr]
        exact (hQ r (Finset.mem_insert_of_mem hr)).2.2.term_lt.le
      · rw [Finset.mem_insert, not_or] at hr
        exact hothers r hrp hr.1
    · obtain ⟨more, hmore, horderly', hcases', hterms, hothers'⟩ := ih horderly hstands'
        fun r hr => by
          rw [hrest r hr]
          exact hQ r (Finset.mem_insert_of_mem hr)
      rw [List.append_assoc] at horderly' hcases' hterms hothers'
      refine ⟨_, fun e he => ?_, horderly', ?_, ?_, fun r hrp hr => ?_⟩
      · rcases List.mem_append.mp he with he | he
        · exact hevents e he
        · obtain ⟨hnode, hcall⟩ := hmore e he
          exact ⟨Finset.insert_subset_insert p (Finset.subset_insert q Q) hnode, hcall⟩
      · rwa [Finset.insert_union, ← Finset.union_insert] at hcases'
      · refine (Finset.forall_mem_insert _ _ _).mpr ⟨?_, hterms⟩
        rw [hothers' q hne hq]
        exact hterm.le
      · rw [Finset.mem_insert, not_or] at hr
        rw [hothers' r hrp hr.2]
        exact hothers r hrp hr.1

/-- If the candidate and those who would vote for it are a majority, it comes to lead. -/
lemma exists_leads {t : Term} {log : RaftLog} {Q : Finset NodeId}
    (hmajority : IsMajority T.members (insert p Q))
    (h : OrderlyRun T es)
    (hstands : Stands T p t log {p} (after T es)) (hp : p ∉ Q)
    (hQ : ∀ q ∈ Q, WouldVote ((after T es).nodes q) t log) :
    ∃ more, (∀ e ∈ more, e.node ∈ insert p Q ∧ e.call.isElection = true ∧
        e.call.observedTerm = some t) ∧
      OrderlyRun T (es ++ more) ∧
      let c' := after T (es ++ more)
      c'.LeadsIn p t ∧ ∀ q ∈ insert p Q, (c'.nodes q).term ≤ t := by
  obtain ⟨more, hmore, horderly, hcases, hterms, -⟩ := exists_leads_or_stands
    (hmajority.subset (Finset.mem_insert_self p Q)) Q h hstands fun q hq =>
      ⟨hmajority.subset (Finset.mem_insert_of_mem hq), fun heq => hp (heq ▸ hq), hQ q hq⟩
  have hleads : (after T (es ++ more)).LeadsIn p t := by
    rcases hcases with hleads | hstands'
    · exact hleads
    · -- all have voted, and that is a majority
      have hfew := hstands'.few
      rw [← Finset.insert_eq] at hfew
      exact absurd hmajority.card_le (not_le.mpr hfew)
  exact ⟨more, hmore, horderly, hleads,
    (Finset.forall_mem_insert _ _ _).mpr ⟨hleads.2.le, hterms⟩⟩

/-! ### Any majority -/

lemma step_startElection (c : Cluster) (hp : p ∈ T.members) :
    step T c ⟨p, .startElection, none⟩ = c.perform p none .startElection := by
  rw [step, if_pos ⟨hp, by simp [Call.packet]⟩]

lemma exists_term_ge (h : OrderlyRun T es) (hp : p ∈ T.members) (B : Term) :
    ∃ more, (∀ e ∈ more, e.node = p ∧ e.call.isElection = true) ∧
      OrderlyRun T (es ++ more) ∧
      let c' := after T (es ++ more)
      B ≤ (c'.nodes p).term ∧ (c'.nodes p).log = ((after T es).nodes p).log ∧
        ∀ r, r ≠ p → c'.nodes r = (after T es).nodes r := by
  -- every election it starts takes it one term further
  induction B with
  | zero =>
    refine ⟨[], by simp, by rwa [List.append_nil], ?_⟩
    rw [List.append_nil]
    exact ⟨Nat.zero_le _, rfl, fun _ _ => rfl⟩
  | succ B ih =>
    obtain ⟨more, hmore, horderly, hterm, hlog, hothers⟩ := ih
    have hstep : after T (es ++ (more ++ [⟨p, .startElection, none⟩])) =
        (after T (es ++ more)).perform p none .startElection := by
      rw [← List.append_assoc, after_snoc, step_startElection _ hp]
    refine ⟨more ++ [⟨p, .startElection, none⟩], fun e he => ?_, ?_, ?_⟩
    · rcases List.mem_append.mp he with he | he
      · exact hmore e he
      · obtain rfl := List.mem_singleton.mp he
        exact ⟨rfl, rfl⟩
    · rw [← List.append_assoc, OrderlyRun, along_snoc]
      exact ⟨horderly, orderly_of_request rfl rfl rfl rfl⟩
    · dsimp only
      rw [hstep, put_nodes_self]
      refine ⟨Nat.succ_le_succ hterm, hlog, fun r hr => ?_⟩
      rw [put_nodes_of_ne _ hr]
      exact hothers r hr

/-- **A majority elects.** From every state of an orderly run, any majority of at least two nodes
has among itself a continuation after which one of them leads, in a term that none of them has
passed. -/
theorem majority_elects (T : Topology) (es : List Event)
    (h : OrderlyRun T es) {M : Finset NodeId}
    (hM : IsMajority T.members M) (htwo : 2 ≤ M.card) :
    ∃ p ∈ M, ∃ more, (∀ e ∈ more, e.node ∈ M ∧ e.call.isElection = true) ∧
      OrderlyRun T (es ++ more) ∧
      let c' := after T (es ++ more)
      (c'.nodes p).state.role = .leader ∧ ∀ q ∈ M, (c'.nodes q).term ≤ (c'.nodes p).term := by
  have hne : M.Nonempty := Finset.card_pos.mp (by omega)
  -- the most recent log, and a term as late as any
  obtain ⟨p, hp, hmax⟩ := Finset.exists_max_image M (fun q => toLex
    (((after T es).nodes q).log.lastTerm,
      ((after T es).nodes q).log.lastIndex)) hne
  obtain ⟨first, hfirst, horderly, hterm, hlog, hothers⟩ := exists_term_ge h (hM.subset hp)
    (M.sup fun q => ((after T es).nodes q).term)
  have hstart := step_startElection (after T (es ++ first)) (hM.subset hp)
  have hstands := stands_of_startElection (hM.subset hp)
    (htwo.trans (Finset.card_le_card hM.subset)) (run_config T (es ++ first) p)
  rw [← hstart, ← after_snoc, List.append_assoc, hlog] at hstands
  have horderly' : OrderlyRun T
      (es ++ (first ++ [⟨p, .startElection, none⟩])) := by
    rw [← List.append_assoc, OrderlyRun, along_snoc]
    exact ⟨horderly, orderly_of_request rfl rfl rfl rfl⟩
  have hinsert : insert p (M.erase p) = M := Finset.insert_erase hp
  obtain ⟨rest, hrest, hmore, hleads, hterms⟩ := exists_leads (by rwa [hinsert]) horderly' hstands
    (Finset.notMem_erase p M) fun q hq => by
      obtain ⟨hqp, hq⟩ := Finset.mem_erase.mp hq
      rw [← List.append_assoc, after_snoc, hstart, put_nodes_of_ne _ hqp, hothers q hqp]
      refine ⟨?_, isLogUpToDate_iff.mpr ?_⟩
      · have hle := Finset.le_sup (f := fun q => ((after T es).nodes q).term) hq
        exact Nat.lt_succ_of_le (hle.trans hterm)
      · exact Prod.Lex.le_iff.mp (hmax q hq)
  rw [hinsert] at hrest hterms
  rw [List.append_assoc] at hmore hleads hterms
  refine ⟨p, hp, _, fun e he => ?_, hmore, hleads.1, ?_⟩
  · rcases List.mem_append.mp he with he | he
    · rcases List.mem_append.mp he with he | he
      · obtain ⟨rfl, hcall⟩ := hfirst e he
        exact ⟨hp, hcall⟩
      · obtain rfl := List.mem_singleton.mp he
        exact ⟨hp, rfl⟩
    · exact ⟨(hrest e he).1, (hrest e he).2.1⟩
  · rw [hleads.2]
    exact hterms

/-! ### Leadership transfer -/

lemma lastIndex_pos (h : OrderlyRun T es) {n : NodeId}
    (hrole : ((after T es).nodes n).state.role = .leader) :
    0 < ((after T es).nodes n).log.lastIndex := by
  obtain ⟨e, he, -⟩ := exists_last_own h hrole
  by_contra hzero
  rw [Nat.eq_zero_of_not_pos hzero] at he
  simp [RaftLog.get] at he

/-- A follower that has acknowledged all of the leader's log, and has not moved on, has that log. -/
lemma entries_eq_of_matched (h : OrderlyRun T es) {n : NodeId} {i : LogIndex}
    (hrole : ((after T es).nodes n).state.role = .leader)
    (hmatched : ((after T es).nodes n).matched? p = some i)
    (hi : ((after T es).nodes n).log.lastIndex ≤ i)
    (hterm : ((after T es).nodes p).term ≤
      ((after T es).nodes n).term) :
    ((after T es).nodes p).term = ((after T es).nodes n).term ∧
      ((after T es).nodes p).log.entries =
        ((after T es).nodes n).log.entries := by
  have hsim := (simulated_of_orderly T h).1.simulated
  have hsafe := (backed T h).safe
  obtain ⟨leader, hleader, hlookup⟩ := Option.bind_eq_some_iff.mp hmatched
  have hacc := hi.trans ((backed T h).commits.matched n leader p i hrole hleader hlookup)
  have hpos := lastIndex_pos h hrole
  -- it has accepted entries in the leader's term, so that is its term now
  have hcur : (ghost T es).cur p = ((after T es).nodes n).term :=
    le_antisymm (by rw [hsim.cur]; exact hterm) (hsafe.acc_cur p _ (hpos.trans_le hacc))
  obtain ⟨hlog, hlen⟩ := hsafe.pinned p (by rw [hcur]; exact hpos.trans_le hacc)
  rw [hcur, hsim.hist_eq hrole, hsim.log p] at hlog
  rw [hcur, hsim.log p] at hlen
  refine ⟨(hsim.cur p).symm.trans hcur, hlog.eq_of_length_le ?_⟩
  rw [hsim.lastIndex n, hsim.log n] at hacc
  exact hacc.trans hlen.ge

lemma upToDate_of_leader (h : OrderlyRun T es) {n q : NodeId}
    (hrole : ((after T es).nodes n).state.role = .leader)
    (hterm : ((after T es).nodes q).term ≤
      ((after T es).nodes n).term) :
    isLogUpToDate ((after T es).nodes n).log.lastTerm
      ((after T es).nodes n).log.lastIndex
      ((after T es).nodes q).log.lastTerm
      ((after T es).nodes q).log.lastIndex = true := by
  obtain ⟨htraced, hends⟩ := simulated_of_orderly T h
  have hsim := htraced.simulated
  have hbase := (backed T h).votes.base
  have hup := hsim.consistent.upToDate_hist (v := q)
    (t := ((after T es).nodes n).term)
    (fun e he => (hsim.consistent.term_le q e he).trans (by rw [hsim.cur]; exact hterm))
    (by rw [hsim.hist_eq hrole]; exact hends.leader n hrole)
  rw [hsim.hist_eq hrole] at hup
  rw [isLogUpToDate_iff, RaftLog.lastTerm_of_base (hbase n), RaftLog.lastTerm_of_base (hbase q),
    hsim.lastIndex n, hsim.lastIndex q, hsim.log n, ← hsim.log q]
  exact hup

/-- **Transfers lead to their end.** When a leader finds that the target of a transfer has caught
up, the target holds its whole log unless it has moved on to a later term. Told to stand, it goes to
the next term but asks nobody, since the handler of the message drops the requests. When it stands
again, one term later, it can be elected by any majority that is not in a later term than the leader
either, without a message of the term it has skipped. -/
theorem transfer_completes (T : Topology) (es : List Event)
    (h : OrderlyRun T es) {n p : NodeId} {Q : Finset NodeId}
    (hrole : ((after T es).nodes n).state.role = .leader)
    (hprogress : ((after T es).nodes n).checkTransferProgress.2 = some p)
    (hmajority : IsMajority T.members (insert p Q)) (hQ : Q.Nonempty) (hp : p ∉ Q)
    (hterm : ∀ q ∈ insert p Q, ((after T es).nodes q).term ≤
      ((after T es).nodes n).term) :
    let c := after T es
    let told := es ++ [⟨p, .timeoutNow ⟨(c.nodes n).term, n⟩, none⟩, ⟨p, .startElection, none⟩]
    (c.nodes p).log.entries = (c.nodes n).log.entries ∧
      ∃ more, (∀ e ∈ more, e.node ∈ insert p Q ∧ e.call.isElection = true ∧
          e.call.observedTerm = some ((c.nodes n).term + 2)) ∧
        OrderlyRun T (told ++ more) ∧
        (after T (told ++ more)).LeadsIn p ((c.nodes n).term + 2) := by
  intro c told
  have hpmem := hmajority.subset (Finset.mem_insert_self p Q)
  have hmatch := RaftNode.le_matchOf_of_checkTransferProgress hprogress
  obtain ⟨i, hi⟩ : ∃ i, (c.nodes n).matched? p = some i := by
    by_contra hnone
    rw [RaftNode.matchOf, Option.eq_none_iff_forall_ne_some.mpr (not_exists.mp hnone)] at hmatch
    exact absurd hmatch (not_le.mpr (lastIndex_pos h hrole))
  rw [RaftNode.matchOf, hi] at hmatch
  obtain ⟨hsame, hentries⟩ := entries_eq_of_matched h hrole hi hmatch
    (hterm p (Finset.mem_insert_self p Q))
  refine ⟨hentries, ?_⟩
  -- the message takes the target to the next term, and its own timeout to the one after that
  obtain ⟨c₁, hc₁⟩ : ∃ c₁, c₁ = after T
    (es ++ [⟨p, .timeoutNow ⟨(c.nodes n).term, n⟩, none⟩]) := ⟨_, rfl⟩
  have hstep : c₁ = c.perform p none .startElection := by
    have hexecute : (c.nodes p).handleTimeoutNow ⟨(c.nodes n).term, n⟩ =
        (c.nodes p).startElection := if_neg (not_lt.mpr hsame.le)
    rw [hc₁, after_snoc, step, if_pos ⟨hpmem, by simp [Call.packet]⟩]
    change c.put p ((c.nodes p).handleTimeoutNow ⟨(c.nodes n).term, n⟩).1
      (((c.nodes p).handleTimeoutNow ⟨(c.nodes n).term, n⟩).2.map _) = _
    rw [hexecute]
    rfl
  have htold : after T told = c₁.perform p none .startElection := by
    rw [← step_startElection _ hpmem, hc₁, ← after_snoc, List.append_assoc]
    rfl
  have hnow : (c₁.nodes p).term = (c.nodes n).term + 1 ∧
      (c₁.nodes p).log = (c.nodes p).log := by
    rw [hstep, put_nodes_self, ← hsame]
    exact ⟨rfl, rfl⟩
  have horderly : OrderlyRun T told := by
    rw [OrderlyRun, along_append]
    exact ⟨h, orderly_of_request rfl rfl rfl rfl, orderly_of_request rfl rfl rfl rfl, trivial⟩
  have htwo : 2 ≤ T.members.card := by
    have := Finset.card_le_card hmajority.subset
    rw [Finset.card_insert_of_notMem hp] at this
    have := Finset.card_pos.mpr hQ
    omega
  have hstands := stands_of_startElection hpmem htwo (c := c₁) (hc₁ ▸ run_config T _ p)
  rw [← htold, hnow.1, hnow.2] at hstands
  obtain ⟨more, hmore, horderly', hleads, -⟩ := exists_leads hmajority horderly hstands hp
    fun q hq => by
      have hqp : q ≠ p := fun heq => hp (heq ▸ hq)
      have hle := hterm q (Finset.mem_insert_of_mem hq)
      rw [htold, put_nodes_of_ne _ hqp, hstep, put_nodes_of_ne _ hqp]
      refine ⟨Nat.lt_succ_of_le (Nat.le_succ_of_le hle), ?_⟩
      -- the logs agree, and a leader's log is up to date
      rw [lastIndex_eq_of_entries_eq h h hentries, RaftLog.lastTerm_of_base
        ((backed T h).votes.base p), hentries,
        ← RaftLog.lastTerm_of_base ((backed T h).votes.base n)]
      exact upToDate_of_leader h hrole hle
  exact ⟨more, hmore, horderly', hleads⟩

end

end Cluster

/-! ### Runs -/

namespace Cluster

open scoped Runs

/-- Node 1 has led term 1 and is cut off; nodes 2 and 3 elect one of them. -/
theorem majority_elects_twoAndThree :
    ∃ p ∈ ({2, 3} : Finset NodeId), ∃ more, (∀ e ∈ more, e.node ≠ 1) ∧
      Along (step .three) Orderly (init .three) (commitByTwo ++ more) ∧
      ((after .three (commitByTwo ++ more)).nodes p).state.role = .leader := by
  obtain ⟨p, hp, more, hmore, horderly, hleads, -⟩ := majority_elects .three commitByTwo
    (by decide +kernel) (⟨by decide, by decide⟩ : IsMajority Topology.three.members {2, 3})
    (by decide)
  refine ⟨p, hp, more, fun e he heq => ?_, horderly, hleads⟩
  have hmem := (hmore e he).1
  rw [heq] at hmem
  exact absurd hmem (by decide)

/-- Node 1 is asked to hand over to node 2, which has acknowledged its log. -/
def transferToTwo : List Event :=
  commitByTwo ++ [⟨1, .transferLeadership 2, none⟩]

theorem transfer_completes_transferToTwo :
    ∃ more, (after .three (transferToTwo ++
      [⟨2, .timeoutNow ⟨1, 1⟩, none⟩, ⟨2, .startElection, none⟩] ++ more)).LeadsIn 2 3 := by
  have hterm : ((after .three transferToTwo).nodes 1).term = 1 := by
    decide +kernel
  obtain ⟨-, more, -, -, hleads⟩ := transfer_completes .three transferToTwo (by decide +kernel)
    (by decide +kernel : ((after .three transferToTwo).nodes 1).state.role =
      .leader) (by decide +kernel)
    (⟨by decide, by decide⟩ : IsMajority Topology.three.members (insert 2 {3})) (by decide)
    (by decide) (by decide +kernel)
  rw [hterm] at hleads
  exact ⟨more, hleads⟩

end Cluster

end Raftrust.Consensus

import Raftrust.Consensus.Acknowledgement

/-!
# Late and repeated requests

The requests of a term are parts of one history that only grows. What a node has of that history
stays in its log as long as it stays in the term, whichever requests of the term arrive, in any
order and any number of times.
-/

namespace Raftrust.Consensus

open Lib Storage Function

/-- A request whose entries are all there leaves the log and its file as they are. -/
lemma RaftNode.mergeEntries_of_present [Crc32] {log : RaftLog} {es : List LogEntry}
    (h : ∀ e ∈ es, log.get e.index = some e) (fault : Option WalFault) :
    mergeEntries log es fault = log := by
  have hfold : es.foldl mergeEntry (log, []) = (log, []) := by
    induction es with
    | nil => rfl
    | cons e es ih =>
      have hskip : mergeEntry (log, []) e = (log, []) := by
        simp [mergeEntry, h e List.mem_cons_self]
      rw [List.foldl_cons, hskip]
      exact ih fun x hx => h x (List.mem_cons_of_mem e hx)
  rw [mergeEntries, hfold]
  rfl

namespace Cluster

/-! ### One request -/

section

variable {A : Ghost} {c : Cluster} [Crc32]

/-- What a node has of the history of a term survives every request of the term. -/
lemma Simulated.prefix_mergeEntries (h : Simulated A c) {f : NodeId} {request : AppendRequest}
    {i : ℕ} (hslice : SliceOf (A.hist request.term) i request)
    (haccepts : (c.nodes f).Accepts request) {L : List LogEntry}
    (hhist : L <+: A.hist request.term) (hlog : L <+: A.log f) :
    L <+: (RaftNode.mergeEntries (c.nodes f).log request.entries none).entries := by
  rcases (h.mergeEntries hslice haccepts none).2 with ⟨-, heq⟩ | ⟨hnot, heq⟩ | ⟨hne, -⟩
  · rwa [heq]
  · -- the request replaces the log only if it reaches further than `L`
    rw [heq]
    rcases le_total L.length i with hle | hle
    · exact List.prefix_take_iff.mpr ⟨hhist, hle⟩
    · refine absurd (List.IsPrefix.trans ?_ hlog) hnot
      refine List.prefix_of_prefix_length_le (List.take_prefix _ _) hhist ?_
      rw [List.length_take]
      exact (min_le_left _ _).trans hle
  · exact absurd rfl hne

/-- What an accepted request carries is in the log afterwards. -/
lemma Simulated.take_prefix_mergeEntries (h : Simulated A c) {f : NodeId}
    {request : AppendRequest} {i : ℕ} (hslice : SliceOf (A.hist request.term) i request)
    (haccepts : (c.nodes f).Accepts request) :
    (A.hist request.term).take i <+:
      (RaftNode.mergeEntries (c.nodes f).log request.entries none).entries := by
  rcases (h.mergeEntries hslice haccepts none).2 with ⟨hp, heq⟩ | ⟨-, heq⟩ | ⟨hne, -⟩
  · rwa [heq]
  · rw [heq]
  · exact absurd rfl hne

/-- An entry of the term of a request stays where it is. -/
lemma Simulated.get_handleAppendEntries (h : Simulated A c) {f : NodeId}
    {request : AppendRequest} (hsent : Packet.appendRequest f request ∈ c.network) {i : LogIndex}
    {e : LogEntry} (he : (c.nodes f).log.get i = some e) (hterm : e.term = request.term) :
    ((c.nodes f).handleAppendEntries request none).1.log.get i = some e := by
  by_cases haccepts : (c.nodes f).Accepts request
  swap
  · rwa [((c.nodes f).handleAppendEntries_of_not_accepts none haccepts).2.1]
  obtain ⟨-, -, k, hslice⟩ := h.request f request hsent
  have hbase := (h.mergeEntries hslice haccepts none).1
  have hpos : 0 < i := by
    rw [Nat.pos_iff_ne_zero]
    rintro rfl
    simp [RaftLog.get] at he
  rw [RaftLog.get_of_base (h.base f) hpos, ← h.log f] at he
  -- up to the entry the log is the history of its term
  have hhist := h.consistent.log_matches f _ e he
  rw [hterm] at hhist
  have hkept := h.prefix_mergeEntries hslice haccepts hhist (List.take_prefix _ (A.log f))
  rw [((c.nodes f).handleAppendEntries_of_accepts none haccepts).2.2.1,
    RaftLog.get_of_base hbase hpos]
  refine getElem?_of_isPrefix hkept ?_
  rwa [List.getElem?_take_of_lt (Nat.lt_succ_self _)]

/-- A request that the log already has in full changes nothing. -/
lemma Simulated.handleAppendEntries_log (h : Simulated A c) {f : NodeId}
    {request : AppendRequest} {i : ℕ} (hslice : SliceOf (A.hist request.term) i request)
    (hlog : (A.hist request.term).take i <+: A.log f) :
    ((c.nodes f).handleAppendEntries request none).1.log = (c.nodes f).log := by
  by_cases haccepts : (c.nodes f).Accepts request
  swap
  · exact ((c.nodes f).handleAppendEntries_of_not_accepts none haccepts).2.1
  rw [((c.nodes f).handleAppendEntries_of_accepts none haccepts).2.2.1]
  apply RaftNode.mergeEntries_of_present
  intro e he
  rw [hslice.entries] at he
  obtain ⟨j, hj⟩ := List.getElem?_of_mem he
  rw [List.getElem?_drop] at hj
  have hindex := (h.consistent.hist_ok _ _ _
    (getElem?_of_isPrefix (List.take_prefix _ _) hj)).1
  rw [RaftLog.get_of_base (h.base f) (by lia), ← h.log f, hindex, Nat.add_sub_cancel]
  exact getElem?_of_isPrefix hlog hj

end

/-! ### Whole runs -/

variable [Crc32] [ConfigJson]

/-- One event that leaves the node in its term leaves in its log what it has of the history of the
term. -/
lemma Traced.prefix_log_snoc {T : Topology} {es : List Event} (h : Traced T es) {e : Event}
    (hplain : Plain (after T es) e) {f : NodeId} {L : List LogEntry}
    (hterm : ((after T (es ++ [e])).nodes f).term =
      ((after T es).nodes f).term)
    (hhist : L <+: (ghost T es).hist ((after T es).nodes f).term)
    (hlog : L <+: ((after T es).nodes f).log.entries) :
    L <+: ((after T (es ++ [e])).nodes f).log.entries := by
  obtain ⟨k, call, fault⟩ := e
  obtain ⟨hsnap, rfl : fault = none⟩ := hplain
  rw [after_snoc] at hterm ⊢
  rcases step_cases T (after T es) ⟨k, call, none⟩ with ⟨-, heq⟩ | ⟨henabled, heq⟩
  · rwa [heq]
  rw [heq] at hterm ⊢
  rcases eq_or_ne f k with rfl | hne
  swap
  · rwa [put_nodes_of_ne _ hne]
  rw [put_nodes_self] at hterm ⊢
  have hmove := ((after T es).nodes f).execute_logMove none hsnap
  dsimp only at hterm ⊢
  generalize (((after T es).nodes f).execute none call).1 = n' at *
  -- a log can only lose entries to a request, and this one is of the term of the history
  cases hmove with
  | led own _ _ _ entries =>
    rw [entries]
    exact hlog.trans (List.prefix_append _ _)
  | accepted request hcall haccepts _ term log =>
    subst hcall
    obtain ⟨-, -, i, hslice⟩ := h.simulated.request f request (henabled.2 _ rfl)
    rw [log]
    refine h.simulated.prefix_mergeEntries hslice haccepts ?_ (by rwa [h.simulated.log])
    rwa [← term, hterm]
  | raised _ _ _ log => rwa [log]

lemma ghost_hist_isPrefix (T : Topology) {es es' : List Event}
    (h : Along (step T) Plain (init T) (es ++ es')) (hunique : UniqueLeaders T (es ++ es'))
    (t : Term) : (ghost T es).hist t <+: (ghost T (es ++ es')).hist t := by
  induction es' using List.reverseRecOn with
  | nil => rw [List.append_nil]
  | append_singleton es' e ih =>
    rw [← List.append_assoc] at h hunique ⊢
    obtain ⟨hes, -⟩ := (along_snoc _ _ _ _ _).mp h
    have hunique' := hunique.of_isPrefix (List.prefix_append (es ++ es') [e])
    have htraced := traced T (hes.mono (step T) fun _ _ hp => hp.1) hunique'
    refine (ih hes hunique').trans ?_
    rcases ghost_snoc_cases T (es ++ es') e with ⟨-, hghost⟩ | ⟨henabled, -, hghost⟩
    · rw [hghost]
    · rw [hghost]
      exact htraced.simulated.hist_prefix (fun hr m => htraced.unique hunique henabled hr) t

lemma prefix_log_append (T : Topology) {es es' : List Event}
    (h : Along (step T) Plain (init T) (es ++ es')) (hunique : UniqueLeaders T (es ++ es'))
    {f : NodeId} {t : Term} {L : List LogEntry}
    (hstart : ((after T es).nodes f).term = t)
    (hend : ((after T (es ++ es')).nodes f).term = t)
    (hhist : L <+: (ghost T es).hist t)
    (hlog : L <+: ((after T es).nodes f).log.entries) :
    L <+: ((after T (es ++ es')).nodes f).log.entries := by
  induction es' using List.reverseRecOn with
  | nil => rwa [List.append_nil]
  | append_singleton es' e ih =>
    rw [← List.append_assoc] at h hunique hend ⊢
    obtain ⟨hes, hplain⟩ := (along_snoc _ _ _ _ _).mp h
    have hunique' := hunique.of_isPrefix (List.prefix_append (es ++ es') [e])
    -- terms do not decrease, so the node is in the term in between as well
    have hmid : ((after T (es ++ es')).nodes f).term = t := by
      rw [after_append] at hend
      refine le_antisymm (hend ▸ run_term_le T _ [e] f) ?_
      rw [after_append]
      exact hstart ▸ run_term_le T _ es' f
    have htraced := traced T (hes.mono (step T) fun _ _ hp => hp.1) hunique'
    have hhist' := hhist.trans (ghost_hist_isPrefix T hes hunique' t)
    exact htraced.prefix_log_snoc hplain (hend.trans hmid.symm) (by rwa [hmid])
      (ih hes hunique' hmid)

/-- **Redelivery never rolls back.** Once a node has accepted a request of a term, and while it is
in that term, any request of the term leaves the entries of the term in its log in place, and the
accepted request leaves the whole log unchanged. -/
theorem redelivered_log_kept (T : Topology) {es es' : List Event} {f : NodeId}
    {accepted : AppendRequest}
    (h : Along (step T) Plain (init T) (es ++ [⟨f, .appendEntries accepted, none⟩] ++ es'))
    (hunique : UniqueLeaders T (es ++ [⟨f, .appendEntries accepted, none⟩] ++ es'))
    (henabled : (after T es).Enabled T ⟨f, .appendEntries accepted, none⟩)
    (hsuccess : (((after T es).nodes f).handleAppendEntries accepted
      none).2.success = true)
    (hterm : ((after T
      (es ++ [⟨f, .appendEntries accepted, none⟩] ++ es')).nodes f).term = accepted.term) :
    let c := after T (es ++ [⟨f, .appendEntries accepted, none⟩] ++ es')
    (∀ request, Packet.appendRequest f request ∈ c.network → request.term = accepted.term →
      ∀ i e, (c.nodes f).log.get i = some e → e.term = accepted.term →
        ((c.nodes f).handleAppendEntries request none).1.log.get i = some e) ∧
    ((c.nodes f).handleAppendEntries accepted none).1.log = (c.nodes f).log := by
  intro c
  have htraced {es : List Event} (h : Along (step T) Plain (init T) es)
      (hunique : UniqueLeaders T es) : Traced T es :=
    traced T (h.mono (step T) fun _ _ hplain => hplain.1) hunique
  have hsim := (htraced h hunique).simulated
  constructor
  · exact fun request hmem ht i e he het => hsim.get_handleAppendEntries hmem he (het.trans ht.symm)
  have haccepts : ((after T es).nodes f).Accepts accepted := by
    by_contra hnot
    rw [(((after T es).nodes f).handleAppendEntries_of_not_accepts none
      hnot).1] at hsuccess
    cases hsuccess
  obtain ⟨-, hterm', hlog', -⟩ :=
    ((after T es).nodes f).handleAppendEntries_of_accepts none haccepts
  have hnode : (after T (es ++ [⟨f, .appendEntries accepted, none⟩])).nodes f =
      (((after T es).nodes f).handleAppendEntries accepted none).1 := by
    rw [after_snoc, step, if_pos henabled]
    exact put_nodes_self _ _ _ _
  -- right after it was accepted, the log has the history up to the end of the request
  have hfirst : es ++ [⟨f, .appendEntries accepted, none⟩] <+:
      es ++ [⟨f, .appendEntries accepted, none⟩] ++ es' := List.prefix_append _ _
  have hbefore := (List.prefix_append es [⟨f, .appendEntries accepted, none⟩]).trans hfirst
  have hsim₀ := (htraced (h.of_isPrefix (step T) hbefore)
    (hunique.of_isPrefix hbefore)).simulated
  obtain ⟨-, -, i, hslice⟩ := hsim₀.request f accepted (henabled.2 _ rfl)
  have hgrows := ghost_hist_isPrefix T (h.of_isPrefix (step T) hfirst)
    (hunique.of_isPrefix hfirst) accepted.term
  have hkept := prefix_log_append T h hunique (by rw [hnode, hterm']) hterm
    ((List.take_prefix i _).trans hgrows) (by
      rw [hnode, hlog']
      exact hsim₀.take_prefix_mergeEntries hslice haccepts)
  have hgrows' := hgrows.trans (ghost_hist_isPrefix T h hunique accepted.term)
  apply hsim.handleAppendEntries_log (hslice.mono hgrows')
  obtain ⟨rest, heq⟩ := hgrows'
  rw [← heq, List.take_append_of_le_length hslice.le_length, hsim.log]
  exact hkept

end Cluster

/-! ### A run -/

namespace Cluster

open scoped Runs

/-- The request that brings the no-op. -/
def noopRequest : AppendRequest := ⟨1, 1, 0, 0, [⟨1, 1, [], .noop⟩], 0⟩

/-- The leader goes on, and node 2 takes over the next entry too. -/
def secondEntry : List Event :=
  [⟨1, .propose [7], none⟩, ⟨1, .createAppendRequests, none⟩,
    ⟨2, .appendEntries ⟨1, 1, 0, 0, [⟨1, 1, [], .noop⟩, ⟨2, 1, [7], .normal⟩], 0⟩, none⟩]

/-- The first request, delivered again, does not cut off the second entry. -/
theorem redelivered_log_kept_secondEntry :
    let c := after .three
      (electionAndRequests ++ [⟨2, .appendEntries noopRequest, none⟩] ++ secondEntry)
    (c.nodes 2).log.entries = [⟨1, 1, [], .noop⟩, ⟨2, 1, [7], .normal⟩] ∧
      ((c.nodes 2).handleAppendEntries noopRequest none).1.log = (c.nodes 2).log := by
  have hplain : Along (step .three) Plain (init .three)
      (electionAndRequests ++ [⟨2, .appendEntries noopRequest, none⟩] ++ secondEntry) := by
    decide +kernel
  have hunique : UniqueLeaders .three
      (electionAndRequests ++ [⟨2, .appendEntries noopRequest, none⟩] ++ secondEntry) :=
    uniqueLeaders .three (by decide +kernel)
  exact ⟨by decide +kernel, (redelivered_log_kept .three hplain hunique (by decide +kernel)
    (by decide +kernel) (by decide +kernel)).2⟩

end Cluster

end Raftrust.Consensus

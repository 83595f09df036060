import Raftrust.Consensus.ElectionSafety
import Raftrust.Consensus.Simulation

/-!
# Log matching

In runs without snapshots in which at most one node leads a term, the nodes and their requests stay
related to the abstract state: what a node has is what the leaders of its entries' terms had.
-/

namespace Raftrust.Consensus

open Lib Storage Function

/-! ### Requests as slices of the leader's log -/

/-- The request carries what a log had between `prevLogIndex` and `k`. -/
structure SliceOf (H : List LogEntry) (k : ℕ) (request : AppendRequest) : Prop where
  le_length : k ≤ H.length
  entries : request.entries = (H.take k).drop request.prevLogIndex
  prevLogTerm : 0 < request.prevLogIndex → request.prevLogTerm =
    (((H.take k)[request.prevLogIndex - 1]?).map LogEntry.term).getD 0

lemma SliceOf.mono {H H' : List LogEntry} {k : ℕ} {request : AppendRequest}
    (h : SliceOf H k request) (hp : H <+: H') : SliceOf H' k request := by
  have htake : H'.take k = H.take k := by
    obtain ⟨rest, rfl⟩ := hp
    rw [List.take_append_of_le_length h.le_length]
  exact ⟨h.le_length.trans hp.length_le, by rw [htake, h.entries],
    by rw [htake]; exact h.prevLogTerm⟩

lemma RaftNode.sliceOf_appendRequestFor (n : RaftNode) (leader : LeaderState) (peer : NodeId)
    (hbase : n.log.snapshotIndex = 0) :
    SliceOf n.log.entries n.log.entries.length (n.appendRequestFor leader peer) where
  le_length := le_rfl
  entries := by
    rw [List.take_length]
    exact RaftLog.entriesFrom_of_base hbase _
  prevLogTerm := by
    intro hpos
    rw [List.take_length, ← RaftLog.termAt_of_base hbase hpos]
    rfl

/-! ### The simulation -/

namespace Cluster

/-- What every append request in the network is: part of the history of its term. -/
def RequestOf (A : Ghost) (target : NodeId) (request : AppendRequest) : Prop :=
  A.leader request.term = some request.leaderId ∧ target ≠ request.leaderId ∧
    ∃ k, SliceOf (A.hist request.term) k request

/-- The cluster is in the abstract state `A`. -/
structure Simulated (A : Ghost) (c : Cluster) : Prop where
  consistent : A.Consistent LogEntry.term EntryAt
  cur : ∀ n, A.cur n = (c.nodes n).term
  log : ∀ n, A.log n = (c.nodes n).log.entries
  base : ∀ n, (c.nodes n).log.snapshotIndex = 0
  leader : ∀ n, (c.nodes n).state.role = .leader → A.leader (c.nodes n).term = some n
  request : ∀ target request, Packet.appendRequest target request ∈ c.network →
    RequestOf A target request

lemma Simulated.init (T : Topology) : Simulated Replication.init (init T) where
  consistent := Replication.Consistent.init
  cur := fun _ => rfl
  log := fun _ => rfl
  base := fun _ => rfl
  leader := by simp [Cluster.init, freshNode]
  request := by simp [Cluster.init]

variable {A A' : Ghost} {c : Cluster}

lemma Simulated.contiguous (h : Simulated A c) (n : NodeId) : (c.nodes n).log.Contiguous := by
  intro j e he
  rw [← h.log n] at he
  have := (h.consistent.log_ok he).1
  rw [h.base n]
  lia

lemma Simulated.lastIndex (h : Simulated A c) (n : NodeId) :
    (c.nodes n).log.lastIndex = (A.log n).length := by
  rw [(h.contiguous n).lastIndex_eq, h.base n, h.log n, Nat.zero_add]

/-- What has to be checked when node `k` becomes `n'`, sends `sent`, and the abstract state
becomes `A'`. -/
lemma Simulated.put (h : Simulated A c) {k : NodeId} {n' : RaftNode} {sent : List Packet}
    (hcons : A'.Consistent LogEntry.term EntryAt)
    (hleader : ∀ t m, A.leader t = some m → A'.leader t = some m)
    (hhist : ∀ t, A.hist t <+: A'.hist t)
    (hcur : A'.cur = update A.cur k n'.term) (hlog : A'.log = update A.log k n'.log.entries)
    (hbase : n'.log.snapshotIndex = 0)
    (hself : n'.state.role = .leader → A'.leader n'.term = some k)
    (hsent : ∀ target request, Packet.appendRequest target request ∈ sent →
      RequestOf A' target request) : Simulated A' (c.put k n' sent) where
  consistent := hcons
  cur := by
    intro m
    rcases eq_or_ne m k with rfl | hm
    · rw [put_nodes_self, hcur, update_self]
    · rw [put_nodes_of_ne c hm, hcur, update_of_ne hm, h.cur]
  log := by
    intro m
    rcases eq_or_ne m k with rfl | hm
    · rw [put_nodes_self, hlog, update_self]
    · rw [put_nodes_of_ne c hm, hlog, update_of_ne hm, h.log]
  base := by
    intro m
    rcases eq_or_ne m k with rfl | hm
    · rwa [put_nodes_self]
    · rw [put_nodes_of_ne c hm, h.base]
  leader := by
    intro m hm
    rcases eq_or_ne m k with rfl | hne
    · rw [put_nodes_self] at hm ⊢
      exact hself hm
    · rw [put_nodes_of_ne c hne] at hm ⊢
      exact hleader _ _ (h.leader m hm)
  request := by
    intro target request hmem
    rcases mem_network_put.mp hmem with hmem | hmem
    · obtain ⟨hl, hne, i, hslice⟩ := h.request target request hmem
      exact ⟨hleader _ _ hl, hne, i, hslice.mono (hhist _)⟩
    · exact hsent target request hmem

/-! ### Leading -/

/-- A term that nobody else leads is led by nobody or by the node itself. -/
lemma Simulated.leader_cases (h : Simulated A c) {k : NodeId}
    (hunique : ∀ m, A.leader (c.nodes k).term = some m → m = k) :
    A.leader (A.cur k) = none ∨ A.leader (A.cur k) = some k := by
  cases hl : A.leader (A.cur k) with
  | none => exact .inl rfl
  | some m =>
    rw [h.cur k] at hl
    rw [hunique m hl]
    exact .inr rfl

/-- What a leader appends is of its term and stands at the position it is numbered for. -/
lemma Simulated.own_entries (h : Simulated A c) {k : NodeId} {es : List LogEntry}
    (hpos : 1 ≤ (c.nodes k).term)
    (hown : es = [] ∨ ∃ data ty,
      es = [⟨(c.nodes k).log.lastIndex + 1, (c.nodes k).term, data, ty⟩]) :
    (∀ e ∈ es, e.term = A.cur k) ∧
      ∀ i e, es[i]? = some e → EntryAt ((A.log k).length + i) e := by
  rcases hown with rfl | ⟨data, ty, rfl⟩
  · simp
  · refine ⟨by simp [h.cur k], fun i e he => ?_⟩
    cases i with
    | zero =>
      obtain rfl : _ = e := by simpa using he
      exact ⟨by rw [h.lastIndex k, Nat.add_zero], hpos⟩
    | succ i => simp at he

/-! ### Accepted requests -/

/-- A request that passes the consistency check starts where the two logs still agree. -/
lemma Simulated.take_prev (h : Simulated A c) {f : NodeId} {request : AppendRequest} {i : ℕ}
    (hslice : SliceOf (A.hist request.term) i request)
    (haccepts : (c.nodes f).Accepts request) :
    request.prevLogIndex ≤ i ∧ request.prevLogIndex ≤ (A.log f).length ∧
      (A.log f).take request.prevLogIndex = (A.hist request.term).take request.prevLogIndex := by
  rcases Nat.eq_zero_or_pos request.prevLogIndex with h0 | hpos
  · simp [h0]
  have hmatch := haccepts.2.resolve_left hpos.ne'
  rw [RaftLog.matchTerm, RaftLog.termAt_of_base (h.base f) hpos, ← h.log f, beq_iff_eq,
    Option.map_eq_some_iff] at hmatch
  obtain ⟨e, he, hterm⟩ := hmatch
  -- the entry has a term after the initial one, so the leader had an entry there too
  have hterm' := hslice.prevLogTerm hpos
  have hone : 1 ≤ e.term := (h.consistent.log_ok he).2
  cases hH : ((A.hist request.term).take i)[request.prevLogIndex - 1]? with
  | none =>
    rw [hH, Option.map_none, Option.getD_none] at hterm'
    lia
  | some e' =>
    rw [hH, Option.map_some, Option.getD_some] at hterm'
    have hlt := (List.getElem?_eq_some_iff.mp hH).1
    have hlt' := (List.getElem?_eq_some_iff.mp he).1
    rw [List.length_take] at hlt
    have hH' : (A.hist request.term)[request.prevLogIndex - 1]? = some e' := by
      rwa [List.getElem?_take_of_lt (by lia)] at hH
    have heq := (h.consistent.log_matches f).take_eq (h.consistent.wf.self request.term) he hH'
      (hterm.trans hterm')
    rw [Nat.sub_add_cancel hpos] at heq
    exact ⟨by lia, by lia, heq⟩

variable [Crc32]

/-- After an accepted request the log is what it was, with everything the request carries in it,
or the leader's log up to the end of the request; when the write fails it may be shorter. -/
lemma Simulated.mergeEntries (h : Simulated A c) {f : NodeId} {request : AppendRequest} {i : ℕ}
    (hslice : SliceOf (A.hist request.term) i request)
    (haccepts : (c.nodes f).Accepts request) (fault : Option WalFault) :
    let log' := RaftNode.mergeEntries (c.nodes f).log request.entries fault
    log'.snapshotIndex = 0 ∧
      (((A.hist request.term).take i <+: A.log f ∧ log'.entries = A.log f) ∨
        (¬ (A.hist request.term).take i <+: A.log f ∧
          log'.entries = (A.hist request.term).take i) ∨
        (fault ≠ none ∧ log'.entries <+: A.log f)) := by
  obtain ⟨hi, hlen, htake⟩ := h.take_prev hslice haccepts
  have hnum : NumberedFrom request.prevLogIndex request.entries := by
    intro j e he
    rw [hslice.entries, List.getElem?_drop] at he
    have hidx := h.consistent.hist_ok _ _ _ (getElem?_of_isPrefix (List.take_prefix _ _) he)
    have := hidx.1
    lia
  have hmerge := RaftNode.mergeEntries_entries (c.nodes f).log hnum
    (by rw [h.base f]; exact Nat.zero_le _) (by rwa [h.base f, Nat.zero_add, ← h.log f]) fault
  rw [h.base f, Nat.sub_zero, ← h.log f] at hmerge
  refine ⟨hmerge.1, ?_⟩
  rcases hmerge.2 with heq | hfault
  -- the slice lies inside the log already, or the splice ends with it
  · rcases splice_history (h.consistent.log_matches f) h.consistent.wf htake hi with
      ⟨hp, hS⟩ | ⟨hp, hS⟩
    · exact .inl ⟨hp, heq.trans (by rw [hslice.entries, hS])⟩
    · exact .inr (.inl ⟨hp, heq.trans (by rw [hslice.entries, hS])⟩)
  · exact .inr (.inr hfault)

/-! ### One call -/

variable [ConfigJson]

/-- An append request is sent by a leader, and its entries are a slice of the leader's log. -/
lemma Simulated.appendRequest_of_sent (h : Simulated A c) {T : Topology} {k : NodeId}
    (hk : k ∈ T.members) (hconfig : (c.nodes k).config = { id := k, peers := T.peers k })
    (call : Call) (fault : Option WalFault) (target : NodeId) (request : AppendRequest)
    (hmem : Packet.appendRequest target request ∈ ((c.nodes k).execute fault call).2) :
    ((c.nodes k).execute fault call).1.state.role = .leader ∧ request.term = (c.nodes k).term ∧
      request.leaderId = k ∧ target ≠ k ∧
        SliceOf (c.nodes k).log.entries (c.nodes k).log.entries.length request := by
  obtain ⟨hsame, hrole, hpeer, leader, -, rfl⟩ := (c.nodes k).appendRequest_of_sent fault hmem
  rw [hconfig] at hpeer
  refine ⟨by rw [hsame, hrole], rfl, by rw [RaftNode.appendRequestFor, hconfig], ?_,
    (c.nodes k).sliceOf_appendRequestFor leader target (h.base k)⟩
  exact ((T.mem_peers k hk target).mp hpeer).2

lemma Simulated.execute (h : Simulated A c) {T : Topology} {k : NodeId} (hk : k ∈ T.members)
    (hconfig : (c.nodes k).config = { id := k, peers := T.peers k }) {call : Call}
    (hpacket : ∀ p ∈ call.packet k, p ∈ c.network) (fault : Option WalFault)
    (hsnap : call.isSnapshot = false)
    (hpos : ((c.nodes k).execute fault call).1.state.role = .leader → 1 ≤ (c.nodes k).term)
    (hunique : ((c.nodes k).execute fault call).1.state.role = .leader →
      ∀ m, A.leader (c.nodes k).term = some m → m = k) :
    Simulated (ghostStep A k call (c.nodes k) ((c.nodes k).execute fault call).1)
      (c.put k ((c.nodes k).execute fault call).1 ((c.nodes k).execute fault call).2) := by
  have hsent := h.appendRequest_of_sent hk hconfig call fault
  have hmove := (c.nodes k).execute_logMove fault hsnap
  generalize ((c.nodes k).execute fault call).1 = n' at *
  cases hmove with
  -- it leads: what is new in its log is new in the history of its term
  | led es role term base entries own _ =>
    have hlead := h.leader_cases (hunique role)
    obtain ⟨hes, hok⟩ := h.own_entries (hpos role) own
    rw [ghostStep_of_leader A k role entries]
    refine h.put (h.consistent.lead hlead hes hok) ?_ (h.consistent.hist_prefix_lead hlead es) ?_ ?_
      (base.trans (h.base k)) ?_ ?_
    · intro t m hm
      exact Replication.lead_leader_of_eq_some (fun m hm => hunique role m (h.cur k ▸ hm)) hm
    · rw [term, ← h.cur k, update_eq_self]
      rfl
    · rw [entries, ← h.log k]
      rfl
    · rw [term, ← h.cur k]
      simp
    · intro target request hmem
      obtain ⟨-, hterm, hid, hne, hslice⟩ := hsent target request hmem
      rw [← h.cur k] at hterm
      refine ⟨by simp [hterm, hid], by rwa [hid], (c.nodes k).log.entries.length, ?_⟩
      rw [hterm, Replication.lead_hist_self, h.log k]
      exact hslice.mono (List.prefix_append _ _)
  -- it has adopted a slice of a leader's history
  | accepted request hcall haccepts role term log =>
    subst hcall
    obtain ⟨hl, hne, i, hslice⟩ := h.request k request (hpacket _ rfl)
    obtain ⟨hbase, hentries⟩ := h.mergeEntries hslice haccepts fault
    rw [← log] at hbase hentries
    rw [ghostStep_of_accepts A k role haccepts, term]
    refine h.put (h.consistent.adopt ?_ ?_ ?_) (fun _ _ hm => hm) (fun _ => List.prefix_rfl)
      (by rw [term]; rfl) rfl hbase (by simp [role]) ?_
    · rw [h.cur k]
      exact haccepts.1
    · rw [hl]
      exact fun heq => hne (Option.some.inj heq).symm
    · rcases hentries with ⟨-, heq⟩ | ⟨-, heq⟩ | ⟨-, hp⟩
      · exact .inl (by rw [heq])
      · exact .inr (by rw [heq]; exact List.take_prefix _ _)
      · exact .inl hp
    · intro target request' hmem
      simpa [role] using (hsent target request' hmem).1
  -- its log stays, and its term may have grown
  | raised role term rejects log =>
    rw [ghostStep_of_rejects A k role rejects]
    refine h.put (h.consistent.raise ?_) (fun _ _ hm => hm) (fun _ => List.prefix_rfl) rfl ?_ ?_
      (fun hr => absurd hr role) ?_
    · rw [h.cur k]
      exact term
    · rw [log, ← h.log k, update_eq_self]
      rfl
    · rw [log]
      exact h.base k
    · intro target request hmem
      exact absurd (hsent target request hmem).1 role

/-! ### Whole runs -/

/-- The cluster is in the abstract state of the run, and the history of every term that was led is
a log its leader held while it led. -/
structure Traced (T : Topology) (es : List Event) : Prop where
  simulated : Simulated (ghost T es) (after T es)
  led : ∀ t m, (ghost T es).leader t = some m → ∃ es', es' <+: es ∧
    (after T es').LeadsIn m t ∧
    ((after T es').nodes m).log.entries = (ghost T es).hist t

omit [Crc32] [ConfigJson] in
/-- The leaders of the abstract state after a call: as before, or the node that leads now. -/
lemma ghostStep_leader {k : NodeId} {call : Call} {n n' : RaftNode} {t : Term} {m : NodeId}
    (h : (ghostStep A k call n n').leader t = some m) :
    (A.leader t = some m ∧ (ghostStep A k call n n').hist t = A.hist t) ∨
      (n'.state.role = .leader ∧ t = A.cur k ∧ m = k) := by
  unfold ghostStep at h ⊢
  split at h
  · next hrole =>
    rw [if_pos hrole]
    rcases eq_or_ne t (A.cur k) with rfl | ht
    · exact .inr ⟨hrole, rfl, by simpa [eq_comm] using h⟩
    · rw [Replication.lead_leader_of_ne ht] at h
      exact .inl ⟨h, Replication.lead_hist_of_ne ht⟩
  · next hrole =>
    rw [if_neg hrole]
    split at h
    · next hacc =>
      rw [if_pos hacc]
      exact .inl ⟨h, rfl⟩
    · next hacc =>
      rw [if_neg hacc]
      exact .inl ⟨h, rfl⟩

/-- A node that leads after a call leads the term it was in before. -/
lemma leadsIn_snoc {T : Topology} {es : List Event} {e : Event}
    (henabled : (after T es).Enabled T e)
    (hrole : (((after T es).nodes e.node).execute e.fault
      e.call).1.state.role = .leader) :
    (after T (es ++ [e])).LeadsIn e.node
      ((after T es).nodes e.node).term := by
  rw [after_snoc, step, if_pos henabled]
  refine ⟨by rwa [put_nodes_self], ?_⟩
  rw [put_nodes_self]
  exact ((RaftNode.execute_roleEffect _ _ _).leader_cases hrole).1

/-- Where only one node ever leads a term, a node that leads is the leader in the abstract state. -/
lemma Traced.unique {T : Topology} {es : List Event} (h : Traced T es) {e : Event}
    (hunique : UniqueLeaders T (es ++ [e])) (henabled : (after T es).Enabled T e)
    (hrole : (((after T es).nodes e.node).execute e.fault
      e.call).1.state.role = .leader) {m : NodeId}
    (hm : (ghost T es).leader ((after T es).nodes e.node).term = some m) :
    m = e.node := by
  obtain ⟨es', hp, hlead, -⟩ := h.led _ m hm
  exact hunique es' _ (hp.trans (List.prefix_append _ _)) List.prefix_rfl _ _ _ hlead
    (leadsIn_snoc henabled hrole)

lemma Traced.snoc {T : Topology} {es : List Event} (h : Traced T es) {e : Event}
    (hsnap : e.call.isSnapshot = false) (hunique : UniqueLeaders T (es ++ [e])) :
    Traced T (es ++ [e]) := by
  have hprefix : es <+: es ++ [e] := List.prefix_append _ _
  rcases ghost_snoc_cases T es e with ⟨heq, hghost⟩ | ⟨henabled, heq, hghost⟩
  · constructor
    · rw [heq, hghost]
      exact h.simulated
    · rw [hghost]
      intro t m hm
      obtain ⟨es', hp, hrest⟩ := h.led t m hm
      exact ⟨es', hp.trans hprefix, hrest⟩
  have hsim : Simulated (ghost T (es ++ [e])) (after T (es ++ [e])) := by
    rw [heq, hghost]
    refine h.simulated.execute henabled.1 (run_config T es e.node) henabled.2 e.fault hsnap ?_
      fun hr m => h.unique hunique henabled hr
    intro hr
    obtain ⟨hrole, ht⟩ := leadsIn_snoc henabled hr
    rw [← ht]
    exact (positiveTerms T (es ++ [e])).leader _ hrole
  refine ⟨hsim, fun t m hm => ?_⟩
  rw [hghost] at hm
  rcases ghostStep_leader hm with ⟨hold, hhist⟩ | ⟨hrole, rfl, rfl⟩
  · obtain ⟨es', hp, hlead, hlog⟩ := h.led t m hold
    exact ⟨es', hp.trans hprefix, hlead, by rw [hlog, hghost, hhist]⟩
  · -- the node that leads now holds the history of its term
    have hnow := leadsIn_snoc henabled hrole
    rw [h.simulated.cur]
    refine ⟨es ++ [e], List.prefix_rfl, hnow, ?_⟩
    have hlead := hsim.leader _ hnow.1
    rw [← hsim.log, hsim.consistent.leader_log _ _ hlead (hsim.cur _), hnow.2]

lemma traced (T : Topology) {es : List Event}
    (h : Along (step T) (fun _ e => e.call.isSnapshot = false) (init T) es)
    (hunique : UniqueLeaders T es) : Traced T es := by
  refine run_invariant (step T) (fun es => UniqueLeaders T es → Traced T es) ?_ ?_ h hunique
  · intro _
    exact ⟨Simulated.init T, by simp [ghost, Replication.init]⟩
  · intro es e _ ih hsnap hunique
    exact (ih (hunique.of_isPrefix (List.prefix_append _ _))).snoc hsnap hunique

/-- **Log matching.** Without snapshots and with at most one leader for each term, two logs that
both hold an entry with the same index and term are the same up to that index; in every log the
entries are numbered by position, and their terms never decrease and never exceed the node's. -/
theorem logs_match (T : Topology) (es : List Event)
    (h : Along (step T) (fun _ e => e.call.isSnapshot = false) (init T) es)
    (hunique : UniqueLeaders T es) :
    let c := after T es
    (∀ n m, ∀ e ∈ (c.nodes n).log.entries, ∀ e' ∈ (c.nodes m).log.entries,
      e.index = e'.index → e.term = e'.term → ∀ i, 1 ≤ i → i ≤ e.index →
        ∃ x, (c.nodes n).log.get i = some x ∧ (c.nodes m).log.get i = some x) ∧
    ∀ n, (∀ (i : ℕ) (e : LogEntry), (c.nodes n).log.entries[i]? = some e → e.index = i + 1) ∧
      (∀ (i j : ℕ) (e e' : LogEntry), i ≤ j → (c.nodes n).log.entries[i]? = some e →
        (c.nodes n).log.entries[j]? = some e' → e.term ≤ e'.term) ∧
      ∀ e ∈ (c.nodes n).log.entries, e.term ≤ (c.nodes n).term := by
  intro c
  have hsim := (traced T h hunique).simulated
  have hcons := hsim.consistent
  refine ⟨?_, fun n => ⟨?_, ?_, ?_⟩⟩
  · intro n m e he e' he' hindex hterm i hi hle
    obtain ⟨j, hj⟩ := List.getElem?_of_mem he
    obtain ⟨j', hj'⟩ := List.getElem?_of_mem he'
    rw [← hsim.log] at hj hj'
    have hidx := (hcons.log_ok hj).1
    have hidx' := (hcons.log_ok hj').1
    obtain rfl : j = j' := by lia
    have htake := (hcons.log_matches n).take_eq (hcons.log_matches m) hj hj' hterm
    -- position `i - 1` lies in the common part
    have hlt := (List.getElem?_eq_some_iff.mp hj).1
    have hlt' : i - 1 < ((ghost T es).log n).length := by lia
    refine ⟨((ghost T es).log n)[i - 1], ?_, ?_⟩
    · rw [RaftLog.get_of_base (hsim.base n) hi, ← hsim.log]
      exact List.getElem?_eq_getElem hlt'
    · rw [RaftLog.get_of_base (hsim.base m) hi, ← hsim.log]
      have hpos : i - 1 < j + 1 := by lia
      rw [← List.getElem?_take_of_lt hpos, ← htake, List.getElem?_take_of_lt hpos]
      exact List.getElem?_eq_getElem hlt'
  · intro i e he
    rw [← hsim.log] at he
    exact (hcons.log_ok he).1
  · intro i j e e' hij he he'
    rw [← hsim.log] at he he'
    exact (hcons.log_matches n).term_mono hcons.wf hij he he'
  · intro e he
    rw [← hsim.log] at he
    exact hsim.cur n ▸ hcons.term_le n e he

end Cluster

/-! ### A run -/

namespace Cluster

open scoped Runs

/-- Node 1 is elected and node 2 takes over its no-op. -/
def plainReplication : List Event :=
  plainElection ++
  [⟨1, .createAppendRequests, none⟩,
    ⟨2, .appendEntries ⟨1, 1, 0, 0, [⟨1, 1, [], .noop⟩], 0⟩, none⟩]

theorem logs_match_plainReplication :
    let c := after .three plainReplication
    Along (step .three) (fun _ e => e.call.isSnapshot = false) (init .three) plainReplication ∧
      UniqueLeaders .three plainReplication ∧
      ∃ x, (c.nodes 1).log.get 1 = some x ∧ (c.nodes 2).log.get 1 = some x := by
  have hsnap : Along (step .three) (fun _ e => e.call.isSnapshot = false) (init .three)
      plainReplication := by
    decide +kernel
  have hunique : UniqueLeaders .three plainReplication := uniqueLeaders .three (by decide +kernel)
  refine ⟨hsnap, hunique, ?_⟩
  exact (logs_match .three _ hsnap hunique).1 1 2 ⟨1, 1, [], .noop⟩ (by decide +kernel)
    ⟨1, 1, [], .noop⟩ (by decide +kernel) rfl rfl 1 le_rfl le_rfl

end Cluster

end Raftrust.Consensus

import Raftrust.Consensus.StateMachineSafety

/-!
# Linearizable reads

A leader answers a read with its commit index, once a majority has acknowledged it. That covers
everything committed before only if the leader has committed an entry of its own term, and if the
acknowledgements were given after the read was registered. The node checks neither.
-/

namespace Raftrust.Consensus

open Lib Storage Function

/-! ### Pending reads -/

namespace ReadIndexState

variable {s : ReadIndexState} {id : ℕ} {r : ReadIndexRequest}

/-- Replacing values one after the other leaves one of them, or what was there before. -/
lemma lookup_foldl_insert (l : List (ℕ × ReadIndexRequest × Bool))
    {m : AList fun _ : ℕ => ReadIndexRequest}
    (h : (l.foldl (fun m p => m.insert p.1 p.2.1) m).lookup id = some r) :
    m.lookup id = some r ∨ ∃ p ∈ l, p.1 = id ∧ p.2.1 = r := by
  induction l generalizing m with
  | nil => exact .inl h
  | cons p l ih =>
    rcases ih h with hm | ⟨q, hq, heq⟩
    · by_cases hid : id = p.1
      · subst hid
        rw [AList.lookup_insert] at hm
        exact .inr ⟨p, List.mem_cons_self, rfl, Option.some.inj hm⟩
      · rw [AList.lookup_insert_ne hid] at hm
        exact .inl hm
    · exact .inr ⟨q, List.mem_cons_of_mem _ hq, heq⟩

/-- A read that is pending after an acknowledgement was pending before, and has at most that
acknowledgement more. -/
lemma lookup_recordAck {p : NodeId} (h : (s.recordAck p).1.pending.lookup id = some r) :
    ∃ r₀, s.pending.lookup id = some r₀ ∧ r.clusterSize = r₀.clusterSize ∧
      r.acks ⊆ insert p r₀.acks := by
  rcases lookup_foldl_insert _ h with hm | ⟨q, hq, rfl, rfl⟩
  · exact ⟨r, hm, rfl, Finset.subset_insert _ _⟩
  · obtain ⟨⟨id, r₀⟩, hmem, rfl⟩ := List.mem_map.mp hq
    exact ⟨r₀, AList.mem_lookup_iff.mpr hmem, rfl, subset_rfl⟩

end ReadIndexState

namespace RaftNode

variable [Crc32] [ConfigJson] (n : RaftNode)

/-- What a call can do to the pending reads. -/
inductive ReadEffect (n : RaftNode) (call : Call) (n' : RaftNode) : Prop where
  | kept (heq : n'.readIndexState = n.readIndexState)
  | cleared (heq : n'.readIndexState = n.readIndexState.clear)
  | registered (readIndex : LogIndex) (clusterSize : ℕ)
      (heq : n'.readIndexState =
        (n.readIndexState.register readIndex n.config.id clusterSize).1)
  | acknowledged (p : NodeId) (hcall : call = .readIndexAck p)
      (heq : n'.readIndexState = (n.readIndexState.recordAck p).1)
  | taken (id : ℕ) (heq : n'.readIndexState = (n.readIndexState.takeConfirmed id).1)

omit [Crc32] [ConfigJson] in
lemma ReadEffect.of_observeTerm {n' : RaftNode} {call : Call} {t : Term}
    (heq : n'.readIndexState = (n.observeTerm t).readIndexState) : ReadEffect n call n' := by
  unfold observeTerm at heq
  split at heq
  · exact .cleared heq
  · exact .kept heq

omit [ConfigJson] in
lemma OwnAppend.readIndexState {m n' : RaftNode} {fault : Option WalFault}
    (h : OwnAppend m fault n') : n'.readIndexState = m.readIndexState := by
  obtain ⟨log, leaderState, rfl⟩ := h.exists_eq
  rfl

lemma ReadEffect.of_quiet (fault : Option WalFault) {call : Call} (h : call.isQuiet = true) :
    ReadEffect n call (n.execute fault call).1 := by
  cases call with
  | createAppendRequests => exact .kept rfl
  | takeCommittedEntries => exact .kept rfl
  | requestReadIndex =>
    simp only [execute, requestReadIndex]
    split
    · exact .kept rfl
    · exact .registered _ _ rfl
  | readIndexAck p => exact .acknowledged p rfl rfl
  | takeReadIndex id => exact .taken id rfl
  | transferLeadership target =>
    simp only [execute, transferLeadership]
    split_ifs <;> exact .kept rfl
  | checkTransferProgress =>
    simp only [execute, checkTransferProgress]
    split
    · exact .kept rfl
    · split_ifs <;> exact .kept rfl
  | checkTransferTimeout expired =>
    simp only [execute, checkTransferTimeout]
    split <;> exact .kept rfl
  | _ => cases h

theorem execute_readEffect (fault : Option WalFault) (call : Call) :
    ReadEffect n call (n.execute fault call).1 := by
  cases n.execute_outcome fault call with
  | kept heq => exact .kept (by rw [heq])
  | preVote heq => exact .kept (by rw [heq]; rfl)
  | election heq => exact .kept (by rw [heq]; rfl)
  | observed t _ heq => exact .of_observeTerm n (by rw [heq])
  | granted request _ heq => exact .of_observeTerm n (by rw [heq]; rfl)
  | counted _ _ _ _ _ _ heq => exact .kept (by rw [heq])
  | elected _ _ heq => exact .kept (by rw [heq]; rfl)
  | followed request _ _ _ heq => exact .of_observeTerm n (by rw [heq]; rfl)
  | acknowledged _ _ _ _ _ _ _ _ _ heq => exact .kept (by rw [heq]; rfl)
  | proposed happend => exact .kept happend.readIndexState
  | reconfigured _ _ happend => exact .kept happend.readIndexState
  | compacted _ _ _ heq => exact .kept (by rw [heq])
  | installed t _ _ _ _ _ _ _ _ heq => exact .of_observeTerm n (by rw [heq]; rfl)
  | quiet hquiet => exact .of_quiet n fault hquiet

end RaftNode

namespace RaftNode

/-- Read `id` is not pending, or it counts against `size` members and only the node itself and
`acked` have acknowledged it. -/
structure CountsOnly (n : RaftNode) (id size : ℕ) (acked : Finset NodeId) : Prop where
  registered : id < n.readIndexState.nextId
  pending : ∀ r, n.readIndexState.pending.lookup id = some r →
    r.clusterSize = size ∧ r.acks ⊆ insert n.config.id acked

variable {n n' : RaftNode} {call : Call} {id size : ℕ} {acked : Finset NodeId}

lemma CountsOnly.of_readEffect (h : n.CountsOnly id size acked) (heffect : ReadEffect n call n')
    (hconfig : n'.config = n.config) {acked' : Finset NodeId} (hsub : acked ⊆ acked')
    (hnew : ∀ p, call = .readIndexAck p → n.readIndexState.pending.lookup id ≠ none → p ∈ acked') :
    n'.CountsOnly id size acked' := by
  have hmono : insert n.config.id acked ⊆ insert n'.config.id acked' := by
    rw [hconfig]
    exact Finset.insert_subset_insert _ hsub
  cases heffect with
  | kept heq =>
    refine ⟨by rw [heq]; exact h.registered, fun r hr => ?_⟩
    obtain ⟨hsize, hacks⟩ := h.pending r (by rwa [heq] at hr)
    exact ⟨hsize, hacks.trans hmono⟩
  | cleared heq =>
    refine ⟨by rw [heq]; exact h.registered, fun r hr => ?_⟩
    rw [heq] at hr
    cases hr
  -- a later read has another id
  | registered readIndex clusterSize heq =>
    rw [ReadIndexState.register] at heq
    refine ⟨by rw [heq]; exact h.registered.trans (Nat.lt_succ_self _), fun r hr => ?_⟩
    rw [heq, AList.lookup_insert_ne h.registered.ne] at hr
    obtain ⟨hsize, hacks⟩ := h.pending r hr
    exact ⟨hsize, hacks.trans hmono⟩
  -- the one case that adds to the acknowledgements
  | acknowledged p hcall heq =>
    refine ⟨by rw [heq]; exact h.registered, fun r hr => ?_⟩
    rw [heq] at hr
    obtain ⟨r₀, hr₀, hsize, hacks⟩ := ReadIndexState.lookup_recordAck hr
    obtain ⟨hsize₀, hacks₀⟩ := h.pending r₀ hr₀
    refine ⟨hsize.trans hsize₀, hacks.trans (Finset.insert_subset ?_ (hacks₀.trans hmono))⟩
    exact Finset.mem_insert_of_mem (hnew p hcall (by simp [hr₀]))
  | taken id' heq =>
    refine ⟨by rw [heq]; exact h.registered, fun r hr => ?_⟩
    rw [heq, ReadIndexState.takeConfirmed] at hr
    by_cases hid : id = id'
    · subst hid
      simp at hr
    · rw [AList.lookup_erase_ne hid] at hr
      obtain ⟨hsize, hacks⟩ := h.pending r hr
      exact ⟨hsize, hacks.trans hmono⟩

/-- A read that is registered has been acknowledged by the node itself. -/
lemma countsOnly_requestReadIndex {index : LogIndex}
    (h : n.requestReadIndex.2 = .ok (id, index)) (acked : Finset NodeId) :
    n.requestReadIndex.1.CountsOnly id n.membership.currentSize acked := by
  unfold requestReadIndex at h ⊢
  split at h
  · cases h
  · next hrole =>
    obtain ⟨rfl, rfl⟩ := Prod.mk.inj (Except.ok.inj h)
    rw [if_neg hrole]
    refine ⟨Nat.lt_succ_self _, fun r hr => ?_⟩
    obtain rfl : _ = r := by simpa [ReadIndexState.register] using hr
    exact ⟨rfl, by simp [ReadIndexRequest.new]⟩

lemma leader_of_requestReadIndex {index : LogIndex} (h : n.requestReadIndex.2 = .ok (id, index)) :
    n.state.role = .leader ∧ index = n.state.commitIndex := by
  unfold requestReadIndex at h
  split at h
  · cases h
  · next hrole => exact ⟨not_not.mp hrole, (Prod.mk.inj (Except.ok.inj h)).2.symm⟩

/-- The entry at the commit index is of the node's current term. -/
def CommittedOwnTerm (n : RaftNode) : Prop :=
  ∃ e, n.log.get n.state.commitIndex = some e ∧ e.term = n.term

instance (n : RaftNode) : Decidable n.CommittedOwnTerm :=
  decidable_of_iff ((n.log.get n.state.commitIndex).any (·.term = n.term) = true) (by
    simp [CommittedOwnTerm, Option.any_eq_true])

/-- A confirmed read has been acknowledged by a majority. -/
lemma CountsOnly.isMajority {members : Finset NodeId} (h : n.CountsOnly id members.card acked)
    (hconfirmed : n.isReadIndexConfirmed id = true) (hself : n.config.id ∈ acked)
    (hsub : acked ⊆ members) : IsMajority members acked := by
  rw [isReadIndexConfirmed, ReadIndexState.isConfirmed, Option.any_eq_true] at hconfirmed
  obtain ⟨r, hr, hquorum⟩ := hconfirmed
  obtain ⟨hsize, hacks⟩ := h.pending r hr
  rw [Finset.insert_eq_of_mem hself] at hacks
  rw [ReadIndexRequest.hasQuorum, decide_eq_true_eq, hsize] at hquorum
  exact ⟨hsub, hquorum.trans (Finset.card_le_card hacks)⟩

end RaftNode

/-! ### Where commit indices come from -/

namespace Cluster

/-- Commit index `i` goes back to a position that was chosen in a term, and the leader of that term
has come at least as far. -/
def Originates (T : Topology) (A : Ghost) (c : Cluster) (i : LogIndex) : Prop :=
  i = 0 ∨ ∃ t j k, A.Chosen LogEntry.term T.members t j ∧ i ≤ j + 1 ∧ A.leader t = some k ∧
    i ≤ (c.nodes k).state.commitIndex

structure CommitsOriginate (T : Topology) (A : Ghost) (c : Cluster) : Prop where
  node : ∀ m, Originates T A c (c.nodes m).state.commitIndex
  request : ∀ target request, Packet.appendRequest target request ∈ c.network →
    Originates T A c request.leaderCommit

lemma CommitsOriginate.init (T : Topology) :
    CommitsOriginate T Replication.init (init T) where
  node := fun _ => .inl rfl
  request := by simp [Cluster.init]

variable {T : Topology} {A A' : Ghost} {c c' : Cluster} {i j : LogIndex}

lemma Originates.of_le (h : Originates T A c i) (hle : j ≤ i) : Originates T A c j := by
  rcases h with rfl | ⟨t, p, k, hchosen, hp, hleader, hk⟩
  · exact .inl (Nat.le_zero.mp hle)
  · exact .inr ⟨t, p, k, hchosen, hle.trans hp, hleader, hle.trans hk⟩

lemma Originates.mono (h : Originates T A c i) (hgrows : A.Grows A')
    (hleader : ∀ t k, A.leader t = some k → A'.leader t = some k)
    (hcommit : ∀ k, (c.nodes k).state.commitIndex ≤ (c'.nodes k).state.commitIndex) :
    Originates T A' c' i := by
  rcases h with rfl | ⟨t, p, k, hchosen, hp, hk, hle⟩
  · exact .inl rfl
  · exact .inr ⟨t, p, k, hgrows.chosen hchosen, hp, hleader t k hk, hle.trans (hcommit k)⟩

variable [Crc32] [ConfigJson]

/-- Whoever has led a term stays its leader in the abstract state. -/
lemma Traced.leader_snoc {es : List Event} (h : Traced T es) {e : Event}
    (hunique : UniqueLeaders T (es ++ [e])) {t : Term} {m : NodeId}
    (hm : (ghost T es).leader t = some m) : (ghost T (es ++ [e])).leader t = some m := by
  rcases ghost_snoc_cases T es e with ⟨-, hghost⟩ | ⟨henabled, -, hghost⟩
  · rwa [hghost]
  rw [hghost, ghostStep]
  split
  · next hrole =>
    refine Replication.lead_leader_of_eq_some (fun m hm => ?_) hm
    rw [h.simulated.cur] at hm
    exact h.unique hunique henabled hrole hm
  · split
    · exact hm
    · exact hm

lemma Backed.commitIndex_le_snoc {es : List Event} {e : Event} (ih : Backed T es)
    (hsnoc : OrderlyRun T (es ++ [e])) (m : NodeId) :
    ((after T es).nodes m).state.commitIndex ≤
      ((after T (es ++ [e])).nodes m).state.commitIndex := by
  obtain ⟨hes, ⟨hsnap, hfault⟩, -⟩ := (along_snoc _ _ _ _ _).mp hsnoc
  obtain ⟨htraced, hends⟩ := simulated_of_orderly T hes
  have hsim' := (simulated_of_orderly T hsnoc).1.simulated
  obtain ⟨k, call, fault⟩ := e
  obtain rfl : fault = none := hfault
  rcases ghost_snoc_cases T es ⟨k, call, none⟩ with ⟨heq, -⟩ | ⟨henabled, heq, hghost⟩
  · rw [heq]
  have hlast := hsim'.lastIndex m
  rw [hsim'.log m, heq] at hlast
  rw [heq]
  rcases eq_or_ne m k with rfl | hm
  swap
  · rw [put_nodes_of_ne _ hm]
  rw [put_nodes_self] at hlast ⊢
  cases RaftNode.execute_commitEffect _ none hsnap with
  | kept hcommit => exact hcommit.ge
  | advanced _ _ _ _ _ hlater => exact hlater.le
  | followed request hcall haccepts hcommit hlater =>
    -- what was committed is still in the log
    obtain ⟨-, hp, hl, hkeep⟩ :=
      htraced.simulated.execute_accepts hends ih.safe henabled.2 hcall haccepts
    have hle : ((after T es).nodes m).term ≤ request.term := haccepts.1
    have hkept := (ih.commits.committed m).adopt ih.safe hle hl hp hkeep
    rw [hcommit]
    refine le_min hlater.le ?_
    rw [hlast]
    by_contra hlt
    obtain ⟨x, hx⟩ := hkept.exists_getElem? (not_le.mp hlt)
    rw [List.getElem?_eq_none le_rfl] at hx
    cases hx

lemma commitsOriginate (T : Topology) {es : List Event}
    (h : OrderlyRun T es) :
    CommitsOriginate T (ghost T es) (after T es) := by
  refine run_invariant (step T)
    (fun es => CommitsOriginate T (ghost T es) (after T es))
    (CommitsOriginate.init T) ?_ h
  intro es e hes ih he
  have hsnoc := (along_snoc _ _ _ _ _).mpr ⟨hes, he⟩
  have hbacked := backed T hes
  have hbacked' := backed T hsnoc
  have hsim' := (simulated_of_orderly T hsnoc).1.simulated
  have hmono : ∀ i, Originates T (ghost T es) (after T es) i →
      Originates T (ghost T (es ++ [e])) (after T (es ++ [e])) i :=
    fun i hi => hi.mono (hbacked.safe_snoc hsnoc).2
      (fun t k => (simulated_of_orderly T hes).1.leader_snoc
        (uniqueLeaders T (hsnoc.mono (step T) fun _ _ h => h.2.2.1)))
      (hbacked.commitIndex_le_snoc hsnoc)
  obtain ⟨⟨hsnap, -⟩, -⟩ := he
  have hconfig' := run_config T (es ++ [e]) e.node
  rcases ghost_snoc_cases T es e with ⟨heq, hghost⟩ | ⟨henabled, heq, hghost⟩
  · rwa [heq, hghost]
  constructor
  · intro m
    rcases eq_or_ne m e.node with rfl | hm
    swap
    · have hsame : ((after T (es ++ [e])).nodes m).state.commitIndex =
          ((after T es).nodes m).state.commitIndex := by
        rw [heq, put_nodes_of_ne _ hm]
      rw [hsame]
      exact hmono _ (ih.node m)
    have hnode : (after T (es ++ [e])).nodes e.node =
        (((after T es).nodes e.node).execute e.fault e.call).1 := by
      rw [heq, put_nodes_self]
    have heffect := ((after T es).nodes e.node).execute_commitEffect e.fault hsnap
    rw [← hnode] at heffect
    cases heffect with
    | kept hcommit =>
      rw [hcommit]
      exact hmono _ (ih.node e.node)
    | followed request hcall haccepts hcommit =>
      have hpacket := henabled.2 (.appendRequest e.node request) (by rw [hcall]; rfl)
      refine (hmono _ (ih.request _ request hpacket)).of_le ?_
      rw [hcommit]
      exact min_le_left _ _
    | advanced leader hrole hleader hq hown =>
      obtain ⟨x, hx, hterm⟩ := hown
      obtain ⟨hpos, hchosen⟩ := hsim'.chosen_of_quorum henabled.1
        (hbacked'.commits.membership e.node) hconfig' hrole
        (fun p i => hbacked'.commits.matched e.node leader p i hrole hleader) hq hx hterm
      exact .inr ⟨_, _, e.node, hchosen, by lia, hsim'.leader e.node hrole, le_rfl⟩
  · intro target request hmem
    rw [heq] at hmem
    rcases mem_network_put.mp hmem with hmem | hmem
    · exact hmono _ (ih.request target request hmem)
    · obtain ⟨-, -, -, leader, -, rfl⟩ := RaftNode.appendRequest_of_sent _ _ hmem
      exact hmono _ (ih.node e.node)

/-! ### Reads along a run -/

/-- Every acknowledgement counted for read `id`, which `r` registered after `es₀`, comes from a node
that has since accepted a request of the term the read was registered in. -/
def FreshAcks (T : Topology) (es₀ : List Event) (r : Event) (es₁ : List Event) (id : ℕ) : Prop :=
  ∀ es₂ a p, es₂ ++ [a] <+: es₁ → a.node = r.node → a.call = .readIndexAck p →
    ((after T (es₀ ++ r :: es₂)).nodes r.node).readIndexState.pending.lookup id ≠
      none →
    ∃ es₃ b request, es₃ ++ [b] <+: es₂ ∧ b.node = p ∧ b.call = .appendEntries request ∧
      request.term = ((after T es₀).nodes r.node).term ∧
      (after T (es₀ ++ r :: es₃)).Enabled T b ∧
      ((after T (es₀ ++ r :: es₃)).nodes p).Accepts request

/-- The members that are not past term `t`. -/
def behind (T : Topology) (c : Cluster) (t : Term) : Finset NodeId :=
  T.members.filter fun p => (c.nodes p).term ≤ t

/-- Who acknowledged a read freshly was not past its term when it was registered. -/
lemma FreshAcks.mem_behind {es₀ es₁ : List Event} {r : Event} {id : ℕ}
    (h : FreshAcks T es₀ r es₁ id) {es₂ : List Event} {a : Event} {p : NodeId}
    (hp : es₂ ++ [a] <+: es₁) (hnode : a.node = r.node) (hcall : a.call = .readIndexAck p)
    (hpending : ((after T (es₀ ++ r :: es₂)).nodes
      r.node).readIndexState.pending.lookup id ≠ none) :
    p ∈ behind T (after T es₀)
      ((after T es₀).nodes r.node).term := by
  obtain ⟨es₃, b, request, -, rfl, -, hterm, henabled, haccepts⟩ :=
    h es₂ a p hp hnode hcall hpending
  refine Finset.mem_filter.mpr ⟨henabled.1, ?_⟩
  rw [← hterm]
  refine le_trans ?_ haccepts.1
  rw [after_append]
  exact run_term_le T _ _ _

lemma countsOnly_behind {es₀ es₁ : List Event} {r : Event} (hmem : r.node ∈ T.members)
    (hcall : r.call = .requestReadIndex) {id : ℕ} {index : LogIndex}
    (hreg : ((after T es₀).nodes r.node).requestReadIndex.2 = .ok (id, index))
    (hfresh : FreshAcks T es₀ r es₁ id) {es₂ : List Event} (hp : es₂ <+: es₁) :
    ((after T (es₀ ++ r :: es₂)).nodes r.node).CountsOnly id
      ((after T es₀).nodes r.node).membership.currentSize
      (behind T (after T es₀)
        ((after T es₀).nodes r.node).term) := by
  -- on what has happened since the registration
  induction es₂ using List.reverseRecOn with
  | nil =>
    have hnode : (after T (es₀ ++ [r])).nodes r.node =
        ((after T es₀).nodes r.node).requestReadIndex.1 := by
      rw [after_snoc, step, if_pos ⟨hmem, by simp [hcall, Call.packet]⟩, put_nodes_self, hcall]
      rfl
    rw [hnode]
    exact RaftNode.countsOnly_requestReadIndex hreg _
  | append_singleton es₂ a ih =>
    have hold := ih ((List.prefix_append _ _).trans hp)
    rw [show es₀ ++ r :: (es₂ ++ [a]) = (es₀ ++ r :: es₂) ++ [a] by simp, after_snoc]
    rcases step_cases T (after T (es₀ ++ r :: es₂)) a with ⟨-, heq⟩ | ⟨-, heq⟩
    · rwa [heq]
    rw [heq]
    by_cases hn : r.node = a.node
    · rw [← hn, put_nodes_self]
      exact hold.of_readEffect (RaftNode.execute_readEffect _ _ _) (RaftNode.execute_config _ _ _)
        subset_rfl fun p hp' hpending => hfresh.mem_behind hp hn.symm hp' hpending
    · rwa [put_nodes_of_ne _ hn]

/-- A leader that has committed an entry of its own term, and that no majority has left behind, has
committed as much as any node. -/
lemma commitIndex_le_of_behind {es : List Event}
    (h : OrderlyRun T es) {n : NodeId}
    (hrole : ((after T es).nodes n).state.role = .leader)
    (hown : ((after T es).nodes n).CommittedOwnTerm)
    (hmajority : IsMajority T.members
      (behind T (after T es) ((after T es).nodes n).term))
    (m : NodeId) : ((after T es).nodes m).state.commitIndex ≤
      ((after T es).nodes n).state.commitIndex := by
  have hsafe := (backed T h).safe
  have hsim := (simulated_of_orderly T h).1.simulated
  rcases (commitsOriginate T h).node m with h0 | ⟨t, i, k, hchosen, hle, hleader, hk⟩
  · rw [h0]
    exact Nat.zero_le _
  have ht : t ≤ ((after T es).nodes n).term := by
    refine hsafe.chosen_term_le hchosen hmajority fun v hv => ?_
    rw [hsim.cur]
    exact (Finset.mem_filter.mp hv).2
  rcases ht.eq_or_lt with rfl | hlt
  · obtain rfl : k = n := Option.some.inj (hleader.symm.trans (hsim.leader n hrole))
    exact hk
  · -- what was chosen before stands before the entry of the leader's own term
    obtain ⟨e, he, hterm⟩ := hown
    have hpos : 0 < ((after T es).nodes n).state.commitIndex := by
      by_contra h0
      rw [Nat.le_zero.mp (not_lt.mp h0)] at he
      simp [RaftLog.get] at he
    rw [RaftLog.get_of_base (hsim.base n) hpos, ← hsim.hist_eq hrole] at he
    have := hsafe.chosen_lt_own hchosen hlt ⟨e, he, hterm⟩
    lia

/-- A read that fresh acknowledgements have confirmed at some moment covers all that had been
committed when it was registered. -/
lemma commitIndex_le_of_confirmed {es₀ es₁ es₂ : List Event} {r : Event}
    (h : OrderlyRun T es₀) (hmem : r.node ∈ T.members)
    (hcall : r.call = .requestReadIndex) {id : ℕ} {index : LogIndex}
    (hreg : ((after T es₀).nodes r.node).requestReadIndex.2 = .ok (id, index))
    (hown : ((after T es₀).nodes r.node).CommittedOwnTerm)
    (hfresh : FreshAcks T es₀ r es₁ id) (hp : es₂ <+: es₁)
    (hconfirmed : ((after T (es₀ ++ r :: es₂)).nodes r.node).isReadIndexConfirmed
      id = true) (m : NodeId) :
    ((after T es₀).nodes m).state.commitIndex ≤ index := by
  obtain ⟨hrole, hindex⟩ := RaftNode.leader_of_requestReadIndex hreg
  -- the acknowledgements are a majority that was not past the leader's term
  have hcounts := countsOnly_behind hmem hcall hreg hfresh hp
  rw [((backed T h).commits.membership r.node).currentSize hmem (run_config T _ _)] at hcounts
  rw [hindex]
  refine commitIndex_le_of_behind h hrole hown (hcounts.isMajority hconfirmed ?_ ?_) m
  · rw [run_config]
    exact Finset.mem_filter.mpr ⟨hmem, le_rfl⟩
  · exact Finset.filter_subset _ _

/-- **Linearizable reads.** In an orderly run, let a leader that has committed an entry of its own
term register a read. If the read is confirmed by acknowledgements that are fresh, it covers
everything that any node had committed when it was registered. -/
theorem committed_le_readIndex (T : Topology) (es₀ es₁ : List Event) (r : Event)
    (h : OrderlyRun T (es₀ ++ r :: es₁)) (hmem : r.node ∈ T.members)
    (hcall : r.call = .requestReadIndex) {id : ℕ} {index : LogIndex}
    (hreg : ((after T es₀).nodes r.node).requestReadIndex.2 = .ok (id, index))
    (hown : ((after T es₀).nodes r.node).CommittedOwnTerm)
    (hfresh : FreshAcks T es₀ r es₁ id)
    (hconfirmed : ((after T (es₀ ++ r :: es₁)).nodes r.node).isReadIndexConfirmed
      id = true) (m : NodeId) :
    ((after T es₀).nodes m).state.commitIndex ≤ index := by
  exact commitIndex_le_of_confirmed (h.of_isPrefix _ (List.prefix_append _ _)) hmem hcall hreg hown
    hfresh List.prefix_rfl hconfirmed m

end Cluster

/-! ### Two runs -/

namespace Cluster

open scoped Runs

/-- Node 1 is elected, replicates its no-op to nodes 2 and 3 and commits it with node 2. -/
def commitByTwo : List Event :=
  plainElection ++
    [⟨1, .createAppendRequests, none⟩,
      ⟨2, .appendEntries ⟨1, 1, 0, 0, [⟨1, 1, [], .noop⟩], 0⟩, none⟩,
      ⟨3, .appendEntries ⟨1, 1, 0, 0, [⟨1, 1, [], .noop⟩], 0⟩, none⟩,
      ⟨1, .readIndexAck 2, none⟩, ⟨1, .appendResponse 2 ⟨1, true, 1⟩, none⟩]

/-- Another round of heartbeats, acknowledged by node 2. -/
def heartbeat : List Event :=
  [⟨1, .createAppendRequests, none⟩, ⟨2, .appendEntries ⟨1, 1, 1, 1, [], 1⟩, none⟩,
    ⟨1, .readIndexAck 2, none⟩]

lemma heartbeat_fresh :
    FreshAcks .three commitByTwo ⟨1, .requestReadIndex, none⟩ heartbeat 1 := by
  intro es₂ a p hp hnode hcall _
  -- only the last of the three events is an acknowledgement
  obtain ⟨rfl, rfl⟩ : es₂ = heartbeat.take 2 ∧ p = 2 := by
    rcases es₂ with _ | ⟨x, _ | ⟨y, _ | ⟨z, rest⟩⟩⟩
    · obtain rfl : a = ⟨1, .createAppendRequests, none⟩ := by simpa [heartbeat] using hp
      cases hcall
    · obtain ⟨-, rfl⟩ : _ ∧ a = ⟨2, .appendEntries ⟨1, 1, 1, 1, [], 1⟩, none⟩ := by
        simpa [heartbeat] using hp
      cases hcall
    · obtain ⟨rfl, rfl, rfl⟩ : x = _ ∧ y = _ ∧ a = ⟨1, .readIndexAck 2, none⟩ := by
        simpa [heartbeat] using hp
      exact ⟨rfl, (Call.readIndexAck.inj hcall).symm⟩
    · simp [heartbeat] at hp
  exact ⟨[⟨1, .createAppendRequests, none⟩], _, ⟨1, 1, 1, 1, [], 1⟩, List.prefix_rfl, rfl, rfl,
    by decide +kernel, by decide +kernel, by decide +kernel⟩

theorem committed_le_readIndex_heartbeat :
    let c := after .three commitByTwo
    let c' := after .three
      (commitByTwo ++ ⟨1, .requestReadIndex, none⟩ :: heartbeat)
    (c.nodes 1).requestReadIndex.2 = .ok (1, 1) ∧ (c'.nodes 1).isReadIndexConfirmed 1 = true ∧
      ∀ m, (c.nodes m).state.commitIndex ≤ 1 := by
  have hreg : ((after .three commitByTwo).nodes 1).requestReadIndex.2 =
      .ok (1, 1) := by decide +kernel
  have hconfirmed : ((after .three
      (commitByTwo ++ ⟨1, .requestReadIndex, none⟩ :: heartbeat)).nodes 1).isReadIndexConfirmed 1 =
        true := by decide +kernel
  exact ⟨hreg, hconfirmed, committed_le_readIndex .three commitByTwo heartbeat
    ⟨1, .requestReadIndex, none⟩ (by decide +kernel) (by decide) rfl hreg (by decide +kernel)
    heartbeat_fresh hconfirmed⟩

/-- After node 1 has committed its no-op, node 2 is elected in term 2 with the vote of node 3. -/
def newLeader : List Event :=
  commitByTwo ++
    [⟨2, .startElection, none⟩, ⟨3, .voteRequest ⟨2, 2, 1, 1, false⟩, none⟩,
      ⟨2, .voteResponse 3 ⟨2, true⟩ false, none⟩]

/-- Node 2 registers a read, and node 3 acknowledges the requests node 2 sends after that. -/
def newLeaderReads : List Event :=
  newLeader ++ ⟨2, .requestReadIndex, none⟩ ::
    [⟨2, .createAppendRequests, none⟩,
      ⟨3, .appendEntries ⟨2, 2, 1, 1, [⟨2, 2, [], .noop⟩], 0⟩, none⟩,
      ⟨2, .readIndexAck 3, none⟩, ⟨2, .appendResponse 3 ⟨2, true, 2⟩, none⟩]

/-- The read is confirmed with read index 0 although node 1 had committed index 1 before. -/
theorem newLeaderReads_stale :
    UniqueLeaders .three newLeaderReads ∧
      Along (step .three) Orderly (init .three) newLeaderReads ∧
      ((after .three newLeader).nodes 2).requestReadIndex.2 = .ok (1, 0) ∧
      ((after .three newLeaderReads).nodes 2).isReadIndexConfirmed 1 = true ∧
      ((after .three newLeader).nodes 1).state.commitIndex = 1 := by
  have horderly : Along (step .three) Orderly (init .three) newLeaderReads := by decide +kernel
  exact ⟨uniqueLeaders .three (horderly.mono _ fun _ _ h => h.2.2.1), horderly, by decide +kernel,
    by decide +kernel, by decide +kernel⟩

end Cluster

end Raftrust.Consensus

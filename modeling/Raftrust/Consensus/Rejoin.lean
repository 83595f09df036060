import Raftrust.Consensus.StateMachineSafety

/-!
# Nodes that come back

A node that has crashed starts again as a follower, with the term and vote it had saved. For the
rest of the cluster this is one more way for a node to move to a later term. What was counted in an
election stays counted, and as long as the node finds the log it had, committed entries stay
committed.
-/

namespace Raftrust.Consensus

open Lib Storage Function

/-- After a crash `n` comes back as `n'`: a follower with the term and vote that were saved. -/
structure RaftNode.Rejoins (n n' : RaftNode) : Prop where
  config : n'.config = n.config
  role : n'.state.role = .follower
  persistent : n.state.persistent.Advances n'.state.persistent

/-- The node comes back with its log, and has to learn anew what is committed. -/
structure RaftNode.Recovers (n n' : RaftNode) : Prop extends Rejoins n n' where
  entries : n'.log.entries = n.log.entries
  snapshotIndex : n'.log.snapshotIndex = 0
  snapshotTerm : n'.log.snapshotTerm = 0
  commitIndex : n'.state.commitIndex = 0
  membership : n'.FixedMembership

namespace Cluster

variable {T : Topology} {voted : VoteRecord} {A : Ghost} {c : Cluster}

/-! ### Votes -/

lemma VotesRecorded.rejoin (h : VotesRecorded T voted c) {k : NodeId} {n' : RaftNode}
    (hn : (c.nodes k).Rejoins n') :
    (voted.vote k n').Extends voted ∧ VotesRecorded T (voted.vote k n') (c.put k n' []) := by
  refine ⟨h.extends_vote hn.persistent, h.put hn.persistent (by simp) ?_ ?_⟩
  · simp [hn.role]
  · simp [hn.role]

/-! ### The log -/

section

variable {k : NodeId} {n' : RaftNode} (hn : (c.nodes k).Recovers n')

include hn

lemma Simulated.cur_le_rejoin (h : Simulated A c) : A.cur k ≤ n'.term := by
  rw [h.cur k]
  exact hn.persistent.term_le

lemma Simulated.rejoin (h : Simulated A c) :
    Simulated (A.raise k n'.term) (c.put k n' []) := by
  refine h.put (h.consistent.raise (h.cur_le_rejoin hn)) (fun _ _ hm => hm)
    (fun _ => List.prefix_rfl) rfl ?_ hn.snapshotIndex (fun hr => ?_) (by simp)
  · rw [hn.entries, ← h.log k, update_eq_self]
    rfl
  · rw [hn.role] at hr
    cases hr

lemma OwnEnds.rejoin (h : OwnEnds A c) : OwnEnds (A.raise k n'.term) (c.put k n' []) where
  leader := by
    intro m hlead
    rcases eq_or_ne m k with rfl | hm
    · rw [put_nodes_self, hn.role] at hlead
      cases hlead
    · rw [put_nodes_of_ne c hm] at hlead ⊢
      exact h.leader m hlead
  request := by
    intro target request hmem
    rw [put, List.append_nil] at hmem
    exact h.request target request hmem

/-- Nobody stands in a term because it comes back. -/
lemma standsIn_of_rejoin {m : NodeId} {t : Term} (h : StandsIn ((c.put k n' []).nodes m) t) :
    StandsIn (c.nodes m) t ∧ (c.put k n' []).nodes m = c.nodes m := by
  rcases eq_or_ne m k with rfl | hm
  · rw [put_nodes_self] at h
    obtain ⟨hrole, -⟩ := h
    rw [hn.role] at hrole
    cases hrole
  · rw [put_nodes_of_ne c hm] at h ⊢
    exact ⟨h, rfl⟩

lemma term_le_rejoin (m : NodeId) : (c.nodes m).term ≤ ((c.put k n' []).nodes m).term := by
  rcases eq_or_ne m k with rfl | hm
  · rw [put_nodes_self]
    exact hn.persistent.term_le
  · rw [put_nodes_of_ne c hm]

lemma VotesCovered.rejoin (h : VotesCovered T A c) (hsim : Simulated A c)
    (hsafe : A.Safe LogEntry.term EntryAt T.members) :
    VotesCovered T (A.raise k n'.term) (c.put k n' []) := by
  have hgrows : A.Grows (A.raise k n'.term) := Replication.grows_raise (hsim.cur_le_rejoin hn)
  refine ⟨fun m => ?_, fun target request hmem hreal => ?_,
    fun target sender response hmem hg => ?_, fun m election hcand helection v hv => ?_⟩
  · rcases eq_or_ne m k with rfl | hm
    · rw [put_nodes_self, hn.snapshotTerm]
    · rw [put_nodes_of_ne c hm, h.base]
  · rw [put, List.append_nil] at hmem
    obtain ⟨hle, hlast⟩ := h.request target request hmem hreal
    refine ⟨hle.trans (term_le_rejoin hn _), fun hstands => ?_⟩
    obtain ⟨hstands', heq⟩ := standsIn_of_rejoin hn hstands
    rw [heq]
    exact hlast hstands'
  · rw [put, List.append_nil] at hmem
    obtain ⟨hle, hcov⟩ := h.granted target sender response hmem hg
    refine ⟨hle.trans (term_le_rejoin hn _), fun hstands => ?_⟩
    exact hgrows.covers hsafe.acc_le (hcov (standsIn_of_rejoin hn hstands).1)
  · obtain ⟨⟨hcand', -⟩, heq⟩ := standsIn_of_rejoin hn ⟨hcand, rfl⟩
    rw [heq] at helection ⊢
    exact hgrows.covers hsafe.acc_le (h.counted m election hcand' helection v hv)

lemma CommitsBacked.rejoin (h : CommitsBacked T A c) (hsim : Simulated A c) :
    CommitsBacked T (A.raise k n'.term) (c.put k n' []) := by
  have hgrows : A.Grows (A.raise k n'.term) := Replication.grows_raise (hsim.cur_le_rejoin hn)
  refine ⟨fun m => ?_, fun target sender response hmem hs => ?_,
    fun m leader p i hrole hleader hp => ?_, fun m => ?_, fun target request hmem => ?_⟩
  · rcases eq_or_ne m k with rfl | hm
    · rw [put_nodes_self]
      exact hn.membership
    · rw [put_nodes_of_ne c hm]
      exact h.membership m
  · rw [put, List.append_nil] at hmem
    exact h.acknowledged target sender response hmem hs
  · rcases eq_or_ne m k with rfl | hm
    · rw [put_nodes_self, hn.role] at hrole
      cases hrole
    · rw [put_nodes_of_ne c hm] at hrole hleader ⊢
      exact h.matched m leader p i hrole hleader hp
  · rcases eq_or_ne m k with rfl | hm
    · rw [put_nodes_self, hn.commitIndex]
      exact .inl rfl
    · rw [put_nodes_of_ne c hm]
      exact (h.committed m).mono hgrows le_rfl (List.take_prefix _ _)
  · rw [put, List.append_nil] at hmem
    obtain ⟨L, hL⟩ := h.request target request hmem
    exact ⟨L, hL.mono hgrows le_rfl (List.take_prefix _ _)⟩

lemma PositiveTerms.rejoin (h : PositiveTerms c) : PositiveTerms (c.put k n' []) where
  leader := by
    intro m hlead
    rcases eq_or_ne m k with rfl | hm
    · rw [put_nodes_self, hn.role] at hlead
      cases hlead
    · rw [put_nodes_of_ne c hm] at hlead ⊢
      exact h.leader m hlead
  voteRequest := by
    intro target request hmem
    rw [put, List.append_nil] at hmem
    exact h.voteRequest target request hmem
  voteResponse := by
    intro target sender response hmem
    rw [put, List.append_nil] at hmem
    exact h.voteResponse target sender response hmem

end

/-! ### All that safety rests on -/

/-- The cluster agrees with a record of votes and with a safe abstract state. -/
structure Sound (T : Topology) (voted : VoteRecord) (A : Ghost) (c : Cluster) : Prop where
  config : ∀ n, (c.nodes n).config = { id := n, peers := T.peers n }
  positive : PositiveTerms c
  votes : VotesRecorded T voted c
  simulated : Simulated A c
  ends : OwnEnds A c
  safe : A.Safe LogEntry.term EntryAt T.members
  covered : VotesCovered T A c
  commits : CommitsBacked T A c
  led : ∀ t m, A.leader t = some m → Elected T voted m t

lemma Sound.init (T : Topology) :
    Sound T (fun _ _ => none) Replication.init (Cluster.init T) where
  config _ := rfl
  positive := ⟨by simp [Cluster.init, freshNode], by simp [Cluster.init], by simp [Cluster.init]⟩
  votes := .init T
  simulated := .init T
  ends := .init T
  safe := .init
  covered := .init T
  commits := .init T
  led := by simp [Replication.init]

/-- Messages may get lost. -/
lemma Sound.of_subset (h : Sound T voted A c) {network : List Packet} (hle : network ⊆ c.network) :
    Sound T voted A { c with network := network } where
  config := h.config
  positive := ⟨h.positive.leader, fun t r hm => h.positive.voteRequest t r (hle hm),
    fun t s r hm => h.positive.voteResponse t s r (hle hm)⟩
  votes := ⟨h.votes.voted_term, h.votes.voted_later,
    fun t s r hm => h.votes.granted t s r (hle hm), h.votes.candidate, h.votes.leader⟩
  simulated := ⟨h.simulated.consistent, h.simulated.cur, h.simulated.log, h.simulated.base,
    h.simulated.leader, fun t r hm => h.simulated.request t r (hle hm)⟩
  ends := ⟨h.ends.leader, fun t r hm => h.ends.request t r (hle hm)⟩
  safe := h.safe
  covered := ⟨h.covered.base, fun t r hm => h.covered.request t r (hle hm),
    fun t s r hm => h.covered.granted t s r (hle hm), h.covered.counted⟩
  commits := ⟨h.commits.membership, fun t s r hm => h.commits.acknowledged t s r (hle hm),
    h.commits.matched, h.commits.committed, fun t r hm => h.commits.request t r (hle hm)⟩
  led := h.led

/-- A node may come back. -/
lemma Sound.rejoin (h : Sound T voted A c) {k : NodeId} {n' : RaftNode}
    (hn : (c.nodes k).Recovers n') :
    ∃ voted' A', A.Grows A' ∧ Sound T voted' A' (c.put k n' []) := by
  obtain ⟨hext, hvotes⟩ := h.votes.rejoin hn.toRejoins
  have hcur := h.simulated.cur_le_rejoin hn
  refine ⟨_, _, Replication.grows_raise hcur, ?config, h.positive.rejoin hn, hvotes,
    h.simulated.rejoin hn, h.ends.rejoin hn, h.safe.raise hcur,
    h.covered.rejoin hn h.simulated h.safe, h.commits.rejoin hn h.simulated, ?led⟩
  case config =>
    intro m
    rcases eq_or_ne m k with rfl | hm
    · rw [put_nodes_self, hn.config, h.config]
    · rw [put_nodes_of_ne c hm, h.config]
  case led => exact fun t m hm => (h.led t m hm).mono hext

section

variable [Crc32] [ConfigJson]

/-- An orderly call. -/
lemma Sound.perform (h : Sound T voted A c) {k : NodeId} {call : Call}
    (henabled : c.Enabled T ⟨k, call, none⟩) (horderly : c.Orderly ⟨k, call, none⟩) :
    ∃ voted' A', A.Grows A' ∧ Sound T voted' A' (c.perform k none call) := by
  obtain ⟨hk, hpacket⟩ := henabled
  obtain ⟨⟨hsnap, -⟩, hmember, hown, hacks⟩ := horderly
  obtain ⟨voted', hext, hvotes⟩ := h.votes.execute hk hpacket none hown (h.config k)
  have hpositive := h.positive.execute hpacket none
  have hterm : ((c.nodes k).execute none call).1.state.role = .leader →
      ((c.nodes k).execute none call).1.term = (c.nodes k).term :=
    fun hr => (((c.nodes k).execute_roleEffect none call).leader_cases hr).1
  -- whoever leads now was elected in its term, and so was whoever led it before
  have helected : ((c.nodes k).execute none call).1.state.role = .leader →
      Elected T voted' k (c.nodes k).term := by
    intro hr
    have := hvotes.leader k
    rw [put_nodes_self, hterm hr] at this
    exact this hr
  have hunique : ((c.nodes k).execute none call).1.state.role = .leader →
      ∀ m, A.leader (c.nodes k).term = some m → m = k :=
    fun hr m hm => ((h.led _ m hm).mono hext).unique (helected hr)
  have hpos : ((c.nodes k).execute none call).1.state.role = .leader →
      1 ≤ (c.nodes k).term := by
    intro hr
    have := hpositive.leader k
    rw [put_nodes_self, hterm hr] at this
    exact this hr
  have hsim := h.simulated.execute hk (h.config k) hpacket none hsnap hpos hunique
  obtain ⟨hsafe, hgrows⟩ := h.simulated.safe_ghostStep h.ends h.safe hpacket hsnap hpos hunique
    (h.covered.elected h.votes hk hpacket hown)
  refine ⟨voted', _, hgrows, ?config, hpositive, hvotes, hsim,
    h.ends.execute h.simulated (h.simulated.hist_prefix hunique) hsnap hsim, hsafe,
    h.covered.perform h.simulated h.safe (h.config k) hpacket hsnap hown hsafe hgrows hsim,
    h.commits.perform h.simulated h.ends h.safe hk (h.config k) hpacket hsnap hmember hacks rfl
      hgrows hsim, ?led⟩
  case config =>
    intro m
    rcases eq_or_ne m k with rfl | hm
    · rw [put_nodes_self, RaftNode.execute_config, h.config]
    · rw [put_nodes_of_ne c hm, h.config]
  case led =>
    intro t m hm
    rcases ghostStep_leader hm with ⟨hold, -⟩ | ⟨hr, rfl, rfl⟩
    · exact (h.led t m hold).mono hext
    · rw [h.simulated.cur]
      exact helected hr

end

end Cluster

end Raftrust.Consensus

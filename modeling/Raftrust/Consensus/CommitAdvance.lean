import Raftrust.Consensus.Progress

/-!
# Exact commitment

A leader tries the match indices it has recorded, the highest first. As it has recorded how far its
own log reaches, the last index that may be committed is among them.
-/

namespace Raftrust.Consensus

open Storage

namespace RaftNode

variable {n : RaftNode} {leader : LeaderState}

/-- The leader may commit up to `N`: the entry there is of its term, and the nodes that have it are
a quorum. -/
structure Committable (n : RaftNode) (leader : LeaderState) (N : LogIndex) : Prop where
  later : n.state.commitIndex < N
  le_lastIndex : N ≤ n.log.lastIndex
  own : ∃ e, n.log.get N = some e ∧ e.term = n.term
  quorum : ∃ voters : Finset NodeId,
    (∀ p, p ∈ voters ↔ ∃ i, leader.matchIndex.lookup p = some i ∧ N ≤ i) ∧
      n.membership.hasQuorum voters = true

lemma Committable.hasQuorum {N : LogIndex} (h : n.Committable leader N) :
    n.membership.hasQuorum (leader.voters N) = true := by
  obtain ⟨voters, hmem, hquorum⟩ := h.quorum
  obtain rfl : voters = leader.voters N := by
    ext p
    rw [hmem, LeaderState.mem_voters]
  exact hquorum

lemma exists_get_of_le (hlog : n.log.Contiguous)
    (hsorted : n.log.entries.Pairwise fun e e' => e.term ≤ e'.term)
    (hterms : ∀ e ∈ n.log.entries, e.term ≤ n.term) {N M : LogIndex} (hle : N ≤ M)
    (hlast : M ≤ n.log.lastIndex) (hown : ∃ e, n.log.get N = some e ∧ e.term = n.term) :
    ∃ e, n.log.get M = some e ∧ e.term = n.term := by
  obtain ⟨e, he, hterm⟩ := hown
  have hN : n.log.snapshotIndex < N := by
    by_contra hN
    rw [RaftLog.get, if_pos (.inr (not_lt.mp hN))] at he
    cases he
  obtain ⟨e', he'⟩ := Option.isSome_iff_exists.mp (hlog.isSome_get (hN.trans_le hle) hlast)
  -- its term is at most the node's, and at least that of the entry before it
  refine ⟨e', he', le_antisymm ?_ ?_⟩
  · rw [RaftLog.get_of_lt (hN.trans_le hle)] at he'
    exact hterms e' (List.mem_of_getElem? he')
  · rw [RaftLog.get_of_lt hN] at he
    rw [RaftLog.get_of_lt (hN.trans_le hle)] at he'
    obtain ⟨hi, rfl⟩ := List.getElem?_eq_some_iff.mp he
    obtain ⟨hj, rfl⟩ := List.getElem?_eq_some_iff.mp he'
    rw [← hterm]
    rcases hle.eq_or_lt with rfl | hlt
    · exact le_rfl
    · exact List.pairwise_iff_getElem.mp hsorted _ _ hi hj (by lia)

/-- The least match index that a quorum for `N` has reached has the same quorum. -/
lemma Committable.exists_candidate {N : LogIndex} (h : n.Committable leader N)
    (hown : leader.matchIndex.lookup n.config.id = some n.log.lastIndex) :
    ∃ M, N ≤ M ∧ M ≤ n.log.lastIndex ∧ (∃ p, leader.matchIndex.lookup p = some M) ∧
      n.membership.hasQuorum (leader.voters M) = true := by
  classical
  have hex : ∃ M, N ≤ M ∧ ∃ p, leader.matchIndex.lookup p = some M :=
    ⟨n.log.lastIndex, h.le_lastIndex, n.config.id, hown⟩
  obtain ⟨hle, hlookup⟩ := Nat.find_spec hex
  refine ⟨Nat.find hex, hle, Nat.find_min' hex ⟨h.le_lastIndex, n.config.id, hown⟩, hlookup, ?_⟩
  have hvoters : leader.voters (Nat.find hex) = leader.voters N := by
    ext p
    rw [LeaderState.mem_voters, LeaderState.mem_voters]
    constructor
    · rintro ⟨i, hi, hi'⟩
      exact ⟨i, hi, hle.trans hi'⟩
    · rintro ⟨i, hi, hi'⟩
      exact ⟨i, hi, Nat.find_min' hex ⟨hi', p, hi⟩⟩
  rw [hvoters]
  exact h.hasQuorum

/-- Going down, no candidate that passes the checks is missed. -/
lemma le_advanceCommit {candidates : List LogIndex} (hsorted : candidates.Pairwise (· ≥ ·))
    {M : LogIndex} (hmem : M ∈ candidates) (hlater : n.state.commitIndex < M)
    (hquorum : n.membership.hasQuorum (leader.voters M) = true)
    (hown : ∃ e, n.log.get M = some e ∧ e.term = n.term) :
    M ≤ n.advanceCommit leader candidates := by
  induction candidates with
  | nil => cases hmem
  | cons candidate rest ih =>
    obtain ⟨hfirst, hrest⟩ := List.pairwise_cons.mp hsorted
    have hle : M ≤ candidate := by
      rcases List.mem_cons.mp hmem with rfl | hmem
      · exact le_rfl
      · exact hfirst M hmem
    rw [advanceCommit, if_neg (not_le.mpr (hlater.trans_le hle))]
    split
    · exact hle
    · next hnot =>
      refine ih hrest ((List.mem_cons.mp hmem).resolve_left ?_)
      rintro rfl
      exact hnot ⟨hquorum, by simpa [Option.any_eq_true] using hown⟩

/-- **Commitment is exact.** On a contiguous log whose terms do not decrease and do not exceed the
leader's, the leader commits up to the greatest index it may, and otherwise changes nothing. -/
theorem tryAdvanceCommit_exact (hleader : n.leaderState = some leader) (hlog : n.log.Contiguous)
    (hsorted : n.log.entries.Pairwise fun e e' => e.term ≤ e'.term)
    (hterms : ∀ e ∈ n.log.entries, e.term ≤ n.term)
    (hown : leader.matchIndex.lookup n.config.id = some n.log.lastIndex) :
    (∃ N, IsGreatest {N | n.Committable leader N} N ∧
      n.tryAdvanceCommit = { n with state := { n.state with commitIndex := N } }) ∨
    ((∀ N, ¬ n.Committable leader N) ∧ n.tryAdvanceCommit = n) := by
  obtain ⟨candidates, hcandidates⟩ :
      ∃ l, l = (leader.matchIndex.entries.map (·.2)).insertionSort (· ≥ ·) := ⟨_, rfl⟩
  have hcommit : n.tryAdvanceCommit =
      { n with state := { n.state with commitIndex := n.advanceCommit leader candidates } } := by
    rw [tryAdvanceCommit, hleader, hcandidates]
  -- what may be committed lies at or below some match index that may be
  have hge : ∀ N, n.Committable leader N → N ≤ n.advanceCommit leader candidates := by
    intro N hN
    obtain ⟨M, hle, hlast, ⟨p, hp⟩, hquorum⟩ := hN.exists_candidate hown
    have hmem : M ∈ candidates := by
      rw [hcandidates, List.mem_insertionSort]
      exact List.mem_map_of_mem (AList.mem_lookup_iff.mp hp)
    have hdown : candidates.Pairwise (· ≥ ·) := by
      rw [hcandidates]
      exact List.pairwise_insertionSort _ _
    exact hle.trans (le_advanceCommit hdown hmem (hN.later.trans_le hle) hquorum
      (exists_get_of_le hlog hsorted hterms hle hlast hN.own))
  rw [hcommit]
  rcases n.advanceCommit_cases leader candidates with hkept | ⟨hq, hget, hlater⟩
  · right
    refine ⟨fun N hN => ?_, by rw [hkept]⟩
    have hle := hge N hN
    rw [hkept] at hle
    exact absurd hN.later (not_lt.mpr hle)
  · left
    obtain ⟨e, he, hterm⟩ := hget
    refine ⟨_, ⟨⟨hlater, hlog.le_lastIndex_of_get (by rw [he]; rfl), ⟨e, he, hterm⟩, _, ?_, hq⟩,
      hge⟩, rfl⟩
    intro p
    exact LeaderState.mem_voters

/-! ### During joint consensus -/

/-- Node 4 is being added and has not been heard of. Node 3 has reported more than the log holds. -/
def jointMatches : LeaderState where
  nextIndex := ∅
  matchIndex := ((AList.insert 1 3 ∅).insert 2 2).insert 3 9

/-- A leader of term 2 with one entry of an earlier term. -/
def jointLeader : RaftNode :=
  let n := Cluster.freshNode ⟨1, [2, 3]⟩
  { n with
    state := { n.state with role := .leader, persistent := ⟨2, some 1⟩ }
    log := { n.log with
      entries := [⟨1, 1, [], .noop⟩, ⟨2, 2, [], .noop⟩, ⟨3, 2, [], .configChange⟩] }
    leaderState := some jointMatches
    membership :=
      { current := ⟨[⟨1, ""⟩, ⟨2, ""⟩, ⟨3, ""⟩]⟩
        pending := some ⟨[⟨1, ""⟩, ⟨2, ""⟩, ⟨3, ""⟩, ⟨4, "d"⟩]⟩
        changeInProgress := true } }

/-- Two of four nodes have the last entry. -/
theorem tryAdvanceCommit_exact_jointLeader :
    IsGreatest {N | jointLeader.Committable jointMatches N} 2 := by
  have hcommit : jointLeader.tryAdvanceCommit.state.commitIndex = 2 := by decide +kernel
  rcases tryAdvanceCommit_exact (n := jointLeader) (show _ = some jointMatches from rfl)
    (by decide) (by decide) (by decide) (by decide) with ⟨N, hgreatest, heq⟩ | ⟨-, heq⟩
  · rw [heq] at hcommit
    obtain rfl : N = 2 := hcommit
    exact hgreatest
  · rw [heq] at hcommit
    exact absurd hcommit (by decide)

end RaftNode

end Raftrust.Consensus

import Mathlib.Data.Finset.Card
import Mathlib.Data.Finset.Dedup
import Mathlib.Data.List.AList
import Raftrust.Consensus.Message

/-!
# Node state

Hash sets of node ids are finite sets, hash maps are association lists without repeated keys.
-/

namespace Raftrust.Consensus

inductive Role where
  | follower
  | preCandidate
  | candidate
  | leader
  deriving DecidableEq, Repr

/-- The part of the state that is saved before a reply is sent. -/
structure PersistentState where
  currentTerm : Term
  votedFor : Option NodeId
  deriving DecidableEq, Repr

namespace PersistentState

def new : PersistentState where
  currentTerm := 0
  votedFor := none

/-- Read the state file, after the saves `saves`, oldest first. A save succeeds and replaces the
whole file at once; without one there is no file. -/
def load (saves : List PersistentState) : PersistentState :=
  saves.getLast?.getD new

/-- How the state may change: to a later term, or within the term without a change of vote. -/
def Advances (p q : PersistentState) : Prop :=
  p.currentTerm < q.currentTerm ∨
    (p.currentTerm = q.currentTerm ∧ (p.votedFor = none ∨ q.votedFor = p.votedFor))

lemma Advances.refl (p : PersistentState) : Advances p p := .inr ⟨rfl, .inr rfl⟩

lemma Advances.trans {p q r : PersistentState} (h : Advances p q) (h' : Advances q r) :
    Advances p r := by
  rcases h with h | ⟨hterm, hvote⟩
  · rcases h' with h' | ⟨hterm', -⟩
    · exact .inl (h.trans h')
    · exact .inl (h.trans_eq hterm')
  · rcases h' with h' | ⟨hterm', hvote'⟩
    · exact .inl (hterm.trans_lt h')
    · refine .inr ⟨hterm.trans hterm', ?_⟩
      rcases hvote with hnone | hvote
      · exact .inl hnone
      · rcases hvote' with hnone | hvote'
        · exact .inl (hvote ▸ hnone)
        · exact .inr (hvote'.trans hvote)

lemma Advances.term_le {p q : PersistentState} (h : Advances p q) :
    p.currentTerm ≤ q.currentTerm := by
  rcases h with h | h
  · exact h.le
  · exact h.1.le

/-- A vote given in the current term stays. -/
lemma Advances.votedFor {p q : PersistentState} (h : Advances p q) {c : NodeId}
    (hterm : p.currentTerm = q.currentTerm) (hc : p.votedFor = some c) : q.votedFor = some c := by
  rcases h with h | ⟨-, hnone | hvote⟩
  · exact absurd hterm h.ne
  · simp [hnone] at hc
  · exact hvote.trans hc

@[simp] lemma load_nil : load [] = new := rfl

@[simp] lemma load_snoc (saves : List PersistentState) (p : PersistentState) :
    load (saves ++ [p]) = p := by
  simp [load]

end PersistentState

structure RaftState where
  id : NodeId
  role : Role
  persistent : PersistentState
  leaderId : Option NodeId
  commitIndex : LogIndex
  lastApplied : LogIndex
  deriving DecidableEq, Repr

abbrev IndexMap := AList fun _ : NodeId => LogIndex

/-- Volatile state on leaders. -/
structure LeaderState where
  nextIndex : IndexMap
  matchIndex : IndexMap

def LeaderState.new (peers : List NodeId) (lastLogIndex : LogIndex) : LeaderState where
  nextIndex := peers.foldl (fun m peer => m.insert peer (lastLogIndex + 1)) ∅
  matchIndex := peers.foldl (fun m peer => m.insert peer 0) ∅

/-- The nodes whose match index reaches `candidate`. -/
def LeaderState.voters (leader : LeaderState) (candidate : LogIndex) : Finset NodeId :=
  ((leader.matchIndex.entries.filter fun p => candidate ≤ p.2).map (·.1)).toFinset

/-- Votes received during an election. -/
structure ElectionState where
  votesReceived : Finset NodeId
  votesNeeded : ℕ

namespace ElectionState

def new (clusterSize : ℕ) : ElectionState where
  votesReceived := ∅
  votesNeeded := clusterSize / 2 + 1

def hasQuorum (e : ElectionState) : Bool :=
  decide (e.votesNeeded ≤ e.votesReceived.card)

/-- Add a vote, and say whether there is a quorum now. -/
def recordVote (e : ElectionState) (sender : NodeId) : ElectionState × Bool :=
  let e := { e with votesReceived := insert sender e.votesReceived }
  (e, e.hasQuorum)

end ElectionState

/-! ### Votes -/

/-- The candidate's log is at least as up to date as ours. -/
def isLogUpToDate (candidateLastTerm : Term) (candidateLastIndex : LogIndex) (ourLastTerm : Term)
    (ourLastIndex : LogIndex) : Bool :=
  if candidateLastTerm ≠ ourLastTerm then decide (candidateLastTerm > ourLastTerm)
  else decide (candidateLastIndex ≥ ourLastIndex)

/-- Whether to grant a vote: the term is not old, no other candidate has the vote, and the
candidate's log is up to date. -/
def shouldGrantVote (state : RaftState) (request : VoteRequest) (ourLastLogIndex : LogIndex)
    (ourLastLogTerm : Term) : Bool :=
  if request.term < state.persistent.currentTerm then false
  else if state.persistent.votedFor.any (· ≠ request.candidateId) then false
  else
    isLogUpToDate request.lastLogTerm request.lastLogIndex ourLastLogTerm ourLastLogIndex

lemma isLogUpToDate_iff {ct : Term} {ci : LogIndex} {ot : Term} {oi : LogIndex} :
    isLogUpToDate ct ci ot oi = true ↔ ot < ct ∨ (ot = ct ∧ oi ≤ ci) := by
  unfold isLogUpToDate
  by_cases h : ct = ot
  · simp [h]
  · simp only [ne_eq, h, not_false_eq_true, if_true, decide_eq_true_eq, gt_iff_lt]
    constructor
    · exact Or.inl
    · rintro (hlt | ⟨heq, -⟩)
      · exact hlt
      · exact absurd heq.symm h

lemma shouldGrantVote_iff {state : RaftState} {request : VoteRequest} {oi : LogIndex}
    {ot : Term} :
    shouldGrantVote state request oi ot = true ↔
      state.persistent.currentTerm ≤ request.term ∧
      (∀ c, state.persistent.votedFor = some c → c = request.candidateId) ∧
      isLogUpToDate request.lastLogTerm request.lastLogIndex ot oi = true := by
  unfold shouldGrantVote
  by_cases hterm : request.term < state.persistent.currentTerm
  · simp [hterm]
  · rw [if_neg hterm]
    cases hv : state.persistent.votedFor with
    | none => simp [not_lt.mp hterm]
    | some c =>
      by_cases hc : c = request.candidateId
      · simp [hc, not_lt.mp hterm]
      · simp [hc]

@[simp] lemma ElectionState.recordVote_votesReceived (e : ElectionState) (v : NodeId) :
    (e.recordVote v).1.votesReceived = insert v e.votesReceived := rfl

@[simp] lemma ElectionState.recordVote_votesNeeded (e : ElectionState) (v : NodeId) :
    (e.recordVote v).1.votesNeeded = e.votesNeeded := rfl

lemma ElectionState.recordVote_quorum_iff (e : ElectionState) (v : NodeId) :
    (e.recordVote v).2 = true ↔ e.votesNeeded ≤ (insert v e.votesReceived).card := by
  simp [recordVote, hasQuorum]

@[simp] lemma ElectionState.new_votesReceived (n : ℕ) :
    (ElectionState.new n).votesReceived = ∅ := rfl

@[simp] lemma ElectionState.new_votesNeeded (n : ℕ) :
    (ElectionState.new n).votesNeeded = n / 2 + 1 := rfl

end Raftrust.Consensus

import Mathlib.Data.Finset.Card

/-!
# Majority quorums

A majority of a finite set of members is a subset holding more than half of them, in the form
`card / 2 + 1` in which programs compute it. Any two majorities meet.
-/

namespace Raftrust.Lib

variable {α : Type*}

/-- `Q` is a majority of `members`. -/
structure IsMajority (members Q : Finset α) : Prop where
  subset : Q ⊆ members
  card_le : members.card / 2 + 1 ≤ Q.card

lemma IsMajority.mono {members Q Q' : Finset α} (h : IsMajority members Q) (hsub : Q' ⊆ members)
    (hle : Q ⊆ Q') : IsMajority members Q' :=
  ⟨hsub, h.card_le.trans (Finset.card_le_card hle)⟩

/-- Two majorities of the same members have a member in common. -/
theorem IsMajority.exists_mem_mem {members Q Q' : Finset α} (h : IsMajority members Q)
    (h' : IsMajority members Q') : ∃ a, a ∈ Q ∧ a ∈ Q' := by
  classical
  by_contra hne
  have hdisj : Disjoint Q Q' := by
    rw [Finset.disjoint_left]
    intro a ha ha'
    exact hne ⟨a, ha, ha'⟩
  have hunion : (Q ∪ Q').card ≤ members.card :=
    Finset.card_le_card (Finset.union_subset h.subset h'.subset)
  rw [Finset.card_union_of_disjoint hdisj] at hunion
  have hQ := h.card_le
  have hQ' := h'.card_le
  omega

end Raftrust.Lib

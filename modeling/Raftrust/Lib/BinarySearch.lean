import Mathlib.Data.List.Basic
import Mathlib.Tactic.Common

/-!
# Binary search

Binary search over a list with a comparison that tells on which side of the target an element lies.
The search halves a window and keeps its base at the last element that was not found greater.
-/

namespace Raftrust.Lib

variable {α : Type*} (f : α → Ordering)

/-- The base of the window of `size` elements from `base` on, after it has shrunk to one. -/
def searchBase (l : List α) (base size : ℕ) : ℕ :=
  if 1 < size then
    let half := size / 2
    let mid := base + half
    let base := if l[mid]?.map f = some .gt then base else mid
    searchBase l base (size - half)
  else base
termination_by size

/-- The place of an element that compares equal, or the place to insert one. -/
def binarySearchBy (l : List α) : Except ℕ ℕ :=
  if l.length = 0 then .error 0
  else
    let base := searchBase f l 0 l.length
    match l[base]?.map f with
    | some .eq => .ok base
    | some .lt => .error (base + 1)
    | _ => .error base

variable {f}

/-- Elements come in the order of the comparison, and at most one compares equal. -/
def Ascending (f : α → Ordering) (l : List α) : Prop :=
  l.Pairwise fun a b => f b ≠ .gt → f a = .lt

lemma Ascending.lt_of_lt {l : List α} (h : Ascending f l) {i j : ℕ} {a b : α} (hij : i < j)
    (ha : l[i]? = some a) (hb : l[j]? = some b) (hfb : f b ≠ .gt) : f a = .lt := by
  obtain ⟨hi, rfl⟩ := List.getElem?_eq_some_iff.mp ha
  obtain ⟨hj, rfl⟩ := List.getElem?_eq_some_iff.mp hb
  exact List.pairwise_iff_getElem.mp h i j hi hj hij hfb

lemma Ascending.gt_of_lt {l : List α} (h : Ascending f l) {i j : ℕ} {a b : α} (hij : i < j)
    (ha : l[i]? = some a) (hb : l[j]? = some b) (hfa : f a ≠ .lt) : f b = .gt := by
  by_contra hfb
  exact hfa (h.lt_of_lt hij ha hb hfb)

/-- Behind the window everything is greater, and the base is not unless it is the first element. -/
structure Window (f : α → Ordering) (l : List α) (base size : ℕ) : Prop where
  pos : 0 < size
  le : base + size ≤ l.length
  notGt : base = 0 ∨ ∀ a, l[base]? = some a → f a ≠ .gt
  behind : ∀ j a, base + size ≤ j → l[j]? = some a → f a = .gt

lemma Window.searchBase {l : List α} (hl : Ascending f l) {base size : ℕ}
    (h : Window f l base size) : Window f l (searchBase f l base size) 1 := by
  induction base, size using Lib.searchBase.induct (f := f) (l := l) with
  | case1 base size hsize half mid base' ih =>
    rw [Lib.searchBase, if_pos hsize]
    refine ih ?_
    have hlt : mid < l.length := by
      have := h.le
      omega
    have hmid : l[mid]? = some l[mid] := List.getElem?_eq_getElem hlt
    by_cases hgt : f l[mid] = .gt
    · have hbase : base' = base := by simp [base', hmid, hgt]
      rw [hbase]
      refine ⟨by omega, by have := h.le; omega, h.notGt, fun j a hj ha => ?_⟩
      rcases Nat.lt_or_ge mid j with hj' | hj'
      · exact hl.gt_of_lt hj' hmid ha (by rw [hgt]; decide)
      · obtain rfl : j = mid := by omega
        rw [hmid, Option.some.injEq] at ha
        rw [← ha, hgt]
    · have hbase : base' = mid := by simp [base', hmid, hgt]
      rw [hbase]
      refine ⟨by omega, by have := h.le; omega, .inr fun a ha => ?_, fun j a hj ha => ?_⟩
      · rw [hmid, Option.some.injEq] at ha
        rwa [← ha]
      · exact h.behind j a (by omega) ha
  | case2 base size hsize =>
    have hone : size = 1 := by
      have := h.pos
      omega
    rw [Lib.searchBase, if_neg hsize, ← hone]
    exact h

/-- The search finds an element that compares equal, or the place between the smaller and the
greater ones. -/
theorem binarySearchBy_spec {l : List α} (hl : Ascending f l) :
    (∃ i a, binarySearchBy f l = .ok i ∧ l[i]? = some a ∧ f a = .eq) ∨
      ∃ i, binarySearchBy f l = .error i ∧ i ≤ l.length ∧
        (∀ j a, j < i → l[j]? = some a → f a = .lt) ∧
        ∀ j a, i ≤ j → l[j]? = some a → f a = .gt := by
  rw [binarySearchBy]
  by_cases hnil : l.length = 0
  · obtain rfl := List.length_eq_zero_iff.mp hnil
    exact .inr ⟨0, by simp⟩
  · have hw : Window f l (searchBase f l 0 l.length) 1 :=
      Window.searchBase hl ⟨by omega, by omega, .inl rfl, fun j a hj ha => by
        have := (List.getElem?_eq_some_iff.mp ha).1
        omega⟩
    rw [if_neg hnil]
    set base := searchBase f l 0 l.length
    have hlt : base < l.length := hw.le
    have hget : l[base]? = some l[base] := List.getElem?_eq_getElem hlt
    have hbefore : f l[base] ≠ .gt → ∀ j a, j < base → l[j]? = some a → f a = .lt :=
      fun hne j a hj ha => hl.lt_of_lt hj ha hget hne
    simp only [hget, Option.map_some]
    cases hf : f l[base] with
    | eq => exact .inl ⟨base, _, rfl, hget, hf⟩
    | lt =>
      refine .inr ⟨base + 1, rfl, hlt, fun j a hj ha => ?_, hw.behind⟩
      rcases Nat.lt_succ_iff_lt_or_eq.mp hj with hj | rfl
      · exact hbefore (by rw [hf]; decide) j a hj ha
      · rw [hget, Option.some.injEq] at ha
        rw [← ha, hf]
    | gt =>
      have hzero : base = 0 := hw.notGt.resolve_right fun h => h _ hget hf
      refine .inr ⟨base, rfl, Nat.le_of_lt hlt, fun j a hj => by omega, fun j a hj ha => ?_⟩
      rcases Nat.eq_or_lt_of_le hj with rfl | hj
      · rw [hget, Option.some.injEq] at ha
        rw [← ha, hf]
      · exact hw.behind j a hj ha

end Raftrust.Lib

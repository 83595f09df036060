import Mathlib.Data.List.MinMax
import Raftrust.Lib.Layers

/-!
# Neighbours in a sorted list

A loop over a sorted list that remembers the key of the element before tells the first element of
each group from the others. Which elements it marks can be said without the loop: those that come
directly after an element with the same key.
-/

namespace Raftrust.Lib

variable {α κ β : Type*} [DecidableEq κ] {key : α → κ}

/-- Every element of the list, with whether its key is that of the element before it. Before the
first element comes one with the key `last`, if any. -/
def marked (key : α → κ) : Option κ → List α → List (α × Bool)
  | _, [] => []
  | last, x :: l => (x, decide (last = some (key x))) :: marked key (some (key x)) l

lemma mem_marked_iff_append {last : Option κ} {l : List α} {x : α} {b : Bool} :
    (x, b) ∈ marked key last l ↔ ∃ before after, l = before ++ x :: after ∧
      (b = true ↔ (before.getLast?.map key).or last = some (key x)) := by
  induction l generalizing last with
  | nil => simp [marked]
  | cons y l ih =>
    rw [marked, List.mem_cons, ih]
    constructor
    · rintro (heq | ⟨before, after, rfl, hb⟩)
      · obtain ⟨rfl, rfl⟩ := Prod.mk.inj heq
        exact ⟨[], l, rfl, by simp⟩
      · refine ⟨y :: before, after, rfl, ?_⟩
        rw [hb, List.getLast?_cons]
        cases before.getLast? <;> simp
    · rintro ⟨before, after, hl, hb⟩
      cases before with
      | nil =>
        obtain ⟨rfl, rfl⟩ := List.cons_eq_cons.mp hl
        left
        rw [Prod.mk.injEq, Bool.eq_iff_iff, hb]
        simp
      | cons z before =>
        obtain ⟨rfl, rfl⟩ := List.cons_eq_cons.mp hl
        right
        refine ⟨before, after, rfl, ?_⟩
        rw [hb, List.getLast?_cons]
        cases before.getLast? <;> simp

/-- The elements whose key is not that of the element before them. -/
def firsts (key : α → κ) (last : Option κ) (l : List α) : List α :=
  ((marked key last l).filter fun x => !x.2).map Prod.fst

@[simp] lemma firsts_nil (last : Option κ) : firsts key last [] = [] := rfl

lemma firsts_cons_self (x : α) (l : List α) :
    firsts key (some (key x)) (x :: l) = firsts key (some (key x)) l := by
  simp [firsts, marked]

lemma firsts_cons_of_ne {last : Option κ} {x : α} (h : last ≠ some (key x)) (l : List α) :
    firsts key last (x :: l) = x :: firsts key (some (key x)) l := by
  simp [firsts, marked, h]

lemma firsts_sublist (last : Option κ) (l : List α) : (firsts key last l).Sublist l := by
  induction l generalizing last with
  | nil => exact .refl _
  | cons x l ih =>
    by_cases h : last = some (key x)
    · rw [h, firsts_cons_self]
      exact (ih _).cons x
    · rw [firsts_cons_of_ne h]
      exact (ih _).cons_cons x

section

variable [LinearOrder β] {ord : α → β} {l : List α} {x : α}

/-- The element of the list directly before `x` has the key of `x`. -/
def Repeats (key : α → κ) (ord : α → β) (l : List α) (x : α) : Prop :=
  ∃ p ∈ l, ord p < ord x ∧ key p = key x ∧ ∀ y ∈ l, ¬ (ord p < ord y ∧ ord y < ord x)

omit [DecidableEq κ] in
/-- In a sorted list the element directly before another is the one in front of it. -/
lemma repeats_append_iff {before after : List α}
    (h : (before ++ x :: after).Pairwise fun y z => ord y < ord z) :
    Repeats key ord (before ++ x :: after) x ↔ before.getLast?.map key = some (key x) := by
  obtain ⟨hbefore, hafter, hcross⟩ := List.pairwise_append.mp h
  have hlt : ∀ y ∈ before, ord y < ord x := fun y hy => hcross y hy x List.mem_cons_self
  have hmem : ∀ y ∈ before ++ x :: after, ord y < ord x → y ∈ before := by
    intro y hy hyx
    rcases List.mem_append.mp hy with hy | hy
    · exact hy
    · rcases List.mem_cons.mp hy with rfl | hy
      · exact absurd hyx (lt_irrefl _)
      · exact absurd hyx (lt_asymm (List.rel_of_pairwise_cons hafter hy))
  have hlast : ∀ q, before.getLast? = some q → ∀ y ∈ before, y = q ∨ ord y < ord q := by
    intro q hq y hy
    obtain ⟨init, rfl⟩ := List.getLast?_eq_some_iff.mp hq
    rcases List.mem_append.mp hy with hy | hy
    · exact .inr ((List.pairwise_append.mp hbefore).2.2 y hy q (List.mem_singleton_self q))
    · exact .inl (List.mem_singleton.mp hy)
  rw [Option.map_eq_some_iff]
  constructor
  · rintro ⟨p, hp, hpx, hkey, hnone⟩
    have hpb := hmem p hp hpx
    obtain ⟨q, hq⟩ : ∃ q, before.getLast? = some q :=
      ⟨_, List.getLast?_eq_some_getLast (List.ne_nil_of_mem hpb)⟩
    have hqb := List.mem_of_getLast? hq
    rcases hlast q hq p hpb with rfl | hpq
    · exact ⟨p, hq, hkey⟩
    · exact absurd ⟨hpq, hlt q hqb⟩ (hnone q (List.mem_append_left _ hqb))
  · rintro ⟨q, hq, hkey⟩
    have hqb := List.mem_of_getLast? hq
    refine ⟨q, List.mem_append_left _ hqb, hlt q hqb, hkey, fun y hy hbetween => ?_⟩
    rcases hlast q hq y (hmem y hy hbetween.2) with rfl | hyq
    · exact lt_irrefl _ hbetween.1
    · exact lt_asymm hyq hbetween.1

/-- What the loop marks in a sorted list. -/
theorem mem_marked_iff (h : l.Pairwise fun y z => ord y < ord z) {b : Bool} :
    (x, b) ∈ marked key none l ↔ x ∈ l ∧ (b = true ↔ Repeats key ord l x) := by
  rw [mem_marked_iff_append]
  constructor
  · rintro ⟨before, after, rfl, hb⟩
    rw [repeats_append_iff h, hb, Option.or_none]
    exact ⟨by simp, Iff.rfl⟩
  · rintro ⟨hx, hb⟩
    obtain ⟨before, after, rfl⟩ := List.append_of_mem hx
    rw [repeats_append_iff h] at hb
    exact ⟨before, after, rfl, by rw [hb, Option.or_none]⟩

lemma mem_firsts_iff (h : l.Pairwise fun y z => ord y < ord z) :
    x ∈ firsts key none l ↔ x ∈ l ∧ ¬ Repeats key ord l x := by
  have hmem : x ∈ firsts key none l ↔ (x, false) ∈ marked key none l := by simp [firsts]
  rw [hmem, mem_marked_iff h, iff_comm]
  simp

omit [DecidableEq κ] in
/-- What holds of all pairs of a sorted list, said without the list's own order. -/
lemma pairwise_iff_of_sorted (h : l.Pairwise fun y z => ord y < ord z) {R : α → α → Prop} :
    l.Pairwise R ↔ ∀ y ∈ l, ∀ z ∈ l, ord y < ord z → R y z := by
  constructor
  · intro hR y hy z hz hlt
    let S (y z : α) := (ord y < ord z → R y z) ∧ (ord z < ord y → R z y)
    have hS : l.Pairwise S := h.imp₂ (fun _ _ hyz hRyz =>
      ⟨fun _ => hRyz, fun hzy => absurd hzy (lt_asymm hyz)⟩) hR
    have : Std.Symm S := ⟨fun _ _ => And.symm⟩
    refine (hS.forall hy hz ?_).1 hlt
    rintro rfl
    exact lt_irrefl _ hlt
  · intro hR
    exact h.imp_of_mem fun hy hz hlt => hR _ hy _ hz hlt

omit [DecidableEq κ] in
/-- The only least element of a list. The order may be decided in any way. -/
lemma argmin_eq_some {a : α} (ha : a ∈ l) (hle : ∀ b ∈ l, ord a ≤ ord b)
    (hinj : ∀ b ∈ l, ord a = ord b → a = b) (d : DecidableLT β) :
    @List.argmin α β _ d ord l = some a := by
  obtain rfl : d = LinearOrder.toDecidableLT := Subsingleton.elim _ _
  cases hmin : l.argmin ord with
  | none =>
    rw [List.argmin_eq_none.mp hmin] at ha
    cases ha
  | some b =>
    have hb := List.argmin_mem hmin
    rw [hinj b hb (le_antisymm (hle b hb) (List.le_of_mem_argmin ha hmin))]

omit [DecidableEq κ] in
/-- Elements of a sorted list are told apart by the order. -/
lemma eq_of_sorted (h : l.Pairwise fun y z => ord y < ord z) {a b : α} (ha : a ∈ l) (hb : b ∈ l)
    (heq : ord a = ord b) : a = b := by
  by_contra hne
  have hdistinct : l.Pairwise fun y z => ord y ≠ ord z := h.imp ne_of_lt
  have : Std.Symm fun y z : α => ord y ≠ ord z := ⟨fun _ _ => Ne.symm⟩
  exact hdistinct.forall ha hb hne heq

omit [DecidableEq κ] in
/-- The first element of a sorted list with a property is the least one that has it. -/
lemma find?_eq_some_iff_of_sorted (h : l.Pairwise fun y z => ord y < ord z) {p : α → Bool} {a : α} :
    l.find? p = some a ↔ a ∈ l ∧ p a ∧ ∀ b ∈ l, p b → ord a ≤ ord b := by
  constructor
  · intro hfind
    exact ⟨List.mem_of_find?_eq_some hfind, List.find?_some hfind,
      fun b hb hpb => find?_le_of_sorted h hfind hb hpb⟩
  · rintro ⟨ha, hpa, hleast⟩
    cases hfind : l.find? p with
    | none => exact absurd hpa (List.find?_eq_none.mp hfind a ha)
    | some b =>
      have hb := List.mem_of_find?_eq_some hfind
      rw [eq_of_sorted h ha hb (le_antisymm (hleast b hb (List.find?_some hfind))
        (find?_le_of_sorted h hfind ha hpa))]

omit [DecidableEq κ] in
/-- The same, as the least element of a list of those with the property. -/
lemma find?_eq_argmin (h : l.Pairwise fun y z => ord y < ord z) {p : α → Bool} {l' : List α}
    (hmem : ∀ y, y ∈ l' ↔ y ∈ l ∧ p y) (d : DecidableLT β) :
    l.find? p = @List.argmin α β _ d ord l' := by
  cases hfind : l.find? p with
  | none =>
    rw [eq_comm, List.argmin_eq_none, List.eq_nil_iff_forall_not_mem]
    intro y hy
    exact List.find?_eq_none.mp hfind y ((hmem y).mp hy).1 ((hmem y).mp hy).2
  | some y =>
    obtain ⟨hy, hpy, hleast⟩ := (find?_eq_some_iff_of_sorted h).mp hfind
    refine (argmin_eq_some ((hmem y).mpr ⟨hy, hpy⟩) (fun z hz => ?_) (fun z hz heq => ?_) d).symm
    · exact hleast z ((hmem z).mp hz).1 ((hmem z).mp hz).2
    · exact eq_of_sorted h hy ((hmem z).mp hz).1 heq

end

end Raftrust.Lib

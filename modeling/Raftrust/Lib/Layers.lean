import Mathlib.Data.List.Sort
import Mathlib.Data.List.Destutter

/-!
# Layered lookups

A store of layers is read by taking the first layer that answers. Layers are folded into one by a
stable sort that keeps the first entry of each key.
-/

namespace Raftrust.Lib

variable {α β γ κ : Type*}

/-! ### Asking a list of lists -/

lemma findSome?_filterMap (g : α → Option β) (f : β → Option γ) (l : List α) :
    (l.filterMap g).findSome? f = l.findSome? fun a => (g a).bind f := by
  rw [← List.head?_filterMap, ← List.head?_filterMap, List.filterMap_filterMap]

lemma findSome?_congr {f g : α → Option β} {l : List α} (h : ∀ a ∈ l, f a = g a) :
    l.findSome? f = l.findSome? g := by
  rw [← List.head?_filterMap, ← List.head?_filterMap, List.filterMap_congr h]

lemma findSome?_flatten (f : α → Option β) (L : List (List α)) :
    L.flatten.findSome? f = L.findSome? fun l => l.findSome? f := by
  induction L with
  | nil => rfl
  | cons l L ih =>
    rw [List.flatten_cons, List.findSome?_append, ih, List.findSome?_cons]
    cases l.findSome? f <;> rfl

/-- A list whose elements all are values of `f` is the image of a list. -/
lemma exists_map_eq {f : α → β} {P : α → Prop} {l : List β} (h : ∀ b ∈ l, ∃ a, P a ∧ f a = b) :
    ∃ L : List α, L.map f = l ∧ ∀ a ∈ L, P a := by
  induction l with
  | nil => exact ⟨[], rfl, by simp⟩
  | cons b l ih =>
    obtain ⟨a, ha, rfl⟩ := h b List.mem_cons_self
    obtain ⟨L, rfl, hL⟩ := ih fun b hb => h b (List.mem_cons_of_mem _ hb)
    exact ⟨a :: L, rfl, by simpa using ⟨ha, hL⟩⟩

/-! ### Layers that answer alike -/

section

variable {R : α → β → Prop} {r : α → α → Prop} {r' : β → β → Prop} [DecidableRel r]
  [DecidableRel r']

lemma forall₂_orderedInsert (hr : ∀ a b a' b', R a b → R a' b' → (r a a' ↔ r' b b')) {a : α} {b : β}
    (hab : R a b) {l : List α} {l' : List β} (h : List.Forall₂ R l l') :
    List.Forall₂ R (l.orderedInsert r a) (l'.orderedInsert r' b) := by
  induction h with
  | nil => exact .cons hab .nil
  | @cons x y l l' hxy hl ih =>
    by_cases hle : r a x
    · rw [List.orderedInsert_cons_of_le _ _ hle,
        List.orderedInsert_cons_of_le _ _ ((hr _ _ _ _ hab hxy).mp hle)]
      exact .cons hab (.cons hxy hl)
    · rw [List.orderedInsert_of_not_le _ _ hle,
        List.orderedInsert_of_not_le _ _ (mt (hr _ _ _ _ hab hxy).mpr hle)]
      exact .cons hxy ih

/-- Related lists are sorted alike if the order does not tell related elements apart. -/
lemma forall₂_insertionSort (hr : ∀ a b a' b', R a b → R a' b' → (r a a' ↔ r' b b')) {l : List α}
    {l' : List β} (h : List.Forall₂ R l l') :
    List.Forall₂ R (l.insertionSort r) (l'.insertionSort r') := by
  induction h with
  | nil => exact .nil
  | cons hab _ ih => exact forall₂_orderedInsert hr hab ih

end

/-! ### Layers of which at most one answers -/

/-- At most one element of the list has an answer. -/
def AtMostOneHit (f : α → Option β) (l : List α) : Prop :=
  l.Pairwise fun a b => f a = none ∨ f b = none

lemma AtMostOneHit.length_filterMap_le {f : α → Option β} {l : List α} (h : AtMostOneHit f l) :
    (l.filterMap f).length ≤ 1 := by
  induction l with
  | nil => simp
  | cons a l ih =>
    obtain ⟨ha, hl⟩ := List.pairwise_cons.mp h
    cases hfa : f a with
    | none =>
      rw [List.filterMap_cons_none hfa]
      exact ih hl
    | some v =>
      have hnone : l.filterMap f = [] := by
        apply List.filterMap_eq_nil_iff.mpr
        intro b hb
        simpa [hfa] using ha b hb
      simp [List.filterMap_cons_some hfa, hnone]

/-- When at most one element answers, the order of asking does not matter. -/
lemma AtMostOneHit.findSome?_perm {f : α → Option β} {l l' : List α} (h : AtMostOneHit f l)
    (hp : l.Perm l') : l.findSome? f = l'.findSome? f := by
  have hlen := h.length_filterMap_le
  have hperm : (l.filterMap f).Perm (l'.filterMap f) := hp.filterMap f
  rw [← List.head?_filterMap, ← List.head?_filterMap]
  match hl : l.filterMap f with
  | [] => rw [hl, List.nil_perm] at hperm; rw [hperm]
  | [v] => rw [hl, List.singleton_perm] at hperm; rw [hperm]
  | _ :: _ :: _ => simp [hl] at hlen

lemma AtMostOneHit.findSome?_reverse {f : α → Option β} {l : List α} (h : AtMostOneHit f l) :
    l.reverse.findSome? f = l.findSome? f :=
  (h.findSome?_perm (List.reverse_perm l).symm).symm

/-- Elements that are known to have no answer may be asked last. -/
lemma AtMostOneHit.findSome?_partition {f : α → Option β} {l : List α} (h : AtMostOneHit f l)
    (p : α → Bool) :
    l.findSome? f = ((l.filter p).findSome? f).or ((l.filter fun a => !p a).findSome? f) := by
  rw [← List.findSome?_append]
  exact h.findSome?_perm (List.filter_append_perm p l).symm

lemma AtMostOneHit.of_filter_hit {f : α → Option β} {l : List α} (h : AtMostOneHit f l)
    {p : α → Bool} {v : β} (hv : (l.filter p).findSome? f = some v) :
    (l.filter fun a => !p a).findSome? f = none := by
  have hperm := (List.filter_append_perm p l).symm
  have happ : AtMostOneHit f (l.filter p ++ l.filter fun a => !p a) :=
    hperm.pairwise h Or.symm
  obtain ⟨a, ha, hfa⟩ := List.exists_of_findSome?_eq_some hv
  apply List.findSome?_eq_none_iff.mpr
  intro b hb
  have hab := (List.pairwise_append.mp happ).2.2 a ha b hb
  simpa [hfa] using hab

/-! ### Merging by key -/

variable [LinearOrder κ] (key : α → κ)

/-- Sort by key, keeping of each key the entry that came first. -/
def stableMerge (l : List α) : List α :=
  (l.insertionSort fun a b => key a ≤ key b).destutter fun a b => key a ≠ key b

variable {key}

lemma mem_of_mem_stableMerge {l : List α} {a : α} (h : a ∈ stableMerge key l) : a ∈ l :=
  (List.mem_insertionSort _).mp ((List.destutter_sublist _ _).subset h)

lemma stableMerge_sorted (l : List α) :
    (stableMerge key l).Pairwise fun a b => key a < key b := by
  have hle : (stableMerge key l).Pairwise fun a b => key a ≤ key b :=
    (List.pairwise_insertionSort _ l).sublist (List.destutter_sublist _ _)
  have hne : (stableMerge key l).IsChain fun a b => key a ≠ key b := List.isChain_destutter _ _
  have hlt : (stableMerge key l).IsChain fun a b => key a < key b := by
    rw [List.isChain_iff_getElem] at hne ⊢
    intro i hi
    exact lt_of_le_of_ne (List.pairwise_iff_getElem.mp hle i (i + 1) _ hi (Nat.lt_succ_self i))
      (hne i hi)
  have htrans : IsTrans α fun a b => key a < key b := ⟨fun _ _ _ => lt_trans⟩
  exact List.isChain_iff_pairwise.mp hlt

/-- In a sorted list the first element with a property is the least. -/
lemma find?_le_of_sorted {l : List α} (h : l.Pairwise fun a b => key a < key b) {p : α → Bool}
    {a b : α} (ha : l.find? p = some a) (hb : b ∈ l) (hpb : p b) : key a ≤ key b := by
  obtain ⟨-, before, after, rfl, hbefore⟩ := List.find?_eq_some_iff_append.mp ha
  rcases List.mem_append.mp hb with hb | hb
  · exact absurd hpb (by simpa using hbefore b hb)
  · rcases List.mem_cons.mp hb with rfl | hb
    · exact le_rfl
    · exact ((List.pairwise_cons.mp (List.pairwise_append.mp h).2.1).1 b hb).le

/-- Elements of one key keep their order. -/
lemma filter_insertionSort (l : List α) (k : κ) :
    (l.insertionSort fun a b => key a ≤ key b).filter (fun a => key a = k) =
      l.filter fun a => key a = k := by
  have hpair : (l.filter fun a => key a = k).Pairwise fun a b => key a ≤ key b := by
    apply List.pairwise_of_forall_mem_list
    intro a ha b hb
    simp only [List.mem_filter, decide_eq_true_eq] at ha hb
    exact (ha.2.trans hb.2.symm).le
  have hsub := (List.sublist_insertionSort hpair List.filter_sublist).filter
    fun a => decide (key a = k)
  rw [List.filter_filter] at hsub
  simp only [Bool.and_self] at hsub
  have hlen := ((List.perm_insertionSort (fun a b => key a ≤ key b) l).filter
    fun a => decide (key a = k)).length_eq
  exact (hsub.eq_of_length hlen.symm).symm

lemma find?_destutter' (k : κ) (a : α) (l : List α) :
    (l.destutter' (fun a b => key a ≠ key b) a).find? (fun b => key b = k) =
      (a :: l).find? fun b => key b = k := by
  induction l generalizing a with
  | nil => rfl
  | cons b l ih =>
    by_cases hab : key a = key b
    · -- `b` is dropped, and was hidden behind `a` before
      rw [List.destutter'_cons_neg _ (by simpa using hab), ih]
      by_cases ha : key a = k
      · simp [ha]
      · simp [ha, hab ▸ ha]
    · rw [List.destutter'_cons_pos _ hab, List.find?_cons, List.find?_cons, ih]

/-- The merge has for each key the entry that came first. -/
theorem find?_stableMerge (l : List α) {p : α → Bool} {k : κ} (hp : ∀ a, p a ↔ key a = k) :
    (stableMerge key l).find? p = l.find? p := by
  have hdestutter : ∀ l : List α,
      (l.destutter fun a b => key a ≠ key b).find? (fun a => key a = k) =
        l.find? fun a => key a = k
    | [] => rfl
    | a :: l => find?_destutter' k a l
  obtain rfl : p = fun a => decide (key a = k) := funext fun a => by
    rw [Bool.eq_iff_iff, hp, decide_eq_true_iff]
  rw [stableMerge, hdestutter, ← List.head?_filter, filter_insertionSort, List.head?_filter]

end Raftrust.Lib

import Mathlib.Algebra.BigOperators.Group.List.Basic
import Mathlib.Algebra.GroupWithZero.Nat
import Mathlib.Data.List.AList

/-!
# Lookup tables

What is found in an association list after an entry has been replaced, in a list of pairs after some
have been dropped or one has been replaced, and sums over the values of a table.
-/

namespace Raftrust.Lib

variable {α β : Type*} [DecidableEq α]

section

variable (l : List (Sigma fun _ : α => β))

lemma kreplace_cons_eq (a : α) (b b' : β) :
    List.kreplace a b (⟨a, b'⟩ :: l) = ⟨a, b⟩ :: l :=
  List.lookmap_cons_some _ _ (if_pos rfl)

lemma kreplace_cons_ne {a a' : α} (h : a ≠ a') (b b' : β) :
    List.kreplace a b (⟨a', b'⟩ :: l) = ⟨a', b'⟩ :: l.kreplace a b :=
  List.lookmap_cons_none _ _ (if_neg h)

lemma dlookup_kreplace (a a' : α) (b : β) :
    (l.kreplace a b).dlookup a' =
      if a' = a then (l.dlookup a).map fun _ => b else l.dlookup a' := by
  induction l with
  | nil => simp [List.kreplace]
  | cons e l ih =>
    obtain ⟨x, y⟩ := e
    by_cases hax : a = x
    · subst hax
      rw [kreplace_cons_eq]
      by_cases ha : a' = a
      · subst ha
        simp
      · simp [ha]
    · rw [kreplace_cons_ne l hax]
      by_cases ha : a' = x
      · subst ha
        simp [Ne.symm hax]
      · have hskip : ∀ (l : List (Sigma fun _ : α => β)) {k : α}, k ≠ x →
            List.dlookup k (⟨x, y⟩ :: l) = l.dlookup k := fun l _ hk =>
          List.dlookup_cons_ne (β := fun _ => β) l ⟨x, y⟩ hk
        rw [hskip _ ha, ih, hskip _ ha, hskip _ hax]

end

lemma lookup_replace (s : AList fun _ : α => β) (a a' : α) (b : β) :
    (s.replace a b).lookup a' =
      if a' = a then (s.lookup a).map fun _ => b else s.lookup a' :=
  dlookup_kreplace s.entries a a' b

/-! ### Lists of pairs -/

lemma lookup_cons_eq_ite (j : α) (b : β) (l : List (α × β)) (i : α) :
    ((j, b) :: l).lookup i = if i = j then some b else l.lookup i := by
  rw [List.lookup_cons]
  split <;> simp_all

lemma lookup_filter_key (l : List (α × β)) (p : α → Bool) (i : α) :
    (l.filter fun f => p f.1).lookup i = if p i then l.lookup i else none := by
  induction l with
  | nil => simp
  | cons f l ih =>
    obtain ⟨j, b⟩ := f
    rw [List.filter_cons, lookup_cons_eq_ite]
    by_cases heq : i = j
    · subst heq
      split
      · rw [lookup_cons_eq_ite, if_pos rfl, if_pos rfl]
      · rw [ih, if_neg ‹_›]
    · rw [if_neg heq, ← ih]
      split
      · rw [lookup_cons_eq_ite, if_neg heq]
      · rfl

lemma lookup_isSome_iff_mem (l : List (α × β)) (i : α) :
    (l.lookup i).isSome ↔ i ∈ l.map (·.1) := by
  induction l with
  | nil => simp
  | cons f l ih =>
    obtain ⟨j, b⟩ := f
    rw [lookup_cons_eq_ite, List.map_cons, List.mem_cons]
    split <;> simp [*]

section

variable {α β : Type*} {l : List (α × β)} {i : ℕ} {a : α} {b : β} (hi : l[i]? = some (a, b))
  (b' : β)

include hi

/-- Replacing an entry of a table by another one under the same name. -/
lemma map_fst_set : (l.set i (a, b')).map Prod.fst = l.map Prod.fst := by
  refine List.ext_getElem? fun j => ?_
  rw [List.getElem?_map, List.getElem?_map, List.getElem?_set]
  split
  · next hij =>
    rw [← hij, hi, if_pos (List.getElem?_eq_some_iff.mp hi).1]
    rfl
  · rfl

lemma mem_set_iff (hnodup : (l.map Prod.fst).Nodup) {x : α} {y : β} :
    (x, y) ∈ l.set i (a, b') ↔ x = a ∧ y = b' ∨ x ≠ a ∧ (x, y) ∈ l := by
  have hlt := (List.getElem?_eq_some_iff.mp hi).1
  constructor
  · intro hmem
    obtain ⟨j, hj⟩ := List.getElem?_of_mem hmem
    rw [List.getElem?_set] at hj
    split at hj
    · exact .inl (Prod.mk.inj (Option.some.inj hj).symm)
    · next hij =>
      refine .inr ⟨?_, List.mem_of_getElem? hj⟩
      rintro rfl
      refine hij ((List.getElem?_inj (by simpa using hlt) hnodup).mp ?_)
      rw [List.getElem?_map, List.getElem?_map, hi, hj]
      rfl
  · rintro (⟨rfl, rfl⟩ | ⟨hne, hmem⟩)
    · exact List.mem_set hlt _
    · obtain ⟨j, hj⟩ := List.getElem?_of_mem hmem
      have hij : i ≠ j := by
        rintro rfl
        exact hne (congrArg Prod.fst (Option.some.inj (hj.symm.trans hi)))
      refine List.mem_of_getElem? (i := j) ?_
      rw [List.getElem?_set_ne hij, hj]

end

/-! ### Sums -/

/-- The sum of a measure over the values of a table. -/
def total (f : β → ℕ) (s : AList fun _ : α => β) : ℕ :=
  (s.entries.map fun e => f e.2).sum

lemma total_erase (f : β → ℕ) (s : AList fun _ : α => β) (a : α) :
    total f (s.erase a) + ((s.lookup a).map f).getD 0 = total f s := by
  obtain ⟨l, hl⟩ := s
  show ((l.kerase a).map fun e => f e.2).sum + ((l.dlookup a).map f).getD 0 =
    (l.map fun e => f e.2).sum
  clear hl
  induction l with
  | nil => rfl
  | cons e l ih =>
    obtain ⟨x, y⟩ := e
    by_cases ha : a = x
    · subst ha
      simp [Nat.add_comm]
    · rw [List.kerase_cons_ne ha, List.dlookup_cons_ne _ _ ha]
      simp only [List.map_cons, List.sum_cons]
      omega

lemma total_insert (f : β → ℕ) (s : AList fun _ : α => β) (a : α) (b : β) :
    total f (s.insert a b) = f b + total f (s.erase a) := rfl

lemma total_replace (f : β → ℕ) {s : AList fun _ : α => β} {a : α} {b : β}
    (h : s.lookup a = some b) (b' : β) : total f (s.replace a b') + f b = total f s + f b' := by
  obtain ⟨l, hl⟩ := s
  change l.dlookup a = some b at h
  show ((l.kreplace a b').map fun e => f e.2).sum + f b = (l.map fun e => f e.2).sum + f b'
  clear hl
  induction l with
  | nil => simp at h
  | cons e l ih =>
    obtain ⟨x, y⟩ := e
    by_cases ha : a = x
    · subst ha
      obtain rfl : y = b := by simpa using h
      rw [kreplace_cons_eq]
      simp only [List.map_cons, List.sum_cons]
      omega
    · rw [List.dlookup_cons_ne _ _ ha] at h
      rw [kreplace_cons_ne l ha]
      have hrest := ih h
      simp only [List.map_cons, List.sum_cons]
      omega

end Raftrust.Lib

import Mathlib.Data.Finset.Sort
import Mathlib.Data.Finset.Max
import Mathlib.Data.Set.Finite.Basic

/-!
# Finite maps from numbers

A map from numbers to values that is defined at finitely many places, seen as a sequence: the values
in the order of their places, and the last place. A list in which every value knows its place, each
after the one before, is the sequence of the map it lists.
-/

namespace Raftrust.Lib

@[ext] structure FiniteMap (α : Type*) where
  get : ℕ → Option α
  finite : {i | get i ≠ none}.Finite

namespace FiniteMap

variable {α : Type*}

/-- Put a value at a place. -/
def insert (m : FiniteMap α) (i : ℕ) (a : α) : FiniteMap α where
  get j := if j = i then some a else m.get j
  finite := by
    refine (m.finite.insert i).subset fun j hj => ?_
    by_cases hji : j = i
    · exact .inl hji
    · exact .inr (by simpa [hji] using hj)

/-- Forget the values at places without `P`. -/
def restrict (m : FiniteMap α) (P : ℕ → Prop) [DecidablePred P] : FiniteMap α where
  get j := if P j then m.get j else none
  finite := by
    refine m.finite.subset fun j hj => ?_
    by_cases hP : P j
    · simpa [hP] using hj
    · simp [hP] at hj

/-- The places. -/
noncomputable def places (m : FiniteMap α) : Finset ℕ :=
  m.finite.toFinset

/-- The values in the order of their places. -/
noncomputable def values (m : FiniteMap α) : List α :=
  (m.places.sort (· ≤ ·)).filterMap m.get

/-- The last place and its value. -/
noncomputable def last? (m : FiniteMap α) : Option (ℕ × α) :=
  m.places.max.recBotCoe none fun i => (m.get i).map (i, ·)

lemma mem_places {m : FiniteMap α} {i : ℕ} : i ∈ m.places ↔ ∃ a, m.get i = some a := by
  simp [places, Option.ne_none_iff_exists']

/-! ### Lists -/

/-- The map that a list of values with their places describes. -/
def ofList (place : α → ℕ) (l : List α) : FiniteMap α where
  get i := l.find? fun a => place a = i
  finite := by
    refine (l.map place).toFinset.finite_toSet.subset fun i hi => ?_
    obtain ⟨a, ha⟩ := Option.ne_none_iff_exists'.mp hi
    have hplace : place a = i := by simpa using List.find?_some ha
    simpa using ⟨a, List.mem_of_find?_eq_some ha, hplace⟩

section

variable {place : α → ℕ} {l : List α}

/-- Every value stands at its place. -/
lemma get_ofList_eq_some_iff (h : l.Pairwise fun a b => place a < place b) {i : ℕ} {a : α} :
    (ofList place l).get i = some a ↔ a ∈ l ∧ place a = i := by
  constructor
  · intro hget
    exact ⟨List.mem_of_find?_eq_some hget, by simpa using List.find?_some hget⟩
  · rintro ⟨hmem, rfl⟩
    -- an earlier value has an earlier place
    obtain ⟨before, after, rfl⟩ := List.append_of_mem hmem
    have hbefore : ∀ b ∈ before, place b ≠ place a := by
      rw [List.pairwise_append] at h
      exact fun b hb => (h.2.2 b hb a List.mem_cons_self).ne
    have hnone : before.find? (fun b => place b = place a) = none := by
      simpa [List.find?_eq_none] using hbefore
    simp [ofList, List.find?_append, hnone]

lemma places_ofList (h : l.Pairwise fun a b => place a < place b) :
    (ofList place l).places = (l.map place).toFinset := by
  ext i
  rw [mem_places, List.mem_toFinset, List.mem_map]
  simp only [get_ofList_eq_some_iff h]

lemma values_ofList (h : l.Pairwise fun a b => place a < place b) :
    (ofList place l).values = l := by
  have hpairwise : (l.map place).Pairwise (· < ·) := List.pairwise_map.mpr h
  have hsort : (ofList place l).places.sort (· ≤ ·) = l.map place := by
    rw [places_ofList h, List.toFinset_sort _ (hpairwise.imp fun hlt => hlt.ne)]
    exact hpairwise.imp fun hlt => hlt.le
  rw [values, hsort, List.filterMap_map]
  have hget : ∀ a ∈ l, ((ofList place l).get ∘ place) a = some a := fun a ha =>
    (get_ofList_eq_some_iff h).mpr ⟨ha, rfl⟩
  rw [List.filterMap_congr hget, List.filterMap_some]

lemma last?_ofList (h : l.Pairwise fun a b => place a < place b) :
    (ofList place l).last? = l.getLast?.map fun a => (place a, a) := by
  rw [last?]
  rcases List.eq_nil_or_concat l with rfl | ⟨l, a, rfl⟩
  · have hempty : (ofList place ([] : List α)).places = ∅ := places_ofList .nil
    rw [hempty]
    rfl
  · rw [List.concat_eq_append] at h ⊢
    have hget : (ofList place (l ++ [a])).get (place a) = some a :=
      (get_ofList_eq_some_iff h).mpr ⟨by simp, rfl⟩
    have hmax : (ofList place (l ++ [a])).places.max = place a := by
      rw [places_ofList h]
      refine le_antisymm (Finset.max_le fun i hi => ?_) (Finset.le_max (by simp))
      rw [List.pairwise_append] at h
      simp only [List.map_append, List.mem_toFinset, List.mem_append, List.mem_map,
        List.map_cons, List.map_nil, List.mem_singleton] at hi
      rcases hi with ⟨b, hb, rfl⟩ | rfl
      · exact WithBot.coe_le_coe.mpr (h.2.2 b hb a (by simp)).le
      · exact le_rfl
    rw [hmax]
    show ((ofList place (l ++ [a])).get (place a)).map _ = _
    rw [hget, List.getLast?_concat]
    rfl

/-- A map with the values of the list at their places is the one that the list describes. -/
lemma eq_ofList {m : FiniteMap α} (h : l.Pairwise fun a b => place a < place b)
    (hm : ∀ i a, m.get i = some a ↔ a ∈ l ∧ place a = i) : m = ofList place l := by
  apply FiniteMap.ext
  funext i
  apply Option.ext
  intro a
  rw [hm, get_ofList_eq_some_iff h]

lemma restrict_ofList (h : l.Pairwise fun a b => place a < place b) (P : ℕ → Prop)
    [DecidablePred P] :
    (ofList place l).restrict P = ofList place (l.filter fun a => P (place a)) := by
  refine eq_ofList (h.filter _) fun i a => ?_
  rw [List.mem_filter, decide_eq_true_eq, restrict]
  by_cases hP : P i
  · simp only [hP, if_true, get_ofList_eq_some_iff h]
    constructor
    · rintro ⟨hmem, rfl⟩
      exact ⟨⟨hmem, hP⟩, rfl⟩
    · rintro ⟨⟨hmem, -⟩, rfl⟩
      exact ⟨hmem, rfl⟩
  · simp only [hP, if_false]
    constructor
    · rintro ⟨⟩
    · rintro ⟨⟨-, hPa⟩, rfl⟩
      exact absurd hPa hP

/-- Values that come after all others are added at the end. -/
lemma foldl_insert_ofList {as : List α} (h : (l ++ as).Pairwise fun a b => place a < place b) :
    as.foldl (fun m a => m.insert (place a) a) (ofList place l) = ofList place (l ++ as) := by
  induction as generalizing l with
  | nil => simp
  | cons a as ih =>
    rw [List.append_cons] at h
    have hsnoc : (l ++ [a]).Pairwise fun a b => place a < place b := (List.pairwise_append.mp h).1
    have hl : l.Pairwise fun a b => place a < place b := (List.pairwise_append.mp hsnoc).1
    have hinsert : (ofList place l).insert (place a) a = ofList place (l ++ [a]) := by
      refine eq_ofList hsnoc fun i b => ?_
      simp only [insert, List.mem_append, List.mem_singleton]
      by_cases hi : i = place a
      · subst hi
        rw [if_pos rfl, Option.some_inj]
        constructor
        · rintro rfl
          exact ⟨.inr rfl, rfl⟩
        · rintro ⟨hb | rfl, hplace⟩
          · have hlt := (List.pairwise_append.mp hsnoc).2.2 b hb a (by simp)
            exact absurd hplace hlt.ne
          · rfl
      · rw [if_neg hi, get_ofList_eq_some_iff hl]
        constructor
        · rintro ⟨hb, rfl⟩
          exact ⟨.inl hb, rfl⟩
        · rintro ⟨hb | rfl, rfl⟩
          · exact ⟨hb, rfl⟩
          · exact absurd rfl hi
    rw [List.foldl_cons, hinsert, ih h, ← List.append_cons]

end

end FiniteMap

end Raftrust.Lib

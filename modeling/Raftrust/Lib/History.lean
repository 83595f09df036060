import Mathlib.Data.List.Infix
import Mathlib.Data.List.TakeDrop

/-!
# Term-indexed histories

A history gives for every term the log its leader built. A log *matches* a history when each of
its entries sits on top of exactly the prefix that the leader of the entry's term had under it.
Two logs that match the same history agree up to any position where their terms agree, which is
the log matching property; everything below is about how logs and histories may grow.
-/

namespace Raftrust.Lib

variable {α : Type*} (term : α → ℕ)

/-! ### Prefixes -/

lemma take_eq_of_isPrefix {L L' H : List α} {n : ℕ} (h : L.take n <+: H)
    (h' : L'.take n <+: H) (hn : n ≤ L.length) (hn' : n ≤ L'.length) : L.take n = L'.take n := by
  have hlen : (L.take n).length = (L'.take n).length := by simp [hn, hn']
  exact (List.prefix_of_prefix_length_le h h' hlen.le).eq_of_length hlen

/-- A prefix shows the entries of the longer list. -/
lemma getElem?_of_isPrefix {L H : List α} {i : ℕ} {e : α} (h : L <+: H) (he : L[i]? = some e) :
    H[i]? = some e := by
  obtain ⟨hi, rfl⟩ := List.getElem?_eq_some_iff.mp he
  exact (List.prefix_iff_getElem?.mp h) i hi

lemma getElem?_of_take_isPrefix {L H : List α} {i n : ℕ} {e : α} (h : L.take n <+: H)
    (hi : i < n) (he : L[i]? = some e) : H[i]? = some e :=
  getElem?_of_isPrefix h (by rw [List.getElem?_take_of_lt hi, he])

/-! ### Matching -/

/-- Every entry of `L` stands on the prefix that the history of its term has under it. -/
def Matches (G : ℕ → List α) (L : List α) : Prop :=
  ∀ i e, L[i]? = some e → L.take (i + 1) <+: G (term e)

variable {term}
variable {G G' : ℕ → List α} {L L' : List α}

lemma matches_nil : Matches term G ([] : List α) := by
  intro i e he
  simp at he

lemma Matches.of_isPrefix (h : Matches term G L) (hp : L' <+: L) : Matches term G L' := by
  intro i e he
  have hi : i < L'.length := (List.getElem?_eq_some_iff.mp he).1
  have htake : L'.take (i + 1) = L.take (i + 1) := by
    obtain ⟨rest, rfl⟩ := hp
    rw [List.take_append_of_le_length (by omega)]
  rw [htake]
  exact h i e (getElem?_of_isPrefix hp he)

lemma Matches.take (h : Matches term G L) (n : ℕ) : Matches term G (L.take n) :=
  h.of_isPrefix (List.take_prefix n L)

/-- An entry of a matching log stands at the same position of its term's history. -/
lemma Matches.getElem?_history (h : Matches term G L) {i : ℕ} {e : α} (he : L[i]? = some e) :
    (G (term e))[i]? = some e :=
  getElem?_of_take_isPrefix (h i e he) (Nat.lt_succ_self i) he

/-- **Log matching.** Logs that match one history and agree on the term at a position agree up to
that position. -/
theorem Matches.take_eq (h : Matches term G L) (h' : Matches term G L') {i : ℕ} {e e' : α}
    (he : L[i]? = some e) (he' : L'[i]? = some e') (hterm : term e = term e') :
    L.take (i + 1) = L'.take (i + 1) := by
  have hi : i < L.length := (List.getElem?_eq_some_iff.mp he).1
  have hi' : i < L'.length := (List.getElem?_eq_some_iff.mp he').1
  have hp' := h' i e' he'
  rw [← hterm] at hp'
  exact take_eq_of_isPrefix (h i e he) hp' hi hi'

lemma Matches.eq_of_term_eq (h : Matches term G L) (h' : Matches term G L') {i : ℕ} {e e' : α}
    (he : L[i]? = some e) (he' : L'[i]? = some e') (hterm : term e = term e') : e = e' := by
  have hG := h.getElem?_history he
  rw [hterm, h'.getElem?_history he'] at hG
  exact (Option.some.inj hG).symm

/-- Matching survives the growth of the history. -/
lemma Matches.mono (h : Matches term G L) (hG : ∀ t, G t <+: G' t) : Matches term G' L :=
  fun i e he => (h i e he).trans (hG (term e))

/-- A well-formed history matches itself and holds at each term no later entries. -/
structure WellFormed (term : α → ℕ) (G : ℕ → List α) : Prop where
  self : ∀ t, Matches term G (G t)
  term_le : ∀ t, ∀ e ∈ G t, term e ≤ t

/-- In a log that matches a well-formed history terms never decrease. -/
lemma Matches.term_mono (h : Matches term G L) (hG : WellFormed term G) {i j : ℕ} {e e' : α}
    (hij : i ≤ j) (he : L[i]? = some e) (he' : L[j]? = some e') : term e ≤ term e' := by
  have hmem : e ∈ G (term e') := by
    have hi := getElem?_of_take_isPrefix (h j e' he') (by omega) he
    exact List.mem_of_getElem? hi
  exact hG.term_le (term e') e hmem

/-- A log without later terms that contains an entry created in `t` is part of the history of
`t`. -/
lemma Matches.prefix_of_own (h : Matches term G L) (hG : WellFormed term G) {t i : ℕ} {e : α}
    (hle : ∀ x ∈ L, term x ≤ t) (he : L[i]? = some e) (hterm : term e = t) : L <+: G t := by
  have hi : i < L.length := (List.getElem?_eq_some_iff.mp he).1
  have hlast : L[L.length - 1]? = some L[L.length - 1] := List.getElem?_eq_getElem _
  have hge := h.term_mono hG (by omega) he hlast
  have hle' := hle _ (List.mem_of_getElem? hlast)
  have heq : term L[L.length - 1] = t := by omega
  have hp := h _ _ hlast
  rwa [heq, Nat.sub_add_cancel (by omega), List.take_length] at hp

/-- Extending a matching log by entries of one term, and the history of that term with it. -/
lemma Matches.append (h : Matches term G L) {t : ℕ} {es : List α} (hes : ∀ e ∈ es, term e = t)
    (hG : ∀ s, G s <+: G' s) (ht : G' t = L ++ es) : Matches term G' (L ++ es) := by
  intro i e he
  by_cases hi : i < L.length
  · rw [List.take_append_of_le_length (by omega)]
    rw [List.getElem?_append_left hi] at he
    exact (h.mono hG) i e he
  · rw [List.getElem?_append_right (by omega)] at he
    rw [hes e (List.mem_of_getElem? he), ht]
    exact List.take_prefix _ _

/-! ### Splicing -/

/-- Lay `es` over the start of `L`: keep `L` as long as the terms agree, and from the first
disagreement or the end of `L` on continue with `es`. -/
def splice (term : α → ℕ) : List α → List α → List α
  | [], es => es
  | x :: L, [] => x :: L
  | x :: L, e :: es => if term x = term e then x :: splice term L es else e :: es

@[simp] lemma splice_nil_left (es : List α) : splice term [] es = es := by
  cases es <;> rfl

@[simp] lemma splice_nil_right (L : List α) : splice term L [] = L := by
  cases L <;> rfl

@[simp] lemma splice_cons_cons (x e : α) (L es : List α) :
    splice term (x :: L) (e :: es) =
      if term x = term e then x :: splice term L es else e :: es := rfl

/-- Where equal terms mean equal entries, splicing leaves `L` as it is if `es` is a prefix of it,
and yields `es` otherwise. -/
lemma splice_eq : ∀ {L es : List α},
    (∀ (i : ℕ) (x e : α), L[i]? = some x → es[i]? = some e → term x = term e → x = e) →
    (es <+: L ∧ splice term L es = L) ∨ (¬ es <+: L ∧ splice term L es = es)
  | [], [], _ => .inl ⟨List.prefix_rfl, rfl⟩
  | [], e :: es, _ => .inr ⟨by simp, rfl⟩
  | x :: L, [], _ => .inl ⟨List.nil_prefix, rfl⟩
  | x :: L, e :: es, h => by
    rw [splice_cons_cons, List.cons_prefix_cons]
    by_cases hterm : term x = term e
    · have hxe : x = e := h 0 x e rfl rfl hterm
      have htail : ∀ (i : ℕ) (y f : α), L[i]? = some y → es[i]? = some f →
          term y = term f → y = f := fun i y f hy hf => h (i + 1) y f hy hf
      rw [if_pos hterm]
      rcases splice_eq htail with ⟨hp, heq⟩ | ⟨hp, heq⟩
      · exact .inl ⟨⟨hxe.symm, hp⟩, by rw [heq]⟩
      · exact .inr ⟨fun h' => hp h'.2, by rw [heq, hxe]⟩
    · rw [if_neg hterm]
      exact .inr ⟨fun h' => hterm (by rw [h'.1]), rfl⟩

/-- Splicing a slice of a term's history over a matching log that agrees with the history up to
the start of the slice gives the old log or the history up to the end of the slice. -/
theorem splice_history (hL : Matches term G L) (hG : WellFormed term G)
    {t p k : ℕ} (hp : L.take p = (G t).take p) (hpk : p ≤ k) :
    let S := L.take p ++ splice term (L.drop p) (((G t).take k).drop p)
    ((G t).take k <+: L ∧ S = L) ∨ (¬ (G t).take k <+: L ∧ S = (G t).take k) := by
  have htake : L.take p = ((G t).take k).take p := by rw [List.take_take, min_eq_left hpk, hp]
  have hiff : ((G t).take k).drop p <+: L.drop p ↔ (G t).take k <+: L := by
    conv_rhs => rw [← List.take_append_drop p ((G t).take k), ← List.take_append_drop p L, htake,
      List.prefix_append_right_inj]
  have hagree : ∀ (i : ℕ) (x e : α), (L.drop p)[i]? = some x →
      (((G t).take k).drop p)[i]? = some e → term x = term e → x = e := by
    intro i x e hx he hterm
    rw [List.getElem?_drop] at hx he
    exact hL.eq_of_term_eq ((hG.self t).take k) hx he hterm
  rcases splice_eq hagree with ⟨hpre, heq⟩ | ⟨hpre, heq⟩
  · exact .inl ⟨hiff.mp hpre, by rw [heq, List.take_append_drop]⟩
  · exact .inr ⟨fun h => hpre (hiff.mpr h), by rw [heq, htake, List.take_append_drop]⟩

end Raftrust.Lib

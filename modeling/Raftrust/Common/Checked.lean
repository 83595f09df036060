import Mathlib.Algebra.BigOperators.Group.List.Basic
import Raftrust.Common.Types
import Raftrust.Lib.Run

/-!
# Arithmetic that is checked

Machine words of 64 bits whose operations panic when the result is not a word, as they do in a build
with overflow checks. A computation that does not panic has the value it has in the natural numbers.
-/

namespace Raftrust

open Lib

def checkedAdd (a b : ℕ) : Except Abort ℕ :=
  if a + b < 2 ^ 64 then .ok (a + b) else .error .panicked

def checkedSub (a b : ℕ) : Except Abort ℕ :=
  if b ≤ a then .ok (a - b) else .error .panicked

/-- The addition of signed words. -/
def checkedAddI64 (a b : Int64) : Except Abort Int64 :=
  if -2 ^ 63 ≤ a.toInt + b.toInt ∧ a.toInt + b.toInt < 2 ^ 63 then .ok (a + b)
  else .error .panicked

/-- An element of a vector. An index behind its end panics. -/
def indexAt {α : Type*} (l : List α) (i : ℕ) : Except Abort α :=
  match l[i]? with
  | some a => .ok a
  | none => .error .panicked

/-- The computation does not panic: it returns, or reports an error. -/
def Safe {α : Type*} (x : Except Abort α) : Prop :=
  x ≠ .error .panicked

lemma checkedAdd_of_lt {a b : ℕ} (h : a + b < 2 ^ 64) : checkedAdd a b = .ok (a + b) :=
  if_pos h

lemma checkedAdd_of_le {a b : ℕ} (h : 2 ^ 64 ≤ a + b) : checkedAdd a b = .error .panicked :=
  if_neg (not_lt.mpr h)

lemma checkedSub_of_le {a b : ℕ} (h : b ≤ a) : checkedSub a b = .ok (a - b) :=
  if_pos h

/-- A sum of signed words is the one in the integers, or there is none. -/
lemma checkedAddI64_eq_ok_iff {a b c : Int64} :
    checkedAddI64 a b = .ok c ↔ c.toInt = a.toInt + b.toInt := by
  rw [checkedAddI64]
  constructor
  · intro h
    split at h
    · next hrange =>
      obtain rfl := Except.ok.inj h
      rw [Int64.toInt_add, Int.bmod_eq_of_le_mul_two (by omega) (by omega)]
    · cases h
  · intro h
    have hlo := c.le_toInt
    have hhi := c.toInt_lt
    rw [if_pos ⟨h ▸ hlo, h ▸ hhi⟩]
    refine congrArg Except.ok (Int64.toInt_inj.mp ?_)
    rw [h, Int64.toInt_add, Int.bmod_eq_of_le_mul_two (by omega) (by omega)]

/-- A word as a signed one. -/
lemma toInt_toInt64_ofNat {n : ℕ} (h : n < 2 ^ 64) :
    (UInt64.ofNat n).toInt64.toInt = if n < 2 ^ 63 then (n : ℤ) else n - 2 ^ 64 := by
  have hnat : (UInt64.ofNat n).toBitVec.toNat = n := UInt64.toNat_ofNat_of_lt' h
  have hbmod : (UInt64.ofNat n).toInt64.toInt = (n : ℤ).bmod (2 ^ 64) := by
    change (UInt64.ofNat n).toBitVec.toInt = _
    rw [BitVec.toInt_eq_toNat_bmod, hnat]
  rw [hbmod, Int.bmod_def]
  split <;> split <;> omega

lemma indexAt_of_getElem? {α : Type*} {l : List α} {i : ℕ} {a : α} (h : l[i]? = some a) :
    indexAt l i = .ok a := by
  rw [indexAt, h]

lemma indexAt_cons_zero {α : Type*} (a : α) (l : List α) : indexAt (a :: l) 0 = .ok a := rfl

section

universe u

variable {α β : Type u} {x : Except Abort α}

lemma safe_ok (a : α) : Safe (.ok a : Except Abort α) := by
  rintro ⟨⟩

lemma safe_error (e : Error) : Safe (.error (.error e) : Except Abort α) := by
  rintro ⟨⟩

lemma safe_ok_bind_iff {f : α → Except Abort β} {a : α} :
    Safe ((.ok a : Except Abort α) >>= f) ↔ Safe (f a) :=
  Iff.rfl

/-- A sequence of two computations is safe exactly if the first is, and the second is after it. -/
lemma safe_bind_iff {f : α → Except Abort β} :
    Safe (x >>= f) ↔ Safe x ∧ ∀ a, x = .ok a → Safe (f a) := by
  cases x with
  | ok a =>
    refine ⟨fun h => ⟨safe_ok a, ?_⟩, fun h => h.2 a rfl⟩
    rintro _ ⟨⟩
    exact h
  | error e =>
    refine ⟨fun h => ⟨fun he => h (by rw [he]; rfl), by rintro _ ⟨⟩⟩, fun h he => h.1 ?_⟩
    exact congrArg _ (Except.error.inj he)

/-- A loop is safe exactly if every round is that is reached, with all rounds before it returning.
-/
lemma safe_mapM_iff {γ : Type*} {f : γ → Except Abort α} {cs : List γ} :
    Safe (cs.mapM f) ↔ ∀ (i : ℕ) (c : γ), cs[i]? = some c →
      (∀ j < i, ∀ c', cs[j]? = some c' → ∃ a, f c' = .ok a) → Safe (f c) := by
  induction cs with
  | nil => exact ⟨fun _ i c hc => by simp at hc, fun _ => safe_ok []⟩
  | cons c cs ih =>
    rw [List.mapM_cons, safe_bind_iff]
    constructor
    · rintro ⟨hfirst, hrest⟩ (_ | i) c' hc' hbefore
      · obtain rfl := Option.some.inj hc'
        exact hfirst
      · obtain ⟨a, ha⟩ := hbefore 0 (Nat.succ_pos i) c rfl
        exact ih.mp (safe_bind_iff.mp (hrest a ha)).1 i c' hc' fun j hj c'' hc'' =>
          hbefore (j + 1) (Nat.succ_lt_succ hj) c'' hc''
    · intro h
      refine ⟨h 0 c rfl (by simp), fun a ha => safe_bind_iff.mpr ⟨?_, fun as _ => safe_ok _⟩⟩
      refine ih.mpr fun i c' hc' hbefore => h (i + 1) c' hc' ?_
      rintro (_ | j) hj c'' hc''
      · obtain rfl := Option.some.inj hc''
        exact ⟨a, ha⟩
      · exact hbefore j (Nat.lt_of_succ_lt_succ hj) c'' hc''

end

/-- Adding up a list. -/
def checkedSum (l : List ℕ) : Except Abort ℕ :=
  l.foldlM checkedAdd 0

/-- No intermediate sum is greater than the last one. -/
lemma checkedSum_of_lt {l : List ℕ} (h : l.sum < 2 ^ 64) : checkedSum l = .ok l.sum := by
  have key : ∀ a : ℕ, a + l.sum < 2 ^ 64 → l.foldlM checkedAdd a = .ok (a + l.sum) := by
    clear h
    induction l with
    | nil => exact fun a _ => rfl
    | cons x l ih =>
      intro a ha
      rw [List.sum_cons, ← Nat.add_assoc] at ha ⊢
      rw [List.foldlM_cons, checkedAdd_of_lt (Nat.lt_of_le_of_lt (Nat.le_add_right _ _) ha)]
      exact ih (a + x) ha
  rw [checkedSum]
  simpa using key 0 (by simpa using h)

end Raftrust

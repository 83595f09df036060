import Mathlib.Data.List.Basic
import Mathlib.Order.Nat

/-!
# Broadcast channels

A channel that hands every message to every receiver and keeps only the last `capacity` messages. A
receiver is the number of the message that it reads next. One that has fallen behind by more than
the capacity is told so once, and goes on with the oldest message that is still there.
-/

namespace Raftrust.Lib

structure Broadcast (α : Type*) where
  capacity : ℕ
  /-- All messages that have been sent, also those that are no longer kept. -/
  sent : List α

inductive TryRecvError where
  | empty
  | lagged (missed : ℕ)
  deriving DecidableEq, Repr

namespace Broadcast

variable {α : Type*}

def new (α : Type*) (capacity : ℕ) : Broadcast α :=
  ⟨capacity, []⟩

def send (c : Broadcast α) (a : α) : Broadcast α :=
  { c with sent := c.sent ++ [a] }

/-- A receiver of the messages that are sent from now on. -/
def subscribe (c : Broadcast α) : ℕ :=
  c.sent.length

/-- The number of the oldest message that is kept. -/
def oldest (c : Broadcast α) : ℕ :=
  c.sent.length - c.capacity

/-- The next message for a receiver, and the receiver afterwards. -/
def tryRecv (c : Broadcast α) (next : ℕ) : Except TryRecvError α × ℕ :=
  if next < c.oldest then (.error (.lagged (c.oldest - next)), c.oldest)
  else
    match c.sent[next]? with
    | some a => (.ok a, next + 1)
    | none => (.error .empty, next)

/-- The messages that are kept and that the receiver has not read. -/
def waiting (c : Broadcast α) (next : ℕ) : List α :=
  c.sent.drop (max next c.oldest)

@[simp] lemma send_sent (c : Broadcast α) (a : α) : (c.send a).sent = c.sent ++ [a] := rfl

@[simp] lemma send_capacity (c : Broadcast α) (a : α) : (c.send a).capacity = c.capacity := rfl

@[simp] lemma waiting_subscribe (c : Broadcast α) : c.waiting c.subscribe = [] :=
  List.drop_eq_nil_of_le (le_max_left _ _)

lemma waiting_eq_nil_iff {c : Broadcast α} {next : ℕ} (hfresh : c.oldest ≤ next) :
    c.waiting next = [] ↔ c.sent.length ≤ next := by
  rw [waiting, max_eq_left hfresh, List.drop_eq_nil_iff]

/-- What a receiver is told: that it has missed messages, and the same ones go on waiting for it;
the first message that waits; or that none does. -/
lemma tryRecv_cases (c : Broadcast α) (next : ℕ) :
    (∃ missed next', c.tryRecv next = (.error (.lagged missed), next') ∧ next < c.oldest ∧
      next' ≤ c.sent.length ∧ c.waiting next' = c.waiting next) ∨
    (∃ a, c.tryRecv next = (.ok a, next + 1) ∧ c.oldest ≤ next ∧ next + 1 ≤ c.sent.length ∧
      c.waiting next = a :: c.waiting (next + 1)) ∨
    (c.tryRecv next = (.error .empty, next) ∧ c.oldest ≤ next ∧ c.waiting next = []) := by
  rw [tryRecv]
  by_cases hlag : next < c.oldest
  · rw [if_pos hlag]
    refine .inl ⟨_, _, rfl, hlag, Nat.sub_le _ _, ?_⟩
    rw [waiting, waiting, max_self, max_eq_right hlag.le]
  · rw [if_neg hlag]
    have hle := not_lt.mp hlag
    cases hget : c.sent[next]? with
    | some a =>
      have hlt := (List.getElem?_eq_some_iff.mp hget).1
      refine .inr (.inl ⟨a, rfl, hle, hlt, ?_⟩)
      rw [waiting, waiting, max_eq_left hle, max_eq_left (hle.trans (Nat.le_succ next)),
        List.drop_eq_getElem_cons hlt, (List.getElem?_eq_some_iff.mp hget).2]
    | none =>
      exact .inr (.inr ⟨rfl, hle, (waiting_eq_nil_iff hle).mpr (List.getElem?_eq_none_iff.mp hget)⟩)

/-- A message is one more to wait for, as long as the receiver has room. -/
lemma waiting_send_of_lt {c : Broadcast α} {next : ℕ} (hnext : next ≤ c.sent.length)
    (hroom : c.sent.length < next + c.capacity) (a : α) :
    (c.send a).waiting next = c.waiting next ++ [a] := by
  have hold : c.oldest ≤ next := by
    rw [oldest]
    omega
  have hnew : (c.send a).oldest ≤ next := by
    rw [oldest, send_sent, send_capacity, List.length_append, List.length_singleton]
    omega
  rw [waiting, waiting, max_eq_left hold, max_eq_left hnew, send_sent,
    List.drop_append_of_le_length hnext]

/-- Otherwise it takes the place of the oldest one. -/
lemma waiting_send_of_le {c : Broadcast α} {next : ℕ} (hcapacity : 0 < c.capacity)
    (hfull : next + c.capacity ≤ c.sent.length) (a : α) :
    ∃ b rest, c.sent[c.sent.length - c.capacity]? = some b ∧ c.waiting next = b :: rest ∧
      (c.send a).waiting next = rest ++ [a] := by
  have hlt : c.sent.length - c.capacity < c.sent.length := by omega
  have hold : next ≤ c.oldest := by
    rw [oldest]
    omega
  have hnew : (c.send a).oldest = c.oldest + 1 := by
    rw [oldest, oldest, send_sent, send_capacity, List.length_append, List.length_singleton]
    omega
  refine ⟨_, c.sent.drop (c.oldest + 1), List.getElem?_eq_getElem hlt, ?_, ?_⟩
  · rw [waiting, max_eq_right hold]
    exact List.drop_eq_getElem_cons hlt
  · rw [waiting, hnew, max_eq_right (hold.trans (Nat.le_succ _)), send_sent]
    exact List.drop_append_of_le_length hlt

end Broadcast

end Raftrust.Lib

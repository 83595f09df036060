import Mathlib.Data.Finset.Basic
import Mathlib.Data.Finset.Card
import Mathlib.Data.Int.Order.Basic
import Mathlib.Data.List.AList
import Mathlib.Data.List.Sort
import Raftrust.Common.Types

/-!
# Leases

A lease has a time to live and a set of keys that are deleted when it ends. Every node keeps its own
table of leases and looks at its own clock. Sets and tables are hashed: the order in which they hand
out their elements is arbitrary and enters as an argument. Instants are in nanoseconds.
-/

namespace Raftrust.Server

/-- An order in which a hash set hands out its elements, each once. -/
structure IterationOrder (α : Type) where
  toList : Finset α → List α
  nodup : ∀ s, (toList s).Nodup
  mem_toList : ∀ {s a}, a ∈ toList s ↔ a ∈ s

namespace IterationOrder

def ascending (α : Type) [LE α] [DecidableLE α] [Std.Total (α := α) (· ≤ ·)]
    [IsTrans α (· ≤ ·)] [Std.Antisymm (α := α) (· ≤ ·)] : IterationOrder α where
  toList s := Quotient.liftOn s.val (fun l => l.insertionSort (· ≤ ·)) fun l l' h =>
    ((l.perm_insertionSort (· ≤ ·)).trans
      (h.trans (l'.perm_insertionSort (· ≤ ·)).symm)).eq_of_pairwise'
        (l.pairwise_insertionSort (· ≤ ·)) (l'.pairwise_insertionSort (· ≤ ·))
  nodup s := by
    obtain ⟨⟨l⟩, hl⟩ := s
    exact (l.perm_insertionSort (· ≤ ·)).nodup_iff.mpr hl
  mem_toList {s a} := by
    obtain ⟨⟨l⟩, hl⟩ := s
    exact List.mem_insertionSort (· ≤ ·)

/-! Keys and lease identifiers can be handed out in ascending order. -/

instance : Std.Total (α := Bytes) (· ≤ ·) := inferInstance

instance : IsTrans Bytes (· ≤ ·) := inferInstance

instance : Std.Antisymm (α := Bytes) (· ≤ ·) := inferInstance

instance : Std.Total (α := Int64) (· ≤ ·) := inferInstance

instance : IsTrans Int64 (· ≤ ·) := inferInstance

instance : Std.Antisymm (α := Int64) (· ≤ ·) := inferInstance

def reverse {α : Type} (order : IterationOrder α) : IterationOrder α where
  toList s := (order.toList s).reverse
  nodup s := List.nodup_reverse.mpr (order.nodup s)
  mem_toList {s a} := by rw [List.mem_reverse, order.mem_toList]

lemma length_toList {α : Type} (order : IterationOrder α) (s : Finset α) :
    (order.toList s).length = s.card := by
  classical
  rw [← List.toFinset_card_of_nodup (order.nodup s)]
  congr 1
  ext a
  rw [List.mem_toFinset, order.mem_toList]

end IterationOrder

structure Lease where
  id : Int64
  grantedTtl : Int64
  /-- When the lease was granted or last renewed. -/
  lastRenewed : ℕ
  keys : Finset Bytes
  deriving DecidableEq

namespace Lease

def new (id ttl : Int64) (now : ℕ) : Lease where
  id := id
  grantedTtl := ttl
  lastRenewed := now
  keys := ∅

/-- Remaining time in whole seconds, `0` if expired. -/
def remainingTtl (lease : Lease) (now : ℕ) : ℤ :=
  let elapsed : ℕ := (now - lease.lastRenewed) / 10 ^ 9
  max (lease.grantedTtl.toInt - elapsed) 0

def isExpired (lease : Lease) (now : ℕ) : Bool :=
  lease.remainingTtl now = 0

def renew (lease : Lease) (now : ℕ) : Lease :=
  { lease with lastRenewed := now }

def attachKey (lease : Lease) (key : Bytes) : Lease :=
  { lease with keys := insert key lease.keys }

def detachKey (lease : Lease) (key : Bytes) : Lease :=
  { lease with keys := lease.keys.erase key }

end Lease

inductive LeaseError where
  | notFound (id : Int64)
  | alreadyExists (id : Int64)
  | expired (id : Int64)
  | invalidTtl
  deriving DecidableEq, Repr

structure LeaseManager where
  leases : AList fun _ : Int64 => Lease
  nextId : Int64

namespace LeaseManager

def new : LeaseManager where
  leases := ∅
  nextId := 1

/-- Grant a lease. The identifier `0` asks for a fresh one. -/
def grant (mgr : LeaseManager) (id ttl : Int64) (now : ℕ) :
    Except LeaseError (Int64 × Int64 × LeaseManager) :=
  if ttl ≤ 0 then .error .invalidTtl
  else if id = 0 then
    let leaseId := mgr.nextId
    .ok (leaseId, ttl,
      { leases := mgr.leases.insert leaseId (.new leaseId ttl now), nextId := mgr.nextId + 1 })
  else if (mgr.leases.lookup id).isSome then .error (.alreadyExists id)
  else
    .ok (id, ttl,
      { leases := mgr.leases.insert id (.new id ttl now), nextId := max mgr.nextId (id + 1) })

/-- Renew a lease that has not expired. Returns its time to live. -/
def keepalive (mgr : LeaseManager) (id : Int64) (now : ℕ) :
    Except LeaseError (Int64 × LeaseManager) :=
  match mgr.leases.lookup id with
  | none => .error (.notFound id)
  | some lease =>
    if lease.isExpired now then .error (.expired id)
    else .ok (lease.grantedTtl, { mgr with leases := mgr.leases.replace id (lease.renew now) })

/-- Remove a lease. Returns the keys that were attached to it. -/
def revoke (mgr : LeaseManager) (id : Int64) (order : IterationOrder Bytes) :
    Except LeaseError (List Bytes × LeaseManager) :=
  match mgr.leases.lookup id with
  | none => .error (.notFound id)
  | some lease => .ok (order.toList lease.keys, { mgr with leases := mgr.leases.erase id })

def attachKey (mgr : LeaseManager) (leaseId : Int64) (key : Bytes) :
    Except LeaseError LeaseManager :=
  match mgr.leases.lookup leaseId with
  | none => .error (.notFound leaseId)
  | some lease => .ok { mgr with leases := mgr.leases.replace leaseId (lease.attachKey key) }

def detachKey (mgr : LeaseManager) (leaseId : Int64) (key : Bytes) : LeaseManager :=
  match mgr.leases.lookup leaseId with
  | none => mgr
  | some lease => { mgr with leases := mgr.leases.replace leaseId (lease.detachKey key) }

/-- Remove all leases that have expired. Returns them with their keys. -/
def collectExpired (mgr : LeaseManager) (now : ℕ) (ids : IterationOrder Int64)
    (order : IterationOrder Bytes) : List (Int64 × List Bytes) × LeaseManager :=
  let expiredIds := ids.toList
    (mgr.leases.keys.filter fun id => (mgr.leases.lookup id).any (·.isExpired now)).toFinset
  expiredIds.foldl
    (fun (expired, mgr) id =>
      match mgr.leases.lookup id with
      | some lease =>
        (expired ++ [(id, order.toList lease.keys)], { mgr with leases := mgr.leases.erase id })
      | none => (expired, mgr))
    ([], mgr)

end LeaseManager

end Raftrust.Server

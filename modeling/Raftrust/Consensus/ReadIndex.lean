import Mathlib.Data.Finset.Card
import Mathlib.Data.List.AList
import Raftrust.Common.Types

/-!
# Pending linearizable reads
-/

namespace Raftrust.Consensus

/-- A read waiting for a quorum of heartbeat acknowledgements. -/
structure ReadIndexRequest where
  readIndex : LogIndex
  acks : Finset NodeId
  clusterSize : ℕ

namespace ReadIndexRequest

def new (readIndex : LogIndex) (selfId : NodeId) (clusterSize : ℕ) : ReadIndexRequest where
  readIndex := readIndex
  acks := {selfId}
  clusterSize := clusterSize

def hasQuorum (r : ReadIndexRequest) : Bool :=
  decide (r.clusterSize / 2 + 1 ≤ r.acks.card)

def recordAck (r : ReadIndexRequest) (sender : NodeId) : ReadIndexRequest × Bool :=
  let r := { r with acks := insert sender r.acks }
  (r, r.hasQuorum)

end ReadIndexRequest

structure ReadIndexState where
  nextId : ℕ
  pending : AList fun _ : ℕ => ReadIndexRequest

namespace ReadIndexState

def new : ReadIndexState where
  nextId := 1
  pending := ∅

def register (s : ReadIndexState) (readIndex : LogIndex) (selfId : NodeId) (clusterSize : ℕ) :
    ReadIndexState × ℕ :=
  ({ nextId := s.nextId + 1
     pending := s.pending.insert s.nextId (ReadIndexRequest.new readIndex selfId clusterSize) },
    s.nextId)

/-- Count an acknowledgement for every pending read; returns those that now have a quorum. -/
def recordAck (s : ReadIndexState) (sender : NodeId) : ReadIndexState × List ℕ :=
  let acked := s.pending.entries.map fun p => (p.1, p.2.recordAck sender)
  ({ s with pending := acked.foldl (fun m p => m.insert p.1 p.2.1) s.pending },
    (acked.filter fun p => p.2.2).map (·.1))

def takeConfirmed (s : ReadIndexState) (id : ℕ) : ReadIndexState × Option LogIndex :=
  ({ s with pending := s.pending.erase id }, (s.pending.lookup id).map (·.readIndex))

/-- Drop all pending reads; the counter goes on. -/
def clear (s : ReadIndexState) : ReadIndexState :=
  { s with pending := ∅ }

def isConfirmed (s : ReadIndexState) (id : ℕ) : Bool :=
  (s.pending.lookup id).any (·.hasQuorum)

end ReadIndexState

end Raftrust.Consensus

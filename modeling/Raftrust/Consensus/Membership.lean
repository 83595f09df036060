import Mathlib.Data.Finset.Card
import Mathlib.Data.Finset.Dedup
import Raftrust.Common.Types

/-!
# Cluster membership

Configurations and the two phases of joint consensus. The JSON text of a configuration comes from
a library; its functions are the class `ConfigJson`.
-/

namespace Raftrust.Consensus

structure MemberInfo where
  id : NodeId
  address : String
  deriving DecidableEq, Repr

structure ClusterConfig where
  members : List MemberInfo
  deriving DecidableEq, Repr

namespace ClusterConfig

def memberIds (c : ClusterConfig) : Finset NodeId :=
  (c.members.map (·.id)).toFinset

def contains (c : ClusterConfig) (id : NodeId) : Bool :=
  c.members.any fun m => m.id == id

def len (c : ClusterConfig) : ℕ :=
  c.members.length

end ClusterConfig

inductive ConfigChange where
  | addNode (id : NodeId) (address : String)
  | removeNode (id : NodeId)
  deriving DecidableEq, Repr

inductive MembershipError where
  | changeInProgress
  | nodeAlreadyExists (id : NodeId)
  | nodeNotFound (id : NodeId)
  | cannotRemoveLastNode
  | invalidConfigData
  | notLeader
  deriving DecidableEq, Repr

/-- The content of a joint configuration entry. -/
structure JointConfigData where
  old : ClusterConfig
  new : ClusterConfig
  deriving DecidableEq, Repr

/-- The JSON encoding of configurations. -/
class ConfigJson where
  encodeJoint : JointConfigData → Bytes
  decodeJoint : Bytes → Option JointConfigData
  encodeConfig : ClusterConfig → Bytes
  decodeConfig : Bytes → Option ClusterConfig

/-- An encoding for clusters that never change their configuration. -/
@[reducible] def ConfigJson.unused : ConfigJson where
  encodeJoint := fun _ => []
  decodeJoint := fun _ => none
  encodeConfig := fun _ => []
  decodeConfig := fun _ => none

structure MembershipState where
  current : ClusterConfig
  pending : Option ClusterConfig
  changeInProgress : Bool
  deriving DecidableEq, Repr

namespace MembershipState

def new (selfId : NodeId) (peers : List NodeId) : MembershipState where
  current := ⟨⟨selfId, ""⟩ :: peers.map fun peer => ⟨peer, ""⟩⟩
  pending := none
  changeInProgress := false

def allVoters (s : MembershipState) : Finset NodeId :=
  match s.pending with
  | none => s.current.memberIds
  | some pending => s.current.memberIds ∪ pending.memberIds

def currentSize (s : MembershipState) : ℕ :=
  s.current.len

/-- The members of `c` among `voters` are a majority of `c`. -/
def majorityOf (c : ClusterConfig) (voters : Finset NodeId) : Bool :=
  decide (c.len / 2 + 1 ≤ (c.members.filter fun m => m.id ∈ voters).length)

/-- A quorum needs a majority of the current configuration, and during joint consensus of the
pending one as well. -/
def hasQuorum (s : MembershipState) (voters : Finset NodeId) : Bool :=
  if !majorityOf s.current voters then false
  else
    match s.pending with
    | none => true
    | some newConfig => majorityOf newConfig voters

/-- Start a joint consensus transition. The state changes only when the change is accepted. -/
def beginChange (s : MembershipState) (change : ConfigChange) :
    Except MembershipError (MembershipState × JointConfigData) :=
  if s.changeInProgress then .error .changeInProgress
  else
    let start (newMembers : List MemberInfo) :
        Except MembershipError (MembershipState × JointConfigData) :=
      let newConfig := ClusterConfig.mk newMembers
      .ok ({ s with pending := some newConfig, changeInProgress := true },
        { old := s.current, new := newConfig })
    match change with
    | .addNode id address =>
      if s.current.contains id then .error (.nodeAlreadyExists id)
      else start (s.current.members ++ [⟨id, address⟩])
    | .removeNode id =>
      if !s.current.contains id then .error (.nodeNotFound id)
      else
        let newMembers := s.current.members.filter fun m => m.id ≠ id
        if newMembers.isEmpty then .error .cannotRemoveLastNode else start newMembers

/-- Move to the pending configuration, if there is one. -/
def finalizeJoint (s : MembershipState) : MembershipState × Option ClusterConfig :=
  match s.pending with
  | some newConfig =>
    ({ current := newConfig, pending := none, changeInProgress := false }, some newConfig)
  | none => (s, none)

def applyNewConfig (_ : MembershipState) (config : ClusterConfig) : MembershipState where
  current := config
  pending := none
  changeInProgress := false

def abortChange (s : MembershipState) : MembershipState :=
  { s with pending := none, changeInProgress := false }

def isVoter (s : MembershipState) (id : NodeId) : Bool :=
  decide (id ∈ s.allVoters)

end MembershipState

end Raftrust.Consensus

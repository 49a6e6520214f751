import BrokerForest.Message
import BrokerForest.Pool.Kind
/-!
# Notices: what a node reports of itself

A notice becomes one line: its name, the time, the node's identity and what the notice
carries, with commas between them.
-/

namespace BrokerForest

/-- What a node reports of itself. -/
inductive Notice where
  | acceptChild (child : NodeId) (rank : Rank)
  | rejectChild (requester : NodeId) (reason : RefusalKind)
  | attachToFather (father : NodeId) (rank : Rank)
  | fatherGone (father : NodeId)
  | siblingGone (sibling : NodeId)
  | newTree (rank : Rank)
  | startSearch (dead : Option NodeId) (asRoot : Bool)
  | endSearch (found : Option (NodeId × PoolKind)) (tries : Nat)
  | gossip (payload recipients : Nat)
  | violation (origin : NodeId) (subject : String)
deriving DecidableEq

namespace Notice

/-- The name of a notice. -/
def name : Notice → String
  | .acceptChild .. => "AcceptChild"
  | .rejectChild .. => "RejectChild"
  | .attachToFather .. => "AttachToFather"
  | .fatherGone .. => "FatherGone"
  | .siblingGone .. => "SiblingGone"
  | .newTree .. => "NewTree"
  | .startSearch .. => "StartSearch"
  | .endSearch .. => "EndSearch"
  | .gossip .. => "Gossip"
  | .violation .. => "ProtocolViolation"

/-- A rank as two fields. -/
def rankFields (rank : Rank) : List String := [rank.color.label, rank.depth.label]

/-- What a notice carries. -/
def fields : Notice → List String
  | .acceptChild child rank => child.label :: rankFields rank
  | .rejectChild requester reason => [requester.label, reason.name]
  | .attachToFather father rank => father.label :: rankFields rank
  | .fatherGone father => [father.label]
  | .siblingGone sibling => [sibling.label]
  | .newTree rank => rankFields rank
  | .startSearch dead asRoot =>
    [(dead.map NodeId.label).getD "-", if asRoot then "true" else "false"]
  | .endSearch none tries => ["-", "-", toString tries]
  | .endSearch (some (father, source)) tries => [father.label, source.token, toString tries]
  | .gossip payload recipients => [toString payload, toString recipients]
  | .violation origin subject => [origin.label, subject]

/-- The line of a node's notice at a time. -/
def line (time : String) (self : NodeId) (notice : Notice) : String :=
  ", ".intercalate (notice.name :: time :: self.label :: notice.fields)

end Notice

end BrokerForest

/-!
# The kinds of pools

A search draws its candidates from seven kinds of pools, each with a token by which an
order names it.
-/

namespace BrokerForest

/-- The kinds of pools of candidates. -/
inductive PoolKind where
  | downstream
  | upstream
  | minDegree
  | regional
  | busy
  | global
  | maxDegree
deriving DecidableEq, Inhabited

namespace PoolKind

/-- All kinds. -/
def all : List PoolKind :=
  [.downstream, .upstream, .minDegree, .regional, .busy, .global, .maxDegree]

/-- The token of a kind. -/
def token : PoolKind → String
  | .downstream => "downstream"
  | .upstream => "upstream"
  | .minDegree => "min-degree"
  | .regional => "regional"
  | .busy => "busy"
  | .global => "global"
  | .maxDegree => "max-degree"

/-- The name of a kind. -/
def name : PoolKind → String
  | .downstream => "Downstream"
  | .upstream => "Upstream"
  | .minDegree => "MinDegree"
  | .regional => "Regional"
  | .busy => "Busy"
  | .global => "Global"
  | .maxDegree => "MaxDegree"

/-- The kind with a token. -/
def ofToken? (token : String) : Option PoolKind := all.find? fun kind => kind.token == token

end PoolKind

end BrokerForest

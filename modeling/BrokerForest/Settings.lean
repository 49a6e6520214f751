import BrokerForest.Duration
import BrokerForest.Pool.Order
/-!
# Settings of a node
-/

namespace BrokerForest

/-- How a node behaves. -/
structure Settings where
  /-- The bound of the pool of candidates heard of, and of most pools of a search. -/
  globalMax : Nat
  /-- The part of the pool that a round of gossip tells of. -/
  payloadFraction : Float
  /-- The part of the rest of the pool that a round of gossip tells. -/
  recipientFraction : Float
  /-- The bound of the chain of ancestors. -/
  upstreamMax : Nat
  /-- From this number of brokers beside it, a node refuses another. -/
  maxDegree : Nat
  /-- Below this number of brokers beside it, a node refuses any. -/
  minDegree : Nat
  /-- The bound of the pause before a busy candidate is asked again. -/
  busyDelay : Duration
  /-- The time between two rounds of gossip. -/
  gossipInterval : Duration
  /-- The time between two attempts of a root to join another tree. -/
  connectorInterval : Duration
  /-- How long a negotiation waits for a response. -/
  responseTimeout : Duration
  /-- How far an update travels where nothing changes on the way; by default as far as the
  chain of ancestors reaches. -/
  updateHops : Option UInt32
  /-- The order in which a search consults its pools. -/
  order : SearchOrder
  /-- Whether event lines are written. -/
  logEvents : Bool
deriving DecidableEq

namespace Settings

/-- The settings used where no others are asked for. -/
def standard : Settings where
  globalMax := 32
  payloadFraction := 0.5
  recipientFraction := 0.25
  upstreamMax := 4
  maxDegree := 4
  minDegree := 0
  busyDelay := .ofMilliseconds 500
  gossipInterval := .of 10 0
  connectorInterval := .of 5 0
  responseTimeout := .of 10 0
  updateHops := none
  order := .standard
  logEvents := true

instance : Inhabited Settings := ⟨standard⟩

/-- How far an update travels where nothing changes on the way. -/
def hops (s : Settings) : UInt32 := s.updateHops.getD (UInt32.ofNat s.upstreamMax)

end Settings

end BrokerForest

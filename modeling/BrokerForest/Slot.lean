/-!
# The reconfiguration slot

Only one reconfiguration of a node goes on at a time: it holds the slot from its beginning
to its end.
-/

namespace BrokerForest

/-- A slot, and what holds it. -/
structure Slot (α : Type) where
  holder : Option α
deriving DecidableEq, Inhabited

namespace Slot

variable {α : Type}

/-- A slot that nothing holds. -/
def free : Slot α := ⟨none⟩

/-- Whether something holds a slot. -/
def isBusy (s : Slot α) : Bool := s.holder.isSome

/-- The slot once `a` holds it, unless it would have to wait. -/
def acquire? (s : Slot α) (a : α) : Option (Slot α) :=
  if s.isBusy then none else some ⟨some a⟩

/-- The slot after its holder lets go. -/
def release (_ : Slot α) : Slot α := free

end Slot

end BrokerForest

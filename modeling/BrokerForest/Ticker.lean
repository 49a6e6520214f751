/-!
# Tickers: tasks that run again after an interval

A ticker waits for an interval, runs its task, and waits again if the task says so.  One
that was cancelled never runs again, and a task that is running then is its last.
-/

namespace BrokerForest

/-- What a ticker is doing. -/
inductive TickerPhase where
  | waiting
  | running
  | finished
deriving DecidableEq, Inhabited

/-- Whether a ticker runs again. -/
inductive TickOutcome where
  | again
  | stop
deriving DecidableEq

/-- A ticker, and how often its task has run. -/
structure Ticker where
  phase : TickerPhase
  runs : Nat
deriving DecidableEq, Inhabited

namespace Ticker

/-- A ticker that waits for its first interval. -/
def start : Ticker := ⟨.waiting, 0⟩

/-- Whether a ticker waits for the end of an interval. -/
def isWaiting (t : Ticker) : Bool := t.phase == .waiting

/-- An interval ends: the task of a waiting ticker runs. -/
def fire (t : Ticker) : Ticker :=
  if t.isWaiting then ⟨.running, t.runs + 1⟩ else t

/-- The task is done. -/
def settle (t : Ticker) (outcome : TickOutcome) : Ticker :=
  match t.phase, outcome with
  | .running, .again => { t with phase := .waiting }
  | .running, .stop => { t with phase := .finished }
  | _, _ => t

/-- The ticker is not to run again. -/
def cancel (t : Ticker) : Ticker := { t with phase := .finished }

end Ticker

end BrokerForest

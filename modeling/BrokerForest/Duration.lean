/-!
# Durations

Lengths of time in whole nanoseconds, and the seconds of a moment since an epoch.
-/

namespace BrokerForest

/-- A length of time. -/
structure Duration where
  nanoseconds : Nat
deriving DecidableEq, Inhabited

namespace Duration

/-- So many seconds, and nanoseconds beside them. -/
def of (seconds nanoseconds : Nat) : Duration := ⟨seconds * 1000000000 + nanoseconds⟩

/-- So many milliseconds. -/
def ofMilliseconds (n : Nat) : Duration := ⟨n * 1000000⟩

/-- The whole seconds. -/
def seconds (d : Duration) : Nat := d.nanoseconds / 1000000000

/-- The nanoseconds beside the whole seconds. -/
def subseconds (d : Duration) : Nat := d.nanoseconds % 1000000000

/-- The whole milliseconds, as a word of 64 bits. -/
def milliseconds (d : Duration) : Nat := d.nanoseconds / 1000000 % UInt64.size

end Duration

/-- A moment, as the time from the epoch to it or from it to the epoch. -/
inductive Moment where
  | after (offset : Duration)
  | before (offset : Duration)
deriving DecidableEq

/-- The whole seconds from the epoch to a moment, zero for a moment before it. -/
def Moment.epochSeconds : Moment → Nat
  | .after offset => offset.seconds
  | .before _ => 0

end BrokerForest

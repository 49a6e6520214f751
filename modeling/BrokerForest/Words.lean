/-!
# Words: the stream that every random choice draws from

A random choice takes exactly one 64-bit word.  The stream hands out the words it was
given first, in order, and after them those of a SplitMix64 generator, so that a run is
determined by its words and its seed.

* `Words.next` — the next word;
* `Words.unit`, `Words.real` — a real number in `[0, 1)`, and one between two bounds;
* `Words.below` — a natural number below a bound;
* `Words.choose` — distinct members of a list, in the order of drawing.
-/

namespace BrokerForest

/-- A stream of random words: those still pending, and then a generator's. -/
structure Words where
  pending : List UInt64
  seed : UInt64
deriving DecidableEq, Inhabited

namespace Words

/-- The generator's output for its (already advanced) state. -/
def scramble (state : UInt64) : UInt64 :=
  let z := (state ^^^ (state >>> 30)) * 0xBF58476D1CE4E5B9
  let z := (z ^^^ (z >>> 27)) * 0x94D049BB133111EB
  z ^^^ (z >>> 31)

/-- The next word of the stream, and the stream after it. -/
def next (ws : Words) : UInt64 × Words :=
  match ws.pending with
  | w :: rest => (w, { ws with pending := rest })
  | [] =>
    let state := ws.seed + 0x9E3779B97F4A7C15
    (scramble state, ⟨[], state⟩)

/-- The stream after `n` words have been taken. -/
def skip (ws : Words) : Nat → Words
  | 0 => ws
  | n + 1 => (ws.skip n).next.2

/-- The spacing of the reals that `unit` yields, `2⁻⁵³`. -/
def resolution : Float := Float.ofBits 0x3CA0000000000000

/-- A word's high 53 bits as a real number in `[0, 1)`. -/
def fraction (w : UInt64) : Float :=
  (w >>> 11).toFloat * resolution

/-- A real number in `[0, 1)`. -/
def unit (ws : Words) : Float × Words :=
  (fraction ws.next.1, ws.next.2)

/-- A real number between `low` and `high`. -/
def real (low high : Float) (ws : Words) : Float × Words :=
  (low + (high - low) * fraction ws.next.1, ws.next.2)

/-- A natural number below `bound`. -/
def below (bound : Nat) (ws : Words) : Nat × Words :=
  (ws.next.1.toNat % bound, ws.next.2)

/-- Up to `amount` members of a list, each place drawn at most once.  The member drawn
changes places with the first, and the drawing goes on with the others. -/
def choose {α : Type _} : Nat → List α → Words → List α × Words
  | 0, _, ws => ([], ws)
  | _ + 1, [], ws => ([], ws)
  | amount + 1, head :: tail, ws =>
    match (ws.below (tail.length + 1)).1 with
    | 0 =>
      let later := choose amount tail ws.next.2
      (head :: later.1, later.2)
    | place + 1 =>
      let later := choose amount (tail.set place head) ws.next.2
      (tail.getD place head :: later.1, later.2)

end Words

end BrokerForest

/-!
# Binary64: a double as an exact number

Reads sign, mantissa and exponent off the bits of a double, so that rounding it to a
natural number or to decimal places is done in exact arithmetic.

* `Binary64.Reading` — what a double stands for;
* `Binary64.read` — the reading of a double;
* `Binary64.scaled` — the whole number nearest to a scaled double, with a rule for ties.
-/

namespace BrokerForest.Binary64

/-- What a double stands for: no number, an infinity, or `± mantissa · 2 ^ exponent`. -/
inductive Reading where
  | nan
  | infinite (negative : Bool)
  | finite (negative : Bool) (mantissa : Nat) (exponent : Int)
deriving DecidableEq, Inhabited

/-- The reading of a bit pattern: sign, eleven bits of exponent, fifty-two of mantissa. -/
def readBits (bits : UInt64) : Reading :=
  let n := bits.toNat
  let negative := decide (Nat.pow 2 63 ≤ n)
  let biased := n / Nat.pow 2 52 % 2048
  let mantissa := n % Nat.pow 2 52
  if biased = 2047 then
    if mantissa = 0 then .infinite negative else .nan
  else if biased = 0 then .finite negative mantissa (-1074)
  else .finite negative (mantissa + Nat.pow 2 52) (Int.ofNat biased - 1075)

/-- The reading of a double. -/
def read (x : Float) : Reading := readBits x.toBits

/-- What becomes of a quotient halfway between two whole numbers. -/
inductive Tie where
  | toEven
  | up
deriving DecidableEq

/-- The whole number nearest to `num / den`. -/
def roundDiv (tie : Tie) (num den : Nat) : Nat :=
  let low := num / den
  let twice := 2 * (num % den)
  if twice < den then low
  else if den < twice then low + 1
  else match tie with
    | .up => low + 1
    | .toEven => if low % 2 = 0 then low else low + 1

/-- The whole number nearest to `scale · mantissa · 2 ^ exponent`. -/
def scaled (tie : Tie) (scale mantissa : Nat) (exponent : Int) : Nat :=
  match exponent with
  | .ofNat e => scale * mantissa * Nat.pow 2 e
  | .negSucc e => roundDiv tie (scale * mantissa) (Nat.pow 2 (e + 1))

end BrokerForest.Binary64

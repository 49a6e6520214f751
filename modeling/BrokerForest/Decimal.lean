import BrokerForest.Binary64
/-!
# Decimal: a double with a fixed number of decimal places

`Decimal.fixed places x` shows the exact value of `x` rounded to `places` places, a half
going to the even neighbour.  The sign of a double is shown even where all its digits are
zero.
-/

namespace BrokerForest.Decimal

/-- The last `places` decimal digits of `n`, padded with zeros. -/
def padded (places n : Nat) : String :=
  let digits := Nat.toDigits 10 n
  String.ofList (List.replicate (places - digits.length) '0' ++ digits)

/-- `units · 10 ^ -places` in digits, with a point before the last `places` of them. -/
def render (places units : Nat) : String :=
  let whole := Nat.toDigits 10 (units / Nat.pow 10 places)
  String.ofList whole ++ "." ++ padded places (units % Nat.pow 10 places)

/-- A double with `places` decimal places. -/
def fixed (places : Nat) (x : Float) : String :=
  match Binary64.read x with
  | .nan => "NaN"
  | .infinite negative => if negative then "-inf" else "inf"
  | .finite negative mantissa exponent =>
    let digits := render places (Binary64.scaled .toEven (Nat.pow 10 places) mantissa exponent)
    if negative then "-" ++ digits else digits

end BrokerForest.Decimal

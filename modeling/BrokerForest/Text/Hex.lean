/-!
# Hex: octets in pairs of hexadecimal digits

Written in lower case; read in either.
-/

namespace BrokerForest.Text.Hex

/-- The digit of a value below sixteen. -/
def digit (n : Nat) : Char := if n < 10 then Char.ofNat (n + 48) else Char.ofNat (n + 87)

/-- The value of a digit. -/
def value? (c : Char) : Option Nat :=
  if '0' ≤ c && c ≤ '9' then some (c.toNat - 48)
  else if 'a' ≤ c && c ≤ 'f' then some (c.toNat - 87)
  else if 'A' ≤ c && c ≤ 'F' then some (c.toNat - 55)
  else none

/-- The digits of a sequence of octets. -/
def encode (bytes : List UInt8) : String :=
  String.ofList (bytes.flatMap fun b => [digit (b.toNat / 16), digit (b.toNat % 16)])

/-- The octets of pairs of digits. -/
def octets? : List Char → Option (List UInt8)
  | [] => some []
  | [_] => none
  | high :: low :: rest => do
    let b := (← value? high) * 16 + (← value? low)
    return UInt8.ofNat b :: (← octets? rest)

/-- The octets that a text has the digits of. -/
def decode (text : String) : Option (List UInt8) := octets? text.toList

end BrokerForest.Text.Hex

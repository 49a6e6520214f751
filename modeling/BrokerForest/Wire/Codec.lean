import BrokerForest.Text.Utf8
/-!
# Codecs: values as octets

A codec writes values and reads them back from the beginning of a sequence of octets.  Not
every value has a written form; a reader says at the first fault why it stops.

* `Codec.word32`, `word64`, `bool`, `text` — the plain values;
* `Codec.list`, `optional`, `pair`, `via` — codecs made of codecs;
* `Codec.decode` — a value that is all of the octets.
-/

namespace BrokerForest.Wire

/-- Why octets cannot be read. -/
inductive Fault where
  | tooShort
  | badBool (octet : UInt8)
  | badOptional (octet : UInt8)
  | badVariant (octet : UInt8)
  | notANumber
  | badText (fault : Text.Utf8.Fault)
  | leftOver
deriving DecidableEq

namespace Fault

/-- Whether a fault is in what the octets say, not in how they say it. -/
def isInData : Fault → Bool
  | .badText _ | .leftOver => true
  | _ => false

/-- A fault in words. -/
def message : Fault → String
  | .tooShort => "Unexpected length of input"
  | .badBool b => s!"Invalid bool representation: {b.toNat}"
  | .badOptional b =>
    s!"Invalid Option representation: {b.toNat}. The first byte must be 0 or 1"
  | .badVariant b => s!"Unexpected variant index: {b.toNat}"
  | .notANumber => "For portability reasons we do not allow to deserialize NaNs."
  | .badText fault => fault.message
  | .leftOver => "Not all bytes read"

end Fault

/-- A way to write values as octets and to read them back. -/
structure Codec (α : Type) where
  /-- The octets of a value, if it has a written form. -/
  write : α → Option (List UInt8)
  /-- The value at the beginning of some octets, and the octets after it. -/
  read : List UInt8 → Except Fault (α × List UInt8)

namespace Codec

variable {α β : Type}

/-- The `n` octets of a number, the least significant first. -/
def octets : (n : Nat) → Nat → List UInt8
  | 0, _ => []
  | n + 1, x => UInt8.ofNat x :: octets n (x / 256)

/-- The number of some octets, the least significant first. -/
def number : List UInt8 → Nat
  | [] => 0
  | b :: rest => b.toNat + 256 * number rest

/-- The first `n` octets, and those after them. -/
def take (n : Nat) (input : List UInt8) : Except Fault (List UInt8 × List UInt8) :=
  if n ≤ input.length then .ok (input.take n, input.drop n) else .error .tooShort

/-- A word of 32 bits. -/
def word32 : Codec UInt32 where
  write w := some (octets 4 w.toNat)
  read input := do
    let (bytes, rest) ← take 4 input
    return (UInt32.ofNat (number bytes), rest)

/-- A word of 64 bits. -/
def word64 : Codec UInt64 where
  write w := some (octets 8 w.toNat)
  read input := do
    let (bytes, rest) ← take 8 input
    return (UInt64.ofNat (number bytes), rest)

/-- A truth value, in one octet. -/
def bool : Codec Bool where
  write b := some [if b then 1 else 0]
  read
    | 0 :: rest => .ok (false, rest)
    | 1 :: rest => .ok (true, rest)
    | b :: _ => .error (.badBool b)
    | [] => .error .tooShort

/-- A length, if it has a written form. -/
def writeLength (n : Nat) : Option (List UInt8) :=
  if n < UInt32.size then some (octets 4 n) else none

/-- A text: the number of its octets, and then the octets. -/
def text : Codec String where
  write s := do
    let bytes := Text.Utf8.encode s
    return (← writeLength bytes.length) ++ bytes
  read input := do
    let (size, rest) ← word32.read input
    let (bytes, rest) ← take size.toNat rest
    match Text.Utf8.decode bytes with
    | .ok s => .ok (s, rest)
    | .error fault => .error (.badText fault)

/-- A double, by its bits.  Only numbers are written and read. -/
def double : Codec Float where
  write x := if x.isNaN then none else word64.write x.toBits
  read input := do
    let (bits, rest) ← word64.read input
    let x := Float.ofBits bits
    if x.isNaN then .error .notANumber else .ok (x, rest)

/-- The octets of each item of a list. -/
def writeItems (item : Codec α) : List α → Option (List UInt8)
  | [] => some []
  | x :: xs => do
    let first ← item.write x
    let others ← writeItems item xs
    return first ++ others

/-- The next `n` items. -/
def readItems (item : Codec α) : Nat → List UInt8 → Except Fault (List α × List UInt8)
  | 0, input => .ok ([], input)
  | n + 1, input => do
    let (x, rest) ← item.read input
    let (xs, rest) ← readItems item n rest
    return (x :: xs, rest)

/-- A list: the number of its items, and then the items. -/
def list (item : Codec α) : Codec (List α) where
  write xs := do
    let length ← writeLength xs.length
    let items ← writeItems item xs
    return length ++ items
  read input := do
    let (size, rest) ← word32.read input
    readItems item size.toNat rest

/-- An optional value, after an octet that says whether it is there. -/
def optional (item : Codec α) : Codec (Option α) where
  write
    | none => some [0]
    | some x => (item.write x).map (1 :: ·)
  read
    | 0 :: rest => .ok (none, rest)
    | 1 :: rest => do
      let (x, rest) ← item.read rest
      return (some x, rest)
    | b :: _ => .error (.badOptional b)
    | [] => .error .tooShort

/-- One value after another. -/
def pair (first : Codec α) (second : Codec β) : Codec (α × β) where
  write x := do
    let a ← first.write x.1
    let b ← second.write x.2
    return a ++ b
  read input := do
    let (a, rest) ← first.read input
    let (b, rest) ← second.read rest
    return ((a, b), rest)

/-- Values that correspond one to one to those of a codec. -/
def via (codec : Codec α) (into : β → α) (out : α → β) : Codec β where
  write x := codec.write (into x)
  read input := do
    let (a, rest) ← codec.read input
    return (out a, rest)

/-- The octets of a value after those of its variant. -/
def tagged (tag : UInt8) (bytes : Option (List UInt8)) : Option (List UInt8) :=
  bytes.map (tag :: ·)

/-- The value that a codec reads, in a variant. -/
def readAs (codec : Codec α) (variant : α → β) (input : List UInt8) :
    Except Fault (β × List UInt8) := do
  let (a, rest) ← codec.read input
  return (variant a, rest)

/-- The value that all of the octets are. -/
def decode (codec : Codec α) (input : List UInt8) : Except Fault α := do
  let (a, rest) ← codec.read input
  if rest.isEmpty then .ok a else .error .leftOver

end Codec

end BrokerForest.Wire

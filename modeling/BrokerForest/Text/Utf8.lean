/-!
# UTF-8: text as octets, and where octets stop being text

* `Utf8.encode`, `Utf8.decode` — a string's octets, and the string of octets that are
  well formed;
* `Utf8.Fault` — where the longest well-formed beginning ends, and how many octets after
  it cannot be part of a character;
* `Utf8.fault?` — the first fault of a sequence of octets.
-/

namespace BrokerForest.Text.Utf8

/-- The octets of a string. -/
def encode (s : String) : List UInt8 := s.toByteArray.data.toList

/-- Octets that are not well formed.  After `start` good octets come `length` octets that
begin no character, or too few octets to finish one if `length` is none. -/
structure Fault where
  start : Nat
  length : Option Nat
deriving DecidableEq

namespace Fault

/-- A fault in words. -/
def message (f : Fault) : String :=
  match f.length with
  | some n => s!"invalid utf-8 sequence of {n} bytes from index {f.start}"
  | none => s!"incomplete utf-8 byte sequence from index {f.start}"

end Fault

/-- The ranges of the octets that may follow a leading octet; none if it leads nothing. -/
def followers (lead : UInt8) : Option (List (UInt8 × UInt8)) :=
  let any : UInt8 × UInt8 := (0x80, 0xBF)
  if lead < 0x80 then some []
  else if lead < 0xC2 then none
  else if lead < 0xE0 then some [any]
  else if lead = 0xE0 then some [(0xA0, 0xBF), any]
  else if lead = 0xED then some [(0x80, 0x9F), any]
  else if lead < 0xF0 then some [any, any]
  else if lead = 0xF0 then some [(0x90, 0xBF), any, any]
  else if lead < 0xF4 then some [any, any, any]
  else if lead = 0xF4 then some [(0x80, 0x8F), any, any]
  else none

/-- What follows a leading octet of which `seen` octets have been read: the rest after a
whole character, or the length of the fault. -/
def follow (seen : Nat) : List (UInt8 × UInt8) → List UInt8 → Except (Option Nat) (List UInt8)
  | [], rest => .ok rest
  | _ :: _, [] => .error none
  | (low, high) :: ranges, b :: rest =>
    if low ≤ b && b ≤ high then follow (seen + 1) ranges rest else .error (some seen)

/-- The first fault at or after `start`, the index of the first of these octets.  Every
character takes at least one octet, so `fuel` of their number is enough. -/
def faultFrom : (fuel start : Nat) → List UInt8 → Option Fault
  | 0, _, _ => none
  | _, _, [] => none
  | fuel + 1, start, lead :: rest =>
    match followers lead with
    | none => some ⟨start, some 1⟩
    | some ranges =>
      match follow 1 ranges rest with
      | .error length => some ⟨start, length⟩
      | .ok after => faultFrom fuel (start + 1 + ranges.length) after

/-- The first fault of a sequence of octets. -/
def fault? (bytes : List UInt8) : Option Fault := faultFrom bytes.length 0 bytes

/-- The string of well-formed octets, or their first fault. -/
def decode (bytes : List UInt8) : Except Fault String :=
  match String.fromUTF8? ⟨bytes.toArray⟩ with
  | some s => .ok s
  | none => .error ((fault? bytes).getD ⟨bytes.length, none⟩)

end BrokerForest.Text.Utf8

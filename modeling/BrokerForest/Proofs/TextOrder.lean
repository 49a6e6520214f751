import BrokerForest.Text.Utf8
import Mathlib.Data.List.Lex
import Mathlib.Data.String.Basic
/-!
# The order of octets is the order of code points

Strings compare by code points.  Their UTF-8 octets compare in the same way, because the
octets of a character grow with its code point and none are the beginning of another's.

Main statements:

* `Utf8.encodeChar_lt` — the octets of a lesser character come first, whatever follows;
* `Utf8.encode_lt_iff` — the octets of a string come first if and only if the string does;
* `Utf8.map_encode_lt_iff` — and so for lists of strings.
-/

namespace BrokerForest.Text.Utf8

/-- A string is encoded one character after another. -/
theorem encode_eq_flatMap (s : String) : encode s = s.toList.flatMap String.utf8EncodeChar := by
  have h : s.toByteArray = (s.toList.flatMap String.utf8EncodeChar).toByteArray :=
    (String.utf8Encode_toList (b := s)).symm
  unfold encode
  rw [h, List.data_toByteArray]

private theorem toNat_octet {n : Nat} (h : n < 256) : (UInt8.ofNat n).toNat = n :=
  UInt8.toNat_ofNat_of_lt' h

/-- The octets of a lesser character come first, whatever follows. -/
theorem encodeChar_lt {c d : Char} (h : c < d) (rest rest' : List UInt8) :
    String.utf8EncodeChar c ++ rest < String.utf8EncodeChar d ++ rest' := by
  have hlt : c.val.toNat < d.val.toNat := h
  have hlast : d.val.toNat < 0x110000 := by
    have hvalid := d.valid
    unfold UInt32.isValidChar Nat.isValidChar at hvalid
    omega
  unfold String.utf8EncodeChar
  dsimp only
  generalize c.val.toNat = x at *
  generalize d.val.toNat = y at *
  have hdigits : ∀ n < 0x110000, n / 64 / 64 = n / 4096 ∧ n / 4096 / 64 = n / 262144 ∧
      n / 262144 % 8 = n / 262144 := by omega
  obtain ⟨hx, hx', hx''⟩ := hdigits x (by omega)
  obtain ⟨hy, hy', hy''⟩ := hdigits y hlast
  -- One case for each two lengths: different lengths begin differently, and within one
  -- length the octets are the digits to the base 64.
  split_ifs <;>
    simp (disch := omega) only [List.cons_append, List.nil_append, List.cons_lt_cons_iff,
      UInt8.lt_iff_toNat_lt, ← UInt8.toNat_inj, toNat_octet] <;>
    omega

/-- Every character is encoded by some octets. -/
theorem encodeChar_ne_nil (c : Char) : String.utf8EncodeChar c ≠ [] := by
  unfold String.utf8EncodeChar
  dsimp only
  split_ifs <;> simp

/-- The octets of lesser characters come first. -/
theorem flatMap_encodeChar_lt {s t : List Char} (h : s < t) :
    s.flatMap String.utf8EncodeChar < t.flatMap String.utf8EncodeChar := by
  induction s generalizing t with
  | nil =>
      cases t with
      | nil => simp at h
      | cons d t =>
          rw [List.flatMap_nil, List.flatMap_cons]
          cases hd : String.utf8EncodeChar d with
          | nil => exact absurd hd (encodeChar_ne_nil d)
          | cons b rest => exact List.nil_lt_cons _ _
  | cons c s ih =>
      cases t with
      | nil => simp at h
      | cons d t =>
          rw [List.flatMap_cons, List.flatMap_cons]
          rcases List.cons_lt_cons_iff.1 h with hlt | ⟨rfl, hrest⟩
          · exact encodeChar_lt hlt _ _
          · exact List.append_left_lt (ih hrest)

/-- The octets of a string that comes first come first. -/
theorem encode_lt_encode {s t : String} (h : s < t) : encode s < encode t := by
  rw [encode_eq_flatMap, encode_eq_flatMap]
  exact flatMap_encodeChar_lt (String.lt_iff.1 h)

/-- Two strings with the same octets are one. -/
theorem encode_inj {s t : String} : encode s = encode t ↔ s = t := by
  constructor
  · intro h
    rcases lt_trichotomy s t with hlt | heq | hlt
    · exact absurd (h ▸ encode_lt_encode hlt) (List.lt_irrefl _)
    · exact heq
    · exact absurd (h ▸ encode_lt_encode hlt) (List.lt_irrefl _)
  · exact congrArg encode

/-- The octets of a string come first if and only if the string does. -/
theorem encode_lt_iff {s t : String} : encode s < encode t ↔ s < t := by
  constructor
  · intro h
    rcases lt_trichotomy s t with hlt | rfl | hlt
    · exact hlt
    · exact absurd h (List.lt_irrefl _)
    · exact absurd h (List.lt_asymm (encode_lt_encode hlt))
  · exact encode_lt_encode

/-- The octets of a list of strings come first if and only if the list does. -/
theorem map_encode_lt_iff {s t : List String} : s.map encode < t.map encode ↔ s < t := by
  induction s generalizing t with
  | nil => cases t <;> simp
  | cons a s ih =>
      cases t with
      | nil => simp
      | cons b t =>
          rw [List.map_cons, List.map_cons, List.cons_lt_cons_iff, List.cons_lt_cons_iff,
            encode_lt_iff, encode_inj, ih]

end BrokerForest.Text.Utf8

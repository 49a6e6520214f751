import BrokerForest.Proofs.Doubles
import BrokerForest.Wire.Codec
/-!
# Exact codecs: what is written is read, and only that

A codec is *exact* on certain values if these are the ones that have a written form, if what
is written is read back whatever follows, and if only octets are read that would have been
written.  Each way to make codecs of codecs keeps exactness, so that a format is shown to be
exact along its definition.

Main statements:

* `Codec.Exact` — exact codecs;
* `Codec.exact_digits` — whole numbers, from which words and lengths follow;
* `Codec.exact_text`, `Codec.exact_double`, `Codec.exact_bool` — the other plain values;
* `Codec.Exact.list`, `Codec.Exact.optional`, `Codec.Exact.pair`, `Codec.Exact.via` — codecs
  made of codecs;
* `Codec.Exact.reads_variant`, `Codec.Exact.rewrites_variant` — variants with their tags;
* **`Codec.Exact.decode_of_write`**, **`Codec.Exact.write_of_decode`**,
  **`Codec.Exact.prefix_free`** — what exactness says of all of the octets.
-/

namespace BrokerForest

namespace Text.Utf8

/-- A string is what its octets decode to. -/
theorem decode_encode (s : String) : decode (encode s) = .ok s := by
  have hread : String.fromUTF8? ⟨(encode s).toArray⟩ = some s := dif_pos s.isValidUTF8
  rw [decode, hread]

/-- Octets that decode to a string are the string's. -/
theorem encode_of_decode {bytes : List UInt8} {s : String} (h : decode bytes = .ok s) :
    encode s = bytes := by
  rw [decode] at h
  split at h
  · rename_i hread
    cases h
    rw [String.fromUTF8?] at hread
    split at hread
    · cases hread
      rfl
    · cases hread
  · cases h

end Text.Utf8

namespace Wire

/-- Reading goes on with what was read, unless it has failed. -/
theorem bind_eq_ok_iff {α β : Type} {x : Except Fault α} {f : α → Except Fault β} {b : β} :
    (x >>= f) = .ok b ↔ ∃ a, x = .ok a ∧ f a = .ok b := by
  cases x with
  | error fault => exact ⟨nofun, fun ⟨_, h, _⟩ => nomatch h⟩
  | ok a => exact ⟨fun h => ⟨a, rfl, h⟩, fun ⟨_, h, hf⟩ => by cases h; exact hf⟩

namespace Codec

variable {α β : Type}

/-- A codec is *exact* if these are the proper values. -/
structure Exact (codec : Codec α) (proper : α → Prop) : Prop where
  /-- The values that have a written form are the proper ones. -/
  writes : ∀ x, (∃ bytes, codec.write x = some bytes) ↔ proper x
  /-- What was written is read back, and nothing after it. -/
  reads : ∀ {x bytes}, codec.write x = some bytes →
    ∀ rest, codec.read (bytes ++ rest) = .ok (x, rest)
  /-- What was read is what would have been written. -/
  rewrites : ∀ {input x rest}, codec.read input = .ok (x, rest) →
    ∃ bytes, codec.write x = some bytes ∧ input = bytes ++ rest

/-! ## Numbers -/

/-- The octets of a number are as many as asked for. -/
@[simp] theorem length_octets (n x : Nat) : (octets n x).length = n := by
  induction n generalizing x with
  | zero => rfl
  | succ n ih => simp [octets, ih]

/-- Octets are the number that they are the octets of, as far as they go. -/
theorem number_octets (n x : Nat) : number (octets n x) = x % 256 ^ n := by
  induction n generalizing x with
  | zero => simp [octets, number, Nat.mod_one]
  | succ n ih =>
    rw [octets, number, ih, Nat.pow_succ', Nat.mod_mul]
    simp

/-- A number of `n` octets. -/
theorem number_lt (bytes : List UInt8) : number bytes < 256 ^ bytes.length := by
  induction bytes with
  | nil => simp [number]
  | cons b bytes ih =>
    have := b.toNat_lt
    rw [number, List.length_cons, Nat.pow_succ']
    omega

/-- Octets are those of their number. -/
theorem octets_number (bytes : List UInt8) : octets bytes.length (number bytes) = bytes := by
  induction bytes with
  | nil => rfl
  | cons b bytes ih =>
    have hb := b.toNat_lt
    have hlow : UInt8.ofNat (b.toNat + 256 * number bytes) = b := by
      refine UInt8.toNat_inj.1 ?_
      rw [UInt8.toNat_ofNat']
      omega
    have hhigh : (b.toNat + 256 * number bytes) / 256 = number bytes := by omega
    rw [List.length_cons, number, octets, hlow, hhigh, ih]

/-- The octets asked for are taken off. -/
theorem take_append (bytes rest : List UInt8) :
    take bytes.length (bytes ++ rest) = .ok (bytes, rest) := by
  simp [take]

/-- What is taken off was there. -/
theorem append_of_take {n : Nat} {input bytes rest : List UInt8}
    (h : take n input = .ok (bytes, rest)) : bytes.length = n ∧ input = bytes ++ rest := by
  rw [take] at h
  split at h
  · cases h
    exact ⟨by simpa using Nat.min_eq_left ‹_›, (List.take_append_drop n input).symm⟩
  · cases h

/-- The numbers of `n` octets.  Words and lengths are such numbers. -/
def digits (n : Nat) : Codec Nat where
  write x := if x < 256 ^ n then some (octets n x) else none
  read input := do
    let (bytes, rest) ← take n input
    return (number bytes, rest)

/-- They are written exactly. -/
theorem exact_digits (n : Nat) : (digits n).Exact fun x => x < 256 ^ n where
  writes x := by
    simp only [digits]
    split <;> simp_all
  reads := by
    intro x bytes h rest
    simp only [digits] at h ⊢
    split at h
    · rename_i hx
      cases h
      have htake := take_append (octets n x) rest
      rw [length_octets] at htake
      have hnumber : number (octets n x) = x := by rw [number_octets, Nat.mod_eq_of_lt hx]
      rw [htake]
      exact congrArg (fun x => Except.ok (x, rest)) hnumber
    · cases h
  rewrites := by
    intro input x rest h
    simp only [digits, bind_eq_ok_iff] at h
    obtain ⟨⟨bytes, _⟩, htake, ⟨⟩⟩ := h
    obtain ⟨rfl, rfl⟩ := append_of_take htake
    refine ⟨bytes, ?_, rfl⟩
    simp only [digits]
    rw [if_pos (number_lt bytes), octets_number]

/-! ## Codecs made of codecs -/

section

variable {codec : Codec α} {other : Codec β} {proper : α → Prop} {proper' : β → Prop}

/-- What is proper may be said in other words. -/
theorem Exact.congr (h : codec.Exact proper) {q : α → Prop} (hq : ∀ x, proper x ↔ q x) :
    codec.Exact q :=
  { h with writes := fun x => (h.writes x).trans (hq x) }

/-- What is read of corresponding values. -/
theorem read_via {into : β → α} {out : α → β} {input rest : List UInt8} {b : β} :
    (codec.via into out).read input = .ok (b, rest) ↔
      ∃ a, codec.read input = .ok (a, rest) ∧ out a = b := by
  simp only [Codec.via, bind_eq_ok_iff, Prod.exists]
  constructor
  · rintro ⟨a, after, ha, ⟨⟩⟩
    exact ⟨a, ha, rfl⟩
  · rintro ⟨a, ha, rfl⟩
    exact ⟨a, rest, ha, rfl⟩

/-- Values that correspond one to one to those of an exact codec are written exactly. -/
theorem Exact.via (h : codec.Exact proper) {into : β → α} {out : α → β}
    (hout : ∀ b, out (into b) = b) (hinto : ∀ a, proper a → into (out a) = a) :
    (codec.via into out).Exact fun b => proper (into b) where
  writes b := h.writes (into b)
  reads := fun {b _} hb rest => read_via.2 ⟨into b, h.reads hb rest, hout b⟩
  rewrites := by
    intro input b rest hb
    obtain ⟨a, ha, rfl⟩ := read_via.1 hb
    obtain ⟨bytes, hwrite, rfl⟩ := h.rewrites ha
    have hproper : proper a := (h.writes a).1 ⟨bytes, hwrite⟩
    refine ⟨bytes, ?_, rfl⟩
    change codec.write (into (out a)) = some bytes
    rw [hinto a hproper, hwrite]

/-- The octets of a pair. -/
theorem write_pair {a : α} {b : β} {bytes : List UInt8} :
    (codec.pair other).write (a, b) = some bytes ↔
      ∃ first second, codec.write a = some first ∧ other.write b = some second ∧
        bytes = first ++ second := by
  simp only [Codec.pair, Option.bind_eq_bind, Option.bind_eq_some_iff, Option.pure_def,
    Option.some.injEq]
  constructor
  · rintro ⟨first, ha, second, hb, rfl⟩
    exact ⟨first, second, ha, hb, rfl⟩
  · rintro ⟨first, second, ha, hb, rfl⟩
    exact ⟨first, ha, second, hb, rfl⟩

/-- What is read of a pair. -/
theorem read_pair {a : α} {b : β} {input rest : List UInt8} :
    (codec.pair other).read input = .ok ((a, b), rest) ↔
      ∃ middle, codec.read input = .ok (a, middle) ∧ other.read middle = .ok (b, rest) := by
  simp only [Codec.pair, bind_eq_ok_iff, Prod.exists]
  constructor
  · rintro ⟨_, middle, ha, _, _, hb, ⟨⟩⟩
    exact ⟨middle, ha, hb⟩
  · rintro ⟨middle, ha, hb⟩
    exact ⟨a, middle, ha, b, rest, hb, rfl⟩

/-- One value after another is written exactly. -/
theorem Exact.pair (h : codec.Exact proper) (h' : other.Exact proper') :
    (codec.pair other).Exact fun x => proper x.1 ∧ proper' x.2 where
  writes := by
    rintro ⟨a, b⟩
    rw [← h.writes a, ← h'.writes b]
    constructor
    · rintro ⟨_, hab⟩
      obtain ⟨first, second, ha, hb, -⟩ := write_pair.1 hab
      exact ⟨⟨first, ha⟩, second, hb⟩
    · rintro ⟨⟨first, ha⟩, second, hb⟩
      exact ⟨first ++ second, write_pair.2 ⟨first, second, ha, hb, rfl⟩⟩
  reads := by
    rintro ⟨a, b⟩ _ hab rest
    obtain ⟨first, second, ha, hb, rfl⟩ := write_pair.1 hab
    rw [List.append_assoc]
    exact read_pair.2 ⟨second ++ rest, h.reads ha _, h'.reads hb rest⟩
  rewrites := by
    rintro _ ⟨a, b⟩ rest hab
    obtain ⟨_, ha, hb⟩ := read_pair.1 hab
    obtain ⟨first, hfirst, rfl⟩ := h.rewrites ha
    obtain ⟨second, hsecond, rfl⟩ := h'.rewrites hb
    exact ⟨first ++ second, write_pair.2 ⟨first, second, hfirst, hsecond, rfl⟩,
      (List.append_assoc ..).symm⟩

/-- The octets of an optional value exactly. -/
theorem Exact.optional (h : codec.Exact proper) :
    codec.optional.Exact fun x => ∀ a, x = some a → proper a where
  writes := by
    rintro (_ | a)
    · exact ⟨nofun, fun _ => ⟨_, rfl⟩⟩
    · simp only [Codec.optional, Option.map_eq_some_iff, Option.some.injEq, forall_eq',
        ← h.writes a]
      exact ⟨fun ⟨_, item, ha, _⟩ => ⟨item, ha⟩, fun ⟨item, ha⟩ => ⟨1 :: item, item, ha, rfl⟩⟩
  reads := by
    rintro (_ | a) bytes ha rest
    · cases ha
      rfl
    · obtain ⟨item, hitem, rfl⟩ := Option.map_eq_some_iff.1 ha
      exact bind_eq_ok_iff.2 ⟨(a, rest), h.reads hitem rest, rfl⟩
  rewrites := by
    intro input x rest hx
    simp only [Codec.optional] at hx
    split at hx
    · cases hx
      exact ⟨[0], rfl, rfl⟩
    · obtain ⟨⟨a, _⟩, ha, ⟨⟩⟩ := bind_eq_ok_iff.1 hx
      obtain ⟨item, hitem, rfl⟩ := h.rewrites ha
      exact ⟨1 :: item, Option.map_eq_some_iff.2 ⟨item, hitem, rfl⟩, rfl⟩
    · cases hx
    · cases hx

/-- Items one after the other are written if each of them is. -/
theorem Exact.writes_items (h : codec.Exact proper) (xs : List α) :
    (∃ bytes, codec.writeItems xs = some bytes) ↔ ∀ x ∈ xs, proper x := by
  induction xs with
  | nil => exact ⟨fun _ => nofun, fun _ => ⟨[], rfl⟩⟩
  | cons x xs ih =>
    rw [List.forall_mem_cons, ← h.writes x, ← ih]
    simp only [writeItems, Option.bind_eq_bind, Option.bind_eq_some_iff]
    constructor
    · rintro ⟨_, first, hx, others, hxs, -⟩
      exact ⟨⟨first, hx⟩, others, hxs⟩
    · rintro ⟨⟨first, hx⟩, others, hxs⟩
      exact ⟨first ++ others, first, hx, others, hxs, rfl⟩

/-- And then they are read back. -/
theorem Exact.reads_items (h : codec.Exact proper) (xs : List α) {bytes : List UInt8}
    (hxs : codec.writeItems xs = some bytes) (rest : List UInt8) :
    codec.readItems xs.length (bytes ++ rest) = .ok (xs, rest) := by
  induction xs generalizing bytes with
  | nil =>
    cases hxs
    rfl
  | cons x xs ih =>
    simp only [writeItems, Option.bind_eq_bind, Option.bind_eq_some_iff] at hxs
    obtain ⟨first, hx, others, hxs, ⟨⟩⟩ := hxs
    rw [List.append_assoc]
    exact bind_eq_ok_iff.2 ⟨(x, others ++ rest), h.reads hx _,
      bind_eq_ok_iff.2 ⟨(xs, rest), ih hxs, rfl⟩⟩

/-- Items that are read are as many as asked for, and what would have been written. -/
theorem Exact.rewrites_items (h : codec.Exact proper) {n : Nat} {input rest : List UInt8}
    {xs : List α} (hxs : codec.readItems n input = .ok (xs, rest)) :
    xs.length = n ∧ ∃ bytes, codec.writeItems xs = some bytes ∧ input = bytes ++ rest := by
  induction n generalizing input xs with
  | zero =>
    cases hxs
    exact ⟨rfl, [], rfl, rfl⟩
  | succ n ih =>
    obtain ⟨⟨x, _⟩, hx, htail⟩ := bind_eq_ok_iff.1 hxs
    obtain ⟨⟨xs, _⟩, htail, ⟨⟩⟩ := bind_eq_ok_iff.1 htail
    obtain ⟨first, hfirst, rfl⟩ := h.rewrites hx
    obtain ⟨rfl, others, hothers, rfl⟩ := ih htail
    refine ⟨rfl, first ++ others, ?_, (List.append_assoc ..).symm⟩
    simp [writeItems, hfirst, hothers]

/-- Words of 32 bits are numbers of four octets. -/
theorem word32_eq : word32 = (digits 4).via UInt32.toNat UInt32.ofNat := by
  refine congrArg₂ Codec.mk (funext fun w => (if_pos ?_).symm) (funext fun input => ?_)
  · exact w.toNat_lt
  · simp only [digits]
    cases take 4 input <;> rfl

/-- Words of 64 bits are numbers of eight octets. -/
theorem word64_eq : word64 = (digits 8).via UInt64.toNat UInt64.ofNat := by
  refine congrArg₂ Codec.mk (funext fun w => (if_pos ?_).symm) (funext fun input => ?_)
  · exact w.toNat_lt
  · simp only [digits]
    cases take 8 input <;> rfl

/-- Words of 32 bits are written exactly. -/
theorem exact_word32 : word32.Exact fun _ => True := by
  rw [word32_eq]
  refine ((exact_digits 4).via (fun w => UInt32.ofNat_toNat) fun n hn => ?_).congr fun w => ?_
  · exact UInt32.toNat_ofNat_of_lt' hn
  · exact iff_true_intro w.toNat_lt

/-- Words of 64 bits are written exactly. -/
theorem exact_word64 : word64.Exact fun _ => True := by
  rw [word64_eq]
  refine ((exact_digits 8).via (fun w => UInt64.ofNat_toNat) fun n hn => ?_).congr fun w => ?_
  · exact UInt64.toNat_ofNat_of_lt' hn
  · exact iff_true_intro w.toNat_lt

/-- Truth values are written exactly. -/
theorem exact_bool : bool.Exact fun _ => True where
  writes b := ⟨fun _ => trivial, fun _ => ⟨_, rfl⟩⟩
  reads := by
    rintro (_ | _) _ ⟨⟩ rest <;> rfl
  rewrites := by
    intro input b rest hb
    simp only [bool] at hb
    split at hb <;> cases hb
    · exact ⟨[0], rfl, rfl⟩
    · exact ⟨[1], rfl, rfl⟩

/-- Numbers among the doubles are written exactly. -/
theorem exact_double : double.Exact fun x => x.isNaN = false where
  writes x := by
    simp only [double]
    split
    · simp_all
    · simp_all [word64]
  reads := by
    intro x bytes hx rest
    simp only [double] at hx
    split at hx
    · cases hx
    · rename_i hnum
      rw [Bool.not_eq_true] at hnum
      refine bind_eq_ok_iff.2 ⟨(x.toBits, rest), exact_word64.reads hx rest, ?_⟩
      simp only [Float.ofBits_toBits, hnum]
      rfl
  rewrites := by
    intro input x rest hx
    obtain ⟨⟨bits, _⟩, hbits, hx⟩ := bind_eq_ok_iff.1 hx
    dsimp only at hx
    split at hx
    · cases hx
    · rename_i hnum
      cases hx
      rw [Bool.not_eq_true] at hnum
      obtain ⟨bytes, hwrite, rfl⟩ := exact_word64.rewrites hbits
      refine ⟨bytes, ?_, rfl⟩
      simp only [double, hnum, Double.toBits_ofBits hnum]
      exact hwrite

/-- A length is written as a number of four octets. -/
theorem writeLength_eq (n : Nat) : writeLength n = (digits 4).write n := rfl

/-- A length that was written is read back as a word. -/
theorem read_length {n : Nat} {size : List UInt8} (h : writeLength n = some size)
    (rest : List UInt8) :
    word32.read (size ++ rest) = .ok (UInt32.ofNat n, rest) ∧ (UInt32.ofNat n).toNat = n := by
  rw [writeLength_eq] at h
  refine ⟨?_, UInt32.toNat_ofNat_of_lt' (((exact_digits 4).writes n).1 ⟨size, h⟩)⟩
  rw [word32_eq, read_via]
  exact ⟨n, (exact_digits 4).reads h rest, rfl⟩

/-- A word that is read was written as a length. -/
theorem length_of_read {input rest : List UInt8} {size : UInt32}
    (h : word32.read input = .ok (size, rest)) :
    ∃ bytes, writeLength size.toNat = some bytes ∧ input = bytes ++ rest := by
  obtain ⟨bytes, hwrite, rfl⟩ := exact_word32.rewrites h
  rw [word32_eq] at hwrite
  exact ⟨bytes, hwrite, rfl⟩

/-- Lists that are not too long are written exactly if their items are. -/
theorem Exact.list (h : codec.Exact proper) :
    codec.list.Exact fun xs => xs.length < UInt32.size ∧ ∀ x ∈ xs, proper x where
  writes xs := by
    rw [← h.writes_items xs]
    simp only [Codec.list, Option.bind_eq_bind, Option.bind_eq_some_iff]
    constructor
    · rintro ⟨_, size, hsize, items, hitems, -⟩
      exact ⟨((exact_digits 4).writes xs.length).1 ⟨size, hsize⟩, items, hitems⟩
    · rintro ⟨hlength, items, hitems⟩
      obtain ⟨size, hsize⟩ := ((exact_digits 4).writes xs.length).2 hlength
      exact ⟨size ++ items, size, hsize, items, hitems, rfl⟩
  reads := by
    intro xs bytes hxs rest
    simp only [Codec.list, Option.bind_eq_bind, Option.bind_eq_some_iff] at hxs
    obtain ⟨size, hsize, items, hitems, ⟨⟩⟩ := hxs
    rw [List.append_assoc]
    have hread := read_length hsize (items ++ rest)
    exact bind_eq_ok_iff.2 ⟨_, hread.1, by
      simpa only [hread.2] using h.reads_items xs hitems rest⟩
  rewrites := by
    intro input xs rest hxs
    obtain ⟨⟨size, _⟩, hsize, htail⟩ := bind_eq_ok_iff.1 hxs
    obtain ⟨hlength, items, hitems, rfl⟩ := h.rewrites_items htail
    obtain ⟨count, hcount, rfl⟩ := length_of_read hsize
    refine ⟨count ++ items, ?_, (List.append_assoc ..).symm⟩
    simp [Codec.list, hlength, hcount, hitems]

/-- Texts that are not too long are written exactly. -/
theorem exact_text : text.Exact fun s => (Text.Utf8.encode s).length < UInt32.size where
  writes s := by
    refine Iff.trans ?_ ((exact_digits 4).writes (Text.Utf8.encode s).length)
    simp only [text, Option.bind_eq_bind, Option.bind_eq_some_iff]
    constructor
    · rintro ⟨_, size, hsize, -⟩
      exact ⟨size, hsize⟩
    · rintro ⟨size, hsize⟩
      exact ⟨_, size, hsize, rfl⟩
  reads := by
    intro s bytes hs rest
    simp only [text, Option.bind_eq_bind, Option.bind_eq_some_iff] at hs
    obtain ⟨size, hsize, ⟨⟩⟩ := hs
    rw [List.append_assoc]
    have hread := read_length hsize (Text.Utf8.encode s ++ rest)
    refine bind_eq_ok_iff.2 ⟨_, hread.1, bind_eq_ok_iff.2 ⟨(Text.Utf8.encode s, rest), ?_, ?_⟩⟩
    · simpa only [hread.2] using take_append (Text.Utf8.encode s) rest
    · simp only [Text.Utf8.decode_encode]
  rewrites := by
    intro input s rest hs
    obtain ⟨⟨size, _⟩, hsize, hbytes⟩ := bind_eq_ok_iff.1 hs
    obtain ⟨⟨bytes, _⟩, hbytes, htext⟩ := bind_eq_ok_iff.1 hbytes
    obtain ⟨hlength, rfl⟩ := append_of_take hbytes
    obtain ⟨count, hcount, rfl⟩ := length_of_read hsize
    dsimp only at htext
    split at htext
    · rename_i hdecode
      cases htext
      have hencode := Text.Utf8.encode_of_decode hdecode
      refine ⟨count ++ bytes, ?_, (List.append_assoc ..).symm⟩
      simp [text, hencode, hlength, hcount]
    · cases htext

/-! ## Variants -/

/-- The octets of a variant are those of its value after the tag. -/
theorem tagged_eq_some {tag : UInt8} {value : Option (List UInt8)} {bytes : List UInt8} :
    tagged tag value = some bytes ↔ ∃ item, value = some item ∧ bytes = tag :: item := by
  simp only [tagged, Option.map_eq_some_iff, eq_comm]

variable {tag : UInt8}

/-- A variant can be written if its value can. -/
theorem Exact.writes_variant (h : codec.Exact proper) (tag : UInt8) (x : α) :
    (∃ bytes, tagged tag (codec.write x) = some bytes) ↔ proper x := by
  rw [← h.writes x]
  simp only [tagged_eq_some]
  exact ⟨fun ⟨_, item, hx, _⟩ => ⟨item, hx⟩, fun ⟨item, hx⟩ => ⟨tag :: item, item, hx, rfl⟩⟩

/-- Where the tag leads to the value's codec, a variant that was written is read back. -/
theorem Exact.reads_variant (h : codec.Exact proper) (whole : Codec β) (variant : α → β)
    (hread : ∀ input, whole.read (tag :: input) = readAs codec variant input) {x : α}
    {bytes : List UInt8} (hx : tagged tag (codec.write x) = some bytes) (rest : List UInt8) :
    whole.read (bytes ++ rest) = .ok (variant x, rest) := by
  obtain ⟨item, hitem, rfl⟩ := tagged_eq_some.1 hx
  rw [List.cons_append, hread]
  exact bind_eq_ok_iff.2 ⟨(x, rest), h.reads hitem rest, rfl⟩

/-- A variant that is read would have been written with its tag. -/
theorem Exact.rewrites_variant (h : codec.Exact proper) {variant : α → β}
    {input rest : List UInt8} {y : β} (hy : readAs codec variant input = .ok (y, rest))
    {whole : Codec β} (hwrite : ∀ x, whole.write (variant x) = tagged tag (codec.write x)) :
    ∃ bytes, whole.write y = some bytes ∧ tag :: input = bytes ++ rest := by
  obtain ⟨⟨x, _⟩, hx, ⟨⟩⟩ := bind_eq_ok_iff.1 hy
  obtain ⟨item, hitem, rfl⟩ := h.rewrites hx
  exact ⟨tag :: item, (hwrite x).trans (tagged_eq_some.2 ⟨item, hitem, rfl⟩), rfl⟩

/-! ## All of the octets -/

/-- What all of the octets are is what was written. -/
theorem Exact.decode_of_write (h : codec.Exact proper) {x : α} {bytes : List UInt8}
    (hx : codec.write x = some bytes) : codec.decode bytes = .ok x := by
  have hread := h.reads hx []
  rw [List.append_nil] at hread
  exact bind_eq_ok_iff.2 ⟨(x, []), hread, rfl⟩

/-- What all of the octets are would be written as they are. -/
theorem Exact.write_of_decode (h : codec.Exact proper) {x : α} {bytes : List UInt8}
    (hx : codec.decode bytes = .ok x) : codec.write x = some bytes := by
  obtain ⟨⟨y, rest⟩, hread, hrest⟩ := bind_eq_ok_iff.1 hx
  dsimp only at hrest
  split at hrest
  · rename_i hempty
    cases hrest
    obtain rfl := List.isEmpty_iff.1 hempty
    obtain ⟨item, hwrite, rfl⟩ := h.rewrites hread
    rw [hwrite, List.append_nil]
  · cases hrest

/-- No octets of a value are the beginning of those of another. -/
theorem Exact.prefix_free (h : codec.Exact proper) {x y : α} {bytes rest : List UInt8}
    (hx : codec.write x = some bytes) (hy : codec.write y = some (bytes ++ rest)) :
    rest = [] := by
  have hread := h.reads hy []
  rw [List.append_nil, h.reads hx rest] at hread
  cases hread
  rfl

end

end Codec

end Wire

end BrokerForest

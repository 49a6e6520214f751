/-!
# SHA-256

`Sha256.digest` is the hash of a sequence of octets, as thirty-two octets.
-/

namespace BrokerForest.Digest.Sha256

/-- The round constants: fractional parts of the cube roots of the first sixty-four primes. -/
def roundConstants : List UInt32 :=
  [0x428a2f98, 0x71374491, 0xb5c0fbcf, 0xe9b5dba5, 0x3956c25b, 0x59f111f1, 0x923f82a4, 0xab1c5ed5,
   0xd807aa98, 0x12835b01, 0x243185be, 0x550c7dc3, 0x72be5d74, 0x80deb1fe, 0x9bdc06a7, 0xc19bf174,
   0xe49b69c1, 0xefbe4786, 0x0fc19dc6, 0x240ca1cc, 0x2de92c6f, 0x4a7484aa, 0x5cb0a9dc, 0x76f988da,
   0x983e5152, 0xa831c66d, 0xb00327c8, 0xbf597fc7, 0xc6e00bf3, 0xd5a79147, 0x06ca6351, 0x14292967,
   0x27b70a85, 0x2e1b2138, 0x4d2c6dfc, 0x53380d13, 0x650a7354, 0x766a0abb, 0x81c2c92e, 0x92722c85,
   0xa2bfe8a1, 0xa81a664b, 0xc24b8b70, 0xc76c51a3, 0xd192e819, 0xd6990624, 0xf40e3585, 0x106aa070,
   0x19a4c116, 0x1e376c08, 0x2748774c, 0x34b0bcb5, 0x391c0cb3, 0x4ed8aa4a, 0x5b9cca4f, 0x682e6ff3,
   0x748f82ee, 0x78a5636f, 0x84c87814, 0x8cc70208, 0x90befffa, 0xa4506ceb, 0xbef9a3f7, 0xc67178f2]

/-- The eight words of the running hash. -/
structure Chain where
  a : UInt32
  b : UInt32
  c : UInt32
  d : UInt32
  e : UInt32
  f : UInt32
  g : UInt32
  h : UInt32

namespace Chain

/-- The hash of nothing yet: fractional parts of the square roots of the first eight primes. -/
def initial : Chain :=
  ⟨0x6a09e667, 0xbb67ae85, 0x3c6ef372, 0xa54ff53a, 0x510e527f, 0x9b05688c, 0x1f83d9ab, 0x5be0cd19⟩

/-- The sum of two chains, word by word. -/
def add (x y : Chain) : Chain :=
  ⟨x.a + y.a, x.b + y.b, x.c + y.c, x.d + y.d, x.e + y.e, x.f + y.f, x.g + y.g, x.h + y.h⟩

/-- The eight words. -/
def words (x : Chain) : List UInt32 := [x.a, x.b, x.c, x.d, x.e, x.f, x.g, x.h]

end Chain

/-- A word turned to the right by `n` places. -/
def turn (x : UInt32) (n : UInt32) : UInt32 := (x >>> n) ||| (x <<< (32 - n))

/-- One round, with the round's constant and message word. -/
def round (x : Chain) (k w : UInt32) : Chain :=
  let s1 := turn x.e 6 ^^^ turn x.e 11 ^^^ turn x.e 25
  let choice := (x.e &&& x.f) ^^^ (~~~x.e &&& x.g)
  let t1 := x.h + s1 + choice + k + w
  let s0 := turn x.a 2 ^^^ turn x.a 13 ^^^ turn x.a 22
  let majority := (x.a &&& x.b) ^^^ (x.a &&& x.c) ^^^ (x.b &&& x.c)
  ⟨t1 + (s0 + majority), x.a, x.b, x.c, x.d + t1, x.e, x.f, x.g⟩

/-- A block's message words extended by one. -/
def extend (ws : Array UInt32) : Array UInt32 :=
  let i := ws.size
  let x := ws.getD (i - 15) 0
  let y := ws.getD (i - 2) 0
  let s0 := turn x 7 ^^^ turn x 18 ^^^ (x >>> 3)
  let s1 := turn y 17 ^^^ turn y 19 ^^^ (y >>> 10)
  ws.push (ws.getD (i - 16) 0 + s0 + ws.getD (i - 7) 0 + s1)

/-- The sixty-four message words of a block of sixteen. -/
def schedule (block : List UInt32) : List UInt32 :=
  (Nat.repeat extend 48 block.toArray).toList

/-- The hash after one more block. -/
def absorb (x : Chain) (block : List UInt32) : Chain :=
  x.add ((roundConstants.zip (schedule block)).foldl (fun y (k, w) => round y k w) x)

/-- Octets as big-endian words of four. -/
def toWords : List UInt8 → List UInt32
  | a :: b :: c :: d :: rest =>
    ((a.toUInt32 <<< 24) ||| (b.toUInt32 <<< 16) ||| (c.toUInt32 <<< 8) ||| d.toUInt32) ::
      toWords rest
  | _ => []

/-- A number in `n` octets, the most significant first. -/
def octets : (n : Nat) → Nat → List UInt8
  | 0, _ => []
  | n + 1, x => octets n (x / 256) ++ [UInt8.ofNat x]

/-- The octets followed by a one bit, zeros, and their number of bits in eight octets. -/
def pad (bytes : List UInt8) : List UInt8 :=
  let zeros := (119 - bytes.length % 64) % 64
  bytes ++ 0x80 :: (List.replicate zeros 0 ++ octets 8 (bytes.length * 8))

/-- The first `n` blocks of sixteen words. -/
def blocks : (n : Nat) → List UInt32 → List (List UInt32)
  | 0, _ => []
  | n + 1, ws => ws.take 16 :: blocks n (ws.drop 16)

/-- The hash of a sequence of octets. -/
def digest (bytes : List UInt8) : List UInt8 :=
  let ws := toWords (pad bytes)
  let final := (blocks (ws.length / 16) ws).foldl absorb .initial
  final.words.flatMap fun w => octets 4 w.toNat

/-- A digest has thirty-two octets. -/
theorem length_digest (bytes : List UInt8) : (digest bytes).length = 32 := rfl

end BrokerForest.Digest.Sha256

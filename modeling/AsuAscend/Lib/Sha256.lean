/-
SHA-256 of a byte string.

`digest` pads the message to blocks of 64 bytes and folds `compress` over them;
`length_digest` is its length.

## Executable

The definitions work on lists of bytes and on 32-bit words, and the digest of a short string can be
evaluated, which the kernel does for one at the end. Nothing about collisions is stated.
-/
import AsuAscend.Lib.LittleEndian

set_option autoImplicit false

namespace Sha256

def rotr (x n : UInt32) : UInt32 := (x >>> n) ||| (x <<< (32 - n))

/-- The constants of the 64 rounds. -/
def roundConstants : List UInt32 :=
  [0x428a2f98, 0x71374491, 0xb5c0fbcf, 0xe9b5dba5, 0x3956c25b, 0x59f111f1, 0x923f82a4, 0xab1c5ed5,
   0xd807aa98, 0x12835b01, 0x243185be, 0x550c7dc3, 0x72be5d74, 0x80deb1fe, 0x9bdc06a7, 0xc19bf174,
   0xe49b69c1, 0xefbe4786, 0x0fc19dc6, 0x240ca1cc, 0x2de92c6f, 0x4a7484aa, 0x5cb0a9dc, 0x76f988da,
   0x983e5152, 0xa831c66d, 0xb00327c8, 0xbf597fc7, 0xc6e00bf3, 0xd5a79147, 0x06ca6351, 0x14292967,
   0x27b70a85, 0x2e1b2138, 0x4d2c6dfc, 0x53380d13, 0x650a7354, 0x766a0abb, 0x81c2c92e, 0x92722c85,
   0xa2bfe8a1, 0xa81a664b, 0xc24b8b70, 0xc76c51a3, 0xd192e819, 0xd6990624, 0xf40e3585, 0x106aa070,
   0x19a4c116, 0x1e376c08, 0x2748774c, 0x34b0bcb5, 0x391c0cb3, 0x4ed8aa4a, 0x5b9cca4f, 0x682e6ff3,
   0x748f82ee, 0x78a5636f, 0x84c87814, 0x8cc70208, 0x90befffa, 0xa4506ceb, 0xbef9a3f7, 0xc67178f2]

/-- The eight working variables. -/
structure Vars where
  (a b c d e f g h : UInt32)

namespace Vars

def initial : Vars :=
  ⟨0x6a09e667, 0xbb67ae85, 0x3c6ef372, 0xa54ff53a, 0x510e527f, 0x9b05688c, 0x1f83d9ab, 0x5be0cd19⟩

def add (v w : Vars) : Vars :=
  ⟨v.a + w.a, v.b + w.b, v.c + w.c, v.d + w.d, v.e + w.e, v.f + w.f, v.g + w.g, v.h + w.h⟩

def words (v : Vars) : List UInt32 := [v.a, v.b, v.c, v.d, v.e, v.f, v.g, v.h]

/-- A round with its constant and its word of the message schedule. -/
def round (v : Vars) (k w : UInt32) : Vars :=
  let s1 := rotr v.e 6 ^^^ rotr v.e 11 ^^^ rotr v.e 25
  let ch := (v.e &&& v.f) ^^^ (~~~v.e &&& v.g)
  let t1 := v.h + s1 + ch + k + w
  let s0 := rotr v.a 2 ^^^ rotr v.a 13 ^^^ rotr v.a 22
  let maj := (v.a &&& v.b) ^^^ (v.a &&& v.c) ^^^ (v.b &&& v.c)
  ⟨t1 + (s0 + maj), v.a, v.b, v.c, v.d + t1, v.e, v.f, v.g⟩

end Vars

/-- The window of sixteen schedule words, moved on by one. -/
def slide (ws : List UInt32) : List UInt32 :=
  let w1 := ws.getD 1 0
  let w14 := ws.getD 14 0
  let s0 := rotr w1 7 ^^^ rotr w1 18 ^^^ (w1 >>> 3)
  let s1 := rotr w14 17 ^^^ rotr w14 19 ^^^ (w14 >>> 10)
  ws.tail ++ [ws.getD 0 0 + s0 + ws.getD 9 0 + s1]

/-- The big-endian word at the head of some bytes. -/
def headWord (data : List UInt8) : UInt32 :=
  UInt32.ofNat (LittleEndian.value (data.take 4).reverse)

def compress (v : Vars) (block : List UInt8) : Vars :=
  let ws := (List.range 16).map fun i => headWord (block.drop (4 * i))
  v.add (roundConstants.foldl (fun s k => (s.1.round k (s.2.getD 0 0), slide s.2)) (v, ws)).1

def pad (message : List UInt8) : List UInt8 :=
  message ++ 0x80 :: (List.replicate ((119 - message.length % 64) % 64) 0 ++
    (LittleEndian.bytes 8 (8 * message.length)).reverse)

def blocks (data : List UInt8) : List (List UInt8) :=
  (List.range (data.length / 64)).map fun i => (data.drop (64 * i)).take 64

def digest (message : List UInt8) : List UInt8 :=
  ((blocks (pad message)).foldl compress .initial).words.flatMap fun w =>
    (LittleEndian.bytes 4 w.toNat).reverse

theorem length_digest (message : List UInt8) : (digest message).length = 32 := by
  unfold digest Vars.words
  simp

/-- The digest of `abc`. -/
example : digest [0x61, 0x62, 0x63] =
    [0xba, 0x78, 0x16, 0xbf, 0x8f, 0x01, 0xcf, 0xea, 0x41, 0x41, 0x40, 0xde, 0x5d, 0xae, 0x22, 0x23,
     0xb0, 0x03, 0x61, 0xa3, 0x96, 0x17, 0x7a, 0x9c, 0xb4, 0x10, 0xff, 0x61, 0xf2, 0x00, 0x15,
     0xad] := by
  decide +kernel

end Sha256

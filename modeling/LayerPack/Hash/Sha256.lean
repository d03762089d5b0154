import LayerPack.Text.Quoted

/-! SHA-256. A message is padded to whole blocks of 64 bytes, and every block is mixed into a state
of eight words. -/
namespace LayerPack.Sha256

/-- The byte at an index, zero past the end. -/
def byteAt (b : ByteArray) (i : Nat) : UInt8 := if h : i < b.size then b[i] else 0

def rotate (x : UInt32) (n : UInt32) : UInt32 := (x >>> n) ||| (x <<< (32 - n))

def roundConstants : Array UInt32 := #[
  0x428a2f98, 0x71374491, 0xb5c0fbcf, 0xe9b5dba5, 0x3956c25b, 0x59f111f1, 0x923f82a4, 0xab1c5ed5,
  0xd807aa98, 0x12835b01, 0x243185be, 0x550c7dc3, 0x72be5d74, 0x80deb1fe, 0x9bdc06a7, 0xc19bf174,
  0xe49b69c1, 0xefbe4786, 0x0fc19dc6, 0x240ca1cc, 0x2de92c6f, 0x4a7484aa, 0x5cb0a9dc, 0x76f988da,
  0x983e5152, 0xa831c66d, 0xb00327c8, 0xbf597fc7, 0xc6e00bf3, 0xd5a79147, 0x06ca6351, 0x14292967,
  0x27b70a85, 0x2e1b2138, 0x4d2c6dfc, 0x53380d13, 0x650a7354, 0x766a0abb, 0x81c2c92e, 0x92722c85,
  0xa2bfe8a1, 0xa81a664b, 0xc24b8b70, 0xc76c51a3, 0xd192e819, 0xd6990624, 0xf40e3585, 0x106aa070,
  0x19a4c116, 0x1e376c08, 0x2748774c, 0x34b0bcb5, 0x391c0cb3, 0x4ed8aa4a, 0x5b9cca4f, 0x682e6ff3,
  0x748f82ee, 0x78a5636f, 0x84c87814, 0x8cc70208, 0x90befffa, 0xa4506ceb, 0xbef9a3f7, 0xc67178f2]

structure State where
  a : UInt32
  b : UInt32
  c : UInt32
  d : UInt32
  e : UInt32
  f : UInt32
  g : UInt32
  h : UInt32

namespace State

def initial : State :=
  ⟨0x6a09e667, 0xbb67ae85, 0x3c6ef372, 0xa54ff53a, 0x510e527f, 0x9b05688c, 0x1f83d9ab, 0x5be0cd19⟩

def add (s t : State) : State :=
  ⟨s.a + t.a, s.b + t.b, s.c + t.c, s.d + t.d, s.e + t.e, s.f + t.f, s.g + t.g, s.h + t.h⟩

/-- One round with the sum of its constant and its word. -/
def round (s : State) (input : UInt32) : State :=
  let s1 := rotate s.e 6 ^^^ rotate s.e 11 ^^^ rotate s.e 25
  let choice := (s.e &&& s.f) ^^^ (~~~s.e &&& s.g)
  let t1 := s.h + s1 + choice + input
  let s0 := rotate s.a 2 ^^^ rotate s.a 13 ^^^ rotate s.a 22
  let majority := (s.a &&& s.b) ^^^ (s.a &&& s.c) ^^^ (s.b &&& s.c)
  ⟨t1 + (s0 + majority), s.a, s.b, s.c, s.d + t1, s.e, s.f, s.g⟩

def words (s : State) : List UInt32 := [s.a, s.b, s.c, s.d, s.e, s.f, s.g, s.h]

end State

/-- The word of four bytes at an index, highest byte first. -/
def wordAt (b : ByteArray) (i : Nat) : UInt32 :=
  ((byteAt b i).toUInt32 <<< 24) ||| ((byteAt b (i + 1)).toUInt32 <<< 16) |||
    ((byteAt b (i + 2)).toUInt32 <<< 8) ||| (byteAt b (i + 3)).toUInt32

/-- The next word of a schedule of at least sixteen words. -/
def nextWord (ws : Array UInt32) : UInt32 :=
  let back (n : Nat) : UInt32 := ws.getD (ws.size - n) 0
  let x := back 15
  let y := back 2
  let s0 := rotate x 7 ^^^ rotate x 18 ^^^ (x >>> 3)
  let s1 := rotate y 17 ^^^ rotate y 19 ^^^ (y >>> 10)
  back 16 + s0 + back 7 + s1

/-- The 64 words of the block that starts at an index. -/
def schedule (b : ByteArray) (start : Nat) : Array UInt32 :=
  let given := (Array.range 16).map fun k => wordAt b (start + 4 * k)
  (List.range 48).foldl (fun ws _ => ws.push (nextWord ws)) given

def mix (b : ByteArray) (s : State) (block : Nat) : State :=
  let ws := schedule b (64 * block)
  s.add ((List.range 64).foldl
    (fun t k => t.round (roundConstants.getD k 0 + ws.getD k 0)) s)

/-- The number of zero bytes between the end mark and the length. -/
def zeroCount (size : Nat) : Nat := (119 - size % 64) % 64

def lengthBytes (size : Nat) : List UInt8 :=
  (List.range 8).map fun k => (8 * size / Nat.pow 2 (8 * (7 - k))).toUInt8

/-- The message with its end mark, zeros and its length in bits. -/
def pad (message : ByteArray) : ByteArray :=
  let tail := 0x80 :: List.replicate (zeroCount message.size) 0 ++ lengthBytes message.size
  message ++ tail.toByteArray

def finalState (message : ByteArray) : State :=
  let padded := pad message
  (List.range (padded.size / 64)).foldl (mix padded) .initial

def hexWord (w : UInt32) : String :=
  String.join ([w >>> 24, w >>> 16, w >>> 8, w].map fun x => Text.hexByte x.toUInt8)

/-- The digest in hexadecimal. -/
def hexDigest (message : ByteArray) : String :=
  String.join ((finalState message).words.map hexWord)

end LayerPack.Sha256

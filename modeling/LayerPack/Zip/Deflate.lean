/-! Compression. A message becomes a list of tokens, each a byte or a copy of bytes that came
before, and the tokens are written as one block in the fixed prefix code. -/
namespace LayerPack.Deflate

inductive Token where
  | literal (byte : UInt8)
  /-- Repeats `length` bytes, starting `distance` bytes back. -/
  | copy (length distance : Nat)

def minLength : Nat := 3

def maxLength : Nat := 258

def maxDistance : Nat := 32768

/-- How many of the next bytes, up to a limit, are the same at two places. -/
def agreeing (x : ByteArray) (i j : Nat) : Nat → Nat
  | 0 => 0
  | limit + 1 =>
    if _ : i < x.size then
      if _ : j < x.size then
        if x[i] = x[j] then agreeing x (i + 1) (j + 1) limit + 1 else 0
      else 0
    else 0

/-- For every bucket one more than the place where three bytes of it last began, zero for none. -/
abbrev Seen := Array Nat

def bucketCount : Nat := 32768

/-- The bucket of the three bytes at a place. -/
def bucket (x : ByteArray) (i : Nat) : Nat :=
  if h : i + 2 < x.size then
    (x[i].toNat * 1021 + x[i + 1].toNat * 257 + x[i + 2].toNat) % bucketCount
  else 0

/-- The copy to make at a place, if what came before allows one. -/
def proposal (x : ByteArray) (i : Nat) (seen : Seen) : Option (Nat × Nat) :=
  match seen.getD (bucket x i) 0 with
  | 0 => none
  | before + 1 =>
    let length := agreeing x before i (min maxLength (x.size - i))
    if before < i ∧ i - before ≤ maxDistance ∧ minLength ≤ length then some (length, i - before)
    else none

theorem proposal_pos {x : ByteArray} {i : Nat} {seen : Seen} {length distance : Nat}
    (h : proposal x i seen = some (length, distance)) : 0 < length := by
  unfold proposal at h
  split at h
  · simp at h
  · dsimp only at h
    split at h
    · rename_i ok
      simp only [Option.some.injEq, Prod.mk.injEq] at h
      simp only [minLength] at ok
      omega
    · simp at h

/-- The tokens of a message from a place on, after those already there. -/
def tokensFrom (x : ByteArray) (i : Nat) (seen : Seen) (tokens : Array Token) : Array Token :=
  if _ : i < x.size then
    let seen' := seen.setIfInBounds (bucket x i) (i + 1)
    match _ : proposal x i seen with
    | some (length, distance) =>
      tokensFrom x (i + length) seen' (tokens.push (.copy length distance))
    | none => tokensFrom x (i + 1) seen' (tokens.push (.literal x[i]))
  else tokens
termination_by x.size - i
decreasing_by
  · have := proposal_pos ‹_›
    omega
  · omega

def tokens (x : ByteArray) : Array Token :=
  tokensFrom x 0 (Array.replicate bucketCount 0) #[]

/-- Whole bytes, and fewer than eight bits that wait for more; the first bit is the lowest. -/
structure Bits where
  bytes : ByteArray := .empty
  held : Nat := 0
  count : Nat := 0

namespace Bits

def settle : Nat → Bits → Bits
  | 0, b => b
  | n + 1, b =>
    if b.count < 8 then b
    else settle n ⟨b.bytes.push b.held.toUInt8, b.held / 256, b.count - 8⟩

/-- Writes the lowest bits of a value, the lowest first. -/
def put (b : Bits) (width value : Nat) : Bits :=
  settle 3 ⟨b.bytes, b.held + value % Nat.pow 2 width * Nat.pow 2 b.count, b.count + width⟩

/-- Fills the last byte with zeros. -/
def finish (b : Bits) : ByteArray :=
  if b.count = 0 then b.bytes else b.bytes.push b.held.toUInt8

end Bits

def reverseBits : Nat → Nat → Nat
  | 0, _ => 0
  | width + 1, value => value % 2 * Nat.pow 2 width + reverseBits width (value / 2)

/-- The width and the word of a symbol in the fixed code, ready to be written. -/
def fixedCode (symbol : Nat) : Nat × Nat :=
  let (width, word) :=
    if symbol < 144 then (8, 0x30 + symbol)
    else if symbol < 256 then (9, 0x190 + (symbol - 144))
    else if symbol < 280 then (7, symbol - 256)
    else (8, 0xC0 + (symbol - 280))
  (width, reverseBits width word)

def fixedCodes : Array (Nat × Nat) := (Array.range 288).map fixedCode

/-- The least length of each length symbol from 257 on, with the number of its extra bits. -/
def lengthClasses : List (Nat × Nat) := [
  (3, 0), (4, 0), (5, 0), (6, 0), (7, 0), (8, 0), (9, 0), (10, 0), (11, 1), (13, 1), (15, 1),
  (17, 1), (19, 2), (23, 2), (27, 2), (31, 2), (35, 3), (43, 3), (51, 3), (59, 3), (67, 4),
  (83, 4), (99, 4), (115, 4), (131, 5), (163, 5), (195, 5), (227, 5), (258, 0)]

/-- The same for the distance symbols. -/
def distanceClasses : List (Nat × Nat) := [
  (1, 0), (2, 0), (3, 0), (4, 0), (5, 1), (7, 1), (9, 2), (13, 2), (17, 3), (25, 3), (33, 4),
  (49, 4), (65, 5), (97, 5), (129, 6), (193, 6), (257, 7), (385, 7), (513, 8), (769, 8),
  (1025, 9), (1537, 9), (2049, 10), (3073, 10), (4097, 11), (6145, 11), (8193, 12), (12289, 12),
  (16385, 13), (24577, 13)]

/-- The last class that begins at or below a value: its index, its least value, its extra bits. -/
def classOf (classes : List (Nat × Nat)) (value : Nat) : Nat × Nat × Nat :=
  let below := classes.takeWhile fun c => c.1 ≤ value
  match below.getLast? with
  | some (least, extra) => (below.length - 1, least, extra)
  | none => (0, value, 0)

def Bits.putSymbol (b : Bits) (symbol : Nat) : Bits :=
  let (width, word) := fixedCodes.getD symbol (0, 0)
  b.put width word

def Bits.putToken (b : Bits) : Token → Bits
  | .literal byte => b.putSymbol byte.toNat
  | .copy length distance =>
    let (n, least, extra) := classOf lengthClasses length
    let b := (b.putSymbol (257 + n)).put extra (length - least)
    let (n, least, extra) := classOf distanceClasses distance
    (b.put 5 (reverseBits 5 n)).put extra (distance - least)

def endOfBlock : Nat := 256

/-- A message in compressed form. -/
def compress (x : ByteArray) : ByteArray :=
  let start := (Bits.put {} 1 1).put 2 1
  ((tokens x).foldl Bits.putToken start |>.putSymbol endOfBlock).finish

end LayerPack.Deflate

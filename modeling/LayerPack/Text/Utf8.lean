import LayerPack.Text.Quoted

/-! UTF-8 over lists of bytes: encoding, strict decoding, and decoding that puts one replacement
character for every maximal part that cannot be continued to a character. -/
namespace LayerPack

abbrev Bytes := List UInt8

namespace Bytes

def ofString (s : String) : Bytes := s.toUTF8.data.toList

/-- The text that the bytes encode, if they encode one. -/
def toText? (b : Bytes) : Option String := String.fromUTF8? (List.toByteArray b)

/-- Order of byte strings: the first difference decides, and a proper beginning comes first. -/
def le : Bytes → Bytes → Bool
  | [], _ => true
  | _ :: _, [] => false
  | a :: as, b :: bs => a < b || (a == b && le as bs)

/-- Whether a byte continues a character. -/
def continues (b : UInt8) : Bool := 0x80 ≤ b && b ≤ 0xBF

/-- How many continuation bytes a first byte asks for, and the range of the first of them. -/
def shape (b : UInt8) : Nat × UInt8 × UInt8 :=
  if b < 0xC2 then (0, 0, 0)
  else if b < 0xE0 then (1, 0x80, 0xBF)
  else if b = 0xE0 then (2, 0xA0, 0xBF)
  else if b = 0xED then (2, 0x80, 0x9F)
  else if b < 0xF0 then (2, 0x80, 0xBF)
  else if b = 0xF0 then (3, 0x90, 0xBF)
  else if b < 0xF4 then (3, 0x80, 0xBF)
  else if b = 0xF4 then (3, 0x80, 0x8F)
  else (0, 0, 0)

/-- Takes up to `count` continuation bytes onto the value read so far; the rest is what was not
taken, and `true` says that all of them were there. -/
def takeContinuation : Nat → UInt8 → UInt8 → Nat → Bytes → Bool × Nat × Bytes
  | 0, _, _, value, rest => (true, value, rest)
  | _ + 1, _, _, value, [] => (false, value, [])
  | count + 1, low, high, value, b :: rest =>
    if low ≤ b && b ≤ high then
      takeContinuation count 0x80 0xBF (value * 64 + (b.toNat - 0x80)) rest
    else (false, value, b :: rest)

/-- The character or broken part at the front, and the rest. -/
def nextChar (b : UInt8) (rest : Bytes) : Option Char × Bytes :=
  if b < 0x80 then (some (Char.ofNat b.toNat), rest)
  else
    let (count, low, high) := shape b
    if count = 0 then (none, rest)
    else
      let lead := if count = 1 then b.toNat - 0xC0 else if count = 2 then b.toNat - 0xE0
        else b.toNat - 0xF0
      let (complete, value, rest') := takeContinuation count low high lead rest
      (if complete then some (Char.ofNat value) else none, rest')

theorem takeContinuation_length (count : Nat) (low high : UInt8) (value : Nat) (rest : Bytes) :
    (takeContinuation count low high value rest).2.2.length ≤ rest.length := by
  induction count generalizing low high value rest with
  | zero => exact Nat.le_refl _
  | succ count ih =>
    cases rest with
    | nil => exact Nat.le_refl _
    | cons b rest =>
      rw [takeContinuation]
      split
      · exact Nat.le_succ_of_le (ih ..)
      · exact Nat.le_refl _

theorem nextChar_length (b : UInt8) (rest : Bytes) : (nextChar b rest).2.length ≤ rest.length := by
  unfold nextChar
  split
  · exact Nat.le_refl _
  · dsimp only
    split
    · exact Nat.le_refl _
    · exact takeContinuation_length ..

/-- Decodes with U+FFFD for what is broken. -/
def decodeChars (b : Bytes) : List Char :=
  match b with
  | [] => []
  | first :: rest =>
    let step := nextChar first rest
    step.1.getD (Char.ofNat 0xFFFD) :: decodeChars step.2
termination_by b.length
decreasing_by exact Nat.lt_succ_of_le (nextChar_length ..)

/-- The text of the bytes for a reader: exact where they are UTF-8, with replacement characters
where they are not. -/
def display (b : Bytes) : String := (toText? b).getD (String.ofList (decodeChars b))

/-- The bytes between double quotes: broken parts are shown byte by byte. -/
def quotedFrom (b : Bytes) : String :=
  match b with
  | [] => ""
  | first :: rest =>
    let step := nextChar first rest
    (match step.1 with
      | some c => Text.quotedChar c
      | none => String.join ((b.take (b.length - step.2.length)).map fun x => "\\x" ++
          (Text.hexByte x).toUpper)) ++ quotedFrom step.2
termination_by b.length
decreasing_by exact Nat.lt_succ_of_le (nextChar_length ..)

def quoted (b : Bytes) : String := "\"" ++ quotedFrom b ++ "\""

end Bytes

/-- The text of a file's content with replacement characters. -/
def displayContent (content : ByteArray) : String :=
  (String.fromUTF8? content).getD (String.ofList (Bytes.decodeChars content.data.toList))

end LayerPack

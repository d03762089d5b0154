import LayerPack.Text.Utf8
import LayerPack.Zip.Number

/-! Reading the directory of a zip file. The end record is looked for from the end of the file, so
that a comment or other bytes may follow it, and bytes in front of the archive are allowed for. -/
namespace LayerPack.Zip

/-- What the directory says of an entry. -/
structure Item where
  name : String
  method : Nat
  time : Nat
  date : Nat
  crc : Nat
  /-- The size of the content, as declared. -/
  size : Nat
  /-- The system that the attributes belong to. -/
  system : Nat
  attributes : Nat
  /-- The place of the local header. -/
  offset : Nat

/-- The characters of the code page of names that are not marked as UTF-8, from 128 on. -/
def upperHalf : Array Char :=
  ("ÇüéâäàåçêëèïîìÄÅÉæÆôöòûùÿÖÜ¢£¥₧ƒáíóúñÑªº¿⌐¬½¼¡«»░▒▓│┤╡╢╖╕╣║╗╝╜╛┐" ++
    "└┴┬├─┼╞╟╚╔╩╦╠═╬╧╨╤╥╙╘╒╓╫╪┘┌█▄▌▐▀" ++
    "αßΓπΣσµτΦΘΩδ∞φε∩≡±≥≤⌠⌡÷≈°∙·√ⁿ²■\u00a0").toList.toArray

def pageChar (b : UInt8) : Char :=
  if b < 128 then Char.ofNat b.toNat else upperHalf.getD (b.toNat - 128) ' '

def nameOf (flags : Nat) (raw : ByteArray) : String :=
  if flags.testBit 11 then displayContent raw else String.ofList (raw.data.toList.map pageChar)

/-- The three numbers of an entry that may stand in an extra field of wide numbers. -/
structure Sizes where
  plain : Nat
  packed : Nat
  offset : Nat

/-- Reads one wide number in the place of a number that is missing or if all are there. -/
def widen (extra : ByteArray) (all : Bool) (value : Nat) (place : Nat) : Option (Nat × Nat) :=
  if all ∨ value = 0xFFFFFFFF then (numberAt? extra place 8).map (·, place + 8)
  else some (value, place)

/-- Goes through the extra fields from a place on. Fields that are cut off are passed over; a
field of wide numbers that is too short for them is refused. -/
def readExtra (extra : ByteArray) : Nat → Nat → Sizes → Option Sizes
  | 0, _, s => some s
  | fuel + 1, place, s =>
    match numberAt? extra place 2, numberAt? extra (place + 2) 2 with
    | some 1, some length =>
      let start := place + 4
      let all := 24 ≤ length
      match widen extra all s.plain start with
      | none => some s
      | some (plain, p1) =>
        match widen extra all s.packed p1 with
        | none => some { s with plain }
        | some (packed, p2) =>
          match widen extra all s.offset p2 with
          | none => some { s with plain, packed }
          | some (offset, p3) =>
            if p3 > start + length then none
            else readExtra extra fuel (start + length) ⟨plain, packed, offset⟩
    | some _, some length => readExtra extra fuel (place + 4 + length) s
    | _, _ => some s

/-- Reads a directory entry and tells where the next one starts. `shift` is the number of bytes in
front of the archive. -/
def readItem (b : ByteArray) (shift place : Nat) : Option (Item × Nat) := do
  guard ((← numberAt? b place 4) = 0x02014B50)
  let nameLength ← numberAt? b (place + 28) 2
  let extraLength ← numberAt? b (place + 30) 2
  let commentLength ← numberAt? b (place + 32) 2
  let flags ← numberAt? b (place + 8) 2
  let raw ← bytesAt? b (place + 46) nameLength
  let extra ← bytesAt? b (place + 46 + nameLength) extraLength
  let stop := place + 46 + nameLength + extraLength + commentLength
  guard (stop ≤ b.size)
  let sizes ← readExtra extra extra.size 0
    ⟨← numberAt? b (place + 24) 4, ← numberAt? b (place + 20) 4, ← numberAt? b (place + 42) 4⟩
  return ({
    name := nameOf flags raw
    method := ← numberAt? b (place + 10) 2
    time := ← numberAt? b (place + 12) 2
    date := ← numberAt? b (place + 14) 2
    crc := ← numberAt? b (place + 16) 4
    size := sizes.plain
    system := ← numberAt? b (place + 5) 1
    attributes := ← numberAt? b (place + 38) 4
    offset := sizes.offset + shift }, stop)

def readItems (b : ByteArray) (shift : Nat) : Nat → Nat → Option (List Item)
  | 0, _ => some []
  | count + 1, place => do
    let (item, next) ← readItem b shift place
    return item :: (← readItems b shift count next)

/-- Where the directory is: how many entries, its first byte, the bytes in front of the archive. -/
structure Directory where
  count : Nat
  start : Nat
  shift : Nat

/-- The first place from `start` on, before `stop`, where four bytes make a number. -/
def findFrom (b : ByteArray) (signature start stop : Nat) : Option Nat :=
  (List.range (stop - start)).findSome? fun n =>
    if numberAt? b (start + n) 4 = some signature then some (start + n) else none

/-- The wide end record that belongs to the end record at a place. -/
def readWide (b : ByteArray) (place : Nat) : Option Directory := do
  guard (20 ≤ place)
  let locator := place - 20
  guard ((← numberAt? b locator 4) = 0x07064B50)
  let claimed ← numberAt? b (locator + 8) 8
  let record ← findFrom b 0x06064B50 claimed locator
  let shift := record - claimed
  let count ← numberAt? b (record + 32) 8
  let start ← numberAt? b (record + 48) 8
  guard ((← numberAt? b (record + 16) 4) = (← numberAt? b (record + 20) 4))
  guard ((← numberAt? b (record + 24) 8) ≤ count)
  guard (start + shift ≤ record)
  return ⟨count, start + shift, shift⟩

/-- The directory that the end record at a place points to. -/
def readEnd (b : ByteArray) (place : Nat) : Option Directory := do
  guard ((← numberAt? b place 4) = 0x06054B50)
  let commentLength ← numberAt? b (place + 20) 2
  guard (place + 22 + commentLength ≤ b.size)
  let disk ← numberAt? b (place + 4) 2
  let startDisk ← numberAt? b (place + 6) 2
  let here ← numberAt? b (place + 8) 2
  let count ← numberAt? b (place + 10) 2
  let size ← numberAt? b (place + 12) 4
  let start ← numberAt? b (place + 16) 4
  let wide := count = 0xFFFF ∨ here = 0xFFFF ∨ size = 0xFFFFFFFF ∨ start = 0xFFFFFFFF
  match if wide then readWide b place else none with
  | some directory => return directory
  | none =>
    guard (disk = startDisk)
    if count = 0 then return ⟨here, start, 0⟩
    guard (start < place)
    let guess := place - size
    let found ←
      if start ≤ guess ∧ numberAt? b guess 4 = some 0x02014B50 then some guess
      else findFrom b 0x02014B50 start place
    return ⟨here, found, found - start⟩

/-- The entries of the directory of the last end record at or before a place. -/
def itemsBefore (b : ByteArray) : Nat → Option (List Item)
  | 0 => none
  | place + 1 =>
    match (readEnd b place).bind fun d => readItems b d.shift d.count d.start with
    | some items => some items
    | none => itemsBefore b place

/-- Adds an entry; one of the same name takes the place of the earlier one. -/
def addItem (items : List Item) (item : Item) : List Item :=
  if items.any (·.name = item.name) then
    items.map fun old => if old.name = item.name then item else old
  else items ++ [item]

def hasLocalHeader (b : ByteArray) (item : Item) : Bool :=
  item.offset + 30 ≤ b.size && numberAt? b item.offset 4 == some 0x04034B50

/-- The entries of a zip file in the order of its directory, of equal names only the last. Every
entry must have its local header. -/
def items? (b : ByteArray) : Option (List Item) := do
  let listed ← itemsBefore b b.size
  let items := listed.foldl addItem []
  if items.all (hasLocalHeader b) then some items else none

end LayerPack.Zip

import LayerPack.Hash.Crc32
import LayerPack.Zip.Deflate
import LayerPack.Zip.Number

/-! Writing zip files. Every entry is compressed and stamped with the earliest time that the format
can hold, so that equal entries make equal files. -/
namespace LayerPack.Zip

structure Entry where
  name : String
  /-- Permission bits. -/
  mode : Nat
  content : ByteArray

/-- An entry with what is derived from its content. -/
structure Packed where
  entry : Entry
  crc : Nat
  data : ByteArray

def Entry.pack (e : Entry) : Packed :=
  ⟨e, (Crc32.checksum e.content).toNat, Deflate.compress e.content⟩

namespace Packed

def nameBytes (p : Packed) : List UInt8 := p.entry.name.toUTF8.data.toList

/-- The flag that marks a name as UTF-8 is set only where it makes a difference. -/
def flags (p : Packed) : Nat :=
  if p.entry.name.toList.all fun c => c.toNat < 128 then 0 else 0x800

/-- The first of January 1980, in the form of the format. -/
def date : Nat := 0x21

/-- The part that the two headers of an entry have in common, from the version needed on. -/
def common (p : Packed) : List UInt8 :=
  numberBytes 2 20 ++ numberBytes 2 p.flags ++ numberBytes 2 8 ++ numberBytes 2 0 ++
    numberBytes 2 date ++ numberBytes 4 p.crc ++ numberBytes 4 p.data.size ++
    numberBytes 4 p.entry.content.size ++ numberBytes 2 p.nameBytes.length ++ numberBytes 2 0

/-- The header in front of the data. -/
def localHeader (p : Packed) : List UInt8 := numberBytes 4 0x04034B50 ++ p.common ++ p.nameBytes

def localRecord (p : Packed) : ByteArray := p.localHeader.toByteArray ++ p.data

/-- The header in the directory; `offset` is the place of the local header. -/
def centralRecord (p : Packed) (offset : Nat) : ByteArray :=
  (numberBytes 4 0x02014B50 ++ numberBytes 2 (3 * 256 + 20) ++ p.common ++ numberBytes 2 0 ++
    numberBytes 2 0 ++ numberBytes 2 0 ++ numberBytes 4 ((0o100000 + p.entry.mode) * 65536) ++
    numberBytes 4 offset ++ p.nameBytes).toByteArray

end Packed

/-- The entries with their data, one after the other. -/
def localPart : List Packed → ByteArray
  | [] => .empty
  | p :: rest => p.localRecord ++ localPart rest

/-- The directory of entries of which the first stands at an offset. -/
def centralPart : Nat → List Packed → ByteArray
  | _, [] => .empty
  | offset, p :: rest =>
    p.centralRecord offset ++ centralPart (offset + p.localRecord.size) rest

/-- The largest number that a field of the end record holds; it stands for "see the wide record". -/
def countLimit : Nat := 0xFFFF

def sizeLimit : Nat := 0xFFFFFFFF

/-- The end record for directories that are too large for the common one, and what points to it. -/
def wideEnd (count start size : Nat) : List UInt8 :=
  numberBytes 4 0x06064B50 ++ numberBytes 8 44 ++ numberBytes 2 45 ++ numberBytes 2 45 ++
    numberBytes 4 0 ++ numberBytes 4 0 ++ numberBytes 8 count ++ numberBytes 8 count ++
    numberBytes 8 size ++ numberBytes 8 start ++
    numberBytes 4 0x07064B50 ++ numberBytes 4 0 ++ numberBytes 8 (start + size) ++ numberBytes 4 1

/-- The end of a file with a directory of `count` entries at `start`. -/
def endPart (count start size : Nat) : ByteArray :=
  let wide := countLimit < count ∨ sizeLimit < start ∨ sizeLimit < size
  ((if wide then wideEnd count start size else []) ++
    numberBytes 4 0x06054B50 ++ numberBytes 2 0 ++ numberBytes 2 0 ++
    numberBytes 2 (min count countLimit) ++ numberBytes 2 (min count countLimit) ++
    numberBytes 4 (min size sizeLimit) ++ numberBytes 4 (min start sizeLimit) ++
    numberBytes 2 0).toByteArray

/-- The zip file with these entries in this order. -/
def encode (entries : List Entry) : ByteArray :=
  let packed := entries.map Entry.pack
  let body := localPart packed
  let directory := centralPart 0 packed
  body ++ directory ++ endPart entries.length body.size directory.size

end LayerPack.Zip

/-! The checksum of zip entries: the remainder of the message by the reflected polynomial
`0xEDB88320`, computed a byte at a time. -/
namespace LayerPack.Crc32

def bitStep (crc : UInt32) : UInt32 :=
  if crc &&& 1 = 0 then crc >>> 1 else (crc >>> 1) ^^^ 0xEDB88320

/-- What one byte contributes. -/
def tableEntry (byte : Nat) : UInt32 :=
  bitStep (bitStep (bitStep (bitStep (bitStep (bitStep (bitStep (bitStep byte.toUInt32)))))))

def table : Array UInt32 := (Array.range 256).map tableEntry

def byteStep (crc : UInt32) (b : UInt8) : UInt32 :=
  table.getD ((crc ^^^ b.toUInt32) &&& 0xFF).toNat 0 ^^^ (crc >>> 8)

def checksum (message : ByteArray) : UInt32 :=
  message.foldl byteStep 0xFFFFFFFF ^^^ 0xFFFFFFFF

end LayerPack.Crc32

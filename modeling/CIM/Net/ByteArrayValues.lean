import CIM.Net.ByteArrayCodec

/-!
# Typed values in a `ByteArray`

The fixed-width integers, swapped where the array's byte order is not the host's, the zigzag
integers of variable length and the strings with their lengths in front.
-/
namespace CIM

/-- `CIM_BYTE_ORDER`. -/
def hostEndian : Endian := .little

/-- The `k` bytes of an integer in the host's memory. -/
def toHost (k n : Nat) : List UInt8 := (toNetwork k n).reverse

def ofHost (bs : List UInt8) : Nat := ofNetwork bs.reverse

def byteswap (k n : Nat) : Nat := ofNetwork (toHost k n)

/-- The negation wraps for the least value, where the source's is undefined. -/
def encodeZigzag32 (v : Int32) : UInt32 :=
  if v < 0 then (-v).toUInt32 * 2 - 1 else v.toUInt32 * 2

def encodeZigzag64 (v : Int64) : UInt64 :=
  if v < 0 then (-v).toUInt64 * 2 - 1 else v.toUInt64 * 2

def decodeZigzag32 (v : UInt32) : Int32 := ((v >>> 1) ^^^ -(v &&& 1)).toInt32

def decodeZigzag64 (v : UInt64) : Int64 := ((v >>> 1) ^^^ -(v &&& 1)).toInt64

namespace ByteArray

def setIsLittleEndian (val : Bool) : ByteArrayM Unit := modify fun ba =>
  { ba with endian := if val then .little else .big }

/-- The macro `XX` of the fixed-width writers, for `k` bytes. -/
def writeFixed (k value : Nat) : ByteArrayM Unit := do
  let ba ← get
  write (toHost k (if hostEndian ≠ ba.endian then byteswap k value else value))

/-- The macro `XX` of the fixed-width readers, for `k` bytes. -/
def readFixed (k : Nat) : ByteArrayM Nat := do
  let v ← read k
  let ba ← get
  return if hostEndian ≠ ba.endian then byteswap k (ofHost v) else ofHost v

def writeFint8 (value : Int8) : ByteArrayM Unit := write [value.toUInt8]
def writeFint16 (value : Int16) : ByteArrayM Unit := writeFixed 2 value.toUInt16.toNat
def writeFuint16 (value : UInt16) : ByteArrayM Unit := writeFixed 2 value.toNat
def writeFint32 (value : Int32) : ByteArrayM Unit := writeFixed 4 value.toUInt32.toNat
def writeFuint32 (value : UInt32) : ByteArrayM Unit := writeFixed 4 value.toNat
def writeFint64 (value : Int64) : ByteArrayM Unit := writeFixed 8 value.toUInt64.toNat
def writeFuint64 (value : UInt64) : ByteArrayM Unit := writeFixed 8 value.toNat

def readFint8 : ByteArrayM Int8 := do return (← readFuint8).toInt8
def readFint16 : ByteArrayM Int16 := do return (UInt16.ofNat (← readFixed 2)).toInt16
def readFuint16 : ByteArrayM UInt16 := do return UInt16.ofNat (← readFixed 2)
def readFint32 : ByteArrayM Int32 := do return (UInt32.ofNat (← readFixed 4)).toInt32
def readFuint32 : ByteArrayM UInt32 := do return UInt32.ofNat (← readFixed 4)
def readFint64 : ByteArrayM Int64 := do return (UInt64.ofNat (← readFixed 8)).toInt64
def readFuint64 : ByteArrayM UInt64 := do return UInt64.ofNat (← readFixed 8)

def writeInt32 (value : Int32) : ByteArrayM Unit := writeUint32 (encodeZigzag32 value)
def writeInt64 (value : Int64) : ByteArrayM Unit := writeUint64 (encodeZigzag64 value)
def readInt32 : ByteArrayM Int32 := do return decodeZigzag32 (← readUint32)
def readInt64 : ByteArrayM Int64 := do return decodeZigzag64 (← readUint64)

/-- The length goes into a `uint16_t`. -/
def writeStringF16 (value : Str) : ByteArrayM Unit := do
  writeFuint16 (UInt16.ofNat value.data.length)
  write value.data

/-- The length goes into a `uint32_t`. -/
def writeStringF32 (value : Str) : ByteArrayM Unit := do
  writeFuint32 (UInt32.ofNat value.data.length)
  write value.data

def writeStringF64 (value : Str) : ByteArrayM Unit := do
  writeFuint64 (UInt64.ofNat value.data.length)
  write value.data

/-- `resize` throws when the length is beyond `max_size()`. -/
def readChars (len : Nat) : ByteArrayM Str := do
  let buffer ← read len
  if h : buffer.length < 9223372036854775808 then return ⟨buffer, h⟩
  else throw (.outOfRange "basic_string::resize")

def readString16 : ByteArrayM Str := do readChars (← readFuint16).toNat
def readString32 : ByteArrayM Str := do readChars (← readFuint32).toNat
def readString64 : ByteArrayM Str := do readChars (← readFuint64).toNat

/-- What a program writes into a `ByteArray` and reads back from it. -/
inductive Value
  | fint8 (v : Int8)
  | fuint8 (v : UInt8)
  | fint16 (v : Int16)
  | fuint16 (v : UInt16)
  | fint32 (v : Int32)
  | fuint32 (v : UInt32)
  | fint64 (v : Int64)
  | fuint64 (v : UInt64)
  | int32 (v : Int32)
  | uint32 (v : UInt32)
  | int64 (v : Int64)
  | uint64 (v : UInt64)
  | stringF32 (v : Str)
  | stringF64 (v : Str)
  | stringVint (v : Str)
  deriving DecidableEq

inductive Kind
  | fint8 | fuint8 | fint16 | fuint16 | fint32 | fuint32 | fint64 | fuint64
  | int32 | uint32 | int64 | uint64 | stringF32 | stringF64 | stringVint

def Value.kind : Value → Kind
  | .fint8 _ => .fint8
  | .fuint8 _ => .fuint8
  | .fint16 _ => .fint16
  | .fuint16 _ => .fuint16
  | .fint32 _ => .fint32
  | .fuint32 _ => .fuint32
  | .fint64 _ => .fint64
  | .fuint64 _ => .fuint64
  | .int32 _ => .int32
  | .uint32 _ => .uint32
  | .int64 _ => .int64
  | .uint64 _ => .uint64
  | .stringF32 _ => .stringF32
  | .stringF64 _ => .stringF64
  | .stringVint _ => .stringVint

def Value.write : Value → ByteArrayM Unit
  | .fint8 v => writeFint8 v
  | .fuint8 v => writeFuint8 v
  | .fint16 v => writeFint16 v
  | .fuint16 v => writeFuint16 v
  | .fint32 v => writeFint32 v
  | .fuint32 v => writeFuint32 v
  | .fint64 v => writeFint64 v
  | .fuint64 v => writeFuint64 v
  | .int32 v => writeInt32 v
  | .uint32 v => writeUint32 v
  | .int64 v => writeInt64 v
  | .uint64 v => writeUint64 v
  | .stringF32 v => writeStringF32 v
  | .stringF64 v => writeStringF64 v
  | .stringVint v => writeStringVint v

def Kind.read : Kind → ByteArrayM Value
  | .fint8 => Value.fint8 <$> readFint8
  | .fuint8 => Value.fuint8 <$> readFuint8
  | .fint16 => Value.fint16 <$> readFint16
  | .fuint16 => Value.fuint16 <$> readFuint16
  | .fint32 => Value.fint32 <$> readFint32
  | .fuint32 => Value.fuint32 <$> readFuint32
  | .fint64 => Value.fint64 <$> readFint64
  | .fuint64 => Value.fuint64 <$> readFuint64
  | .int32 => Value.int32 <$> readInt32
  | .uint32 => Value.uint32 <$> readUint32
  | .int64 => Value.int64 <$> readInt64
  | .uint64 => Value.uint64 <$> readUint64
  | .stringF32 => Value.stringF32 <$> readString32
  | .stringF64 => Value.stringF64 <$> readString64
  | .stringVint => Value.stringVint <$> readStringVint

def writeAll : List Value → ByteArrayM Unit
  | [] => return
  | v :: vs => do
      v.write
      writeAll vs

def readAll : List Kind → ByteArrayM (List Value)
  | [] => return []
  | k :: ks => do
      let v ← k.read
      let vs ← readAll ks
      return v :: vs

/-- Writes the values in the given byte order, goes back to the start and reads them. -/
def writeThenRead (little : Bool) (vs : List Value) : ByteArrayM (List Value) := do
  setIsLittleEndian little
  writeAll vs
  setPosition 0
  readAll (vs.map Value.kind)

end ByteArray

end CIM

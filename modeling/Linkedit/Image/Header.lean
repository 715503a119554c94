import Linkedit.Error
import Linkedit.Segment

/-!
# Image headers

An image begins with a header that gives its magic number, its processor, and
the number and total size of the load commands that follow. The header of a
32-bit image lacks the last field. All numbers are little-endian.
-/

namespace Linkedit

/-- The four bytes of a 32-bit word. -/
def encodeWord32 (value : UInt32) : List UInt8 :=
  Bytes.ofLittleEndian 4 value.toNat

namespace Width

/-- The bytes of an address or size in images of a given pointer width. -/
def encode (width : Width) (value : UInt64) : List UInt8 :=
  Bytes.ofLittleEndian width.bytes value.toNat

/-- Reads an address or size in an image of a given pointer width. -/
def decode? (width : Width) (data : Bytes) (offset : Nat) : Option UInt64 :=
  (data.number? width.bytes offset).map UInt64.ofNat

end Width

namespace Image

/-- The header of an image. -/
structure Header where
  magic : UInt32
  cpuType : UInt32
  cpuSubtype : UInt32
  fileType : UInt32
  commandCount : UInt32
  commandSize : UInt32
  flags : UInt32
  reserved : UInt32
deriving DecidableEq, Repr

/-- What the magic number at the start of a file announces. -/
inductive Magic where
  | thin (width : Width)
  | fat
  | unknown
deriving DecidableEq, Repr

/-- Reads a magic number. Only little-endian images are known. -/
def Magic.ofWord (magic : UInt32) : Magic :=
  if magic = 0xFEEDFACF then .thin .bits64
  else if magic = 0xFEEDFACE then .thin .bits32
  else if magic = 0xCAFEBABE ∨ magic = 0xBEBAFECA ∨ magic = 0xCAFEBABF ∨
    magic = 0xBFBAFECA then .fat
  else .unknown

namespace Header

/-- The number of bytes of a header. -/
def size : Width → Nat
  | .bits32 => 28
  | .bits64 => 32

/-- The bytes of a header. -/
def encode (width : Width) (header : Header) : List UInt8 :=
  encodeWord32 header.magic ++ encodeWord32 header.cpuType ++
    encodeWord32 header.cpuSubtype ++ encodeWord32 header.fileType ++
    encodeWord32 header.commandCount ++ encodeWord32 header.commandSize ++
    encodeWord32 header.flags ++
    match width with
    | .bits32 => []
    | .bits64 => encodeWord32 header.reserved

/-- Reads a header from the start of a buffer. The field that a 32-bit header
lacks reads as zero. -/
def decode? (width : Width) (data : Bytes) : Option Header := do
  let reserved ← match width with
    | .bits32 => some 0
    | .bits64 => data.word32? 28
  return {
    magic := ← data.word32? 0
    cpuType := ← data.word32? 4
    cpuSubtype := ← data.word32? 8
    fileType := ← data.word32? 12
    commandCount := ← data.word32? 16
    commandSize := ← data.word32? 20
    flags := ← data.word32? 24
    reserved }

/-- The header of a dynamic library for 64-bit ARM without load commands. -/
def empty : Header where
  magic := 0xFEEDFACF
  cpuType := 0x0100000C
  cpuSubtype := 0
  fileType := 6
  commandCount := 0
  commandSize := 0
  flags := 0
  reserved := 0

/-- The short name of the processor. The high byte of the subtype holds
capability bits and is ignored. -/
def architecture (header : Header) : String :=
  if header.cpuType = 0x0100000C then
    if header.cpuSubtype &&& 0xFF = 2 then "arm64e" else "arm64"
  else if header.cpuType = 0x01000007 then "x86_64"
  else if header.cpuType = 12 then "arm"
  else if header.cpuType = 7 then "i386"
  else "unknown"

end Header

end Image

end Linkedit

/-!
# Segments and sections

A segment maps a range of the file to a range of addresses. Bind programs refer
to segments by their position in the image and to slots by an offset within a
segment. Sections only label addresses.
-/

namespace Linkedit

/-- The width of pointers in an image. -/
inductive Width where
  | bits32
  | bits64
deriving DecidableEq, Repr

/-- The number of bytes of a pointer. -/
def Width.bytes : Width → Nat
  | .bits32 => 4
  | .bits64 => 8

/-- A named range of addresses within a segment. -/
structure Section where
  name : String
  address : UInt64
  size : UInt64
deriving DecidableEq, Repr

/-- Whether an address lies in a section. A section may reach past the last
address; it never wraps around to the first. -/
def Section.contains (part : Section) (address : UInt64) : Bool :=
  part.address ≤ address && address - part.address < part.size

/-- A segment with its sections in the order of the load command. -/
structure Segment where
  name : String
  address : UInt64
  size : UInt64
  fileOffset : UInt64
  fileSize : UInt64
  sections : List Section
deriving DecidableEq, Repr

/-- The first section that contains an address. -/
def Segment.sectionAt? (segment : Segment) (address : UInt64) : Option Section :=
  segment.sections.find? (Section.contains · address)

end Linkedit

import Linkedit.Bind.Machine

/-!
# Bind records

A bind record describes one bound slot by names as well as by numbers: the
segment, the section around the slot, the library and the symbol.
-/

namespace Linkedit.Bind

/-- One bound slot. -/
structure Record where
  segmentName : String
  sectionName : Option String
  address : UInt64
  segmentIndex : Nat
  segmentOffset : UInt64
  kind : Kind
  addend : Int
  ordinal : Int
  library : String
  symbol : String
  weakImport : Bool
  value : Option UInt64
deriving DecidableEq, Repr

/-- The address of a slot. -/
def Slot.address (slot : Slot) : UInt64 := slot.segment.address + slot.offset

/-- The record of a slot. -/
def Slot.record (libraries : List String) (slot : Slot) : Record where
  segmentName := slot.segment.name
  sectionName := (slot.segment.sectionAt? slot.address).map (·.name)
  address := slot.address
  segmentIndex := slot.segmentIndex
  segmentOffset := slot.offset
  kind := slot.target.kind
  addend := slot.target.addend
  ordinal := slot.target.ordinal
  library := libraryName libraries slot.target.ordinal
  symbol := Text.lossy slot.target.symbol.name
  weakImport := slot.target.symbol.weakImport
  value := slot.value

/-- The same bind some bytes further on. -/
def Slot.advance (slot : Slot) (distance : Nat) : Slot :=
  { slot with offset := slot.offset + UInt64.ofNat distance }

/-- The slots that an event binds, in order. -/
def Event.slots : Event → List Slot
  | .single slot => [slot]
  | .run first count stride =>
      (List.range count).map fun index => first.advance (index * stride)
  | .problem _ => []

end Linkedit.Bind

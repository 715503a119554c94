import Linkedit.Bytes

/-!
# Exported symbols

An export is a name with what the dynamic linker needs to resolve it: an address
in this image, or another library to take the symbol from. The flags word says
which of the two it is and holds the kind of the symbol.
-/

namespace Linkedit

/-- An exported symbol. For a re-export `other` is the ordinal of the library;
for a symbol with a resolver it is the address of the resolver function. -/
structure Export where
  name : Name
  flags : UInt64 := 0
  address : UInt64 := 0
  other : UInt64 := 0
  importName : Option Name := none
deriving DecidableEq, Repr

namespace Export

/-- What an exported symbol stands for. -/
inductive Kind where
  | regular
  | threadLocal
  | absolute
  | unknown
deriving DecidableEq, Repr

/-- The kind in the two lowest bits of a flags word. -/
def Kind.ofFlags (flags : UInt64) : Kind :=
  match flags &&& 3 with
  | 0 => .regular
  | 1 => .threadLocal
  | 2 => .absolute
  | _ => .unknown

/-- The label of a kind in listings. -/
def Kind.label : Kind → String
  | .regular => "regular"
  | .threadLocal => "thread-local"
  | .absolute => "absolute"
  | .unknown => "unknown"

/-- The flag of a weak definition. -/
def weakFlag : UInt64 := 0x04

/-- The flag of a symbol that comes from another library. -/
def reexportFlag : UInt64 := 0x08

/-- The flag of a symbol whose address is chosen by a resolver function. -/
def resolverFlag : UInt64 := 0x10

/-- The kind of an export. -/
def kind (symbol : Export) : Kind := Kind.ofFlags symbol.flags

/-- Whether an export is a weak definition. -/
def isWeak (symbol : Export) : Bool := symbol.flags &&& weakFlag != 0

/-- Whether an export comes from another library. -/
def isReexport (symbol : Export) : Bool := symbol.flags &&& reexportFlag != 0

/-- Whether the address of an export is chosen by a resolver function. -/
def hasResolver (symbol : Export) : Bool := symbol.flags &&& resolverFlag != 0

/-- Whether an export is a thread-local variable. -/
def isThreadLocal (symbol : Export) : Bool := symbol.kind == .threadLocal

/-- A regular export at an address. -/
def regular (name : Name) (address : UInt64) : Export := { name, address }

/-- A symbol of the library with the given ordinal, exported again under `name`. -/
def reexport (name : Name) (ordinal : UInt64) (importName : Option Name) : Export :=
  { name, flags := reexportFlag, other := ordinal, importName }

/-- The name of an export as text. -/
def nameText (symbol : Export) : String := Text.lossy symbol.name

end Export

end Linkedit

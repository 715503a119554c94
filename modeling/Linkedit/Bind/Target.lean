import Linkedit.Bytes

/-!
# Bind targets

A bind stores the address of a symbol into a pointer slot. The target of a bind
is everything but the slot: the symbol, the library it comes from, what is added
to its address, and how the sum is stored. Libraries are numbered from one in
the order of the load commands; zero and the negative numbers down to minus
three are special places to search.
-/

namespace Linkedit.Bind

/-- How a bound value is stored in its slot. -/
inductive Kind where
  | pointer
  | textAbsolute32
  | textRelative32
deriving DecidableEq, Repr

/-- The kind with a given number. -/
def Kind.ofNumber? : Nat → Option Kind
  | 1 => some .pointer
  | 2 => some .textAbsolute32
  | 3 => some .textRelative32
  | _ => none

/-- The label of a kind in listings. -/
def Kind.label : Kind → String
  | .pointer => "pointer"
  | .textAbsolute32 => "text abs32"
  | .textRelative32 => "text rel32"

/-- A symbol to bind to. A weak import that is missing binds to zero. -/
structure Symbol where
  name : Name
  weakImport : Bool
deriving DecidableEq, Repr

/-- What a slot is bound to. -/
structure Target where
  symbol : Symbol
  ordinal : Int
  addend : Int
  kind : Kind
deriving DecidableEq, Repr

/-- Whether a library ordinal names a special place or one of the libraries. -/
def isOrdinal (libraries : Nat) (ordinal : Int) : Bool :=
  -3 ≤ ordinal && ordinal ≤ libraries

/-- The name of the library with a given ordinal, or a label for it. -/
def libraryName (libraries : List String) (ordinal : Int) : String :=
  match ordinal with
  | 0 => "this-image"
  | -1 => "main-executable"
  | -2 => "flat-namespace"
  | -3 => "weak"
  | ordinal =>
      let named := if 0 < ordinal then libraries[(ordinal - 1).toNat]? else none
      named.getD s!"<ordinal {ordinal}>"

end Linkedit.Bind

/-!
# Chain pointers

In the threaded format a slot of the file holds a chain pointer. It says whether
the slot is bound, to which entry of the ordinal table, and how far away the
next slot of the chain is.

| bits  | meaning                                                     |
|-------|-------------------------------------------------------------|
| 63    | authenticated                                               |
| 62    | bind rather than rebase                                     |
| 51–61 | distance to the next slot in units of 8 bytes; zero at the end |
| 49–50 | signing key                                                 |
| 48    | the slot address is part of the discriminator               |
| 32–47 | extra discriminator                                         |
| 0–15  | index into the ordinal table                                |
-/

namespace Linkedit.Bind

/-- The 64-bit word in a slot of a chain. -/
structure ChainPointer where
  raw : UInt64
deriving DecidableEq, Repr

namespace ChainPointer

/-- The `width` bits of the word from bit `low` on. -/
def bits (pointer : ChainPointer) (low width : Nat) : Nat :=
  (pointer.raw.toNat >>> low) % (1 <<< width)

/-- Whether the pointer is authenticated. -/
def isAuthenticated (pointer : ChainPointer) : Bool := pointer.bits 63 1 = 1

/-- Whether the slot is bound rather than rebased. -/
def isBind (pointer : ChainPointer) : Bool := pointer.bits 62 1 = 1

/-- The distance to the next slot, in units of eight bytes. -/
def next (pointer : ChainPointer) : Nat := pointer.bits 51 11

/-- The index of a bind into the ordinal table. -/
def index (pointer : ChainPointer) : Nat := pointer.bits 0 16

/-- The signing key of an authenticated pointer. -/
def key (pointer : ChainPointer) : Nat := pointer.bits 49 2

/-- Whether the slot address is part of the discriminator. -/
def hasAddressDiversity (pointer : ChainPointer) : Bool := pointer.bits 48 1 = 1

/-- The extra discriminator of an authenticated pointer. -/
def diversity (pointer : ChainPointer) : Nat := pointer.bits 32 16

end ChainPointer

end Linkedit.Bind

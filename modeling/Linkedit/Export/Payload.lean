import Linkedit.Cursor
import Linkedit.Export.Basic

/-!
# Export payloads

The payload of a terminal trie node describes one export without its name. It
begins with the flags. A re-export goes on with the ordinal of its library and
the name of the symbol there; any other export goes on with its address and, if
it has one, the address of its resolver.
-/

namespace Linkedit.Export

/-- The name a re-export is written with. A symbol that keeps its name is
written with the empty name. -/
def writtenImportName (symbol : Export) : Name :=
  match symbol.importName with
  | some name => if name = symbol.name then [] else name
  | none => []

/-- The payload bytes of an export. -/
def encodePayload (symbol : Export) : List UInt8 :=
  Leb128.encodeUnsigned symbol.flags.toNat ++
    if symbol.isReexport then
      Leb128.encodeUnsigned symbol.other.toNat ++ symbol.writtenImportName ++ [0]
    else
      Leb128.encodeUnsigned symbol.address.toNat ++
        if symbol.hasResolver then Leb128.encodeUnsigned symbol.other.toNat
        else []

/-- Reads the payload of the export `name` from `start` to the end of `data`.
The buffer ends where the payload ends, so a payload that claims more fields
than it has fails. Bytes after the last field are ignored. -/
def decodePayload (name : Name) (data : Bytes) (start : Nat) :
    Except Error Export := do
  let (flags, cursor) ← (Cursor.mk data start).unsigned
  let symbol : Export := { name, flags }
  if symbol.isReexport then
    let (other, cursor) ← cursor.unsigned
    let (importName, _) ← cursor.text
    return { symbol with
      other, importName := if importName.isEmpty then none else some importName }
  else
    let (address, cursor) ← cursor.unsigned
    if symbol.hasResolver then
      let (other, _) ← cursor.unsigned
      return { symbol with address, other }
    else
      return { symbol with address }

end Linkedit.Export

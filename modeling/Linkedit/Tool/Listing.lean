import Linkedit.Bind.Interpret
import Linkedit.Export.Basic
import Linkedit.Text.Column

/-!
# Listings

The lines in which the tool shows exports and binds.
-/

namespace Linkedit.Tool

open Text (flushLeft flushRight hex hexFilled)

/-- A 64-bit address with all its digits. -/
def addressText (address : UInt64) : String := hexFilled 16 address.toNat

/-- The attributes of an export in brackets. -/
def attributesText (symbol : Export) (resolver : Bool) : String :=
  let attributes := [symbol.kind.label] ++
    (if symbol.isWeak then ["weak"] else []) ++
    (if resolver then ["resolver"] else [])
  "[" ++ ",".intercalate attributes ++ "]"

/-- The line of an export. A re-export has no address of its own. -/
def exportLine (symbol : Export) : String :=
  let resolver := symbol.hasResolver && !symbol.isReexport
  let attributes := attributesText symbol resolver
  if symbol.isReexport then
    let renamed := match symbol.importName with
      | some name => s!" as {Text.lossy name}"
      | none => ""
    flushRight 18 "-" ++ s!"  {attributes} {symbol.nameText} " ++
      s!"(re-export from ordinal {symbol.other}{renamed})"
  else
    let line := s!"{addressText symbol.address}  {attributes} {symbol.nameText}"
    if resolver then line ++ s!" (resolver {hex symbol.other.toNat})" else line

/-- The columns of a bind: segment, section, address, kind, addend and library,
with the symbol at the end. -/
def bindColumns (segment section_ address kind addend library symbol : String) :
    String :=
  " ".intercalate [flushLeft 16 segment, flushLeft 16 section_,
    flushLeft 18 address, flushLeft 10 kind, flushRight 6 addend,
    flushLeft 32 library, symbol]

/-- The line above the binds. -/
def bindHeading : String :=
  bindColumns "segment" "section" "address" "type" "addend" "dylib" "symbol"

/-- The line of a bind. -/
def bindLine (record : Bind.Record) : String :=
  let line := bindColumns record.segmentName (record.sectionName.getD "-")
    (addressText record.address) record.kind.label (toString record.addend)
    record.library record.symbol
  let weak := if record.weakImport then " (weak import)" else ""
  let value := match record.value with
    | some value => s!" [{addressText value}]"
    | none => ""
  line ++ weak ++ value

end Linkedit.Tool

import Linkedit.Cursor

/-!
# Reading in place

Whoever reads several fields holds one cursor, and every read moves it. What a read did
to the cursor before it failed would stay done, so a read moves the cursor last.
-/

namespace Linkedit

/-- A read that moves the cursor of its caller. -/
abbrev Reading (α : Type) := ExceptT Error (StateM Cursor) α

namespace Reading

/-- The outcome of a read, and the cursor that it leaves. -/
def on {α : Type} (reading : Reading α) (cursor : Cursor) : Except Error α × Cursor :=
  reading.run.run cursor

/-- Moves the cursor to a position. -/
def moveTo (position : Nat) : Reading Unit :=
  modify fun cursor => { cursor with position }

/-- Reads one byte. -/
def byte : Reading UInt8 := do
  let cursor ← get
  match cursor.data[cursor.position]? with
  | some byte =>
      moveTo (cursor.position + 1)
      return byte
  | none => throw (.truncated cursor.position)

/-- Reads an unsigned LEB128 number. -/
def unsigned : Reading UInt64 := do
  let cursor ← get
  let (number, next) ← Leb128.decodeUnsigned cursor.data cursor.position
  moveTo next
  return number

/-- Reads a signed LEB128 number. -/
def signed : Reading Int := do
  let cursor ← get
  let (number, next) ← Leb128.decodeSigned cursor.data cursor.position
  moveTo next
  return number

/-- Reads the bytes up to a zero byte and passes over the zero byte. -/
def text : Reading Name := do
  let cursor ← get
  match cursor.data.zeroFrom? cursor.position with
  | some stop =>
      moveTo (stop + 1)
      return cursor.data.slice cursor.position stop
  | none => throw (.parse cursor.position .unterminatedString)

/-- Reads one field of a given kind. -/
def ofField : Cursor.Field → Reading Cursor.Value
  | .byte => return .byte (← byte)
  | .unsigned => return .unsigned (← unsigned)
  | .signed => return .signed (← signed)
  | .text => return .text (← text)

/-- A field that was asked for: where the cursor stood, the answer, and where the cursor
stood then. -/
structure Taken where
  field : Cursor.Field
  start : Nat
  answer : Except Error Cursor.Value
  stop : Nat

/-- Reads a sequence of fields from one cursor, and goes on after failures. -/
def each : List Cursor.Field → StateM Cursor (List Taken)
  | [] => return []
  | field :: fields => do
      let start := (← get).position
      let answer ← (ofField field).run
      let stop := (← get).position
      return ⟨field, start, answer, stop⟩ :: (← each fields)

end Reading

end Linkedit

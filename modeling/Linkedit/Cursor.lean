import Linkedit.Leb128

/-!
# Cursors

A cursor is a position in a buffer of untrusted bytes. Every read is checked
against the end of the buffer. A read that succeeds gives the value and the
cursor after it; one that fails gives no cursor, so the caller still holds the
old one.
-/

namespace Linkedit

/-- A position in a buffer. It may lie past the end. -/
structure Cursor where
  data : Bytes
  position : Nat
deriving DecidableEq, Repr

namespace Cursor

/-- Whether nothing is left to read. -/
def atEnd (cursor : Cursor) : Bool := cursor.data.size ≤ cursor.position

/-- Reads one byte. -/
def byte (cursor : Cursor) : Except Error (UInt8 × Cursor) :=
  match cursor.data[cursor.position]? with
  | some byte => .ok (byte, { cursor with position := cursor.position + 1 })
  | none => .error (.truncated cursor.position)

/-- Reads an unsigned LEB128 number. -/
def unsigned (cursor : Cursor) : Except Error (UInt64 × Cursor) :=
  match Leb128.decodeUnsigned cursor.data cursor.position with
  | .ok (number, next) => .ok (number, { cursor with position := next })
  | .error error => .error error

/-- Reads a signed LEB128 number. -/
def signed (cursor : Cursor) : Except Error (Int × Cursor) :=
  match Leb128.decodeSigned cursor.data cursor.position with
  | .ok (number, next) => .ok (number, { cursor with position := next })
  | .error error => .error error

/-- Reads the bytes up to a zero byte and passes over the zero byte. -/
def text (cursor : Cursor) : Except Error (Name × Cursor) :=
  match cursor.data.zeroFrom? cursor.position with
  | some stop => .ok (cursor.data.slice cursor.position stop,
      { cursor with position := stop + 1 })
  | none => .error (.parse cursor.position .unterminatedString)

/-! ## Progress -/

/-- `next` is a cursor of the same buffer, further on and inside it. -/
structure Advances (cursor next : Cursor) : Prop where
  data_eq : next.data = cursor.data
  position_lt : cursor.position < next.position
  position_le : next.position ≤ cursor.data.size

theorem Advances.trans {first second third : Cursor}
    (left : first.Advances second) (right : second.Advances third) :
    first.Advances third where
  data_eq := right.data_eq.trans left.data_eq
  position_lt := Nat.lt_trans left.position_lt right.position_lt
  position_le := left.data_eq ▸ right.position_le

theorem byte_advances {cursor next : Cursor} {value : UInt8}
    (read : cursor.byte = .ok (value, next)) : cursor.Advances next := by
  unfold byte at read
  split at read
  next found =>
    cases read
    have inBounds := (Array.getElem?_eq_some_iff.mp found).1
    exact ⟨rfl, Nat.lt_succ_self _, inBounds⟩
  next => cases read

theorem unsigned_advances {cursor next : Cursor} {value : UInt64}
    (read : cursor.unsigned = .ok (value, next)) : cursor.Advances next := by
  unfold unsigned at read
  split at read
  next decoded =>
    cases read
    exact ⟨rfl, (Leb128.decodeUnsigned_progress decoded).1,
      (Leb128.decodeUnsigned_progress decoded).2⟩
  next => cases read

theorem signed_advances {cursor next : Cursor} {value : Int}
    (read : cursor.signed = .ok (value, next)) : cursor.Advances next := by
  unfold signed at read
  split at read
  next decoded =>
    cases read
    exact ⟨rfl, (Leb128.decodeSigned_progress decoded).1,
      (Leb128.decodeSigned_progress decoded).2⟩
  next => cases read

theorem text_advances {cursor next : Cursor} {value : Name}
    (read : cursor.text = .ok (value, next)) : cursor.Advances next := by
  unfold text at read
  split at read
  next stop found =>
    cases read
    have bounds := Bytes.zeroFrom?_bounds found
    exact ⟨rfl, Nat.lt_succ_of_le bounds.1, bounds.2⟩
  next => cases read

/-! ## Sequences of reads -/

/-- The kinds of field a cursor can read. -/
inductive Field where
  | byte
  | unsigned
  | signed
  | text
deriving DecidableEq, Repr

/-- A field that was read. -/
inductive Value where
  | byte (value : UInt8)
  | unsigned (value : UInt64)
  | signed (value : Int)
  | text (value : Name)
deriving DecidableEq, Repr

/-- Reads one field of a given kind. -/
def read (cursor : Cursor) : Field → Except Error (Value × Cursor)
  | .byte => cursor.byte.map fun (value, next) => (.byte value, next)
  | .unsigned => cursor.unsigned.map fun (value, next) => (.unsigned value, next)
  | .signed => cursor.signed.map fun (value, next) => (.signed value, next)
  | .text => cursor.text.map fun (value, next) => (.text value, next)

/-- Reads a sequence of fields and goes on after failures from where the failed
read began. Every answer comes with the cursor after it. -/
def readEach (cursor : Cursor) : List Field → List (Except Error Value × Cursor)
  | [] => []
  | field :: fields =>
      match cursor.read field with
      | .ok (value, next) => (.ok value, next) :: next.readEach fields
      | .error error => (.error error, cursor) :: cursor.readEach fields

end Cursor

end Linkedit

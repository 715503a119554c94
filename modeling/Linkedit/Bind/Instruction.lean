import Linkedit.Cursor
import Linkedit.Bind.Target

/-!
# Bind instructions

A bind program is a stream of opcodes. The high half of an opcode byte is the
operation and the low half a small operand; LEB128 numbers or a symbol name may
follow. Every instruction takes at least one byte, so a stream has an end.
-/

namespace Linkedit.Bind

/-- One instruction of a bind program. -/
inductive Instruction where
  /-- Ends the program. -/
  | done
  /-- Sets the library. -/
  | setOrdinal (ordinal : Int)
  /-- Sets the symbol. -/
  | setSymbol (symbol : Symbol)
  /-- Sets how values are stored, by number. -/
  | setKind (number : Nat)
  /-- Sets the addend. -/
  | setAddend (addend : Int)
  /-- Sets the slot. -/
  | setSlot (segment : Nat) (offset : UInt64)
  /-- Moves the slot. -/
  | advance (distance : UInt64)
  /-- Binds the slot and moves past it, or adds to the ordinal table. -/
  | bind
  /-- Binds the slot, and moves past it and `distance` bytes further. -/
  | bindAdvance (distance : UInt64)
  /-- Binds the slot, and moves past it and `pointers` pointers further. -/
  | bindAdvanceScaled (pointers : Nat)
  /-- Binds `count` slots that lie `skip` bytes apart. -/
  | bindRepeated (count skip : UInt64)
  /-- Begins an ordinal table. -/
  | setTableSize (capacity : UInt64)
  /-- Binds the slots of the pointer chain at the slot. -/
  | applyChain
  /-- A threaded operation that has no meaning. -/
  | unknownThreaded (number : Nat)
deriving DecidableEq, Repr

namespace Instruction

/-- The largest library ordinal; larger operands read as this one. -/
def maxOrdinal : Nat := 0x7FFFFFFFFFFFFFFF

/-- The special ordinal in a four-bit operand: zero, or a negative number in
two's complement. -/
def specialOrdinal (operand : Nat) : Int :=
  if operand = 0 then 0 else (operand : Int) - 16

/-- Makes an instruction of an operand that was read. -/
def ofOperand {α : Type} (make : α → Instruction)
    (read : Except Error (α × Cursor)) : Except Error (Instruction × Cursor) :=
  read.map fun (operand, next) => (make operand, next)

/-- Reads what follows the opcode byte at `offset`. -/
def decodeOperands (offset : Nat) (opcode : UInt8) (cursor : Cursor) :
    Except Error (Instruction × Cursor) :=
  let operand := opcode.toNat % 16
  match opcode.toNat / 16 with
  | 0 => .ok (.done, cursor)
  | 1 => .ok (.setOrdinal operand, cursor)
  | 2 =>
      ofOperand (fun ordinal => .setOrdinal (min ordinal.toNat maxOrdinal : Nat))
        cursor.unsigned
  | 3 => .ok (.setOrdinal (specialOrdinal operand), cursor)
  | 4 => ofOperand (fun name => .setSymbol ⟨name, operand % 2 = 1⟩) cursor.text
  | 5 => .ok (.setKind operand, cursor)
  | 6 => ofOperand .setAddend cursor.signed
  | 7 => ofOperand (.setSlot operand) cursor.unsigned
  | 8 => ofOperand .advance cursor.unsigned
  | 9 => .ok (.bind, cursor)
  | 10 => ofOperand .bindAdvance cursor.unsigned
  | 11 => .ok (.bindAdvanceScaled operand, cursor)
  | 12 =>
      match cursor.unsigned with
      | .ok (count, next) => ofOperand (.bindRepeated count) next.unsigned
      | .error error => .error error
  | 13 =>
      match operand with
      | 0 => ofOperand .setTableSize cursor.unsigned
      | 1 => .ok (.applyChain, cursor)
      | number => .ok (.unknownThreaded number, cursor)
  | _ => .error (.parse offset (.unknownBindOpcode (opcode &&& 0xF0)))

/-- Reads one instruction. -/
def decode (cursor : Cursor) : Except Error (Instruction × Cursor) :=
  match cursor.byte with
  | .ok (opcode, next) => decodeOperands cursor.position opcode next
  | .error error => .error error

/-! ## Progress -/

theorem ofOperand_advances {α : Type} {cursor next : Cursor}
    {read : Except Error (α × Cursor)} {make : α → Instruction}
    {instruction : Instruction}
    (decoded : ofOperand make read = .ok (instruction, next))
    (advances : ∀ {value after}, read = .ok (value, after) →
      cursor.Advances after) : cursor.Advances next := by
  cases read with
  | error => cases decoded
  | ok result =>
      cases decoded
      exact advances rfl

theorem decodeOperands_advances {offset : Nat} {opcode : UInt8}
    {cursor next : Cursor} {instruction : Instruction}
    (decoded : decodeOperands offset opcode cursor = .ok (instruction, next)) :
    next = cursor ∨ cursor.Advances next := by
  unfold decodeOperands at decoded
  dsimp only at decoded
  split at decoded
  case h_3 | h_8 | h_9 | h_11 =>
    exact .inr (ofOperand_advances decoded Cursor.unsigned_advances)
  case h_5 => exact .inr (ofOperand_advances decoded Cursor.text_advances)
  case h_7 => exact .inr (ofOperand_advances decoded Cursor.signed_advances)
  case h_13 =>
    split at decoded
    next read =>
      exact .inr ((Cursor.unsigned_advances read).trans
        (ofOperand_advances decoded Cursor.unsigned_advances))
    next => cases decoded
  case h_14 =>
    split at decoded
    next => exact .inr (ofOperand_advances decoded Cursor.unsigned_advances)
    all_goals
      cases decoded
      exact .inl rfl
  case h_15 => cases decoded
  all_goals
    cases decoded
    exact .inl rfl

/-- An instruction takes at least one byte and lies inside the stream. -/
theorem decode_advances {cursor next : Cursor} {instruction : Instruction}
    (decoded : decode cursor = .ok (instruction, next)) :
    cursor.Advances next := by
  unfold decode at decoded
  split at decoded
  next read =>
    have opcode := Cursor.byte_advances read
    rcases decodeOperands_advances decoded with rfl | operands
    · exact opcode
    · exact opcode.trans operands
  next => cases decoded

end Instruction

end Linkedit.Bind

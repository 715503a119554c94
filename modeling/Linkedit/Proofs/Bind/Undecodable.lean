import Linkedit.Bind.Instruction
import Linkedit.Proofs.Except
import Linkedit.Proofs.Leb128

/-!
# What cannot be decoded

An opcode that names no operation cannot be decoded, whatever comes behind it, and the
end of a program is decoded whatever comes behind it. Any other instruction that cannot
be decoded has an operand that cannot be read.
-/

namespace Linkedit.Bind

/-- An error of an operand: a number or a name that is cut off, or a number that is too
large. -/
def IsOperandError (error : Error) : Prop :=
  ∃ place, error = .truncated place ∨ error = .overflow place ∨
    error = .parse place .unterminatedString

section Operands

variable {cursor : Cursor} {error : Error}

theorem isOperandError_of_unsigned (failed : cursor.unsigned = .error error) :
    IsOperandError error := by
  rw [Cursor.unsigned] at failed
  split at failed
  next => cases failed
  next cause decoded =>
    cases failed
    rcases Leb128.decodeUnsigned_eq_error decoded with ⟨place, -, cut | large⟩
    · exact ⟨place, .inl cut⟩
    · exact ⟨place, .inr (.inl large)⟩

theorem isOperandError_of_signed (failed : cursor.signed = .error error) :
    IsOperandError error := by
  rw [Cursor.signed] at failed
  split at failed
  next => cases failed
  next cause decoded =>
    cases failed
    rcases Leb128.decodeSigned_eq_error decoded with ⟨place, -, cut | large⟩
    · exact ⟨place, .inl cut⟩
    · exact ⟨place, .inr (.inl large)⟩

theorem isOperandError_of_text (failed : cursor.text = .error error) :
    IsOperandError error := by
  rw [Cursor.text] at failed
  split at failed
  next => cases failed
  next =>
    cases failed
    exact ⟨cursor.position, .inr (.inr rfl)⟩

end Operands

/-- Whether an opcode byte names no operation. -/
def IsUnknown (opcode : UInt8) : Prop := 14 ≤ opcode.toNat / 16

/-- Why there is no instruction at `offset`: the opcode is unknown, or an operand is
bad. -/
def IsFailureAt (opcodes : Bytes) (offset : Nat) (error : Error) : Prop :=
  (∃ opcode, opcodes[offset]? = some opcode ∧ IsUnknown opcode ∧
    error = .parse offset (.unknownBindOpcode (opcode &&& 0xF0))) ∨
  IsOperandError error

namespace Instruction

variable {cursor next : Cursor} {opcode : UInt8} {error : Error} {offset : Nat}

theorem decodeOperands_eq_error
    (failed : decodeOperands offset opcode cursor = .error error) :
    (IsUnknown opcode ∧ error = .parse offset (.unknownBindOpcode (opcode &&& 0xF0))) ∨
      IsOperandError error := by
  unfold decodeOperands at failed
  dsimp only at failed
  split at failed
  case h_3 | h_8 | h_9 | h_11 =>
    exact .inr (isOperandError_of_unsigned (map_eq_error.mp failed))
  case h_5 => exact .inr (isOperandError_of_text (map_eq_error.mp failed))
  case h_7 => exact .inr (isOperandError_of_signed (map_eq_error.mp failed))
  case h_13 =>
    right
    split at failed
    next => exact isOperandError_of_unsigned (map_eq_error.mp failed)
    next cause read =>
      cases failed
      exact isOperandError_of_unsigned read
  case h_14 =>
    split at failed
    next => exact .inr (isOperandError_of_unsigned (map_eq_error.mp failed))
    all_goals cases failed
  case h_15 =>
    cases failed
    left
    refine ⟨?_, rfl⟩
    rw [IsUnknown]
    simp only [imp_false] at *
    omega
  all_goals cases failed

theorem decode_eq_error (failed : decode cursor = .error error) :
    IsFailureAt cursor.data cursor.position error := by
  rw [decode, Cursor.byte] at failed
  split at failed
  next opcode next read =>
    split at read
    next found =>
      cases read
      rcases decodeOperands_eq_error failed with ⟨unknown, same⟩ | operand
      · exact .inl ⟨_, found, unknown, same⟩
      · exact .inr operand
    next => cases read
  next cause read =>
    split at read
    next => cases read
    next =>
      cases read
      cases failed
      exact .inr ⟨cursor.position, .inl rfl⟩

/-- An unknown opcode cannot be decoded, whatever comes behind it. -/
theorem decode_of_isUnknown (found : cursor.data[cursor.position]? = some opcode)
    (unknown : IsUnknown opcode) :
    decode cursor =
      .error (.parse cursor.position (.unknownBindOpcode (opcode &&& 0xF0))) := by
  rw [IsUnknown] at unknown
  rw [decode, Cursor.byte, found]
  dsimp only
  unfold decodeOperands
  dsimp only
  split
  case h_15 => rfl
  all_goals omega

/-- Whether an opcode byte ends the program. -/
def IsEnd (opcode : UInt8) : Prop := opcode.toNat / 16 = 0

/-- The end of a program is decoded, whatever comes behind it. -/
theorem decode_of_isEnd (found : cursor.data[cursor.position]? = some opcode)
    (isEnd : IsEnd opcode) :
    decode cursor = .ok (.done, { cursor with position := cursor.position + 1 }) := by
  rw [IsEnd] at isEnd
  rw [decode, Cursor.byte, found]
  dsimp only
  rw [decodeOperands, isEnd]
  rfl

theorem ofOperand_eq_ok {α : Type} {make : α → Instruction}
    {read : Except Error (α × Cursor)} {instruction : Instruction}
    (decoded : ofOperand make read = .ok (instruction, next)) :
    ∃ operand, instruction = make operand := by
  rcases map_eq_ok.mp decoded with ⟨⟨operand, after⟩, -, same⟩
  cases same
  exact ⟨operand, rfl⟩

theorem isEnd_of_decodeOperands
    (decoded : decodeOperands offset opcode cursor = .ok (.done, next)) :
    IsEnd opcode := by
  unfold decodeOperands at decoded
  dsimp only at decoded
  split at decoded
  case h_1 operation => exact operation
  case h_3 | h_5 | h_7 | h_8 | h_9 | h_11 =>
    rcases ofOperand_eq_ok decoded with ⟨operand, same⟩
    cases same
  case h_13 =>
    split at decoded
    next =>
      rcases ofOperand_eq_ok decoded with ⟨operand, same⟩
      cases same
    next => cases decoded
  case h_14 =>
    split at decoded
    next =>
      rcases ofOperand_eq_ok decoded with ⟨operand, same⟩
      cases same
    all_goals cases decoded
  all_goals cases decoded

theorem exists_isEnd_of_decode (decoded : decode cursor = .ok (.done, next)) :
    ∃ opcode, cursor.data[cursor.position]? = some opcode ∧ IsEnd opcode := by
  rw [decode, Cursor.byte] at decoded
  split at decoded
  next opcode middle read =>
    split at read
    next found =>
      cases read
      exact ⟨_, found, isEnd_of_decodeOperands decoded⟩
    next => cases read
  next => cases decoded

end Instruction

end Linkedit.Bind

import Linkedit.Proofs.Bind.Trace
import Linkedit.Proofs.Cursor

/-!
# The code of instructions

An instruction is decoded from the bytes that it takes up and from no others. These
bytes are its code: they are decoded as the same instruction wherever they lie, whatever
comes before or after them.
-/

namespace Linkedit.Bind

/-! ## Decoding elsewhere -/

namespace Instruction

variable {cursor next : Cursor} {instruction : Instruction}
  {other : Bytes} {place : Nat}

theorem local_ofOperand {α : Type} {read : Cursor → Except Error (α × Cursor)}
    (isLocal : Cursor.Local read) (make : α → Instruction) :
    Cursor.Local fun cursor => ofOperand make (read cursor) :=
  isLocal.map make

theorem decodeOperands_elsewhere {opcode : UInt8} {offset otherOffset : Nat}
    (decoded : decodeOperands offset opcode cursor = .ok (instruction, next))
    (holds : other.HoldsAt place (cursor.between next)) :
    decodeOperands otherOffset opcode ⟨other, place⟩ =
      .ok (instruction, ⟨other, place + (cursor.between next).length⟩) := by
  unfold decodeOperands at decoded ⊢
  dsimp only at decoded ⊢
  generalize opcode.toNat / 16 = operation at decoded ⊢
  split at decoded
  case h_3 | h_8 | h_9 | h_11 =>
    exact (local_ofOperand Cursor.local_unsigned _).elsewhere decoded holds
  case h_5 => exact (local_ofOperand Cursor.local_text _).elsewhere decoded holds
  case h_7 => exact (local_ofOperand Cursor.local_signed _).elsewhere decoded holds
  case h_13 =>
    split at decoded
    next count middle read =>
      have both : Cursor.Local fun cursor => cursor.unsigned >>= fun found =>
          ofOperand (.bindRepeated found.1) found.2.unsigned :=
        Cursor.local_unsigned.andThen fun _ => local_ofOperand Cursor.local_unsigned _
      have decodedBoth : (cursor.unsigned >>= fun found =>
          ofOperand (.bindRepeated found.1) found.2.unsigned) =
              .ok (instruction, next) := by
        rw [read]
        exact decoded
      rcases bind_eq_ok.mp (both.elsewhere decodedBoth holds) with ⟨found, begins, ends⟩
      rw [begins]
      exact ends
    next => cases decoded
  case h_14 =>
    split at decoded
    next => exact (local_ofOperand Cursor.local_unsigned _).elsewhere decoded holds
    all_goals exact (Cursor.Local.pure _).elsewhere decoded holds
  case h_15 => cases decoded
  all_goals exact (Cursor.Local.pure _).elsewhere decoded holds

/-- An instruction is decoded again wherever its bytes lie. -/
theorem decode_elsewhere (decoded : decode cursor = .ok (instruction, next))
    (holds : other.HoldsAt place (cursor.between next)) :
    decode ⟨other, place⟩ =
      .ok (instruction, ⟨other, place + (cursor.between next).length⟩) := by
  rw [decode] at decoded
  split at decoded
  next opcode middle read =>
    have first := Cursor.local_byte
    have behind : middle.position ≤ next.position := by
      rcases decodeOperands_advances decoded with rfl | advances
      · exact Nat.le_refl _
      · exact Nat.le_of_lt advances.position_lt
    rw [← Cursor.between_append (first.data_eq read) (first.position_le read) behind]
      at holds ⊢
    rcases Bytes.holdsAt_append.mp holds with ⟨opcodeHolds, operandsHold⟩
    rw [decode, first.elsewhere read opcodeHolds, List.length_append, ← Nat.add_assoc]
    exact decodeOperands_elsewhere decoded operandsHold
  next => cases decoded

/-- An instruction is decoded again at the same place of a stream that has its bytes. -/
theorem decode_of_agree (decoded : decode cursor = .ok (instruction, next))
    (same : ∀ index < next.position, other[index]? = cursor.data[index]?) :
    decode ⟨other, cursor.position⟩ = .ok (instruction, ⟨other, next.position⟩) := by
  have advances := decode_advances decoded
  have holds : other.HoldsAt cursor.position (cursor.between next) :=
    Bytes.holdsAt_slice advances.position_le fun index _ before => same index before
  have length : (cursor.between next).length = next.position - cursor.position :=
    Bytes.length_slice advances.position_le
  have again := decode_elsewhere decoded holds
  rwa [length, Nat.add_sub_cancel' (Nat.le_of_lt advances.position_lt)] at again

end Instruction

/-! ## Code -/

/-- Bytes that are decoded as an instruction wherever they lie. -/
def IsCode (code : List UInt8) (instruction : Instruction) : Prop :=
  ∀ data place, Bytes.HoldsAt data place code →
    Instruction.decode ⟨data, place⟩ = .ok (instruction, ⟨data, place + code.length⟩)

theorem isCode_between {cursor next : Cursor} {instruction : Instruction}
    (decoded : Instruction.decode cursor = .ok (instruction, next)) :
    IsCode (cursor.between next) instruction :=
  fun _ _ holds => Instruction.decode_elsewhere decoded holds

theorem isCode_bind : IsCode [0x90] .bind := by
  intro data place holds
  rw [Instruction.decode, Cursor.byte_of_holdsAt holds]
  rfl

theorem isCode_advance (distance : UInt64) :
    IsCode (0x80 :: Leb128.encodeUnsigned distance.toNat) (.advance distance) := by
  intro data place holds
  rcases Bytes.holdsAt_cons.mp holds with ⟨opcode, operand⟩
  have read := Cursor.unsigned_of_holdsAt distance.toNat_lt operand
  rw [UInt64.ofNat_toNat] at read
  rw [Instruction.decode, Cursor.byte_of_holdsAt (Bytes.holdsAt_singleton.mpr opcode)]
  change Instruction.ofOperand .advance (Cursor.mk data (place + 1)).unsigned = _
  rw [read, List.length_cons, Leb128.length_encodeUnsigned, Nat.add_right_comm]
  rfl

/-- Bytes that are decoded as these instructions, one after the other, wherever they
lie. -/
inductive Codes : List UInt8 → List Instruction → Prop where
  | nil : Codes [] []
  | cons {code rest : List UInt8} {instruction : Instruction}
      {instructions : List Instruction}
      (first : IsCode code instruction) (others : Codes rest instructions) :
      Codes (code ++ rest) (instruction :: instructions)

namespace Codes

variable {code rest : List UInt8} {instructions further : List Instruction}

theorem append (left : Codes code instructions) (right : Codes rest further) :
    Codes (code ++ rest) (instructions ++ further) := by
  induction left with
  | nil => exact right
  | cons first others ih =>
      rw [List.append_assoc]
      exact .cons first ih

theorem replicate (codes : Codes code instructions) (count : Nat) :
    Codes (List.replicate count code).flatten
      (List.replicate count instructions).flatten := by
  induction count with
  | zero => exact .nil
  | succ count ih =>
      rw [List.replicate_succ, List.replicate_succ, List.flatten_cons,
        List.flatten_cons]
      exact codes.append ih

end Codes

end Linkedit.Bind

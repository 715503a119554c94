import Linkedit.Proofs.Leb128.Signed

/-!
# The shortest bytes of a number

A written number is read back between any other bytes, and it is written in the fewest
bytes that are read as it: the digits of fewer bytes do not reach that far.
-/

namespace Linkedit.Leb128

variable {data : Bytes} {position next : Nat}

/-- A number below that power of the base is written in no more digits. -/
theorem unsignedSize_le_of_lt_pow {value count : Nat} (positive : 1 ≤ count)
    (small : value < 128 ^ count) : unsignedSize value ≤ count := by
  rw [show (128 : Nat) = 2 ^ 7 from rfl, ← Nat.pow_mul] at small
  have bits := bitLength_le small
  rw [unsignedSize]
  omega

/-- No fewer bytes are read as a number than it is written in. -/
theorem unsignedSize_le_of_decode {number : UInt64}
    (read : decodeUnsigned data position = .ok (number, next)) :
    position + unsignedSize number.toNat ≤ next := by
  rcases exists_numberAt_of_decode read with ⟨bytes, isNumber, sum, rfl⟩
  rcases isNumber.ends with ⟨init, last, rfl, -⟩
  rw [sum]
  apply Nat.add_le_add_left
  apply unsignedSize_le_of_lt_pow
  · rw [List.length_append]
    exact Nat.le_add_left 1 _
  · exact total_lt _

/-- No fewer bytes are read as a signed number than it is written in. -/
theorem signedSize_le_of_decode {number : Int}
    (read : decodeSigned data position = .ok (number, next)) :
    position + signedSize number ≤ next := by
  have progress := decodeSigned_progress read
  have inside : position < data.size := by omega
  have length : (data.slice position next).length = next - position :=
    Bytes.length_slice progress.2
  have sum := signedFrom_eq_ok read
  rw [Bytes.slice_cons inside progress.1] at length sum
  have bounds := signedTotal_bounds data[position] (data.slice (position + 1) next)
  rw [List.length_cons] at length
  rw [pow_zero, mul_one, Nat.cast_zero, zero_add] at sum
  rw [← sum] at bounds
  have few := signedSize_le _ bounds.1 bounds.2
  omega

/-- Every number of 64 bits, with and without a sign, is read back where it is written,
whatever bytes come before and after it, and the position after it is the one behind the
written bytes. Their count is known beforehand and lies between one and ten. Whatever
bytes are read as the number, there are no fewer of them. -/
theorem written_shortest (before after : List UInt8) :
    (∀ value : UInt64,
      decodeUnsigned (before ++ encodeUnsigned value.toNat ++ after).toArray
        before.length =
          .ok (value, before.length + (encodeUnsigned value.toNat).length) ∧
      (encodeUnsigned value.toNat).length = unsignedSize value.toNat ∧
      1 ≤ unsignedSize value.toNat ∧ unsignedSize value.toNat ≤ 10 ∧
      ∀ data position next, decodeUnsigned data position = .ok (value, next) →
        position + unsignedSize value.toNat ≤ next ∧ next ≤ data.size) ∧
    (∀ value : Int64,
      decodeSigned (before ++ encodeSigned value.toInt ++ after).toArray before.length =
        .ok (value.toInt, before.length + (encodeSigned value.toInt).length) ∧
      (encodeSigned value.toInt).length = signedSize value.toInt ∧
      1 ≤ signedSize value.toInt ∧ signedSize value.toInt ≤ 10 ∧
      ∀ data position next, decodeSigned data position = .ok (value.toInt, next) →
        position + signedSize value.toInt ≤ next ∧ next ≤ data.size) := by
  constructor
  · intro value
    have holds := Bytes.holdsAt_toArray_append before (encodeUnsigned value.toNat) after
    refine ⟨?read, length_encodeUnsigned _, Nat.le_max_left 1 _,
      unsignedSize_le value.toNat_lt, ?shortest⟩
    case read =>
      rw [decodeUnsigned_encodeUnsigned holds value.toNat_lt, UInt64.ofNat_toNat,
        length_encodeUnsigned]
    case shortest =>
      intro data position next read
      exact ⟨unsignedSize_le_of_decode read, (decodeUnsigned_progress read).2⟩
  · intro value
    have low := value.le_toInt
    have high := value.toInt_lt
    have holds := Bytes.holdsAt_toArray_append before (encodeSigned value.toInt) after
    refine ⟨?readSigned, length_encodeSigned _, Nat.le_add_left 1 _,
      signedSize_le 9 (by omega) (by omega), ?shortestSigned⟩
    case readSigned =>
      rw [decodeSigned_encodeSigned holds low high, length_encodeSigned]
    case shortestSigned =>
      intro data position next read
      exact ⟨signedSize_le_of_decode read, (decodeSigned_progress read).2⟩

/-- Bytes that are longer than need be, and the numbers that they are read as. -/
theorem written_shortest_longer :
    decodeUnsigned #[0xE5, 0x8E, 0xA6, 0x00] 0 = .ok (624485, 4) ∧
      decodeSigned #[0x01, 0x80, 0xFF, 0x7F] 1 = .ok ((-128 : Int64).toInt, 4) ∧
      0 + unsignedSize (624485 : UInt64).toNat ≤ 4 ∧
      1 + signedSize (-128 : Int64).toInt ≤ 4 := by
  have unsignedRead : decodeUnsigned #[0xE5, 0x8E, 0xA6, 0x00] 0 = .ok (624485, 4) := by
    decide +kernel
  have signedRead : decodeSigned #[0x01, 0x80, 0xFF, 0x7F] 1 =
      .ok ((-128 : Int64).toInt, 4) := by
    decide +kernel
  obtain ⟨unsigned, signed⟩ := written_shortest [] []
  obtain ⟨-, -, -, -, shortest⟩ := unsigned 624485
  obtain ⟨-, -, -, -, shortestSigned⟩ := signed (-128)
  exact ⟨unsignedRead, signedRead, (shortest _ _ _ unsignedRead).1,
    (shortestSigned _ _ _ signedRead).1⟩

end Linkedit.Leb128

import Linkedit.Proofs.Leb128.Groups
import Mathlib.Algebra.Order.Ring.Int

/-!
# Signed numbers

The digits of a signed number are those of a number in two's complement, and bit 6 of
the last one is the sign. So a digit in front multiplies the rest by 128 and adds to it,
also where the rest is negative.
-/

namespace Linkedit.Leb128

variable {byte : UInt8} {bytes : List UInt8} {value : Int}

/-! ## Digits -/

/-- The number in two's complement whose digits in base 128 are the groups of some
bytes. -/
def signedTotal (bytes : List UInt8) : Int :=
  total bytes - if bytes.getLast?.any fun last => 64 ≤ last.toNat % 128 then
    128 ^ bytes.length else 0

theorem signedTotal_singleton (byte : UInt8) :
    signedTotal [byte] = (byte.toNat % 128 : Nat) -
      if byte.toNat % 128 < 64 then 0 else 128 := by
  by_cases positive : byte.toNat % 128 < 64
  · simp [signedTotal, positive]
  · simp [signedTotal, positive, Nat.not_lt.mp positive]

theorem signedTotal_concat (bytes : List UInt8) (byte : UInt8) :
    signedTotal (bytes ++ [byte]) =
      total bytes + signedTotal [byte] * 128 ^ bytes.length := by
  rw [signedTotal, List.getLast?_concat, signedTotal, total_concat, total_singleton,
    List.length_append, pow_add]
  simp only [Option.any_some, List.getLast?_singleton, List.length_singleton, pow_one]
  split
  · push_cast
    ring
  · push_cast
    ring

theorem signedTotal_cons (nonempty : bytes ≠ []) :
    signedTotal (byte :: bytes) = (byte.toNat % 128 : Nat) +
      128 * signedTotal bytes := by
  have last : (byte :: bytes).getLast? = bytes.getLast? := by
    rw [List.getLast?_cons, List.getLast?_eq_some_getLast nonempty]
    rfl
  rw [signedTotal, signedTotal, last, total_cons, List.length_cons, pow_succ]
  split
  · push_cast
    ring
  · push_cast
    ring

/-- So many digits make a number in that range of two's complement. -/
theorem signedTotal_bounds (byte : UInt8) (bytes : List UInt8) :
    -(64 * 128 ^ bytes.length) ≤ signedTotal (byte :: bytes) ∧
      signedTotal (byte :: bytes) < 64 * 128 ^ bytes.length := by
  induction bytes generalizing byte with
  | nil =>
      rw [signedTotal_singleton, List.length_nil, pow_zero]
      split <;> omega
  | cons other bytes ih =>
      have bounds := ih other
      rw [signedTotal_cons (List.cons_ne_nil other bytes), List.length_cons, pow_succ]
      omega

/-- In two's complement the tenth digit of 64 bits is the sign alone. -/
theorem tenth_of_signedTotal (ends : byte < 128) (nine : bytes.length = 9)
    (low : -(2 ^ 63) ≤ signedTotal (bytes ++ [byte]))
    (high : signedTotal (bytes ++ [byte]) < 2 ^ 63) : byte = 0x00 ∨ byte = 0x7F := by
  have small : byte.toNat < 128 := UInt8.lt_iff_toNat_lt.mp ends
  have digits := total_lt bytes
  rw [nine] at digits
  rw [signedTotal_concat, signedTotal_singleton, nine] at low high
  have sign : byte.toNat = 0 ∨ byte.toNat = 127 := by
    split at low <;> omega
  rcases sign with zero | ones
  · left
    exact UInt8.toNat_inj.mp zero
  · right
    exact UInt8.toNat_inj.mp ones

/-! ## Reading digits -/

section Reading

variable {data : Bytes} {position next shift index lower : Nat} {number : Int}

/-- The loop goes on with a byte that says that another one follows. -/
theorem signedFrom_of_continues (found : data[position]? = some byte)
    (continues : 128 ≤ byte) (few : index < 9) :
    signedFrom data position (7 * index) lower =
      signedFrom data (position + 1) (7 * (index + 1))
        (lower + byte.toNat % 128 * 128 ^ index) := by
  rcases Array.getElem?_eq_some_iff.mp found with ⟨inBounds, rfl⟩
  have power : 2 ^ (7 * index) = 128 ^ index := Nat.pow_mul 2 7 index
  have more : ¬ data[position] < 128 := UInt8.not_lt.mpr continues
  rw [signedFrom, dif_pos inBounds]
  simp only [Nat.shiftLeft_eq, power]
  rw [if_neg (by omega), if_neg more]
  rfl

/-- A byte that says that nothing follows ends the loop. -/
theorem signedFrom_of_ends (found : data[position]? = some byte) (ends : byte < 128)
    (sign : index = 9 → byte = 0x00 ∨ byte = 0x7F) :
    signedFrom data position (7 * index) lower =
      .ok (lower + signedTotal [byte] * 128 ^ index, position + 1) := by
  rcases Array.getElem?_eq_some_iff.mp found with ⟨inBounds, rfl⟩
  have power : 2 ^ (7 * index) = 128 ^ index := Nat.pow_mul 2 7 index
  have valid : ¬ (7 * index = 63 ∧ data[position] ≠ 0x00 ∧ data[position] ≠ 0x7F) := by
    rintro ⟨full, notZero, notOnes⟩
    rcases sign (by omega) with zero | ones
    · exact notZero zero
    · exact notOnes ones
  rw [signedFrom, dif_pos inBounds, signedTotal_singleton]
  simp only [Nat.shiftLeft_eq, pow_add, power]
  rw [if_neg valid, if_pos ends]
  split
  · push_cast
    ring_nf
  · push_cast
    ring_nf

/-- The loop goes on over bytes that each say that another one follows. -/
theorem signedFrom_of_continue (holds : data.HoldsAt position bytes)
    (continues : Continue bytes) (few : index + bytes.length ≤ 9) :
    signedFrom data position (7 * index) lower =
      signedFrom data (position + bytes.length) (7 * (index + bytes.length))
        (lower + total bytes * 128 ^ index) := by
  induction bytes generalizing position index lower with
  | nil => simp
  | cons byte bytes ih =>
      rcases Bytes.holdsAt_cons.mp holds with ⟨first, rest⟩
      have digits : total (byte :: bytes) * 128 ^ index =
          byte.toNat % 128 * 128 ^ index + total bytes * 128 ^ (index + 1) := by
        rw [total_cons]
        ring
      rw [List.length_cons] at few
      rw [signedFrom_of_continues first (continues byte List.mem_cons_self) (by omega),
        ih rest (fun other member => continues other (List.mem_cons_of_mem _ member))
          (by omega),
        digits, List.length_cons]
      congr 1 <;> omega

/-- The bytes of a signed number at a position: all but the last say that another one
follows, and the digits are those of a number of 64 bits. -/
structure SignedNumberAt (data : Bytes) (position : Nat) (bytes : List UInt8) :
    Prop where
  holds : data.HoldsAt position bytes
  ends : ∃ init last, bytes = init ++ [last] ∧ Continue init ∧ last < 128
  few : bytes.length ≤ 10
  low : -(2 ^ 63) ≤ signedTotal bytes
  high : signedTotal bytes < 2 ^ 63

theorem SignedNumberAt.decodeSigned_eq (number : SignedNumberAt data position bytes) :
    decodeSigned data position = .ok (signedTotal bytes, position + bytes.length) := by
  rcases number with ⟨holds, ⟨init, last, rfl, continues, ends⟩, few, low, high⟩
  rcases Bytes.holdsAt_append.mp holds with ⟨initHolds, lastHolds⟩
  rw [List.length_append, List.length_singleton] at few
  have start : signedFrom data position (7 * 0) 0 = _ :=
    signedFrom_of_continue initHolds continues (by omega)
  rw [Nat.zero_add, Nat.zero_add, pow_zero, Nat.mul_one] at start
  have sign : init.length = 9 → last = 0x00 ∨ last = 0x7F := fun nine =>
    tenth_of_signedTotal ends nine low high
  rw [decodeSigned, ← Nat.mul_zero 7, start,
    signedFrom_of_ends (Bytes.holdsAt_singleton.mp lastHolds) ends sign,
    signedTotal_concat, List.length_append]
  rfl

/-- A signed number that is read is the one that its bytes stand for. -/
theorem signedFrom_eq_ok
    (read : signedFrom data position shift lower = .ok (number, next)) :
    number = lower + signedTotal (data.slice position next) * 2 ^ shift := by
  have forward := (signedFrom_progress read).1
  fun_induction signedFrom data position shift lower with
  | case1 | case4 => cases read
  | case2 position shift lower inBounds byte valid total last number =>
      simp only [Except.ok.injEq, Prod.mk.injEq] at read
      rcases read with ⟨rfl, rfl⟩
      rw [Bytes.slice_cons inBounds forward, Bytes.slice_self, signedTotal_singleton]
      simp only [number, total, byte, Nat.shiftLeft_eq]
      split
      next =>
        push_cast
        ring
      next =>
        push_cast
        ring
  | case3 position shift lower inBounds byte valid total continues ih =>
      have further := signedFrom_progress read
      have nonempty : data.slice (position + 1) next ≠ [] := by
        rw [← List.length_pos_iff, Bytes.length_slice further.2]
        omega
      rw [Bytes.slice_cons inBounds forward, signedTotal_cons nonempty,
        ih read further.1]
      simp only [total, byte, Nat.shiftLeft_eq]
      push_cast
      ring

end Reading

/-! ## What is written -/

theorem encodeSigned_of_small (small : -64 ≤ value ∧ value < 64) :
    encodeSigned value = [UInt8.ofNat (value % 128).toNat] := by
  rw [encodeSigned, if_pos small]

theorem encodeSigned_of_large (large : ¬ (-64 ≤ value ∧ value < 64)) :
    encodeSigned value =
      UInt8.ofNat ((value % 128).toNat + 128) :: encodeSigned (value / 128) := by
  rw [encodeSigned, if_neg large]

/-- What is left of a number without its sign: the bits in which it differs from the
sign. -/
def magnitude (value : Int) : Nat :=
  if value < 0 then (-value - 1).toNat else value.toNat

theorem signedSize_eq (value : Int) :
    signedSize value = bitLength (magnitude value) / 7 + 1 :=
  rfl

theorem magnitude_div (value : Int) :
    magnitude (value / 128) = magnitude value / 128 := by
  rw [magnitude, magnitude]
  split <;> split <;> omega

theorem magnitude_lt_iff {bound : Nat} :
    magnitude value < bound ↔ -bound ≤ value ∧ value < bound := by
  rw [magnitude]
  split <;> omega

theorem signedSize_of_small (small : -64 ≤ value ∧ value < 64) :
    signedSize value = 1 := by
  have low : magnitude value < 2 ^ 6 := magnitude_lt_iff.mpr small
  have bits := bitLength_le low
  rw [signedSize_eq]
  omega

theorem signedSize_of_large (large : ¬ (-64 ≤ value ∧ value < 64)) :
    signedSize value = signedSize (value / 128) + 1 := by
  have high : ¬ magnitude value < 64 := mt magnitude_lt_iff.mp large
  rw [signedSize_eq, signedSize_eq, magnitude_div]
  by_cases one : magnitude value < 128
  · -- The seven bits of the magnitude leave no room for the sign.
    have bits : bitLength (magnitude value) ≤ 7 := bitLength_le one
    have full : 7 ≤ bitLength (magnitude value) := le_bitLength (Nat.not_lt.mp high)
    rw [Nat.div_eq_of_lt one, Nat.le_antisymm bits full]
    rfl
  · rw [bitLength_div (Nat.not_lt.mp one)]
    omega

@[simp] theorem length_encodeSigned (value : Int) :
    (encodeSigned value).length = signedSize value := by
  induction value using encodeSigned.induct with
  | case1 value small =>
      rw [encodeSigned_of_small small, signedSize_of_small small]; rfl
  | case2 value large ih =>
      rw [encodeSigned_of_large large, signedSize_of_large large, List.length_cons, ih]

/-- A number in the range of so many digits is written in no more. -/
theorem signedSize_le (count : Nat) (low : -(64 * 128 ^ count) ≤ value)
    (high : value < 64 * 128 ^ count) : signedSize value ≤ count + 1 := by
  have power : 2 ^ (7 * count + 6) = 64 * 128 ^ count := by
    rw [Nat.pow_add, Nat.pow_mul]
    exact Nat.mul_comm _ _
  have small : magnitude value < 2 ^ (7 * count + 6) := by
    rw [power, magnitude_lt_iff]
    push_cast
    exact ⟨low, high⟩
  have bits := bitLength_le small
  rw [signedSize_eq]
  omega

/-! ## Reading back -/

theorem encodeSigned_ne_nil (value : Int) : encodeSigned value ≠ [] := by
  rw [encodeSigned]
  split <;> simp

/-- All but the last of the written bytes say that another one follows. -/
theorem exists_encodeSigned (value : Int) :
    ∃ init last, encodeSigned value = init ++ [last] ∧ Continue init ∧ last < 128 := by
  induction value using encodeSigned.induct with
  | case1 value small =>
      refine ⟨[], _, encodeSigned_of_small small, by simp [Continue], ?_⟩
      have digit : (value % 128).toNat < 128 := by omega
      rw [UInt8.lt_iff_toNat_lt, UInt8.toNat_ofNat']
      exact Nat.lt_of_le_of_lt (Nat.mod_le _ _) digit
  | case2 value large ih =>
      rcases ih with ⟨init, last, rest, continues, ends⟩
      refine ⟨_ :: init, last, by rw [encodeSigned_of_large large, rest]; rfl, ?_, ends⟩
      intro byte member
      rcases List.mem_cons.mp member with rfl | later
      · have digit : (value % 128).toNat + 128 < 2 ^ 8 := by omega
        rw [UInt8.le_iff_toNat_le, UInt8.toNat_ofNat', Nat.mod_eq_of_lt digit]
        exact Nat.le_add_left 128 _
      · exact continues byte later

/-- The written digits are those of the number. -/
theorem signedTotal_encodeSigned (value : Int) :
    signedTotal (encodeSigned value) = value := by
  induction value using encodeSigned.induct with
  | case1 value small =>
      rw [encodeSigned_of_small small, signedTotal_singleton, UInt8.toNat_ofNat']
      split <;> omega
  | case2 value large ih =>
      rw [encodeSigned_of_large large, signedTotal_cons (encodeSigned_ne_nil _), ih,
        UInt8.toNat_ofNat']
      omega

/-- A signed number that is written at a position is read there. -/
theorem decodeSigned_encodeSigned {data : Bytes} {position : Nat}
    (holds : data.HoldsAt position (encodeSigned value)) (low : -(2 ^ 63) ≤ value)
    (high : value < 2 ^ 63) :
    decodeSigned data position = .ok (value, position + signedSize value) := by
  have few : signedSize value ≤ 10 := signedSize_le 9 (by omega) (by omega)
  have number : SignedNumberAt data position (encodeSigned value) := by
    constructor
    case holds => exact holds
    case ends => exact exists_encodeSigned value
    case few => rwa [length_encodeSigned]
    case low => rwa [signedTotal_encodeSigned]
    case high => rwa [signedTotal_encodeSigned]
  rw [number.decodeSigned_eq, signedTotal_encodeSigned, length_encodeSigned]

end Linkedit.Leb128

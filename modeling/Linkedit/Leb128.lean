import Linkedit.Error

/-!
# LEB128 numbers

A number is written in groups of seven bits, least significant group first. The
top bit of each byte says that another byte follows. Signed numbers are written
in two's complement, and bit 6 of the last byte is the sign.

Reading is strict: a number that runs off the buffer is truncated, and one that
does not fit in 64 bits is refused at the byte that shows it.
-/

namespace Linkedit.Leb128

/-! ## Writing -/

/-- Writes an unsigned number in the fewest bytes. -/
def encodeUnsigned (value : Nat) : List UInt8 :=
  if value < 128 then [UInt8.ofNat value]
  else UInt8.ofNat (value % 128 + 128) :: encodeUnsigned (value / 128)

/-- Writes a signed number in the fewest bytes. Writing ends once the groups so
far extend by their sign to the whole number. -/
def encodeSigned (value : Int) : List UInt8 :=
  if -64 ≤ value ∧ value < 64 then [UInt8.ofNat (value % 128).toNat]
  else UInt8.ofNat ((value % 128).toNat + 128) :: encodeSigned (value / 128)
termination_by value.natAbs

/-- The number of binary digits of a number; zero has none. -/
def bitLength (value : Nat) : Nat := if value = 0 then 0 else value.log2 + 1

/-- The number of bytes of a written unsigned number. -/
def unsignedSize (value : Nat) : Nat := max 1 ((bitLength value + 6) / 7)

/-- The number of bytes of a written signed number: its magnitude bits and the
sign, in groups of seven. -/
def signedSize (value : Int) : Nat :=
  bitLength (if value < 0 then (-value - 1).toNat else value.toNat) / 7 + 1

/-! ## Reading -/

/-- Reads the groups of an unsigned number from `position` on, where `value`
holds the lowest `shift` bits. -/
def unsignedFrom (data : Bytes) (position shift value : Nat) :
    Except Error (UInt64 × Nat) :=
  if inBounds : position < data.size then
    let group := data[position].toNat % 128
    if shift ≥ 64 ∨ group <<< shift ≥ UInt64.size then
      .error (.overflow position)
    else if data[position] < 128 then
      .ok (UInt64.ofNat (value + group <<< shift), position + 1)
    else
      unsignedFrom data (position + 1) (shift + 7) (value + group <<< shift)
  else .error (.truncated position)
termination_by data.size - position

/-- Reads an unsigned number at `position`, with the position after it. Nearly every
number takes up one byte, which is tried before the loop. -/
def decodeUnsigned (data : Bytes) (position : Nat) :
    Except Error (UInt64 × Nat) :=
  match data[position]?.filter (· < 128) with
  | some byte => .ok (byte.toUInt64, position + 1)
  | none => unsignedFrom data position 0 0

/-- The loop reads a number of one byte alike. -/
theorem decodeUnsigned_eq (data : Bytes) (position : Nat) :
    decodeUnsigned data position = unsignedFrom data position 0 0 := by
  unfold decodeUnsigned
  split
  next byte single =>
    rcases Option.filter_eq_some_iff.mp single with ⟨found, last⟩
    rcases Array.getElem?_eq_some_iff.mp found with ⟨inBounds, same⟩
    have small : byte.toNat < 128 := UInt8.lt_iff_toNat_lt.mp (of_decide_eq_true last)
    have group : byte.toNat % 128 = byte.toNat := Nat.mod_eq_of_lt small
    rw [unsignedFrom, dif_pos inBounds]
    simp only [same, group, of_decide_eq_true last, Nat.shiftLeft_zero, Nat.zero_add,
      UInt64.size]
    rw [if_neg (by omega), if_pos trivial]
    simp
  next => rfl

/-- Reads the groups of a signed number from `position` on, where `value` holds
the lowest `shift` bits. A tenth byte carries the sign alone, so it is all zeros
or all ones. -/
def signedFrom (data : Bytes) (position shift value : Nat) :
    Except Error (Int × Nat) :=
  if inBounds : position < data.size then
    let byte := data[position]
    if shift = 63 ∧ byte ≠ 0x00 ∧ byte ≠ 0x7F then
      .error (.overflow position)
    else
      let total := value + (byte.toNat % 128) <<< shift
      if byte < 128 then
        let number : Int :=
          if byte.toNat % 128 < 64 then total else total - (1 <<< (shift + 7) : Nat)
        .ok (number, position + 1)
      else signedFrom data (position + 1) (shift + 7) total
  else .error (.truncated position)
termination_by data.size - position

/-- Reads a signed number at `position`, with the position after it. -/
def decodeSigned (data : Bytes) (position : Nat) : Except Error (Int × Nat) :=
  signedFrom data position 0 0

/-! ## Progress -/

theorem unsignedFrom_progress {data : Bytes} {position shift value : Nat}
    {number : UInt64} {next : Nat}
    (decoded : unsignedFrom data position shift value = .ok (number, next)) :
    position < next ∧ next ≤ data.size := by
  fun_induction unsignedFrom data position shift value with
  | case1 => cases decoded
  | case2 position shift value inBounds =>
      cases decoded
      omega
  | case3 position shift value inBounds group fits continues ih =>
      have progress := ih decoded
      omega
  | case4 => cases decoded

/-- A number that is read lies between the two positions, inside the buffer. -/
theorem decodeUnsigned_progress {data : Bytes} {position next : Nat}
    {number : UInt64} (decoded : decodeUnsigned data position = .ok (number, next)) :
    position < next ∧ next ≤ data.size := by
  rw [decodeUnsigned_eq] at decoded
  exact unsignedFrom_progress decoded

theorem signedFrom_progress {data : Bytes} {position shift value : Nat}
    {number : Int} {next : Nat}
    (decoded : signedFrom data position shift value = .ok (number, next)) :
    position < next ∧ next ≤ data.size := by
  fun_induction signedFrom data position shift value with
  | case1 => cases decoded
  | case2 position shift value inBounds =>
      simp only [Except.ok.injEq, Prod.mk.injEq] at decoded
      omega
  | case3 position shift value inBounds byte valid total continues ih =>
      have progress := ih decoded
      omega
  | case4 => cases decoded

/-- A number that is read lies between the two positions, inside the buffer. -/
theorem decodeSigned_progress {data : Bytes} {position next : Nat}
    {number : Int} (decoded : decodeSigned data position = .ok (number, next)) :
    position < next ∧ next ≤ data.size :=
  signedFrom_progress decoded

end Linkedit.Leb128

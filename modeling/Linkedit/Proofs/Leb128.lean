import Linkedit.Leb128
import Linkedit.Proofs.Bytes
import Mathlib.Data.Nat.Log
import Mathlib.Tactic.Ring

/-!
# LEB128 round trip

A number below 2^64 is read back wherever it is written, whatever bytes come
after it. The size of a written number is known without writing it and does not
fall when the number grows, which is what lets offsets be settled by iteration.
-/

namespace Linkedit.Leb128

/-! ## What is written -/

theorem encodeUnsigned_of_lt {value : Nat} (small : value < 128) :
    encodeUnsigned value = [UInt8.ofNat value] := by
  rw [encodeUnsigned, if_pos small]

theorem encodeUnsigned_of_le {value : Nat} (large : 128 ≤ value) :
    encodeUnsigned value =
      UInt8.ofNat (value % 128 + 128) :: encodeUnsigned (value / 128) := by
  rw [encodeUnsigned, if_neg (Nat.not_lt.mpr large)]

theorem encodeUnsigned_ne_nil (value : Nat) : encodeUnsigned value ≠ [] := by
  rw [encodeUnsigned]
  split <;> simp

/-- Seven bits less are left after each byte. -/
theorem bitLength_div {value : Nat} (large : 128 ≤ value) :
    bitLength value = bitLength (value / 128) + 7 := by
  have nonzero : value ≠ 0 := by omega
  have quotient : value / 128 ≠ 0 := by omega
  have shifted : (value / 128).log2 = value.log2 - 7 := by
    rw [Nat.log2_eq_log_two, Nat.log2_eq_log_two,
      show (128 : Nat) = 2 ^ 7 from rfl, Nat.log_div_base_pow]
  have wide : 7 ≤ value.log2 := (Nat.le_log2 nonzero).mpr large
  simp only [bitLength, if_neg nonzero, if_neg quotient, shifted]
  omega

theorem bitLength_le {value bits : Nat} (small : value < 2 ^ bits) :
    bitLength value ≤ bits := by
  unfold bitLength
  split
  next => omega
  next nonzero => exact (Nat.log2_lt nonzero).mpr small

theorem le_bitLength {value bits : Nat} (large : 2 ^ bits ≤ value) :
    bits + 1 ≤ bitLength value := by
  have nonzero : value ≠ 0 := by
    have positive := Nat.two_pow_pos bits
    omega
  rw [bitLength, if_neg nonzero]
  exact Nat.succ_le_succ ((Nat.le_log2 nonzero).mpr large)

theorem bitLength_mono {left right : Nat} (le : left ≤ right) :
    bitLength left ≤ bitLength right := by
  unfold bitLength
  split
  next => omega
  next nonzero =>
    have positive : right ≠ 0 := by omega
    have logs : left.log2 ≤ right.log2 := by
      rw [Nat.log2_eq_log_two, Nat.log2_eq_log_two]
      exact Nat.log_mono_right le
    rw [if_neg positive]
    omega

@[simp] theorem length_encodeUnsigned (value : Nat) :
    (encodeUnsigned value).length = unsignedSize value := by
  induction value using Nat.strongRecOn with
  | ind value ih =>
      by_cases small : value < 128
      · have narrow : bitLength value ≤ 7 := bitLength_le small
        rw [encodeUnsigned_of_lt small]
        simp only [List.length_singleton, unsignedSize]
        omega
      · have large := Nat.not_lt.mp small
        have positive : 1 ≤ bitLength (value / 128) := by
          have quotient : value / 128 ≠ 0 := by omega
          simp only [bitLength, if_neg quotient]
          omega
        rw [encodeUnsigned_of_le large, List.length_cons, ih _ (by omega)]
        simp only [unsignedSize, bitLength_div large]
        omega

theorem unsignedSize_mono {left right : Nat} (le : left ≤ right) :
    unsignedSize left ≤ unsignedSize right := by
  have bits := bitLength_mono le
  simp only [unsignedSize]
  omega

@[simp] theorem unsignedSize_zero : unsignedSize 0 = 1 := rfl

theorem unsignedSize_of_lt {value : Nat} (small : value < 128) :
    unsignedSize value = 1 := by
  have narrow : bitLength value ≤ 7 := bitLength_le small
  rw [unsignedSize]
  omega

/-- A number of 64 bits takes at most ten bytes. -/
theorem unsignedSize_le {value : Nat} (fits : value < 2 ^ 64) :
    unsignedSize value ≤ 10 := by
  have bits := bitLength_le fits
  simp only [unsignedSize]
  omega

/-! ## Reading back -/

/-- Reading the groups of `value` from `position` on adds them to the lower
groups that were read before. -/
theorem unsignedFrom_encodeUnsigned {data : Bytes} {position shift lower value : Nat}
    (holds : data.HoldsAt position (encodeUnsigned value))
    (room : shift < 64) (fits : value * 2 ^ shift < 2 ^ 64) :
    unsignedFrom data position shift lower =
      .ok (UInt64.ofNat (lower + value * 2 ^ shift),
        position + unsignedSize value) := by
  induction value using Nat.strongRecOn generalizing position shift lower with
  | ind value ih =>
      rw [← length_encodeUnsigned]
      by_cases small : value < 128
      · rw [encodeUnsigned_of_lt small] at holds ⊢
        rcases Array.getElem?_eq_some_iff.mp (Bytes.holdsAt_singleton.mp holds) with
            ⟨inBounds, byte⟩
        have number : (UInt8.ofNat value).toNat = value := by
          simp only [UInt8.toNat_ofNat']
          omega
        have last : UInt8.ofNat value < 128 := by
          rw [UInt8.lt_iff_toNat_lt, number]
          exact small
        have group : value % 128 = value := Nat.mod_eq_of_lt small
        rw [unsignedFrom, dif_pos inBounds]
        simp only [byte, number, group, if_pos last, Nat.shiftLeft_eq, UInt64.size]
        rw [if_neg (by omega)]
        rfl
      · have large := Nat.not_lt.mp small
        rw [encodeUnsigned_of_le large] at holds ⊢
        rcases Bytes.holdsAt_cons.mp holds with ⟨first, rest⟩
        rcases Array.getElem?_eq_some_iff.mp first with ⟨inBounds, byte⟩
        have number : (UInt8.ofNat (value % 128 + 128)).toNat =
            value % 128 + 128 := by
          simp only [UInt8.toNat_ofNat']
          omega
        have continues : ¬ UInt8.ofNat (value % 128 + 128) < 128 := by
          rw [UInt8.lt_iff_toNat_lt, number]
          simp
        have group : (value % 128 + 128) % 128 = value % 128 := by omega
        have parts : value * 2 ^ shift =
            value % 128 * 2 ^ shift + value / 128 * 2 ^ (shift + 7) := by
          calc value * 2 ^ shift
              = (value % 128 + 128 * (value / 128)) * 2 ^ shift := by
                rw [Nat.mod_add_div]
            _ = value % 128 * 2 ^ shift + value / 128 * 2 ^ (shift + 7) := by
                ring
        have roomLeft : shift + 7 < 64 := by
          have quotient : 1 ≤ value / 128 := by omega
          have power : 2 ^ (shift + 7) < 2 ^ 64 := by
            have scaled := Nat.mul_le_mul_right (2 ^ (shift + 7)) quotient
            omega
          exact (Nat.pow_lt_pow_iff_right (by omega)).mp power
        rw [unsignedFrom, dif_pos inBounds]
        simp only [byte, number, group, if_neg continues, Nat.shiftLeft_eq, UInt64.size]
        rw [if_neg (by omega),
          ih (value / 128) (by omega) rest roomLeft (by omega)]
        simp only [List.length_cons, length_encodeUnsigned, parts]
        congr 2
        · rw [Nat.add_assoc]
        · omega

/-- A number that is written at a position is read there. -/
theorem decodeUnsigned_encodeUnsigned {data : Bytes} {position value : Nat}
    (holds : data.HoldsAt position (encodeUnsigned value))
    (fits : value < 2 ^ 64) :
    decodeUnsigned data position =
      .ok (UInt64.ofNat value, position + unsignedSize value) := by
  rw [decodeUnsigned_eq,
    unsignedFrom_encodeUnsigned holds (by omega) (by omega)]
  simp

/-! ## Reading elsewhere

A number is read again wherever its bytes lie. -/

section Elsewhere

variable {data other : Bytes} {position place next : Nat}

theorem unsignedFrom_elsewhere {shift value : Nat} {number : UInt64}
    (read : unsignedFrom data position shift value = .ok (number, next))
    (holds : other.HoldsAt place (data.slice position next)) :
    unsignedFrom other place shift value =
      .ok (number, place + (data.slice position next).length) := by
  have forward := (unsignedFrom_progress read).1
  fun_induction unsignedFrom data position shift value generalizing place with
  | case1 | case4 => cases read
  | case2 position shift value inBounds group fits =>
      rename_i last
      cases read
      rw [Bytes.slice_cons inBounds forward, Bytes.slice_self] at holds ⊢
      rcases Array.getElem?_eq_some_iff.mp (Bytes.holdsAt_singleton.mp holds) with
        ⟨inOther, same⟩
      rw [unsignedFrom, dif_pos inOther]
      simp only [same]
      rw [if_neg fits, if_pos last]
      rfl
  | case3 position shift value inBounds group fits continues =>
      rename_i ih
      rw [Bytes.slice_cons inBounds forward] at holds ⊢
      rcases Bytes.holdsAt_cons.mp holds with ⟨first, rest⟩
      rcases Array.getElem?_eq_some_iff.mp first with ⟨inOther, same⟩
      rw [unsignedFrom, dif_pos inOther]
      simp only [same]
      rw [if_neg fits, if_neg continues, ih read rest (unsignedFrom_progress read).1,
        List.length_cons, Nat.add_right_comm, Nat.add_assoc]

theorem decodeUnsigned_elsewhere {number : UInt64}
    (read : decodeUnsigned data position = .ok (number, next))
    (holds : other.HoldsAt place (data.slice position next)) :
    decodeUnsigned other place =
      .ok (number, place + (data.slice position next).length) := by
  rw [decodeUnsigned_eq] at read ⊢
  exact unsignedFrom_elsewhere read holds

theorem signedFrom_elsewhere {shift value : Nat} {number : Int}
    (read : signedFrom data position shift value = .ok (number, next))
    (holds : other.HoldsAt place (data.slice position next)) :
    signedFrom other place shift value =
      .ok (number, place + (data.slice position next).length) := by
  have forward := (signedFrom_progress read).1
  fun_induction signedFrom data position shift value generalizing place with
  | case1 | case4 => cases read
  | case2 position shift value inBounds byte valid total =>
      rename_i last number
      simp only [Except.ok.injEq, Prod.mk.injEq] at read
      rcases read with ⟨rfl, rfl⟩
      rw [Bytes.slice_cons inBounds forward, Bytes.slice_self] at holds ⊢
      rcases Array.getElem?_eq_some_iff.mp (Bytes.holdsAt_singleton.mp holds) with
        ⟨inOther, same⟩
      rw [signedFrom, dif_pos inOther]
      simp only [same]
      rw [if_neg valid, if_pos last]
      rfl
  | case3 position shift value inBounds byte valid total =>
      rename_i continues ih
      rw [Bytes.slice_cons inBounds forward] at holds ⊢
      rcases Bytes.holdsAt_cons.mp holds with ⟨first, rest⟩
      rcases Array.getElem?_eq_some_iff.mp first with ⟨inOther, same⟩
      rw [signedFrom, dif_pos inOther]
      simp only [same]
      rw [if_neg valid, if_neg continues, ih read rest (signedFrom_progress read).1,
        List.length_cons, Nat.add_right_comm, Nat.add_assoc]

theorem decodeSigned_elsewhere {number : Int}
    (read : decodeSigned data position = .ok (number, next))
    (holds : other.HoldsAt place (data.slice position next)) :
    decodeSigned other place =
      .ok (number, place + (data.slice position next).length) :=
  signedFrom_elsewhere read holds

end Elsewhere

/-! ## Numbers that cannot be read -/

section Errors

variable {data : Bytes} {position shift value : Nat} {error : Error}

/-- A number that cannot be read is cut off or too large, at a place that is not behind
the end of the buffer, unless reading began there. -/
theorem unsignedFrom_eq_error
    (failed : unsignedFrom data position shift value = .error error) :
    ∃ place ≤ max position data.size, error = .truncated place ∨
      error = .overflow place := by
  fun_induction unsignedFrom data position shift value with
  | case1 position =>
      cases failed
      exact ⟨position, Nat.le_max_left _ _, .inr rfl⟩
  | case2 => cases failed
  | case3 position shift value inBounds _ _ _ ih =>
      rcases ih failed with ⟨place, inside, cause⟩
      exact ⟨place, by omega, cause⟩
  | case4 position =>
      cases failed
      exact ⟨position, Nat.le_max_left _ _, .inl rfl⟩

theorem decodeUnsigned_eq_error (failed : decodeUnsigned data position = .error error) :
    ∃ place ≤ max position data.size, error = .truncated place ∨
      error = .overflow place := by
  rw [decodeUnsigned_eq] at failed
  exact unsignedFrom_eq_error failed

theorem signedFrom_eq_error
    (failed : signedFrom data position shift value = .error error) :
    ∃ place ≤ max position data.size, error = .truncated place ∨
      error = .overflow place := by
  fun_induction signedFrom data position shift value with
  | case1 position =>
      cases failed
      exact ⟨position, Nat.le_max_left _ _, .inr rfl⟩
  | case2 => cases failed
  | case3 position shift value inBounds _ _ _ _ ih =>
      rcases ih failed with ⟨place, inside, cause⟩
      exact ⟨place, by omega, cause⟩
  | case4 position =>
      cases failed
      exact ⟨position, Nat.le_max_left _ _, .inl rfl⟩

theorem decodeSigned_eq_error (failed : decodeSigned data position = .error error) :
    ∃ place ≤ max position data.size, error = .truncated place ∨
      error = .overflow place :=
  signedFrom_eq_error failed

end Errors

end Linkedit.Leb128

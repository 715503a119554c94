import Linkedit.Proofs.Leb128
import Mathlib.Algebra.Order.Ring.Nat
import Mathlib.Data.List.TakeWhile
import Mathlib.Tactic.Ring

/-!
# The groups of a number

The bytes of a number are digits in base 128. All but the last of them say that another
one follows. Reading stops at the first byte that says nothing follows, at a digit that
leads out of 64 bits, or at the end of the buffer, and which of these it is can be told
from the bytes without reading them in turn.
-/

namespace Linkedit.Leb128

variable {byte last : UInt8} {bytes init : List UInt8}

/-! ## Digits -/

/-- The number whose digits in base 128 are the groups of some bytes, the lowest
first. -/
def total (bytes : List UInt8) : Nat :=
  (bytes.mapIdx fun index byte => byte.toNat % 128 * 128 ^ index).sum

@[simp] theorem total_nil : total [] = 0 := rfl

theorem total_concat (bytes : List UInt8) (byte : UInt8) :
    total (bytes ++ [byte]) = total bytes + byte.toNat % 128 * 128 ^ bytes.length := by
  simp [total, List.mapIdx_append]

theorem total_cons (byte : UInt8) (bytes : List UInt8) :
    total (byte :: bytes) = byte.toNat % 128 + 128 * total bytes := by
  induction bytes using List.reverseRecOn with
  | nil => simp [total]
  | append_singleton bytes other ih =>
      rw [← List.cons_append, total_concat, total_concat, ih, List.length_cons]
      ring

@[simp] theorem total_singleton (byte : UInt8) : total [byte] = byte.toNat % 128 := by
  rw [total_cons, total_nil, Nat.mul_zero, Nat.add_zero]

/-- So many digits make a number below that power of the base. -/
theorem total_lt (bytes : List UInt8) : total bytes < 128 ^ bytes.length := by
  induction bytes with
  | nil => simp
  | cons byte bytes ih =>
      have digit := Nat.mod_lt byte.toNat (show 0 < 128 by decide)
      rw [total_cons, List.length_cons, Nat.pow_succ]
      omega

theorem total_lt_of_length_le {count : Nat} (few : bytes.length ≤ count) :
    total bytes < 128 ^ count :=
  Nat.lt_of_lt_of_le (total_lt bytes) (Nat.pow_le_pow_right (by decide) few)

/-- Nine digits fit in 64 bits, and a tenth one has one bit of them left. -/
theorem total_concat_lt_iff (nine : init.length = 9) :
    total (init ++ [byte]) < 2 ^ 64 ↔ byte.toNat % 128 ≤ 1 := by
  have low := total_lt init
  rw [nine] at low
  rw [total_concat, nine]
  omega

/-- Digits that do not fit in 64 bits, although there are at most ten, are ten. -/
theorem length_eq_of_not_fits (few : init.length < 10)
    (large : ¬ total (init ++ [byte]) < 2 ^ 64) : init.length = 9 := by
  apply Nat.le_antisymm (Nat.le_of_lt_succ few)
  apply Nat.not_lt.mp
  intro fewer
  apply large
  have low : total (init ++ [byte]) < 128 ^ 9 := by
    apply total_lt_of_length_le
    rw [List.length_append, List.length_singleton]
    exact fewer
  omega

/-! ## Reading digits -/

/-- Bytes that each say that another one follows. -/
def Continue (bytes : List UInt8) : Prop := ∀ byte ∈ bytes, 128 ≤ byte

section Digits

variable {data : Bytes} {position index value : Nat}

/-- The loop goes on with a byte that says that another one follows. -/
theorem unsignedFrom_of_continues (found : data[position]? = some byte)
    (continues : 128 ≤ byte) (few : index < 10)
    (fits : byte.toNat % 128 * 128 ^ index < 2 ^ 64) :
    unsignedFrom data position (7 * index) value =
      unsignedFrom data (position + 1) (7 * (index + 1))
        (value + byte.toNat % 128 * 128 ^ index) := by
  rcases Array.getElem?_eq_some_iff.mp found with ⟨inBounds, rfl⟩
  have power : 2 ^ (7 * index) = 128 ^ index := Nat.pow_mul 2 7 index
  have more : ¬ data[position] < 128 := UInt8.not_lt.mpr continues
  rw [unsignedFrom, dif_pos inBounds]
  simp only [Nat.shiftLeft_eq, power, UInt64.size]
  rw [if_neg (by omega), if_neg more]
  rfl

/-- A byte that says that nothing follows ends the loop. -/
theorem unsignedFrom_of_ends (found : data[position]? = some byte) (ends : byte < 128)
    (few : index < 10) (fits : byte.toNat % 128 * 128 ^ index < 2 ^ 64) :
    unsignedFrom data position (7 * index) value =
      .ok (UInt64.ofNat (value + byte.toNat % 128 * 128 ^ index), position + 1) := by
  rcases Array.getElem?_eq_some_iff.mp found with ⟨inBounds, rfl⟩
  have power : 2 ^ (7 * index) = 128 ^ index := Nat.pow_mul 2 7 index
  rw [unsignedFrom, dif_pos inBounds]
  simp only [Nat.shiftLeft_eq, power, UInt64.size]
  rw [if_neg (by omega), if_pos ends]

/-- A byte whose digit leads out of 64 bits ends the loop. -/
theorem unsignedFrom_of_overflows (found : data[position]? = some byte)
    (large : 10 ≤ index ∨ 2 ^ 64 ≤ byte.toNat % 128 * 128 ^ index) :
    unsignedFrom data position (7 * index) value = .error (.overflow position) := by
  rcases Array.getElem?_eq_some_iff.mp found with ⟨inBounds, rfl⟩
  have power : 2 ^ (7 * index) = 128 ^ index := Nat.pow_mul 2 7 index
  rw [unsignedFrom, dif_pos inBounds]
  simp only [Nat.shiftLeft_eq, power, UInt64.size]
  rw [if_pos (by omega)]

/-- The end of the buffer ends the loop. -/
theorem unsignedFrom_of_size_le {shift : Nat} (ended : data.size ≤ position) :
    unsignedFrom data position shift value = .error (.truncated position) := by
  rw [unsignedFrom, dif_neg (Nat.not_lt.mpr ended)]

/-- The loop goes on over bytes that each say that another one follows. -/
theorem unsignedFrom_of_continue (holds : data.HoldsAt position init)
    (continues : Continue init) (few : index + init.length ≤ 10)
    (fits : total init * 128 ^ index < 2 ^ 64) :
    unsignedFrom data position (7 * index) value =
      unsignedFrom data (position + init.length) (7 * (index + init.length))
        (value + total init * 128 ^ index) := by
  induction init generalizing position index value with
  | nil => simp
  | cons byte init ih =>
      rcases Bytes.holdsAt_cons.mp holds with ⟨first, rest⟩
      have digits : total (byte :: init) * 128 ^ index =
          byte.toNat % 128 * 128 ^ index + total init * 128 ^ (index + 1) := by
        rw [total_cons]
        ring
      rw [List.length_cons] at few
      rw [digits] at fits
      rw [unsignedFrom_of_continues first (continues byte List.mem_cons_self) (by omega)
          (by omega),
        ih rest (fun other member => continues other (List.mem_cons_of_mem _ member))
          (by omega) (by omega),
        digits, List.length_cons]
      congr 1 <;> omega

end Digits

/-! ## What reading comes to -/

/-- The bytes of a number at a position: all but the last say that another one follows,
and the digits fit in 64 bits. -/
structure NumberAt (data : Bytes) (position : Nat) (bytes : List UInt8) : Prop where
  holds : data.HoldsAt position bytes
  ends : ∃ init last, bytes = init ++ [last] ∧ Continue init ∧ last < 128
  few : bytes.length ≤ 10
  fits : total bytes < 2 ^ 64

/-- Nine bytes at a position say that another one follows, and the tenth has more than
the one bit that is left. -/
def TooLargeAt (data : Bytes) (position : Nat) : Prop :=
  ∃ init tenth, data.HoldsAt position (init ++ [tenth]) ∧ init.length = 9 ∧
    Continue init ∧
    1 < tenth.toNat % 128

/-- Ten bytes at a position say that another one follows, the tenth with no more than
one bit, and there is an eleventh. -/
def TooLongAt (data : Bytes) (position : Nat) : Prop :=
  ∃ init tenth eleventh, data.HoldsAt position (init ++ [tenth, eleventh]) ∧
    init.length = 9 ∧ Continue init ∧ 128 ≤ tenth ∧ tenth.toNat % 128 ≤ 1

/-- The rest of the buffer behind a position is the beginning of a number. -/
def CutOffAt (data : Bytes) (position : Nat) : Prop :=
  Continue (data.toList.drop position) ∧ (data.toList.drop position).length ≤ 10 ∧
    total (data.toList.drop position) < 2 ^ 64

section Outcomes

variable {data : Bytes} {position : Nat}

theorem Continue.concat (continues : Continue init) (more : 128 ≤ byte) :
    Continue (init ++ [byte]) := by
  intro other member
  rcases List.mem_append.mp member with early | final
  · exact continues other early
  · rw [List.mem_singleton.mp final]
    exact more

/-- The loop from its beginning over bytes that each say that another one follows. -/
theorem decodeUnsigned_of_continue (holds : data.HoldsAt position init)
    (continues : Continue init) (few : init.length ≤ 10) (fits : total init < 2 ^ 64) :
    decodeUnsigned data position =
      unsignedFrom data (position + init.length) (7 * init.length) (total init) := by
  have start : unsignedFrom data position (7 * 0) 0 = _ :=
    unsignedFrom_of_continue holds continues (by omega) (by omega)
  rw [decodeUnsigned_eq]
  simpa using start

theorem NumberAt.decodeUnsigned_eq (number : NumberAt data position bytes) :
    decodeUnsigned data position =
      .ok (UInt64.ofNat (total bytes), position + bytes.length) := by
  rcases number with ⟨holds, ⟨init, last, rfl, continues, ends⟩, few, fits⟩
  rcases Bytes.holdsAt_append.mp holds with ⟨initHolds, lastHolds⟩
  rw [List.length_append, List.length_singleton] at few
  have digits := total_concat init last
  rw [decodeUnsigned_of_continue initHolds continues (by omega) (by omega),
    unsignedFrom_of_ends (Bytes.holdsAt_singleton.mp lastHolds) ends
      (by omega) (by omega),
    digits, List.length_append]
  rfl

theorem TooLargeAt.decodeUnsigned_eq (large : TooLargeAt data position) :
    decodeUnsigned data position = .error (.overflow (position + 9)) := by
  rcases large with ⟨init, tenth, holds, nine, continues, bits⟩
  rcases Bytes.holdsAt_append.mp holds with ⟨initHolds, lastHolds⟩
  have fits := total_lt init
  rw [nine] at fits
  rw [decodeUnsigned_of_continue initHolds continues (by omega) (by omega), nine]
  rw [nine] at lastHolds
  apply unsignedFrom_of_overflows (Bytes.holdsAt_singleton.mp lastHolds)
  right
  omega

theorem TooLongAt.decodeUnsigned_eq (long : TooLongAt data position) :
    decodeUnsigned data position = .error (.overflow (position + 10)) := by
  rcases long with ⟨init, tenth, eleventh, holds, nine, continues, more, bit⟩
  rw [← List.singleton_append, ← List.append_assoc] at holds
  rcases Bytes.holdsAt_append.mp holds with ⟨initHolds, lastHolds⟩
  have ten : (init ++ [tenth]).length = 10 := by
    rw [List.length_append, nine]
    rfl
  rw [decodeUnsigned_of_continue initHolds (continues.concat more) (by omega)
    ((total_concat_lt_iff nine).mpr bit), ten]
  rw [ten] at lastHolds
  apply unsignedFrom_of_overflows (Bytes.holdsAt_singleton.mp lastHolds)
  left
  exact Nat.le_refl 10

theorem CutOffAt.decodeUnsigned_eq (cut : CutOffAt data position) :
    decodeUnsigned data position = .error (.truncated (max position data.size)) := by
  rcases cut with ⟨continues, few, fits⟩
  have holds : data.HoldsAt position (data.toList.drop position) := List.prefix_rfl
  have stop : position + (data.toList.drop position).length =
      max position data.size := by
    rw [List.length_drop, Array.length_toList]
    omega
  rw [decodeUnsigned_of_continue holds continues few fits, stop]
  apply unsignedFrom_of_size_le
  exact Nat.le_max_right _ _

/-- The bytes behind a position, up to the first that says that nothing follows. -/
theorem exists_continue (data : Bytes) (position : Nat) :
    ∃ init rest, data.toList.drop position = init ++ rest ∧ Continue init ∧
      ∀ last ∈ rest.head?, last < 128 := by
  refine ⟨(data.toList.drop position).takeWhile (128 ≤ ·),
    (data.toList.drop position).dropWhile (128 ≤ ·),
      List.takeWhile_append_dropWhile.symm,
    ?continues, ?ends⟩
  case continues =>
    intro byte member
    have kept := List.mem_takeWhile_imp member
    exact of_decide_eq_true kept
  case ends =>
    intro last first
    have fails := List.head?_dropWhile_not (128 ≤ ·) (data.toList.drop position)
    rw [Option.mem_def.mp first] at fails
    simpa using fails

/-- Where no more than nine bytes go on, the next one or the end of the buffer
decides. -/
theorem outcome_of_few {rest : List UInt8}
    (whole : data.toList.drop position = init ++ rest) (continues : Continue init)
    (ends : ∀ last ∈ rest.head?, last < 128) (few : init.length < 10) :
    (∃ bytes, NumberAt data position bytes) ∨ TooLargeAt data position ∨
      CutOffAt data position := by
  cases rest with
  | nil =>
      rw [List.append_nil] at whole
      have low : total init < 128 ^ 9 := total_lt_of_length_le (Nat.le_of_lt_succ few)
      right; right
      rw [CutOffAt, whole]
      exact ⟨continues, Nat.le_of_lt few, by omega⟩
  | cons last rest =>
      have holds : data.HoldsAt position (init ++ [last]) := ⟨rest, by simp [whole]⟩
      by_cases fits : total (init ++ [last]) < 2 ^ 64
      · left
        refine ⟨init ++ [last], holds,
          ⟨init, last, rfl, continues, ends last rfl⟩, ?_, fits⟩
        rw [List.length_append]
        exact few
      · have nine := length_eq_of_not_fits few fits
        right; left
        refine ⟨init, last, holds, nine, continues, ?_⟩
        rwa [total_concat_lt_iff nine, Nat.not_le] at fits

/-- The tenth of many bytes that each say that another one follows. -/
theorem exists_tenth (continues : Continue init) (many : 10 ≤ init.length) :
    ∃ start tenth more, init = start ++ tenth :: more ∧ start.length = 9 ∧
      Continue start ∧
      128 ≤ tenth := by
  have split : init = init.take 9 ++ init[9] :: init.drop 10 := by simp
  refine ⟨init.take 9, init[9], init.drop 10, split, by simp; omega, ?_, ?_⟩
  · intro byte member
    exact continues byte (List.mem_of_mem_take member)
  · exact continues _ (List.getElem_mem _)

/-- Where more than nine bytes go on, the tenth decides. -/
theorem outcome_of_many {rest : List UInt8}
    (whole : data.toList.drop position = init ++ rest) (continues : Continue init)
    (many : 10 ≤ init.length) :
    TooLargeAt data position ∨ TooLongAt data position ∨ CutOffAt data position := by
  rcases exists_tenth continues many with
      ⟨start, tenth, more, rfl, nine, startContinues, tenthContinues⟩
  rw [List.append_assoc, List.cons_append] at whole
  by_cases bit : tenth.toNat % 128 ≤ 1
  · right
    cases following : more ++ rest with
    | nil =>
        right
        rw [following] at whole
        rw [CutOffAt, whole]
        refine ⟨startContinues.concat tenthContinues, ?_,
          (total_concat_lt_iff nine).mpr bit⟩
        rw [List.length_append, nine]
        exact Nat.le_refl 10
    | cons eleventh others =>
        left
        rw [following] at whole
        exact ⟨start, tenth, eleventh, ⟨others, by simp [whole]⟩, nine, startContinues,
          tenthContinues, bit⟩
  · left
    exact ⟨start, tenth, ⟨more ++ rest, by simp [whole]⟩, nine, startContinues,
      Nat.not_le.mp bit⟩

/-- Reading comes to one of four ends. -/
theorem outcome_cases (data : Bytes) (position : Nat) :
    (∃ bytes, NumberAt data position bytes) ∨ TooLargeAt data position ∨
      TooLongAt data position ∨ CutOffAt data position := by
  rcases exists_continue data position with ⟨init, rest, whole, continues, ends⟩
  by_cases few : init.length < 10
  · rcases outcome_of_few whole continues ends few with isNumber | large | cut
    · exact .inl isNumber
    · exact .inr (.inl large)
    · exact .inr (.inr (.inr cut))
  · exact .inr (outcome_of_many whole continues (Nat.not_lt.mp few))

/-- A number that is read is the sum of its digits. -/
theorem exists_numberAt_of_decode {number : UInt64} {next : Nat}
    (read : decodeUnsigned data position = .ok (number, next)) :
    ∃ bytes, NumberAt data position bytes ∧ number.toNat = total bytes ∧
      next = position + bytes.length := by
  rcases outcome_cases data position with ⟨bytes, isNumber⟩ | large | long | cut
  · have fits := isNumber.fits
    rw [isNumber.decodeUnsigned_eq] at read
    cases read
    exact ⟨bytes, isNumber, UInt64.toNat_ofNat_of_lt' fits, rfl⟩
  · cases large.decodeUnsigned_eq.symm.trans read
  · cases long.decodeUnsigned_eq.symm.trans read
  · cases cut.decodeUnsigned_eq.symm.trans read

/-- What is read does not change when other bytes come behind it. -/
theorem decodeUnsigned_extract {number : UInt64} {next : Nat}
    (read : decodeUnsigned data position = .ok (number, next)) (behind : Bytes) :
    decodeUnsigned (data.extract 0 next ++ behind) position = .ok (number, next) := by
  have progress := decodeUnsigned_progress read
  have holds := (Bytes.holdsAt_extract_slice data position next).append behind
  rw [decodeUnsigned_elsewhere read holds, Bytes.length_slice progress.2]
  congr 2
  omega

end Outcomes

/-- A number is read exactly where there are one to ten bytes of which the last alone
says that nothing follows, with digits whose exact sum fits in 64 bits. A tenth byte has
room for one bit, so a number that is too large is refused there, and one that is too
long at the eleventh byte. -/
theorem decodeUnsigned_outcomes (data : Bytes) (position : Nat) :
    (∀ number next, decodeUnsigned data position = .ok (number, next) ↔
      ∃ bytes, NumberAt data position bytes ∧ number.toNat = total bytes ∧
        next = position + bytes.length) ∧
    (∀ number next, decodeUnsigned data position = .ok (number, next) →
      ∀ behind : Bytes,
        decodeUnsigned (data.extract 0 next ++ behind) position = .ok (number, next)) ∧
    (decodeUnsigned data position = .error (.overflow (position + 9)) ↔
      TooLargeAt data position) ∧
    (decodeUnsigned data position = .error (.overflow (position + 10)) ↔
      TooLongAt data position) ∧
    (decodeUnsigned data position = .error (.truncated (max position data.size)) ↔
      (¬ ∃ bytes, NumberAt data position bytes) ∧ ¬ TooLargeAt data position ∧
        ¬ TooLongAt data position) ∧
    decodeUnsigned data position = unsignedFrom data position 0 0 := by
  refine ⟨?numbers, ?behind, ?large, ?long, ?cut, decodeUnsigned_eq data position⟩
  case behind =>
    intro number next read behind
    exact decodeUnsigned_extract read behind
  case numbers =>
    intro number next
    constructor
    · exact exists_numberAt_of_decode
    · rintro ⟨bytes, isNumber, same, rfl⟩
      rw [isNumber.decodeUnsigned_eq, ← same, UInt64.ofNat_toNat]
  case large =>
    constructor
    · intro failed
      rcases outcome_cases data position with ⟨bytes, isNumber⟩ | large | long | cut
      · cases isNumber.decodeUnsigned_eq.symm.trans failed
      · exact large
      · have other := long.decodeUnsigned_eq.symm.trans failed
        simp at other
      · cases cut.decodeUnsigned_eq.symm.trans failed
    · exact TooLargeAt.decodeUnsigned_eq
  case long =>
    constructor
    · intro failed
      rcases outcome_cases data position with ⟨bytes, isNumber⟩ | large | long | cut
      · cases isNumber.decodeUnsigned_eq.symm.trans failed
      · have other := large.decodeUnsigned_eq.symm.trans failed
        simp at other
      · exact long
      · cases cut.decodeUnsigned_eq.symm.trans failed
    · exact TooLongAt.decodeUnsigned_eq
  case cut =>
    constructor
    · intro failed
      refine ⟨?_, ?_, ?_⟩
      · rintro ⟨bytes, isNumber⟩
        cases isNumber.decodeUnsigned_eq.symm.trans failed
      · intro large
        cases large.decodeUnsigned_eq.symm.trans failed
      · intro long
        cases long.decodeUnsigned_eq.symm.trans failed
    · rintro ⟨noNumber, notLarge, notLong⟩
      rcases outcome_cases data position with isNumber | large | long | cut
      · exact (noNumber isNumber).elim
      · exact (notLarge large).elim
      · exact (notLong long).elim
      · exact cut.decodeUnsigned_eq

/-- Three bytes between others. -/
theorem decodeUnsigned_outcomes_three :
    decodeUnsigned #[0x80, 0xE5, 0x8E, 0x26, 0xFF] 1 = .ok (624485, 4) ∧
      (∃ bytes, NumberAt #[0x80, 0xE5, 0x8E, 0x26, 0xFF] 1 bytes ∧
        624485 = total bytes) ∧
      decodeUnsigned #[0x80, 0xE5, 0x8E, 0x26, 0x01, 0x02] 1 = .ok (624485, 4) := by
  have read : decodeUnsigned #[0x80, 0xE5, 0x8E, 0x26, 0xFF] 1 = .ok (624485, 4) := by
    decide +kernel
  obtain ⟨numbers, behind, -⟩ :=
    decodeUnsigned_outcomes #[0x80, 0xE5, 0x8E, 0x26, 0xFF] 1
  rcases (numbers 624485 4).mp read with ⟨bytes, isNumber, sum, -⟩
  exact ⟨read, ⟨bytes, isNumber, sum⟩, behind 624485 4 read #[0x01, 0x02]⟩

end Linkedit.Leb128

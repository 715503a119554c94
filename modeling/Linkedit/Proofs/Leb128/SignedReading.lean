import Linkedit.Proofs.Except
import Linkedit.Proofs.Leb128.Signed

/-!
# What reading a signed number comes to

A signed number of 64 bits takes up at most ten bytes, of which the tenth is the sign
alone. So reading a signed number never looks at an eleventh byte, and it fails at the
tenth or at the end of the buffer. The loop needs no more than a word of 64 bits for
what it has read.
-/

namespace Linkedit.Leb128

variable {data : Bytes} {position index shift lower : Nat} {byte : UInt8}
  {init : List UInt8}

/-! ## In words of 64 bits -/

/-- A word with its bits from `shift` on set, if the sign bit of the last byte is. -/
def signExtended (shift : Nat) (last : UInt8) (word : BitVec 64) : BitVec 64 :=
  if shift < 64 ∧ last.toNat.testBit 6 then
    word ||| (-1 : BitVec 64) <<< shift else word

/-- The loop on a word of 64 bits. Digits are put in by a bitwise or, and bits that are
shifted out of the word are lost. -/
def signedWordFrom (data : Bytes) (position shift : Nat) (word : BitVec 64) :
    Except Error (BitVec 64 × Nat) :=
  if inBounds : position < data.size then
    let byte := data[position]
    if shift = 63 ∧ byte ≠ 0x00 ∧ byte ≠ 0x7F then
      .error (.overflow position)
    else
      let total := word ||| BitVec.ofNat 64 (byte.toNat % 128) <<< shift
      if byte < 128 then .ok (signExtended (shift + 7) byte total, position + 1)
      else signedWordFrom data (position + 1) (shift + 7) total
  else .error (.truncated position)
termination_by data.size - position

/-- Bits are put in above the lower ones. -/
theorem ofNat_or_shiftLeft {bits : Nat} (fits : bits < 2 ^ 64)
    (low : lower < 2 ^ shift) :
    BitVec.ofNat 64 lower ||| BitVec.ofNat 64 bits <<< shift =
      BitVec.ofNat 64 (lower + bits * 2 ^ shift) := by
  have disjoint : lower + bits * 2 ^ shift = lower ||| bits <<< shift := by
    rw [← Nat.shiftLeft_eq, Nat.add_comm, Nat.shiftLeft_add_eq_or_of_lt low,
      Nat.or_comm]
  apply BitVec.eq_of_toNat_eq
  rw [BitVec.toNat_or, BitVec.toNat_shiftLeft, BitVec.toNat_ofNat, BitVec.toNat_ofNat,
    BitVec.toNat_ofNat, Nat.mod_eq_of_lt fits, disjoint, Nat.or_mod_two_pow]

/-- The number of a word, whatever was lost of it. -/
theorem toInt_ofNat_eq {value : Int} (turns : Nat) (low : -(2 ^ 63) ≤ value)
    (high : value < 2 ^ 63) (same : (lower : Int) = value + turns * 2 ^ 64) :
    (BitVec.ofNat 64 lower).toInt = value := by
  rw [BitVec.toInt_ofNat', same]
  apply (Int.add_mul_bmod_self_right value turns (2 ^ 64)).trans
  apply Int.bmod_eq_of_le
  · exact low
  · exact high

/-- A word whose bits from `shift` on are the sign. -/
theorem toInt_or_sign (few : shift < 64) (low : lower < 2 ^ shift) :
    (BitVec.ofNat 64 lower ||| (-1 : BitVec 64) <<< shift).toInt =
      lower - (2 ^ shift : Nat) := by
  have ones : (-1 : BitVec 64) = BitVec.ofNat 64 (2 ^ 64 - 1) := rfl
  have fits : 2 ^ shift ≤ 2 ^ 63 :=
    Nat.pow_le_pow_right (by decide) (Nat.le_of_lt_succ few)
  rw [ones, ofNat_or_shiftLeft (by decide) low]
  generalize 2 ^ shift = power at *
  apply toInt_ofNat_eq power
  · omega
  · omega
  · push_cast
    omega

theorem testBit_six_iff (byte : UInt8) :
    byte.toNat.testBit 6 = true ↔ ¬ byte.toNat % 128 < 64 := by
  rw [Nat.testBit_eq_decide_div_mod_eq, decide_eq_true_iff]
  omega

/-- A digit above the lower ones. -/
theorem digit_lt (low : lower < 128 ^ index) (byte : UInt8) :
    lower + byte.toNat % 128 * 128 ^ index < 128 ^ (index + 1) := by
  have digit : byte.toNat % 128 ≤ 127 := Nat.le_of_lt_succ (Nat.mod_lt _ (by decide))
  have most := Nat.mul_le_mul_right (128 ^ index) digit
  rw [Nat.pow_succ]
  omega

/-- The last byte puts in the rest of the number and the sign. -/
theorem toInt_signExtended (few : index ≤ 9) (low : lower < 128 ^ index)
    (sign : index = 9 → byte = 0x00 ∨ byte = 0x7F) :
    (signExtended (7 * index + 7) byte
        (BitVec.ofNat 64 (lower + byte.toNat % 128 * 128 ^ index))).toInt =
      lower + signedTotal [byte] * 128 ^ index := by
  simp only [signExtended, testBit_six_iff, signedTotal_singleton]
  rcases Nat.lt_or_eq_of_le few with fewer | rfl
  · by_cases positive : byte.toNat % 128 < 64
    · have total : (lower : Int) + (byte.toNat % 128 : Nat) * 128 ^ index =
          (lower + byte.toNat % 128 * 128 ^ index : Nat) := by push_cast; rfl
      have room : 128 ^ index ≤ 128 ^ 8 :=
        Nat.pow_le_pow_right (by decide) (Nat.le_of_lt_succ fewer)
      have small := Nat.mul_le_mul (Nat.le_of_lt_succ positive) room
      rw [if_neg (fun both => both.2 positive), if_pos positive, sub_zero, total]
      apply toInt_ofNat_eq 0 <;> omega
    · have power : 2 ^ (7 * index + 7) = 128 ^ (index + 1) :=
        Nat.pow_mul 2 7 (index + 1)
      have below := digit_lt low byte
      rw [← power] at below
      rw [if_pos ⟨by omega, positive⟩, if_neg positive, toInt_or_sign (by omega) below,
        power]
      push_cast
      ring
  -- Of the tenth digit one bit has room in the word. The others are lost, and repeat
  -- that bit.
  · rw [if_neg (by omega)]
    have digit : byte.toNat = 0 ∨ byte.toNat = 127 :=
      (sign rfl).imp (congrArg UInt8.toNat) (congrArg UInt8.toNat)
    rcases digit with zero | ones
    · rw [zero, if_pos (by decide)]
      apply toInt_ofNat_eq 0 <;> omega
    · rw [ones, if_neg (by decide)]
      apply toInt_ofNat_eq 64 <;> omega

/-- The loop on words reads what the loop on exact numbers reads. -/
theorem signedWordFrom_eq {position index lower : Nat} (few : index ≤ 9)
    (low : lower < 128 ^ index) :
    (signedWordFrom data position (7 * index) (BitVec.ofNat 64 lower)).map
        (fun read => (read.1.toInt, read.2)) =
      signedFrom data position (7 * index) lower := by
  have power : 2 ^ (7 * index) = 128 ^ index := Nat.pow_mul 2 7 index
  by_cases inBounds : position < data.size
  · have found := Array.getElem?_eq_getElem inBounds
    have digit : data[position].toNat % 128 < 2 ^ 64 := by omega
    have put := ofNat_or_shiftLeft digit (power ▸ low)
    rw [power] at put
    rw [signedWordFrom, dif_pos inBounds]
    dsimp only
    by_cases invalid : 7 * index = 63 ∧ data[position] ≠ 0x00 ∧ data[position] ≠ 0x7F
    · rw [if_pos invalid, signedFrom, dif_pos inBounds, if_pos invalid]
      rfl
    · have sign : index = 9 → data[position] = 0x00 ∨ data[position] = 0x7F := by
        intro nine
        by_contra neither
        rw [not_or] at neither
        exact invalid ⟨by omega, neither⟩
      rw [if_neg invalid, put]
      split
      next ends =>
        rw [signedFrom_of_ends found ends sign, map_ok, toInt_signExtended few low sign]
      next more =>
        have fewer : index < 9 := by
          apply Nat.lt_of_le_of_ne few
          intro nine
          apply more
          rcases sign nine with zero | ones
          · simp [zero]
          · simp [ones]
        rw [signedFrom_of_continues found (UInt8.not_lt.mp more) fewer]
        exact signedWordFrom_eq fewer (digit_lt low _)
  · rw [signedWordFrom, dif_neg inBounds, signedFrom, dif_neg inBounds]
    rfl
termination_by data.size - position

/-! ## What reading comes to -/

/-- Nine bytes at a position say that another one follows, and the tenth is not a
sign. -/
def NoSignAt (data : Bytes) (position : Nat) : Prop :=
  ∃ init tenth, data.HoldsAt position (init ++ [tenth]) ∧ init.length = 9 ∧
    Continue init ∧
    tenth ≠ 0x00 ∧ tenth ≠ 0x7F

/-- The rest of the buffer behind a position is the beginning of a signed number. -/
def SignedCutOffAt (data : Bytes) (position : Nat) : Prop :=
  Continue (data.toList.drop position) ∧ (data.toList.drop position).length ≤ 9

/-- Up to nine digits and a last one fit in 64 bits, a tenth one only if it is a
sign. -/
theorem signedTotal_fits {last : UInt8} (few : init.length ≤ 9)
    (sign : init.length = 9 → last = 0x00 ∨ last = 0x7F) :
    -(2 ^ 63) ≤ signedTotal (init ++ [last]) ∧
      signedTotal (init ++ [last]) < 2 ^ 63 := by
  rcases Nat.lt_or_eq_of_le few with fewer | nine
  · have nonempty : init ++ [last] ≠ [] :=
      List.append_ne_nil_of_right_ne_nil init (by simp)
    rcases List.exists_cons_of_ne_nil nonempty with ⟨first, rest, same⟩
    have length := congrArg List.length same
    have bounds := signedTotal_bounds first rest
    rw [List.length_append, List.length_singleton, List.length_cons] at length
    have room : (128 : Int) ^ rest.length ≤ 128 ^ 8 :=
      pow_le_pow_right₀ (by decide) (by omega)
    rw [same]
    omega
  · have digits := total_lt init
    have zero : signedTotal [0x00] = 0 := rfl
    have minusOne : signedTotal [0x7F] = -1 := rfl
    rw [signedTotal_concat, nine]
    rw [nine] at digits
    rcases sign nine with rfl | rfl
    · rw [zero]
      omega
    · rw [minusOne]
      omega

theorem NoSignAt.decodeSigned_eq (noSign : NoSignAt data position) :
    decodeSigned data position = .error (.overflow (position + 9)) := by
  rcases noSign with ⟨init, tenth, holds, nine, continues, notZero, notOnes⟩
  rcases Bytes.holdsAt_append.mp holds with ⟨initHolds, lastHolds⟩
  rw [nine] at lastHolds
  rcases Array.getElem?_eq_some_iff.mp (Bytes.holdsAt_singleton.mp lastHolds) with
    ⟨inBounds, rfl⟩
  have start : signedFrom data position (7 * 0) 0 = _ :=
    signedFrom_of_continue initHolds continues (by omega)
  rw [decodeSigned, ← Nat.mul_zero 7, start, nine, signedFrom, dif_pos inBounds,
    if_pos ⟨rfl, notZero, notOnes⟩]

theorem SignedCutOffAt.decodeSigned_eq (cut : SignedCutOffAt data position) :
    decodeSigned data position = .error (.truncated (max position data.size)) := by
  rcases cut with ⟨continues, few⟩
  have holds : data.HoldsAt position (data.toList.drop position) := List.prefix_rfl
  have stop : position + (data.toList.drop position).length =
      max position data.size := by
    rw [List.length_drop, Array.length_toList]
    omega
  have start : signedFrom data position (7 * 0) 0 = _ :=
    signedFrom_of_continue holds continues (by omega)
  rw [decodeSigned, ← Nat.mul_zero 7, start, stop, signedFrom, dif_neg (by omega)]

/-- Reading a signed number comes to one of three ends. -/
theorem signed_outcome_cases (data : Bytes) (position : Nat) :
    (∃ bytes, SignedNumberAt data position bytes) ∨ NoSignAt data position ∨
      SignedCutOffAt data position := by
  rcases exists_continue data position with ⟨init, rest, whole, continues, ends⟩
  by_cases few : init.length ≤ 9
  · cases rest with
    | nil =>
        rw [List.append_nil] at whole
        right; right
        rw [SignedCutOffAt, whole]
        exact ⟨continues, few⟩
    | cons last rest =>
        have holds : data.HoldsAt position (init ++ [last]) := ⟨rest, by simp [whole]⟩
        by_cases sign : init.length = 9 → last = 0x00 ∨ last = 0x7F
        · have fits := signedTotal_fits few sign
          left
          refine ⟨init ++ [last], holds,
            ⟨init, last, rfl, continues, ends last rfl⟩, ?_, fits.1, fits.2⟩
          rw [List.length_append]
          exact Nat.succ_le_succ few
        · rw [Classical.not_imp, not_or] at sign
          right; left
          exact ⟨init, last, holds, sign.1, continues, sign.2⟩
  · rcases exists_tenth continues (Nat.not_le.mp few) with
        ⟨start, tenth, more, rfl, nine, startContinues, large⟩
    right; left
    refine ⟨start, tenth, ⟨more ++ rest, by simp [whole]⟩, nine, startContinues, ?_, ?_⟩
    · rintro rfl
      exact absurd large (by decide)
    · rintro rfl
      exact absurd large (by decide)

/-- A signed number that is read is the one that its digits stand for. -/
theorem exists_signedNumberAt_of_decode {number : Int} {next : Nat}
    (read : decodeSigned data position = .ok (number, next)) :
    ∃ bytes, SignedNumberAt data position bytes ∧ number = signedTotal bytes ∧
      next = position + bytes.length := by
  rcases signed_outcome_cases data position with ⟨bytes, isNumber⟩ | noSign | cut
  · rw [isNumber.decodeSigned_eq] at read
    cases read
    exact ⟨bytes, isNumber, rfl, rfl⟩
  · cases noSign.decodeSigned_eq.symm.trans read
  · cases cut.decodeSigned_eq.symm.trans read

/-- An eleventh byte is never looked at. -/
theorem decodeSigned_extract_ten (enough : position + 10 ≤ data.size) (behind : Bytes) :
    decodeSigned (data.extract 0 (position + 10) ++ behind) position =
      decodeSigned data position := by
  rcases signed_outcome_cases data position with ⟨bytes, isNumber⟩ | noSign | cut
  · have holds :=
      (isNumber.holds.extract (Nat.add_le_add_left isNumber.few position)).append behind
    have again : SignedNumberAt (data.extract 0 (position + 10) ++ behind)
        position bytes :=
      { isNumber with holds }
    rw [again.decodeSigned_eq, isNumber.decodeSigned_eq]
  · rcases noSign with ⟨init, tenth, holds, nine, notSign⟩
    have length : (init ++ [tenth]).length ≤ 10 := by
      rw [List.length_append, nine]
      rfl
    have again : NoSignAt (data.extract 0 (position + 10) ++ behind) position :=
      ⟨init, tenth, (holds.extract (Nat.add_le_add_left length position)).append behind,
        nine, notSign⟩
    rw [again.decodeSigned_eq,
      NoSignAt.decodeSigned_eq ⟨init, tenth, holds, nine, notSign⟩]
  · have few := cut.2
    rw [List.length_drop, Array.length_toList] at few
    omega

/-- A signed number is read exactly where there are one to ten bytes of which the last
alone says that nothing follows, with digits of a number of 64 bits in two's complement.
A tenth byte can only repeat the sign, so reading never comes to an eleventh. -/
theorem decodeSigned_outcomes (data : Bytes) (position : Nat) :
    (∀ number next, decodeSigned data position = .ok (number, next) ↔
      ∃ bytes, SignedNumberAt data position bytes ∧ number = signedTotal bytes ∧
        next = position + bytes.length) ∧
    (∀ place, decodeSigned data position = .error (.overflow place) ↔
      place = position + 9 ∧ NoSignAt data position) ∧
    (decodeSigned data position = .error (.truncated (max position data.size)) ↔
      (¬ ∃ bytes, SignedNumberAt data position bytes) ∧ ¬ NoSignAt data position) ∧
    (position + 10 ≤ data.size → ∀ behind : Bytes,
      decodeSigned (data.extract 0 (position + 10) ++ behind) position =
        decodeSigned data position) ∧
    decodeSigned data position =
      (signedWordFrom data position 0 0).map fun read => (read.1.toInt, read.2) := by
  refine ⟨?numbers, ?overflows, ?cut, decodeSigned_extract_ten, ?words⟩
  case numbers =>
    intro number next
    constructor
    · exact exists_signedNumberAt_of_decode
    · rintro ⟨bytes, isNumber, rfl, rfl⟩
      exact isNumber.decodeSigned_eq
  case overflows =>
    intro place
    constructor
    · intro failed
      rcases signed_outcome_cases data position with ⟨bytes, isNumber⟩ | noSign | cut
      · cases isNumber.decodeSigned_eq.symm.trans failed
      · cases noSign.decodeSigned_eq.symm.trans failed
        exact ⟨rfl, noSign⟩
      · cases cut.decodeSigned_eq.symm.trans failed
    · rintro ⟨rfl, noSign⟩
      exact noSign.decodeSigned_eq
  case cut =>
    constructor
    · intro failed
      constructor
      · rintro ⟨bytes, isNumber⟩
        cases isNumber.decodeSigned_eq.symm.trans failed
      · intro noSign
        cases noSign.decodeSigned_eq.symm.trans failed
    · rintro ⟨noNumber, sign⟩
      rcases signed_outcome_cases data position with isNumber | noSign | cut
      · exact (noNumber isNumber).elim
      · exact (sign noSign).elim
      · exact cut.decodeSigned_eq
  case words => exact (signedWordFrom_eq (Nat.zero_le 9) Nat.one_pos).symm

/-- The least number of 64 bits, in ten bytes between others. -/
theorem decodeSigned_outcomes_least :
    let data : Bytes :=
      #[0x05, 0x80, 0x80, 0x80, 0x80, 0x80, 0x80, 0x80, 0x80, 0x80, 0x7F, 0x81]
    1 + 10 ≤ data.size ∧ decodeSigned data 1 = .ok (-(2 ^ 63), 11) ∧
      (∃ bytes, SignedNumberAt data 1 bytes ∧ -(2 ^ 63) = signedTotal bytes) ∧
      decodeSigned (data.extract 0 (1 + 10) ++ #[0x00]) 1 = .ok (-(2 ^ 63), 11) := by
  intro data
  have read : decodeSigned data 1 = .ok (-(2 ^ 63), 11) := by decide +kernel
  have enough : 1 + 10 ≤ data.size := by decide
  obtain ⟨numbers, -, -, behind, -⟩ := decodeSigned_outcomes data 1
  rcases (numbers (-(2 ^ 63)) 11).mp read with ⟨bytes, isNumber, sum, -⟩
  exact ⟨enough, read, ⟨bytes, isNumber, sum⟩, (behind enough #[0x00]).trans read⟩

end Linkedit.Leb128

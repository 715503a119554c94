import Linkedit.Bytes
import Mathlib.Data.List.Infix

/-!
# Bytes at a position of a buffer

What a reader makes of a buffer is stated through the bytes that lie at the
position it reads from. `HoldsAt` says which bytes those are. It splits along an
append, so a statement about a whole encoding gives one for each of its parts.
-/

namespace Linkedit.Bytes

/-- `bytes` lie in the buffer from `position` on. -/
def HoldsAt (data : Bytes) (position : Nat) (bytes : List UInt8) : Prop :=
  bytes <+: data.toList.drop position

variable {data : Bytes} {position : Nat} {left right bytes : List UInt8}

theorem holdsAt_append :
    data.HoldsAt position (left ++ right) ↔
      data.HoldsAt position left ∧
        data.HoldsAt (position + left.length) right := by
  unfold HoldsAt
  rw [← List.drop_drop]
  constructor
  · rintro ⟨rest, whole⟩
    rw [← whole, List.append_assoc, List.drop_left]
    constructor
    · exact List.prefix_append left _
    · exact List.prefix_append right rest
  · rintro ⟨⟨rest, whole⟩, following⟩
    rw [← whole, List.drop_left] at following
    rw [← whole]
    apply (List.prefix_append_right_inj left).mpr
    exact following

theorem holdsAt_singleton {byte : UInt8} :
    data.HoldsAt position [byte] ↔ data[position]? = some byte := by
  unfold HoldsAt
  rw [← Array.getElem?_toList, ← List.head?_drop]
  cases data.toList.drop position with
  | nil => simp
  | cons first rest => simp [eq_comm]

theorem holdsAt_cons {byte : UInt8} :
    data.HoldsAt position (byte :: bytes) ↔
      data[position]? = some byte ∧ data.HoldsAt (position + 1) bytes := by
  rw [← holdsAt_singleton, ← List.singleton_append, holdsAt_append]
  rfl

/-- A buffer that begins with some bytes holds them at its start. -/
theorem holdsAt_toArray_append (before bytes after : List UInt8) :
    HoldsAt (before ++ bytes ++ after).toArray before.length bytes := by
  simp [HoldsAt, List.append_assoc]

theorem holdsAt_toArray (bytes after : List UInt8) :
    HoldsAt (bytes ++ after).toArray 0 bytes :=
  holdsAt_toArray_append [] bytes after

theorem HoldsAt.length_le (holds : data.HoldsAt position bytes)
    (nonempty : bytes ≠ []) : position + bytes.length ≤ data.size := by
  have shorter := List.IsPrefix.length_le holds
  have positive := List.length_pos_iff.mpr nonempty
  simp only [List.length_drop, Array.length_toList] at shorter
  omega

theorem HoldsAt.slice_eq (holds : data.HoldsAt position bytes) :
    data.slice position (position + bytes.length) = bytes := by
  rcases holds with ⟨rest, whole⟩
  simp [slice, List.extract_eq_take_drop, ← whole]

/-- Bytes are still held when others come behind the buffer. -/
theorem HoldsAt.append (holds : data.HoldsAt position bytes) (behind : Bytes) :
    HoldsAt (data ++ behind) position bytes := by
  rw [HoldsAt, Array.toList_append, List.drop_append]
  exact holds.trans (List.prefix_append _ _)

/-- Bytes are still held when the buffer is cut behind them. -/
theorem HoldsAt.extract (holds : data.HoldsAt position bytes) {stop : Nat}
    (before : position + bytes.length ≤ stop) :
    HoldsAt (data.extract 0 stop) position bytes := by
  have cut : (data.extract 0 stop).toList.drop position =
      (data.toList.drop position).take (stop - position) := by
    simp [List.extract_eq_take_drop, List.drop_take]
  rw [HoldsAt, cut, List.prefix_take_iff]
  exact ⟨holds, by omega⟩

theorem length_slice {start stop : Nat} (inBounds : stop ≤ data.size) :
    (data.slice start stop).length = stop - start := by
  rw [slice, Array.length_toList, Array.size_extract, Nat.min_eq_left inBounds]

theorem slice_self (data : Bytes) (position : Nat) :
    data.slice position position = [] := by
  simp [slice]

theorem slice_cons {start stop : Nat} (inBounds : start < data.size)
    (before : start < stop) :
    data.slice start stop = data[start] :: data.slice (start + 1) stop := by
  have step : stop - start = (stop - (start + 1)) + 1 := by omega
  have listBounds : start < data.toList.length := by simpa using inBounds
  simp only [slice, Array.toList_extract, List.extract_eq_take_drop, step]
  rw [List.drop_eq_getElem_cons listBounds, List.take_succ_cons]
  rfl

theorem slice_append {start middle stop : Nat} (first : start ≤ middle)
    (second : middle ≤ stop) :
    data.slice start middle ++ data.slice middle stop = data.slice start stop := by
  have steps : stop - start = (middle - start) + (stop - middle) := by omega
  have back : start + (middle - start) = middle := by omega
  simp only [slice, Array.toList_extract, List.extract_eq_take_drop, steps,
    List.take_add, List.drop_drop, back]

/-- A buffer that goes on with some bytes holds them, and what comes next is left behind
them. -/
theorem holdsAt_of_drop (whole : data.toList.drop position = left ++ right) :
    data.HoldsAt position left ∧ data.toList.drop (position + left.length) = right := by
  constructor
  · exact ⟨right, whole.symm⟩
  · rw [← List.drop_drop, whole, List.drop_left]

/-- A buffer that is cut at the end of a slice still holds the slice. -/
theorem holdsAt_extract_slice (data : Bytes) (start stop : Nat) :
    HoldsAt (data.extract 0 stop) start (data.slice start stop) := by
  simp [HoldsAt, slice, List.extract_eq_take_drop, List.drop_take]

/-- A buffer that has the bytes of a slice holds it. -/
theorem holdsAt_slice {other : Bytes} {start stop : Nat} (inBounds : stop ≤ data.size)
    (same : ∀ index, start ≤ index → index < stop → other[index]? = data[index]?) :
    other.HoldsAt start (data.slice start stop) := by
  apply List.prefix_iff_getElem?.mpr
  intro index inSlice
  have inside := inSlice
  rw [length_slice inBounds] at inside
  rw [List.getElem?_drop, Array.getElem?_toList, same _ (by omega) (by omega)]
  simp [slice]

/-- Buffers of one size that have the same bytes in a range have the same part there. -/
theorem extract_congr {other : Bytes} {start stop : Nat}
    (size_eq : other.size = data.size)
    (same : ∀ position, start ≤ position → position < stop →
      other[position]? = data[position]?) :
    other.extract start stop = data.extract start stop := by
  apply Array.ext_getElem?
  intro index
  rw [Array.getElem?_extract, Array.getElem?_extract, size_eq]
  split
  next inside =>
    apply same
    · omega
    · omega
  next => rfl

/-! ## Text up to a zero byte -/

theorem zeroFrom?_of_holdsAt {text : List UInt8} (zeroFree : 0 ∉ text)
    (holds : data.HoldsAt position (text ++ [0])) :
    data.zeroFrom? position = some (position + text.length) := by
  induction text generalizing position with
  | nil =>
      have found := holdsAt_singleton.mp holds
      rcases Array.getElem?_eq_some_iff.mp found with ⟨inBounds, zero⟩
      rw [zeroFrom?]
      simp [inBounds, zero]
  | cons byte text ih =>
      rcases holdsAt_cons.mp holds with ⟨first, rest⟩
      rcases Array.getElem?_eq_some_iff.mp first with ⟨inBounds, equal⟩
      have nonzero : byte ≠ 0 := by
        intro zero
        apply zeroFree
        simp [zero]
      have restZeroFree : 0 ∉ text := by
        intro member
        apply zeroFree
        simp [member]
      rw [zeroFrom?, dif_pos inBounds, equal, if_neg nonzero, ih restZeroFree rest]
      simp only [List.length_cons, Option.some.injEq]
      omega

/-- The bytes before the first zero byte hold no zero byte. -/
theorem zero_notMem_slice {start stop : Nat}
    (found : data.zeroFrom? start = some stop) : 0 ∉ data.slice start stop := by
  fun_induction zeroFrom? data start with
  | case1 start inBounds zero =>
      cases found
      simp [slice]
  | case2 start inBounds nonzero ih =>
      have bounds := zeroFrom?_bounds found
      rw [slice_cons inBounds bounds.1, List.mem_cons]
      rintro (zero | member)
      · exact nonzero zero.symm
      · exact ih found member
  | case3 start outOfBounds => cases found

/-- The first zero byte at or after `start` lies at `stop`. -/
structure FirstZero (data : Bytes) (start stop : Nat) : Prop where
  start_le : start ≤ stop
  zero : data[stop]? = some 0
  before : ∀ place, start ≤ place → place < stop → data[place]? ≠ some 0

theorem FirstZero.unique {start stop other : Nat} (first : data.FirstZero start stop)
    (otherFirst : data.FirstZero start other) : stop = other := by
  apply Nat.le_antisymm
  · by_contra later
    exact first.before other otherFirst.start_le (Nat.lt_of_not_le later)
      otherFirst.zero
  · by_contra later
    exact otherFirst.before stop first.start_le (Nat.lt_of_not_le later) first.zero

theorem firstZero_of_zeroFrom? {start stop : Nat}
    (found : data.zeroFrom? start = some stop) :
    data.FirstZero start stop := by
  fun_induction zeroFrom? data start with
  | case1 start inBounds zero =>
      cases found
      refine ⟨Nat.le_refl _, Array.getElem?_eq_some_iff.mpr ⟨inBounds, zero⟩, ?_⟩
      intro place after before
      omega
  | case2 start inBounds nonzero ih =>
      have first := ih found
      refine ⟨Nat.le_of_succ_le first.start_le, first.zero, ?_⟩
      intro place after before
      rcases Nat.eq_or_lt_of_le after with rfl | later
      · rw [Array.getElem?_eq_getElem inBounds, Ne, Option.some_inj]
        exact nonzero
      · exact first.before place later before
  | case3 start outOfBounds => cases found

theorem FirstZero.zeroFrom?_eq {start stop : Nat} (first : data.FirstZero start stop) :
    data.zeroFrom? start = some stop := by
  fun_induction zeroFrom? data start with
  | case1 start inBounds zero =>
      rcases Nat.eq_or_lt_of_le first.start_le with rfl | later
      · rfl
      · have found := Array.getElem?_eq_some_iff.mpr ⟨inBounds, zero⟩
        exact (first.before start (Nat.le_refl _) later found).elim
  | case2 start inBounds nonzero ih =>
      apply ih
      refine ⟨?_, first.zero, fun place after =>
        first.before place (Nat.le_of_succ_le after)⟩
      apply Nat.lt_of_le_of_ne first.start_le
      rintro rfl
      exact nonzero (Array.getElem?_eq_some_iff.mp first.zero).2
  | case3 start outOfBounds =>
      have inBounds := (Array.getElem?_eq_some_iff.mp first.zero).1
      exact (outOfBounds (Nat.lt_of_le_of_lt first.start_le inBounds)).elim

/-- A zero byte that is found ends the slice before it. -/
theorem slice_zeroFrom? {start stop : Nat} (found : data.zeroFrom? start = some stop) :
    data.slice start (stop + 1) = data.slice start stop ++ [0] := by
  have bounds := zeroFrom?_bounds found
  have zero := (firstZero_of_zeroFrom? found).zero
  rw [← slice_append bounds.1 (Nat.le_add_right stop 1),
    slice_cons bounds.2 (Nat.lt_succ_self stop), slice_self,
    (Array.getElem?_eq_some_iff.mp zero).2]

/-! ## Padding -/

theorem padTo_eq (alignment : Nat) (bytes : List UInt8) :
    ∃ zeros, padTo alignment bytes = bytes ++ List.replicate zeros 0 :=
  ⟨_, rfl⟩

theorem le_alignUp {alignment : Nat} (positive : 0 < alignment) (value : Nat) :
    value ≤ alignUp value alignment := by
  unfold alignUp
  have division := Nat.div_add_mod (value + alignment - 1) alignment
  have remainder := Nat.mod_lt (value + alignment - 1) positive
  rw [Nat.mul_comm] at division
  omega

theorem length_padTo {alignment : Nat} (positive : 0 < alignment)
    (bytes : List UInt8) :
    (padTo alignment bytes).length = alignUp bytes.length alignment := by
  have enough := le_alignUp positive bytes.length
  simp only [padTo, List.length_append, List.length_replicate]
  omega

theorem length_padTo_le {alignment limit : Nat}
    (bounded : 0 < alignment ∧ alignment ≤ limit) (bytes : List UInt8) :
    (padTo alignment bytes).length ≤ bytes.length + limit := by
  rw [length_padTo bounded.1, alignUp]
  have floor := Nat.div_mul_le_self (bytes.length + alignment - 1) alignment
  omega

end Linkedit.Bytes

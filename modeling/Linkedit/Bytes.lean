import Linkedit.Text.Utf8

/-!
# Byte strings

Two kinds of byte string appear throughout. A `Bytes` buffer is addressed by
position: tries, opcode streams and whole images. A `Name` is a value: symbol
names, edge labels and payloads are compared, cut and joined.
-/

namespace Linkedit

/-- A buffer whose bytes are addressed by position. -/
abbrev Bytes := Array UInt8

/-- A byte string used as a value, such as a symbol name or an edge label. -/
abbrev Name := List UInt8

namespace Bytes

/-- The bytes from `start` up to `stop`, as far as the buffer reaches. -/
def slice (data : Bytes) (start stop : Nat) : List UInt8 :=
  (data.extract start stop).toList

/-- The number written by `bytes`, least significant byte first. -/
def littleEndian : List UInt8 → Nat
  | [] => 0
  | byte :: rest => byte.toNat + 256 * littleEndian rest

/-- The lowest `width` bytes of a number, least significant byte first. -/
def ofLittleEndian : (width : Nat) → (value : Nat) → List UInt8
  | 0, _ => []
  | width + 1, value => UInt8.ofNat value :: ofLittleEndian width (value / 256)

/-- The `width`-byte number at `offset`, if all its bytes are in the buffer. -/
def number? (data : Bytes) (width offset : Nat) : Option Nat :=
  if offset + width ≤ data.size then
    some (littleEndian (data.slice offset (offset + width)))
  else none

/-- The 32-bit word at `offset`. -/
def word32? (data : Bytes) (offset : Nat) : Option UInt32 :=
  (data.number? 4 offset).map UInt32.ofNat

/-- The 64-bit word at `offset`. -/
def word64? (data : Bytes) (offset : Nat) : Option UInt64 :=
  (data.number? 8 offset).map UInt64.ofNat

/-- The position of the first zero byte at or after `start`. -/
def zeroFrom? (data : Bytes) (start : Nat) : Option Nat :=
  if inBounds : start < data.size then
    if data[start] = 0 then some start else data.zeroFrom? (start + 1)
  else none
termination_by data.size - start

theorem zeroFrom?_bounds {data : Bytes} {start stop : Nat}
    (found : data.zeroFrom? start = some stop) :
    start ≤ stop ∧ stop < data.size := by
  fun_induction zeroFrom? data start with
  | case1 start inBounds =>
      cases found
      exact ⟨Nat.le_refl _, inBounds⟩
  | case2 start inBounds nonzero ih =>
      have bounds := ih found
      omega
  | case3 start outOfBounds => cases found

/-- The bytes from `start` on, up to the first zero byte or the end. -/
def untilZero (data : Bytes) (start : Nat) : List UInt8 :=
  data.slice start ((data.zeroFrom? start).getD data.size)

/-- The least multiple of `alignment` that is not below `value`. -/
def alignUp (value alignment : Nat) : Nat :=
  (value + alignment - 1) / alignment * alignment

/-- Appends zero bytes until the length is a multiple of `alignment`. -/
def padTo (alignment : Nat) (bytes : List UInt8) : List UInt8 :=
  bytes ++ List.replicate (alignUp bytes.length alignment - bytes.length) 0

/-- The text of a fixed-size field that is filled up with zero bytes. A field
that is not UTF-8 reads as the empty text. -/
def fieldText (field : List UInt8) : String :=
  (Text.utf8? (field.takeWhile (· ≠ 0))).getD ""

end Bytes

end Linkedit

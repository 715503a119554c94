import Linkedit.Image.Layout
import Linkedit.Proofs.Bytes
import Mathlib.Data.List.TakeWhile
import Mathlib.Tactic.Ring

/-!
# Layouts are read back

The fixed part of a header or of a load command is read back wherever its bytes lie, and
it is read wherever there is room for it. A name field is read as the text before its
first zero byte.
-/

namespace Linkedit

variable {data : Bytes} {offset position width : Nat}

/-! ## Numbers -/

namespace Bytes

@[simp] theorem length_ofLittleEndian (width value : Nat) :
    (ofLittleEndian width value).length = width := by
  induction width generalizing value with
  | zero => rfl
  | succ width ih => rw [ofLittleEndian, List.length_cons, ih]

theorem littleEndian_ofLittleEndian {value : Nat} (fits : value < 256 ^ width) :
    littleEndian (ofLittleEndian width value) = value := by
  induction width generalizing value with
  | zero =>
      rw [Nat.pow_zero, Nat.lt_one_iff] at fits
      rw [fits]
      rfl
  | succ width ih =>
      rw [Nat.pow_succ, Nat.mul_comm] at fits
      rw [ofLittleEndian, littleEndian, ih (Nat.div_lt_of_lt_mul fits),
        UInt8.toNat_ofNat']
      exact Nat.mod_add_div value 256

theorem ofLittleEndian_littleEndian (bytes : List UInt8) :
    ofLittleEndian bytes.length (littleEndian bytes) = bytes := by
  induction bytes with
  | nil => rfl
  | cons byte bytes ih =>
      have low : UInt8.ofNat (byte.toNat + 256 * littleEndian bytes) = byte := by
        apply UInt8.toNat_inj.mp
        rw [UInt8.toNat_ofNat', Nat.add_mul_mod_self_left]
        exact Nat.mod_eq_of_lt byte.toNat_lt
      have high : (byte.toNat + 256 * littleEndian bytes) / 256 =
          littleEndian bytes := by
        rw [Nat.add_mul_div_left _ _ (by decide), Nat.div_eq_of_lt byte.toNat_lt,
          Nat.zero_add]
      rw [List.length_cons, littleEndian, ofLittleEndian, low, high, ih]

theorem littleEndian_lt (bytes : List UInt8) :
    littleEndian bytes < 256 ^ bytes.length := by
  induction bytes with
  | nil => decide
  | cons byte bytes ih =>
      have small := byte.toNat_lt
      rw [littleEndian, List.length_cons, Nat.pow_succ]
      omega

/-- A number is read exactly where its bytes lie. -/
theorem number?_eq_some_iff {value : Nat} (positive : 0 < width) :
    data.number? width offset = some value ↔
      data.HoldsAt offset (ofLittleEndian width value) ∧ value < 256 ^ width := by
  rw [number?]
  constructor
  · intro read
    split at read
    next inside =>
      have length : (data.slice offset (offset + width)).length = width := by
        rw [length_slice inside, Nat.add_sub_cancel_left]
      have bytes := ofLittleEndian_littleEndian (data.slice offset (offset + width))
      have fits := littleEndian_lt (data.slice offset (offset + width))
      rw [length, Option.some.inj read] at bytes fits
      rw [bytes]
      exact ⟨holdsAt_slice inside fun _ _ _ => rfl, fits⟩
    next => cases read
  · rintro ⟨holds, fits⟩
    have nonempty : ofLittleEndian width value ≠ [] := by
      rw [← List.length_pos_iff, length_ofLittleEndian]
      exact positive
    have inside := holds.length_le nonempty
    have bytes := holds.slice_eq
    rw [length_ofLittleEndian] at inside bytes
    rw [if_pos inside, bytes, littleEndian_ofLittleEndian fits]

end Bytes

@[simp] theorem length_encodeWord32 (value : UInt32) :
    (encodeWord32 value).length = 4 :=
  Bytes.length_ofLittleEndian 4 value.toNat

theorem Bytes.holdsAt_encodeWord32 {value : UInt32} :
    data.HoldsAt offset (encodeWord32 value) ↔ data.word32? offset = some value := by
  rw [encodeWord32, Bytes.word32?, Option.map_eq_some_iff]
  constructor
  · intro holds
    exact ⟨value.toNat,
      (Bytes.number?_eq_some_iff (by decide)).mpr ⟨holds, value.toNat_lt⟩,
      UInt32.ofNat_toNat⟩
  · rintro ⟨number, read, rfl⟩
    rcases (Bytes.number?_eq_some_iff (by decide)).mp read with ⟨holds, fits⟩
    rwa [UInt32.toNat_ofNat_of_lt' fits]

namespace Width

@[simp] theorem length_encode (width : Width) (value : UInt64) :
    (width.encode value).length = width.bytes :=
  Bytes.length_ofLittleEndian width.bytes value.toNat

/-- A number fits in a pointer. -/
def Fits (width : Width) (value : UInt64) : Prop := value.toNat < 256 ^ width.bytes

theorem fits_bits64 (value : UInt64) : Width.bits64.Fits value := value.toNat_lt

theorem bytes_pos (width : Width) : 0 < width.bytes := by cases width <;> decide

theorem holdsAt_encode {width : Width} {value : UInt64} (fits : width.Fits value) :
    data.HoldsAt offset (width.encode value) ↔
      width.decode? data offset = some value := by
  rw [encode, decode?, Option.map_eq_some_iff]
  constructor
  · intro holds
    exact ⟨value.toNat, (Bytes.number?_eq_some_iff width.bytes_pos).mpr ⟨holds, fits⟩,
      UInt64.ofNat_toNat⟩
  · rintro ⟨number, read, rfl⟩
    rcases (Bytes.number?_eq_some_iff width.bytes_pos).mp read with ⟨holds, inWidth⟩
    have small : number < 2 ^ 64 :=
      Nat.lt_of_lt_of_le inWidth (by cases width <;> decide)
    rwa [UInt64.toNat_ofNat_of_lt' small]

end Width

/-! ## Texts -/

namespace Bytes

theorem drop_eq_cons (inBounds : position < data.size) :
    data.toList.drop position = data[position] :: data.toList.drop (position + 1) :=
  List.drop_eq_getElem_cons (by simpa using inBounds)

/-- The bytes from a position on up to the first zero byte, or to the end of the
buffer. -/
theorem untilZero_eq (data : Bytes) (start : Nat) :
    data.untilZero start = (data.toList.drop start).takeWhile (· ≠ 0) := by
  rw [untilZero]
  fun_induction zeroFrom? data start with
  | case1 start inBounds zero =>
      rw [Option.getD_some, slice_self, drop_eq_cons inBounds, zero]
      rfl
  | case2 start inBounds nonzero ih =>
      have behind : start < (data.zeroFrom? (start + 1)).getD data.size := by
        cases found : data.zeroFrom? (start + 1) with
        | none => exact inBounds
        | some stop => exact (zeroFrom?_bounds found).1
      rw [slice_cons inBounds behind, ih, drop_eq_cons inBounds,
        List.takeWhile_cons_of_pos (by simpa using nonzero)]
  | case3 start outOfBounds =>
      have ended : data.toList.length ≤ start := by simpa using outOfBounds
      rw [Option.getD_none, List.drop_eq_nil_of_le ended]
      simp [slice]
      omega

end Bytes

namespace Text

theorem toList_loop (bytes : ByteArray) (index : Nat) (read : List UInt8) :
    ByteArray.toList.loop bytes index read =
      read.reverse ++ bytes.data.toList.drop index := by
  fun_induction ByteArray.toList.loop bytes index read with
  | case1 index read inBounds ih =>
      have first : bytes.get! index = bytes.data[index] :=
        getElem!_pos bytes.data index inBounds
      rw [ih, List.reverse_cons, List.append_assoc, List.singleton_append, first,
        ← Bytes.drop_eq_cons inBounds]
  | case2 index read outOfBounds =>
      have ended : bytes.data.toList.length ≤ index := by
        rw [Array.length_toList]
        exact Nat.not_lt.mp outOfBounds
      rw [List.drop_eq_nil_of_le ended, List.append_nil]

theorem bytes_eq (text : String) : bytes text = text.toByteArray.data.toList := by
  rw [bytes, ByteArray.toList, toList_loop]
  rfl

/-- A text is read back from its bytes. -/
theorem utf8?_bytes (text : String) : utf8? (bytes text) = some text := by
  have whole : (bytes text).toByteArray = text.toByteArray := by
    apply ByteArray.ext
    rw [List.data_toByteArray, bytes_eq]
  rw [utf8?, whole, String.fromUTF8?, dif_pos text.isValidUTF8]
  rfl

theorem lossy_bytes (text : String) : lossy (bytes text) = text := by
  rw [lossy, utf8?_bytes]
  rfl

end Text

namespace Image

/-! ## Name fields -/

/-- A name field holds a text: it is what stands before the first zero byte, if there is
one. -/
structure IsNameField (field : List UInt8) (text : String) : Prop where
  length_eq : field.length = nameSize
  text_eq : field.takeWhile (· ≠ 0) = Text.bytes text

theorem IsNameField.fieldText_eq {field : List UInt8} {text : String}
    (isName : IsNameField field text) : Bytes.fieldText field = text := by
  rw [Bytes.fieldText, isName.text_eq, Text.utf8?_bytes]
  rfl

/-- A name field of a text that fits in it and has no zero byte. -/
theorem isNameField_nameField {text : String}
    (fits : (Text.bytes text).length ≤ nameSize)
    (nonzero : ∀ byte ∈ Text.bytes text, byte ≠ 0) : IsNameField
    (nameField text) text := by
  rw [nameField, List.take_of_length_le fits]
  constructor
  · simp [Nat.add_sub_cancel' fits]
  · rw [List.takeWhile_append_of_pos (by simpa using nonzero)]
    cases nameSize - (Text.bytes text).length <;> simp [List.replicate_succ]

theorem holdsAt_nameField {field : List UInt8} (sized : field.length = nameSize) :
    data.HoldsAt offset field ↔ readNameField? data offset = some field := by
  rw [readNameField?]
  constructor
  · intro holds
    have nonempty : field ≠ [] := by
      rw [← List.length_pos_iff, sized]
      decide
    have inside := holds.length_le nonempty
    have bytes := holds.slice_eq
    rw [sized] at inside bytes
    rw [if_pos inside, bytes]
  · intro read
    split at read
    next inside =>
      rw [← Option.some.inj read]
      exact Bytes.holdsAt_slice inside fun _ _ _ => rfl
    next => cases read

/-! ## Headers and commands -/

theorem Header.decode?_of_holdsAt {width : Width} {header : Header}
    (holds : data.HoldsAt 0 (header.encode width))
    (reserved : width = .bits32 → header.reserved = 0) :
    Header.decode? width data = some header := by
  cases width with
  | bits32 =>
      simp only [Header.encode, Bytes.holdsAt_append, List.length_append,
        length_encodeWord32, Bytes.holdsAt_encodeWord32, Nat.reduceAdd, Nat.zero_add]
        at holds
      simp [Header.decode?, holds, ← reserved rfl]
  | bits64 =>
      simp only [Header.encode, Bytes.holdsAt_append, List.length_append,
        length_encodeWord32, Bytes.holdsAt_encodeWord32, Nat.reduceAdd, Nat.zero_add]
        at holds
      simp [Header.decode?, holds]

/-- The addresses and sizes of a segment command fit in a pointer. -/
structure SegmentCommand.Fits (width : Width) (command : SegmentCommand) : Prop where
  address : width.Fits command.address
  addressSize : width.Fits command.addressSize
  fileOffset : width.Fits command.fileOffset
  fileSize : width.Fits command.fileSize

theorem SegmentCommand.decode?_of_holdsAt {width : Width} {command : SegmentCommand}
    (holds : data.HoldsAt 0 (command.encode width)) (fits : command.Fits width)
    (named : command.name.length = nameSize) :
    SegmentCommand.decode? width data = some command := by
  simp only [SegmentCommand.encode, Bytes.holdsAt_append, List.length_append,
    length_encodeWord32, Width.length_encode, named, Bytes.holdsAt_encodeWord32,
    holdsAt_nameField named, Width.holdsAt_encode, fits.address, fits.addressSize,
    fits.fileOffset, fits.fileSize] at holds
  cases width with
  | bits32 =>
      simp only [Width.bytes, nameSize, Nat.reduceAdd, Nat.zero_add] at holds
      simp [SegmentCommand.decode?, Width.bytes, holds]
  | bits64 =>
      simp only [Width.bytes, nameSize, Nat.reduceAdd, Nat.zero_add] at holds
      simp [SegmentCommand.decode?, Width.bytes, holds]

/-- The address and size of a section fit in a pointer, and its names in their fields.
The word that a 32-bit section lacks is zero. -/
structure SectionEntry.Fits (width : Width) (part : SectionEntry) : Prop where
  name : part.name.length = nameSize
  segmentName : part.segmentName.length = nameSize
  address : width.Fits part.address
  size : width.Fits part.size
  reserved3 : width = .bits32 → part.reserved3 = 0

theorem SectionEntry.decode?_of_holdsAt {width : Width} {part : SectionEntry}
    (holds : data.HoldsAt position (part.encode width)) (fits : part.Fits width) :
    SectionEntry.decode? width data position = some part := by
  simp only [SectionEntry.encode, Bytes.holdsAt_append, List.length_append,
    length_encodeWord32, Width.length_encode, fits.name, fits.segmentName,
    Bytes.holdsAt_encodeWord32, holdsAt_nameField fits.name,
    holdsAt_nameField fits.segmentName, Width.holdsAt_encode fits.address,
    Width.holdsAt_encode fits.size] at holds
  cases width with
  | bits32 =>
      simp only [Width.bytes, nameSize, Nat.reduceAdd] at holds
      simp [SectionEntry.decode?, Width.bytes, nameSize, Nat.add_assoc, holds,
        ← fits.reserved3 rfl]
  | bits64 =>
      simp only [Width.bytes, nameSize, Nat.reduceAdd, Bytes.holdsAt_encodeWord32]
        at holds
      simp [SectionEntry.decode?, Width.bytes, nameSize, Nat.add_assoc, holds]

theorem DyldInfo.decode?_of_holdsAt {info : DyldInfo}
    (holds : data.HoldsAt 0 info.encode) :
    DyldInfo.decode? data = some info := by
  simp only [DyldInfo.encode, Bytes.holdsAt_append, List.length_append,
    length_encodeWord32, Bytes.holdsAt_encodeWord32, Nat.reduceAdd, Nat.zero_add]
    at holds
  simp [DyldInfo.decode?, holds]

theorem DataCommand.decode?_of_holdsAt {command : DataCommand}
    (holds : data.HoldsAt 0 command.encode) :
    DataCommand.decode? data = some command := by
  simp only [DataCommand.encode, Bytes.holdsAt_append, List.length_append,
    length_encodeWord32, Bytes.holdsAt_encodeWord32, Nat.reduceAdd, Nat.zero_add]
    at holds
  simp [DataCommand.decode?, holds]

theorem DylibCommand.decode?_of_holdsAt {command : DylibCommand}
    (holds : data.HoldsAt 0 command.encode) :
    DylibCommand.decode? data = some command := by
  simp only [DylibCommand.encode, Bytes.holdsAt_append, List.length_append,
    length_encodeWord32, Bytes.holdsAt_encodeWord32, Nat.reduceAdd, Nat.zero_add]
    at holds
  simp [DylibCommand.decode?, holds]

/-! ## Sizes -/

@[simp] theorem Header.length_encode (width : Width) (header : Header) :
    (header.encode width).length = Header.size width := by
  cases width <;> simp [Header.encode, Header.size]

@[simp] theorem DyldInfo.length_encode (info : DyldInfo) :
    info.encode.length = DyldInfo.bytes := by
  simp [DyldInfo.encode, DyldInfo.bytes]

@[simp] theorem DataCommand.length_encode (command : DataCommand) :
    command.encode.length = DataCommand.bytes := by
  simp [DataCommand.encode, DataCommand.bytes]

@[simp] theorem DylibCommand.length_encode (command : DylibCommand) :
    command.encode.length = DylibCommand.bytes := by
  simp [DylibCommand.encode, DylibCommand.bytes]

theorem SegmentCommand.length_encode {command : SegmentCommand}
    (named : command.name.length = nameSize) (width : Width) :
    (command.encode width).length = SegmentCommand.bytes width := by
  simp [SegmentCommand.encode, SegmentCommand.bytes, named, nameSize]
  omega

theorem SectionEntry.length_encode {width : Width} {part : SectionEntry}
    (fits : part.Fits width) :
    (part.encode width).length = SectionEntry.bytes width := by
  cases width <;>
    simp [SectionEntry.encode, SectionEntry.bytes, SectionEntry.words, Width.bytes,
      fits.name, fits.segmentName, nameSize]

/-! ## Room -/

theorem isSome_number? :
    (data.number? width offset).isSome ↔ offset + width ≤ data.size := by
  rw [Bytes.number?]
  split <;> simp [*]

theorem isSome_word32? : (data.word32? offset).isSome ↔ offset + 4 ≤ data.size := by
  rw [Bytes.word32?, Option.isSome_map, isSome_number?]

theorem isSome_pointer? {width : Width} :
    (width.decode? data offset).isSome ↔ offset + width.bytes ≤ data.size := by
  rw [Width.decode?, Option.isSome_map, isSome_number?]

theorem isSome_readNameField? :
    (readNameField? data offset).isSome ↔ offset + nameSize ≤ data.size := by
  rw [readNameField?]
  split <;> simp [*]

/-- Reading in sequence gets through if each part does, where what is read does not
matter. -/
theorem isSome_bind {α β : Type} {first : Option α} {next : α → Option β} {rest : Prop}
    (following : ∀ value, (next value).isSome ↔ rest) :
    (first >>= next).isSome ↔ first.isSome ∧ rest := by
  cases first <;> simp [following]

theorem isSome_pure {α : Type} (value : α) : (pure value : Option α).isSome ↔ True := by
  simp

/-- A header is read exactly where there is room for it. -/
theorem Header.isSome_decode? {width : Width} :
    (Header.decode? width data).isSome ↔ Header.size width ≤ data.size := by
  cases width with
  | bits32 =>
      have reads : (Header.decode? .bits32 data).isSome ↔ _ :=
        isSome_bind fun _ => isSome_bind fun _ => isSome_bind fun _ =>
            isSome_bind fun _ =>
          isSome_bind fun _ => isSome_bind fun _ => isSome_bind fun _ =>
              isSome_bind fun _ =>
          isSome_pure _
      simp only [isSome_word32?, and_true, Option.isSome_some, true_and] at reads
      rw [reads, Header.size]
      omega
  | bits64 =>
      have reads : (Header.decode? .bits64 data).isSome ↔ _ :=
        isSome_bind fun _ => isSome_bind fun _ => isSome_bind fun _ =>
            isSome_bind fun _ =>
          isSome_bind fun _ => isSome_bind fun _ => isSome_bind fun _ =>
              isSome_bind fun _ =>
          isSome_pure _
      simp only [isSome_word32?, and_true] at reads
      rw [reads, Header.size]
      omega

/-- A section is read exactly where there is room for it. -/
theorem SectionEntry.isSome_decode? {width : Width} :
    (SectionEntry.decode? width data position).isSome ↔
      position + SectionEntry.bytes width ≤ data.size := by
  cases width with
  | bits32 =>
      have reads : (SectionEntry.decode? .bits32 data position).isSome ↔ _ :=
        isSome_bind fun _ => isSome_bind fun _ => isSome_bind fun _ =>
            isSome_bind fun _ =>
          isSome_bind fun _ => isSome_bind fun _ => isSome_bind fun _ =>
              isSome_bind fun _ =>
          isSome_bind fun _ => isSome_bind fun _ => isSome_bind fun _ =>
              isSome_bind fun _ =>
          isSome_pure _
      simp only [isSome_word32?, isSome_pointer?, isSome_readNameField?, and_true,
        Option.isSome_some, true_and] at reads
      rw [reads, SectionEntry.bytes, SectionEntry.words, Width.bytes, nameSize]
      omega
  | bits64 =>
      have reads : (SectionEntry.decode? .bits64 data position).isSome ↔ _ :=
        isSome_bind fun _ => isSome_bind fun _ => isSome_bind fun _ =>
            isSome_bind fun _ =>
          isSome_bind fun _ => isSome_bind fun _ => isSome_bind fun _ =>
              isSome_bind fun _ =>
          isSome_bind fun _ => isSome_bind fun _ => isSome_bind fun _ =>
              isSome_bind fun _ =>
          isSome_pure _
      simp only [isSome_word32?, isSome_pointer?, isSome_readNameField?, and_true]
        at reads
      rw [reads, SectionEntry.bytes, SectionEntry.words, Width.bytes, nameSize]
      omega

/-- A segment command is read exactly where there is room for it. -/
theorem SegmentCommand.isSome_decode? {width : Width} :
    (SegmentCommand.decode? width data).isSome ↔
      SegmentCommand.bytes width ≤ data.size := by
  have reads : (SegmentCommand.decode? width data).isSome ↔ _ :=
    isSome_bind fun _ => isSome_bind fun _ => isSome_bind fun _ => isSome_bind fun _ =>
      isSome_bind fun _ => isSome_bind fun _ => isSome_bind fun _ =>
          isSome_bind fun _ =>
      isSome_bind fun _ => isSome_bind fun _ => isSome_bind fun _ => isSome_pure _
  simp only [isSome_word32?, isSome_pointer?, isSome_readNameField?, and_true] at reads
  rw [reads, SegmentCommand.bytes, nameSize]
  omega

/-- A command that names a library is read exactly where there is room for it. -/
theorem DylibCommand.isSome_decode? :
    (DylibCommand.decode? data).isSome ↔ DylibCommand.bytes ≤ data.size := by
  have reads : (DylibCommand.decode? data).isSome ↔ _ :=
    isSome_bind fun _ => isSome_bind fun _ => isSome_bind fun _ => isSome_bind fun _ =>
      isSome_bind fun _ => isSome_bind fun _ => isSome_pure _
  simp only [isSome_word32?, and_true] at reads
  rw [reads, DylibCommand.bytes]
  omega

end Image

end Linkedit

import Linkedit.Image.Tables
import Linkedit.Proofs.Bytes
import Linkedit.Proofs.Except

/-!
# What an image is read from

The header and the load commands of an image are read from the bytes in which they lie
and from the size of the file. A change to other bytes leaves them as they are.
-/

namespace Linkedit.Image

/-! ## Ranges -/

instance : Membership Nat Range :=
  ⟨fun range position => range.start ≤ position ∧ position < range.stop⟩

namespace Range

variable {slot range inner : Range}

theorem mem_def {position : Nat} :
    position ∈ range ↔ range.start ≤ position ∧ position < range.stop := Iff.rfl

/-- No position lies in both ranges. -/
def Apart (slot range : Range) : Prop := ∀ position ∈ slot, position ∉ range

theorem apart_of_le (before : range.stop ≤ slot.start) : slot.Apart range := by
  intro position inSlot inRange
  rw [mem_def] at inSlot inRange
  omega

theorem Apart.mono (apart : slot.Apart range) (start : range.start ≤ inner.start)
    (stop : inner.stop ≤ range.stop) : slot.Apart inner := by
  intro position inSlot inInner
  rw [mem_def] at inInner
  apply apart position inSlot
  rw [mem_def]
  omega

end Range

/-! ## Bytes outside a slot -/

variable {slot : Range} {before after : Bytes}

/-- Two files have the same size and differ in a slot only. -/
structure SameOutside (slot : Range) (before after : Bytes) : Prop where
  size_eq : after.size = before.size
  getElem?_eq : ∀ position, position ∉ slot → after[position]? = before[position]?

namespace SameOutside

theorem refl (slot : Range) (data : Bytes) : SameOutside slot data data :=
  ⟨rfl, fun _ _ => rfl⟩

theorem extract_eq (same : SameOutside slot before after) {start stop : Nat}
    (apart : slot.Apart ⟨start, stop⟩) :
    after.extract start stop = before.extract start stop := by
  apply Bytes.extract_congr same.size_eq
  intro position behind before
  apply same.getElem?_eq
  intro inSlot
  exact apart position inSlot ⟨behind, before⟩

theorem word32?_eq (same : SameOutside slot before after) {offset : Nat}
    (apart : slot.Apart ⟨offset, offset + 4⟩) :
    after.word32? offset = before.word32? offset := by
  simp only [Bytes.word32?, Bytes.number?, Bytes.slice, same.size_eq,
    same.extract_eq apart]

/-- The header is read from its own bytes. -/
theorem decode?_header_eq (same : SameOutside slot before after) {width : Width}
    (apart : slot.Apart ⟨0, Header.size width⟩) :
    Header.decode? width after = Header.decode? width before := by
  have word : ∀ offset, offset + 4 ≤ Header.size width →
      after.word32? offset = before.word32? offset := by
    intro offset inside
    exact same.word32?_eq (apart.mono (Nat.zero_le _) inside)
  cases width <;> simp (disch := decide) only [Header.decode?, word]

end SameOutside

/-! ## Reading load commands -/

theorem require_eq_ok {α : Type} {error : Error} {value? : Option α} {value : α} :
    require error value? = .ok value ↔ value? = some value := by
  cases value? <;> simp [require]

theorem readSegment_eq_ok {width : Width} {data : Bytes} {offset : Nat}
    {segment : Segment} :
    readSegment width data offset = .ok segment ↔
      ∃ fields parts, SegmentCommand.decode? width data = some fields ∧
        fields.sectionCount.toNat ≤
          (data.size - SegmentCommand.bytes width) / SectionEntry.bytes width ∧
        readSections width data offset (SegmentCommand.bytes width)
          fields.sectionCount.toNat = .ok parts ∧
        fields.toSegment parts = segment := by
  rw [readSegment]
  constructor
  · intro read
    rcases bind_eq_ok.mp read with ⟨fields, decoded, read⟩
    dsimp only at read
    split at read
    next fit =>
      rcases bind_eq_ok.mp read with ⟨parts, partsRead, read⟩
      cases read
      exact ⟨fields, parts, require_eq_ok.mp decoded, fit, partsRead, rfl⟩
    next => cases read
  · rintro ⟨fields, parts, decoded, fit, partsRead, rfl⟩
    rw [require_eq_ok.mpr decoded, ok_bind]
    dsimp only
    rw [if_pos fit, partsRead, ok_bind]
    rfl

/-- The range in which a load command lies. -/
def LoadCommand.range (command : LoadCommand) : Range :=
  ⟨command.offset, command.offset + command.size⟩

/-- A load command of a given number and size begins at `offset`, and has room in the
file. -/
structure Announces (data : Bytes) (limit offset : Nat) (number size : UInt32) :
    Prop where
  start_le_limit : offset + commandStart ≤ limit
  start_le_size : offset + commandStart ≤ data.size
  number_eq : data.word32? offset = some number
  size_eq : data.word32? (offset + 4) = some size
  commandStart_le : commandStart ≤ size.toNat
  stop_le_size : offset + size.toNat ≤ data.size

theorem readCommands_of_announces {data : Bytes} {limit offset count : Nat}
    {number size : UInt32} (announces : Announces data limit offset number size) :
    readCommands data limit offset (count + 1) = do
      let body ← readCommand number (data.extract offset (offset + size.toNat)) offset
      let rest ← readCommands data limit (offset + size.toNat) count
      return ⟨offset, size.toNat, body⟩ :: rest := by
  have announced :
      ¬ (offset + commandStart > limit ∨ offset + commandStart > data.size) :=
    not_or.mpr ⟨Nat.not_lt.mpr announces.start_le_limit,
      Nat.not_lt.mpr announces.start_le_size⟩
  have inside : ¬ (size.toNat < commandStart ∨ offset + size.toNat > data.size) :=
    not_or.mpr ⟨Nat.not_lt.mpr announces.commandStart_le,
      Nat.not_lt.mpr announces.stop_le_size⟩
  rw [readCommands, if_neg announced, require_eq_ok.mpr announces.number_eq,
    require_eq_ok.mpr announces.size_eq]
  dsimp only [ok_bind]
  rw [if_neg inside]

theorem readCommands_succ_eq_ok {data : Bytes} {limit offset count : Nat}
    {commands : List LoadCommand} :
    readCommands data limit offset (count + 1) = .ok commands ↔
      ∃ number size body rest, Announces data limit offset number size ∧
        readCommand number (data.extract offset (offset + size.toNat)) offset =
          .ok body ∧
        readCommands data limit (offset + size.toNat) count = .ok rest ∧
        ⟨offset, size.toNat, body⟩ :: rest = commands := by
  constructor
  · intro read
    rw [readCommands] at read
    split at read
    next => cases read
    next announced =>
      rcases bind_eq_ok.mp read with ⟨number, numberRead, read⟩
      rcases bind_eq_ok.mp read with ⟨size, sizeRead, read⟩
      dsimp only at read
      split at read
      next => cases read
      next inside =>
        rcases bind_eq_ok.mp read with ⟨body, bodyRead, read⟩
        rcases bind_eq_ok.mp read with ⟨rest, restRead, read⟩
        cases read
        rw [not_or, Nat.not_lt, Nat.not_lt] at announced inside
        exact ⟨number, size, body, rest,
          ⟨announced.1, announced.2, require_eq_ok.mp numberRead,
            require_eq_ok.mp sizeRead, inside.1, inside.2⟩, bodyRead, restRead, rfl⟩
  · rintro ⟨number, size, body, rest, announces, bodyRead, restRead, rfl⟩
    rw [readCommands_of_announces announces, bodyRead, ok_bind, restRead, ok_bind]
    rfl

namespace SameOutside

theorem announces (same : SameOutside slot before after) {limit offset : Nat}
    {number size : UInt32} (announces : Announces before limit offset number size)
    (apart : slot.Apart ⟨offset, offset + size.toNat⟩) :
    Announces after limit offset number size where
  start_le_limit := announces.start_le_limit
  start_le_size := same.size_eq ▸ announces.start_le_size
  number_eq := by
    have start := announces.commandStart_le
    rw [commandStart] at start
    rw [same.word32?_eq (apart.mono (Nat.le_refl _) ?_), announces.number_eq]
    dsimp only
    omega
  size_eq := by
    have start := announces.commandStart_le
    rw [commandStart] at start
    rw [same.word32?_eq (apart.mono ?_ ?_), announces.size_eq]
    all_goals
      dsimp only
      omega
  commandStart_le := announces.commandStart_le
  stop_le_size := same.size_eq ▸ announces.stop_le_size

/-- Load commands are read from their own bytes. -/
theorem readCommands_eq (same : SameOutside slot before after)
    {limit offset count : Nat} {commands : List LoadCommand}
    (read : readCommands before limit offset count = .ok commands)
    (apart : ∀ command ∈ commands, slot.Apart command.range) :
    readCommands after limit offset count = .ok commands := by
  induction count generalizing offset commands with
  | zero => exact read
  | succ count ih =>
      rcases readCommands_succ_eq_ok.mp read with
          ⟨number, size, body, rest, announces, bodyRead, restRead, rfl⟩
      rcases List.forall_mem_cons.mp apart with ⟨firstApart, restApart⟩
      apply readCommands_succ_eq_ok.mpr
      refine ⟨number, size, body, rest, same.announces announces firstApart, ?_,
        ih restRead restApart, rfl⟩
      rwa [same.extract_eq firstApart]

end SameOutside

/-! ## Reading an image -/

theorem parse_eq_ok {data : Bytes} {image : Image} :
    parse data = .ok image ↔ ∃ magic, data.word32? 0 = some magic ∧
      Magic.ofWord magic = .thin image.width ∧
      Header.decode? image.width data = some image.header ∧
      readCommands data (Header.size image.width + image.header.commandSize.toNat)
        (Header.size image.width) image.header.commandCount.toNat = .ok image.commands ∧
      image.data = data := by
  rw [parse]
  constructor
  · intro read
    rcases bind_eq_ok.mp read with ⟨magic, magicRead, read⟩
    split at read
    next => cases read
    next => cases read
    next width thin =>
      rcases bind_eq_ok.mp read with ⟨header, headerRead, read⟩
      rcases bind_eq_ok.mp read with ⟨commands, commandsRead, read⟩
      cases read
      exact ⟨magic, require_eq_ok.mp magicRead, thin, require_eq_ok.mp headerRead,
        commandsRead, rfl⟩
  · rintro ⟨magic, magicRead, thin, headerRead, commandsRead, rfl⟩
    rw [require_eq_ok.mpr magicRead, ok_bind, thin]
    dsimp only
    rw [require_eq_ok.mpr headerRead, ok_bind, commandsRead, ok_bind]
    rfl

/-- The header and the load commands of an image lie outside a slot. -/
structure Clear (image : Image) (slot : Range) : Prop where
  header : slot.Apart ⟨0, Header.size image.width⟩
  commands : ∀ command ∈ image.commands, slot.Apart command.range

/-- An image whose header and load commands lie outside a slot is read as before if
only the slot is changed. -/
theorem SameOutside.parse_eq (same : SameOutside slot before after) {image : Image}
    (read : parse before = .ok image) (clear : image.Clear slot) :
    parse after = .ok { image with data := after } := by
  rcases parse_eq_ok.mp read with ⟨magic, magicRead, thin, headerRead, commandsRead, -⟩
  apply parse_eq_ok.mpr
  refine ⟨magic, ?_, thin, ?_, same.readCommands_eq commandsRead clear.commands, rfl⟩
  · rw [same.word32?_eq (clear.header.mono (Nat.le_refl _) ?_), magicRead]
    cases image.width <;> decide
  · rw [same.decode?_header_eq clear.header, headerRead]

end Linkedit.Image

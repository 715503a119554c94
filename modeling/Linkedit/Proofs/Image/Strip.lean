import Linkedit.Image.Strip
import Linkedit.Proofs.Image.Locality
import Linkedit.Proofs.InPlace
import Linkedit.Proofs.Trie.Prune

/-!
# What stripping does to a file

Stripping writes to the slot of the export trie and nowhere else, and it writes only
when nothing can fail any more. If the slot overlaps neither the header nor a load
command, the file says the same as before, except for the names that are gone.
-/

namespace Linkedit.Image

variable {data after bytes : Bytes} {image : Image} {slot : Range}
  {remove : Name → Bool}

/-! ## The slot -/

/-- A range lies in a file. -/
structure Range.InFile (range : Range) (data : Bytes) : Prop where
  start_le_stop : range.start ≤ range.stop
  stop_le_size : range.stop ≤ data.size

namespace Range.InFile

theorem size_extract (inFile : slot.InFile data) :
    (data.extract slot.start slot.stop).size = slot.size := by
  rw [Array.size_extract, Nat.min_eq_left inFile.stop_le_size, Range.size]

theorem size_extract_start (inFile : slot.InFile data) :
    (data.extract 0 slot.start).size = slot.start := by
  have start := inFile.start_le_stop
  have stop := inFile.stop_le_size
  rw [Array.size_extract]
  omega

theorem size_replace (inFile : slot.InFile data) (sized : bytes.size = slot.size) :
    (replace data slot bytes).size = data.size := by
  have start := inFile.start_le_stop
  have stop := inFile.stop_le_size
  rw [Range.size] at sized
  simp only [replace, Array.size_append, Array.size_extract]
  omega

/-- The bytes of a file with other bytes in a range. -/
theorem getElem?_replace (inFile : slot.InFile data) (sized : bytes.size = slot.size)
    (position : Nat) :
    (replace data slot bytes)[position]? =
      if position < slot.start then data[position]?
      else if position < slot.stop then bytes[position - slot.start]?
      else data[position]? := by
  have start := inFile.start_le_stop
  have stop := inFile.stop_le_size
  have front := inFile.size_extract_start
  rw [Range.size] at sized
  rw [replace, Array.append_assoc]
  split
  next before =>
    rw [Array.getElem?_append_left (by omega), Array.getElem?_extract,
      if_pos (by omega), Nat.zero_add]
  next behind =>
    rw [Array.getElem?_append_right (by omega), front]
    split
    next inside => rw [Array.getElem?_append_left (by omega)]
    next =>
      rw [Array.getElem?_append_right (by omega), Array.getElem?_extract]
      split
      next =>
        congr 1
        omega
      next past => rw [Array.getElem?_eq_none (by omega)]

/-- Replacing the bytes of a range changes no other byte. -/
theorem sameOutside_replace (inFile : slot.InFile data)
    (sized : bytes.size = slot.size) :
    SameOutside slot data (replace data slot bytes) where
  size_eq := inFile.size_replace sized
  getElem?_eq := by
    intro position outside
    rw [Range.mem_def] at outside
    rw [inFile.getElem?_replace sized]
    split
    next => rfl
    next behind => rw [if_neg (by omega)]

/-- A range holds the bytes that are put there. -/
theorem extract_replace (inFile : slot.InFile data) (sized : bytes.size = slot.size) :
    (replace data slot bytes).extract slot.start slot.stop = bytes := by
  have start := inFile.start_le_stop
  have stop := inFile.stop_le_size
  rw [Range.size] at sized
  apply Array.ext_getElem?
  intro index
  rw [Array.getElem?_extract, inFile.size_replace (by rwa [Range.size])]
  split
  next inside =>
    rw [inFile.getElem?_replace (by rwa [Range.size]), if_neg (by omega),
      if_pos (by omega), Nat.add_sub_cancel_left]
  next past => rw [Array.getElem?_eq_none (by omega)]

/-- Putting back what a range holds changes nothing. -/
theorem replace_extract (inFile : slot.InFile data) :
    replace data slot (data.extract slot.start slot.stop) = data := by
  have start := inFile.start_le_stop
  have stop := inFile.stop_le_size
  rw [replace, Array.extract_append_extract, Nat.zero_min, Nat.max_eq_right start,
    Array.extract_append_extract, Nat.zero_min, Nat.max_eq_right stop,
    Array.extract_size]

end Range.InFile

theorem exportsSlot_eq_ok :
    image.exportsSlot = .ok slot ↔ image.exportsRange? = .ok (some slot) := by
  rw [exportsSlot]
  cases image.exportsRange? with
  | error error => simp
  | ok range? => simp [require_eq_ok]

theorem fileRange_eq_ok {offset size : UInt32} :
    image.fileRange offset size = .ok slot ↔
      offset.toNat + size.toNat ≤ image.data.size ∧
        (⟨offset.toNat, offset.toNat + size.toNat⟩ : Range) = slot := by
  rw [fileRange]
  split <;> simp [*]

/-- The slot of the export trie lies in the file, and its size is a 32-bit number. -/
theorem slot_spec (located : image.exportsRange? = .ok (some slot)) :
    slot.InFile image.data ∧ slot.size < 2 ^ 32 := by
  have ranged : ∃ offset size, image.fileRange offset size = .ok slot := by
    rw [exportsRange?] at located
    split at located
    next command _ _ =>
      rcases map_eq_ok.mp located with ⟨range, found, same⟩
      cases same
      exact ⟨_, _, found⟩
    next info _ _ =>
      split at located
      next =>
        rcases map_eq_ok.mp located with ⟨range, found, same⟩
        cases same
        exact ⟨_, _, found⟩
      next => cases located
    next => cases located
  rcases ranged with ⟨offset, size, found⟩
  rcases fileRange_eq_ok.mp found with ⟨inside, rfl⟩
  refine ⟨⟨Nat.le_add_right _ _, inside⟩, ?_⟩
  rw [Range.size, Nat.add_sub_cancel_left]
  exact size.toNat_lt

/-! ## What the image says -/

/-- The range of the bind program of an image. -/
def bindRange (image : Image) : Except Error Range :=
  match image.dyldInfo? with
  | some info => image.fileRange info.bindOffset info.bindSize
  | none => .error (.missingLoadCommand "LC_DYLD_INFO")

theorem bindOpcodes_eq (image : Image) :
    image.bindOpcodes = image.bindRange.map image.bytesIn := by
  rw [bindOpcodes, bindRange]
  cases image.dyldInfo? <;> rfl

/-- Two images have the same header, and the same segments, libraries and ranges of
linkedit data. -/
structure SameTables (before after : Image) : Prop where
  width_eq : after.width = before.width
  header_eq : after.header = before.header
  segments_eq : after.segments = before.segments
  libraries_eq : after.libraries = before.libraries
  bindRange_eq : after.bindRange = before.bindRange
  exportsRange?_eq : after.exportsRange? = before.exportsRange?

/-- The tables of an image depend on its load commands and on the size of the file. -/
theorem sameTables_of_size_eq (image : Image) (sized : after.size = image.data.size) :
    image.SameTables { image with data := after } where
  width_eq := rfl
  header_eq := rfl
  segments_eq := rfl
  libraries_eq := rfl
  bindRange_eq := by
    simp only [bindRange, fileRange, sized]
    rfl
  exportsRange?_eq := by
    simp only [exportsRange?, fileRange, sized]
    rfl

theorem exportsTrie_of_exportsRange? (located : image.exportsRange? = .ok (some slot)) :
    image.exportsTrie = .ok (image.bytesIn slot) := by
  rw [exportsTrie, located]
  rfl

/-! ## Stripping -/

/-- What is found out about a file before it is written to. -/
structure Strips (data : Bytes) (remove : Name → Bool) (image : Image) (slot : Range)
    (pruned : Trie.Pruned) : Prop where
  parsed : parse data = .ok image
  located : image.exportsRange? = .ok (some slot)
  pruned : Trie.prune (image.bytesIn slot) remove = .ok pruned

/-- What stripping leaves: the slot is rewritten if some name goes. -/
theorem Strips.on_stripInPlace {pruned : Trie.Pruned}
    (strips : Strips data remove image slot pruned) :
    (stripInPlace remove).on data =
      (.ok (slot.summary pruned),
        if 0 < pruned.removed then replace data slot pruned.bytes else data) := by
  simp only [stripInPlace, InPlace.on_bind, InPlace.on_get, InPlace.on_lift,
    strips.parsed, exportsSlot_eq_ok.mpr strips.located, strips.pruned]
  split <;> simp only [InPlace.on_bind, InPlace.on_modify, InPlace.on_pure]

/-- A file that cannot be stripped is left as it is. -/
theorem on_stripInPlace_cases (data : Bytes) (remove : Name → Bool) :
    (∃ error, (stripInPlace remove).on data = (.error error, data)) ∨
      ∃ image slot pruned, Strips data remove image slot pruned := by
  simp only [stripInPlace, InPlace.on_bind, InPlace.on_get, InPlace.on_lift]
  cases parsed : parse data with
  | error error => exact .inl ⟨error, rfl⟩
  | ok image =>
      cases located : image.exportsSlot with
      | error error => exact .inl ⟨error, by simp only [located]⟩
      | ok slot =>
          cases pruned : Trie.prune (image.bytesIn slot) remove with
          | error error => exact .inl ⟨error, by simp only [located, pruned]⟩
          | ok result =>
              exact .inr ⟨image, slot, result, parsed,
                exportsSlot_eq_ok.mp located, pruned⟩

namespace Strips

variable {pruned : Trie.Pruned}

theorem data_eq (strips : Strips data remove image slot pruned) :
    image.data = data := by
  rcases parse_eq_ok.mp strips.parsed with ⟨-, -, -, -, -, same⟩
  exact same

theorem inFile (strips : Strips data remove image slot pruned) : slot.InFile data :=
  strips.data_eq ▸ (slot_spec strips.located).1

theorem size_bytesIn (strips : Strips data remove image slot pruned) :
    (image.bytesIn slot).size = slot.size := by
  rw [bytesIn, strips.data_eq, strips.inFile.size_extract]

theorem keeps (strips : Strips data remove image slot pruned) :
    ∃ all, Trie.entries (image.bytesIn slot) = .ok all ∧
      pruned.Keeps (image.bytesIn slot) remove all := by
  have small : (image.bytesIn slot).size < 2 ^ 64 := by
    have bound := (slot_spec strips.located).2
    rw [strips.size_bytesIn]
    omega
  rcases Trie.prune_fails_or_keeps small remove with
      ⟨error, failed, -⟩ | ⟨result, all, succeeded, read, keeps⟩
  · cases strips.pruned.symm.trans failed
  · cases strips.pruned.symm.trans succeeded
    exact ⟨all, read, keeps⟩

/-- The file that is left differs from the given one in the slot only, and the slot
holds the trie without the names that go. -/
theorem rewritten (strips : Strips data remove image slot pruned)
    (left : after = if 0 < pruned.removed then
      replace data slot pruned.bytes else data) :
    SameOutside slot data after ∧ after.extract slot.start slot.stop =
      pruned.bytes := by
  rcases strips.keeps with ⟨all, -, keeps⟩
  split at left
  next =>
    have sized : pruned.bytes.size = slot.size :=
      keeps.size_bytes.trans strips.size_bytesIn
    subst left
    exact ⟨strips.inFile.sameOutside_replace sized, strips.inFile.extract_replace sized⟩
  next unchanged =>
    have none : Trie.removedCount remove all = 0 := by
      rw [← keeps.removed_eq]
      omega
    subst left
    refine ⟨.refl slot after, ?_⟩
    rw [keeps.unchanged none, bytesIn, strips.data_eq]

/-- Stripping gives the file that has its slot replaced, whether some name goes or
not. -/
theorem stripExports_eq (strips : Strips data remove image slot pruned) :
    stripExports data remove = .ok (image.withSlot slot pruned) := by
  have left : (if 0 < pruned.removed then replace data slot pruned.bytes else data) =
      replace data slot pruned.bytes := by
    split
    next => rfl
    next unchanged =>
      have held := (strips.rewritten (if_neg unchanged).symm).2
      rw [← held, strips.inFile.replace_extract]
  rw [stripExports, strips.on_stripInPlace, left, withSlot, strips.data_eq]

/-- If the slot overlaps nothing that is parsed, the file is parsed as before, and its
trie holds the names that stay. -/
theorem reread (strips : Strips data remove image slot pruned)
    (same : SameOutside slot data after)
    (held : after.extract slot.start slot.stop = pruned.bytes)
    (clear : image.Clear slot) :
    ∃ other, parse after = .ok other ∧ image.SameTables other ∧
      ∃ old new, image.exportsTrie >>= Trie.entries = .ok old ∧
        other.exportsTrie >>= Trie.entries = .ok new ∧
        new.Perm (old.filter fun entry => !remove entry.name) := by
  rcases strips.keeps with ⟨all, read, keeps⟩
  rcases keeps.reads with ⟨found, perm, foundRead, -⟩
  have tables := image.sameTables_of_size_eq (strips.data_eq ▸ same.size_eq)
  have located := tables.exportsRange?_eq.trans strips.located
  refine ⟨_, same.parse_eq strips.parsed clear, tables, all, found, ?old, ?new, perm⟩
  case old => rw [exportsTrie_of_exportsRange? strips.located, ok_bind, read]
  case new =>
    rw [exportsTrie_of_exportsRange? located, ok_bind, bytesIn]
    dsimp only
    rw [held, foundRead]

end Strips

/-- Stripping is reading the image, finding its slot and removing names from the trie
there. -/
theorem stripExports_eq_bind (data : Bytes) (remove : Name → Bool) :
    stripExports data remove = do
      let image ← parse data
      let slot ← image.exportsSlot
      let pruned ← Trie.prune (image.bytesIn slot) remove
      return image.withSlot slot pruned := by
  cases parsed : parse data with
  | error error => simp [stripExports, stripInPlace, InPlace.on_bind, parsed]
  | ok image =>
      cases located : image.exportsSlot with
      | error error =>
          simp [stripExports, stripInPlace, InPlace.on_bind, parsed, located]
      | ok slot =>
          cases removed : Trie.prune (image.bytesIn slot) remove with
          | error error =>
              simp [stripExports, stripInPlace, InPlace.on_bind, parsed, located,
                removed]
          | ok pruned =>
              have strips : Strips data remove image slot pruned :=
                ⟨parsed, exportsSlot_eq_ok.mp located, removed⟩
              simp [strips.stripExports_eq, located, removed]

/-- Stripping rewrites a slot and nothing else, and leaves a file that is refused as it
is. The file is parsed as before if the slot overlaps neither the header nor the load
commands, which say where everything lies. -/
theorem strip_rewrites_slot (data : Bytes) (remove : Name → Bool) :
    (∀ error after, (stripInPlace remove).on data = (.error error, after) →
      after = data) ∧
      (∀ image slot pruned, Strips data remove image slot pruned →
        ∃ after, (stripInPlace remove).on data = (.ok (slot.summary pruned), after)) ∧
      ∀ summary after, (stripInPlace remove).on data = (.ok summary, after) →
        ∃ image slot pruned, Strips data remove image slot pruned ∧ slot.InFile data ∧
          SameOutside slot data after ∧
          after.extract slot.start slot.stop = pruned.bytes ∧
          summary = ⟨pruned.removed, slot.size, pruned.size⟩ ∧
          summary.usedSize ≤ summary.slotSize ∧
          (image.Clear slot → ∃ other, parse after = .ok other ∧
            image.SameTables other ∧
            ∃ old new, image.exportsTrie >>= Trie.entries = .ok old ∧
              other.exportsTrie >>= Trie.entries = .ok new ∧
              new.Perm (old.filter fun entry => !remove entry.name)) := by
  have accepted : ∀ image slot pruned, Strips data remove image slot pruned →
      ∃ after, (stripInPlace remove).on data = (.ok (slot.summary pruned), after) := by
    intro image slot pruned strips
    exact ⟨_, strips.on_stripInPlace⟩
  rcases on_stripInPlace_cases data remove with
      ⟨error, refused⟩ | ⟨image, slot, pruned, strips⟩
  · refine ⟨?_, accepted, ?_⟩
    · intro other after ran
      cases refused.symm.trans ran
      rfl
    · intro summary after ran
      cases refused.symm.trans ran
  · refine ⟨?_, accepted, ?_⟩
    · intro other after ran
      cases strips.on_stripInPlace.symm.trans ran
    · intro summary after ran
      rcases Prod.mk.inj (strips.on_stripInPlace.symm.trans ran) with ⟨success, left⟩
      cases success
      rcases strips.rewritten left.symm with ⟨same, held⟩
      rcases strips.keeps with ⟨all, -, keeps⟩
      refine ⟨image, slot, pruned, strips, strips.inFile, same, held, rfl, ?_,
        strips.reread same held⟩
      exact keeps.size_le.trans strips.size_bytesIn.le

/-- An image for 64-bit ARM with a single load command, which says that the export trie
lies in the last 32 of 80 bytes. The trie has two names. -/
def tinyImage : Bytes :=
  (Header.encode .bits64 { Header.empty with commandCount := 1, commandSize := 16 } ++
    DataCommand.encode { DataCommand.empty with
      dataOffset := 48, dataSize := 32 }).toArray ++
    Trie.twoNames

/-- What the image is parsed as. -/
def parsedTinyImage : Image where
  data := tinyImage
  width := .bits64
  header := { Header.empty with commandCount := 1, commandSize := 16 }
  commands :=
    [⟨32, 16, .exportsTrie { DataCommand.empty with dataOffset := 48, dataSize := 32 }⟩]

theorem strip_rewrites_slot_tinyImage :
    ∃ summary after other, (stripInPlace (· = [97])).on tinyImage =
      (.ok summary, after) ∧
      SameOutside ⟨48, 80⟩ tinyImage after ∧ summary.removed = 1 ∧
      parse after = .ok other ∧
      other.exportsTrie >>= Trie.entries = .ok [⟨[98], [9]⟩] := by
  have parsed : parse tinyImage = .ok parsedTinyImage := by decide +kernel
  have located : parsedTinyImage.exportsRange? = .ok (some ⟨48, 80⟩) := by
    decide +kernel
  have held : parsedTinyImage.bytesIn ⟨48, 80⟩ = Trie.twoNames := by decide +kernel
  have room : ∃ pruned, Trie.prune Trie.twoNames (· = [97]) = .ok pruned := by
    apply Trie.exists_prune_of_room Trie.entries_twoNames (by decide) (by decide)
    intro tree built
    cases built
    decide
  have clear : parsedTinyImage.Clear ⟨48, 80⟩ :=
    ⟨Range.apart_of_le (by decide),
      List.forall_mem_singleton.mpr (Range.apart_of_le (by decide))⟩
  rcases room with ⟨pruned, removed⟩
  have strips : Strips tinyImage (· = [97]) parsedTinyImage ⟨48, 80⟩ pruned :=
    ⟨parsed, located, held ▸ removed⟩
  rcases strip_rewrites_slot tinyImage (· = [97]) with ⟨-, -, rewrites⟩
  rcases rewrites _ _ strips.on_stripInPlace with
      ⟨image, slot, result, found, -, same, -, -, -, reread⟩
  cases parsed.symm.trans found.parsed
  cases located.symm.trans found.located
  rcases reread clear with ⟨other, otherParsed, -, old, new, oldRead, newRead, perm⟩
  rw [exportsTrie_of_exportsRange? located, ok_bind, held, Trie.entries_twoNames]
    at oldRead
  cases oldRead
  refine ⟨_, _, other, strips.on_stripInPlace, same, ?_, otherParsed, ?_⟩
  · rcases strips.keeps with ⟨all, read, keeps⟩
    rw [held, Trie.entries_twoNames] at read
    cases read
    exact keeps.removed_eq
  · rw [newRead, List.perm_singleton.mp perm]

end Linkedit.Image

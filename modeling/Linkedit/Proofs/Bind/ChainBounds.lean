import Linkedit.Proofs.Bind.Alike
import Linkedit.Proofs.Bind.Budget
import Linkedit.Proofs.Bind.Chain
import Linkedit.Proofs.Bind.Justified
import Linkedit.Proofs.Bytes

/-!
# The bounds of a pointer chain

A chain goes on to higher offsets only, in one page of its segment, so it comes to an
end after few links. What it reads lies in the file content of its segment. An image
matters to a program for these words alone.
-/

namespace Linkedit.Bind

variable {program : Program} {segment : Segment} {index offset : Nat}
  {entries : Array Target}

/-! ## The places that a walk comes to -/

/-- Places that ascend in the page of `offset` and in the segment, and are so few that
they have room behind `offset`. -/
structure StaysInPage (segment : Segment) (offset : Nat) (places : List Nat) :
    Prop where
  ascending : places.Pairwise (· < ·)
  behind : ∀ place ∈ places, offset ≤ place
  inPage : ∀ place ∈ places, place / chainPage = offset / chainPage
  inSegment : ∀ place ∈ places, place < segment.size.toNat
  room : chainStride * places.length < chainPage - offset % chainPage + chainStride

namespace StaysInPage

theorem singleton (inside : offset < segment.size.toNat) :
    StaysInPage segment offset [offset] where
  ascending := List.pairwise_singleton _ _
  behind := by simp
  inPage := by simp
  inSegment := by simpa using inside
  room := by
    have inPage := Nat.mod_lt offset (show 0 < chainPage by decide)
    simp only [List.length_singleton]
    omega

theorem cons {next : Nat} {places : List Nat} (stays : StaysInPage segment next places)
    (inside : offset < segment.size.toNat) (further : offset + chainStride ≤ next)
    (samePage : next / chainPage = offset / chainPage) :
    StaysInPage segment offset (offset :: places) where
  ascending := by
    apply List.pairwise_cons.mpr
    refine ⟨?_, stays.ascending⟩
    intro place member
    have behind := stays.behind place member
    simp only [chainStride] at further
    omega
  behind := by
    intro place member
    rcases List.mem_cons.mp member with rfl | later
    · exact Nat.le_refl _
    · have behind := stays.behind place later
      omega
  inPage := by
    intro place member
    rcases List.mem_cons.mp member with rfl | later
    · rfl
    · exact (stays.inPage place later).trans samePage
  inSegment := by
    intro place member
    rcases List.mem_cons.mp member with rfl | later
    · exact inside
    · exact stays.inSegment place later
  room := by
    have room := stays.room
    simp only [List.length_cons, chainStride, chainPage] at *
    omega

/-- A page has room for 2048 links, wherever in it a chain begins. -/
theorem length_le {places : List Nat} (stays : StaysInPage segment offset places) :
    places.length ≤ 2048 := by
  have room := stays.room
  simp only [chainStride, chainPage] at room
  omega

end StaysInPage

/-- The next place of a walk lies at least one slot further on: a distance that does not
fit in 64 bits leads to the last offset there is, which lies in no segment. -/
theorem le_chainOffset {links bound : Nat} (inBounds : bound < UInt64.size)
    (inSegment : chainOffset offset (links * chainStride) < bound)
    (nonzero : links ≠ 0) :
    offset + chainStride ≤ chainOffset offset (links * chainStride) := by
  simp only [chainOffset, chainStride, UInt64.size] at *
  omega

/-- A walk from a place in the segment stays in the segment and in one page. -/
theorem staysInPage_chainPlaces (inside : offset < segment.size.toNat) :
    StaysInPage segment offset (chainPlaces program segment offset) := by
  fun_induction chainPlaces program segment offset with
  | case1 offset ih =>
      split
      next content =>
        split
        next => exact .singleton inside
        next raw word =>
          dsimp only
          split
          next => exact .singleton inside
          next more =>
            split
            next samePage =>
              split
              next inSegment =>
                have stays := ih raw more samePage inSegment inSegment
                apply stays.cons inside ?_ samePage
                exact le_chainOffset segment.size.toNat_lt_size inSegment more
              next => exact .singleton inside
            next => exact .singleton inside
      next => exact .singleton inside

/-! ## What a walk reads -/

/-- The word of a link lies in the file content of its segment and in the image. -/
structure Link.ReadIn (program : Program) (segment : Segment) (link : Link) : Prop where
  word : program.image.word64? (segment.fileOffset.toNat + link.offset) =
    some link.pointer.raw
  inContent : link.offset + 8 ≤ segment.fileSize.toNat
  inImage : segment.fileOffset.toNat + link.offset + 8 ≤ program.image.size

/-- In an image that has fewer than `2 ^ 64` bytes, no offset of a word is cut off. -/
theorem inContent_of_inImage (small : program.image.size < 2 ^ 64)
    (content : chainOffset offset chainStride ≤ segment.fileSize.toNat)
    (inImage : segment.fileOffset.toNat + offset + 8 ≤ program.image.size) :
    offset + 8 ≤ segment.fileSize.toNat := by
  simp only [chainOffset, chainStride, UInt64.size] at content
  omega

theorem readIn_of_mem_chainLinks (small : program.image.size < 2 ^ 64) :
    ∀ link ∈ chainLinks program segment offset, link.ReadIn program segment := by
  fun_induction chainLinks program segment offset with
  | case1 => simp
  | case2 offset content raw word pointer next ih =>
      intro link member
      rcases List.mem_cons.mp member with rfl | later
      · have inImage := word64?_bounds word
        exact ⟨word, inContent_of_inImage small content inImage, inImage⟩
      · split at later
        next => cases later
        next more =>
          split at later
          next samePage =>
            split at later
            next inSegment => exact ih more samePage inSegment link later
            next => cases later
          next => cases later
  | case3 => simp

/-! ## What a walk gives -/

/-- The slot that a link binds: it asks for a bind, and its index is in the table. -/
def Link.slot? (index : Nat) (segment : Segment) (entries : Array Target)
    (link : Link) :
    Option Slot :=
  if link.pointer.raw.toNat.testBit 62 then
    entries[link.pointer.index]?.map fun target =>
      ⟨index, segment, UInt64.ofNat link.offset, target, some link.pointer.raw⟩
  else none

/-- Whether a link asks for a bind with an index that is not in a table of so many
entries. -/
def Link.isOutside (size : Nat) (link : Link) : Bool :=
  link.pointer.raw.toNat.testBit 62 && size ≤ link.pointer.index

/-- The problem of a link whose index is not in the table. -/
def Link.outside (size : Nat) (link : Link) : Problem :=
  .indexOutsideTable link.offset link.pointer.index size

theorem slots_linkEvents (link : Link) :
    (linkEvents index segment entries link.offset link.pointer).flatMap Event.slots =
      (link.slot? index segment entries).toList := by
  rw [linkEvents, Link.slot?, isBind_eq_testBit]
  split
  next =>
    cases entries[link.pointer.index]? <;> rfl
  next => rfl

theorem problems_linkEvents (position : Nat) (link : Link) :
    (linkEvents index segment entries link.offset link.pointer).filterMap
        (Event.diagnostic? position) =
      if link.isOutside entries.size then
        [⟨position, link.outside entries.size⟩] else [] := by
  rw [linkEvents, Link.isOutside, isBind_eq_testBit]
  split
  next isBind =>
    cases found : entries[link.pointer.index]? with
    | none =>
        simp [isBind, Array.getElem?_eq_none_iff.mp found, Event.diagnostic?,
          Link.outside]
    | some target =>
        have inside := (Array.getElem?_eq_some_iff.mp found).1
        simp [isBind, Nat.not_le.mpr inside, Event.diagnostic?]
  next notBind => simp [notBind]

theorem isSome_slot? (index : Nat) (segment : Segment) (entries : Array Target)
    (link : Link) : (link.slot? index segment entries).isSome =
      (link.pointer.raw.toNat.testBit 62 && link.pointer.index < entries.size) := by
  rw [Link.slot?]
  split
  next isBind =>
    rw [Bool.eq_iff_iff]
    simp [isBind]
  next notBind => simp [notBind]

/-- The slots that some links bind, in order. -/
theorem slots_links (links : List Link) :
    (links.flatMap fun link =>
        linkEvents index segment entries link.offset link.pointer).flatMap Event.slots =
      links.filterMap (Link.slot? index segment entries) := by
  induction links with
  | nil => rfl
  | cons link links ih =>
      rw [List.flatMap_cons, List.flatMap_append, slots_linkEvents, ih,
        List.filterMap_cons]
      cases link.slot? index segment entries <;> rfl

/-- The problems of some links, in order. -/
theorem problems_links (position : Nat) (links : List Link) :
    (links.flatMap fun link =>
        linkEvents index segment entries link.offset link.pointer).filterMap
        (Event.diagnostic? position) =
      (links.filter (Link.isOutside entries.size)).map fun link =>
        ⟨position, link.outside entries.size⟩ := by
  induction links with
  | nil => rfl
  | cons link links ih =>
      rw [List.flatMap_cons, List.filterMap_append, problems_linkEvents, ih,
        List.filter_cons]
      split <;> rfl

/-- What a step visits, reads and gives that walks the chain of a slot. -/
structure WalksFrom (program : Program) (step : Step) (index : Nat) (segment : Segment)
    (entries : Array Target) (places : List Nat) (links : List Link) : Prop where
  ascending : places.Pairwise (· < ·)
  inPage : ∀ place ∈ places, place / chainPage = step.before.offset.toNat / chainPage
  inSegment : ∀ place ∈ places, place < segment.size.toNat
  few : places.length ≤ 2048
  reads : ∀ link ∈ links, link.ReadIn program segment
  records : step.records program =
    (links.filterMap (Link.slot? index segment entries)).map
      (Slot.record program.libraries)
  count : (step.records program).length = links.countP fun link =>
    link.pointer.raw.toNat.testBit 62 && link.pointer.index < entries.size
  diagnostics : ∃ ending : Option Problem,
    (∀ problem ∈ ending, problem.endsChain = true) ∧
    places = links.map (·.offset) ++ (ending.bind Problem.unread?).toList ∧
    step.diagnostics program =
      (links.filter (Link.isOutside entries.size)).map
          (fun link => ⟨step.offset, link.outside entries.size⟩) ++
        (ending.map (Diagnostic.mk step.offset)).toList

theorem walksFrom_of_applyChain (small : program.image.size < 2 ^ 64) {step : Step}
    {table : OrdinalTable} (applies : step.decoded = .ok .applyChain)
    (width : program.width = .bits64) (held : step.before.table = some table)
    (located : locate program step.before = .ok (index, segment)) :
    WalksFrom program step index segment table.entries
      (chainPlaces program segment step.before.offset.toNat)
      (chainLinks program segment step.before.offset.toNat) := by
  have inside := UInt64.lt_iff_toNat_lt.mp (locate_eq_ok located).2
  have stays : StaysInPage segment step.before.offset.toNat
      (chainPlaces program segment step.before.offset.toNat) :=
        staysInPage_chainPlaces inside
  have events : step.events program =
      walkChain program index segment table.entries step.before.offset.toNat := by
    rw [Step.events, applies]
    dsimp only
    rw [execute, applyChain, width, held, located]
    rfl
  rcases walkChain_eq program index segment table.entries step.before.offset.toNat with
    ⟨ending, walk, places, ends⟩
  rw [walk] at events
  have records : step.records program =
      ((chainLinks program segment step.before.offset.toNat).filterMap
        (Link.slot? index segment table.entries)).map
          (Slot.record program.libraries) := by
    have noSlots : (ending.map Event.problem).toList.flatMap Event.slots = [] := by
      cases ending <;> rfl
    rw [Step.records, ← List.map_flatMap, events, List.flatMap_append, slots_links,
      noSlots, List.append_nil]
  constructor
  case ascending => exact stays.ascending
  case inPage => exact stays.inPage
  case inSegment => exact stays.inSegment
  case few => exact stays.length_le
  case reads => exact readIn_of_mem_chainLinks small
  case records => exact records
  case count =>
    rw [records, List.length_map, List.length_filterMap_eq_countP]
    simp only [isSome_slot?]
  case diagnostics =>
    refine ⟨ending, ends, places, ?_⟩
    rw [Step.diagnostics, events, List.filterMap_append, problems_links]
    cases ending <;> rfl

/-- Without a table, or a slot in a segment of 64-bit pointers, no chain is walked. -/
theorem exists_problem_of_applyChain {step : Step}
    (applies : step.decoded = .ok .applyChain)
    (stuck : program.width = .bits32 ∨ step.before.table = none ∨
      ∃ problem, locate program step.before = .error problem) :
    ∃ problem, step.events program = [.problem problem] := by
  rw [Step.events, applies]
  dsimp only
  rw [execute, applyChain]
  split
  next => exact ⟨_, rfl⟩
  next => exact ⟨_, rfl⟩
  next table width held =>
    rcases stuck with narrow | noTable | ⟨problem, notLocated⟩
    · cases width.symm.trans narrow
    · cases held.symm.trans noTable
    · exact ⟨problem, by rw [notLocated]; rfl⟩

/-! ## Images -/

/-- Two images of one size have the same bytes in the file content of some segments. -/
structure SameContent (segments : List Segment) (left right : Bytes) : Prop where
  size_eq : right.size = left.size
  getElem?_eq : ∀ segment ∈ segments, ∀ position, segment.fileOffset.toNat ≤ position →
    position < segment.fileOffset.toNat + segment.fileSize.toNat →
    right[position]? = left[position]?

theorem SameContent.alike {image : Bytes}
    (same : SameContent program.segments program.image image)
    (small : program.image.size < 2 ^ 64) : Alike program { program with image } where
  libraries := rfl
  segments := rfl
  width := rfl
  words := by
    intro segment isSegment offset content
    rw [Bytes.word64?, Bytes.word64?, Bytes.number?, Bytes.number?, same.size_eq]
    split
    next inImage =>
      have inContent := inContent_of_inImage small content inImage
      have words : image.extract (segment.fileOffset.toNat + offset)
          (segment.fileOffset.toNat + offset + 8) =
          program.image.extract (segment.fileOffset.toNat + offset)
            (segment.fileOffset.toNat + offset + 8) := by
        apply Bytes.extract_congr same.size_eq
        intro position start stop
        apply same.getElem?_eq segment isSegment
        · omega
        · omega
      rw [Bytes.slice, Bytes.slice, words]
    next => rfl

/-- A pointer chain stays in the segment that it starts in. It ends since its places
ascend within one page, and it leaves the registers and the table for the next chain.
The image matters only where it is the content of a segment. -/
theorem chain_stays_in_segment (program : Program)
    (small : program.image.size < 2 ^ 64) :
    (∀ step : Step, step.decoded = .ok .applyChain →
      step.after program = step.before ∧
      (∀ index segment table, program.width = .bits64 → step.before.table = some table →
        locate program step.before = .ok (index, segment) →
        WalksFrom program step index segment table.entries
          (chainPlaces program segment step.before.offset.toNat)
          (chainLinks program segment step.before.offset.toNat)) ∧
      (program.width = .bits32 ∨ step.before.table = none ∨
          (∃ problem, locate program step.before = .error problem) →
        ∃ problem, step.events program = [.problem problem])) ∧
    ∀ image, SameContent program.segments program.image image →
      ∀ memory limit,
        interpret memory { program with image } limit =
          interpret memory program limit := by
  constructor
  · intro step applies
    refine ⟨?_, ?_, exists_problem_of_applyChain applies⟩
    · rw [Step.after, applies]
      rfl
    · intro index segment table width held located
      exact walksFrom_of_applyChain small applies width held located
  · intro image same memory limit
    exact (same.alike small).interpret_eq rfl memory limit

/-- A segment whose file content holds a chain of three links, from an offset that is no
multiple of eight: a bind, a rebase, and a bind with an index that is not in the
table. -/
def threeLinks : Program where
  opcodes := #[0xD0, 1, 0x11, 0x40, 95, 97, 0, 0x90, 0x70, 1, 0xD1, 0x00]
  libraries := ["/usr/lib/libSystem.B.dylib"]
  segments := [⟨"__DATA", 4096, 32, 2, 25, []⟩]
  width := .bits64
  image :=
    #[9, 9, 9] ++ #[0, 0, 0, 0, 0, 0, 0x08, 0x40] ++ #[0, 0, 0, 0, 0, 0, 0x08, 0] ++
      #[7, 0, 0, 0, 0, 0, 0, 0x40] ++ #[9]

/-- The image of `threeLinks` with other bytes around the content of the segment. -/
def threeLinksElsewhere : Bytes :=
  #[5, 6, 9] ++ #[0, 0, 0, 0, 0, 0, 0x08, 0x40] ++ #[0, 0, 0, 0, 0, 0, 0x08, 0] ++
    #[7, 0, 0, 0, 0, 0, 0, 0x40] ++ #[8]

theorem chain_stays_in_segment_threeLinks :
    threeLinks.image.size < 2 ^ 64 ∧
      (∃ step segment entries, step.decoded = .ok .applyChain ∧
        locate threeLinks step.before = .ok (0, segment) ∧
        chainPlaces threeLinks segment 1 = [1, 9, 17] ∧
        (step.records threeLinks).length = 1 ∧
        WalksFrom threeLinks step 0 segment entries (chainPlaces threeLinks segment 1)
          (chainLinks threeLinks segment 1)) ∧
      SameContent threeLinks.segments threeLinks.image threeLinksElsewhere ∧
      interpret .ofProcess { threeLinks with image := threeLinksElsewhere } 20 =
        interpret .ofProcess threeLinks 20 := by
  have small : threeLinks.image.size < 2 ^ 64 := by decide
  obtain ⟨chains, images⟩ := chain_stays_in_segment threeLinks small
  let step := threeLinks.trace.get ⟨5, by decide +kernel⟩
  have applies : step.decoded = .ok .applyChain := by decide +kernel
  have held : step.before.table = some ⟨1, #[⟨⟨[95, 97], false⟩, 1, 0, .pointer⟩]⟩ := by
    decide +kernel
  have located : locate threeLinks step.before =
      .ok (0, ⟨"__DATA", 4096, 32, 2, 25, []⟩) := by
    decide +kernel
  have start : step.before.offset.toNat = 1 := by decide +kernel
  have walks := (chains step applies).2.1 0 _ _ rfl held located
  rw [start] at walks
  have content : ∀ position < 27, 2 ≤ position →
      threeLinksElsewhere[position]? = threeLinks.image[position]? := by decide
  have same : SameContent threeLinks.segments threeLinks.image threeLinksElsewhere := by
    constructor
    · decide
    · intro segment isSegment position start stop
      cases List.mem_singleton.mp isSegment
      exact content position stop start
  refine ⟨small,
    ⟨step, _, _, applies, located, by decide +kernel, by decide +kernel, walks⟩,
    same, images _ same .ofProcess 20⟩

end Linkedit.Bind

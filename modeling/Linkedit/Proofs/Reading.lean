import Linkedit.Reading
import Linkedit.Proofs.Cursor

/-!
# Reads of one cursor

A read in place either fails and leaves the cursor where it was, or passes over some
bytes of the data, at least one, and gives what these bytes say. So whatever is asked
for one after the other, also after failures, the cursor goes forward over bytes of the
data alone.
-/

namespace Linkedit.Reading

variable {α β : Type} {cursor : Cursor}

/-! ## Running reads -/

@[simp] theorem on_pure (value : α) :
    (pure value : Reading α).on cursor = (.ok value, cursor) :=
  rfl

@[simp] theorem on_throw (error : Error) :
    (throw error : Reading α).on cursor = (.error error, cursor) := rfl

@[simp] theorem on_get : (get : Reading Cursor).on cursor = (.ok cursor, cursor) := rfl

@[simp] theorem on_moveTo (position : Nat) :
    (moveTo position).on cursor = (.ok (), { cursor with position }) := rfl

/-- A computation that does not know the cursor leaves it where it is. -/
@[simp] theorem on_lift (attempt : Except Error α) :
    (liftM attempt : Reading α).on cursor = (attempt, cursor) := rfl

theorem on_bind (first : Reading α) (next : α → Reading β) :
    (first >>= next).on cursor =
      match first.on cursor with
      | (.ok value, middle) => (next value).on middle
      | (.error error, middle) => (.error error, middle) := by
  simp only [on, ExceptT.run_bind, StateT.run_bind]
  rcases StateT.run (ExceptT.run first) cursor with ⟨outcome, middle⟩
  cases outcome <;> rfl

/-! ## Reads that fail change nothing -/

/-- A read in place does what a read from the cursor does. Where that fails, the cursor
stays. -/
def Agrees (reading : Reading α) (read : Cursor → Except Error (α × Cursor)) : Prop :=
  ∀ cursor, reading.on cursor =
    match read cursor with
    | .ok (value, next) => (.ok value, next)
    | .error error => (.error error, cursor)

theorem agrees_byte : Agrees byte Cursor.byte := by
  intro cursor
  rw [byte, on_bind, on_get, Cursor.byte]
  cases found : cursor.data[cursor.position]? with
  | some value => simp only [on_bind, on_moveTo, on_pure, found]
  | none => simp only [on_throw, found]

theorem agrees_unsigned : Agrees unsigned Cursor.unsigned := by
  intro cursor
  rw [unsigned, on_bind, on_get, Cursor.unsigned]
  cases decoded : Leb128.decodeUnsigned cursor.data cursor.position with
  | ok found => simp only [on_bind, on_lift, on_moveTo, on_pure, decoded]
  | error error => simp only [on_bind, on_lift, decoded]

theorem agrees_signed : Agrees signed Cursor.signed := by
  intro cursor
  rw [signed, on_bind, on_get, Cursor.signed]
  cases decoded : Leb128.decodeSigned cursor.data cursor.position with
  | ok found => simp only [on_bind, on_lift, on_moveTo, on_pure, decoded]
  | error error => simp only [on_bind, on_lift, decoded]

theorem agrees_text : Agrees text Cursor.text := by
  intro cursor
  rw [text, on_bind, on_get, Cursor.text]
  cases found : cursor.data.zeroFrom? cursor.position with
  | some stop => simp only [on_bind, on_moveTo, on_pure, found]
  | none => simp only [on_throw, found]

theorem Agrees.map {reading : Reading α} {read : Cursor → Except Error (α × Cursor)}
    (agrees : Agrees reading read) (image : α → β) :
    Agrees (do return image (← reading))
      fun cursor => (read cursor).map fun (value, next) => (image value, next) := by
  intro cursor
  rw [on_bind, agrees]
  dsimp only
  cases read cursor with
  | ok found => simp only [map_ok, on_pure]
  | error error => simp only [map_error]

theorem agrees_ofField (field : Cursor.Field) :
    Agrees (ofField field) (·.read field) := by
  cases field with
  | byte => exact agrees_byte.map _
  | unsigned => exact agrees_unsigned.map _
  | signed => exact agrees_signed.map _
  | text => exact agrees_text.map _

section Fields

variable {next : Cursor} {field : Cursor.Field} {value : Cursor.Value} {error : Error}

theorem on_ofField_of_ok (read : cursor.read field = .ok (value, next)) :
    (ofField field).on cursor = (.ok value, next) := by
  rw [agrees_ofField]
  simp only [read]

theorem on_ofField_of_error (failed : cursor.read field = .error error) :
    (ofField field).on cursor = (.error error, cursor) := by
  rw [agrees_ofField]
  simp only [failed]

/-- Reads that keep their cursor after failures are reads in place. -/
theorem readEach_cons (cursor : Cursor) (field : Cursor.Field)
    (fields : List Cursor.Field) :
    cursor.readEach (field :: fields) =
      (ofField field).on cursor :: ((ofField field).on cursor).2.readEach fields := by
  rw [Cursor.readEach]
  cases read : cursor.read field with
  | ok found => rw [on_ofField_of_ok read]
  | error error => rw [on_ofField_of_error read]

end Fields

/-! ## Reads that succeed -/

theorem advances_of_map {attempt : Except Error (α × Cursor)}
    {image : α → β} {value : β} {next : Cursor}
    (advances : ∀ value next, attempt = .ok (value, next) → cursor.Advances next)
    (read : (attempt.map fun (value, next) => (image value, next)) =
      .ok (value, next)) :
    cursor.Advances next := by
  rcases map_eq_ok.mp read with ⟨⟨found, next⟩, first, same⟩
  cases same
  exact advances found next first

theorem read_advances {next : Cursor} {field : Cursor.Field} {value : Cursor.Value}
    (read : cursor.read field = .ok (value, next)) : cursor.Advances next := by
  cases field with
  | byte => exact advances_of_map (fun _ _ => Cursor.byte_advances) read
  | unsigned => exact advances_of_map (fun _ _ => Cursor.unsigned_advances) read
  | signed => exact advances_of_map (fun _ _ => Cursor.signed_advances) read
  | text => exact advances_of_map (fun _ _ => Cursor.text_advances) read

theorem local_read (field : Cursor.Field) : Cursor.Local (·.read field) := by
  cases field with
  | byte => exact Cursor.local_byte.map _
  | unsigned => exact Cursor.local_unsigned.map _
  | signed => exact Cursor.local_signed.map _
  | text => exact Cursor.local_text.map _

/-- A text is the bytes up to the first zero byte. -/
theorem read_text_eq_ok {data : Bytes} {start : Nat} {value : Cursor.Value}
    {next : Cursor} :
    (Cursor.mk data start).read .text = .ok (value, next) ↔
      ∃ stop, data.FirstZero start stop ∧ value = .text (data.slice start stop) ∧
        next = ⟨data, stop + 1⟩ := by
  rw [Cursor.read, Cursor.text]
  cases found : data.zeroFrom? start with
  | none =>
      simp only [map_error, reduceCtorEq, false_iff]
      rintro ⟨stop, first, -⟩
      rw [first.zeroFrom?_eq] at found
      cases found
  | some stop =>
      have isFirst := Bytes.firstZero_of_zeroFrom? found
      simp only [map_ok, Except.ok.injEq, Prod.mk.injEq]
      constructor
      · rintro ⟨rfl, rfl⟩
        exact ⟨stop, isFirst, rfl, rfl⟩
      · rintro ⟨other, first, rfl, rfl⟩
        cases first.unique isFirst
        exact ⟨rfl, rfl⟩

/-! ## Reads one after the other -/

/-- What one read does to a cursor of the data. -/
structure Taken.Sound (data : Bytes) (taken : Taken) : Prop where
  /-- A read that fails leaves the cursor where it was. -/
  stays : ∀ error, taken.answer = .error error → taken.stop = taken.start
  /-- A read that succeeds goes on, and not past the end. -/
  advances : ∀ value, taken.answer = .ok value →
    taken.start < taken.stop ∧ taken.stop ≤ data.size
  /-- What is read depends on the bytes alone that the cursor passes over. -/
  confined : ∀ value, taken.answer = .ok value → ∀ (other : Bytes) (place : Nat),
    other.HoldsAt place (data.slice taken.start taken.stop) →
      (ofField taken.field).on ⟨other, place⟩ =
        (.ok value, ⟨other, place + (taken.stop - taken.start)⟩)
  /-- A text is what lies before the first zero byte, and the cursor stops just past
  it. -/
  text : taken.field = .text → ∀ value, taken.answer = .ok value ↔
    ∃ stop, data.FirstZero taken.start stop ∧
      value = .text (data.slice taken.start stop) ∧
      taken.stop = stop + 1

/-- Reads of one cursor, each from where the one before left it, between two
positions. -/
inductive Run (data : Bytes) : Nat → List Taken → Nat → Prop where
  | done {position : Nat} : Run data position [] position
  | read {taken : Taken} {later : List Taken} {stop : Nat} (sound : taken.Sound data)
      (rest : Run data taken.stop later stop) :
        Run data taken.start (taken :: later) stop

theorem each_cons (field : Cursor.Field) (fields : List Cursor.Field)
    (cursor : Cursor) :
    (each (field :: fields)).run cursor =
      let (answer, next) := (ofField field).on cursor
      let (later, last) := (each fields).run next
      (⟨field, cursor.position, answer, next.position⟩ :: later, last) := rfl

/-- One read moves the cursor over some bytes, or fails and leaves it. -/
theorem exists_sound (data : Bytes) (start : Nat) (field : Cursor.Field) :
    ∃ answer stop, (ofField field).on ⟨data, start⟩ = (answer, ⟨data, stop⟩) ∧
      Taken.Sound data ⟨field, start, answer, stop⟩ := by
  cases read : (Cursor.mk data start).read field with
  | error error =>
      refine ⟨.error error, start, on_ofField_of_error read, fun _ _ => rfl, ?_, ?_, ?_⟩
      · rintro value ⟨⟩
      · rintro value ⟨⟩
      · rintro rfl value
        simp only [reduceCtorEq, false_iff]
        rintro ⟨stop, first, same, -⟩
        cases read.symm.trans (read_text_eq_ok.mpr ⟨stop, first, same, rfl⟩)
  | ok found =>
      rcases found with ⟨value, ⟨sameData, stop⟩⟩
      have advances := read_advances read
      cases advances.data_eq
      refine ⟨.ok value, stop, on_ofField_of_ok read, ?_, ?_, ?_, ?_⟩
      · rintro error ⟨⟩
      · rintro value ⟨⟩
        exact ⟨advances.position_lt, advances.position_le⟩
      · rintro value ⟨⟩ other place holds
        have length := @Bytes.length_slice data start stop advances.position_le
        have again := (local_read field).elsewhere read holds
        rw [Cursor.between, length] at again
        exact on_ofField_of_ok again
      · rintro rfl text
        rcases read_text_eq_ok.mp read with ⟨first, isFirst, rfl, same⟩
        cases same
        constructor
        · rintro ⟨⟩
          exact ⟨first, isFirst, rfl, rfl⟩
        · rintro ⟨other, otherFirst, rfl, -⟩
          rw [isFirst.unique otherFirst]

theorem Run.bounds {data : Bytes} {start stop : Nat} {takens : List Taken}
    (run : Run data start takens stop) : start ≤ stop ∧ stop ≤ max start data.size := by
  induction run with
  | done => exact ⟨Nat.le_refl _, Nat.le_max_left _ _⟩
  | @read taken later stop sound rest ih =>
      cases answer : taken.answer with
      | error error =>
          rwa [sound.stays error answer] at ih
      | ok value =>
          have advances := sound.advances value answer
          omega

/-- Whatever is read from one cursor, the reads are those of a cursor that stays after
failures. Each read that fails leaves the cursor where it was. Each that succeeds passes
over bytes of the data, at least one, and what it gives depends on these alone. A text
is what lies before the first zero byte, just past which the cursor stops. -/
theorem reads_atomic (data : Bytes) (start : Nat) (fields : List Cursor.Field) :
    ∃ takens stop, (each fields).run ⟨data, start⟩ = (takens, ⟨data, stop⟩) ∧
      takens.map (·.field) = fields ∧
      takens.map (fun taken => (taken.answer, Cursor.mk data taken.stop)) =
        (Cursor.mk data start).readEach fields ∧
      Run data start takens stop ∧ start ≤ stop ∧ stop ≤ max start data.size := by
  induction fields generalizing start with
  | nil => exact ⟨[], start, rfl, rfl, rfl, .done, Nat.le_refl _, Nat.le_max_left _ _⟩
  | cons field fields ih =>
      rcases exists_sound data start field with ⟨answer, middle, read, sound⟩
      rcases ih middle with ⟨later, stop, reads, asked, same, rest, -⟩
      have run : Run data start _ stop := .read sound rest
      refine ⟨_, stop, ?_, ?_, ?_, run, run.bounds⟩
      · rw [each_cons, read]
        simp only [reads]
      · rw [List.map_cons, asked]
      · rw [List.map_cons, same, readEach_cons, read]

/-- A text without a zero byte behind it is asked for between other fields, and a byte
at the end. -/
theorem reads_atomic_mixed :
    let data : Bytes := #[0x05, 0x80, 0x01, 0x61, 0x62, 0x00, 0x7F, 0x78]
    let fields : List Cursor.Field :=
      [.byte, .unsigned, .text, .signed, .text, .byte, .byte]
    ∃ takens, (each fields).run ⟨data, 0⟩ = (takens, ⟨data, 8⟩) ∧ Run data 0 takens 8 ∧
      takens.map (fun taken => (taken.answer, taken.stop)) =
        [(.ok (.byte 5), 1), (.ok (.unsigned 128), 3), (.ok (.text [0x61, 0x62]), 6),
          (.ok (.signed (-1)), 7), (.error (.parse 7 .unterminatedString), 7),
          (.ok (.byte 0x78), 8), (.error (.truncated 8), 8)] := by
  intro data fields
  have last : ((each fields).run ⟨data, 0⟩).2 = ⟨data, 8⟩ := by decide +kernel
  have answers : ((Cursor.mk data 0).readEach fields).map
      (fun answer => (answer.1, answer.2.position)) =
        [(.ok (.byte 5), 1), (.ok (.unsigned 128), 3), (.ok (.text [0x61, 0x62]), 6),
          (.ok (.signed (-1)), 7), (.error (.parse 7 .unterminatedString), 7),
          (.ok (.byte 0x78), 8), (.error (.truncated 8), 8)] := by
    decide +kernel
  obtain ⟨takens, stop, ran, -, same, run, -⟩ := reads_atomic data 0 fields
  rw [ran] at last
  cases last
  refine ⟨takens, ran, run, ?_⟩
  rw [← answers, ← same, List.map_map]
  rfl

end Linkedit.Reading

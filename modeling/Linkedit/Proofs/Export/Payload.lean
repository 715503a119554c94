import Linkedit.Export.Payload
import Linkedit.Proofs.Cursor
import Mathlib.Data.List.TakeWhile

/-!
# Payload round trip

A payload does not keep everything of an export: a re-export has no address, an
imported name ends at its first zero byte, and one that repeats the name of the
export is not written. What it keeps is the normal form of the export, and that
is read back wherever the payload lies. As long as no zero byte cuts the imported
name short, the normal form has the same payload and is its own normal form.
-/

namespace Linkedit.Export

/-- The part of the written import name that is read back. -/
def readImportName (symbol : Export) : Name :=
  symbol.writtenImportName.takeWhile (· ≠ 0)

/-- An export with only what its payload keeps. -/
def normal (symbol : Export) : Export :=
  if symbol.isReexport then
    { name := symbol.name, flags := symbol.flags, other := symbol.other,
      importName := if symbol.readImportName.isEmpty then none
        else some symbol.readImportName }
  else
    { name := symbol.name, flags := symbol.flags, address := symbol.address,
      other := if symbol.hasResolver then symbol.other else 0 }

theorem encodePayload_ne_nil (symbol : Export) : symbol.encodePayload ≠ [] := by
  simp [encodePayload, Leb128.encodeUnsigned_ne_nil]

/-- A written text begins with its part before the first zero byte. -/
theorem takeWhile_nonzero_begins (text : Name) :
    text.takeWhile (· ≠ 0) ++ [0] <+: text ++ [0] := by
  induction text with
  | nil => simp
  | cons byte text ih =>
      by_cases zero : byte = 0
      · simp [zero]
      · simpa [zero] using ih

variable {data : Bytes} {position : Nat}

theorem unsigned_of_holdsAt_word {value : UInt64}
    (holds : data.HoldsAt position (Leb128.encodeUnsigned value.toNat)) :
    (Cursor.mk data position).unsigned =
      .ok (value, ⟨data, position + Leb128.unsignedSize value.toNat⟩) := by
  rw [Cursor.unsigned_of_holdsAt value.toNat_lt holds, UInt64.ofNat_toNat]

/-- Reading a payload gives the normal form of the export it was written for. -/
theorem decodePayload_encodePayload {symbol : Export}
    (holds : data.HoldsAt position symbol.encodePayload) :
    decodePayload symbol.name data position = .ok symbol.normal := by
  rcases Bytes.holdsAt_append.mp holds with ⟨flags, fields⟩
  rw [Leb128.length_encodeUnsigned] at fields
  have sameKind : ({ name := symbol.name, flags := symbol.flags } : Export).isReexport =
      symbol.isReexport := rfl
  have sameResolver :
      ({ name := symbol.name, flags := symbol.flags } : Export).hasResolver =
        symbol.hasResolver := rfl
  simp only [decodePayload, unsigned_of_holdsAt_word flags, ok_bind, sameKind,
    sameResolver, normal]
  by_cases reexport : symbol.isReexport
  · rw [if_pos reexport, List.append_assoc] at fields
    rcases Bytes.holdsAt_append.mp fields with ⟨other, written⟩
    rw [Leb128.length_encodeUnsigned] at written
    have zeroFree : 0 ∉ symbol.readImportName := by
      intro member
      simpa using List.mem_takeWhile_imp member
    have kept := (takeWhile_nonzero_begins _).trans written
    rw [if_pos reexport, if_pos reexport]
    simp only [unsigned_of_holdsAt_word other, ok_bind,
      Cursor.text_of_holdsAt zeroFree kept]
    rfl
  · rw [if_neg reexport] at fields
    rcases Bytes.holdsAt_append.mp fields with ⟨address, resolver⟩
    rw [Leb128.length_encodeUnsigned] at resolver
    rw [if_neg reexport, if_neg reexport]
    simp only [unsigned_of_holdsAt_word address, ok_bind]
    by_cases resolved : symbol.hasResolver
    · rw [if_pos resolved] at resolver
      simp only [if_pos resolved, unsigned_of_holdsAt_word resolver, ok_bind]
      rfl
    · simp only [if_neg resolved]
      rfl

/-- What a payload decodes to has the name that it is read for. -/
theorem name_of_decodePayload {name : Name} {symbol : Export}
    (decoded : decodePayload name data position = .ok symbol) : symbol.name = name := by
  rw [decodePayload] at decoded
  rcases bind_eq_ok.mp decoded with ⟨⟨flags, afterFlags⟩, -, decoded⟩
  dsimp only at decoded
  split at decoded
  next =>
    rcases bind_eq_ok.mp decoded with ⟨other, -, decoded⟩
    rcases bind_eq_ok.mp decoded with ⟨importName, -, decoded⟩
    cases decoded
    rfl
  next =>
    rcases bind_eq_ok.mp decoded with ⟨⟨address, afterAddress⟩, -, decoded⟩
    dsimp only at decoded
    split at decoded
    next =>
      rcases bind_eq_ok.mp decoded with ⟨resolver, -, decoded⟩
      cases decoded
      rfl
    next =>
      cases decoded
      rfl

/-! ## Normal forms -/

/-- The name that a re-export is read back with: up to the first zero byte, and only if
it is not the name of the export. -/
def keptImportName? (symbol : Export) : Option Name :=
  match symbol.importName with
  | some name =>
      if name = symbol.name ∨ name.takeWhile (· ≠ 0) = [] then none
      else some (name.takeWhile (· ≠ 0))
  | none => none

theorem keptImportName?_eq (symbol : Export) :
    symbol.keptImportName? =
      if symbol.readImportName.isEmpty then none else some symbol.readImportName := by
  rw [keptImportName?, readImportName, writtenImportName]
  cases symbol.importName with
  | none => rfl
  | some name =>
      by_cases own : name = symbol.name
      · simp [own]
      · simp [own]

/-- The normal form in one piece, whatever the flags. -/
theorem normal_eq (symbol : Export) :
    symbol.normal =
      { name := symbol.name, flags := symbol.flags,
        address := if symbol.isReexport then 0 else symbol.address,
        other := if symbol.isReexport || symbol.hasResolver then symbol.other else 0,
        importName := if symbol.isReexport then symbol.keptImportName? else none } := by
  rw [normal, keptImportName?_eq]
  by_cases reexport : symbol.isReexport = true
  · simp [reexport]
  · simp [reexport]

@[simp] theorem name_normal (symbol : Export) : symbol.normal.name = symbol.name := by
  rw [normal_eq]

@[simp] theorem flags_normal (symbol : Export) :
    symbol.normal.flags = symbol.flags := by
  rw [normal_eq]

@[simp] theorem isReexport_normal (symbol : Export) :
    symbol.normal.isReexport = symbol.isReexport := by
  rw [isReexport, flags_normal, isReexport]

@[simp] theorem hasResolver_normal (symbol : Export) :
    symbol.normal.hasResolver = symbol.hasResolver := by
  rw [hasResolver, flags_normal, hasResolver]

/-- A name without zero bytes is written again as it was. -/
theorem writtenImportName_normal {symbol : Export} (reexport : symbol.isReexport = true)
    (zeroFree : ∀ name ∈ symbol.importName, 0 ∉ name) :
    symbol.normal.writtenImportName = symbol.writtenImportName := by
  rw [writtenImportName, writtenImportName, normal_eq]
  simp only [reexport, if_true, keptImportName?]
  cases imported : symbol.importName with
  | none => rfl
  | some name =>
      have whole : name.takeWhile (· ≠ 0) = name := by
        apply List.takeWhile_eq_self_iff.mpr
        intro byte member
        have nonzero : byte ≠ 0 := ne_of_mem_of_not_mem member (zeroFree name imported)
        simpa using nonzero
      simp only [whole]
      by_cases own : name = symbol.name
      · simp [own]
      · by_cases empty : name = []
        · simp [empty]
        · simp [own, empty]

/-- The payload of the normal form is the payload of the export. -/
theorem encodePayload_normal {symbol : Export}
    (zeroFree : ∀ name ∈ symbol.importName, 0 ∉ name) :
    symbol.normal.encodePayload = symbol.encodePayload := by
  simp only [encodePayload, flags_normal, isReexport_normal, hasResolver_normal]
  by_cases reexport : symbol.isReexport = true
  · rw [writtenImportName_normal reexport zeroFree, normal_eq]
    simp [reexport]
  · rw [normal_eq]
    by_cases resolved : symbol.hasResolver = true
    · simp [reexport, resolved]
    · simp [reexport, resolved]

theorem decodePayload_behind (symbol : Export) (before : List UInt8) :
    decodePayload symbol.name (before ++ symbol.encodePayload).toArray before.length =
      .ok symbol.normal := by
  apply decodePayload_encodePayload
  simpa using Bytes.holdsAt_toArray_append before symbol.encodePayload []

/-- A normal form is in normal form, since it has the payload that it was read from. -/
theorem normal_normal {symbol : Export}
    (zeroFree : ∀ name ∈ symbol.importName, 0 ∉ name) :
    symbol.normal.normal = symbol.normal := by
  have again := decodePayload_behind symbol.normal []
  rw [name_normal, encodePayload_normal zeroFree, decodePayload_behind] at again
  exact (Except.ok.inj again).symm

/-- What is left of an imported name may be the name of the export, which goes next. -/
example :
    let cut : Export := .reexport [95, 97] 1 (some [95, 97, 0, 98])
    cut.normal.normal ≠ cut.normal := by decide

/-- A payload is read back as the normal form of its export, behind any bytes. The
format has no place for what the normal form leaves out, such as the address of a
re-export or an imported name that is the name of the export. -/
theorem payload_keeps_normal (symbol : Export) (before : List UInt8) :
    decodePayload symbol.name (before ++ symbol.encodePayload).toArray before.length =
        .ok symbol.normal ∧
      symbol.normal =
        { name := symbol.name, flags := symbol.flags,
          address := if symbol.isReexport then 0 else symbol.address,
          other := if symbol.isReexport || symbol.hasResolver then symbol.other else 0,
          importName := if symbol.isReexport then symbol.keptImportName? else none } ∧
      ((∀ name ∈ symbol.importName, 0 ∉ name) →
        symbol.normal.normal = symbol.normal ∧
          symbol.normal.encodePayload = symbol.encodePayload) := by
  refine ⟨decodePayload_behind symbol before, normal_eq symbol, ?_⟩
  intro zeroFree
  exact ⟨normal_normal zeroFree, encodePayload_normal zeroFree⟩

/-- A re-export under another name whose flags also ask for a resolver. -/
def renamed : Export where
  name := [95, 97]
  flags := 0x8000000000000018
  address := 0x4000
  other := 2
  importName := some [95, 98]

theorem payload_keeps_normal_renamed :
    (∀ name ∈ renamed.importName, 0 ∉ name) ∧
      decodePayload renamed.name ([7, 7] ++ renamed.encodePayload).toArray 2 =
        .ok { renamed with address := 0 } ∧
      renamed.normal.normal = renamed.normal ∧
      renamed.normal.encodePayload = renamed.encodePayload := by
  have zeroFree : ∀ name ∈ renamed.importName, 0 ∉ name := by decide
  obtain ⟨readBack, -, normalForm⟩ := payload_keeps_normal renamed [7, 7]
  have kept : renamed.normal = { renamed with address := 0 } := by decide
  rw [kept] at readBack
  exact ⟨zeroFree, readBack, normalForm zeroFree⟩

end Linkedit.Export

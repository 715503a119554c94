import Linkedit.Tool.Path
import Mathlib.Data.String.Basic

/-!
# Names in paths

The pieces of a path hold no slashes. A directory and a name are put together so that
the name is a piece of its own, and the last part of a path is a name that nothing comes
after.
-/

namespace Linkedit.Tool.Path

/-- A piece of a path that names a file. -/
structure IsName (name : String) : Prop where
  slashFree : '/' ∉ name.toList
  nonempty : name.isEmpty = false
  notDot : name ≠ "."
  notUp : name ≠ ".."

theorem pieces_eq (path : String) :
    pieces path = (path.toList.splitOnP (· == '/')).map String.ofList :=
  String.splitToList_of_valid path _

theorem notMem_of_mem_splitOnP {α : Type} {separates : α → Bool} {whole piece : List α}
    (member : piece ∈ whole.splitOnP separates) {element : α}
    (separator : separates element) :
    element ∉ piece := by
  induction whole generalizing piece with
  | nil => simp_all
  | cons first rest ih =>
      rw [List.splitOnP_cons_eq_if_modifyHead] at member
      split at member
      · rcases List.mem_cons.mp member with rfl | later
        · exact List.not_mem_nil
        · exact ih later
      next notSeparator =>
        rcases pieces : rest.splitOnP separates with _ | ⟨head, others⟩
        · exact (List.splitOnP_ne_nil _ _ pieces).elim
        · rw [pieces] at member ih
          rcases List.mem_cons.mp member with rfl | later
          · intro inside
            rcases List.mem_cons.mp inside with rfl | inHead
            · exact notSeparator separator
            · exact ih List.mem_cons_self inHead
          · exact ih (List.mem_cons_of_mem head later)

theorem slashFree_of_mem_pieces {path piece : String} (member : piece ∈ pieces path) :
    '/' ∉ piece.toList := by
  rw [pieces_eq] at member
  rcases List.mem_map.mp member with ⟨characters, isPiece, rfl⟩
  rw [String.toList_ofList]
  exact notMem_of_mem_splitOnP isPiece rfl

theorem pieces_of_isName {name : String} (isName : IsName name) :
    pieces name = [name] := by
  have none : ∀ character ∈ name.toList, (character == '/') = false := by
    intro character member
    exact beq_eq_false_iff_ne.mpr (ne_of_mem_of_not_mem member isName.slashFree)
  rw [pieces_eq, List.splitOnP_eq_singleton none, List.map_singleton,
    String.ofList_toList]

/-- A directory and a name are put together with one slash between them. -/
theorem pieces_join (directory : String) {name : String} (isName : IsName name) :
    pieces (join directory name) = pieces directory ++ [name] ∨
      ∃ before, pieces directory = before ++ [""] ∧
        pieces (join directory name) = before ++ [name] := by
  have single := pieces_of_isName isName
  have slash : ∀ before after : List Char,
      (before ++ '/' :: after).splitOnP (· == '/') =
        before.splitOnP (· == '/') ++ after.splitOnP (· == '/') := by
    intro before after
    exact List.splitOnP_append_cons before after (beq_self_eq_true '/')
  rw [join]
  split
  next alone =>
    right
    rcases Bool.or_eq_true_iff.mp alone with empty | ends
    · rw [String.isEmpty_iff.mp empty]
      refine ⟨[], by simp [pieces_eq], ?_⟩
      rw [String.empty_append, single, List.nil_append]
    · rw [String.endsWith_char_eq_getLast?, beq_iff_eq] at ends
      rcases List.getLast?_eq_some_iff.mp ends with ⟨before, whole⟩
      refine ⟨(before.splitOnP (· == '/')).map String.ofList, ?_, ?_⟩
      · rw [pieces_eq, whole, slash, List.map_append]
        rfl
      · rw [pieces_eq, String.toList_append, whole, List.append_assoc,
          List.singleton_append, slash, List.map_append, ← pieces_eq, single]
  next =>
    left
    have whole : (directory ++ "/" ++ name).toList = directory.toList ++
        '/' :: name.toList := by
      simp
    rw [pieces_eq, whole, slash, List.map_append, ← pieces_eq, ← pieces_eq, single]

/-- The last part of a path is a name, and what follows it leads nowhere. -/
theorem exists_pieces_of_fileName? {path name : String}
    (named : fileName? path = some name) :
    IsName name ∧ ∃ before after, pieces path = before ++ name :: after ∧
      ∀ piece ∈ after, isStep piece = false := by
  have isLast : (parts path).getLast? = some name ∧ name ≠ "." ∧ name ≠ ".." := by
    rw [fileName?] at named
    split at named
    all_goals simp_all
  rcases isLast with ⟨isLast, notDot, notUp⟩
  have isPiece : ∀ before after, pieces path = before ++ name :: after →
      '/' ∉ name.toList := by
    intro before after whole
    exact @slashFree_of_mem_pieces path name (by simp [whole])
  rw [parts] at isLast
  split at isLast
  · cases isLast
  next first rest whole =>
    rcases List.eq_nil_or_concat (rest.filter isStep) with
      none | ⟨steps, last, filtered⟩
    · rw [none, List.append_nil] at isLast
      split at isLast
      · cases isLast
      next nonempty =>
        have isFirst : first = name := by simpa using isLast
        subst isFirst
        have isName : IsName first :=
          ⟨isPiece [] rest whole, by simpa using nonempty, notDot, notUp⟩
        refine ⟨isName, [], rest, whole, ?_⟩
        simpa [List.filter_eq_nil_iff] using none
    · have isName : last = name := by
        rw [filtered, List.concat_eq_append, ← List.append_assoc, List.getLast?_concat]
          at isLast
        exact Option.some_inj.mp isLast
      subst isName
      rw [List.concat_eq_append] at filtered
      rcases List.filter_eq_append_iff.mp filtered with ⟨front, back, rfl, -, lastSteps⟩
      rcases List.filter_eq_cons_iff.mp lastSteps with
        ⟨idle, after, rfl, -, isStep, none⟩
      have place : pieces path = (first :: (front ++ idle)) ++ last :: after := by
        simp [whole]
      refine ⟨⟨isPiece _ _ place, ?_, notDot, notUp⟩, _, after, place, ?_⟩
      · simp_all [Path.isStep]
      · simpa [List.filter_eq_nil_iff] using none

/-- A file name that is put behind a directory is the name of the file. -/
theorem fileName?_join (directory : String) {path name : String}
    (named : fileName? path = some name) :
    fileName? (join directory name) = some name := by
  have isName := (exists_pieces_of_fileName? named).1
  have isStep : isStep name = true := by
    simp [Path.isStep, isName.nonempty, isName.notDot]
  have last : (parts (join directory name)).getLast? = some name := by
    have whole : ∃ before, pieces (join directory name) = before ++ [name] := by
      rcases pieces_join directory isName with whole | ⟨before, -, whole⟩
      · exact ⟨_, whole⟩
      · exact ⟨before, whole⟩
    rcases whole with ⟨_ | ⟨first, before⟩, whole⟩
    · simp [parts, whole, isName.nonempty]
    · simp [parts, whole, isStep, ← List.append_assoc]
  rw [fileName?, last]
  split
  next dot => exact absurd (Option.some.inj dot) isName.notDot
  next up => exact absurd (Option.some.inj up) isName.notUp
  next none => cases none
  next same => exact same.symm

end Linkedit.Tool.Path

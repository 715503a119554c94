import Linkedit.Tool.FileTree
import Linkedit.Proofs.Tool.Path

/-!
# Places and changes of a tree

Where a path leads depends on its text alone, as long as it can be followed. So files of
different names lie at different places, however the paths are written. Making
directories changes nothing but vacant places, and writing a file changes its place
alone.
-/

namespace Linkedit.Tool

namespace Path

/-! ## Places -/

/-- The place that a path leads to. -/
def place (path : String) : Place :=
  (pieces path).foldl Place.step (if isAbsolute path then ["/"] else [])

theorem step_of_isName {name : String} (isName : IsName name) (place : Place) :
    place.step name = place ++ [name] := by
  simp [Place.step, isName.nonempty, isName.notDot, isName.notUp]

theorem foldl_step_of_idle {idle : List String}
    (none : ∀ piece ∈ idle, isStep piece = false)
    (place : Place) : idle.foldl Place.step place = place := by
  induction idle with
  | nil => rfl
  | cons piece idle ih =>
      have first := none piece List.mem_cons_self
      have stays : place.step piece = place := by
        rw [Place.step, if_pos]
        simpa [isStep, or_iff_not_imp_left] using first
      rw [List.foldl_cons, stays]
      exact ih fun other member => none other (List.mem_cons_of_mem piece member)

/-- A path ends where its file name says. -/
theorem exists_place_of_fileName? {path name : String}
    (named : fileName? path = some name) :
    ∃ above, place path = above ++ [name] := by
  rcases exists_pieces_of_fileName? named with ⟨isName, before, after, whole, idle⟩
  rw [place, whole, List.foldl_append, List.foldl_cons, foldl_step_of_idle idle,
    step_of_isName isName]
  exact ⟨_, rfl⟩

end Path

/-! ## Following paths -/

namespace FileTree

variable {tree later : FileTree} {path : String} {place other : Place} {node : Node}

theorem follow_eq_ok {start : Place} {pieces : List String}
    (followed : tree.follow start pieces = .ok place) :
    place = pieces.foldl Place.step start := by
  induction pieces generalizing start with
  | nil =>
      cases followed
      rfl
  | cons piece pieces ih =>
      rw [follow] at followed
      split at followed
      · cases followed
      · split at followed
        · cases followed
        · exact ih followed
      · cases followed

/-- A path that can be followed leads to its place. -/
theorem resolve_eq_ok (resolved : tree.resolve path = .ok place) :
    place = Path.place path := by
  rw [resolve] at resolved
  split at resolved
  · cases resolved
  · split at resolved
    · cases resolved
    · exact follow_eq_ok resolved

/-! ## Changes of a tree -/

theorem lookup_filter_ne (nodes : List (Place × Node)) (apart : other ≠ place) :
    (nodes.filter fun (known, _) => known != place).lookup other =
      nodes.lookup other := by
  induction nodes with
  | nil => rfl
  | cons first nodes ih =>
      rcases first with ⟨known, own⟩
      by_cases same : known = place
      · rw [List.filter_cons_of_neg (by simpa using same), ih, List.lookup_cons, same,
          beq_eq_false_iff_ne.mpr apart]
      · rw [List.filter_cons_of_pos (by simpa using same), List.lookup_cons,
          List.lookup_cons, ih]

/-- What a tree holds after a node was put where no directory was. -/
theorem find?_put (notDirectory : tree.find? place ≠ some .directory) (node : Node)
    (other : Place) : (tree.put place node).find? other =
      if other = place then some node else tree.find? other := by
  rw [find?]
  split
  next anchor =>
    have apart : other ≠ place := by
      rintro rfl
      exact notDirectory (by rw [find?, if_pos anchor])
    rw [if_neg apart, find?, if_pos anchor]
  next within =>
    rw [put, List.lookup_cons]
    split
    next same => rw [if_pos (beq_iff_eq.mp same)]
    next different =>
      have apart := beq_eq_false_iff_ne.mp different
      rw [if_neg apart, find?, if_neg within, lookup_filter_ne _ apart]

/-- The content of the file at a place. -/
def content? (tree : FileTree) (place : Place) : Option Bytes :=
  match tree.find? place with
  | some (.file content) => some content
  | _ => none

/-- Whether a device is at a place. -/
def HasDevice (tree : FileTree) (place : Place) : Prop :=
  ∃ full, tree.find? place = some (.device full)

theorem not_hasDevice_of_content? {content : Bytes}
    (found : tree.content? place = some content) : ¬ tree.HasDevice place := by
  rintro ⟨full, device⟩
  rw [content?, device] at found
  cases found

/-- A file that is read lies at the place of its path. -/
theorem content?_of_readFile {content : Bytes}
    (read : tree.readFile path = .ok content) :
    tree.content? (Path.place path) = some content := by
  rw [readFile] at read
  split at read
  · cases read
  next place resolved =>
    cases resolve_eq_ok resolved
    split at read
    · cases read
    next found =>
      cases read
      rw [content?, found]
    · cases read

/-! ## Making directories -/

/-- A tree has got directories at places that were vacant, and nothing else. -/
def Furnished (tree later : FileTree) : Prop :=
  ∀ place, later.find? place = tree.find? place ∨
    tree.find? place = none ∧ later.find? place = some .directory

namespace Furnished

theorem refl (tree : FileTree) : tree.Furnished tree := fun _ => .inl rfl

theorem trans {last : FileTree} (first : tree.Furnished later)
    (second : later.Furnished last) : tree.Furnished last := by
  intro place
  rcases second place with same | ⟨vacant, made⟩
  · rw [same]
    exact first place
  · rcases first place with same | ⟨-, directory⟩
    · exact .inr ⟨same ▸ vacant, made⟩
    · cases vacant.symm.trans directory

theorem content?_eq (furnished : tree.Furnished later) (place : Place) :
    later.content? place = tree.content? place := by
  rcases furnished place with same | ⟨vacant, made⟩
  · rw [content?, content?, same]
  · rw [content?, content?, vacant, made]

theorem hasDevice (furnished : tree.Furnished later) (device : later.HasDevice place) :
    tree.HasDevice place := by
  rcases device with ⟨full, found⟩
  rcases furnished place with same | ⟨-, made⟩
  · exact ⟨full, same ▸ found⟩
  · cases made.symm.trans found

end Furnished

theorem furnished_createDirectory (made : tree.createDirectory path = .ok later) :
    tree.Furnished later := by
  rw [createDirectory] at made
  split at made
  · cases made
  next place _ =>
    split at made
    · cases made
    next vacant =>
      cases made
      have isVacant : tree.find? place = none := by simpa using vacant
      have find? := @find?_put tree place (by simp [isVacant]) .directory
      intro other
      by_cases same : other = place
      · subst same
        exact .inr ⟨isVacant, by rw [find?, if_pos rfl]⟩
      · exact .inl (by rw [find?, if_neg same])

theorem furnished_ensureDirectory (made : tree.ensureDirectory path = .ok later) :
    tree.Furnished later := by
  rw [ensureDirectory] at made
  split at made
  next created =>
    cases made
    exact furnished_createDirectory created
  next =>
    split at made
    · cases made
      exact .refl tree
    · cases made

theorem furnished_createNested (tree : FileTree) (paths : List String) :
    tree.Furnished (tree.createNested paths).1 := by
  induction paths with
  | nil => exact .refl tree
  | cons path above ih =>
      rw [createNested]
      split
      next made => exact furnished_ensureDirectory made
      next =>
        split
        next middle aboveMade =>
          rw [aboveMade] at ih
          split
          next made => exact ih.trans (furnished_ensureDirectory made)
          next => exact ih
        next => exact ih
      next => exact .refl tree

theorem furnished_createDirectories (tree : FileTree) (path : String) :
    tree.Furnished (tree.createDirectories path).1 :=
  furnished_createNested tree _

/-! ## Writing files -/

/-- A tree after a path was opened for writing: its file holds a given content, unless a
device is there. -/
inductive Filled (tree : FileTree) (path : String) (content : Bytes) :
    FileTree → Prop where
  | device (device : tree.HasDevice (Path.place path)) : tree.Filled path content tree
  | file (noDirectory : tree.find? (Path.place path) ≠ some .directory)
      (noDevice : ¬ tree.HasDevice (Path.place path)) :
      tree.Filled path content (tree.put (Path.place path) (.file content))

namespace Filled

variable {content : Bytes}

theorem content?_of_ne (filled : tree.Filled path content later)
    (elsewhere : Path.place path ≠ place) :
    later.content? place = tree.content? place := by
  cases filled with
  | device => rfl
  | file noDirectory =>
      rw [content?, content?, find?_put noDirectory, if_neg (Ne.symm elsewhere)]

theorem content?_self (filled : tree.Filled path content later) :
    later.content? (Path.place path) = some content ∨
      later.HasDevice (Path.place path) := by
  cases filled with
  | device device => exact .inr device
  | file noDirectory =>
      left
      rw [content?, find?_put noDirectory, if_pos rfl]

theorem hasDevice (filled : tree.Filled path content later)
    (device : later.HasDevice place) : tree.HasDevice place := by
  cases filled with
  | device => exact device
  | file noDirectory =>
      rcases device with ⟨full, found⟩
      rw [find?_put noDirectory] at found
      split at found
      · cases found
      · exact ⟨full, found⟩

end Filled

theorem filled_createFile (created : tree.createFile path = .ok later) :
    tree.Filled path #[] later := by
  rw [createFile] at created
  split at created
  · cases created
  next place resolved =>
    cases resolve_eq_ok resolved
    split at created
    · cases created
    next full found =>
      cases created
      exact .device ⟨full, found⟩
    next old found =>
      cases created
      exact .file (by simp [found]) (by simp [HasDevice, found])
    next vacant =>
      cases created
      exact .file (by simp [vacant]) (by simp [HasDevice, vacant])

theorem filled_writeContent {content : Bytes}
    (written : tree.writeContent path content = .ok later) :
    ∃ whole, tree.Filled path whole later ∧
      (tree.content? (Path.place path) = some #[] → whole = content) := by
  rw [writeContent] at written
  split at written
  · cases written
  next place resolved =>
    cases resolve_eq_ok resolved
    split at written
    · cases written
    · cases written
    next full found =>
      split at written
      · cases written
      · cases written
        exact ⟨content, .device ⟨full, found⟩, fun _ => rfl⟩
    next old found =>
      cases written
      refine ⟨_, .file (by simp [found]) (by simp [HasDevice, found]), ?_⟩
      intro empty
      rw [content?, found] at empty
      cases empty
      simp

end FileTree

end Linkedit.Tool

import Linkedit.Proofs.Tool.FileTree
import Linkedit.Proofs.Tool.Lawful

/-!
# The files of a desk

A desk keeps its files: what it says that it did to a file it has done, and nothing
else.
-/

namespace Linkedit.Tool

namespace Desk

/-- The files of a desk. -/
def view : FileView Desk Place where
  place := Path.place
  content? desk := desk.tree.content?
  device desk := desk.tree.HasDevice

variable {clock : String} {desk later : Desk} {operation : Operation}

theorem update_eq {change : FileTree → Except FileFault FileTree}
    {answer : Except FileFault Unit} (updated : update change desk = (answer, later)) :
    (answer = .ok () ∧ change desk.tree = .ok later.tree) ∨
      (∃ fault, answer = .error fault) ∧ later = desk := by
  rw [update] at updated
  split at updated
  next changed =>
    cases updated
    exact .inl ⟨rfl, changed⟩
  next fault _ =>
    cases updated
    exact .inr ⟨⟨fault, rfl⟩, rfl⟩

theorem tree_createFile {path : String}
    (created : (host clock).createFile path desk = (.ok (), later)) :
    desk.tree.Filled path #[] later.tree := by
  rcases @update_eq desk later (·.createFile path) _ created with
      ⟨-, created⟩ | ⟨⟨fault, refused⟩, -⟩
  · exact FileTree.filled_createFile created
  · cases refused

theorem tree_writeContent {path : String} {content : Bytes}
    (written : (host clock).writeContent path content desk = (.ok (), later)) :
    ∃ whole, desk.tree.Filled path whole later.tree ∧
      (desk.tree.content? (Path.place path) = some #[] → whole = content) := by
  rcases @update_eq desk later (·.writeContent path content) _ written with
      ⟨-, written⟩ | ⟨⟨fault, refused⟩, -⟩
  · exact FileTree.filled_writeContent written
  · cases refused

/-- An operation makes directories, or it fills the file that it makes or writes to. -/
theorem tree_perform {answer : operation.Answer}
    (performed : (host clock).perform operation desk = (answer, later)) :
    desk.tree.Furnished later.tree ∨
      ∃ path content, operation.written? = some path ∧
        desk.tree.Filled path content later.tree := by
  cases operation with
  | readFile | printLine | elapsed =>
      cases performed
      exact .inl (.refl _)
  | createDirectories path =>
      cases performed
      exact .inl (FileTree.furnished_createDirectories desk.tree path)
  | createFile path =>
      rcases @update_eq desk later (·.createFile path) _ performed with
          ⟨rfl, -⟩ | ⟨-, rfl⟩
      · exact .inr ⟨path, _, rfl, tree_createFile performed⟩
      · exact .inl (.refl _)
  | writeContent path content =>
      rcases @update_eq desk later (·.writeContent path content) _ performed with
          ⟨rfl, -⟩ | ⟨-, rfl⟩
      · rcases tree_writeContent performed with ⟨whole, filled, -⟩
        exact .inr ⟨path, whole, rfl, filled⟩
      · exact .inl (.refl _)

theorem lawful (clock : String) : (host clock).Lawful view where
  frame := by
    intro operation answer desk later place performed elsewhere
    rcases tree_perform performed with furnished | ⟨path, content, writes, filled⟩
    · exact furnished.content?_eq place
    · exact filled.content?_of_ne (elsewhere path writes)
  devices := by
    intro operation answer desk later place performed device
    rcases tree_perform performed with furnished | ⟨path, content, -, filled⟩
    · exact furnished.hasDevice device
    · exact filled.hasDevice device
  read := by
    intro path content desk later read
    exact FileTree.content?_of_readFile (congrArg Prod.fst read)
  create created := (tree_createFile created).content?_self
  write := by
    intro path content desk later written empty
    rcases tree_writeContent written with ⟨whole, filled, same⟩
    cases same empty
    exact filled.content?_self.resolve_right fun device =>
      FileTree.not_hasDevice_of_content? empty (filled.hasDevice device)
  names := by
    intro left right leftName rightName leftNamed rightNamed same
    rcases Path.exists_place_of_fileName? leftNamed with ⟨aboveLeft, leftPlace⟩
    rcases Path.exists_place_of_fileName? rightNamed with ⟨aboveRight, rightPlace⟩
    have places : aboveLeft ++ [leftName] = aboveRight ++ [rightName] := by
      rw [← leftPlace, ← rightPlace]
      exact same
    exact List.singleton_inj.mp (List.append_inj_right' places rfl)

end Desk

end Linkedit.Tool

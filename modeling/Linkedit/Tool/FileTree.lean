import Linkedit.Tool.Host
import Linkedit.Tool.Path

/-!
# A directory as a value

A model of the directory in which the tool runs, with the faults that file
operations have there. Of the system around it only a few usual nodes are known:
the directories above are there and hold nothing else, and the root holds the
directories and some of the devices that systems have.
-/

namespace Linkedit.Tool

/-- What lies at a place. A device can be opened but keeps no content, and a full one
takes none. -/
inductive Node where
  | file (content : Bytes)
  | directory
  | device (full : Bool)
deriving DecidableEq, Repr

/-- A place by the parts of a path that lead to it. A place below the directory
in which the tool runs has names only. One above it begins with `..` for every
directory up, and one below the root begins with `/`. -/
abbrev Place := List String

namespace Place

/-- Whether a place is below the directory in which the tool runs. -/
def isWithin (place : Place) : Bool :=
  match place with
  | [] | ".." :: _ | "/" :: _ => false
  | _ => true

/-- Whether a place is the directory in which the tool runs, one of those above
it, or the root. -/
def isAnchor (place : Place) : Bool := place == ["/"] || place.all (· == "..")

/-- The place of the directory that holds a place. The root holds itself. -/
def up (place : Place) : Place :=
  if place == ["/"] then place
  else if place.all (· == "..") then place ++ [".."]
  else place.dropLast

/-- The place that a piece of a path leads to. -/
def step (place : Place) (piece : String) : Place :=
  if piece.isEmpty || piece == "." then place
  else if piece == ".." then place.up
  else place ++ [piece]

end Place

/-- The nodes that every system has at and below its root. -/
def systemNodes : List (Place × Node) :=
  (["bin", "dev", "etc", "home", "lib", "opt", "proc", "root", "run", "sbin",
    "sys", "tmp", "usr", "var"].map fun name => (["/", name], .directory)) ++
    [("full", true), ("null", false), ("random", false), ("urandom", false)].map
      fun (name, full) => (["/", "dev", name], .device full)

/-- The nodes of a system by their places, as far as they are known. -/
structure FileTree where
  nodes : List (Place × Node) := systemNodes
deriving DecidableEq, Repr

namespace FileTree

/-- The largest number of bytes in a name. -/
def maxName : Nat := 255

/-- The largest number of bytes in a path. -/
def maxPath : Nat := 4095

/-- The node at a place. -/
def find? (tree : FileTree) (place : Place) : Option Node :=
  if place.isAnchor then some .directory else tree.nodes.lookup place

/-- Puts a node at a place, over what was there. -/
def put (tree : FileTree) (place : Place) (node : Node) : FileTree :=
  ⟨(place, node) :: tree.nodes.filter fun (other, _) => other != place⟩

/-- Follows the pieces of a path from a place on. Every piece must start in a
directory, so the place at the end is in one. -/
def follow (tree : FileTree) (place : Place) :
    (pieces : List String) → Except FileFault Place
  | [] => .ok place
  | piece :: pieces =>
      match tree.find? place with
      | none => .error .notFound
      | some .directory =>
          if maxName < piece.utf8ByteSize then .error .nameTooLong
          else tree.follow (place.step piece) pieces
      | some _ => .error .notADirectory

/-- The place that a path leads to, which may be vacant. -/
def resolve (tree : FileTree) (path : String) : Except FileFault Place :=
  if path.isEmpty then .error .notFound
  else if maxPath < path.utf8ByteSize then .error .nameTooLong
  else tree.follow (if Path.isAbsolute path then ["/"] else []) (Path.pieces path)

/-- Reads a file. Only the content of a file can be mapped. -/
def readFile (tree : FileTree) (path : String) : Except Error Bytes :=
  match tree.resolve path with
  | .error fault => .error (.fileOpen path fault)
  | .ok place =>
      match tree.find? place with
      | none => .error (.fileOpen path .notFound)
      | some (.file content) => .ok content
      | some _ => .error (.memoryMap path .noDevice)

/-- Makes one directory. -/
def createDirectory (tree : FileTree) (path : String) :
    Except FileFault FileTree :=
  match tree.resolve path with
  | .error fault => .error fault
  | .ok place =>
      if (tree.find? place).isSome then .error .fileExists
      else .ok (tree.put place .directory)

/-- Whether a path leads to a directory. -/
def isDirectory (tree : FileTree) (path : String) : Bool :=
  match tree.resolve path with
  | .ok place => tree.find? place == some .directory
  | .error _ => false

/-- Makes one directory, unless it is there. -/
def ensureDirectory (tree : FileTree) (path : String) :
    Except FileFault FileTree :=
  match tree.createDirectory path with
  | .ok tree => .ok tree
  | .error fault =>
      if tree.isDirectory path then .ok tree else .error fault

/-- Makes the first of several directories, where each lies in the next. Only a
directory that is missing makes the search go on to the one it lies in.
Directories that were made stay if a later one cannot be made. -/
def createNested (tree : FileTree) :
    List String → FileTree × Except FileFault Unit
  | [] => (tree, .ok ())
  | path :: above =>
      match tree.ensureDirectory path with
      | .ok tree => (tree, .ok ())
      | .error .notFound =>
          match tree.createNested above with
          | (tree, .ok ()) =>
              match tree.ensureDirectory path with
              | .ok tree => (tree, .ok ())
              | .error fault => (tree, .error fault)
          | failed => failed
      | .error fault => (tree, .error fault)

/-- Makes a directory and those above it, as far as they are missing. -/
def createDirectories (tree : FileTree) (path : String) :
    FileTree × Except FileFault Unit :=
  tree.createNested (Path.prefixes path).reverse

/-- Makes a file without content, or empties the one that is there. -/
def createFile (tree : FileTree) (path : String) : Except FileFault FileTree :=
  match tree.resolve path with
  | .error fault => .error fault
  | .ok place =>
      match tree.find? place with
      | some .directory => .error .isADirectory
      | some (.device _) => .ok tree
      | some (.file _) | none => .ok (tree.put place (.file #[]))

/-- The fault of a device that takes no content. -/
def deviceFull : FileFault := .other 28 "No space left on device"

/-- Writes content over the beginning of what a file holds. -/
def writeContent (tree : FileTree) (path : String) (content : Bytes) :
    Except FileFault FileTree :=
  match tree.resolve path with
  | .error fault => .error fault
  | .ok place =>
      match tree.find? place with
      | none => .error .notFound
      | some .directory => .error .isADirectory
      | some (.device full) =>
          if full && !content.isEmpty then .error deviceFull else .ok tree
      | some (.file old) =>
          .ok (tree.put place (.file (content ++ old.extract content.size)))

/-- The nodes below the directory in which the tool runs that are not the same
in an earlier tree. -/
def changedSince (tree earlier : FileTree) : List (Place × Node) :=
  tree.nodes.filter fun (place, node) =>
    place.isWithin && earlier.find? place != some node

end FileTree

/-- A directory and what was printed while the tool ran in it. -/
structure Desk where
  tree : FileTree
  output : String := ""

/-- Changes the tree of a desk, unless that fails. -/
def Desk.update (change : FileTree → Except FileFault FileTree) :
    StateM Desk (Except FileFault Unit) := fun desk =>
  match change desk.tree with
  | .ok tree => (.ok (), { desk with tree })
  | .error fault => (.error fault, desk)

/-- Runs the tool on a directory as a value. The clock shows a given text. -/
def Desk.host (clock : String) : Host (StateM Desk) where
  readFile path desk := (desk.tree.readFile path, desk)
  createDirectories path desk :=
    let (tree, result) := desk.tree.createDirectories path
    (result, { desk with tree })
  createFile path := update fun tree => tree.createFile path
  writeContent path content := update fun tree => tree.writeContent path content
  printLine line desk := ((), { desk with output := desk.output ++ line ++ "\n" })
  elapsed desk := (clock, desk)

end Linkedit.Tool

/-!
# File paths

A path is a list of pieces separated by slashes. Empty pieces and dots name
nothing of their own, except for a dot at the start. The functions here work on
the text of a path alone.
-/

namespace Linkedit.Tool.Path

/-- The text between slashes. -/
def pieces (path : String) : List String := path.splitToList (· == '/')

/-- Whether a path starts at the root. -/
def isAbsolute (path : String) : Bool := path.startsWith '/'

/-- Whether a piece after the first stands for a step, rather than for the place
where the pieces before it lead. -/
def isStep (piece : String) : Bool := !piece.isEmpty && piece != "."

/-- The parts of a path that name something. -/
def parts (path : String) : List String :=
  match pieces path with
  | [] => []
  | first :: rest => (if first.isEmpty then [] else [first]) ++ rest.filter isStep

/-- The text of a path cut off after each of its parts, the shortest first. The
text up to a part is kept as it is. -/
def prefixes (path : String) : List String :=
  let pieces := pieces path
  (pieces.zipIdx.filter fun (piece, index) =>
      if index = 0 then !piece.isEmpty else isStep piece).map
    fun (_, index) => "/".intercalate (pieces.take (index + 1))

/-- The last part of a path, if it is a name. -/
def fileName? (path : String) : Option String :=
  match (parts path).getLast? with
  | some "." | some ".." | none => none
  | some name => some name

/-- The path of the directory that holds the last part; empty if that is the
directory in which the tool runs. -/
def parent (path : String) : String :=
  match (prefixes path).dropLast.getLast? with
  | some directory => directory
  | none => if isAbsolute path then "/" else ""

/-- The path of a name in a directory. -/
def join (directory name : String) : String :=
  if directory.isEmpty || directory.endsWith '/' then directory ++ name
  else directory ++ "/" ++ name

end Linkedit.Tool.Path

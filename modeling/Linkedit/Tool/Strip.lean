import Linkedit.Image.Strip
import Linkedit.Tool.Arguments
import Linkedit.Tool.Inspect
import Linkedit.Tool.Path

/-!
# Stripping files

The command that removes exports from images. Every image is written under the
name of its file to the output directory; the files that are read stay as they
are, unless they lie there.
-/

namespace Linkedit.Tool

/-- Whether a name is to be removed. -/
def StripRequest.removes (request : StripRequest) (name : Name) : Bool :=
  (request.names.map Text.bytes).contains name ||
    match request.start? with
    | some start => (Text.bytes start).isPrefixOf name
    | none => false

/-- Whether nothing is to be removed. -/
def StripRequest.isEmpty (request : StripRequest) : Bool :=
  request.names.isEmpty && request.start?.isNone

namespace Session

variable {m : Type → Type} [Monad m]

/-- Removes exports from the image of a file. -/
def stripImage (session : Session m) (path : String) (data : Bytes)
    (remove : Name → Bool) : Action m Image.Stripped := do
  let context := s!"Failed to strip: {path}"
  let image ← session.parseImage context data
  let slot ← take (some context) image.exportsSlot
  let trie := image.bytesIn slot
  let rewrite ← take (some context) (Trie.rewrite trie remove)
  if let .replaced layout removed total := rewrite then
    session.report .debug (s!"export trie: {total - removed} entries, " ++
      s!"{layout.nodes.length} nodes, {layout.size} bytes " ++
      s!"after {layout.passes} offset passes")
  let pruned ← take (some context) (rewrite.apply trie)
  if let .replaced _ removed total := rewrite then
    session.report .debug (s!"pruned export trie: removed {removed} " ++
      s!"of {total} exports, {trie.size} -> {pruned.size} bytes")
  return image.withSlot slot pruned

/-- Takes the answer of an operation that a file is written by. -/
def takeWrite (path : String) (result : Except FileFault Unit) : Action m Unit :=
  take none (result.mapError (Error.fileWrite path))

/-- Makes the directories that a file is to lie in. -/
def makeDirectories (session : Session m) (path : String) : Action m Unit := do
  let directory := Path.parent path
  if !directory.isEmpty then
    takeWrite path (← session.host.createDirectories directory)

/-- Writes a file and makes the directories that it lies in. -/
def writeFile (session : Session m) (path : String) (content : Bytes) :
    Action m Unit := do
  session.makeDirectories path
  takeWrite path (← session.host.createFile path)
  takeWrite path (← session.host.writeContent path content)
  session.report .debug s!"Wrote {content.size} bytes to {path}"

/-- Strips one file. The answer is the number of exports removed. -/
def stripFile (session : Session m) (request : StripRequest) (path : String) :
    Action m Nat := do
  let data ← session.readFile path
  let stripped ← session.stripImage path data request.removes
  let some name := Path.fileName? path
    | throw (.plain s!"No file name: {path}")
  session.writeFile (Path.join request.output name) stripped.image
  session.report .info (s!"{path}: removed {stripped.removed} exports " ++
    s!"({stripped.usedSize} of {stripped.slotSize} trie bytes used)")
  return stripped.removed

/-- The files that failed, with what came of them. -/
def failures (results : List (String × Except Failure Nat)) : List (String × Failure) :=
  results.filterMap fun (path, result) =>
    match result with
    | .ok _ => none
    | .error failure => some (path, failure)

/-- Reports what came of stripping files, and fails if some of them failed. -/
def mergeResults (session : Session m) (results : List (String × Except Failure Nat)) :
    Action m Unit := do
  let removed := results.filterMap fun (_, result) => result.toOption
  let failures := failures results
  let total := results.length
  if !failures.isEmpty then
    session.report .warn s!"{failures.length} files failed:"
    for (path, failure) in failures do
      session.report .error s!"  {path}: {failure.line}"
  session.report .info (s!"Removed {removed.foldl (· + ·) 0} exports from " ++
    s!"{removed.length}/{total} files in {← session.host.elapsed}")
  checkAll failures.length total

/-- The failure of a command that asks for nothing to be removed. -/
def nothingToRemove : Failure := .plain "Nothing to remove: pass --remove or --prefix"

/-- Strips files one after the other and reports those that failed. -/
def stripExports (session : Session m) (request : StripRequest) :
    Action m Unit := do
  if request.isEmpty then throw nothingToRemove
  let results ← forEachFile (m := m) request.files (session.stripFile request)
  session.mergeResults results

end Session

end Linkedit.Tool

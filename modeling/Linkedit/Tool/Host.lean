import Linkedit.Error

/-!
# The host of the tool

What the tool needs from the system it runs on: files, a place to print lines,
and a clock. The tool is written against this interface alone, so it can run on
the real system or on a model of a directory.
-/

namespace Linkedit.Tool

/-- The operations of a system on which the tool runs. -/
structure Host (m : Type → Type) where
  /-- The content of a file. -/
  readFile : (path : String) → m (Except Error Bytes)
  /-- Makes a directory and those above it, as far as they are missing. -/
  createDirectories : (path : String) → m (Except FileFault Unit)
  /-- Makes a file without content, or empties the one that is there. -/
  createFile : (path : String) → m (Except FileFault Unit)
  /-- Writes to a file from its beginning on. A part of the content may be written
  although the answer is a fault. -/
  writeContent : (path : String) → (content : Bytes) → m (Except FileFault Unit)
  /-- Prints one line of output. -/
  printLine : (line : String) → m Unit
  /-- The time since the tool was started, as text. -/
  elapsed : m String

end Linkedit.Tool

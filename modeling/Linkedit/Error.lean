import Linkedit.Bytes
import Linkedit.Text.Numeral

/-!
# Errors

Every way in which reading, building or rewriting linkedit data can fail. A
constructor states a cause; the wording of all of them is in `Error.message`.
-/

namespace Linkedit

/-- Why the host refused an operation on a file. -/
inductive FileFault where
  | notFound
  | permissionDenied
  | fileExists
  | noDevice
  | notADirectory
  | isADirectory
  | nameTooLong
  | other (code : Nat) (reason : String)
deriving DecidableEq, Repr

/-- The host's number for a file fault. -/
def FileFault.code : FileFault → Nat
  | .notFound => 2
  | .permissionDenied => 13
  | .fileExists => 17
  | .noDevice => 19
  | .notADirectory => 20
  | .isADirectory => 21
  | .nameTooLong => 36
  | .other code _ => code

/-- The host's words for a file fault. -/
def FileFault.reason : FileFault → String
  | .notFound => "No such file or directory"
  | .permissionDenied => "Permission denied"
  | .fileExists => "File exists"
  | .noDevice => "No such device"
  | .notADirectory => "Not a directory"
  | .isADirectory => "Is a directory"
  | .nameTooLong => "File name too long"
  | .other _ reason => reason

/-- A file fault as it is reported. -/
def FileFault.message (fault : FileFault) : String :=
  s!"{fault.reason} (os error {fault.code})"

/-- What is wrong with the bytes of an export trie. -/
inductive TrieFault where
  | nodePastEnd
  | nodeReachedTwice
  | terminalPastEnd
  | childPastEnd (child : Nat)
  | truncatedNumber
  | oversizedNumber
  | unterminatedString
deriving DecidableEq, Repr

/-- The wording of a trie fault. -/
def TrieFault.message : TrieFault → String
  | .nodePastEnd => "node offset past end of trie"
  | .nodeReachedTwice => "node reached twice"
  | .terminalPastEnd => "terminal info extends past end of trie"
  | .childPastEnd child => s!"child offset {Text.hex child} past end of trie"
  | .truncatedNumber => "truncated ULEB128 or payload"
  | .oversizedNumber => "ULEB128 too large for 64 bits"
  | .unterminatedString => "string is not zero-terminated"

/-- What is wrong with bytes outside an export trie. -/
inductive ParseFault where
  | unterminatedString
  | unknownBindOpcode (opcode : UInt8)
  | shortLoadCommand
  | shortSegmentCommand
  | shortSection
  | shortDyldInfoCommand
  | shortLinkeditCommand
  | shortDylibCommand
  | sectionsDoNotFit (declared room : Nat)
deriving DecidableEq, Repr

/-- The wording of a parse fault. -/
def ParseFault.message : ParseFault → String
  | .unterminatedString => "string is not zero-terminated"
  | .unknownBindOpcode opcode =>
      s!"unknown bind opcode {Text.hexFilled 2 opcode.toNat}"
  | .shortLoadCommand => "failed to parse load command"
  | .shortSection => "failed to parse section"
  | .shortSegmentCommand => "failed to parse segment command"
  | .shortDyldInfoCommand => "failed to parse dyld info command"
  | .shortLinkeditCommand => "failed to parse linkedit data command"
  | .shortDylibCommand => "failed to parse dylib command"
  | .sectionsDoNotFit declared room =>
      s!"segment declares {declared} sections but its command holds {room}"

/-- A failed operation on linkedit data. Offsets are positions in the buffer
that was read. -/
inductive Error where
  | fileOpen (path : String) (fault : FileFault)
  | memoryMap (path : String) (fault : FileFault)
  | fileWrite (path : String) (fault : FileFault)
  | truncated (offset : Nat)
  | overflow (offset : Nat)
  | duplicateSymbol (name : Name)
  | invalidSymbolName (name : Name)
  | invalidExportTrie (offset : Nat) (fault : TrieFault)
  | trieTooLarge (newSize originalSize : Nat)
  | invalidMagic (magic : UInt32)
  | unsupportedFatFile
  | loadCommandOverflow (offset : Nat)
  | missingLoadCommand (command : String)
  | parse (offset : Nat) (fault : ParseFault)
  | bufferTooSmall (needed available : Nat)
deriving DecidableEq, Repr

namespace Error

/-- The wording of an error. -/
def message : Error → String
  | .fileOpen path fault => s!"failed to open file '{path}': {fault.message}"
  | .memoryMap path fault =>
      s!"failed to memory map file '{path}': {fault.message}"
  | .fileWrite path fault =>
      s!"failed to write output file '{path}': {fault.message}"
  | .truncated offset => s!"truncated LEB128 at offset {Text.hex offset}"
  | .overflow offset =>
      s!"LEB128 at offset {Text.hex offset} does not fit in 64 bits"
  | .duplicateSymbol name => s!"duplicate exported symbol '{Text.lossy name}'"
  | .invalidSymbolName name =>
      s!"symbol name '{Text.lossy name}' cannot be stored in an export trie"
  | .invalidExportTrie offset fault =>
      s!"invalid export trie at offset {Text.hex offset}: {fault.message}"
  | .trieTooLarge newSize originalSize =>
      s!"pruned export trie needs {newSize} bytes " ++
        s!"but only {originalSize} are available"
  | .invalidMagic magic => s!"invalid Mach-O magic: {Text.hex magic.toNat}"
  | .unsupportedFatFile =>
      "fat (universal) files are not supported, extract a thin slice first"
  | .loadCommandOverflow offset =>
      s!"load command at offset {Text.hex offset} extends beyond header"
  | .missingLoadCommand command => s!"Mach-O has no {command} load command"
  | .parse offset fault =>
      s!"parse error at offset {Text.hex offset}: {fault.message}"
  | .bufferTooSmall needed available =>
      s!"buffer too small: need {needed} bytes, have {available}"

/-- The file fault behind an error of the host. -/
def fileFault? : Error → Option FileFault
  | .fileOpen _ fault | .memoryMap _ fault | .fileWrite _ fault => some fault
  | _ => none

/-- Whether the error describes bad input rather than a refused operation, so
that a tool may report it and go on with the next file. -/
def isRecoverable : Error → Bool
  | .truncated _ | .overflow _ | .invalidExportTrie _ _
  | .missingLoadCommand _ | .parse _ _ => true
  | _ => false

/-- The error of a field inside an export trie, stated as a fault of the trie. -/
def inTrie : Error → Error
  | .truncated offset => .invalidExportTrie offset .truncatedNumber
  | .overflow offset => .invalidExportTrie offset .oversizedNumber
  | .parse offset .unterminatedString =>
      .invalidExportTrie offset .unterminatedString
  | error => error

end Error

end Linkedit

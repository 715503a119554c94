/-!
# Control characters

Reports quote names from untrusted files and may be shown on a terminal. The
control characters with which a command to the terminal can begin are written by
their numbers, so that a name cannot take the terminal over. Other control
characters, such as line ends, stay as they are.
-/

namespace Linkedit.Text

/-- Whether a terminal may take a character for the start of a command or for
an order of its own: bell, backspace, form feed, escape, delete, and the controls
from U+0080 to U+009F. -/
def isTerminalControl (character : Char) : Bool :=
  character ∈ ['\x07', '\x08', '\x0C', '\x1B', '\x7F'] ||
    (0x80 ≤ character.toNat && character.toNat ≤ 0x9F)

/-- A character by its number: two digits for those of a single byte in UTF-8,
and otherwise as many as it takes in braces. -/
def numbered (character : Char) : List Char :=
  let digits := Nat.toDigits 16 character.toNat
  if character.toNat < 0x80 then
    ['\\', 'x'] ++ List.replicate (2 - digits.length) '0' ++ digits
  else ['\\', 'u', '\x7b'] ++ digits ++ ['\x7d']

/-- A text with every control of a terminal written by its number. -/
def shown (text : String) : String :=
  String.ofList (text.toList.flatMap fun character =>
    if isTerminalControl character then numbered character else [character])

end Linkedit.Text

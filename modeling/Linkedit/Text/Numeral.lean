/-!
# Numerals

Hexadecimal numerals as diagnostics and listings write them: a leading `0x`,
lower-case digits, and either the fewest digits or a fixed number of them.
-/

namespace Linkedit.Text

/-- The lower-case hexadecimal digits of a number, without leading zeros. -/
def hexDigits (value : Nat) : String := String.ofList (Nat.toDigits 16 value)

/-- A hexadecimal numeral with the fewest digits. -/
def hex (value : Nat) : String := "0x" ++ hexDigits value

/-- A hexadecimal numeral with at least `digits` digits, filled up with zeros. -/
def hexFilled (digits value : Nat) : String :=
  let written := hexDigits value
  "0x" ++ String.ofList (List.replicate (digits - written.length) '0') ++ written

end Linkedit.Text

/-!
# UTF-8

Names in linkedit data are byte strings. This module reads them as text, either
strictly or with every ill-formed piece replaced by U+FFFD. An ill-formed piece
is a longest run of bytes that starts a well-formed sequence, or a single byte
that starts none.
-/

namespace Linkedit.Text

/-- What the first byte of a sequence says about the rest: how many bytes
follow, the bounds of the first of them, and the bits contributed so far. -/
structure Lead where
  trailing : Nat
  low : UInt8
  high : UInt8
  bits : Nat

/-- The sequences of well-formed UTF-8 by their first byte. The narrower bounds
exclude overlong forms, surrogates and values past U+10FFFF. -/
def lead? (byte : UInt8) : Option Lead :=
  if byte < 0x80 then some ⟨0, 0x80, 0xBF, byte.toNat⟩
  else if byte < 0xC2 then none
  else if byte < 0xE0 then some ⟨1, 0x80, 0xBF, byte.toNat % 32⟩
  else if byte = 0xE0 then some ⟨2, 0xA0, 0xBF, 0⟩
  else if byte = 0xED then some ⟨2, 0x80, 0x9F, byte.toNat % 16⟩
  else if byte < 0xF0 then some ⟨2, 0x80, 0xBF, byte.toNat % 16⟩
  else if byte = 0xF0 then some ⟨3, 0x90, 0xBF, 0⟩
  else if byte < 0xF4 then some ⟨3, 0x80, 0xBF, byte.toNat % 8⟩
  else if byte = 0xF4 then some ⟨3, 0x80, 0x8F, byte.toNat % 8⟩
  else none

/-- The replacement for an ill-formed piece. -/
def replacement : Char := Char.ofNat 0xFFFD

/-- Reads `trailing` more bytes of a sequence. The first byte out of bounds ends
an ill-formed piece and is left for the next sequence. -/
def readTrailing (trailing : Nat) (low high : UInt8) (bits : Nat) :
    List UInt8 → Char × List UInt8 :=
  match trailing with
  | 0 => fun rest => (Char.ofNat bits, rest)
  | trailing + 1 => fun
    | [] => (replacement, [])
    | byte :: rest =>
        if low ≤ byte && byte ≤ high then
          readTrailing trailing 0x80 0xBF (bits * 64 + byte.toNat % 64) rest
        else (replacement, byte :: rest)

/-- Reads one character or one ill-formed piece. -/
def readChar (byte : UInt8) (rest : List UInt8) : Char × List UInt8 :=
  match lead? byte with
  | some lead => readTrailing lead.trailing lead.low lead.high lead.bits rest
  | none => (replacement, rest)

theorem readTrailing_length_le (trailing : Nat) (low high : UInt8) (bits : Nat)
    (rest : List UInt8) :
    (readTrailing trailing low high bits rest).2.length ≤ rest.length := by
  induction trailing generalizing low high bits rest with
  | zero => simp [readTrailing]
  | succ trailing ih =>
      cases rest with
      | nil => simp [readTrailing]
      | cons byte rest =>
          simp only [readTrailing]
          split
          · exact Nat.le_succ_of_le (ih _ _ _ _)
          · exact Nat.le_refl _

theorem readChar_length_le (byte : UInt8) (rest : List UInt8) :
    (readChar byte rest).2.length ≤ rest.length := by
  unfold readChar
  split
  · exact readTrailing_length_le _ _ _ _ _
  · exact Nat.le_refl _

/-- The characters of a byte string, one U+FFFD for each ill-formed piece. -/
def lossyChars : List UInt8 → List Char
  | [] => []
  | byte :: rest => (readChar byte rest).1 :: lossyChars (readChar byte rest).2
termination_by bytes => bytes.length
decreasing_by exact Nat.lt_succ_of_le (readChar_length_le byte rest)

/-- The text of a byte string that is well-formed UTF-8. -/
def utf8? (bytes : List UInt8) : Option String := String.fromUTF8? bytes.toByteArray

/-- The text of a byte string. Well-formed text is kept as it is. -/
def lossy (bytes : List UInt8) : String :=
  (utf8? bytes).getD (String.ofList (lossyChars bytes))

/-- The UTF-8 bytes of a text. -/
def bytes (text : String) : List UInt8 := text.toUTF8.toList

end Linkedit.Text

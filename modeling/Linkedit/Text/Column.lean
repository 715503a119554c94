/-!
# Columns

Text set in columns of a listing. A column is a least width: longer text is
never cut. Width counts characters.
-/

namespace Linkedit.Text

/-- The blanks that fill `text` up to `width` characters. -/
def filler (width : Nat) (text : String) : String :=
  String.ofList (List.replicate (width - text.length) ' ')

/-- Sets `text` at the left edge of a column. -/
def flushLeft (width : Nat) (text : String) : String := text ++ filler width text

/-- Sets `text` at the right edge of a column. -/
def flushRight (width : Nat) (text : String) : String := filler width text ++ text

end Linkedit.Text

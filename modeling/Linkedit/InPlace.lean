import Linkedit.Error

/-!
# Operations in place

An operation in place works on a buffer that its caller owns. It may read the buffer,
write to it and fail, and what it wrote before it failed stays written.
-/

namespace Linkedit

/-- An operation on a buffer in place. -/
abbrev InPlace (α : Type) := ExceptT Error (StateM Bytes) α

/-- The outcome of an operation on a buffer, and the buffer that it leaves. -/
def InPlace.on {α : Type} (operation : InPlace α) (data : Bytes) :
    Except Error α × Bytes :=
  operation.run.run data

end Linkedit

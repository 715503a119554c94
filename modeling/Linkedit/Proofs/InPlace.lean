import Linkedit.InPlace

/-!
# Running operations in place

What an operation leaves in its buffer, for the operations that others are made of.
-/

namespace Linkedit.InPlace

variable {α β : Type} {data after : Bytes}

@[simp] theorem on_pure (value : α) :
    (pure value : InPlace α).on data = (.ok value, data) := rfl

@[simp] theorem on_get : (get : InPlace Bytes).on data = (.ok data, data) := rfl

@[simp] theorem on_set (bytes : Bytes) :
    (set bytes : InPlace Unit).on data = (.ok (), bytes) :=
  rfl

@[simp] theorem on_modify (change : Bytes → Bytes) :
    (modify change : InPlace Unit).on data = (.ok (), change data) := rfl

/-- A computation that does not know the buffer leaves it as it is. -/
@[simp] theorem on_lift (attempt : Except Error α) :
    (liftM attempt : InPlace α).on data = (attempt, data) := rfl

theorem on_bind (first : InPlace α) (next : α → InPlace β) :
    (first >>= next).on data =
      match first.on data with
      | (.ok value, middle) => (next value).on middle
      | (.error error, middle) => (.error error, middle) := by
  change StateT.run (ExceptT.run (first >>= next)) data = _
  simp only [ExceptT.run_bind, StateT.run_bind, on]
  rcases StateT.run (ExceptT.run first) data with ⟨outcome, middle⟩
  cases outcome <;> rfl

end Linkedit.InPlace

import Mathlib.Init

/-!
# Operations that can fail

The readers and builders are chains of operations that stop at the first error.
These lemmas take such a chain apart, step by step from the front.
-/

namespace Linkedit

variable {ε ε' α β : Type}

@[simp] theorem ok_bind (value : α) (next : α → Except ε β) :
    (Except.ok value >>= next) = next value := rfl

@[simp] theorem error_bind (error : ε) (next : α → Except ε β) :
    (Except.error error >>= next) = .error error := rfl

theorem bind_eq_ok {first : Except ε α} {next : α → Except ε β} {result : β} :
    (first >>= next) = .ok result ↔
      ∃ value, first = .ok value ∧ next value = .ok result := by
  cases first <;> simp

@[simp] theorem mapError_ok (image : ε → ε') (value : α) :
    (Except.ok value : Except ε α).mapError image = .ok value := rfl

@[simp] theorem mapError_error (image : ε → ε') (error : ε) :
    (Except.error error : Except ε α).mapError image = .error (image error) := rfl

@[simp] theorem mapError_eq_ok {image : ε → ε'} {attempt : Except ε α} {value : α} :
    attempt.mapError image = .ok value ↔ attempt = .ok value := by
  cases attempt <;> simp

@[simp] theorem map_ok (image : α → β) (value : α) :
    (Except.ok value : Except ε α).map image = .ok (image value) := rfl

@[simp] theorem map_error (image : α → β) (error : ε) :
    (Except.error error : Except ε α).map image = .error error := rfl

theorem map_eq_ok {image : α → β} {attempt : Except ε α} {result : β} :
    attempt.map image = .ok result ↔
      ∃ value, attempt = .ok value ∧ image value = result := by
  cases attempt <;> simp

theorem map_mapError (image : α → β) (imageError : ε → ε') (attempt : Except ε α) :
    (attempt.map image).mapError imageError =
      (attempt.mapError imageError).map image := by
  cases attempt <;> rfl

theorem mapError_bind (image : ε → ε') (first : Except ε α) (next : α → Except ε β) :
    (first >>= next).mapError image = first.mapError image >>= fun value =>
      (next value).mapError image := by
  cases first <;> rfl

/-! ## Where a chain fails -/

theorem bind_eq_error {first : Except ε α} {next : α → Except ε β} {error : ε} :
    (first >>= next) = .error error ↔
      first = .error error ∨ ∃ value, first = .ok value ∧
        next value = .error error := by
  cases first <;> simp

theorem mapError_eq_error {image : ε → ε'} {attempt : Except ε α} {error : ε'} :
    attempt.mapError image = .error error ↔
      ∃ cause, attempt = .error cause ∧ image cause = error := by
  cases attempt <;> simp

theorem map_eq_error {image : α → β} {attempt : Except ε α} {error : ε} :
    attempt.map image = .error error ↔ attempt = .error error := by
  cases attempt <;> simp

end Linkedit

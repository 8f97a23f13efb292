/-!
# Except — results taken apart

How a result in several steps comes to succeed or to fail.
-/
namespace Interchange

variable {ε α β : Type}

@[simp] theorem ok_bind (a : α) (f : α → Except ε β) : (Except.ok a >>= f) = f a := rfl

@[simp] theorem error_bind (e : ε) (f : α → Except ε β) : (Except.error e >>= f) = .error e := rfl

theorem bind_eq_ok {x : Except ε α} {f : α → Except ε β} {b : β} :
    (x >>= f) = .ok b ↔ ∃ a, x = .ok a ∧ f a = .ok b := by
  cases x with
  | error e => constructor <;> (intro h; simp at h)
  | ok a => simp

theorem bind_eq_error {x : Except ε α} {f : α → Except ε β} {e : ε} :
    (x >>= f) = .error e ↔ x = .error e ∨ ∃ a, x = .ok a ∧ f a = .error e := by
  cases x <;> simp

theorem map_eq_ok {x : Except ε α} {f : α → β} {b : β} : x.map f = .ok b ↔ ∃ a, x = .ok a ∧ f a = b := by
  cases x <;> simp [Except.map]

theorem bind_congr_of_ok {x : Except ε α} {f g : α → Except ε β} (hfg : ∀ a, x = .ok a → f a = g a) :
    (x >>= f) = x >>= g := by
  cases x with
  | ok a => exact hfg a rfl
  | error e => rfl

/-- The error of a result, if it is one. -/
def error? : Except ε α → Option ε
  | .ok _ => none
  | .error e => some e

@[simp] theorem error?_ok (a : α) : error? (.ok a : Except ε α) = none := rfl

@[simp] theorem error?_error (e : ε) : error? (.error e : Except ε α) = some e := rfl

theorem error?_eq_some {x : Except ε α} {e : ε} : error? x = some e ↔ x = .error e := by
  cases x <;> simp

theorem error?_eq_none {x : Except ε α} : error? x = none ↔ ∃ a, x = .ok a := by
  cases x <;> simp

/-- **The error of a result in two steps** is that of the first, or else that of the second. -/
theorem error?_bind {x : Except ε α} {f : α → Except ε β} {o : Option ε} (hf : ∀ a, x = .ok a → error? (f a) = o) :
    error? (x >>= f) = (error? x).or o := by
  cases x with
  | ok a => exact hf a rfl
  | error e => rfl

end Interchange

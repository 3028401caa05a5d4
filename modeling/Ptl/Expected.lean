import Mathlib.Logic.Basic

/-!
# `expected` with `error_policy_throw`

The storage in which the promise of a `Task` keeps what its coroutine ended
with: `expected<T, std::exception_ptr, error_policy_throw>`, and the
specialisation for `void`, which contains `NOTHING` after a normal return.
-/

namespace Ptl

universe u v

/-- An exception of a coroutine, or the `std::logic_error` of `enforce`. -/
inductive Thrown (E : Type v) where
  | user (e : E)
  | invalidAccess
deriving DecidableEq

/-- `contains_` and the member of the union that it says is alive. -/
inductive Expected (V : Type u) (E : Type v) where
  | nothing
  | expected (v : V)
  | unexpected (e : Thrown E)
deriving DecidableEq

namespace Expected

variable {V : Type u} {E : Type v}

/-- `value()`: `enforce(Contains::EXPECTED)`, then the value. -/
def value : Expected V E → Except (Thrown E) V
  | expected v => .ok v
  | unexpected e => .error e
  | nothing => .error .invalidAccess

/-- `value()` of the specialisation for `void`: `enforce(Contains::NOTHING)`. -/
def valueVoid : Expected V E → Except (Thrown E) Unit
  | nothing => .ok ()
  | unexpected e => .error e
  | expected _ => .error .invalidAccess

end Expected

end Ptl

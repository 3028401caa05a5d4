import Ptl.TransitionSystem
import Mathlib.Logic.Function.Basic

/-!
# `error_code`

An `error_code` holds its value; its location and its reason are in `ext_`, which is one object
for each thread.  The constructor with a location writes it, the constructors without one do
not, and neither do copies.  The constructors with a reason cannot be called: the default of
their last template parameter has type `void`.

**Results.**
* `ext_eq`: `ext_` holds the last location that was given on the thread.
* `extended_right_iff`: after any run, `extended()` reports what was given to the last
  construction on the thread exactly if that was a location, or if the last location given
  there before was the empty one.
-/

namespace Ptl
namespace ErrorCode

open Transition

universe u v

structure SourceLocation where
  file : String
  func : String
  line : BitVec 32
  col : BitVec 32
deriving DecidableEq

/-- `source_location()`. -/
def SourceLocation.new : SourceLocation where
  file := "unknown"
  func := "unknown"
  line := 0
  col := 0

structure ErrorCodeExt where
  loc : SourceLocation
  reason : String
deriving DecidableEq

namespace ErrorCodeExt

/-- `error_code_ext()`. -/
def new : ErrorCodeExt where
  loc := .new
  reason := ""

/-- `error_code_ext(const source_location &)`. -/
def ofLocation (loc : SourceLocation) : ErrorCodeExt where
  loc := loc
  reason := ""

theorem ofLocation_inj
    {l l' : SourceLocation} :
    ofLocation l = ofLocation l' ↔ l = l' := by
  simp [ofLocation]

end ErrorCodeExt

/-- The constructions of an object, and its construction or assignment from another one. -/
inductive Statement (ν : Type v) where
  | default (x : ν)
  | value (x : ν) (v : BitVec 32)
  | located (x : ν) (v : BitVec 32) (loc : SourceLocation)
  | copy (x o : ν)
deriving DecidableEq

/-- The values of the objects, and `ext_` of every thread. -/
structure State (θ : Type u) (ν : Type v) where
  value : ν → Option (BitVec 32)
  ext : θ → ErrorCodeExt

namespace State

variable {θ : Type u} {ν : Type v}

/-- `extended()`, called on a thread. -/
def extended (s : State θ ν) (i : θ) (x : ν) : Option ErrorCodeExt :=
  (s.value x).map fun _ => s.ext i

end State

section Runs

variable {θ : Type u} {ν : Type v} [DecidableEq θ] [DecidableEq ν]

def Statement.next (s : State θ ν) (i : θ) : Statement ν → State θ ν
  | default x => { s with value := Function.update s.value x (some 0) }
  | value x v => { s with value := Function.update s.value x (some v) }
  | located x v loc =>
      { value := Function.update s.value x (some v)
        ext := Function.update s.ext i (.ofLocation loc) }
  | copy x o => { s with value := Function.update s.value x (s.value o) }

/-- Only objects that exist are copied. -/
def Statement.guard (s : State θ ν) : Statement ν → Prop
  | copy _ o => (s.value o).isSome = true
  | _ => True

/-- All programs that construct and copy error codes on any number of threads. -/
def errorCodes (θ : Type u) (ν : Type v) [DecidableEq θ] [DecidableEq ν] :
    System (State θ ν) (θ × Statement ν) where
  init := fun s => s = { value := fun _ => none, ext := fun _ => .new }
  guard := fun s e => e.2.guard s
  next := fun s e => e.2.next s e.1

/-- What was given to a construction, and the object that it constructs. -/
def Statement.given : Statement ν → Option (ν × SourceLocation)
  | default x => some (x, .new)
  | value x _ => some (x, .new)
  | located x _ loc => some (x, loc)
  | copy _ _ => none

/-- The constructor takes a location. -/
def Statement.isLocated : Statement ν → Bool
  | located _ _ _ => true
  | _ => false

/-- The last location that was given on a thread, after one more statement. -/
def locationAfter (i : θ) (loc : SourceLocation) (e : θ × Statement ν) : SourceLocation :=
  match e.2 with
  | .located _ _ loc' => if e.1 = i then loc' else loc
  | _ => loc

/-- The last location that was given on a thread. -/
def lastLocation (i : θ) (tr : List (θ × Statement ν)) : SourceLocation :=
  tr.foldl (locationAfter i) .new

variable {tr es fs : List (θ × Statement ν)} {s : State θ ν} {i : θ} {c : Statement ν}
variable {x : ν} {loc : SourceLocation}

/-- `ext_` is written by the constructor with a location, on its own thread. -/
theorem ext_eq
    (hrun : (errorCodes θ ν).Run tr s)
    (i : θ) :
    s.ext i = .ofLocation (lastLocation i tr) := by
  induction hrun with
  | start hinit =>
      cases hinit
      rfl
  | @step tr s e hrun hguard ih =>
      obtain ⟨j, c⟩ := e
      rw [lastLocation, List.foldl_append]
      cases c with
      | default x => exact ih
      | value x v => exact ih
      | copy x o => exact ih
      | located x v loc =>
          simp only [errorCodes, Statement.next, List.foldl_cons, List.foldl_nil, locationAfter]
          rcases eq_or_ne j i with rfl | hne
          · rw [Function.update_self, if_pos rfl]
          · rw [Function.update_of_ne hne.symm, if_neg hne]
            exact ih

omit [DecidableEq θ] in
theorem isSome_update
    {f : ν → Option (BitVec 32)} {o : Option (BitVec 32)} {y : ν}
    (ho : o.isSome = true)
    (hx : (f x).isSome = true) :
    (Function.update f y o x).isSome = true := by
  rw [Function.update_apply]
  split
  · exact ho
  · exact hx

/-- No statement ends an object. -/
theorem isSome_next
    (hguard : c.guard s)
    (hsome : (s.value x).isSome = true) :
    ((c.next s i).value x).isSome = true := by
  cases c with
  | copy y o => exact isSome_update hguard hsome
  | default y => exact isSome_update rfl hsome
  | value y v => exact isSome_update rfl hsome
  | located y v loc => exact isSome_update rfl hsome

/-- An object that was constructed exists. -/
theorem isSome_of_given
    (hrun : (errorCodes θ ν).Run tr s)
    (hmem : (i, c) ∈ tr)
    (hgiven : c.given = some (x, loc)) :
    (s.value x).isSome = true := by
  induction hrun with
  | start _ =>
      cases hmem
  | @step tr s e hrun hguard ih =>
      rcases List.mem_append.mp hmem with hpast | hnow
      · exact isSome_next hguard (ih hpast)
      · obtain rfl := List.mem_singleton.mp hnow
        cases c with
        | copy y o => cases hgiven
        | default y =>
            cases hgiven
            simp [errorCodes, Statement.next]
        | value y v =>
            cases hgiven
            simp [errorCodes, Statement.next]
        | located y v loc' =>
            cases hgiven
            simp [errorCodes, Statement.next]

omit [DecidableEq ν] in
/-- Copies and the statements of other threads do not count. -/
theorem foldl_locationAfter
    (hlast : ∀ f ∈ fs, f.1 = i → f.2.given = none)
    (loc : SourceLocation) :
    fs.foldl (locationAfter i) loc = loc := by
  induction fs with
  | nil =>
      rfl
  | cons f fs ih =>
      rw [List.forall_mem_cons] at hlast
      obtain ⟨j, c⟩ := f
      have hkeep : locationAfter i loc (j, c) = loc := by
        cases c with
        | located x v loc' => exact if_neg fun hj => by cases hlast.1 hj
        | default x => rfl
        | value x v => rfl
        | copy x o => rfl
      rw [List.foldl_cons, hkeep, ih hlast.2]

/--
After every run in which `c` is the last construction on the thread, `extended()` reports what
was given to it exactly if `c` has a location, or if none was given on the thread before, or
the empty one.
-/
theorem extended_right_iff
    (hrun : (errorCodes θ ν).Run (es ++ (i, c) :: fs) s)
    (hgiven : c.given = some (x, loc))
    (hlast : ∀ f ∈ fs, f.1 = i → f.2.given = none) :
    s.extended i x = some (.ofLocation loc) ↔
      c.isLocated = true ∨ lastLocation i es = .new := by
  have hmem : (i, c) ∈ es ++ (i, c) :: fs :=
    List.mem_append_right es List.mem_cons_self
  have hsome := isSome_of_given hrun hmem hgiven
  obtain ⟨v, hv⟩ := Option.isSome_iff_exists.mp hsome
  have hlocation : lastLocation i (es ++ (i, c) :: fs) =
      locationAfter i (lastLocation i es) (i, c) := by
    rw [lastLocation, List.foldl_append, List.foldl_cons, foldl_locationAfter hlast]
    rfl
  rw [State.extended, hv, Option.map_some, ext_eq hrun i, hlocation, Option.some.injEq,
    ErrorCodeExt.ofLocation_inj]
  cases c with
  | copy y o => cases hgiven
  | located y v loc' =>
      cases hgiven
      exact iff_of_true (if_pos rfl) (.inl rfl)
  | default y =>
      cases hgiven
      simp [locationAfter, Statement.isLocated]
  | value y v =>
      cases hgiven
      simp [locationAfter, Statement.isLocated]

instance (s : State θ ν) (e : θ × Statement ν) : Decidable ((errorCodes θ ν).guard s e) :=
  match e with
  | (_, .copy _ o) => inferInstanceAs (Decidable ((s.value o).isSome = true))
  | (_, .default _) => isTrue trivial
  | (_, .value _ _) => isTrue trivial
  | (_, .located _ _ _) => isTrue trivial

end Runs

/-- The location of a call in `returns_null_error`. -/
def returnsNullError : SourceLocation where
  file := "expected_ut.cpp"
  func := "returns_null_error"
  line := 12
  col := 0

/-- The last construction has a location; a copy and another thread do not matter. -/
theorem extended_right_located :
    ∃ s, (errorCodes Bool ℕ).Run
        [(false, .value 0 5), (false, .located 1 (-3) returnsNullError), (false, .copy 2 0),
          (true, .default 3)] s ∧
      s.extended false 1 = some (.ofLocation returnsNullError) := by
  have hrun : (errorCodes Bool ℕ).Run
      ([(false, .value 0 5)] ++ (false, .located 1 (-3) returnsNullError) ::
        [(false, .copy 2 0), (true, .default 3)]) _ :=
    .of_enabled rfl (by decide)
  exact ⟨_, hrun, (extended_right_iff hrun rfl (by decide)).mpr (.inl rfl)⟩

/-- An error without a location shows that of an earlier one. -/
theorem not_extended_right :
    ∃ s, (errorCodes Unit ℕ).Run
        [((), .located 0 (-3) returnsNullError), ((), .value 1 5)] s ∧
      s.extended () 1 = some (.ofLocation returnsNullError) ∧
      s.extended () 1 ≠ some .new :=
  have hrun : (errorCodes Unit ℕ).Run
      [((), .located 0 (-3) returnsNullError), ((), .value 1 5)] _ :=
    .of_enabled rfl (by decide)
  ⟨_, hrun, rfl, by decide⟩

end ErrorCode
end Ptl

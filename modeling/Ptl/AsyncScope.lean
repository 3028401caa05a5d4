import Ptl.TransitionSystem
import Mathlib.Logic.Function.Basic

/-!
# `async_scope`

This module embeds `async_scope` as a transition system over the coroutine that
owns the scope and any number of pieces of work, named by `ι`.

* `spawn` is called by the owner before it joins or by work that is running.  It
  runs `on_work_started` of the new work inline, so the caller stays inside
  `spawn` until the counter has been incremented.
* Work that ends runs `on_work_finished`: it decrements the counter and, if the
  old count is one, resumes the stored continuation.
* `join` tests `await_ready`, stores its continuation and decrements the
  counter; the owner stays suspended if the old count is greater than one.

Every access to `count_` is one step, and the steps interleave freely.  Work
that throws terminates the program and is left out.
-/

namespace Ptl
namespace AsyncScope

open Transition

universe u

/--
Where the owner of the scope or a piece of work is.  Work that is being started
knows its spawner: the owner (`none`) or other work.
-/
inductive Place (ι : Type u) where
  | fresh
  | starting (spawner : Option ι)
  | adding (spawner : Option ι)
  | running
  | spawning
  | ready
  | storing
  | subtracting
  | suspended
  | resuming
  | continued
  | done
deriving DecidableEq

/-- `count_`, whether `continuation_` is set, the owner (`none`) and the work. -/
structure State (ι : Type u) where
  count : Nat
  continuation : Bool
  place : Option ι → Place ι

inductive Event (ι : Type u) where
  | spawn (a : Option ι) (b : ι)
  | assertStarted (a : Option ι) (b : ι) (old : Nat)
  | workStarted (a : Option ι) (b : ι)
  | workFinished (b : ι) (old : Nat)
  | resume (b : ι)
  | joinReady
  | joinNotReady
  | storeContinuation
  | joinSuspend (old : Nat)
deriving DecidableEq

variable {ι : Type u} [DecidableEq ι]

/-- The owner or work `a` moves to `p`. -/
def State.move (s : State ι) (a : Option ι) (p : Place ι) : State ι :=
  { s with place := Function.update s.place a p }

namespace Event

def guard (s : State ι) : Event ι → Prop
  | spawn a b => s.place a = .running ∧ s.place (some b) = .fresh
  | assertStarted a b old => s.place (some b) = .starting a ∧ old = s.count
  | workStarted a b => s.place (some b) = .adding a
  | workFinished b old => s.place (some b) = .running ∧ old = s.count
  | resume b => s.place (some b) = .resuming
  | joinReady => s.place none = .running ∧ s.count = 0
  | joinNotReady => s.place none = .running ∧ s.count ≠ 0
  | storeContinuation => s.place none = .storing
  | joinSuspend old => s.place none = .subtracting ∧ old = s.count

def next (s : State ι) : Event ι → State ι
  | spawn a b => (s.move a .spawning).move (some b) (.starting a)
  | assertStarted a b _ => s.move (some b) (.adding a)
  | workStarted a b =>
      { (s.move (some b) .running).move a .running with count := s.count + 1 }
  | workFinished b old =>
      { s.move (some b) (if old = 1 then .resuming else .done) with
        count := s.count - 1 }
  | resume b => (s.move (some b) .done).move none .continued
  | joinReady => s.move none .ready
  | joinNotReady => s.move none .storing
  | storeContinuation => { s.move none .subtracting with continuation := true }
  | joinSuspend old =>
      { s.move none (if old > 1 then .suspended else .continued) with
        count := s.count - 1 }

instance decidableGuard (s : State ι) (e : Event ι) :
    Decidable (e.guard s) := by
  cases e <;> unfold guard <;> infer_instance

/-- Who lets the owner continue after `join`: itself or work. -/
def continuer? : Event ι → Option (Option ι)
  | joinReady => some none
  | joinSuspend old => if old > 1 then none else some none
  | resume b => some (some b)
  | _ => none

end Event

/-- A new scope. -/
def start : State ι where
  count := 1
  continuation := false
  place := fun a => if a = none then .running else .fresh

/-- All runs of one scope with a single `join`. -/
def asyncScope : System (State ι) (Event ι) where
  init := fun s => s = start
  guard := Event.guard
  next := Event.next

@[simp] theorem asyncScope_next (s : State ι) (e : Event ι) :
    asyncScope.next s e = e.next s := by
  rfl

instance decidableAsyncScopeGuard (s : State ι) (e : Event ι) :
    Decidable (asyncScope.guard s e) :=
  inferInstanceAs (Decidable (e.guard s))

/-- The continuations of the owner after `join` in a run. -/
def continuations (tr : List (Event ι)) : List (Option ι) :=
  tr.filterMap Event.continuer?

@[simp] theorem move_self (s : State ι) (a : Option ι) (p : Place ι) :
    (s.move a p).place a = p := by
  simp [State.move]

theorem move_of_ne
    (s : State ι) {a b : Option ι} (p : Place ι)
    (h : b ≠ a) :
    (s.move a p).place b = s.place b := by
  simp [State.move, h]

end AsyncScope
end Ptl

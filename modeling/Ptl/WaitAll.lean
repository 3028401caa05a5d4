import Ptl.TransitionSystem
import Mathlib.Logic.Function.Basic
import Mathlib.Data.Fin.Basic

/-!
# `wait_all`

This module embeds `wait_all_counter`, `wait_all_awaitable` and
`wait_all_promise` for `n` tasks and one awaiting coroutine as a transition
system.

* The awaiting coroutine tests `await_ready`, starts the tasks in order, stores
  its handle and decrements the counter; it stays suspended if the old count is
  greater than one.
* A started task runs until it yields its result or ends with an exception,
  which it stores in its promise.  Its final suspension then decrements the
  counter, and resumes the stored handle if the old count is one.

The steps of the started tasks interleave with everything else, so a task may
finish while the next one has not been started yet, or on any other thread.
The specialisation for no tasks is always ready.
-/

namespace Ptl
namespace WaitAll

open Transition

universe u v

/-- How a task ends. -/
inductive Outcome (V : Type u) (E : Type v) where
  | value (v : V)
  | exception (e : E)
deriving DecidableEq

/-- `result_` and `exception_` of a `wait_all_promise`. -/
structure Promise (V : Type u) (E : Type v) where
  result : Option V
  exception : Option E
deriving DecidableEq

namespace Promise

variable {V : Type u} {E : Type v}

/-- A new promise. -/
def new : Promise V E where
  result := none
  exception := none

/-- `yield_value` or `unhandled_exception`. -/
def store (p : Promise V E) : Outcome V E → Promise V E
  | .value v => { p with result := some v }
  | .exception e => { p with exception := some e }

/-- `result()`: rethrow a stored exception, else return the stored value. -/
def outcome (p : Promise V E) : Option (Outcome V E) :=
  match p.exception with
  | some e => some (.exception e)
  | none => p.result.map .value

@[simp] theorem outcome_store_new (o : Outcome V E) :
    (new.store o).outcome = some o := by
  cases o <;> rfl

end Promise

/-- Where the awaiting coroutine is. -/
inductive Awaiter where
  | awaiting
  | ready
  | starting (k : Nat)
  | storing
  | subtracting
  | suspended
  | continued
deriving DecidableEq

/-- Where a task is. -/
inductive TaskState where
  | notStarted
  | running
  | notifying
  | resuming
  | final
deriving DecidableEq

/-- The counter, the awaiting coroutine and the tasks. -/
structure State (n : Nat) (V : Type u) (E : Type v) where
  count : Nat
  coroutine : Bool
  awaiter : Awaiter
  task : Fin n → TaskState
  promise : Fin n → Promise V E

inductive Event (n : Nat) (V : Type u) (E : Type v) where
  | ready
  | notReady
  | startTask (i : Fin n)
  | tasksStarted
  | storeCoroutine
  | beginAwait (old : Nat)
  | finish (i : Fin n) (o : Outcome V E)
  | notify (i : Fin n) (old : Nat)
  | resume (i : Fin n)
deriving DecidableEq

variable {n : Nat} {V : Type u} {E : Type v}

namespace Event

def guard (s : State n V E) : Event n V E → Prop
  | ready => s.awaiter = .awaiting ∧ (n = 0 ∨ s.coroutine = true)
  | notReady => s.awaiter = .awaiting ∧ n ≠ 0 ∧ s.coroutine = false
  | startTask i => s.awaiter = .starting i
  | tasksStarted => s.awaiter = .starting n
  | storeCoroutine => s.awaiter = .storing
  | beginAwait old => s.awaiter = .subtracting ∧ old = s.count
  | finish i _ => s.task i = .running
  | notify i old => s.task i = .notifying ∧ old = s.count
  | resume i => s.task i = .resuming

def next (s : State n V E) : Event n V E → State n V E
  | ready => { s with awaiter := .ready }
  | notReady => { s with awaiter := .starting 0 }
  | startTask i =>
      { s with
        awaiter := .starting (i + 1)
        task := Function.update s.task i .running }
  | tasksStarted => { s with awaiter := .storing }
  | storeCoroutine => { s with coroutine := true, awaiter := .subtracting }
  | beginAwait old =>
      { s with
        count := s.count - 1
        awaiter := if old > 1 then .suspended else .continued }
  | finish i o =>
      { s with
        promise := Function.update s.promise i ((s.promise i).store o)
        task := Function.update s.task i .notifying }
  | notify i old =>
      { s with
        count := s.count - 1
        task := Function.update s.task i
          (if old = 1 then .resuming else .final) }
  | resume i =>
      { s with
        awaiter := .continued
        task := Function.update s.task i .final }

instance decidableGuard (s : State n V E) (e : Event n V E) :
    Decidable (e.guard s) := by
  cases e <;> unfold guard <;> infer_instance

/-- Who lets the awaiting coroutine continue: itself or a task. -/
def continuer? : Event n V E → Option (Option (Fin n))
  | ready => some none
  | beginAwait old => if old > 1 then none else some none
  | resume i => some (some i)
  | _ => none

end Event

/-- A new `wait_all_awaitable` that a coroutine is about to await. -/
def start : State n V E where
  count := n + 1
  coroutine := false
  awaiter := .awaiting
  task := fun _ => .notStarted
  promise := fun _ => .new

/-- All runs of `co_await wait_all(...)` with `n` tasks. -/
def waitAll (n : Nat) (V : Type u) (E : Type v) :
    System (State n V E) (Event n V E) where
  init := fun s => s = start
  guard := Event.guard
  next := Event.next

@[simp] theorem waitAll_next (s : State n V E) (e : Event n V E) :
    (waitAll n V E).next s e = e.next s := by
  rfl

instance decidableWaitAllGuard (s : State n V E) (e : Event n V E) :
    Decidable ((waitAll n V E).guard s e) :=
  inferInstanceAs (Decidable (e.guard s))

/-- The continuations of the awaiting coroutine in a run. -/
def continuations (tr : List (Event n V E)) : List (Option (Fin n)) :=
  tr.filterMap Event.continuer?

end WaitAll
end Ptl

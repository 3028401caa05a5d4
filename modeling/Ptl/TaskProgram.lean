import Ptl.Expected
import Ptl.TransitionSystem
import Mathlib.Data.Fin.Tuple.Basic

/-!
# Nested tasks without executors

This module embeds the coroutine machinery that runs when no executor is
involved: the promise of a `Task`, `operator co_await`, and the coroutine that
`sync_wait` wraps around the awaitable.

A `Program` is the body of a `Task`: ordinary code that acts on a store, calls of
coroutines whose `Task`s the body keeps in variables, `co_await` of these,
`co_return`, and `throw`.  `Program.eval` is its direct meaning, where the first
`co_await` of a `Task` is the function call.  `syncWait` runs it by the steps of
the source: `initial_suspend`, `await_ready`, `await_suspend` with its transfer
to the awaited coroutine, `return_value` or `unhandled_exception`,
`final_suspend` with its transfer to the continuation, and `await_resume`.
-/

namespace Ptl
namespace SyncWait

open Transition

universe u v w

/-- `Task<T>` or `Task<void>`. -/
inductive Kind where
  | value
  | void
deriving DecidableEq

/--
What `value_ = storage(value)` comes to.  In `return_value` the name `value` is an
lvalue, so `storage(value)` copies the operand, and the assignment moves the copy.
An `std::exception_ptr`, which may be null, is taken for the error.
-/
inductive Storing (E : Type w) where
  | stored
  | exceptionPtr (e : Option (Thrown E))
  | copyThrows (e : Thrown E)
  | moveThrows (e : Thrown E)
deriving DecidableEq

/--
The operand of `co_return` in a `Task<T>`: the value that `return` gives to the caller of
a function, what storing it comes to, and whether the `return_value` that takes the
operand is `noexcept`.
-/
structure Operand (V : Type v) (E : Type w) where
  value : V
  storing : Storing E
  noexcept : Bool
deriving DecidableEq

/-- An operand that is copied and moved without an exception, such as an `int`. -/
def Operand.plain {V : Type v} {E : Type w} (v : V) : Operand V E where
  value := v
  storing := .stored
  noexcept := true

/-- The newest of the `Task`s that a body holds. -/
def newest {n : Nat} : Fin (n + 1) :=
  0

/--
The rest of the body of a `Task` while it holds `n` `Task`s, of which `0` is the newest
one: `create` is a call of a coroutine, `leave` the end of the scope of its `Task`.
After `co_await` the body goes on with `k` or, if the awaited `Task` throws, with `h`,
which is `throw` where the body does not catch the exception.  A `co_return` stands
outside of the body's handlers; one whose operand throws in a function as well is a
`throw`.
-/
inductive Program (σ : Type u) (V : Type v) (E : Type w) :
    Nat → Type (max u v w) where
  | coReturn {n : Nat} (o : Operand V E) : Program σ V E n
  | throw {n : Nat} (e : Thrown E) : Program σ V E n
  | act {n : Nat} (f : σ → V × σ) (k : V → Program σ V E n) : Program σ V E n
  | create {n : Nat} (kind : Kind) (child : Program σ V E 0)
      (p : Program σ V E (n + 1)) : Program σ V E n
  | await {n : Nat} (x : Fin n) (k : V → Program σ V E n)
      (h : Thrown E → Program σ V E n) : Program σ V E n
  | leave {n : Nat} (p : Program σ V E n) : Program σ V E (n + 1)

variable {σ : Type u} {V : Type v} {E : Type w}

/-- The value of a call; that of a `void` function carries nothing. -/
def Kind.returned [Inhabited V] : Kind → V → V
  | value, v => v
  | void, _ => default

/-- `co_return` has an operand in a `Task<T>` only. -/
def Kind.operands : Kind → Operand V E → List (Operand V E)
  | value, o => [o]
  | void, _ => []

/-- What a call comes to, with the operands of the `return`s on the way. -/
structure Evaluation (σ : Type u) (V : Type v) (E : Type w) where
  outcome : Except (Thrown E) V
  store : σ
  operands : List (Operand V E)

/-- The same evaluation after one that has come to the operands `os`. -/
def Evaluation.after
    (r : Evaluation σ V E) (os : List (Operand V E)) : Evaluation σ V E :=
  { r with operands := os ++ r.operands }

/-- A `Task` that a body holds: a call that is still to be made, or its outcome. -/
inductive Held (σ : Type u) (V : Type v) (E : Type w) where
  | pending (call : σ → Evaluation σ V E)
  | ended (o : Except (Thrown E) V)

/-- The first `co_await` makes the call, and each later one has the same outcome. -/
def Held.call : Held σ V E → σ → Evaluation σ V E
  | pending call, st => call st
  | ended o, st => { outcome := o, store := st, operands := [] }

/-- The direct meaning of the rest of a body, for the `Task`s that it holds. -/
def Program.evalIn [Inhabited V] :
    {n : Nat} → Program σ V E n → Kind → (Fin n → Held σ V E) → σ → Evaluation σ V E
  | _, coReturn o, kind, _, st =>
      { outcome := .ok (kind.returned o.value), store := st, operands := kind.operands o }
  | _, throw e, _, _, st => { outcome := .error e, store := st, operands := [] }
  | _, act f k, kind, held, st => (k (f st).1).evalIn kind held (f st).2
  | _, create childKind child p, kind, held, st =>
      p.evalIn kind (Fin.cons (.pending (child.evalIn childKind Fin.elim0)) held) st
  | _, await x k h, kind, held, st =>
      let called := (held x).call st
      let held' := Function.update held x (.ended called.outcome)
      match called.outcome with
      | .ok v => ((k v).evalIn kind held' called.store).after called.operands
      | .error e => ((h e).evalIn kind held' called.store).after called.operands
  | _, leave p, kind, held, st => p.evalIn kind (Fin.tail held) st

/-- The direct meaning of a body: every `co_await` is a function call. -/
def Program.eval [Inhabited V] (p : Program σ V E 0) (kind : Kind) :
    σ → Evaluation σ V E :=
  p.evalIn kind Fin.elim0

/-- The coroutine of `sync_wait`, or that of a `Task`. -/
inductive Handle where
  | syncWait
  | task (c : Nat)
deriving DecidableEq

/--
Where the coroutine of a `Task` is suspended or about to go on; `tasks` are the
coroutines of the `Task`s that its body holds.
-/
inductive Point (σ : Type u) (V : Type v) (E : Type w) where
  | initial (p : Program σ V E 0)
  | body {n : Nat} (p : Program σ V E n) (tasks : Fin n → Nat)
  | awaiting {n : Nat} (x : Fin n) (k : V → Program σ V E n)
      (h : Thrown E → Program σ V E n) (tasks : Fin n → Nat)
  | final

/-- A coroutine frame with `continuation_` and `value_` of the promise. -/
structure Frame (σ : Type u) (V : Type v) (E : Type w) where
  kind : Kind
  point : Point σ V E
  continuation : Option Handle
  value : Expected V E

/--
How a run ends in which `sync_wait` does not return: `std::terminate`, because an
exception leaves a `noexcept` function, or undefined behaviour.
-/
inductive Stop where
  | terminate
  | undefined
deriving DecidableEq

namespace Frame

/-- A new coroutine, suspended at `initial_suspend`. -/
def new (kind : Kind) (p : Program σ V E 0) : Frame σ V E where
  kind := kind
  point := .initial p
  continuation := none
  value := .nothing

/-- `handle.done()`. -/
def done (f : Frame σ V E) : Bool :=
  match f.point with
  | .final => true
  | _ => false

def unhandledException (f : Frame σ V E) (e : Thrown E) : Frame σ V E :=
  { f with
    point := .final
    value := .unexpected e }

/--
`return_value`.  A move that throws leaves `contains_` at `EXPECTED` without a value,
which `unhandled_exception` then destroys.  A null `exception_ptr` is rethrown.
-/
def returnValue (f : Frame σ V E) (o : Operand V E) : Except Stop (Frame σ V E) :=
  match o.storing with
  | .stored => .ok { f with point := .final, value := .expected o.value }
  | .exceptionPtr (some e) => .ok { f with point := .final, value := .unexpected e }
  | .exceptionPtr none => .error .undefined
  | .copyThrows e =>
      if o.noexcept then .error .terminate else .ok (f.unhandledException e)
  | .moveThrows _ => .error (if o.noexcept then .terminate else .undefined)

/-- `return_void`, which stores nothing. -/
def returnVoid (f : Frame σ V E) : Frame σ V E :=
  { f with point := .final }

def coReturn (f : Frame σ V E) (o : Operand V E) : Except Stop (Frame σ V E) :=
  match f.kind with
  | .value => f.returnValue o
  | .void => .ok f.returnVoid

/-- `result()` of the promise. -/
def result [Inhabited V] (f : Frame σ V E) : Except (Thrown E) V :=
  match f.kind with
  | .value => f.value.value
  | .void => f.value.valueVoid.map fun _ => default

end Frame

/-- Where the coroutine of `sync_wait` is. -/
inductive WaitPoint where
  | initial
  | body
  | awaiting
  | yielded
  | final
deriving DecidableEq

/-- `result_`, here the value it points to if it is set, and `exception_`. -/
structure Waiter (V : Type v) (E : Type w) where
  point : WaitPoint
  result : Option V
  exception : Option (Thrown E)

/--
The store, the frames created so far and the coroutine that is running.  If `stop` is
set, nothing happens any more.
-/
structure State (σ : Type u) (V : Type v) (E : Type w) where
  store : σ
  frame : Nat → Frame σ V E
  allocated : Nat
  waiter : Waiter V E
  current : Option Handle
  stop : Option Stop

inductive Event where
  | start
  | create (c d : Nat)
  | await (h : Handle) (d : Nat)
  | begin (c : Nat)
  | act (c : Nat)
  | leave (c d : Nat)
  | finish (c : Nat)
  | finalSuspend (c : Nat)
  | resume (h : Handle) (d : Nat)
deriving DecidableEq

namespace State

def setFrame (s : State σ V E) (c : Nat) (f : Frame σ V E) : State σ V E :=
  { s with frame := Function.update s.frame c f }

def setPoint (s : State σ V E) (c : Nat) (p : Point σ V E) : State σ V E :=
  s.setFrame c { s.frame c with point := p }

/-- What the coroutine `c` does next when it runs. -/
def eventOf (s : State σ V E) (c : Nat) : Event :=
  match (s.frame c).point with
  | .initial _ => .begin c
  | .body (.coReturn _) _ => .finish c
  | .body (.throw _) _ => .finish c
  | .body (.act _ _) _ => .act c
  | .body (.create _ _ _) _ => .create c s.allocated
  | .body (.await x _ _) tasks => .await (.task c) (tasks x)
  | .body (.leave _) tasks => .leave c (tasks 0)
  | .awaiting x _ _ tasks => .resume (.task c) (tasks x)
  | .final => .finalSuspend c

/-- What the coroutine of `sync_wait` does next when it runs. -/
def waiterEvent? (s : State σ V E) : Option Event :=
  match s.waiter.point with
  | .body => some (.await .syncWait 0)
  | .awaiting => some (.resume .syncWait 0)
  | _ => none

/-- What happens next. -/
def event? (s : State σ V E) : Option Event :=
  match s.stop with
  | some _ => none
  | none =>
      match s.current with
      | none => if s.waiter.point = .initial then some .start else none
      | some .syncWait => s.waiterEvent?
      | some (.task c) => some (s.eventOf c)

/-- The call that creates a `Task`; its coroutine stops at `initial_suspend`. -/
def create (s : State σ V E) (c : Nat) : State σ V E :=
  match (s.frame c).point with
  | .body (.create kind child p) tasks =>
      { (s.setPoint c (.body p (Fin.cons s.allocated tasks))).setFrame s.allocated
          (.new kind child) with
        allocated := s.allocated + 1 }
  | _ => s

/-- The coroutine `h` is now in the `co_await` it was about to make. -/
def suspend (s : State σ V E) : Handle → State σ V E
  | .syncWait => { s with waiter := { s.waiter with point := .awaiting } }
  | .task c =>
      match (s.frame c).point with
      | .body (.await x k h) tasks => s.setPoint c (.awaiting x k h tasks)
      | _ => s

/--
`co_await` of the `Task` `c` by `h`: `await_ready`, and unless it holds
`await_suspend`, which sets the continuation and transfers control to `c`.
-/
def await (s : State σ V E) (h : Handle) (c : Nat) : State σ V E :=
  if (s.frame c).done then s.suspend h
  else
    { (s.suspend h).setFrame c
        { (s.suspend h).frame c with continuation := some h } with
      current := some (.task c) }

def begin (s : State σ V E) (c : Nat) : State σ V E :=
  match (s.frame c).point with
  | .initial p => s.setPoint c (.body p Fin.elim0)
  | _ => s

def act (s : State σ V E) (c : Nat) : State σ V E :=
  match (s.frame c).point with
  | .body (.act f k) tasks =>
      { s.setPoint c (.body (k (f s.store).1) tasks) with store := (f s.store).2 }
  | _ => s

/-- The newest `Task` goes out of scope; its destructor runs no code of a body. -/
def leave (s : State σ V E) (c : Nat) : State σ V E :=
  match (s.frame c).point with
  | .body (.leave p) tasks => s.setPoint c (.body p (Fin.tail tasks))
  | _ => s

def finish (s : State σ V E) (c : Nat) : State σ V E :=
  match (s.frame c).point with
  | .body (.coReturn o) _ =>
      match (s.frame c).coReturn o with
      | .ok f => s.setFrame c f
      | .error e => { s with stop := some e }
  | .body (.throw e) _ => s.setFrame c ((s.frame c).unhandledException e)
  | _ => s

/-- `final_suspend` without an executor: transfer to the continuation. -/
def finalSuspend (s : State σ V E) (c : Nat) : State σ V E :=
  { s with current := (s.frame c).continuation }

variable [Inhabited V]

/--
The coroutine of `sync_wait` gets the outcome: `co_yield` of the value,
`co_return` in the case of `void`, or `unhandled_exception`.  Either way it
suspends and `start` returns.
-/
def outcome (s : State σ V E) (kind : Kind) :
    Except (Thrown E) V → State σ V E
  | .ok v =>
      match kind with
      | .value =>
          { s with
            waiter := { s.waiter with point := .yielded, result := some v }
            current := none }
      | .void =>
          { s with
            waiter := { s.waiter with point := .final }
            current := none }
  | .error e =>
      { s with
        waiter := { s.waiter with point := .final, exception := some e }
        current := none }

/-- `await_resume`: the result of the `Task` `c`, or its exception. -/
def resume (s : State σ V E) (h : Handle) (c : Nat) : State σ V E :=
  match h with
  | .syncWait => s.outcome (s.frame c).kind (s.frame c).result
  | .task b =>
      match (s.frame b).point with
      | .awaiting _ k h tasks =>
          match (s.frame c).result with
          | .ok v => s.setPoint b (.body (k v) tasks)
          | .error e => s.setPoint b (.body (h e) tasks)
      | _ => s

/-- `result()` of the promise of `sync_wait`; `none` reads an unset pointer. -/
def syncWaitResult (s : State σ V E) (kind : Kind) :
    Option (Except (Thrown E) V) :=
  match s.waiter.exception with
  | some e => some (.error e)
  | none =>
      match kind with
      | .value => s.waiter.result.map .ok
      | .void => some (.ok default)

def next (s : State σ V E) : Event → State σ V E
  | .start =>
      { s with
        waiter := { s.waiter with point := .body }
        current := some .syncWait }
  | .create c _ => s.create c
  | .await h d => s.await h d
  | .begin c => s.begin c
  | .act c => s.act c
  | .leave c _ => s.leave c
  | .finish c => s.finish c
  | .finalSuspend c => s.finalSuspend c
  | .resume h d => s.resume h d

end State

/-- The root `Task` has been created and `sync_wait` is called with it. -/
def start (kind : Kind) (p : Program σ V E 0) (st : σ) : State σ V E where
  store := st
  frame := fun _ => .new kind p
  allocated := 1
  waiter :=
    { point := .initial
      result := none
      exception := none }
  current := none
  stop := none

/-- The runs of `sync_wait` on a root `Task`. -/
def syncWait [Inhabited V] (kind : Kind) (p : Program σ V E 0) (st : σ) :
    System (State σ V E) Event where
  init := fun s => s = start kind p st
  guard := fun s e => s.event? = some e
  next := State.next

end SyncWait
end Ptl

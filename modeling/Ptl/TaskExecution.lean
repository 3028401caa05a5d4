import Ptl.Placement
import Ptl.TransitionSystem

/-!
# Tasks on executors

This module embeds `Task`, its promise and `SchedulerAwaitable` together with
the run loops of the executors they are scheduled on.

* A coroutine is a `Body`: ordinary code with any outcome, `co_await` of a
  `Task`, `co_await` of `Task::schedule_on`, `co_await SchedulerAwaitable`, and
  `co_return` or an exception.  A `Task` starts suspended and is awaited by the
  coroutine that owns it, so its frame is created here when it is awaited.
  Awaiting a `Task` that is done does not suspend and is ordinary code.
* Every executor `x` is constructed and run on a thread of its own, the
  `worker x`, where `Executor::current` is `x`.  On every other thread it is
  null; such a thread starts one coroutine that no `Task` awaits (`sync_wait`).
* `co_await` of a `Task` and `final_suspend` return a coroutine handle and so go
  on with that coroutine on the same thread.

An event is one step of one thread; `add` and the removal of work by `run` are
atomic because they hold the lock of the queue.
-/

namespace Ptl
namespace Task

open Transition Placement

universe u v

/-- A thread that runs an executor, or another one. -/
inductive Thread (ε : Type u) where
  | outer (i : Nat)
  | worker (x : ε)
deriving DecidableEq

/-- `Executor::current`. -/
def Thread.current {ε : Type u} : Thread ε → Option ε
  | outer _ => none
  | worker x => some x

@[simp] theorem current_eq_some
    {ε : Type u} (t : Thread ε) (x : ε) :
    t.current = some x ↔ t = .worker x := by
  cases t <;> simp [Thread.current]

/-- The code of a coroutine; `V` holds the values and the exceptions. -/
inductive Body (ε : Type u) (V : Type v) where
  | act (k : V → Body ε V)
  | await (child : Body ε V) (k : V → Body ε V)
  | scheduleOn (child : Body ε V) (x : ε) (k : V → Body ε V)
  | scheduler (x : ε) (k : Body ε V)
  | finish (v : V)

/-- A coroutine handle. -/
abbrev Handle := Nat

/--
Where a coroutine is: about to go on with its body, in `co_await` of the `Task`
`c`, at `final_suspend`, or suspended there for good.
-/
inductive Point (ε : Type u) (V : Type v) where
  | body (b : Body ε V)
  | awaiting (c : Handle) (k : V → Body ε V)
  | final
  | ended

/-- What a coroutine does when it is on a thread. -/
inductive Op (ε : Type u) (V : Type v) where
  | act
  | await
  | scheduleOn (x : ε)
  | scheduler (x : ε)
  | finish (v : V)
  | resume (c : Handle)
  | suspend
deriving DecidableEq

namespace Point

variable {ε : Type u} {V : Type v}

def op? : Point ε V → Option (Op ε V)
  | body (.act _) => some .act
  | body (.await _ _) => some .await
  | body (.scheduleOn _ x _) => some (.scheduleOn x)
  | body (.scheduler x _) => some (.scheduler x)
  | body (.finish v) => some (.finish v)
  | awaiting c _ => some (.resume c)
  | final => some .suspend
  | ended => none

/-- The start of the `Task` that is awaited next. -/
def child : Point ε V → Point ε V
  | body (.await b _) => body b
  | body (.scheduleOn b _ _) => body b
  | _ => ended

/-- Suspended in `co_await` of the `Task` `c`. -/
def await (c : Handle) : Point ε V → Point ε V
  | body (.await _ k) => awaiting c k
  | body (.scheduleOn _ _ k) => awaiting c k
  | p => p

/-- After ordinary code, or after `await_resume`, has yielded `v`. -/
def resumeWith (v : V) : Point ε V → Point ε V
  | body (.act k) => body (k v)
  | awaiting _ k => body (k v)
  | p => p

/-- After `co_await SchedulerAwaitable`. -/
def afterScheduler : Point ε V → Point ε V
  | body (.scheduler _ b) => body b
  | p => p

end Point

/-- What `final_awaitable::await_suspend` does with the continuation. -/
inductive Handover (ε : Type u) where
  | stop
  | resume (p : Handle)
  | add (x : ε) (p : Handle)
deriving DecidableEq

/-- A coroutine frame: `continuation_`, `executor_` and `value_` of the promise. -/
structure Frame (ε : Type u) (V : Type v) where
  point : Point ε V
  continuation : Option Handle
  executor : Option ε
  value : V

namespace Frame

variable {ε : Type u} {V : Type v}

/-- A new coroutine at its initial suspend point. -/
def new [Inhabited V] (p : Point ε V) : Frame ε V where
  point := p
  continuation := none
  executor := none
  value := default

def setContinuation
    (f : Frame ε V) (continuation : Handle) (current : Option ε) :
    Frame ε V :=
  { f with
    continuation := some continuation
    executor := current }

/-- `final_awaitable::await_suspend`; a coroutine nobody awaits just stops. -/
def finalSuspend [DecidableEq ε]
    (f : Frame ε V) (current : Option ε) : Handover ε :=
  match f.continuation with
  | none => .stop
  | some p =>
      match f.executor with
      | none => .resume p
      | some x => if current = some x then .resume p else .add x p

end Frame

/-- The frames created so far, the threads and the queues of the executors. -/
structure State (ε : Type u) (V : Type v) where
  frame : Handle → Frame ε V
  allocated : Nat
  slots : Slots (Thread ε) ε Handle

inductive Event (ε : Type u) (V : Type v) where
  | act (t : Thread ε) (h : Handle) (v : V)
  | await (t : Thread ε) (h c : Handle)
  | scheduleOn (t : Thread ε) (h c : Handle) (x : ε)
  | schedulerReady (t : Thread ε) (h : Handle) (x : ε)
  | schedulerSuspend (t : Thread ε) (h : Handle) (x : ε)
  | resume (t : Thread ε) (h c : Handle) (v : V)
  | finish (t : Thread ε) (h : Handle) (v : V)
  | finalSuspend (t : Thread ε) (h : Handle) (o : Handover ε)
  | run (x : ε) (h : Handle)
deriving DecidableEq

variable {ε : Type u} {V : Type v} [DecidableEq ε]

/-- Coroutine `h` goes to the point `p`. -/
def setPoint
    (frame : Handle → Frame ε V) (h : Handle) (p : Point ε V) :
    Handle → Frame ε V :=
  Function.update frame h { frame h with point := p }

/-- Coroutine `h` awaits the `Task` with the new frame `c`. -/
def callTask [Inhabited V]
    (frame : Handle → Frame ε V) (h c : Handle) (current : Option ε) :
    Handle → Frame ε V :=
  Function.update (setPoint frame h ((frame h).point.await c)) c
    ((Frame.new (frame h).point.child).setContinuation h current)

/-- The `Task` stores the value or the exception it ends with. -/
def storeValue
    (frame : Handle → Frame ε V) (h : Handle) (v : V) :
    Handle → Frame ε V :=
  Function.update frame h { frame h with point := .final, value := v }

namespace Event

/-- Coroutine `h` is on thread `t` and does `op` next. -/
def At
    (s : State ε V) (t : Thread ε) (h : Handle) (op : Op ε V) : Prop :=
  s.slots.running t = some h ∧ (s.frame h).point.op? = some op

def guard (s : State ε V) : Event ε V → Prop
  | act t h _ => At s t h .act
  | await t h c => At s t h .await ∧ c = s.allocated
  | scheduleOn t h c x => At s t h (.scheduleOn x) ∧ c = s.allocated
  | schedulerReady t h x => At s t h (.scheduler x) ∧ t.current = some x
  | schedulerSuspend t h x => At s t h (.scheduler x) ∧ t.current ≠ some x
  | resume t h c v => At s t h (.resume c) ∧ v = (s.frame c).value
  | finish t h v => At s t h (.finish v)
  | finalSuspend t h o =>
      At s t h .suspend ∧ o = (s.frame h).finalSuspend t.current
  | run x h =>
      s.slots.running (.worker x) = none ∧ (s.slots.queue x).head? = some h

/-- What a step does to the frames. -/
def nextFrame [Inhabited V]
    (frame : Handle → Frame ε V) : Event ε V → Handle → Frame ε V
  | act _ h v => setPoint frame h ((frame h).point.resumeWith v)
  | await t h c => callTask frame h c t.current
  | scheduleOn t h c _ => callTask frame h c t.current
  | schedulerReady _ h _ => setPoint frame h (frame h).point.afterScheduler
  | schedulerSuspend _ h _ => setPoint frame h (frame h).point.afterScheduler
  | resume _ h _ v => setPoint frame h ((frame h).point.resumeWith v)
  | finish _ h v => storeValue frame h v
  | finalSuspend _ h _ => setPoint frame h .ended
  | run _ _ => frame

/-- The number of frames a step creates. -/
def created : Event ε V → Nat
  | await _ _ _ => 1
  | scheduleOn _ _ _ _ => 1
  | _ => 0

/-- What a step does to the threads and the queues. -/
def nextSlots
    (slots : Slots (Thread ε) ε Handle) : Event ε V → Slots (Thread ε) ε Handle
  | await t _ c => slots.run t (some c)
  | scheduleOn t _ c x => (slots.run t none).push x c
  | schedulerSuspend t h x => (slots.run t none).push x h
  | finalSuspend t _ .stop => slots.run t none
  | finalSuspend t _ (.resume p) => slots.run t (some p)
  | finalSuspend t _ (.add x p) => (slots.run t none).push x p
  | run x h => (slots.pop x).run (.worker x) (some h)
  | _ => slots

def next [Inhabited V] (s : State ε V) (e : Event ε V) : State ε V where
  frame := e.nextFrame s.frame
  allocated := s.allocated + e.created
  slots := e.nextSlots s.slots

instance decidableAt [DecidableEq V]
    (s : State ε V) (t : Thread ε) (h : Handle) (op : Op ε V) :
    Decidable (At s t h op) :=
  inferInstanceAs (Decidable (_ ∧ _))

instance decidableGuard [DecidableEq V] (s : State ε V) (e : Event ε V) :
    Decidable (e.guard s) := by
  cases e <;> unfold guard <;> infer_instance

end Event

section System

variable [Inhabited V]

/-- Thread `outer i` is about to start the `i`-th root. -/
def start (roots : List (Body ε V)) : State ε V where
  frame := fun h => .new
    (match roots[h]? with
    | some b => .body b
    | none => .ended)
  allocated := roots.length
  slots :=
    { running := fun t =>
        match t with
        | .outer i => if i < roots.length then some i else none
        | .worker _ => none
      queue := fun _ => [] }

/-- All runs of the coroutines that the roots start. -/
def tasks (roots : List (Body ε V)) : System (State ε V) (Event ε V) where
  init := fun s => s = start roots
  guard := Event.guard
  next := Event.next

instance decidableTasksGuard [DecidableEq V]
    (roots : List (Body ε V)) (s : State ε V) (e : Event ε V) :
    Decidable ((tasks roots).guard s e) :=
  inferInstanceAs (Decidable (e.guard s))

end System

end Task
end Ptl

import Ptl.TransitionSystem
import Ptl.IoOperation
import Mathlib.Logic.Function.Basic

/-!
# The event loop of `io_service.cpp`

This module embeds `descriptor_service_data` and the functions of
`io_service_impl` that work on it, together with the part of libev they use,
as a transition system.

* A watcher is polled for the mask it had when `ev_io_start` made it active;
  `ev_io_start` on an active watcher does nothing.
* While a watcher is active, the loop may call `ev_notification` in any
  iteration, with any events it polls for.
* `ev_notification` calls `work()` of the current operation if the events contain
  its kind.  `work()` either hands the operation to `start_io` again or resumes
  the coroutine that awaits it.

Operations are created by `co_await`, so each is begun once.
-/

namespace Ptl
namespace Io

open Transition

universe u v

def EV_READ : Nat := 1

def EV_WRITE : Nat := 2

/-- The members of libev's `ev_io` that matter, and what the kernel polls for. -/
structure EvIo where
  active : Bool
  events : Nat
  polled : Nat
deriving DecidableEq

namespace EvIo

/-- `ev_io_init`. -/
def init (events : Nat) : EvIo where
  active := false
  events := events
  polled := 0

/-- `ev_io_set` only writes the mask. -/
def set (w : EvIo) (events : Nat) : EvIo :=
  { w with events := events }

/-- `ev_io_start`. -/
def start (w : EvIo) : EvIo :=
  if w.active then w else { w with active := true, polled := w.events }

/-- `ev_io_stop`. -/
def stop (w : EvIo) : EvIo :=
  { w with active := false, polled := 0 }

/-- The loop may call the callback of the watcher with these events. -/
def Delivers (w : EvIo) (events : Nat) : Prop :=
  w.active ∧ events ≠ 0 ∧ events &&& w.polled = events

@[simp] theorem start_active (w : EvIo) :
    w.start.active = true := by
  unfold start
  split
  next h => exact h
  next => rfl

end EvIo

/-- `descriptor_service_data` without the descriptor itself. -/
structure DescriptorServiceData (ι : Type u) where
  ev : EvIo
  registeredEvents : Nat
  currentIo : IoKind
  currentOp : Option ι
deriving DecidableEq

namespace DescriptorServiceData

variable {ι : Type u}

/-- `register_descriptor`. -/
def register : DescriptorServiceData ι where
  ev := .init EV_READ
  registeredEvents := EV_READ
  currentIo := .none
  currentOp := none

/-- `start_io`. -/
def startIo (data : DescriptorServiceData ι) (kind : IoKind) (op : ι) :
    DescriptorServiceData ι :=
  if kind = .write ∧ data.registeredEvents &&& EV_WRITE = 0 then
    { ev := (data.ev.set (EV_READ ||| EV_WRITE)).start
      registeredEvents := data.registeredEvents ||| EV_WRITE
      currentIo := kind
      currentOp := some op }
  else
    { data with
      ev := data.ev.start
      currentIo := kind
      currentOp := some op }

/-- `stop_io`. -/
def stopIo (data : DescriptorServiceData ι) : DescriptorServiceData ι :=
  { data with ev := data.ev.stop, currentIo := .none, currentOp := none }

/-- The test of `ev_notification`. -/
def Wants (data : DescriptorServiceData ι) (events : Nat) : Prop :=
  events &&& data.currentIo.toNat = data.currentIo.toNat

@[simp] theorem startIo_currentOp
    (data : DescriptorServiceData ι) (kind : IoKind) (op : ι) :
    (data.startIo kind op).currentOp = some op := by
  unfold startIo
  split <;> rfl

end DescriptorServiceData

/-- The coroutine that awaits an operation, from its point of view. -/
inductive Coroutine where
  | running
  | suspended
  | resumed
deriving DecidableEq

/-- All registered descriptors and the coroutines of all operations. -/
structure Service (δ : Type u) (ι : Type v) where
  data : δ → Option (DescriptorServiceData ι)
  coroutine : ι → Coroutine

/-- What happens on an `io_service_impl`. -/
inductive Event (δ : Type u) (ι : Type v) where
  | registerDescriptor (d : δ)
  | deregisterDescriptor (d : δ)
  | startIo (d : δ) (kind : IoKind) (op : ι)
  | stopIo (d : δ)
  | ignored (d : δ) (events : Nat)
  | work (d : δ) (events : Nat) (op : ι) (progress : Progress)
  | workNull (d : δ) (events : Nat)
deriving DecidableEq

namespace Event

variable {δ : Type u} {ι : Type v}

/-- The condition of an event on a registered descriptor. -/
def onData (data : DescriptorServiceData ι) : Event δ ι → Prop
  | ignored _ events => data.ev.Delivers events ∧ ¬ data.Wants events
  | work _ events op _ =>
      data.ev.Delivers events ∧ data.Wants events ∧ data.currentOp = some op
  | workNull _ events =>
      data.ev.Delivers events ∧ data.Wants events ∧ data.currentOp = none
  | _ => True

/-- The descriptor an event is about. -/
def descriptor : Event δ ι → δ
  | registerDescriptor d => d
  | deregisterDescriptor d => d
  | startIo d _ _ => d
  | stopIo d => d
  | ignored d _ => d
  | work d _ _ _ => d
  | workNull d _ => d

def guard (s : Service δ ι) (e : Event δ ι) : Prop :=
  match e, s.data e.descriptor with
  | registerDescriptor _, none => True
  | registerDescriptor _, some _ => False
  | startIo _ _ op, some _ => s.coroutine op = .running
  | e, some data => e.onData data
  | _, none => False

/-- The operation handed to `start_io` by its `begin()`. -/
def starter? : Event δ ι → Option ι
  | startIo _ _ op => some op
  | _ => none

/-- The operation whose `work()` resumes the awaiting coroutine. -/
def resumer? : Event δ ι → Option ι
  | work _ _ op .done => some op
  | _ => none

variable [DecidableEq δ] [DecidableEq ι]

/-- The descriptor's data after an event. -/
def nextData (data : Option (DescriptorServiceData ι)) :
    Event δ ι → Option (DescriptorServiceData ι)
  | registerDescriptor _ => some .register
  | deregisterDescriptor _ => none
  | startIo _ kind op => data.map fun x => x.startIo kind op
  | stopIo _ => data.map DescriptorServiceData.stopIo
  | work _ _ op (.startIo kind) => data.map fun x => x.startIo kind op
  | _ => data

/-- The coroutines after an event. -/
def nextCoroutine (coroutine : ι → Coroutine) : Event δ ι → ι → Coroutine
  | startIo _ _ op => Function.update coroutine op .suspended
  | work _ _ op .done => Function.update coroutine op .resumed
  | _ => coroutine

def next (s : Service δ ι) (e : Event δ ι) : Service δ ι where
  data := Function.update s.data e.descriptor
    (e.nextData (s.data e.descriptor))
  coroutine := e.nextCoroutine s.coroutine

end Event

variable {δ : Type u} {ι : Type v}

/-- No descriptor is registered and no operation has been awaited. -/
def Service.start : Service δ ι where
  data := fun _ => none
  coroutine := fun _ => .running

/-- All runs of one `io_service_impl`. -/
def service [DecidableEq δ] [DecidableEq ι] :
    System (Service δ ι) (Event δ ι) where
  init := fun s => s = .start
  guard := Event.guard
  next := Event.next

instance decidableDelivers (w : EvIo) (events : Nat) :
    Decidable (w.Delivers events) :=
  inferInstanceAs
    (Decidable (w.active ∧ events ≠ 0 ∧ events &&& w.polled = events))

instance decidableWants (data : DescriptorServiceData ι) (events : Nat) :
    Decidable (data.Wants events) :=
  inferInstanceAs
    (Decidable (events &&& data.currentIo.toNat = data.currentIo.toNat))

instance decidableOnData [DecidableEq ι]
    (data : DescriptorServiceData ι) (e : Event δ ι) :
    Decidable (e.onData data) := by
  cases e <;> unfold Event.onData <;> infer_instance

instance decidableServiceGuard [DecidableEq δ] [DecidableEq ι]
    (s : Service δ ι) (e : Event δ ι) :
    Decidable (service.guard s e) := by
  change Decidable (e.guard s)
  unfold Event.guard
  split <;> infer_instance

/-- The operations begun so far. -/
def started (tr : List (Event δ ι)) : List ι :=
  tr.filterMap Event.starter?

/-- The operations whose coroutine has been resumed, once for each time. -/
def resumed (tr : List (Event δ ι)) : List ι :=
  tr.filterMap Event.resumer?

end Io
end Ptl

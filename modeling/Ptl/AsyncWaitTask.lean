import Ptl.ManualResetEvent
import Ptl.WaitTask

/-!
# `async_wait` of an arbitrary awaitable

`async_wait` starts the coroutine that awaits the awaitable, waits for an event
and then reads `result()`.  The awaiter of the final suspend is
`completion_notifier`, which sets the event on the thread that has brought the
coroutine there: `co_yield` awaits it after it has stored the value, and the
end of the body after it has stored nothing or an exception.

The system is made of two components, the coroutine and the `manual_reset_event`,
whose steps interleave freely.

**Results.**
* `task_run`, `event_run`: each component runs as it does on its own.
* `asyncWait_handsOver`: the result is read only after it has been stored, it is
  the outcome of the awaitable, and the event is set exactly once.
-/

namespace Ptl
namespace AsyncWaitTask

open Transition
open SyncWait (Kind)
open WaitTask
open ManualResetEvent (Futex Pc manualResetEvent)

universe u v w x

/-- The thread in `async_wait`; it has returned what `result()` gave. -/
inductive Caller (V : Type u) (E : Type v) where
  | idle
  | inStart
  | started
  | waiting
  | waited
  | returned (r : Option (Except E V))
deriving DecidableEq

/-- `notified` says that `completion_notifier` has called `set`. -/
structure State (σ : Type u) (V : Type v) (E : Type w) where
  caller : Caller V E
  coroutine : Coroutine σ V E
  notified : Bool
  event : Config Runner Pc (Futex Runner)

/-- A step of the coroutine, of the event or of the caller. -/
inductive Event (σ : Type u) (ρ : Type v) (V : Type w) (E : Type x) where
  | task (e : Step σ ρ V E)
  | event (e : ManualResetEvent.Event Runner)
  | startReturns
  | readResult (r : Option (Except E V))
deriving DecidableEq

variable {σ : Type u} {ρ : Type v} {V : Type w} {E : Type x}

namespace State

/-- The calls on the event that the code makes. -/
def Calls (s : State σ V E) : ManualResetEvent.Event Runner → Prop
  | .callSet who => s.coroutine.phase = .final who ∧ s.notified = false
  | .callWait who => who = .caller ∧ s.caller = .started
  | .callReset _ => False
  | _ => True

/-- `start()` can return: the thread is not in the coroutine or in `set`. -/
def Released (s : State σ V E) : Prop :=
  s.event.pc .caller = .idle ∧ (s.coroutine.left = true ∨ s.notified = true)

def afterTask (s : State σ V E) : Step σ ρ V E → Caller V E
  | .start => .inStart
  | _ => s.caller

def afterEvent (s : State σ V E) : ManualResetEvent.Event Runner → Caller V E
  | .callWait _ => .waiting
  | .waitReturn _ => .waited
  | _ => s.caller

def notifiedAfter (s : State σ V E) : ManualResetEvent.Event Runner → Bool
  | .callSet _ => true
  | _ => s.notified

instance decidableCalls [DecidableEq σ] [DecidableEq V] [DecidableEq E]
    (s : State σ V E) (e : ManualResetEvent.Event Runner) :
    Decidable (s.Calls e) := by
  cases e <;> unfold Calls <;> infer_instance

instance decidableReleased (s : State σ V E) : Decidable s.Released :=
  inferInstanceAs (Decidable (_ ∧ (_ ∨ _)))

/-- `async_wait` has not been called. -/
def new : State σ V E where
  caller := .idle
  coroutine := .new
  notified := false
  event := ManualResetEvent.start

end State

/-- All interleavings of `async_wait(a)` with the threads that complete `a`. -/
def asyncWait [Inhabited V] (kind : Kind) (a : Awaitable σ ρ V E) :
    System (State σ V E) (Event σ ρ V E) where
  init := fun s => s = .new
  guard := fun s e =>
    match e with
    | .task e => (waitTask kind a).guard s.coroutine e
    | .event e => manualResetEvent.guard s.event e ∧ s.Calls e
    | .startReturns => s.caller = .inStart ∧ s.Released
    | .readResult r => s.caller = .waited ∧ r = s.coroutine.promise.result kind
  next := fun s e =>
    match e with
    | .task e =>
        { s with
          caller := s.afterTask e
          coroutine := (waitTask kind a).next s.coroutine e }
    | .event e =>
        { s with
          caller := s.afterEvent e
          notified := s.notifiedAfter e
          event := manualResetEvent.next s.event e }
    | .startReturns => { s with caller := .started }
    | .readResult r => { s with caller := .returned r }

instance decidableGuard [Inhabited V] [DecidableEq σ] [DecidableEq V] [DecidableEq E]
    (kind : Kind) (a : Awaitable σ ρ V E) (s : State σ V E) (e : Event σ ρ V E) :
    Decidable ((asyncWait kind a).guard s e) := by
  cases e with
  | task e =>
      exact inferInstanceAs (Decidable (e.Enabled a s.coroutine))
  | event e =>
      exact inferInstanceAs (Decidable (manualResetEvent.guard s.event e ∧ s.Calls e))
  | startReturns =>
      exact inferInstanceAs (Decidable (s.caller = .inStart ∧ s.Released))
  | readResult r =>
      exact inferInstanceAs (Decidable (_ ∧ _))

section Components

namespace Event

/-- The step of the coroutine, if the event is one. -/
def task? : Event σ ρ V E → Option (Step σ ρ V E)
  | task e => some e
  | _ => none

/-- The step of the event, if it is one. -/
def event? : Event σ ρ V E → Option (ManualResetEvent.Event Runner)
  | event e => some e
  | _ => none

/-- The thread that calls `set`. -/
def setter? : Event σ ρ V E → Option Runner
  | event (.callSet who) => some who
  | _ => none

end Event

/-- The steps of the coroutine. -/
def taskSteps (tr : List (Event σ ρ V E)) : List (Step σ ρ V E) :=
  tr.filterMap Event.task?

/-- The steps of the event. -/
def eventSteps (tr : List (Event σ ρ V E)) : List (ManualResetEvent.Event Runner) :=
  tr.filterMap Event.event?

/-- The calls of `set`. -/
def sets (tr : List (Event σ ρ V E)) : List Runner :=
  tr.filterMap Event.setter?

variable [Inhabited V] {kind : Kind} {a : Awaitable σ ρ V E}
variable {tr : List (Event σ ρ V E)} {s : State σ V E}

theorem task_run
    (hrun : (asyncWait kind a).Run tr s) :
    (waitTask kind a).Run (taskSteps tr) s.coroutine := by
  refine hrun.project (fun s hs => ?_) ?_ ?_
  · obtain rfl := hs
    rfl
  · intro s e _ hlabel
    cases e with
    | task e =>
        cases hlabel
    | _ =>
        rfl
  · intro s e e' hguard hlabel
    cases e with
    | task e =>
        cases hlabel
        exact ⟨hguard, rfl⟩
    | _ =>
        cases hlabel

theorem event_run
    (hrun : (asyncWait kind a).Run tr s) :
    manualResetEvent.Run (eventSteps tr) s.event := by
  refine hrun.project (fun s hs => ?_) ?_ ?_
  · obtain rfl := hs
    rfl
  · intro s e _ hlabel
    cases e with
    | event e =>
        cases hlabel
    | _ =>
        rfl
  · intro s e e' hguard hlabel
    cases e with
    | event e =>
        cases hlabel
        exact ⟨hguard.1, rfl⟩
    | _ =>
        cases hlabel

end Components

section Signal

variable [Inhabited V] {kind : Kind} {a : Awaitable σ ρ V E}
variable {tr : List (Event σ ρ V E)} {s : State σ V E} {e : Event σ ρ V E}

omit [Inhabited V] in
theorem sets_append_singleton (tr : List (Event σ ρ V E)) (e : Event σ ρ V E) :
    sets (tr ++ [e]) = sets tr ++ e.setter?.toList :=
  filterMap_append_singleton Event.setter? tr e

/-- The event is set once, when the coroutine is at its final suspend. -/
inductive Signalled (tr : List (Event σ ρ V E)) (s : State σ V E) : Prop
  | pending
      (hnotified : s.notified = false)
      (hsets : sets tr = [])
  | done (who : Runner)
      (hphase : s.coroutine.phase = .final who)
      (hnotified : s.notified = true)
      (hsets : sets tr = [who])

/-- A step that is no call of `set`. -/
theorem Signalled.frame
    (hs : Signalled tr s)
    (hguard : (asyncWait kind a).guard s e)
    (hset : e.setter? = none)
    (hnotified : ((asyncWait kind a).next s e).notified = s.notified) :
    Signalled (tr ++ [e]) ((asyncWait kind a).next s e) := by
  have hsame : sets (tr ++ [e]) = sets tr := by
    rw [sets_append_singleton, hset]
    exact List.append_nil _
  cases hs with
  | pending hpending hsets =>
      exact .pending (hnotified.trans hpending) (hsame.trans hsets)
  | done who hphase hdone hsets =>
      refine .done who ?_ (hnotified.trans hdone) (hsame.trans hsets)
      cases e with
      | task e =>
          exact absurd hguard (not_enabled_of_final hphase)
      | _ =>
          exact hphase

theorem signalled_of_run
    (hrun : (asyncWait kind a).Run tr s) :
    Signalled tr s := by
  induction hrun with
  | start hinit =>
      obtain rfl := hinit
      exact .pending rfl rfl
  | @step tr s e hrun hguard ih =>
      cases e with
      | event e =>
          cases e with
          | callSet who =>
              obtain ⟨-, hphase, hnotified⟩ := hguard
              cases ih with
              | pending _ hsets =>
                  refine .done who hphase rfl ?_
                  rw [sets_append_singleton, hsets]
                  rfl
              | done i _ hdone _ =>
                  rw [hnotified] at hdone
                  cases hdone
          | _ =>
              exact ih.frame hguard rfl rfl
      | _ =>
          exact ih.frame hguard rfl rfl

omit [Inhabited V] in
theorem mem_sets_of_callSet
    {who : Runner}
    (h : .callSet who ∈ eventSteps tr) :
    who ∈ sets tr := by
  obtain ⟨e, he, hlabel⟩ := List.mem_filterMap.mp h
  refine List.mem_filterMap.mpr ⟨e, he, ?_⟩
  cases e with
  | event e =>
      cases hlabel
      rfl
  | _ =>
      cases hlabel

/-- `event.wait()` has returned. -/
def Caller.HasWaited : Caller V E → Prop
  | waited => True
  | returned _ => True
  | _ => False

/-- `event.wait()` returns only after the completion has set the event. -/
theorem notified_of_hasWaited
    (hrun : (asyncWait kind a).Run tr s)
    (hcaller : s.caller.HasWaited) :
    s.notified = true := by
  induction hrun with
  | start hinit =>
      obtain rfl := hinit
      cases hcaller
  | @step tr s e hrun hguard ih =>
      cases e with
      | task e =>
          cases e with
          | start =>
              cases hcaller
          | _ =>
              exact ih hcaller
      | startReturns =>
          cases hcaller
      | readResult r =>
          refine ih ?_
          rw [hguard.1]
          exact trivial
      | event e =>
          cases e with
          | callSet who =>
              rfl
          | callWait who =>
              cases hcaller
          | waitReturn who =>
              have hpc : s.event.pc who = .waitReturn := hguard.1.1
              obtain ⟨j, hj⟩ :=
                ManualResetEvent.callSet_of_waitReturn (event_run hrun) hpc
              have hset := mem_sets_of_callSet hj
              cases signalled_of_run hrun with
              | pending _ hsets =>
                  rw [hsets] at hset
                  cases hset
              | done _ _ hnotified _ =>
                  exact hnotified
          | _ =>
              exact ih hcaller

end Signal

section HandOver

/--
`result()` is read after the promise has stored the outcome of the awaitable
and the event has been set once, and gives this outcome.
-/
def ReadsOutcome [Inhabited V] (kind : Kind)
    (past : List (Event σ ρ V E)) (e : Event σ ρ V E) : Prop :=
  ∀ r, e = .readResult r →
    ∃ o who, outcomes (taskSteps past) = [o] ∧ sets past = [who] ∧
      r = some (o.map kind.returned)

/-- `set` is called after the promise has stored the outcome. -/
def StoresBeforeSet (past : List (Event σ ρ V E)) (e : Event σ ρ V E) : Prop :=
  ∀ who, e = .event (.callSet who) →
    (∃ o, outcomes (taskSteps past) = [o]) ∧ sets past = []

/-- What a run of `async_wait` guarantees. -/
structure HandsOver [Inhabited V] (kind : Kind)
    (tr : List (Event σ ρ V E)) (s : State σ V E) : Prop where
  reads : System.History (ReadsOutcome kind) tr
  stores : System.History StoresBeforeSet tr
  /-- The event is set at most once, and exactly once if `wait` has returned. -/
  atMostOnce : (sets tr).length ≤ 1
  once : s.caller.HasWaited → (sets tr).length = 1

variable [Inhabited V] {kind : Kind} {a : Awaitable σ ρ V E}
variable {tr : List (Event σ ρ V E)} {s : State σ V E} {e : Event σ ρ V E}

theorem signalled_of_hasWaited
    (hrun : (asyncWait kind a).Run tr s)
    (hcaller : s.caller.HasWaited) :
    ∃ who, s.coroutine.phase = .final who ∧ sets tr = [who] := by
  have hnotified := notified_of_hasWaited hrun hcaller
  cases signalled_of_run hrun with
  | pending hpending _ =>
      rw [hpending] at hnotified
      cases hnotified
  | done who hphase _ hsets =>
      exact ⟨who, hphase, hsets⟩

theorem readsOutcome_of_guard
    (hrun : (asyncWait kind a).Run tr s)
    (hguard : (asyncWait kind a).guard s e) :
    ReadsOutcome kind tr e := by
  intro r he
  subst he
  obtain ⟨hcaller, hr⟩ := hguard
  obtain ⟨who, hphase, hsets⟩ := signalled_of_hasWaited hrun (by
    rw [hcaller]
    exact trivial)
  obtain ⟨o, houtcomes, hresult⟩ := result_of_final (task_run hrun) hphase
  exact ⟨o, who, houtcomes, hsets, hr.trans hresult⟩

theorem storesBeforeSet_of_guard
    (hrun : (asyncWait kind a).Run tr s)
    (hguard : (asyncWait kind a).guard s e) :
    StoresBeforeSet tr e := by
  intro who he
  subst he
  obtain ⟨-, hphase, hnotified⟩ := hguard
  obtain ⟨o, houtcomes, -⟩ := result_of_final (task_run hrun) hphase
  cases signalled_of_run hrun with
  | pending _ hsets =>
      exact ⟨⟨o, houtcomes⟩, hsets⟩
  | done _ _ hdone _ =>
      rw [hnotified] at hdone
      cases hdone

/--
The hand-over of `async_wait`: whatever thread completes the awaitable, inline
or later, with a value or an exception, the result is read only after the
promise has stored it, the caller returns or rethrows exactly this outcome,
and `set` is called exactly once.
-/
theorem asyncWait_handsOver
    (hrun : (asyncWait kind a).Run tr s) :
    HandsOver kind tr s := by
  constructor
  · exact hrun.history fun _ _ _ hrun hguard => readsOutcome_of_guard hrun hguard
  · exact hrun.history fun _ _ _ hrun hguard => storesBeforeSet_of_guard hrun hguard
  · cases signalled_of_run hrun with
    | pending _ hsets =>
        simp [hsets]
    | done who _ _ hsets =>
        simp [hsets]
  · intro hcaller
    obtain ⟨who, -, hsets⟩ := signalled_of_hasWaited hrun hcaller
    simp [hsets]

/-- The coroutine suspends for another thread, and the caller calls `wait`. -/
def startAndWait : List (Event Bool Unit Nat Nat) :=
  [.task .start, .task (.suspend .caller false () true true), .startReturns,
    .event (.callWait .caller)]

/-- The other thread completes the awaitable with 3 and stores the 1 of `set`. -/
def completeAndStore : List (Event Bool Unit Nat Nat) :=
  [.task (.resume .other true), .task (.complete .other true () (.ok 3)),
    .event (.callSet .other), .event (.setStore .other)]

/-- The caller reads the word that is set, and its `wait` returns. -/
def readAndReturn : List (Event Bool Unit Nat Nat) :=
  [.event (.waitLoad .caller 1), .event (.waitReturn .caller)]

/-- The caller sleeps until another thread completes the awaitable with 3. -/
def sleepAndRead : List (Event Bool Unit Nat Nat) :=
  startAndWait ++ [.event (.waitLoad .caller 0), .event (.futexSleep .caller)] ++
    completeAndStore ++ [.event (.setWake .other), .event (.futexWoken .caller)] ++
    readAndReturn ++ [.readResult (some (.ok 3))]

theorem asyncWait_handsOver_sleepAndRead :
    HandsOver .value sleepAndRead
      ((asyncWait .value scheduled).exec .new sleepAndRead) :=
  asyncWait_handsOver (.of_enabled rfl (by decide +kernel))

end HandOver

end AsyncWaitTask
end Ptl

import Ptl.TaskProgram

/-!
# The coroutine that waits for an awaitable

`make_sync_wait_task` and `make_async_wait_task` wrap an awaitable into a
coroutine that only awaits it and hands its outcome to the promise.  This
module embeds `wait_task_promise_base` and runs the coroutine over an arbitrary
awaitable, which may suspend it any number of times and have it resumed by
any thread.

**Results.**
* `Promise.result_store`: `result()` returns or throws what was stored.
* `result_of_final`: once the coroutine is at its final suspend, the awaitable has
  completed exactly once and `result()` gives its outcome.
* `left_of_held`: if no suspension lets `start()` return, control stays with it.
-/

namespace Ptl
namespace WaitTask

open Transition
open SyncWait (Kind)

universe u v w x

/-- `result_`, which has no initial value, and `exception_`. -/
structure Promise (V : Type u) (E : Type v) where
  resultPtr : Option V
  exception : Option E
deriving DecidableEq

namespace Promise

variable {V : Type u} {E : Type v}

def new : Promise V E where
  resultPtr := none
  exception := none

def yieldValue (p : Promise V E) (v : V) : Promise V E :=
  { p with resultPtr := some v }

def returnVoid (p : Promise V E) : Promise V E :=
  p

def unhandledException (p : Promise V E) (e : E) : Promise V E :=
  { p with exception := some e }

/-- The body: `co_yield co_await`, or `co_return co_await` of a `void` awaitable. -/
def store (p : Promise V E) : Kind → Except E V → Promise V E
  | .value, .ok v => p.yieldValue v
  | .void, .ok _ => p.returnVoid
  | _, .error e => p.unhandledException e

/-- `result()`; nothing if it reads through `result_` before that is set. -/
def result [Inhabited V] (p : Promise V E) (kind : Kind) : Option (Except E V) :=
  match p.exception, kind with
  | some e, _ => some (.error e)
  | none, .value => p.resultPtr.map .ok
  | none, .void => some (.ok default)

theorem result_store [Inhabited V] (kind : Kind) (o : Except E V) :
    (new.store kind o).result kind = some (o.map kind.returned) := by
  cases o with
  | error e =>
      cases kind <;> rfl
  | ok v =>
      cases kind <;> rfl

end Promise

/-- What an awaitable does next with the coroutine that awaits it. -/
inductive Stop (σ : Type u) (V : Type v) (E : Type w) where
  /--
  It suspends the coroutine.  If `leaves` holds, the call of `start()` may
  return; otherwise that has to wait until the coroutine, resumed by whatever
  thread, stops again.
  -/
  | suspend (leaves : Bool) (x : σ)
  | complete (o : Except E V)
deriving DecidableEq

/--
An awaitable with states `σ`.  How it goes on when the coroutine runs depends
on what `ρ` its environment presents to it.
-/
structure Awaitable (σ : Type u) (ρ : Type v) (V : Type w) (E : Type x) where
  initial : σ
  resume : σ → ρ → Stop σ V E

namespace Awaitable

variable {σ : Type u} {ρ : Type v} {V : Type w} {E : Type x}

/-- The states in which the coroutine may run. -/
inductive Visits (a : Awaitable σ ρ V E) : σ → Prop
  | initial :
      Visits a a.initial
  | suspend {x x' : σ} {r : ρ} {leaves : Bool}
      (hx : Visits a x)
      (hstop : a.resume x r = .suspend leaves x') :
      Visits a x'

/-- No suspension lets `start()` return. -/
def Held (a : Awaitable σ ρ V E) : Prop :=
  ∀ x, a.Visits x → ∀ r x', a.resume x r ≠ .suspend true x'

end Awaitable

/-- An awaitable that schedules the coroutine on another thread, where it returns 3. -/
def scheduled : Awaitable Bool Unit Nat Nat where
  initial := false
  resume := fun x _ => if x then .complete (.ok 3) else .suspend true true

/-- The thread that calls `start()`, or another one. -/
inductive Runner where
  | caller
  | other
deriving DecidableEq

/-- Where the coroutine is, and on which thread. -/
inductive Phase (σ : Type u) where
  | initial
  | running (who : Runner) (x : σ)
  | suspended (x : σ)
  | final (who : Runner)
deriving DecidableEq

/-- The coroutine frame; `left` says that control may have left it for `start()`. -/
structure Coroutine (σ : Type u) (V : Type v) (E : Type w) where
  phase : Phase σ
  left : Bool
  promise : Promise V E
deriving DecidableEq

/-- The steps of the coroutine. -/
inductive Step (σ : Type u) (ρ : Type v) (V : Type w) (E : Type x) where
  | start
  | suspend (who : Runner) (x : σ) (r : ρ) (leaves : Bool) (x' : σ)
  | resume (who : Runner) (x : σ)
  | complete (who : Runner) (x : σ) (r : ρ) (o : Except E V)
deriving DecidableEq

variable {σ : Type u} {ρ : Type v} {V : Type w} {E : Type x}

/-- The calling thread resumes the coroutine only before `start()` has control again. -/
def Step.Enabled (a : Awaitable σ ρ V E) (c : Coroutine σ V E) :
    Step σ ρ V E → Prop
  | .start => c.phase = .initial
  | .suspend who x r leaves x' =>
      c.phase = .running who x ∧ a.resume x r = .suspend leaves x'
  | .resume who x =>
      c.phase = .suspended x ∧ (who = .caller → c.left = false)
  | .complete who x r o =>
      c.phase = .running who x ∧ a.resume x r = .complete o

def Step.next (kind : Kind) (a : Awaitable σ ρ V E) (c : Coroutine σ V E) :
    Step σ ρ V E → Coroutine σ V E
  | .start => { c with phase := .running .caller a.initial }
  | .suspend _ _ _ leaves x' =>
      { c with
        phase := .suspended x'
        left := c.left || leaves }
  | .resume who x => { c with phase := .running who x }
  | .complete who _ _ o =>
      { c with
        phase := .final who
        promise := c.promise.store kind o }

/-- A new coroutine, suspended at `initial_suspend`. -/
def Coroutine.new : Coroutine σ V E where
  phase := .initial
  left := false
  promise := .new

/-- The runs of the coroutine that awaits `a`. -/
def waitTask (kind : Kind) (a : Awaitable σ ρ V E) :
    System (Coroutine σ V E) (Step σ ρ V E) where
  init := fun c => c = .new
  guard := Step.Enabled a
  next := Step.next kind a

instance decidableEnabled [DecidableEq σ] [DecidableEq V] [DecidableEq E]
    (a : Awaitable σ ρ V E) (c : Coroutine σ V E) (e : Step σ ρ V E) :
    Decidable (e.Enabled a c) := by
  cases e <;> unfold Step.Enabled <;> infer_instance

section Outcome

/-- What the awaitable returned or threw, if the step is its completion. -/
def Step.outcome? : Step σ ρ V E → Option (Except E V)
  | .complete _ _ _ o => some o
  | _ => none

/-- The completions of the awaitable. -/
def outcomes (tr : List (Step σ ρ V E)) : List (Except E V) :=
  tr.filterMap Step.outcome?

/-- The promise is untouched until the awaitable completes, which it does once. -/
def Stored (kind : Kind) (tr : List (Step σ ρ V E)) (p : Promise V E) :
    Phase σ → Prop
  | .final _ => ∃ o, outcomes tr = [o] ∧ p = Promise.new.store kind o
  | _ => outcomes tr = [] ∧ p = .new

variable {kind : Kind} {a : Awaitable σ ρ V E}
variable {tr : List (Step σ ρ V E)} {c : Coroutine σ V E} {e : Step σ ρ V E}

theorem outcomes_append_singleton (tr : List (Step σ ρ V E)) (e : Step σ ρ V E) :
    outcomes (tr ++ [e]) = outcomes tr ++ e.outcome?.toList :=
  filterMap_append_singleton Step.outcome? tr e

theorem stored_of_run
    (hrun : (waitTask kind a).Run tr c) :
    Stored kind tr c.promise c.phase := by
  induction hrun with
  | start hinit =>
      obtain rfl := hinit
      exact ⟨rfl, rfl⟩
  | @step tr c e hrun hguard ih =>
      cases e with
      | start =>
          rw [show c.phase = .initial from hguard] at ih
          exact ⟨by rw [outcomes_append_singleton, ih.1]; rfl, ih.2⟩
      | suspend who x r leaves x' =>
          rw [hguard.1] at ih
          exact ⟨by rw [outcomes_append_singleton, ih.1]; rfl, ih.2⟩
      | resume who x =>
          rw [hguard.1] at ih
          exact ⟨by rw [outcomes_append_singleton, ih.1]; rfl, ih.2⟩
      | complete who x r o =>
          rw [hguard.1] at ih
          obtain ⟨hnone, hpromise⟩ := ih
          refine ⟨o, by rw [outcomes_append_singleton, hnone]; rfl, ?_⟩
          change c.promise.store kind o = _
          rw [hpromise]

/-- At the final suspend `result()` gives the outcome of the awaitable. -/
theorem result_of_final [Inhabited V]
    {who : Runner}
    (hrun : (waitTask kind a).Run tr c)
    (hphase : c.phase = .final who) :
    ∃ o, outcomes tr = [o] ∧
      c.promise.result kind = some (o.map kind.returned) := by
  have hstored := stored_of_run hrun
  rw [hphase] at hstored
  obtain ⟨o, houtcomes, hpromise⟩ := hstored
  exact ⟨o, houtcomes, by rw [hpromise, Promise.result_store]⟩

end Outcome

section Control

variable {kind : Kind} {a : Awaitable σ ρ V E}
variable {tr : List (Step σ ρ V E)} {c : Coroutine σ V E}

/-- The state of the awaitable is one that it visits. -/
def Phase.Visited (a : Awaitable σ ρ V E) : Phase σ → Prop
  | running _ x => a.Visits x
  | suspended x => a.Visits x
  | _ => True

/-- The coroutine takes no step after its final suspend. -/
theorem not_enabled_of_final
    {who : Runner} {e : Step σ ρ V E}
    (hphase : c.phase = .final who) :
    ¬ e.Enabled a c := by
  intro h
  cases e with
  | start =>
      exact absurd (hphase.symm.trans h) nofun
  | suspend i x r leaves x' =>
      exact absurd (hphase.symm.trans h.1) nofun
  | resume i x =>
      exact absurd (hphase.symm.trans h.1) nofun
  | complete i x r o =>
      exact absurd (hphase.symm.trans h.1) nofun

theorem visited_of_run
    (hrun : (waitTask kind a).Run tr c) :
    c.phase.Visited a := by
  induction hrun with
  | start hinit =>
      obtain rfl := hinit
      exact trivial
  | @step tr c e hrun hguard ih =>
      cases e with
      | start =>
          exact .initial
      | suspend who x r leaves x' =>
          rw [hguard.1] at ih
          exact .suspend ih hguard.2
      | resume who x =>
          rw [hguard.1] at ih
          exact ih
      | complete who x r o =>
          exact trivial

theorem left_of_held
    (ha : a.Held)
    (hrun : (waitTask kind a).Run tr c) :
    c.left = false := by
  induction hrun with
  | start hinit =>
      obtain rfl := hinit
      rfl
  | @step tr c e hrun hguard ih =>
      cases e with
      | suspend who x r leaves x' =>
          have hx := visited_of_run hrun
          rw [hguard.1] at hx
          have hleaves : leaves = false := by
            cases leaves with
            | false =>
                rfl
            | true =>
                exact absurd hguard.2 (ha x hx r x')
          change (c.left || leaves) = false
          rw [ih, hleaves]
          rfl
      | _ =>
          exact ih

end Control

end WaitTask
end Ptl

import Ptl.WaitAllCompletion

/-!
# The lifetime of the result of `wait_all`

`co_await wait_all(...)` awaits a temporary, which holds `counter_` and the task
coroutines.  The awaiting coroutine destroys it, and with it the frames of the
tasks, some time after it has continued.  A frame may only be destroyed while
its coroutine is suspended.

**Results.**
* `not_guard_of_continued`: once the awaiting coroutine has continued, no step is
  left that could touch the counter.
* `waitAll_outlives_tasks`: the temporary is only destroyed when all its tasks
  are at their final suspension, and no task touches the counter after that.
-/

namespace Ptl
namespace WaitAll

open Transition

universe u v

variable {n : Nat} {V : Type u} {E : Type v}

/-- The step accesses `counter_`, or runs a task in its frame. -/
def Event.touches : Event n V E → Bool
  | .tasksStarted => false
  | _ => true

/-- The temporary, whether it has been destroyed, and whether that or a later step is undefined. -/
structure Lifetime (n : Nat) (V : Type u) (E : Type v) where
  state : State n V E
  destroyed : Bool
  undefined : Bool

inductive LifetimeEvent (n : Nat) (V : Type u) (E : Type v) where
  | step (e : Event n V E)
  | destroy
deriving DecidableEq

namespace TaskState

/-- Suspended, before its start or at the end. -/
def Suspended : TaskState → Prop
  | notStarted => True
  | final => True
  | _ => False

instance decidableSuspended : DecidablePred Suspended := by
  intro t
  cases t <;> unfold Suspended <;> infer_instance

end TaskState

namespace Awaiter

/-- The awaiting coroutine has gone on after `co_await`. -/
def Continued : Awaiter → Prop
  | ready => True
  | continued => True
  | _ => False

instance decidableContinued : DecidablePred Continued := by
  intro a
  cases a <;> unfold Continued <;> infer_instance

end Awaiter

namespace LifetimeEvent

def guard (s : Lifetime n V E) : LifetimeEvent n V E → Prop
  | step e => e.guard s.state
  | destroy => s.destroyed = false ∧ s.state.awaiter.Continued

instance decidableGuard (s : Lifetime n V E) (e : LifetimeEvent n V E) :
    Decidable (e.guard s) := by
  cases e <;> unfold guard <;> infer_instance

def next (s : Lifetime n V E) : LifetimeEvent n V E → Lifetime n V E
  | step e =>
      { s with
        state := e.next s.state
        undefined := s.undefined || (s.destroyed && e.touches) }
  | destroy =>
      { s with
        destroyed := true
        undefined := s.undefined || !(∀ i, (s.state.task i).Suspended) }

/-- The step of `wait_all`, if it is one. -/
def step? : LifetimeEvent n V E → Option (Event n V E)
  | step e => some e
  | destroy => none

end LifetimeEvent

/-- All runs of `co_await wait_all(...)` with the destruction of the temporary. -/
def lifetime (n : Nat) (V : Type u) (E : Type v) :
    System (Lifetime n V E) (LifetimeEvent n V E) where
  init := fun s => s = ⟨start, false, false⟩
  guard := LifetimeEvent.guard
  next := LifetimeEvent.next

instance decidableLifetimeGuard (s : Lifetime n V E) (e : LifetimeEvent n V E) :
    Decidable ((lifetime n V E).guard s e) :=
  inferInstanceAs (Decidable (e.guard s))

section Continued

variable {s : State n V E}

theorem continued_iff (s : State n V E) :
    s.Continued ↔ s.awaiter.Continued := by
  cases h : s.awaiter <;> simp [State.Continued, Awaiter.Continued, h]

/-- After the awaiting coroutine has continued, no task has anything left to do. -/
theorem final_of_continued
    (hs : (waitAll n V E).Reachable s)
    (hcontinued : s.awaiter.Continued)
    (i : Fin n) :
    s.task i = .final := by
  obtain ⟨tr, hrun⟩ := hs
  obtain ⟨t, hR, hN⟩ := simulation.run hrun
  have hawake := (continued_iff s).mpr hcontinued
  have hholding : ¬ s.Holding (some i) :=
    Countdown.Matches.not_holding hR univ_ne_empty ⟨_, hN⟩ (Or.inl hawake)
  have hwaking : ¬ s.Waking (some i) := fun h =>
    Countdown.Matches.not_awake hR h hawake
  cases hi : s.task i <;>
    simp_all [State.Holding, State.Waking, TaskState.Holding]

theorem not_guard_of_continued
    (hs : (waitAll n V E).Reachable s)
    (hcontinued : s.awaiter.Continued)
    (e : Event n V E) :
    ¬ e.guard s := by
  have hfinal := final_of_continued hs hcontinued
  intro hguard
  cases e with
  | finish i o =>
      have hi : s.task i = .running := hguard
      simp [hfinal i] at hi
  | notify i old =>
      have hi : s.task i = .notifying := hguard.1
      simp [hfinal i] at hi
  | resume i =>
      have hi : s.task i = .resuming := hguard
      simp [hfinal i] at hi
  | _ =>
      simp [Event.guard] at hguard
      simp [hguard, Awaiter.Continued] at hcontinued

end Continued

section Results

variable {s : Lifetime n V E} {tr : List (LifetimeEvent n V E)}

/-- The steps of `wait_all` are a run of it. -/
theorem run_steps
    (hrun : (lifetime n V E).Run tr s) :
    (waitAll n V E).Run (tr.filterMap LifetimeEvent.step?) s.state := by
  refine hrun.project (f := Lifetime.state) ?_ ?_ ?_
  · rintro _ rfl
    rfl
  · intro s e _ hlabel
    cases e with
    | step e =>
        simp [LifetimeEvent.step?] at hlabel
    | destroy =>
        rfl
  · intro s e e' hguard hlabel
    cases e with
    | step e =>
        obtain rfl := Option.some.inj hlabel
        exact ⟨hguard, rfl⟩
    | destroy =>
        simp [LifetimeEvent.step?] at hlabel

/-- Destroying the result of `wait_all` after the `co_await` is safe. -/
theorem waitAll_outlives_tasks
    (hrun : (lifetime n V E).Run tr s) :
    s.undefined = false ∧
      (s.destroyed = true → ∀ i, s.state.task i = .final) := by
  have hinvariant : (s.destroyed = true → s.state.awaiter.Continued) ∧
      s.undefined = false := by
    refine hrun.invariant
      (I := fun _ s => (s.destroyed = true → s.state.awaiter.Continued) ∧
        s.undefined = false) ?_ ?_
    · rintro _ rfl
      exact ⟨fun h => absurd h Bool.false_ne_true, rfl⟩
    · rintro tr s e hrun ⟨hcontinued, hdefined⟩ hguard
      have hs : (waitAll n V E).Reachable s.state := ⟨_, run_steps hrun⟩
      cases e with
      | step e =>
          have hexists : s.destroyed = false := by
            rw [← Bool.not_eq_true]
            exact fun h => not_guard_of_continued hs (hcontinued h) e hguard
          refine ⟨fun h => absurd (hexists.symm.trans h) Bool.false_ne_true, ?_⟩
          simp [lifetime, LifetimeEvent.next, hdefined, hexists]
      | destroy =>
          have hfinal := final_of_continued hs hguard.2
          refine ⟨fun _ => hguard.2, ?_⟩
          simp [lifetime, LifetimeEvent.next, hdefined, hfinal, TaskState.Suspended]
  exact ⟨hinvariant.2,
    fun h => final_of_continued ⟨_, run_steps hrun⟩ (hinvariant.1 h)⟩

/-- The schedule `secondFirst`, after which the temporary is destroyed. -/
def destroyedAtEnd : List (LifetimeEvent 2 Nat String) :=
  secondFirst.map .step ++ [.destroy]

theorem waitAll_outlives_tasks_destroyedAtEnd :
    let s := (lifetime 2 Nat String).exec ⟨start, false, false⟩ destroyedAtEnd
    (s.undefined = false ∧ (s.destroyed = true → ∀ i, s.state.task i = .final)) ∧
      s.destroyed = true :=
  ⟨waitAll_outlives_tasks (.of_enabled rfl (by decide +kernel)), by decide⟩

end Results

end WaitAll
end Ptl

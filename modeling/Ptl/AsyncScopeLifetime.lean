import Ptl.AsyncScopeJoin

/-!
# The lifetime of an `async_scope`

The owner of a scope may destroy it when it is not inside one of its calls.  Work
that is still running keeps a pointer to the scope, and `~async_scope` asserts
that `continuation_` has been set.

**Results.**
* `not_guard_of_continued`: once the owner has continued, no step is left that
  could touch the scope.
* `scope_outlives_work`: the assertion holds exactly if the owner has continued
  after `join`, and a scope whose destructor passes its assertion is never
  touched by work after that.
-/

namespace Ptl
namespace AsyncScope

open Transition

universe u

variable {ι : Type u} [DecidableEq ι]

/-- The step reads or writes a member of the scope. -/
def Event.touches : Event ι → Bool
  | .spawn _ _ => false
  | _ => true

/-- The owner calls a member function of the scope. -/
def Event.byOwner : Event ι → Bool
  | .spawn none _ => true
  | .joinReady => true
  | .joinNotReady => true
  | _ => false

/-- The scope, whether its destructor has run, and whether it was touched after that. -/
structure Lifetime (ι : Type u) where
  scope : State ι
  destroyed : Bool
  touchedDestroyed : Bool

/-- A step on the scope, or its destructor with the outcome of the assertion. -/
inductive LifetimeEvent (ι : Type u) where
  | step (e : Event ι)
  | destroy (asserted : Bool)
deriving DecidableEq

namespace LifetimeEvent

/-- The owner is outside the calls of the scope. -/
def AtRest (p : Place ι) : Prop :=
  p = .running ∨ p = .ready ∨ p = .continued

instance decidableAtRest (p : Place ι) : Decidable (AtRest p) :=
  inferInstanceAs (Decidable (_ ∨ _))

def guard (s : Lifetime ι) : LifetimeEvent ι → Prop
  | step e => e.guard s.scope ∧ (e.byOwner = true → s.destroyed = false)
  | destroy asserted =>
      s.destroyed = false ∧ AtRest (s.scope.place none) ∧ asserted = s.scope.continuation

instance decidableGuard (s : Lifetime ι) (e : LifetimeEvent ι) :
    Decidable (e.guard s) := by
  cases e <;> unfold guard <;> infer_instance

def next (s : Lifetime ι) : LifetimeEvent ι → Lifetime ι
  | step e =>
      { s with
        scope := e.next s.scope
        touchedDestroyed := s.touchedDestroyed || (s.destroyed && e.touches) }
  | destroy _ => { s with destroyed := true }

/-- The step on the scope, if it is one. -/
def step? : LifetimeEvent ι → Option (Event ι)
  | step e => some e
  | destroy _ => none

end LifetimeEvent

/-- All runs of a scope that may be destroyed whenever its owner is outside its calls. -/
def lifetime : System (Lifetime ι) (LifetimeEvent ι) where
  init := fun s => s = ⟨start, false, false⟩
  guard := LifetimeEvent.guard
  next := LifetimeEvent.next

instance decidableLifetimeGuard (s : Lifetime ι) (e : LifetimeEvent ι) :
    Decidable (lifetime.guard s e) :=
  inferInstanceAs (Decidable (e.guard s))

/-- The steps on the scope in a run. -/
def steps (tr : List (LifetimeEvent ι)) : List (Event ι) :=
  tr.filterMap LifetimeEvent.step?

section Scope

variable {s : State ι} {tr : List (Event ι)}

/-- The owner has continued exactly if somebody has let it. -/
theorem continued_iff_of_run
    (hrun : asyncScope.Run tr s) :
    (s.place none).Continued ↔ continuations tr ≠ [] := by
  obtain ⟨t, hR, hN⟩ := simulation.run hrun
  obtain ⟨-, hawake⟩ := Countdown.continued_of_run singleton_ne_empty hN
  rw [continuations_eq, hR.countdown.awake] at hawake
  exact hawake

/-- After the owner has continued, nobody is inside a call or about to make one. -/
theorem not_guard_of_continued
    (hs : asyncScope.Reachable s)
    (hcontinued : (s.place none).Continued)
    (e : Event ι) :
    ¬ e.guard s := by
  obtain ⟨t, ht, hR⟩ := refines_of_reachable hs
  have hholding : ∀ a, ¬ (s.place a).Holding := fun _ =>
    hR.countdown.not_holding singleton_ne_empty ht (Or.inl hcontinued)
  have hchild : ∀ a b, ¬ Child s.place a b := by
    intro a b hb
    have ha := hR.calls.spawner a b hb
    exact hholding a (by simp [ha, Place.Holding])
  intro hguard
  cases e with
  | spawn a b =>
      exact hholding a (by simp [hguard.1, Place.Holding])
  | assertStarted a b old =>
      exact hchild a b (Or.inl hguard.1)
  | workStarted a b =>
      exact hchild a b (Or.inr hguard)
  | workFinished b old =>
      exact hholding (some b) (by simp [hguard.1, Place.Holding])
  | resume b =>
      exact hR.countdown.not_awake (a := some b) hguard hcontinued
  | joinReady =>
      exact hholding none (by simp [hguard.1, Place.Holding])
  | joinNotReady =>
      exact hholding none (by simp [hguard.1, Place.Holding])
  | storeContinuation =>
      have hnone : s.place none = .storing := hguard
      exact hholding none (by simp [hnone, Place.Holding])
  | joinSuspend old =>
      exact hholding none (by simp [hguard.1, Place.Holding])

/-- Places of an owner that has stored its continuation. -/
def Place.Stored : Place ι → Prop
  | subtracting => True
  | suspended => True
  | continued => True
  | _ => False

/-- The owner that work is about to resume is suspended. -/
theorem suspended_of_resume
    (hs : asyncScope.Reachable s)
    {b : ι}
    (hb : s.place (some b) = .resuming) :
    s.place none = .suspended := by
  obtain ⟨t, ht, hR⟩ := refines_of_reachable hs
  have hholding : ¬ (s.place none).Holding :=
    hR.countdown.not_holding singleton_ne_empty ht (Or.inr ⟨some b, hb⟩)
  have hnot : ¬ (s.place none).Continued := hR.countdown.not_awake (a := some b) hb
  rcases (shape_of_reachable hs).allowed none with h | h | h | h | h | h | h <;>
    simp_all [Place.Holding, Place.Continued]

/-- `continuation_` is set from the moment the owner stores it. -/
theorem stored_iff_of_reachable
    (hs : asyncScope.Reachable s) :
    s.continuation = true ↔ (s.place none).Stored := by
  obtain ⟨tr, hrun⟩ := hs
  refine hrun.invariant
    (I := fun _ s => s.continuation = true ↔ (s.place none).Stored) ?_ ?_
  · rintro _ rfl
    simp [start, Place.Stored]
  · intro tr s e hrun ih hguard
    obtain ⟨t, -, hR⟩ := refines_of_reachable ⟨tr, hrun⟩
    cases e with
    | spawn a b =>
        cases a with
        | none =>
            have hnone : s.place none = .running := hguard.1
            simpa [Event.next, State.move, hnone, Place.Stored] using ih
        | some c =>
            simpa [Event.next, State.move] using ih
    | assertStarted a b old =>
        simpa [Event.next, State.move] using ih
    | workStarted a b =>
        cases a with
        | none =>
            have hnone := hR.calls.spawner none b (Or.inr hguard)
            simpa [Event.next, State.move, hnone, Place.Stored] using ih
        | some c =>
            simpa [Event.next, State.move] using ih
    | workFinished b old =>
        simpa [Event.next, State.move] using ih
    | resume b =>
        have hnone := suspended_of_resume ⟨tr, hrun⟩ hguard
        simpa [Event.next, State.move, hnone, Place.Stored] using ih
    | joinReady =>
        have hnone : s.place none = .running := hguard.1
        simpa [Event.next, State.move, hnone, Place.Stored] using ih
    | joinNotReady =>
        have hnone : s.place none = .running := hguard.1
        simpa [Event.next, State.move, hnone, Place.Stored] using ih
    | storeContinuation =>
        simp [Event.next, State.move, Place.Stored]
    | joinSuspend old =>
        have hnone : s.place none = .subtracting := hguard.1
        by_cases hold : old > 1 <;>
          simpa [Event.next, State.move, hnone, hold, Place.Stored] using ih

/-- `await_ready` never holds, because the owner itself is counted. -/
theorem not_ready_of_reachable
    (hs : asyncScope.Reachable s) :
    s.place none ≠ .ready := by
  obtain ⟨tr, hrun⟩ := hs
  refine hrun.invariant (I := fun _ s => s.place none ≠ .ready) ?_ ?_
  · rintro _ rfl
    simp [start]
  · intro tr s e hrun ih hguard
    obtain ⟨t, ht, hR⟩ := refines_of_reachable ⟨tr, hrun⟩
    cases e with
    | spawn a b =>
        cases a with
        | none =>
            simp [Event.next, State.move]
        | some c =>
            simpa [Event.next, State.move] using ih
    | workStarted a b =>
        cases a with
        | none =>
            simp [Event.next, State.move]
        | some c =>
            simpa [Event.next, State.move] using ih
    | joinReady =>
        exact absurd hguard (not_joinReady ht hR)
    | joinSuspend old =>
        by_cases hold : old > 1 <;> simp [Event.next, State.move, hold]
    | assertStarted a b old =>
        simpa [Event.next, State.move] using ih
    | workFinished b old =>
        simpa [Event.next, State.move] using ih
    | _ =>
        simp [Event.next, State.move]

/-- An owner at rest has its continuation stored exactly if it has continued after `join`. -/
theorem asserted_iff
    (hrun : asyncScope.Run tr s)
    (hrest : LifetimeEvent.AtRest (s.place none)) :
    s.continuation = true ↔ continuations tr ≠ [] := by
  rw [stored_iff_of_reachable ⟨tr, hrun⟩, ← continued_iff_of_run hrun]
  rcases hrest with h | h | h
  · simp [h, Place.Stored, Place.Continued]
  · exact absurd h (not_ready_of_reachable ⟨tr, hrun⟩)
  · simp [h, Place.Stored, Place.Continued]

end Scope

section Results

variable {s : Lifetime ι} {tr : List (LifetimeEvent ι)}

/-- The steps on the scope are a run of the scope. -/
theorem run_steps
    (hrun : lifetime.Run tr s) :
    asyncScope.Run (steps tr) s.scope := by
  refine hrun.project (f := Lifetime.scope) ?_ ?_ ?_
  · rintro _ rfl
    rfl
  · intro s e _ hlabel
    cases e with
    | step e =>
        simp [LifetimeEvent.step?] at hlabel
    | destroy asserted =>
        rfl
  · intro s e e' hguard hlabel
    cases e with
    | step e =>
        obtain rfl := Option.some.inj hlabel
        exact ⟨hguard.1, rfl⟩
    | destroy asserted =>
        simp [LifetimeEvent.step?] at hlabel

/--
The assertion in the destructor holds exactly if the owner has continued after
`join`, and if it holds, no work touches the scope after its destruction.
-/
structure OutlivesWork (tr : List (LifetimeEvent ι)) (s : Lifetime ι) : Prop where
  asserted : System.History
    (fun es e => ∀ b, e = .destroy b → (b = true ↔ continuations (steps es) ≠ [])) tr
  untouched : .destroy false ∉ tr → s.touchedDestroyed = false

theorem scope_outlives_work
    (hrun : lifetime.Run tr s) :
    OutlivesWork tr s := by
  have hasserted : ∀ (tr : List (LifetimeEvent ι)) (s : Lifetime ι) (b : Bool),
      lifetime.Run tr s → lifetime.guard s (.destroy b) →
      (b = true ↔ continuations (steps tr) ≠ []) := by
    rintro tr s b hrun ⟨-, hrest, rfl⟩
    exact asserted_iff (run_steps hrun) hrest
  constructor
  · refine hrun.history ?_
    rintro tr s _ hrun hguard b rfl
    exact hasserted tr s b hrun hguard
  · refine (hrun.invariant (I := fun tr s => .destroy false ∉ tr →
      (s.destroyed = true → (s.scope.place none).Continued) ∧
        s.touchedDestroyed = false) ?_ ?_ · |>.2)
    · rintro _ rfl _
      exact ⟨fun h => absurd h Bool.false_ne_true, rfl⟩
    · intro tr s e hrun ih hguard hnot
      obtain ⟨hjoined, huntouched⟩ := ih fun h => hnot (List.mem_append_left _ h)
      have hstep := run_steps hrun
      cases e with
      | step e =>
          have hexists : s.destroyed = false := by
            rw [← Bool.not_eq_true]
            exact fun h => not_guard_of_continued ⟨_, hstep⟩ (hjoined h) e hguard.1
          exact ⟨fun h => absurd (hexists.symm.trans h) Bool.false_ne_true,
            by simp [lifetime, LifetimeEvent.next, huntouched, hexists]⟩
      | destroy b =>
          have hb : b = true := by
            cases b with
            | false => simp at hnot
            | true => rfl
          refine ⟨fun _ => ?_, huntouched⟩
          exact (continued_iff_of_run hstep).mpr ((hasserted tr s b hrun hguard).mp hb)

/-- The scope is destroyed after work spawned by work has let the owner continue. -/
def destroyedAfterJoin : List (LifetimeEvent Nat) :=
  [.step (.spawn none 0),
    .step (.assertStarted none 0 1),
    .step (.workStarted none 0),
    .step .joinNotReady,
    .step .storeContinuation,
    .step (.joinSuspend 2),
    .step (.spawn (some 0) 1),
    .step (.assertStarted (some 0) 1 1),
    .step (.workStarted (some 0) 1),
    .step (.workFinished 0 2),
    .step (.workFinished 1 1),
    .step (.resume 1),
    .destroy true]

theorem scope_outlives_work_destroyedAfterJoin :
    OutlivesWork destroyedAfterJoin
      (lifetime.exec ⟨start, false, false⟩ destroyedAfterJoin) ∧
    .destroy false ∉ destroyedAfterJoin :=
  ⟨scope_outlives_work (.of_enabled rfl (by decide +kernel)), by decide⟩

-- without the assertion, work that is still running touches a scope nobody has joined
example :
    (lifetime.exec ⟨start, false, false⟩
      [.step (.spawn none 0), .step (.assertStarted none 0 1), .step (.workStarted none 0),
        .destroy false, .step (.workFinished (0 : Nat) 2)]).touchedDestroyed = true := by
  decide

end Results

end AsyncScope
end Ptl

import Ptl.WaitTask

/-!
# `sync_wait` of an arbitrary awaitable

`sync_wait` starts the coroutine that awaits the awaitable and reads `result()`
as soon as `start()` has returned.  `start()` returns when the coroutine has
ended, but also when it was suspended and control has gone back to the caller.

**Results.**
* `syncWait_returnsOutcome_iff`: every run reads the outcome of the awaitable if and
  only if no suspension of the awaitable lets `start()` return.
* `not_syncWait_returnsOutcome_scheduled`: an awaitable that is resumed by another
  thread has `result_` read before it was set.
-/

namespace Ptl
namespace SyncWaitTask

open Transition
open SyncWait (Kind)
open WaitTask

universe u v w x

/-- The thread in `sync_wait`; it has returned what `result()` gave. -/
inductive Caller (V : Type u) (E : Type v) where
  | idle
  | inStart
  | started
  | returned (r : Option (Except E V))
deriving DecidableEq

structure State (σ : Type u) (V : Type v) (E : Type w) where
  caller : Caller V E
  coroutine : Coroutine σ V E
deriving DecidableEq

/-- A step of the coroutine, or of the caller. -/
inductive Event (σ : Type u) (ρ : Type v) (V : Type w) (E : Type x) where
  | task (e : Step σ ρ V E)
  | startReturns
  | readResult (r : Option (Except E V))
deriving DecidableEq

variable {σ : Type u} {ρ : Type v} {V : Type w} {E : Type x}

namespace Caller

/-- `start()` is called once, and the frame is destroyed at the return. -/
def allows : Caller V E → Step σ ρ V E → Bool
  | idle, .start => true
  | idle, _ => false
  | _, .start => false
  | returned _, _ => false
  | _, _ => true

def after (caller : Caller V E) : Step σ ρ V E → Caller V E
  | .start => inStart
  | _ => caller

end Caller

/-- The coroutine has left `start()`, or has ended. -/
def Released (c : Coroutine σ V E) : Prop :=
  c.left = true ∨ c.phase = .final .caller ∨ c.phase = .final .other

/-- All runs of `sync_wait(a)`, whoever resumes the coroutine. -/
def syncWait [Inhabited V] (kind : Kind) (a : Awaitable σ ρ V E) :
    System (State σ V E) (Event σ ρ V E) where
  init := fun s => s = { caller := .idle, coroutine := .new }
  guard := fun s e =>
    match e with
    | .task e => (waitTask kind a).guard s.coroutine e ∧ s.caller.allows e = true
    | .startReturns => s.caller = .inStart ∧ Released s.coroutine
    | .readResult r => s.caller = .started ∧ r = s.coroutine.promise.result kind
  next := fun s e =>
    match e with
    | .task e =>
        { caller := s.caller.after e
          coroutine := (waitTask kind a).next s.coroutine e }
    | .startReturns => { s with caller := .started }
    | .readResult r => { s with caller := .returned r }

instance decidableGuard [Inhabited V] [DecidableEq σ] [DecidableEq V] [DecidableEq E]
    (kind : Kind) (a : Awaitable σ ρ V E) (s : State σ V E) (e : Event σ ρ V E) :
    Decidable ((syncWait kind a).guard s e) := by
  cases e with
  | task e =>
      exact inferInstanceAs (Decidable
        (e.Enabled a s.coroutine ∧ s.caller.allows e = true))
  | startReturns =>
      exact inferInstanceAs (Decidable (_ ∧ (_ ∨ _ ∨ _)))
  | readResult r =>
      exact inferInstanceAs (Decidable (_ ∧ _))

section Reading

/-- The step of the coroutine, if the event is one. -/
def Event.task? : Event σ ρ V E → Option (Step σ ρ V E)
  | .task e => some e
  | _ => none

/-- The steps of the coroutine. -/
def taskSteps (tr : List (Event σ ρ V E)) : List (Step σ ρ V E) :=
  tr.filterMap Event.task?

/-- `result()` is read after the awaitable has completed, and gives its outcome. -/
def ReadsOutcome [Inhabited V] (kind : Kind)
    (past : List (Event σ ρ V E)) (e : Event σ ρ V E) : Prop :=
  ∀ r, e = .readResult r →
    ∃ o, outcomes (taskSteps past) = [o] ∧ r = some (o.map kind.returned)

/-- `sync_wait` returns the outcome of the awaitable in every run. -/
def ReturnsOutcome [Inhabited V] (kind : Kind) (a : Awaitable σ ρ V E) : Prop :=
  ∀ tr s, (syncWait kind a).Run tr s → System.History (ReadsOutcome kind) tr

variable [Inhabited V] {kind : Kind} {a : Awaitable σ ρ V E}
variable {tr : List (Event σ ρ V E)} {s : State σ V E}

/-- Inside `sync_wait` the coroutine runs as it does on its own. -/
theorem coroutine_run
    (hrun : (syncWait kind a).Run tr s) :
    (waitTask kind a).Run (taskSteps tr) s.coroutine := by
  refine hrun.project (fun s hs => ?_) ?_ ?_
  · obtain rfl := hs
    rfl
  · intro s e _ hlabel
    cases e with
    | task e =>
        cases hlabel
    | _ =>
        rfl
  · intro s e e' hguard hlabel
    cases e with
    | task e =>
        cases hlabel
        exact ⟨hguard.1, rfl⟩
    | _ =>
        cases hlabel

/-- Once `start()` has returned, the coroutine is at its final suspend. -/
theorem final_of_started
    (ha : a.Held)
    (hrun : (syncWait kind a).Run tr s)
    (hcaller : s.caller = .started) :
    ∃ who, s.coroutine.phase = .final who := by
  induction hrun with
  | start hinit =>
      obtain rfl := hinit
      cases hcaller
  | @step tr s e hrun hguard ih =>
      cases e with
      | task e =>
          obtain ⟨hstep, hallows⟩ := hguard
          cases e with
          | start =>
              cases hcaller
          | suspend who x r leaves x' =>
              obtain ⟨i, hphase⟩ := ih hcaller
              exact absurd (hstep.1.symm.trans hphase) nofun
          | resume who x =>
              obtain ⟨i, hphase⟩ := ih hcaller
              exact absurd (hstep.1.symm.trans hphase) nofun
          | complete who x r o =>
              exact ⟨who, rfl⟩
      | startReturns =>
          obtain ⟨-, hleft | hphase | hphase⟩ := hguard
          · rw [left_of_held ha (coroutine_run hrun)] at hleft
            cases hleft
          · exact ⟨_, hphase⟩
          · exact ⟨_, hphase⟩
      | readResult r =>
          cases hcaller

theorem returnsOutcome_of_held
    (ha : a.Held) :
    ReturnsOutcome kind a := by
  intro tr s hrun
  refine hrun.history ?_
  intro tr s e hrun hguard r he
  subst he
  obtain ⟨hcaller, hr⟩ := hguard
  obtain ⟨who, hphase⟩ := final_of_started ha hrun hcaller
  obtain ⟨o, houtcomes, hresult⟩ := result_of_final (coroutine_run hrun) hphase
  exact ⟨o, houtcomes, hr.trans hresult⟩

/-- The caller's thread runs the coroutine, and the awaitable is in state `x`. -/
structure InStart (tr : List (Event σ ρ V E)) (s : State σ V E) (x : σ) : Prop where
  caller : s.caller = .inStart
  running : s.coroutine.phase = .running .caller x
  stays : s.coroutine.left = false
  pending : outcomes (taskSteps tr) = []

/-- The events after which `result()` is read although the awaitable is pending. -/
def readEarly (x : σ) (r : ρ) (x' : σ) (res : Option (Except E V)) :
    List (Event σ ρ V E) :=
  [.task (.suspend .caller x r true x'), .startReturns, .readResult res]

theorem not_returnsOutcome_of_leaves
    {x x' : σ} {r : ρ}
    (hrun : (syncWait kind a).Run tr s)
    (hs : InStart tr s x)
    (hstop : a.resume x r = .suspend true x') :
    ¬ ReturnsOutcome kind a := by
  intro hreturns
  have henabled : (syncWait kind a).Enabled s
      (readEarly x r x' (s.coroutine.promise.result kind)) := by
    refine ⟨⟨⟨hs.running, hstop⟩, ?_⟩, ⟨hs.caller, ?_⟩, ⟨rfl, rfl⟩, trivial⟩
    · rw [hs.caller]
      rfl
    · exact Or.inl (Bool.or_true _)
  obtain ⟨o, houtcomes, -⟩ := hreturns _ _ (hrun.extend henabled)
    (tr ++ [.task (.suspend .caller x r true x'), .startReturns])
    (.readResult (s.coroutine.promise.result kind)) []
    (by simp [readEarly]) _ rfl
  have hnone : outcomes (taskSteps
      (tr ++ [.task (.suspend .caller x r true x'), .startReturns])) =
        ([] : List (Except E V)) := by
    rw [taskSteps, List.filterMap_append, outcomes, List.filterMap_append]
    exact (List.append_nil _).trans hs.pending
  rw [hnone] at houtcomes
  cases houtcomes

/-- The caller's thread runs into every state of the awaitable, or leaves before. -/
theorem inStart_of_visits
    {x : σ}
    (hreturns : ReturnsOutcome kind a)
    (hx : a.Visits x) :
    ∃ tr s, (syncWait kind a).Run tr s ∧ InStart tr s x := by
  induction hx with
  | initial =>
      have hrun : (syncWait kind a).Run [.task .start] _ :=
        .of_enabled rfl ⟨⟨rfl, rfl⟩, trivial⟩
      exact ⟨_, _, hrun, rfl, rfl, rfl, rfl⟩
  | @suspend x x' r leaves _ hstop ih =>
      obtain ⟨tr, s, hrun, hs⟩ := ih
      cases leaves with
      | true =>
          exact absurd hreturns (not_returnsOutcome_of_leaves hrun hs hstop)
      | false =>
          have hstays : (s.coroutine.left || false) = false := by
            rw [hs.stays]
            rfl
          have henabled : (syncWait kind a).Enabled s
              [.task (.suspend .caller x r false x'), .task (.resume .caller x')] := by
            refine ⟨⟨⟨hs.running, hstop⟩, ?_⟩, ⟨⟨rfl, fun _ => hstays⟩, ?_⟩, trivial⟩
            · rw [hs.caller]
              rfl
            · change s.caller.allows _ = true
              rw [hs.caller]
              rfl
          refine ⟨_, _, hrun.extend henabled, hs.caller, rfl, hstays, ?_⟩
          rw [taskSteps, List.filterMap_append, outcomes, List.filterMap_append]
          exact (List.append_nil _).trans hs.pending

/--
`sync_wait` reads the result only after the awaitable has produced it, and
returns or rethrows exactly its outcome, if and only if no suspension of the
awaitable lets `start()` return.
-/
theorem syncWait_returnsOutcome_iff :
    ReturnsOutcome kind a ↔ a.Held := by
  constructor
  · intro hreturns x hx r x' hstop
    obtain ⟨tr, s, hrun, hs⟩ := inStart_of_visits hreturns hx
    exact not_returnsOutcome_of_leaves hrun hs hstop hreturns
  · exact returnsOutcome_of_held

/-- The result is read while the coroutine waits for the other thread. -/
def readUnset : List (Event Bool Unit Nat Nat) :=
  [.task .start, .task (.suspend .caller false () true true), .startReturns,
    .readResult none]

theorem not_syncWait_returnsOutcome_scheduled :
    ¬ ReturnsOutcome .value scheduled := by
  intro hreturns
  have hrun := hreturns readUnset _ (.of_enabled rfl (by decide))
  obtain ⟨o, houtcomes, -⟩ := hrun
    [.task .start, .task (.suspend .caller false () true true), .startReturns]
    (.readResult none) [] rfl none rfl
  cases houtcomes

end Reading

end SyncWaitTask
end Ptl

import Ptl.Countdown
import Ptl.WaitAll
import Mathlib.Data.Fintype.Option
import Mathlib.Data.Fintype.Card

/-!
# `wait_all` continues once, after all tasks

The awaiting coroutine and the tasks each hold one token of the counter.  With
the tokens still held as the abstract state, `wait_all` refines `Countdown`
(`simulation`), and the number of continuations is that of the abstract model.

**Results.**
* `simulation`: the refinement.
* `waitAll_completes`: the awaiting coroutine continues at most once and only
  after all tasks have completed, it has continued once everybody has returned,
  and its result holds the outcome of every task.
-/

namespace Ptl
namespace WaitAll

open Transition

universe u v

variable {n : Nat} {V : Type u} {E : Type v}

namespace Awaiter

/-- The awaiting coroutine has not decremented the counter. -/
def Holding : Awaiter → Prop
  | awaiting => True
  | starting _ => True
  | storing => True
  | subtracting => True
  | _ => False

/-- `co_await` has not returned, and `begin_await` has not stored the handle. -/
def Early : Awaiter → Prop
  | awaiting => True
  | ready => True
  | starting _ => True
  | storing => True
  | _ => False

end Awaiter

namespace TaskState

/-- The task has not decremented the counter. -/
def Holding : TaskState → Prop
  | notStarted => True
  | running => True
  | notifying => True
  | _ => False

/-- The task has not stored its result. -/
def Pending : TaskState → Prop
  | notStarted => True
  | running => True
  | _ => False

end TaskState

/-- Who holds a token of the counter: the awaiting coroutine is `none`. -/
def State.Holding (s : State n V E) : Option (Fin n) → Prop
  | none => s.awaiter.Holding
  | some i => (s.task i).Holding

/-- What is known about the handle and the tasks not yet started. -/
structure Shape (s : State n V E) : Prop where
  early : s.awaiter.Early → s.coroutine = false
  stored : s.awaiter = .subtracting ∨ s.awaiter = .suspended →
    s.coroutine = true
  awaiting : s.awaiter = .awaiting → ∀ i, s.task i = .notStarted
  starting : ∀ k, s.awaiter = .starting k →
    ∀ i : Fin n, k ≤ i → s.task i = .notStarted

/-- Changing a task that has been started keeps the others not started. -/
theorem update_notStarted
    {task : Fin n → TaskState} {i j : Fin n} {t : TaskState}
    (hi : task i ≠ .notStarted)
    (hj : task j = .notStarted) :
    Function.update task i t j = .notStarted := by
  have hne : j ≠ i := by
    rintro rfl
    exact hi hj
  rw [Function.update_of_ne hne, hj]

theorem shape_of_reachable
    {s : State n V E}
    (hs : (waitAll n V E).Reachable s) :
    Shape s := by
  refine hs.invariant ?_ ?_
  · rintro _ rfl
    exact
      { early := fun _ => rfl
        stored := by simp [start]
        awaiting := fun _ _ => rfl
        starting := by simp [start] }
  · rintro s e ⟨hearly, hstored, hawaiting, hstarting⟩ hguard
    cases e with
    | ready =>
        have haw : s.awaiter = .awaiting := hguard.1
        exact
          { early := fun _ => hearly (by rw [haw]; trivial)
            stored := by simp [Event.next]
            awaiting := by simp [Event.next]
            starting := by simp [Event.next] }
    | notReady =>
        have haw : s.awaiter = .awaiting := hguard.1
        exact
          { early := fun _ => hearly (by rw [haw]; trivial)
            stored := by simp [Event.next]
            awaiting := by simp [Event.next]
            starting := fun _ _ i _ => hawaiting haw i }
    | startTask i =>
        have haw : s.awaiter = .starting i := hguard
        refine
          { early := fun _ => hearly (by rw [haw]; trivial)
            stored := by simp [Event.next]
            awaiting := by simp [Event.next]
            starting := ?_ }
        rintro k hk j hj
        obtain rfl : (i : Nat) + 1 = k := by
          simpa [Event.next] using hk
        have hne : j ≠ i := by
          rintro rfl
          omega
        change Function.update s.task i .running j = .notStarted
        rw [Function.update_of_ne hne]
        exact hstarting i haw j (by omega)
    | tasksStarted =>
        have haw : s.awaiter = .starting n := hguard
        exact
          { early := fun _ => hearly (by rw [haw]; trivial)
            stored := by simp [Event.next]
            awaiting := by simp [Event.next]
            starting := by simp [Event.next] }
    | storeCoroutine =>
        exact
          { early := by simp [Event.next, Awaiter.Early]
            stored := fun _ => rfl
            awaiting := by simp [Event.next]
            starting := by simp [Event.next] }
    | beginAwait old =>
        have hco := hstored (Or.inl hguard.1)
        by_cases hold : old > 1 <;>
          exact
            { early := by simp [Event.next, hold, Awaiter.Early]
              stored := fun _ => hco
              awaiting := by simp [Event.next, hold]
              starting := by simp [Event.next, hold] }
    | finish i o =>
        have hi : s.task i ≠ .notStarted := by
          simp [show s.task i = .running from hguard]
        exact
          { early := hearly
            stored := hstored
            awaiting := fun h j => update_notStarted hi (hawaiting h j)
            starting := fun k h j hj =>
              update_notStarted hi (hstarting k h j hj) }
    | notify i old =>
        have hi : s.task i ≠ .notStarted := by
          simp [show s.task i = .notifying from hguard.1]
        exact
          { early := hearly
            stored := hstored
            awaiting := fun h j => update_notStarted hi (hawaiting h j)
            starting := fun k h j hj =>
              update_notStarted hi (hstarting k h j hj) }
    | resume i =>
        exact
          { early := by simp [Event.next, Awaiter.Early]
            stored := by simp [Event.next]
            awaiting := by simp [Event.next]
            starting := by simp [Event.next] }

section Refinement

/-- The event of the countdown that an event stands for. -/
def label : Event n V E → Option (Countdown.Event (Option (Fin n)))
  | .ready => some (.releaseLast none)
  | .beginAwait old =>
      some (if old > 1 then .release none else .releaseLast none)
  | .notify i old =>
      some (if old = 1 then .releaseLast (some i) else .release (some i))
  | .resume i => some (.wake (some i))
  | _ => none

/-- The countdown over the tokens of all tasks and the awaiting coroutine. -/
def abstract (n : Nat) :
    System (Countdown.State (Option (Fin n)))
      (Countdown.Event (Option (Fin n))) :=
  Countdown.countdown none Finset.univ

/-- The task that is about to resume the awaiting coroutine. -/
def State.Waking (s : State n V E) : Option (Fin n) → Prop
  | none => False
  | some i => s.task i = .resuming

/-- The awaiting coroutine has gone on. -/
def State.Continued (s : State n V E) : Prop :=
  s.awaiter = .continued ∨ s.awaiter = .ready

/-- The counter; without tasks it is never decremented. -/
def State.outstanding (s : State n V E) : Nat :=
  if s.awaiter = .ready then 0 else s.count

/-- The tokens that are out are those somebody holds. -/
def Refines
    (s : State n V E) (t : Countdown.State (Option (Fin n))) : Prop :=
  Countdown.Matches t s.Holding s.outstanding s.Continued s.Waking

theorem univ_ne_empty :
    (Finset.univ : Finset (Option (Fin n))) ≠ ∅ :=
  Finset.ne_empty_of_mem (Finset.mem_univ none)

/-- A property of a task's state that an update does not change. -/
theorem update_iff
    {task : Fin n → TaskState} {i : Fin n} {x : TaskState}
    {P : TaskState → Prop}
    (h : P x ↔ P (task i))
    (j : Fin n) :
    P (Function.update task i x j) ↔ P (task j) := by
  by_cases hj : j = i
  · subst hj
    rwa [Function.update_self]
  · rw [Function.update_of_ne hj]

section Steps

variable {s : State n V E} {t : Countdown.State (Option (Fin n))}

/-- Steps that keep the holders, the count and the phase. -/
theorem Refines.of_same
    {s' : State n V E}
    (hR : Refines s t)
    (hawaiter : s'.awaiter.Holding ↔ s.awaiter.Holding)
    (htask : ∀ i, (s'.task i).Holding ↔ (s.task i).Holding)
    (hcount : s'.count = s.count)
    (hready : s'.awaiter = .ready ↔ s.awaiter = .ready)
    (hcontinued : s'.awaiter = .continued ↔ s.awaiter = .continued)
    (hresuming : ∀ i, s'.task i = .resuming ↔ s.task i = .resuming) :
    Refines s' t := by
  refine Countdown.Matches.congr hR ?_ ?_ ?_ ?_
  · rintro (_ | i)
    · exact hawaiter
    · exact htask i
  · simp [State.outstanding, hcount, hready]
  · simp [State.Continued, hready, hcontinued]
  · rintro (_ | i)
    · exact Iff.rfl
    · exact hresuming i

theorem refines_silent
    {e : Event n V E}
    (hs : Shape s)
    (hR : Refines s t)
    (hguard : (waitAll n V E).guard s e)
    (hlabel : label e = none) :
    Refines ((waitAll n V E).next s e) t := by
  cases e with
  | notReady =>
      have haw : s.awaiter = .awaiting := hguard.1
      apply hR.of_same <;>
        simp [Event.next, haw, Awaiter.Holding]
  | startTask i =>
      have haw : s.awaiter = .starting i := hguard
      have htask := hs.starting i haw i (le_refl _)
      refine hR.of_same ?_ (update_iff (P := TaskState.Holding) ?_) rfl
        ?_ ?_ (update_iff (P := fun x => x = .resuming) ?_) <;>
        simp [Event.next, haw, htask, Awaiter.Holding, TaskState.Holding]
  | tasksStarted =>
      have haw : s.awaiter = .starting n := hguard
      apply hR.of_same <;>
        simp [Event.next, haw, Awaiter.Holding]
  | storeCoroutine =>
      have haw : s.awaiter = .storing := hguard
      apply hR.of_same <;>
        simp [Event.next, haw, Awaiter.Holding]
  | finish i o =>
      have htask : s.task i = .running := hguard
      refine hR.of_same Iff.rfl (update_iff (P := TaskState.Holding) ?_) rfl
        Iff.rfl Iff.rfl (update_iff (P := fun x => x = .resuming) ?_) <;>
        simp [htask, TaskState.Holding]
  | _ =>
      simp [label] at hlabel

/-- A step that matches an event of the countdown. -/
def StepMatches
    (s : State n V E) (t : Countdown.State (Option (Fin n)))
    (e : Event n V E) (f : Countdown.Event (Option (Fin n))) : Prop :=
  (abstract n).guard t f ∧
    Refines ((waitAll n V E).next s e) ((abstract n).next t f)

/-- Without tasks, the awaiting coroutine holds the only token. -/
theorem refines_ready
    (hs : Shape s)
    (hR : Refines s t)
    (hguard : (waitAll n V E).guard s .ready) :
    StepMatches s t .ready (.releaseLast none) := by
  obtain ⟨haw, hn⟩ := hguard
  have hco := hs.early (by rw [haw]; trivial)
  rw [hco] at hn
  obtain rfl : n = 0 := by simpa using hn
  have hholding : s.Holding none := by
    simp [State.Holding, haw, Awaiter.Holding]
  have hlast : ¬ 1 < s.outstanding := by
    rw [← hR.count]
    exact not_lt.mpr (Finset.card_le_one_of_subsingleton t.tokens)
  obtain ⟨hg, hnext⟩ :=
    Countdown.Matches.releaseLast none hR hholding hlast
  refine ⟨hg, hnext.congr ?_ ?_ ?_ ?_⟩
  · intro a
    obtain rfl : a = none := Subsingleton.elim a none
    simp [State.Holding, Event.next, Awaiter.Holding]
  · have hle : s.outstanding - 1 = 0 := by omega
    simp [State.outstanding, Event.next] at hle ⊢
    omega
  · simp [State.Continued, Event.next]
  · intro a
    obtain rfl : a = none := Subsingleton.elim a none
    simp [State.Waking]

theorem refines_beginAwait
    {old : Nat}
    (ht : (abstract n).Reachable t)
    (hR : Refines s t)
    (hguard : (waitAll n V E).guard s (.beginAwait old)) :
    StepMatches s t (.beginAwait old)
      (if old > 1 then .release none else .releaseLast none) := by
  obtain ⟨haw, rfl⟩ := hguard
  have hholding : s.Holding none := by
    simp [State.Holding, haw, Awaiter.Holding]
  have hcount : s.outstanding = s.count := by
    simp [State.outstanding, haw]
  obtain ⟨-, -, hawake, hwaking⟩ :=
    Countdown.Matches.counting hR univ_ne_empty ht hholding
  by_cases hold : s.count > 1
  · rw [if_pos hold]
    obtain ⟨hg, hnext⟩ := Countdown.Matches.release none hR
      hholding (hcount.symm ▸ hold)
    refine ⟨hg, hnext.congr ?_ ?_ ?_ fun _ => Iff.rfl⟩
    · rintro (_ | i) <;>
        simp [State.Holding, Event.next, hold, Awaiter.Holding]
    · simp [State.outstanding, Event.next, hold, haw]
    · simp [State.Continued, Event.next, hold, haw]
  · rw [if_neg hold]
    obtain ⟨hg, hnext⟩ := Countdown.Matches.releaseLast none hR
      hholding (hcount.symm ▸ hold)
    refine ⟨hg, hnext.congr ?_ ?_ ?_ ?_⟩
    · rintro (_ | i) <;>
        simp [State.Holding, Event.next, hold, Awaiter.Holding]
    · simp [State.outstanding, Event.next, hold, haw]
    · simp [State.Continued, Event.next, hold]
    · rintro (_ | i)
      · simp [State.Waking]
      · simpa [State.Waking, Event.next] using hwaking (some i)

theorem refines_notify
    {i : Fin n} {old : Nat}
    (ht : (abstract n).Reachable t)
    (hR : Refines s t)
    (hguard : (waitAll n V E).guard s (.notify i old)) :
    StepMatches s t (.notify i old)
      (if old = 1 then .releaseLast (some i) else .release (some i)) := by
  obtain ⟨hi, rfl⟩ := hguard
  have hholding : s.Holding (some i) := by
    simp [State.Holding, hi, TaskState.Holding]
  obtain ⟨hpos, -, hawake, hwaking⟩ :=
    Countdown.Matches.counting hR univ_ne_empty ht hholding
  have hready : s.awaiter ≠ .ready := fun h => hawake (Or.inr h)
  have hcount : s.outstanding = s.count := if_neg hready
  by_cases hold : s.count = 1
  · rw [if_pos hold]
    obtain ⟨hg, hnext⟩ := Countdown.Matches.releaseLast none hR
      hholding (by omega)
    refine ⟨hg, hnext.congr ?_ ?_ ?_ ?_⟩
    · rintro (_ | j)
      · simp [State.Holding, Event.next]
      · by_cases hji : j = i <;>
          simp [State.Holding, Event.next, hji, hold, TaskState.Holding]
    · simp [State.outstanding, Event.next, hready]
    · simpa [State.Continued, Event.next] using hawake
    · rintro (_ | j)
      · simp [State.Waking]
      · by_cases hji : j = i
        · simp [State.Waking, Event.next, hji, hold]
        · simpa [State.Waking, Event.next, hji] using hwaking (some j)
  · rw [if_neg hold]
    obtain ⟨hg, hnext⟩ := Countdown.Matches.release none hR
      hholding (by omega)
    refine ⟨hg, hnext.congr ?_ ?_ Iff.rfl ?_⟩
    · rintro (_ | j)
      · simp [State.Holding, Event.next]
      · by_cases hji : j = i <;>
          simp [State.Holding, Event.next, hji, hold, TaskState.Holding]
    · simp [State.outstanding, Event.next, hready]
    · rintro (_ | j)
      · exact Iff.rfl
      · exact update_iff (P := fun x => x = .resuming)
          (by simp [hi, hold]) j

theorem refines_resume
    {i : Fin n}
    (ht : (abstract n).Reachable t)
    (hR : Refines s t)
    (hguard : (waitAll n V E).guard s (.resume i)) :
    StepMatches s t (.resume i) (.wake (some i)) := by
  have hwaking : s.Waking (some i) := hguard
  have hholding : ∀ a, ¬ s.Holding a := fun _ =>
    Countdown.Matches.not_holding hR univ_ne_empty ht (Or.inr ⟨_, hwaking⟩)
  obtain ⟨hg, hnext⟩ := Countdown.Matches.wake none hR hwaking
  have hready : s.awaiter ≠ .ready := fun h =>
    Countdown.Matches.not_awake hR hwaking (Or.inr h)
  refine ⟨hg, hnext.congr ?_ ?_ ?_ ?_⟩
  · rintro (_ | j)
    · simpa [State.Holding, Event.next, Awaiter.Holding] using hholding none
    · by_cases hji : j = i
      · simpa [State.Holding, Event.next, hji, TaskState.Holding]
          using hholding (some i)
      · simp [State.Holding, Event.next, hji]
  · simp [State.outstanding, Event.next, hready]
  · simp [State.Continued, Event.next]
  · rintro (_ | j)
    · simp [State.Waking]
    · by_cases hji : j = i
      · simp [State.Waking, Event.next, hji]
      · have hj : s.task j ≠ .resuming := fun h =>
          hji (Option.some.inj (Countdown.Matches.waking_unique hR
            (show s.Waking (some j) from h) hwaking))
        simpa [State.Waking, Event.next, hji] using hj

/-- `wait_all` refines the countdown. -/
theorem simulation :
    System.Simulation (waitAll n V E) (abstract n) Refines label where
  init := by
    rintro _ rfl
    refine ⟨_, rfl, (Countdown.Matches.initial Finset.univ).congr ?_ ?_ ?_ ?_⟩
    · rintro (_ | i) <;>
        simp [State.Holding, start, Awaiter.Holding, TaskState.Holding]
    · simp [State.outstanding, start]
    · simp [State.Continued, start]
    · rintro (_ | i) <;> simp [State.Waking, start]
  silent := by
    intro s t e hs _ hR hguard hlabel
    exact refines_silent (shape_of_reachable hs) hR hguard hlabel
  step := by
    intro s t e f hs ht hR hguard hlabel
    cases e with
    | ready =>
        obtain rfl := Option.some.inj hlabel
        exact refines_ready (shape_of_reachable hs) hR hguard
    | beginAwait old =>
        obtain rfl := Option.some.inj hlabel
        exact refines_beginAwait ht hR hguard
    | notify i old =>
        obtain rfl := Option.some.inj hlabel
        exact refines_notify ht hR hguard
    | resume i =>
        obtain rfl := Option.some.inj hlabel
        exact refines_resume ht hR hguard
    | _ =>
        simp [label] at hlabel

end Steps

end Refinement

section Results

/-- The task has stored the outcome of its body. -/
structure Stored (tr : List (Event n V E)) (s : State n V E) : Prop where
  pending : ∀ i, (s.task i).Pending →
    s.promise i = .new ∧ ∀ o, .finish i o ∉ tr
  finished : ∀ i, ¬ (s.task i).Pending → ∃ o, .finish i o ∈ tr
  outcome : ∀ i o, .finish i o ∈ tr → (s.promise i).outcome = some o

/-- Steps that neither finish a task nor start it. -/
theorem Stored.of_same
    {tr : List (Event n V E)} {s s' : State n V E} {e : Event n V E}
    (h : Stored tr s)
    (he : ∀ i o, e ≠ .finish i o)
    (hpromise : s'.promise = s.promise)
    (htask : ∀ i, (s'.task i).Pending ↔ (s.task i).Pending) :
    Stored (tr ++ [e]) s' := by
  have hmem : ∀ i o, .finish i o ∈ tr ++ [e] ↔ .finish i o ∈ tr := by
    intro i o
    simp [(he i o).symm]
  refine ⟨?_, ?_, ?_⟩
  · intro i hi
    obtain ⟨hnew, hnone⟩ := h.pending i ((htask i).mp hi)
    refine ⟨by rw [hpromise, hnew], ?_⟩
    intro o ho
    exact hnone o ((hmem i o).mp ho)
  · intro i hi
    obtain ⟨o, ho⟩ := h.finished i (mt (htask i).mpr hi)
    exact ⟨o, (hmem i o).mpr ho⟩
  · intro i o ho
    rw [hpromise]
    exact h.outcome i o ((hmem i o).mp ho)

/-- A running task stores its outcome. -/
theorem Stored.finish
    {tr : List (Event n V E)} {s : State n V E} {i : Fin n}
    {o : Outcome V E}
    (h : Stored tr s)
    (hi : s.task i = .running) :
    Stored (tr ++ [.finish i o]) (Event.next s (.finish i o)) := by
  obtain ⟨hnew, hnone⟩ := h.pending i (by rw [hi]; trivial)
  have hmem : ∀ j o', .finish j o' ∈ tr ++ [.finish i o] ↔
      .finish j o' ∈ tr ∨ j = i ∧ o' = o := by
    intro j o'
    simp
  refine ⟨?_, ?_, ?_⟩
  · intro j hj
    by_cases hji : j = i
    · simp [Event.next, hji, TaskState.Pending] at hj
    · simp only [Event.next, Function.update_of_ne hji] at hj ⊢
      obtain ⟨hnew', hnone'⟩ := h.pending j hj
      refine ⟨hnew', ?_⟩
      intro o' ho'
      rcases (hmem j o').mp ho' with hold | ⟨rfl, -⟩
      · exact hnone' o' hold
      · exact hji rfl
  · intro j hj
    by_cases hji : j = i
    · exact ⟨o, (hmem j o).mpr (Or.inr ⟨hji, rfl⟩)⟩
    · simp only [Event.next, Function.update_of_ne hji] at hj
      obtain ⟨o', ho'⟩ := h.finished j hj
      exact ⟨o', (hmem j o').mpr (Or.inl ho')⟩
  · intro j o' ho'
    rcases (hmem j o').mp ho' with hold | ⟨rfl, rfl⟩
    · have hji : j ≠ i := by
        rintro rfl
        exact hnone o' hold
      simp only [Event.next, Function.update_of_ne hji]
      exact h.outcome j o' hold
    · simp [Event.next, hnew]

theorem stored_of_run
    {tr : List (Event n V E)} {s : State n V E}
    (hrun : (waitAll n V E).Run tr s) :
    Stored tr s := by
  refine hrun.invariant ?_ ?_
  · rintro _ rfl
    exact
      { pending := by simp [start]
        finished := by simp [start, TaskState.Pending]
        outcome := by simp }
  · rintro tr s e hrun ih hguard
    cases e with
    | startTask i =>
        have hi := (shape_of_reachable ⟨tr, hrun⟩).starting i hguard i
          (le_refl _)
        refine ih.of_same (by simp) rfl
          (update_iff (P := TaskState.Pending) ?_)
        simp [hi, TaskState.Pending]
    | finish i o =>
        exact ih.finish hguard
    | notify i old =>
        have hi : s.task i = .notifying := hguard.1
        refine ih.of_same (by simp) rfl
          (update_iff (P := TaskState.Pending) ?_)
        by_cases hold : old = 1 <;> simp [hi, hold, TaskState.Pending]
    | resume i =>
        have hi : s.task i = .resuming := hguard
        refine ih.of_same (by simp) rfl
          (update_iff (P := TaskState.Pending) ?_)
        simp [hi, TaskState.Pending]
    | _ =>
        exact ih.of_same (by simp) rfl fun _ => Iff.rfl

/-- Every continuation is one of the countdown. -/
theorem continuations_eq (tr : List (Event n V E)) :
    Countdown.continuations none (tr.filterMap label) = continuations tr := by
  rw [Countdown.continuations, List.filterMap_filterMap, continuations]
  congr 1
  funext e
  cases e with
  | beginAwait old =>
      by_cases hold : old > 1 <;>
        simp [label, Event.continuer?, Countdown.Event.continuer?, hold]
  | notify i old =>
      by_cases hold : old = 1 <;>
        simp [label, Event.continuer?, Countdown.Event.continuer?, hold]
  | _ =>
      simp [label, Event.continuer?, Countdown.Event.continuer?]

/--
The awaiting coroutine continues at most once and only after every task has
stored its outcome, which its result then yields; a task that resumes it finds
its handle stored and the coroutine suspended; and when the awaiting coroutine
and all tasks have made their decrement and no resumption is pending, it has
continued.
-/
structure CompletesOnce (tr : List (Event n V E)) (s : State n V E) : Prop where
  once : (continuations tr).length ≤ 1
  completed : continuations tr ≠ [] → ∀ i, ∃ o, .finish i o ∈ tr
  outcome : continuations tr ≠ [] →
    ∀ i o, .finish i o ∈ tr → (s.promise i).outcome = some o
  resumable : ∀ i, s.task i = .resuming →
    s.awaiter = .suspended ∧ s.coroutine = true
  continues : (∀ i, s.task i = .final) →
    s.awaiter = .suspended ∨ s.awaiter = .continued ∨ s.awaiter = .ready →
    (continuations tr).length = 1

/-- `co_await wait_all(...)` completes exactly once, when all tasks are done. -/
theorem waitAll_completes
    {tr : List (Event n V E)} {s : State n V E}
    (hrun : (waitAll n V E).Run tr s) :
    CompletesOnce tr s := by
  have hshape := shape_of_reachable ⟨tr, hrun⟩
  have hstored := stored_of_run hrun
  obtain ⟨t, hR, hN⟩ := simulation.run hrun
  have ht : (abstract n).Reachable t := ⟨_, hN⟩
  obtain ⟨honce, hawake⟩ := Countdown.continued_of_run univ_ne_empty hN
  rw [continuations_eq, hR.awake] at *
  refine ⟨honce, ?_, fun _ => hstored.outcome, ?_, ?_⟩
  · intro hne i
    have hholding : ¬ s.Holding (some i) :=
      Countdown.Matches.not_holding hR univ_ne_empty ht
        (Or.inl (hawake.mpr hne))
    refine hstored.finished i ?_
    intro hpending
    apply hholding
    cases hi : s.task i <;> simp_all [State.Holding, TaskState.Holding,
      TaskState.Pending]
  · intro i hi
    have hwaking : s.Waking (some i) := hi
    have hholding : ¬ s.Holding none :=
      Countdown.Matches.not_holding hR univ_ne_empty ht (Or.inr ⟨_, hwaking⟩)
    have hnot := Countdown.Matches.not_awake hR hwaking
    have hsuspended : s.awaiter = .suspended := by
      cases haw : s.awaiter <;>
        simp_all [State.Holding, State.Continued, Awaiter.Holding]
    exact ⟨hsuspended, hshape.stored (Or.inr hsuspended)⟩
  · intro hfinal hreturned
    have hnone : ∀ a, ¬ s.Holding a := by
      rintro (_ | i)
      · rcases hreturned with h | h | h <;>
          simp [State.Holding, h, Awaiter.Holding]
      · simp [State.Holding, hfinal i, TaskState.Holding]
    have hne : continuations tr ≠ [] := by
      rw [← hawake]
      rcases Countdown.Matches.continued hR univ_ne_empty ht hnone with
        hcontinued | ⟨_ | i, hwaking⟩
      · exact hcontinued
      · exact hwaking.elim
      · have hi : s.task i = .resuming := hwaking
        simp [hfinal i] at hi
    have hpos := List.length_pos_iff.mpr hne
    omega

/-- The second task finishes inline, the first one later and with an exception. -/
def secondFirst : List (Event 2 Nat String) :=
  [.notReady,
    .startTask 0,
    .startTask 1,
    .finish 1 (.value 7),
    .notify 1 3,
    .tasksStarted,
    .storeCoroutine,
    .beginAwait 2,
    .finish 0 (.exception "failed"),
    .notify 0 1,
    .resume 0]

theorem waitAll_completes_secondFirst :
    CompletesOnce secondFirst
      ((waitAll 2 Nat String).exec start secondFirst) ∧
    continuations secondFirst = [some 0] :=
  ⟨waitAll_completes (.of_enabled rfl (by decide +kernel)), by decide⟩

end Results

end WaitAll
end Ptl

import Ptl.WaitAllCompletion

/-!
# `wait_all` that is awaited several times

This module embeds `co_await` of one `wait_all_awaitable` lvalue by any number of
coroutines, one after another: the next one tests `await_ready` when the one
before it has suspended or gone on.  All of them run the code of
`wait_all_awaitable::awaiter_base` with the same counter and the same tasks.

Seen from the first `co_await`, every run is one of `waitAll`
(`simulation`).

**Results.**
* `awaits_completed_iff`: a coroutine goes on only after all tasks have
  completed, exactly if every `co_await` but the first is made after that.
-/

namespace Ptl
namespace WaitAllAwaits

open Transition WaitAll

universe u v

/-- `co_await` has suspended its coroutine or is left. -/
def Settled (p : Awaiter) : Prop :=
  p = .ready ∨ p = .suspended ∨ p = .continued

instance decidableSettled (p : Awaiter) : Decidable (Settled p) :=
  inferInstanceAs (Decidable (p = .ready ∨ p = .suspended ∨ p = .continued))

/-- The counter with the stored handle, the uses of `co_await` and the tasks. -/
structure State (n : Nat) (V : Type u) (E : Type v) where
  count : Nat
  coroutine : Option Nat
  awaiter : Nat → Awaiter
  task : Fin n → TaskState
  promise : Fin n → Promise V E

/-- A new `wait_all_awaitable`. -/
def start {n : Nat} {V : Type u} {E : Type v} : State n V E where
  count := n + 1
  coroutine := none
  awaiter := fun _ => .awaiting
  task := fun _ => .notStarted
  promise := fun _ => .new

/-- The steps of the `k`-th `co_await` and of the tasks. -/
inductive Event (n : Nat) (V : Type u) (E : Type v) where
  | ready (k : Nat)
  | notReady (k : Nat)
  | startTask (k : Nat) (i : Fin n)
  | tasksStarted (k : Nat)
  | storeCoroutine (k : Nat)
  | beginAwait (k old : Nat)
  | finish (i : Fin n) (o : Outcome V E)
  | notify (i : Fin n) (old : Nat)
  | resume (i : Fin n)

variable {n : Nat} {V : Type u} {E : Type v}

namespace State

def setAwaiter (s : State n V E) (k : Nat) (p : Awaiter) : State n V E :=
  { s with awaiter := Function.update s.awaiter k p }

def setTask (s : State n V E) (i : Fin n) (t : TaskState) : State n V E :=
  { s with task := Function.update s.task i t }

/-- `wait_all_counter::is_ready`; the specialisation for no tasks is always ready. -/
def isReady (s : State n V E) : Bool :=
  n = 0 || s.coroutine.isSome

/-- The `k`-th `co_await` is the next one. -/
def Turn (s : State n V E) (k : Nat) : Prop :=
  s.awaiter k = .awaiting ∧ ∀ j < k, Settled (s.awaiter j)

instance decidableTurn (s : State n V E) (k : Nat) : Decidable (s.Turn k) :=
  inferInstanceAs (Decidable (s.awaiter k = .awaiting ∧ ∀ j < k, Settled (s.awaiter j)))

/-- `coroutine_.resume()`. -/
def resumeStored (s : State n V E) : State n V E :=
  match s.coroutine with
  | some k => s.setAwaiter k .continued
  | none => s

end State

namespace Event

def guard (s : State n V E) : Event n V E → Prop
  | ready k => s.Turn k ∧ s.isReady = true
  | notReady k => s.Turn k ∧ s.isReady = false
  | startTask k i => s.awaiter k = .starting i
  | tasksStarted k => s.awaiter k = .starting n
  | storeCoroutine k => s.awaiter k = .storing
  | beginAwait k old => s.awaiter k = .subtracting ∧ old = s.count
  | finish i _ => s.task i = .running
  | notify i old => s.task i = .notifying ∧ old = s.count
  | resume i => s.task i = .resuming

instance decidableGuard (s : State n V E) :
    ∀ e : Event n V E, Decidable (e.guard s)
  | ready k => inferInstanceAs (Decidable (s.Turn k ∧ s.isReady = true))
  | notReady k => inferInstanceAs (Decidable (s.Turn k ∧ s.isReady = false))
  | startTask k i => inferInstanceAs (Decidable (s.awaiter k = .starting i))
  | tasksStarted k => inferInstanceAs (Decidable (s.awaiter k = .starting n))
  | storeCoroutine k => inferInstanceAs (Decidable (s.awaiter k = .storing))
  | beginAwait k old =>
      inferInstanceAs (Decidable (s.awaiter k = .subtracting ∧ old = s.count))
  | finish i _ => inferInstanceAs (Decidable (s.task i = .running))
  | notify i old => inferInstanceAs (Decidable (s.task i = .notifying ∧ old = s.count))
  | resume i => inferInstanceAs (Decidable (s.task i = .resuming))

def next (s : State n V E) : Event n V E → State n V E
  | ready k => s.setAwaiter k .ready
  | notReady k => s.setAwaiter k (.starting 0)
  | startTask k i => (s.setAwaiter k (.starting (i + 1))).setTask i .running
  | tasksStarted k => s.setAwaiter k .storing
  | storeCoroutine k => { s.setAwaiter k .subtracting with coroutine := some k }
  | beginAwait k old =>
      { s.setAwaiter k (if old > 1 then .suspended else .continued) with
        count := s.count - 1 }
  | finish i o =>
      { s.setTask i .notifying with
        promise := Function.update s.promise i ((s.promise i).store o) }
  | notify i old =>
      { s.setTask i (if old = 1 then .resuming else .final) with
        count := s.count - 1 }
  | resume i => s.resumeStored.setTask i .final

end Event

/-- All runs in which coroutines await the same lvalue one after another. -/
def awaits (n : Nat) (V : Type u) (E : Type v) : System (State n V E) (Event n V E) where
  init := fun s => s = start
  guard := Event.guard
  next := Event.next

instance decidableAwaitsGuard (s : State n V E) (e : Event n V E) :
    Decidable ((awaits n V E).guard s e) :=
  inferInstanceAs (Decidable (e.guard s))

section First

/-- Only the first `co_await` starts the tasks and stores its handle. -/
structure FirstOnly (s : State n V E) : Prop where
  later : ∀ k, s.awaiter (k + 1) = .awaiting ∨ s.awaiter (k + 1) = .ready
  early : (s.awaiter 0).Early → s.coroutine = none
  stored : ¬ (s.awaiter 0).Early → s.coroutine = some 0
  ready : s.awaiter 0 = .ready → n = 0

variable {s : State n V E} {k : Nat}

/-- A later `co_await` finds the handle of the first one. -/
theorem FirstOnly.isReady_of_turn
    (hs : FirstOnly s)
    (hturn : s.Turn (k + 1)) :
    s.isReady = true := by
  rcases hturn.2 0 (by omega) with h | h | h
  · simp [State.isReady, hs.ready h]
  · have hstored := hs.stored (by simp [h, Awaiter.Early])
    simp [State.isReady, hstored]
  · have hstored := hs.stored (by simp [h, Awaiter.Early])
    simp [State.isReady, hstored]

/-- The first `co_await` finds no handle. -/
theorem FirstOnly.isReady_iff
    (hs : FirstOnly s)
    (hearly : (s.awaiter 0).Early) :
    s.isReady = true ↔ n = 0 := by
  simp [State.isReady, hs.early hearly]

/-- A step of the first `co_await`. -/
theorem FirstOnly.of_first
    {s' : State n V E} {p : Awaiter}
    (hs : FirstOnly s)
    (hawaiter : s'.awaiter = Function.update s.awaiter 0 p)
    (hearly : p.Early → s'.coroutine = none)
    (hstored : ¬ p.Early → s'.coroutine = some 0)
    (hready : p = .ready → n = 0) :
    FirstOnly s' := by
  have hfirst : s'.awaiter 0 = p := by
    rw [hawaiter, Function.update_self]
  refine ⟨fun k => ?_, ?_, ?_, ?_⟩
  · rw [hawaiter, Function.update_of_ne (Nat.succ_ne_zero k)]
    exact hs.later k
  · rwa [hfirst]
  · rwa [hfirst]
  · rwa [hfirst]

/-- A step of the first `co_await` before it stores its handle. -/
theorem FirstOnly.of_early
    {s' : State n V E} {p : Awaiter}
    (hs : FirstOnly s)
    (hearly : (s.awaiter 0).Early)
    (hawaiter : s'.awaiter = Function.update s.awaiter 0 p)
    (hcoroutine : s'.coroutine = s.coroutine)
    (hp : p.Early)
    (hready : p = .ready → n = 0) :
    FirstOnly s' :=
  hs.of_first hawaiter (fun _ => hcoroutine.trans (hs.early hearly)) (fun h => absurd hp h)
    hready

/-- A step that changes neither the handle nor a `co_await`. -/
theorem FirstOnly.of_same
    {s' : State n V E}
    (hs : FirstOnly s)
    (hawaiter : s'.awaiter = s.awaiter)
    (hcoroutine : s'.coroutine = s.coroutine) :
    FirstOnly s' := by
  refine ⟨?_, ?_, ?_, ?_⟩
  · simpa only [hawaiter] using hs.later
  · simpa only [hawaiter, hcoroutine] using hs.early
  · simpa only [hawaiter, hcoroutine] using hs.stored
  · simpa only [hawaiter] using hs.ready

/-- A `co_await` that has begun and is not settled is the first one. -/
theorem FirstOnly.eq_zero
    {p : Awaiter}
    (hs : FirstOnly s)
    (haw : s.awaiter k = p)
    (hawaiting : p ≠ .awaiting)
    (hready : p ≠ .ready) :
    k = 0 := by
  subst haw
  cases k with
  | zero =>
      rfl
  | succ k =>
      rcases hs.later k with h | h
      · exact absurd h hawaiting
      · exact absurd h hready

theorem FirstOnly.resumeStored
    (hs : FirstOnly s) :
    FirstOnly s.resumeStored := by
  cases hco : s.coroutine with
  | none =>
      refine hs.of_same ?_ ?_ <;> simp [State.resumeStored, hco]
  | some k =>
      have hlate : ¬ (s.awaiter 0).Early := fun h => by simp [hs.early h] at hco
      obtain rfl : k = 0 := Option.some_inj.mp (hco.symm.trans (hs.stored hlate))
      refine hs.of_first (p := .continued) ?_ ?_ ?_ ?_
      · simp [State.resumeStored, hco, State.setAwaiter]
      · simp [Awaiter.Early]
      · intro _
        simp [State.resumeStored, hco, State.setAwaiter]
      · simp

theorem firstOnly_of_reachable
    (hs : (awaits n V E).Reachable s) :
    FirstOnly s := by
  refine hs.invariant ?_ ?_
  · rintro _ rfl
    exact
      { later := fun _ => Or.inl rfl
        early := fun _ => rfl
        stored := fun h => absurd trivial h
        ready := by simp [start] }
  · rintro s e hs hguard
    cases e with
    | ready k =>
        obtain ⟨hturn, hready⟩ := hguard
        cases k with
        | zero =>
            have hearly : (s.awaiter 0).Early := by simp [hturn.1, Awaiter.Early]
            exact hs.of_early hearly rfl rfl trivial fun _ => (hs.isReady_iff hearly).mp hready
        | succ k =>
            have hzero : (Function.update s.awaiter (k + 1) .ready) 0 = s.awaiter 0 :=
              Function.update_of_ne (Nat.succ_ne_zero k).symm ..
            refine ⟨fun j => ?_, ?_, ?_, ?_⟩
            · simp only [awaits, Event.next, State.setAwaiter]
              rcases eq_or_ne j k with rfl | hj
              · exact Or.inr (Function.update_self ..)
              · rw [Function.update_of_ne (by omega)]
                exact hs.later j
            · simpa only [awaits, Event.next, State.setAwaiter, hzero] using hs.early
            · simpa only [awaits, Event.next, State.setAwaiter, hzero] using hs.stored
            · simpa only [awaits, Event.next, State.setAwaiter, hzero] using hs.ready
    | notReady k =>
        obtain ⟨hturn, hnot⟩ := hguard
        cases k with
        | zero =>
            have hearly : (s.awaiter 0).Early := by simp [hturn.1, Awaiter.Early]
            exact hs.of_early hearly rfl rfl trivial (by simp)
        | succ k =>
            exact absurd (hs.isReady_of_turn hturn) (by simp [hnot])
    | startTask k i =>
        have haw : s.awaiter k = .starting i := hguard
        obtain rfl := hs.eq_zero haw (by simp) (by simp)
        have hearly : (s.awaiter 0).Early := by simp [haw, Awaiter.Early]
        exact hs.of_early hearly rfl rfl trivial (by simp)
    | tasksStarted k =>
        have haw : s.awaiter k = .starting n := hguard
        obtain rfl := hs.eq_zero haw (by simp) (by simp)
        have hearly : (s.awaiter 0).Early := by simp [haw, Awaiter.Early]
        exact hs.of_early hearly rfl rfl trivial (by simp)
    | storeCoroutine k =>
        have haw : s.awaiter k = .storing := hguard
        obtain rfl := hs.eq_zero haw (by simp) (by simp)
        exact hs.of_first rfl (fun h => h.elim) (fun _ => rfl) (by simp)
    | beginAwait k old =>
        obtain ⟨haw, -⟩ := hguard
        obtain rfl := hs.eq_zero haw (by simp) (by simp)
        have hstored := hs.stored (by simp [haw, Awaiter.Early])
        refine hs.of_first rfl ?_ (fun _ => hstored) ?_
        · split <;> exact fun h => h.elim
        · split <;> simp
    | finish i o =>
        exact hs.of_same rfl rfl
    | notify i old =>
        exact hs.of_same rfl rfl
    | resume i =>
        exact hs.resumeStored.of_same rfl rfl

end First

section Projection

/-- What the first `co_await` and the tasks see. -/
def State.first (s : State n V E) : WaitAll.State n V E where
  count := s.count
  coroutine := s.coroutine.isSome
  awaiter := s.awaiter 0
  task := s.task
  promise := s.promise

/-- The event of `waitAll` that an event stands for. -/
def label : Event n V E → Option (WaitAll.Event n V E)
  | .ready 0 => some .ready
  | .notReady 0 => some .notReady
  | .startTask 0 i => some (.startTask i)
  | .tasksStarted 0 => some .tasksStarted
  | .storeCoroutine 0 => some .storeCoroutine
  | .beginAwait 0 old => some (.beginAwait old)
  | .finish i o => some (.finish i o)
  | .notify i old => some (.notify i old)
  | .resume i => some (.resume i)
  | _ => none

/-- The first `co_await` and the tasks run as if there were no other one. -/
theorem simulation :
    System.Simulation (awaits n V E) (waitAll n V E) (fun s t => s.first = t) label where
  init := by
    rintro _ rfl
    exact ⟨WaitAll.start, rfl, rfl⟩
  silent := by
    rintro s _ e hs _ rfl hguard hlabel
    have hfirst := firstOnly_of_reachable hs
    cases e with
    | ready k =>
        cases k with
        | zero =>
            simp [label] at hlabel
        | succ k =>
            simp [awaits, Event.next, State.first, State.setAwaiter]
    | notReady k =>
        obtain ⟨hturn, hnot⟩ := hguard
        cases k with
        | zero =>
            simp [label] at hlabel
        | succ k =>
            exact absurd (hfirst.isReady_of_turn hturn) (by simp [hnot])
    | startTask k i =>
        obtain rfl := hfirst.eq_zero hguard (by simp) (by simp)
        simp [label] at hlabel
    | tasksStarted k =>
        obtain rfl := hfirst.eq_zero hguard (by simp) (by simp)
        simp [label] at hlabel
    | storeCoroutine k =>
        obtain rfl := hfirst.eq_zero hguard (by simp) (by simp)
        simp [label] at hlabel
    | beginAwait k old =>
        obtain rfl := hfirst.eq_zero hguard.1 (by simp) (by simp)
        simp [label] at hlabel
    | _ =>
        simp [label] at hlabel
  step := by
    rintro s _ e f hs ht rfl hguard hlabel
    have hfirst := firstOnly_of_reachable hs
    cases e with
    | ready k =>
        obtain ⟨⟨haw, -⟩, hready⟩ := hguard
        cases k with
        | zero =>
            obtain rfl := Option.some_inj.mp hlabel
            have hn := (hfirst.isReady_iff (by simp [haw, Awaiter.Early])).mp hready
            exact ⟨⟨haw, Or.inl hn⟩, by simp [awaits, Event.next, State.first, State.setAwaiter,
              WaitAll.Event.next]⟩
        | succ k =>
            simp [label] at hlabel
    | notReady k =>
        obtain ⟨⟨haw, -⟩, hnot⟩ := hguard
        cases k with
        | zero =>
            obtain rfl := Option.some_inj.mp hlabel
            have hearly : (s.awaiter 0).Early := by simp [haw, Awaiter.Early]
            have hn := mt (hfirst.isReady_iff hearly).mpr (by simp [hnot])
            refine ⟨⟨haw, hn, ?_⟩, ?_⟩
            · simp [State.first, hfirst.early hearly]
            · simp [awaits, Event.next, State.first, State.setAwaiter, WaitAll.Event.next]
        | succ k =>
            simp [label] at hlabel
    | startTask k i =>
        obtain rfl := hfirst.eq_zero hguard (by simp) (by simp)
        obtain rfl := Option.some_inj.mp hlabel
        refine ⟨hguard, ?_⟩
        simp [awaits, Event.next, State.first, State.setAwaiter, State.setTask,
          WaitAll.Event.next]
    | tasksStarted k =>
        obtain rfl := hfirst.eq_zero hguard (by simp) (by simp)
        obtain rfl := Option.some_inj.mp hlabel
        refine ⟨hguard, ?_⟩
        simp [awaits, Event.next, State.first, State.setAwaiter, WaitAll.Event.next]
    | storeCoroutine k =>
        obtain rfl := hfirst.eq_zero hguard (by simp) (by simp)
        obtain rfl := Option.some_inj.mp hlabel
        refine ⟨hguard, ?_⟩
        simp [awaits, Event.next, State.first, State.setAwaiter, WaitAll.Event.next]
    | beginAwait k old =>
        obtain rfl := hfirst.eq_zero hguard.1 (by simp) (by simp)
        obtain rfl := Option.some_inj.mp hlabel
        refine ⟨hguard, ?_⟩
        simp [awaits, Event.next, State.first, State.setAwaiter, WaitAll.Event.next]
    | finish i o =>
        obtain rfl := Option.some_inj.mp hlabel
        exact ⟨hguard, rfl⟩
    | notify i old =>
        obtain rfl := Option.some_inj.mp hlabel
        exact ⟨hguard, rfl⟩
    | resume i =>
        obtain rfl := Option.some_inj.mp hlabel
        obtain ⟨tr, hrun⟩ := ht
        obtain ⟨haw, -⟩ := (waitAll_completes hrun).resumable i hguard
        have haw : s.awaiter 0 = .suspended := haw
        have hstored := hfirst.stored (by simp [haw, Awaiter.Early])
        refine ⟨hguard, ?_⟩
        simp [awaits, Event.next, State.first, State.resumeStored, hstored, State.setAwaiter,
          State.setTask, WaitAll.Event.next]

end Projection

section Completion

/-- The event lets a coroutine go on after `co_await`. -/
def Event.Proceeds : Event n V E → Prop
  | ready _ => True
  | beginAwait _ old => ¬ old > 1
  | resume _ => True
  | _ => False

/-- The event is the test of `await_ready` in a `co_await` that is not the first one. -/
def Event.Later : Event n V E → Prop
  | ready k | notReady k => k ≠ 0
  | _ => False

/-- Every task has stored what its body ended with. -/
def Completed (s : State n V E) : Prop :=
  ∀ i, ¬ (s.task i).Pending

/-- A coroutine goes on only if all tasks have completed. -/
def ProceedsCompleted (s : State n V E) (e : Event n V E) : Prop :=
  e.Proceeds → Completed s

/-- A `co_await` that is not the first one is made only if all tasks have completed. -/
def LaterCompleted (s : State n V E) (e : Event n V E) : Prop :=
  e.Later → Completed s

instance decidablePending : ∀ t : TaskState, Decidable t.Pending
  | .notStarted | .running => isTrue trivial
  | .notifying | .resuming | .final => isFalse fun h => h

instance decidableLater : ∀ e : Event n V E, Decidable e.Later
  | .ready k | .notReady k => inferInstanceAs (Decidable (k ≠ 0))
  | .startTask _ _ | .tasksStarted _ | .storeCoroutine _ | .beginAwait _ _ | .finish _ _
  | .notify _ _ | .resume _ => isFalse fun h => h

instance decidableCompleted (s : State n V E) : Decidable (Completed s) :=
  inferInstanceAs (Decidable (∀ i, ¬ (s.task i).Pending))

instance decidableLaterCompleted (s : State n V E) (e : Event n V E) :
    Decidable (LaterCompleted s e) :=
  inferInstanceAs (Decidable (e.Later → Completed s))

variable {tr : List (Event n V E)} {s : State n V E} {e : Event n V E}

/-- The first coroutine goes on after all tasks. -/
theorem completed_of_continuer
    {f : WaitAll.Event n V E}
    (hrun : (awaits n V E).Run tr s)
    (hguard : (awaits n V E).guard s e)
    (hlabel : label e = some f)
    (hcontinuer : f.continuer? ≠ none) :
    Completed s := by
  obtain ⟨_, rfl, hbefore⟩ := simulation.run hrun
  obtain ⟨t, -, hafter⟩ := simulation.run (System.Run.step e hrun hguard)
  rw [filterMap_append_singleton, hlabel, Option.toList_some] at hafter
  have hne : continuations (tr.filterMap label ++ [f]) ≠ [] := by
    simp [continuations, List.filterMap_append, hcontinuer]
  intro i hpending
  obtain ⟨o, ho⟩ := (waitAll_completes hafter).completed hne i
  obtain ⟨-, hnone⟩ := (stored_of_run hbefore).pending i hpending
  rcases List.mem_append.mp ho with hold | hlast
  · exact hnone o hold
  · obtain rfl := List.mem_singleton.mp hlast
    exact hcontinuer rfl

/-- Every `co_await` but the first goes on at once. -/
theorem proceedsCompleted_iff
    (hrun : (awaits n V E).Run tr s)
    (hguard : (awaits n V E).guard s e) :
    ProceedsCompleted s e ↔ LaterCompleted s e := by
  have hfirst := firstOnly_of_reachable ⟨tr, hrun⟩
  constructor
  · intro hproceeds hlater
    cases e with
    | ready k =>
        exact hproceeds trivial
    | notReady k =>
        obtain ⟨hturn, hnot⟩ := hguard
        obtain ⟨j, rfl⟩ := Nat.exists_eq_succ_of_ne_zero hlater
        exact absurd (hfirst.isReady_of_turn hturn) (by simp [hnot])
    | _ =>
        exact hlater.elim
  · intro hlater hproceeds
    cases e with
    | ready k =>
        rcases Nat.eq_zero_or_pos k with rfl | hk
        · exact completed_of_continuer hrun hguard rfl (by simp [WaitAll.Event.continuer?])
        · exact hlater (Nat.pos_iff_ne_zero.mp hk)
    | beginAwait k old =>
        obtain rfl := hfirst.eq_zero hguard.1 (by simp) (by simp)
        refine completed_of_continuer hrun hguard rfl ?_
        rw [WaitAll.Event.continuer?, if_neg hproceeds]
        exact Option.some_ne_none none
    | resume i =>
        exact completed_of_continuer hrun hguard rfl (by simp [WaitAll.Event.continuer?])
    | _ =>
        exact hproceeds.elim

/--
No coroutine goes on before all tasks have completed, exactly if no `co_await`
but the first is made before that.
-/
theorem awaits_completed_iff
    (hrun : (awaits n V E).Run tr s) :
    (awaits n V E).Along ProceedsCompleted start tr
      ↔
    (awaits n V E).Along LaterCompleted start tr := by
  refine hrun.along_iff (fun _ h => h) trivial ?_
  intro tr s e hrun hguard
  rw [System.along_append, ← hrun.eq_exec fun _ h => h,
    ← proceedsCompleted_iff hrun hguard]
  simp only [System.Along, and_true]

/-- Two coroutines, the second one after the task has completed. -/
def awaitedTwice : List (Event 1 Nat String) :=
  [.notReady 0, .startTask 0 0, .tasksStarted 0, .storeCoroutine 0, .beginAwait 0 2,
    .finish 0 (.value 7), .notify 0 1, .ready 1, .resume 0]

theorem awaits_completed_awaitedTwice :
    (awaits 1 Nat String).Along ProceedsCompleted start awaitedTwice := by
  have hrun : (awaits 1 Nat String).Run awaitedTwice
      ((awaits 1 Nat String).exec start awaitedTwice) :=
    .of_enabled rfl (by decide +kernel)
  exact (awaits_completed_iff hrun).mpr (by decide +kernel)

/-- The second coroutine comes while the task is still running. -/
def awaitedTooEarly : List (Event 1 Nat String) :=
  [.notReady 0, .startTask 0 0, .tasksStarted 0, .storeCoroutine 0, .beginAwait 0 2,
    .ready 1]

theorem not_awaits_completed :
    ¬ ∀ (tr : List (Event 1 Nat String)) s, (awaits 1 Nat String).Run tr s →
      (awaits 1 Nat String).Along ProceedsCompleted start tr := by
  intro h
  have hrun : (awaits 1 Nat String).Run awaitedTooEarly
      ((awaits 1 Nat String).exec start awaitedTooEarly) :=
    .of_enabled rfl (by decide +kernel)
  have hcompleted := (h _ _ hrun).2.2.2.2.2.1
  exact hcompleted trivial 0 trivial

end Completion

end WaitAllAwaits
end Ptl

import Ptl.ThreadProgram

/-!
# `QueuedExecutor`

This module embeds `run`, `add` and `stop` of `execution/basic_executor.hpp` as
a program of any number of threads.  A section that holds `lock_` is one step,
and so is every call on `cv_`:

* `cv_.wait` tests its predicate under the lock; if the predicate is false the
  thread blocks and releases the lock in the same step;
* `notify_one` unblocks one of the blocked threads, if there is any;
* a blocked thread may also wake up spuriously.

A function that `run` has popped executes on the thread of `run` and may itself
call `add`, `stop` and `run`.  The control of a thread is therefore the stack of
its pending calls on the executor.

**Results.**
* `queue_of_run`: the functions popped so far, followed by the queue, are the
  functions added so far.
* `queuedExecutor_runsInOrder`: every function is popped once, in order, and
  `run` returns only after `stop` and with the queue drained.
-/

namespace Ptl
namespace QueuedExecutor

open Transition

universe u v

/-- The executor, and the threads that are blocked in `cv_.wait`. -/
structure Executor (ι : Type u) (F : Type v) where
  finished : Bool
  work : List F
  blocked : List ι

namespace Executor

variable {ι : Type u} {F : Type v}

/-- `work_.push(fn)`. -/
def push (x : Executor ι F) (f : F) : Executor ι F :=
  { x with work := x.work ++ [f] }

/-- `work_.pop()`. -/
def pop (x : Executor ι F) : Executor ι F :=
  { x with work := x.work.tail }

/-- `finished_ = true`. -/
def finish (x : Executor ι F) : Executor ι F :=
  { x with finished := true }

/-- The predicate of `cv_.wait`. -/
def ready (x : Executor ι F) : Bool :=
  x.finished || !x.work.isEmpty

/-- The thread releases the lock and blocks. -/
def block (x : Executor ι F) (i : ι) : Executor ι F :=
  { x with blocked := x.blocked ++ [i] }

/-- The thread is no longer blocked. -/
def unblock [DecidableEq ι] (x : Executor ι F) (i : ι) : Executor ι F :=
  { x with blocked := x.blocked.erase i }

end Executor

/-- A pending call of a thread. -/
inductive Frame (F : Type v) where
  | addLock (f : F)
  | stopLock
  | notify
  | runLock
  | runWait
  | runBody (f : F)
deriving DecidableEq

/-- The thread executes code of its own or a function that `run` has popped. -/
def InUserCode {F : Type v} : List (Frame F) → Prop
  | [] => True
  | .runBody _ :: _ => True
  | _ => False

instance decidableInUserCode {F : Type v} (k : List (Frame F)) :
    Decidable (InUserCode k) := by
  unfold InUserCode
  split <;> infer_instance

/-- The atomic steps of a thread `i`; `k` holds its calls below the current one. -/
inductive Event (ι : Type u) (F : Type v) where
  | callAdd (i : ι) (k : List (Frame F)) (f : F)
  | addLock (i : ι) (k : List (Frame F)) (f : F)
  | callStop (i : ι) (k : List (Frame F))
  | stopLock (i : ι) (k : List (Frame F))
  | notifyOne (i : ι) (k : List (Frame F)) (woken : Option ι)
  | callRun (i : ι) (k : List (Frame F))
  | runBlock (i : ι) (k : List (Frame F))
  | runNotified (i : ι) (k : List (Frame F))
  | runSpurious (i : ι) (k : List (Frame F))
  | runPop (i : ι) (k : List (Frame F)) (f : F)
  | runReturn (i : ι) (k : List (Frame F))
  | bodyReturn (i : ι) (k : List (Frame F)) (f : F)
  | bodyThrow (i : ι) (k : List (Frame F)) (f : F)
deriving DecidableEq

namespace Event

variable {ι : Type u} {F : Type v}

def actor : Event ι F → ι
  | callAdd i _ _ => i
  | addLock i _ _ => i
  | callStop i _ => i
  | stopLock i _ => i
  | notifyOne i _ _ => i
  | callRun i _ => i
  | runBlock i _ => i
  | runNotified i _ => i
  | runSpurious i _ => i
  | runPop i _ _ => i
  | runReturn i _ => i
  | bodyReturn i _ _ => i
  | bodyThrow i _ _ => i

def source : Event ι F → List (Frame F)
  | callAdd _ k _ => k
  | addLock _ k f => .addLock f :: k
  | callStop _ k => k
  | stopLock _ k => .stopLock :: k
  | notifyOne _ k _ => .notify :: k
  | callRun _ k => k
  | runBlock _ k => .runLock :: k
  | runNotified _ k => .runWait :: k
  | runSpurious _ k => .runWait :: k
  | runPop _ k _ => .runLock :: k
  | runReturn _ k => .runLock :: k
  | bodyReturn _ k f => .runBody f :: k
  | bodyThrow _ k f => .runBody f :: k

/-- An exception that leaves a popped function also leaves `run`. -/
def target : Event ι F → List (Frame F)
  | callAdd _ k f => .addLock f :: k
  | addLock _ k _ => .notify :: k
  | callStop _ k => .stopLock :: k
  | stopLock _ k => .notify :: k
  | notifyOne _ k _ => k
  | callRun _ k => .runLock :: k
  | runBlock _ k => .runWait :: k
  | runNotified _ k => .runLock :: k
  | runSpurious _ k => .runLock :: k
  | runPop _ k f => .runBody f :: k
  | runReturn _ k => k
  | bodyReturn _ k _ => .runLock :: k
  | bodyThrow _ k _ => k

/--
What a step tests.  The three sections of `run` are the three outcomes of the
predicate and of the test after it.
-/
def check (x : Executor ι F) : Event ι F → Prop
  | callAdd _ k _ => InUserCode k
  | callStop _ k => InUserCode k
  | callRun _ k => InUserCode k
  | notifyOne _ _ none => x.blocked = []
  | notifyOne _ _ (some j) => j ∈ x.blocked
  | runBlock _ _ => x.ready = false
  | runNotified i _ => i ∉ x.blocked
  | runSpurious i _ => i ∈ x.blocked
  | runPop _ _ f => x.ready = true ∧ x.work.head? = some f
  | runReturn _ _ => x.ready = true ∧ x.work = [] ∧ x.finished = true
  | _ => True

variable [DecidableEq ι]

def effect (x : Executor ι F) : Event ι F → Executor ι F
  | addLock _ _ f => x.push f
  | stopLock _ _ => x.finish
  | notifyOne _ _ (some j) => x.unblock j
  | runBlock i _ => x.block i
  | runSpurious i _ => x.unblock i
  | runPop _ _ _ => x.pop
  | _ => x

instance decidableCheck [DecidableEq F] (x : Executor ι F) (e : Event ι F) :
    Decidable (e.check x) := by
  unfold check
  split <;> infer_instance

end Event

variable {ι : Type u} {F : Type v} [DecidableEq ι]

/-- The steps of all threads. -/
def program : Program ι (List (Frame F)) (Executor ι F) (Event ι F) where
  actor := Event.actor
  source := Event.source
  target := Event.target
  check := Event.check
  effect := Event.effect

/-- A new executor that nobody uses yet. -/
def start : Config ι (List (Frame F)) (Executor ι F) where
  shared :=
    { finished := false
      work := []
      blocked := [] }
  pc := fun _ => []

/-- All interleavings of calls on one executor. -/
def queuedExecutor : System (Config ι (List (Frame F)) (Executor ι F)) (Event ι F) :=
  program.system fun s => s = start

instance decidableEventGuard [DecidableEq F]
    (s : Config ι (List (Frame F)) (Executor ι F)) (e : Event ι F) :
    Decidable (queuedExecutor.guard s e) :=
  inferInstanceAs (Decidable (s.pc e.actor = e.source ∧ e.check s.shared))

section Queue

namespace Event

/-- The function a section of `add` pushes. -/
def added : Event ι F → Option F
  | addLock _ _ f => some f
  | _ => none

/-- The function a section of `run` pops. -/
def popped : Event ι F → Option F
  | runPop _ _ f => some f
  | _ => none

end Event

/-- The functions added, in the order in which the sections of `add` held the lock. -/
def adds (tr : List (Event ι F)) : List F :=
  tr.filterMap Event.added

/-- The functions popped, in this order. -/
def pops (tr : List (Event ι F)) : List F :=
  tr.filterMap Event.popped

variable {tr : List (Event ι F)} {x : Executor ι F} {e : Event ι F}

omit [DecidableEq ι] in
theorem adds_append_singleton (tr : List (Event ι F)) (e : Event ι F) :
    adds (tr ++ [e]) = adds tr ++ e.added.toList :=
  filterMap_append_singleton Event.added tr e

omit [DecidableEq ι] in
theorem pops_append_singleton (tr : List (Event ι F)) (e : Event ι F) :
    pops (tr ++ [e]) = pops tr ++ e.popped.toList :=
  filterMap_append_singleton Event.popped tr e

/-- A section takes from the front what it pops and puts at the end what it pushes. -/
theorem work_of_effect
    (hcheck : e.check x) :
    e.popped.toList ++ (e.effect x).work = x.work ++ e.added.toList := by
  cases e with
  | addLock i k f =>
      rfl
  | notifyOne i k woken =>
      cases woken <;> exact (List.append_nil _).symm
  | runPop i k f =>
      obtain ⟨rest, hwork⟩ := List.head?_eq_some_iff.mp hcheck.2
      simp [Event.popped, Event.added, Event.effect, Executor.pop, hwork]
  | _ =>
      exact (List.append_nil _).symm

theorem queue_of_run
    {s : Config ι (List (Frame F)) (Executor ι F)}
    (hrun : queuedExecutor.Run tr s) :
    adds tr = pops tr ++ s.shared.work := by
  induction hrun with
  | start hinit =>
      obtain rfl := hinit
      rfl
  | @step tr s e _ hguard ih =>
      have hwork := work_of_effect hguard.2
      calc
        adds (tr ++ [e]) = pops tr ++ (s.shared.work ++ e.added.toList) := by
          rw [adds_append_singleton, ih, List.append_assoc]
        _ = pops tr ++ (e.popped.toList ++ (e.effect s.shared).work) := by
          rw [hwork]
        _ = pops (tr ++ [e]) ++ (e.effect s.shared).work := by
          rw [pops_append_singleton, List.append_assoc]

end Queue

section Order

/-- The executor after a trace. -/
def executorAfter (tr : List (Event ι F)) : Executor ι F :=
  (queuedExecutor.exec start tr).shared

/-- A pop takes the function of the first section of `add` that none was popped for. -/
def PopsNext (past : List (Event ι F)) (e : Event ι F) : Prop :=
  ∀ i k f, e = .runPop i k f → (adds past)[(pops past).length]? = some f

/-- `run` returns after `stop`, and every function added before is popped. -/
def ReturnsDrained (past : List (Event ι F)) (e : Event ι F) : Prop :=
  ∀ i k, e = .runReturn i k →
    (executorAfter past).finished = true ∧ pops past = adds past

/-- What a run of the executor guarantees. -/
structure RunsInOrder (tr : List (Event ι F)) (work : List F) : Prop where
  /-- In the order of the sections of `add`, and none is dropped. -/
  order : adds tr = pops tr ++ work
  /-- The `n`-th pop pops the function of the `n`-th section of `add`. -/
  next : System.History PopsNext tr
  /-- Functions that are told apart are popped at most once. -/
  once : (adds tr).Nodup → (pops tr).Nodup
  drained : System.History ReturnsDrained tr

variable {tr : List (Event ι F)} {e : Event ι F}
variable {s : Config ι (List (Frame F)) (Executor ι F)}

theorem executorAfter_of_run
    (hrun : queuedExecutor.Run tr s) :
    executorAfter tr = s.shared := by
  rw [hrun.eq_exec fun _ h => h]
  rfl

theorem popsNext_of_guard
    (hrun : queuedExecutor.Run tr s)
    (hguard : queuedExecutor.guard s e) :
    PopsNext tr e := by
  intro i k f he
  subst he
  have hhead : s.shared.work.head? = some f := hguard.2.2
  rw [queue_of_run hrun, List.getElem?_append_right (Nat.le_refl _), Nat.sub_self,
    ← List.head?_eq_getElem?, hhead]

theorem returnsDrained_of_guard
    (hrun : queuedExecutor.Run tr s)
    (hguard : queuedExecutor.guard s e) :
    ReturnsDrained tr e := by
  intro i k he
  subst he
  obtain ⟨-, hempty, hfinished⟩ := hguard.2
  constructor
  · rw [executorAfter_of_run hrun]
    exact hfinished
  · rw [queue_of_run hrun, hempty, List.append_nil]

/--
`QueuedExecutor` runs every function once and in order: whatever threads add,
stop and run, the functions popped are a prefix of the functions added and the
queue holds the others, and `run` returns only if the executor is finished and
everything added before has been popped.
-/
theorem queuedExecutor_runsInOrder
    (hrun : queuedExecutor.Run tr s) :
    RunsInOrder tr s.shared.work := by
  constructor
  · exact queue_of_run hrun
  · exact hrun.history fun _ _ _ hrun hguard => popsNext_of_guard hrun hguard
  · intro hnodup
    rw [queue_of_run hrun] at hnodup
    exact hnodup.sublist (List.sublist_append_left _ _)
  · exact hrun.history fun _ _ _ hrun hguard => returnsDrained_of_guard hrun hguard

/-- One thread blocks in `run`; another adds two functions and stops the executor. -/
def addTwiceAndStop : List (Event Bool Nat) :=
  [.callRun false [], .runBlock false [], .callAdd true [] 7, .addLock true [] 7,
    .notifyOne true [] (some false), .runNotified false [], .runPop false [] 7,
    .callAdd false [.runBody 7] 8, .addLock false [.runBody 7] 8, .callStop true [],
    .stopLock true [], .notifyOne true [] none, .notifyOne false [.runBody 7] none,
    .bodyReturn false [] 7, .runPop false [] 8, .bodyReturn false [] 8,
    .runReturn false []]

theorem queuedExecutor_runsInOrder_addTwiceAndStop :
    RunsInOrder addTwiceAndStop (executorAfter addTwiceAndStop).work :=
  queuedExecutor_runsInOrder (.of_enabled rfl (by decide +kernel))

end Order

end QueuedExecutor
end Ptl

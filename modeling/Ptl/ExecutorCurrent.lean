import Ptl.QueuedExecutor
import Mathlib.Data.Fintype.Basic
import Mathlib.Logic.Function.Basic

/-!
# `Executor::current`

This module embeds any number of `QueuedExecutor`s on any number of threads.  The
constructor and the destructor of `Executor` write the thread-local variable
`current`; `run` does not write it.  A thread executes code of its own or a
function that a `run` has popped, which may construct and destroy executors and
call `add`, `stop` and `run` of any of them.

An executor is not destroyed while a `run` of it is pending.  A `run` that waits
makes no step until the predicate of `cv_.wait` is true.

**Results.**
* `current_names_iff`: `current` names the executor whose function a thread
  executes, and the destruction of another executor does not change it, exactly
  if functions execute only where the executor was constructed last, and
  executors come and go only outside of functions and in the right order.
-/

namespace Ptl
namespace ExecutorCurrent

open Transition

universe u v w

/-- A pending `run` of an executor, between two functions or in one. -/
inductive Frame (κ : Type v) (F : Type w) where
  | runLock (x : κ)
  | runBody (x : κ) (f : F)
deriving DecidableEq

def Frame.executor {κ : Type v} {F : Type w} : Frame κ F → κ
  | runLock x => x
  | runBody x _ => x

/-- The thread executes code of its own or a function that `run` has popped. -/
def InUserCode {κ : Type v} {F : Type w} : List (Frame κ F) → Prop
  | [] => True
  | .runLock _ :: _ => False
  | .runBody _ _ :: _ => True

instance decidableInUserCode {κ : Type v} {F : Type w} :
    ∀ k : List (Frame κ F), Decidable (InUserCode k)
  | [] => isTrue trivial
  | .runLock _ :: _ => isFalse fun h => h
  | .runBody _ _ :: _ => isTrue trivial

/-- The executors, and `current` and the pending calls of every thread. -/
structure State (τ : Type u) (κ : Type v) (F : Type w) where
  alive : Finset κ
  executor : κ → QueuedExecutor.Executor τ F
  current : τ → Option κ
  stack : τ → List (Frame κ F)

inductive Event (τ : Type u) (κ : Type v) (F : Type w) where
  | construct (t : τ) (x : κ)
  | destroy (t : τ) (x : κ)
  | add (t : τ) (x : κ) (f : F)
  | stop (t : τ) (x : κ)
  | callRun (t : τ) (x : κ)
  | runPop (t : τ) (x : κ) (f : F)
  | bodyReturn (t : τ) (x : κ) (f : F)
  | bodyThrow (t : τ) (x : κ) (f : F)
  | runReturn (t : τ) (x : κ)
deriving DecidableEq

variable {τ : Type u} {κ : Type v} {F : Type w}

/-- No executor exists, and every thread executes code of its own. -/
def start : State τ κ F where
  alive := ∅
  executor := fun _ => { finished := false, work := [], blocked := [] }
  current := fun _ => none
  stack := fun _ => []

namespace State

variable [DecidableEq τ] [DecidableEq κ]

def setCurrent (s : State τ κ F) (t : τ) (c : Option κ) : State τ κ F :=
  { s with current := Function.update s.current t c }

def setStack (s : State τ κ F) (t : τ) (k : List (Frame κ F)) : State τ κ F :=
  { s with stack := Function.update s.stack t k }

def setExecutor
    (s : State τ κ F) (x : κ) (m : QueuedExecutor.Executor τ F) : State τ κ F :=
  { s with executor := Function.update s.executor x m }

/-- `QueuedExecutor()`, with `Executor()`: `current = this`. -/
def construct (s : State τ κ F) (t : τ) (x : κ) : State τ κ F :=
  { (s.setCurrent t (some x)).setExecutor x { finished := false, work := [], blocked := [] } with
    alive := insert x s.alive }

/-- `~QueuedExecutor()`, with `~Executor()`: `current = nullptr`. -/
def destroy (s : State τ κ F) (t : τ) (x : κ) : State τ κ F :=
  { s.setCurrent t none with alive := s.alive.erase x }

end State

namespace Event

variable [DecidableEq τ] [DecidableEq κ]

def guard (s : State τ κ F) : Event τ κ F → Prop
  | construct t x => InUserCode (s.stack t) ∧ x ∉ s.alive
  | destroy t x =>
      InUserCode (s.stack t) ∧ x ∈ s.alive ∧ ∀ t', ∀ p ∈ s.stack t', p.executor ≠ x
  | add t x _ | stop t x | callRun t x => InUserCode (s.stack t) ∧ x ∈ s.alive
  | runPop t x f =>
      (s.stack t).head? = some (.runLock x) ∧ (s.executor x).work.head? = some f
  | bodyReturn t x f | bodyThrow t x f => (s.stack t).head? = some (.runBody x f)
  | runReturn t x =>
      (s.stack t).head? = some (.runLock x) ∧
        (s.executor x).work = [] ∧ (s.executor x).finished = true

def next (s : State τ κ F) : Event τ κ F → State τ κ F
  | construct t x => s.construct t x
  | destroy t x => s.destroy t x
  | add _ x f => s.setExecutor x ((s.executor x).push f)
  | stop _ x => s.setExecutor x (s.executor x).finish
  | callRun t x => s.setStack t (.runLock x :: s.stack t)
  | runPop t x f =>
      (s.setExecutor x (s.executor x).pop).setStack t (.runBody x f :: (s.stack t).tail)
  | bodyReturn t x _ => s.setStack t (.runLock x :: (s.stack t).tail)
  | bodyThrow t _ _ => s.setStack t (s.stack t).tail
  | runReturn t _ => s.setStack t (s.stack t).tail

instance decidableGuard [Fintype τ] [DecidableEq F] (s : State τ κ F) :
    ∀ e : Event τ κ F, Decidable (e.guard s)
  | construct t x => inferInstanceAs (Decidable (InUserCode (s.stack t) ∧ x ∉ s.alive))
  | destroy t x =>
      inferInstanceAs (Decidable (InUserCode (s.stack t) ∧ x ∈ s.alive ∧
        ∀ t', ∀ p ∈ s.stack t', p.executor ≠ x))
  | add t x _ | stop t x | callRun t x =>
      inferInstanceAs (Decidable (InUserCode (s.stack t) ∧ x ∈ s.alive))
  | runPop t x f =>
      inferInstanceAs (Decidable
        ((s.stack t).head? = some (.runLock x) ∧ (s.executor x).work.head? = some f))
  | bodyReturn t x f | bodyThrow t x f =>
      inferInstanceAs (Decidable ((s.stack t).head? = some (.runBody x f)))
  | runReturn t x =>
      inferInstanceAs (Decidable ((s.stack t).head? = some (.runLock x) ∧
        (s.executor x).work = [] ∧ (s.executor x).finished = true))

/-- The event writes `current` of the thread. -/
def Writes (t : τ) : Event τ κ F → Bool
  | construct t' _ | destroy t' _ => t' = t
  | _ => false

/-- The executor that the event constructs. -/
def constructed? : Event τ κ F → Option κ
  | construct _ x => some x
  | _ => none

end Event

variable [DecidableEq τ] [DecidableEq κ]

/-- All runs of threads that use executors. -/
def executors (τ : Type u) (κ : Type v) (F : Type w) [DecidableEq τ] [DecidableEq κ] :
    System (State τ κ F) (Event τ κ F) where
  init := fun s => s = start
  guard := Event.guard
  next := Event.next

instance decidableExecutorsGuard [Fintype τ] [DecidableEq F]
    (s : State τ κ F) (e : Event τ κ F) :
    Decidable ((executors τ κ F).guard s e) :=
  inferInstanceAs (Decidable (e.guard s))

section Current

variable {s : State τ κ F} {e : Event τ κ F} {tr : List (Event τ κ F)}
variable {t : τ} {x : κ}

/-- The state that a trace leads to. -/
def after (tr : List (Event τ κ F)) : State τ κ F :=
  (executors τ κ F).exec start tr

/--
The executor whose constructor was the last one on the thread, if no destructor
came after it.
-/
def lastConstructed (tr : List (Event τ κ F)) (t : τ) : Option κ :=
  (tr.filter (Event.Writes t)).getLast?.bind Event.constructed?

/-- `current` names the executor whose function the thread executes. -/
def Named (s : State τ κ F) : Prop :=
  ∀ t x f, (s.stack t).head? = some (.runBody x f) → s.current t = some x

/-- A destructor does not change `current` where another executor is current. -/
def KeepsOthers (tr : List (Event τ κ F)) (e : Event τ κ F) : Prop :=
  ∀ t x, e = .destroy t x → ∀ t' y, y ≠ x →
    (after tr).current t' = some y → (after (tr ++ [e])).current t' = some y

/-- A step after which `current` is right. -/
def NamedAfter (tr : List (Event τ κ F)) (e : Event τ κ F) : Prop :=
  Named (after (tr ++ [e])) ∧ KeepsOthers tr e

/--
Executors are constructed and destroyed outside of functions, another one than
the last constructed on the thread is not destroyed, and a function executes on
the thread on which its executor was the last one constructed.
-/
def InOrder (tr : List (Event τ κ F)) : Event τ κ F → Prop
  | .construct t _ => (after tr).stack t = []
  | .destroy t x => (after tr).stack t = [] ∧ ∀ y ∈ lastConstructed tr t, y = x
  | .runPop t x _ => lastConstructed tr t = some x
  | _ => True

instance decidableInOrder [DecidableEq F] (tr : List (Event τ κ F)) :
    ∀ e : Event τ κ F, Decidable (InOrder tr e)
  | .construct t _ => inferInstanceAs (Decidable ((after tr).stack t = []))
  | .destroy t x =>
      inferInstanceAs (Decidable
        ((after tr).stack t = [] ∧ ∀ y ∈ lastConstructed tr t, y = x))
  | .runPop t x _ => inferInstanceAs (Decidable (lastConstructed tr t = some x))
  | .add _ _ _ | .stop _ _ | .callRun _ _ | .bodyReturn _ _ _ | .bodyThrow _ _ _
  | .runReturn _ _ => isTrue trivial

theorem after_of_run
    (hrun : (executors τ κ F).Run tr s) :
    after tr = s :=
  (hrun.eq_exec fun _ h => h).symm

theorem after_append_singleton (tr : List (Event τ κ F)) (e : Event τ κ F) :
    after (tr ++ [e]) = e.next (after tr) :=
  System.exec_append_singleton ..

omit [DecidableEq κ] in
theorem lastConstructed_append_singleton
    (tr : List (Event τ κ F)) (e : Event τ κ F) (t : τ) :
    lastConstructed (tr ++ [e]) t =
      if e.Writes t then e.constructed? else lastConstructed tr t := by
  rw [lastConstructed, List.filter_append, List.filter_singleton]
  cases e.Writes t with
  | true =>
      simp
  | false =>
      simp [lastConstructed]

/-- Only constructors and destructors write `current`. -/
theorem current_next (s : State τ κ F) (e : Event τ κ F) (t : τ) :
    (e.next s).current t = if e.Writes t then e.constructed? else s.current t := by
  cases e with
  | construct t' x =>
      rcases eq_or_ne t t' with rfl | ht
      · simp [Event.next, State.construct, State.setExecutor, State.setCurrent, Event.Writes,
          Event.constructed?]
      · simp [Event.next, State.construct, State.setExecutor, State.setCurrent, Event.Writes,
          ht, ht.symm]
  | destroy t' x =>
      rcases eq_or_ne t t' with rfl | ht
      · simp [Event.next, State.destroy, State.setCurrent, Event.Writes, Event.constructed?]
      · simp [Event.next, State.destroy, State.setCurrent, Event.Writes, ht, ht.symm]
  | _ =>
      rfl

/-- `current` is the executor constructed last, unless a destructor came after it. -/
theorem current_of_run
    (hrun : (executors τ κ F).Run tr s) (t : τ) :
    s.current t = lastConstructed tr t := by
  induction hrun with
  | start hinit =>
      obtain rfl := hinit
      rfl
  | step e hrun hguard ih =>
      rw [lastConstructed_append_singleton, ← ih]
      exact current_next _ e t

/-- The executors of pending calls have not been destroyed. -/
def FramesAlive (s : State τ κ F) : Prop :=
  ∀ t, ∀ p ∈ s.stack t, p.executor ∈ s.alive

omit [DecidableEq κ] in
/-- A step that changes the calls of one thread. -/
theorem FramesAlive.of_stack
    {s' : State τ κ F} {k : List (Frame κ F)}
    (hs : FramesAlive s)
    (halive : s'.alive = s.alive)
    (hstack : s'.stack = Function.update s.stack t k)
    (hk : ∀ p ∈ k, p.executor ∈ s.alive) :
    FramesAlive s' := by
  intro t' p hp
  rw [halive]
  rw [hstack] at hp
  rcases eq_or_ne t' t with rfl | ht
  · rw [Function.update_self] at hp
    exact hk p hp
  · rw [Function.update_of_ne ht] at hp
    exact hs t' p hp

theorem framesAlive_of_run
    (hrun : (executors τ κ F).Run tr s) :
    FramesAlive s := by
  refine hrun.invariant (I := fun _ s => FramesAlive s) ?_ ?_
  · rintro _ rfl t p hp
    exact absurd hp List.not_mem_nil
  · intro tr s e _ hs hguard
    cases e with
    | construct t x =>
        exact fun t' p hp => Finset.mem_insert_of_mem (hs t' p hp)
    | destroy t x =>
        obtain ⟨-, -, hnone⟩ := hguard
        exact fun t' p hp => Finset.mem_erase.mpr ⟨hnone t' p hp, hs t' p hp⟩
    | add t x f =>
        exact hs
    | stop t x =>
        exact hs
    | callRun t x =>
        obtain ⟨-, hx⟩ := hguard
        refine hs.of_stack rfl rfl fun p hp => ?_
        rcases List.mem_cons.mp hp with rfl | hp
        · exact hx
        · exact hs t p hp
    | runPop t x f =>
        obtain ⟨hhead, -⟩ := hguard
        have hx : x ∈ s.alive := hs t (.runLock x) (List.mem_of_head? hhead)
        refine hs.of_stack rfl rfl fun p hp => ?_
        rcases List.mem_cons.mp hp with rfl | hp
        · exact hx
        · exact hs t p (List.mem_of_mem_tail hp)
    | bodyReturn t x f =>
        have hx : x ∈ s.alive := hs t (.runBody x f) (List.mem_of_head? hguard)
        refine hs.of_stack rfl rfl fun p hp => ?_
        rcases List.mem_cons.mp hp with rfl | hp
        · exact hx
        · exact hs t p (List.mem_of_mem_tail hp)
    | bodyThrow t x f =>
        exact hs.of_stack rfl rfl fun p hp => hs t p (List.mem_of_mem_tail hp)
    | runReturn t x =>
        exact hs.of_stack rfl rfl fun p hp => hs t p (List.mem_of_mem_tail hp)

/--
`current` names the executors of all functions that the thread has not returned
from, also below a nested `run`.
-/
def AllNamed (s : State τ κ F) : Prop :=
  ∀ t x f, .runBody x f ∈ s.stack t → s.current t = some x

omit [DecidableEq τ] [DecidableEq κ] in
theorem AllNamed.named
    (hs : AllNamed s) :
    Named s :=
  fun t x f hhead => hs t x f (List.mem_of_head? hhead)

omit [DecidableEq κ] in
/-- A step that leaves `current` as it is and executes no function of another executor. -/
theorem AllNamed.of_stack
    {s' : State τ κ F} {k : List (Frame κ F)}
    (hs : AllNamed s)
    (hcurrent : s'.current = s.current)
    (hstack : s'.stack = Function.update s.stack t k)
    (hk : ∀ x f, .runBody x f ∈ k → .runBody x f ∈ s.stack t ∨ s.current t = some x) :
    AllNamed s' := by
  intro t' x f hx
  rw [hcurrent]
  rw [hstack] at hx
  rcases eq_or_ne t' t with rfl | ht
  · rw [Function.update_self] at hx
    rcases hk x f hx with hold | hnew
    · exact hs t' x f hold
    · exact hnew
  · rw [Function.update_of_ne ht] at hx
    exact hs t' x f hx

omit [DecidableEq κ] in
/-- A step that writes `current` of a thread without calls. -/
theorem AllNamed.of_current
    {s' : State τ κ F} {c : Option κ}
    (hs : AllNamed s)
    (hempty : s.stack t = [])
    (hcurrent : s'.current = Function.update s.current t c)
    (hstack : s'.stack = s.stack) :
    AllNamed s' := by
  intro t' x f hx
  rw [hstack] at hx
  have ht : t' ≠ t := by
    rintro rfl
    rw [hempty] at hx
    exact absurd hx List.not_mem_nil
  rw [hcurrent, Function.update_of_ne ht]
  exact hs t' x f hx

theorem AllNamed.next
    (hrun : (executors τ κ F).Run tr s)
    (hs : AllNamed s)
    (hguard : (executors τ κ F).guard s e)
    (horder : InOrder tr e) :
    AllNamed (e.next s) := by
  obtain rfl := after_of_run hrun
  cases e with
  | construct t x =>
      exact hs.of_current horder rfl rfl
  | destroy t x =>
      exact hs.of_current horder.1 rfl rfl
  | add t x f =>
      exact hs
  | stop t x =>
      exact hs
  | callRun t x =>
      refine hs.of_stack rfl rfl fun y g hy => Or.inl ?_
      rcases List.mem_cons.mp hy with heq | hy
      · exact absurd heq (by simp)
      · exact hy
  | runPop t x f =>
      refine hs.of_stack rfl rfl fun y g hy => ?_
      rcases List.mem_cons.mp hy with heq | hy
      · obtain ⟨rfl, rfl⟩ := Frame.runBody.inj heq
        exact Or.inr ((current_of_run hrun t).trans horder)
      · exact Or.inl (List.mem_of_mem_tail hy)
  | bodyReturn t x f =>
      refine hs.of_stack rfl rfl fun y g hy => Or.inl ?_
      rcases List.mem_cons.mp hy with heq | hy
      · exact absurd heq (by simp)
      · exact List.mem_of_mem_tail hy
  | bodyThrow t x f =>
      exact hs.of_stack rfl rfl fun y g hy => Or.inl (List.mem_of_mem_tail hy)
  | runReturn t x =>
      exact hs.of_stack rfl rfl fun y g hy => Or.inl (List.mem_of_mem_tail hy)

omit [DecidableEq τ] [DecidableEq κ] in
/-- User code with a pending call is a function that `run` has popped. -/
theorem stack_eq_nil_of_not_body
    (huser : InUserCode (s.stack t))
    (hbody : ∀ x f, (s.stack t).head? ≠ some (.runBody x f)) :
    s.stack t = [] := by
  cases hk : s.stack t with
  | nil =>
      rfl
  | cons p k =>
      rw [hk] at huser hbody
      cases p with
      | runLock x =>
          exact huser.elim
      | runBody x f =>
          exact absurd rfl (hbody x f)

/-- While `current` is right, a step keeps it right exactly if it is in order. -/
theorem namedAfter_iff
    (hrun : (executors τ κ F).Run tr s)
    (hs : AllNamed s)
    (hguard : (executors τ κ F).guard s e) :
    NamedAfter tr e ↔ InOrder tr e := by
  have hcurrent := current_of_run hrun
  have halive := framesAlive_of_run hrun
  have hafter := after_of_run hrun
  constructor
  · rintro ⟨hnamed, hothers⟩
    rw [after_append_singleton, hafter] at hnamed
    cases e with
    | construct t x =>
        obtain ⟨huser, hx⟩ := hguard
        change (after tr).stack t = []
        rw [hafter]
        refine stack_eq_nil_of_not_body huser fun y f hy => hx ?_
        have hname := hnamed t y f hy
        rw [current_next] at hname
        obtain rfl : x = y := by simpa [Event.Writes, Event.constructed?] using hname
        exact halive t _ (List.mem_of_head? hy)
    | destroy t x =>
        obtain ⟨huser, hx, -⟩ := hguard
        constructor
        · rw [hafter]
          refine stack_eq_nil_of_not_body huser fun y f hy => ?_
          have hname := hnamed t y f hy
          rw [current_next] at hname
          simp [Event.Writes, Event.constructed?] at hname
        · intro y hy
          by_contra hne
          have hkeeps := hothers t x rfl t y hne (by rw [hafter, hcurrent t, hy])
          rw [after_append_singleton, current_next] at hkeeps
          simp [Event.Writes, Event.constructed?] at hkeeps
    | runPop t x f =>
        have hname := hnamed t x f (by simp [Event.next, State.setStack])
        exact (hcurrent t).symm.trans hname
    | _ =>
        trivial
  · intro horder
    constructor
    · rw [after_append_singleton, hafter]
      exact (hs.next hrun hguard horder).named
    · rintro t x rfl t' y hne hy
      rw [after_append_singleton, current_next]
      have ht : t ≠ t' := by
        rintro rfl
        rw [hafter, hcurrent t] at hy
        exact hne (horder.2 y hy)
      simpa [Event.Writes, ht] using hy

/--
`current` names the executor whose function a thread executes, and no other
executor's destructor changes it, exactly if all steps are in order.
-/
theorem current_names_iff
    (hrun : (executors τ κ F).Run tr s) :
    System.History NamedAfter tr ↔ System.History InOrder tr := by
  refine hrun.history_congr (I := fun _ s => AllNamed s) ?_ ?_ ?_
  · rintro _ rfl t x f hx
    exact absurd hx List.not_mem_nil
  · intro tr s e hrun hguard hs
    exact namedAfter_iff hrun hs hguard
  · intro tr s e hrun hguard hs hnamed
    exact hs.next hrun hguard ((namedAfter_iff hrun hs hguard).mp hnamed)

/-- Two threads with an executor each; one of them adds a function to the other. -/
def oneEach : List (Event Bool Bool Unit) :=
  [.construct true true, .construct false false, .add true false (), .callRun false false,
    .runPop false false (), .add false true (), .stop false false,
    .bodyReturn false false (), .runReturn false false, .destroy false false,
    .callRun true true, .runPop true true ()]

theorem current_names_oneEach :
    System.History NamedAfter oneEach := by
  have hrun : (executors Bool Bool Unit).Run oneEach (after oneEach) :=
    .of_enabled rfl (by decide +kernel)
  exact (current_names_iff hrun).mpr (by decide +kernel)

/-- A thread runs an executor that was constructed on another one. -/
def runElsewhere : List (Event Bool Unit Unit) :=
  [.construct true (), .add true () (), .callRun false (), .runPop false () ()]

theorem not_current_names :
    ¬ ∀ (tr : List (Event Bool Unit Unit)) s, (executors Bool Unit Unit).Run tr s →
      System.History NamedAfter tr := by
  intro h
  have hrun : (executors Bool Unit Unit).Run runElsewhere (after runElsewhere) :=
    .of_enabled rfl (by decide +kernel)
  have hnamed := (h _ _ hrun [.construct true (), .add true () (), .callRun false ()]
    (.runPop false () ()) [] rfl).1
  exact absurd (hnamed false () () (by decide +kernel)) (by decide +kernel)

end Current

end ExecutorCurrent
end Ptl

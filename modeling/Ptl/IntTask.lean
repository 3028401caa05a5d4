import Ptl.TaskCalls

/-!
# `IntTask`

`IntTask` is a coroutine that returns an `int`.  Its `await_suspend` returns `void`: it
calls `resume()` on the coroutine that is awaited, and `final_suspend` calls `resume()`
on the continuation.  So the calls stay on the stack of the thread until the coroutine of
`sync_wait` suspends for good, and then all of them return.  `unhandled_exception`
stores nothing, and `await_resume` reads `result_`.

**Results.**
* `ended_or_undefined`: how the body of an `IntTask` runs, by its structure.
* `intTask_agrees_iff`: `sync_wait` gives what it gives for the same bodies in `Task`s
  exactly if no body lets an exception out, and otherwise reads `result_` unset.
* `intTask_calls`: the calls of `resume()` pile up, two for each `co_await`.
-/

namespace Ptl
namespace IntTask

open Transition
open SyncWait (Handle WaitPoint CallProgram)

universe u v

/-- The body of an `IntTask`; it goes on with `h` where it catches an exception. -/
inductive Body (σ : Type u) (E : Type v) where
  | coReturn (v : Int)
  | throw (e : Thrown E)
  | act (f : σ → Int × σ) (k : Int → Body σ E)
  | await (child : Body σ E) (k : Int → Body σ E) (h : Thrown E → Body σ E)

variable {σ : Type u} {E : Type v}

namespace Body

/-- The same body with `Task<int>` in place of `IntTask`. -/
def task : Body σ E → CallProgram σ Int E
  | coReturn v => .coReturn v
  | throw e => .throw e
  | act f k => .act f fun v => (k v).task
  | await child k h => .await .value child.task (fun v => (k v).task) fun e => (h e).task

/-- No body that the evaluation enters ends with an exception. -/
def Quiet : Body σ E → σ → Prop
  | coReturn _, _ => True
  | throw _, _ => False
  | act f k, st => (k (f st).1).Quiet (f st).2
  | await child k h, st =>
      child.Quiet st ∧
        match child.task.eval st with
        | (.ok v, st') => (k v).Quiet st'
        | (.error e, st') => (h e).Quiet st'

/-- How often the evaluation comes to a `co_await`. -/
def awaits : Body σ E → σ → Nat
  | coReturn _, _ => 0
  | throw _, _ => 0
  | act f k, st => (k (f st).1).awaits (f st).2
  | await child k h, st =>
      child.awaits st + 1 +
        match child.task.eval st with
        | (.ok v, st') => (k v).awaits st'
        | (.error e, st') => (h e).awaits st'

end Body

/--
Where the coroutine of an `IntTask` is suspended or about to go on.  `await_resume` does
not throw, so after a `co_await` it goes on with a value.
-/
inductive Point (σ : Type u) (E : Type v) where
  | initial (p : Body σ E)
  | body (p : Body σ E)
  | calling (c : Nat) (k : Int → Body σ E)
  | awaiting (c : Nat) (k : Int → Body σ E)
  | final

/-- A coroutine frame with the members of `promise_type`; `result_` may be unset. -/
structure Frame (σ : Type u) (E : Type v) where
  point : Point σ E
  result : Option Int
  continuation : Option Handle

/-- A new coroutine, suspended at `initial_suspend`. -/
def Frame.new (p : Body σ E) : Frame σ E where
  point := .initial p
  result := none
  continuation := none

/-- The coroutine of `sync_wait` with `result_`. -/
structure Waiter where
  point : WaitPoint
  result : Option Int

/--
`calls` are the calls of `resume()` on the stack of the thread, with the coroutine that
each of them has resumed; the last call comes first.  `returning` says that the
coroutine of `sync_wait` has suspended for good.
-/
structure State (σ : Type u) (E : Type v) where
  store : σ
  frame : Nat → Frame σ E
  allocated : Nat
  waiter : Waiter
  calls : List Handle
  returning : Bool
  undefined : Bool

/-- A step of the coroutine that runs, or the return of a call of `resume()`. -/
inductive Event where
  | start
  | create (c d : Nat)
  | await (h : Handle) (d : Nat)
  | begin (c : Nat)
  | act (c : Nat)
  | finish (c : Nat)
  | finalSuspend (c : Nat)
  | resume (h : Handle) (d : Nat)
  | leave (h : Handle)
deriving DecidableEq

namespace State

def setFrame (s : State σ E) (c : Nat) (f : Frame σ E) : State σ E :=
  { s with frame := Function.update s.frame c f }

def setPoint (s : State σ E) (c : Nat) (p : Point σ E) : State σ E :=
  s.setFrame c { s.frame c with point := p }

/-- What the coroutine `c` does next when it runs. -/
def eventOf (s : State σ E) (c : Nat) : Event :=
  match (s.frame c).point with
  | .initial _ => .begin c
  | .body (.coReturn _) => .finish c
  | .body (.throw _) => .finish c
  | .body (.act _ _) => .act c
  | .body (.await _ _ _) => .create c s.allocated
  | .calling d _ => .await (.task c) d
  | .awaiting d _ => .resume (.task c) d
  | .final => .finalSuspend c

/-- What happens next; nothing is known after undefined behaviour. -/
def event? (s : State σ E) : Option Event :=
  if s.undefined then none
  else
    match s.calls with
    | [] => if s.waiter.point = .initial then some .start else none
    | h :: _ =>
        if s.returning then some (.leave h)
        else
          match h with
          | .task c => some (s.eventOf c)
          | .syncWait =>
              match s.waiter.point with
              | .body => some (.await .syncWait 0)
              | .awaiting => some (.resume .syncWait 0)
              | _ => none

/-- The call of a coroutine; it stops at `initial_suspend`. -/
def create (s : State σ E) (c : Nat) : State σ E :=
  match (s.frame c).point with
  | .body (.await child k _) =>
      { (s.setPoint c (.calling s.allocated k)).setFrame s.allocated (.new child) with
        allocated := s.allocated + 1 }
  | _ => s

/-- The coroutine `h` is now in the `co_await` it was about to make. -/
def suspend (s : State σ E) : Handle → State σ E
  | .syncWait => { s with waiter := { s.waiter with point := .awaiting } }
  | .task c =>
      match (s.frame c).point with
      | .calling d k => s.setPoint c (.awaiting d k)
      | _ => s

/-- `co_await`: `await_suspend` sets the continuation and calls `resume()`. -/
def await (s : State σ E) (h : Handle) (d : Nat) : State σ E :=
  { (s.suspend h).setFrame d { (s.suspend h).frame d with continuation := some h } with
    calls := .task d :: s.calls }

def begin (s : State σ E) (c : Nat) : State σ E :=
  match (s.frame c).point with
  | .initial p => s.setPoint c (.body p)
  | _ => s

def act (s : State σ E) (c : Nat) : State σ E :=
  match (s.frame c).point with
  | .body (.act f k) =>
      { s.setPoint c (.body (k (f s.store).1)) with store := (f s.store).2 }
  | _ => s

/-- `return_value`, or `unhandled_exception`, which stores nothing. -/
def finish (s : State σ E) (c : Nat) : State σ E :=
  match (s.frame c).point with
  | .body (.coReturn v) => s.setFrame c { s.frame c with point := .final, result := some v }
  | .body (.throw _) => s.setPoint c .final
  | _ => s

/-- `final_suspend`: `self->continuation_.resume()`. -/
def finalSuspend (s : State σ E) (c : Nat) : State σ E :=
  match (s.frame c).continuation with
  | some h => { s with calls := h :: s.calls }
  | none => { s with undefined := true }

/-- `await_resume`, which reads `result_`; `sync_wait` yields the value and suspends. -/
def resume (s : State σ E) (h : Handle) (d : Nat) : State σ E :=
  match (s.frame d).result with
  | none => { s with undefined := true }
  | some v =>
      match h with
      | .syncWait =>
          { s with
            waiter := { point := .yielded, result := some v }
            returning := true }
      | .task c =>
          match (s.frame c).point with
          | .awaiting _ k => s.setPoint c (.body (k v))
          | _ => s

def next (s : State σ E) : Event → State σ E
  | .start =>
      { s with
        waiter := { s.waiter with point := .body }
        calls := [.syncWait] }
  | .create c _ => s.create c
  | .await h d => s.await h d
  | .begin c => s.begin c
  | .act c => s.act c
  | .finish c => s.finish c
  | .finalSuspend c => s.finalSuspend c
  | .resume h d => s.resume h d
  | .leave _ => { s with calls := s.calls.tail }

end State

/-- The `IntTask` has been created and `sync_wait` is called with it. -/
def start (p : Body σ E) (st : σ) : State σ E where
  store := st
  frame := fun _ => .new p
  allocated := 1
  waiter :=
    { point := .initial
      result := none }
  calls := []
  returning := false
  undefined := false

/-- The runs of `sync_wait` on an `IntTask`. -/
def syncWait (p : Body σ E) (st : σ) : System (State σ E) Event where
  init := fun s => s = start p st
  guard := fun s e => s.event? = some e
  next := State.next

section Steps

variable {root : Body σ E} {st : σ}
variable {s s₁ s₂ : State σ E} {es fs : List Event} {e : Event} {c d n m : Nat} {h : Handle}

variable (root st) in
/-- The events `es` lead from `s` to `s'`. -/
def Leads (s : State σ E) (es : List Event) (s' : State σ E) : Prop :=
  (syncWait root st).Enabled s es ∧ (syncWait root st).exec s es = s'

theorem Leads.nil (s : State σ E) :
    Leads root st s [] s :=
  ⟨trivial, rfl⟩

theorem Leads.cons
    (he : s.event? = some e)
    (h : Leads root st (s.next e) es s₁) :
    Leads root st s (e :: es) s₁ :=
  ⟨⟨he, h.1⟩, h.2⟩

theorem Leads.append
    (h : Leads root st s es s₁)
    (h' : Leads root st s₁ fs s₂) :
    Leads root st s (es ++ fs) s₂ := by
  obtain ⟨hes, rfl⟩ := h
  refine ⟨?_, ?_⟩
  · rw [System.enabled_append]
    exact ⟨hes, h'.1⟩
  · rw [System.exec_append]
    exact h'.2

/-- The coroutine `c` runs. -/
structure Runs (c : Nat) (s : State σ E) : Prop where
  calls : ∃ l, s.calls = .task c :: l
  returning : s.returning = false
  defined : s.undefined = false

theorem Runs.event?
    (h : Runs c s) :
    s.event? = some (s.eventOf c) := by
  obtain ⟨l, hl⟩ := h.calls
  simp [State.event?, h.defined, h.returning, hl]

/-- The coroutine `c`, which `h` awaits, is about to go on with the body `p`. -/
structure AtBody (c : Nat) (h : Handle) (p : Body σ E) (s : State σ E) : Prop
    extends Runs c s where
  point : (s.frame c).point = .body p
  result : (s.frame c).result = none
  continuation : (s.frame c).continuation = some h
  lt : c < s.allocated

/-- Between `s` and `s'` the coroutine `c` has come through `n` expressions `co_await`. -/
structure GoesOn (c n : Nat) (s s' : State σ E) : Prop where
  calls : s'.calls.length = s.calls.length + 2 * n
  waiter : s'.waiter = s.waiter
  allocated : s.allocated ≤ s'.allocated
  others : ∀ g, g < s.allocated → g ≠ c → s'.frame g = s.frame g

/-- The coroutine `c` has ended with `r`, and has resumed its continuation `h`. -/
structure Ended (c : Nat) (h : Handle) (r : Option Int) (n : Nat) (s s' : State σ E) :
    Prop where
  calls : ∃ l, s'.calls = h :: l ∧ l.length = s.calls.length + 2 * n
  returning : s'.returning = false
  defined : s'.undefined = false
  result : (s'.frame c).result = r
  waiter : s'.waiter = s.waiter
  allocated : s.allocated ≤ s'.allocated
  others : ∀ g, g < s.allocated → g ≠ c → s'.frame g = s.frame g

theorem GoesOn.trans
    (hs : GoesOn c n s s₁)
    (hs' : GoesOn c m s₁ s₂) :
    GoesOn c (n + m) s s₂ where
  calls := by
    rw [hs'.calls, hs.calls]
    omega
  waiter := hs'.waiter.trans hs.waiter
  allocated := Nat.le_trans hs.allocated hs'.allocated
  others := fun g hg hgc =>
    (hs'.others g (Nat.lt_of_lt_of_le hg hs.allocated) hgc).trans (hs.others g hg hgc)

theorem Ended.after
    {r : Option Int}
    (hs : GoesOn c n s s₁)
    (hs' : Ended c h r m s₁ s₂) :
    Ended c h r (n + m) s s₂ where
  calls := by
    obtain ⟨l, hl, hlen⟩ := hs'.calls
    rw [hs.calls] at hlen
    exact ⟨l, hl, by omega⟩
  returning := hs'.returning
  defined := hs'.defined
  result := hs'.result
  waiter := hs'.waiter.trans hs.waiter
  allocated := Nat.le_trans hs.allocated hs'.allocated
  others := fun g hg hgc =>
    (hs'.others g (Nat.lt_of_lt_of_le hg hs.allocated) hgc).trans (hs.others g hg hgc)

@[simp] theorem setFrame_self (s : State σ E) (c : Nat) (f : Frame σ E) :
    (s.setFrame c f).frame c = f :=
  Function.update_self ..

theorem setFrame_of_ne (s : State σ E) (f : Frame σ E) (hd : d ≠ c) :
    (s.setFrame c f).frame d = s.frame d :=
  Function.update_of_ne hd ..

/-- The end of a body: `final_suspend` resumes the continuation. -/
theorem leads_final
    {r : Option Int}
    (hruns : Runs c s)
    (hevent : s.eventOf c = .finish c)
    (hfinish : s.finish c = s.setFrame c
      { point := .final, result := r, continuation := some h }) :
    ∃ s', Leads root st s [.finish c, .finalSuspend c] s' ∧
      Ended c h r 0 s s' ∧ s'.store = s.store := by
  have he : s.event? = some (.finish c) := by
    rw [hruns.event?, hevent]
  have hruns' : Runs c (s.finish c) := by
    rw [hfinish]
    exact ⟨hruns.calls, hruns.returning, hruns.defined⟩
  have he' : (s.finish c).event? = some (.finalSuspend c) := by
    rw [hruns'.event?, hfinish, State.eventOf, setFrame_self]
  have hnext : (s.finish c).finalSuspend c =
      { s.finish c with calls := h :: (s.finish c).calls } := by
    rw [State.finalSuspend, hfinish, setFrame_self]
  refine ⟨_, .cons he (.cons he' (.nil _)), ?_, ?_⟩
  · change Ended c h r 0 s ((s.finish c).finalSuspend c)
    rw [hnext, hfinish]
    refine ⟨⟨_, rfl, rfl⟩, hruns.returning, hruns.defined, ?_, rfl, Nat.le_refl _, ?_⟩
    · exact congrArg Frame.result (setFrame_self s c _)
    · exact fun g _ hgc => setFrame_of_ne s _ hgc
  · change ((s.finish c).finalSuspend c).store = s.store
    rw [hnext, hfinish]
    rfl

theorem leads_coReturn
    {v : Int}
    (hs : AtBody c h (.coReturn v) s) :
    ∃ s', Leads root st s [.finish c, .finalSuspend c] s' ∧
      Ended c h (some v) 0 s s' ∧ s'.store = s.store := by
  refine leads_final hs.toRuns ?_ ?_
  · rw [State.eventOf, hs.point]
  · simp only [State.finish, hs.point, hs.continuation]

theorem leads_throw
    {e : Thrown E}
    (hs : AtBody c h (.throw e) s) :
    ∃ s', Leads root st s [.finish c, .finalSuspend c] s' ∧
      Ended c h none 0 s s' ∧ s'.store = s.store := by
  refine leads_final hs.toRuns ?_ ?_
  · rw [State.eventOf, hs.point]
  · simp only [State.finish, hs.point, State.setPoint, hs.result, hs.continuation]

theorem atBody_act
    {f : σ → Int × σ} {k : Int → Body σ E}
    (hs : AtBody c h (.act f k) s) :
    s.event? = some (.act c) ∧
      AtBody c h (k (f s.store).1) (s.next (.act c)) ∧
      GoesOn c 0 s (s.next (.act c)) ∧
      (s.next (.act c)).store = (f s.store).2 := by
  have hnext : s.next (.act c) =
      { s.setPoint c (.body (k (f s.store).1)) with store := (f s.store).2 } := by
    simp only [State.next, State.act, hs.point]
  refine ⟨by rw [hs.event?, State.eventOf, hs.point], ?_, ?_, by rw [hnext]⟩
  · rw [hnext]
    refine ⟨⟨hs.calls, hs.returning, hs.defined⟩, ?_, ?_, ?_, hs.lt⟩
    · exact congrArg Frame.point (setFrame_self s c _)
    · exact (congrArg Frame.result (setFrame_self s c _)).trans hs.result
    · exact (congrArg Frame.continuation (setFrame_self s c _)).trans hs.continuation
  · rw [hnext]
    exact ⟨rfl, rfl, Nat.le_refl _, fun g _ hgc => setFrame_of_ne s _ hgc⟩

/-- The call of a child: created, awaited and resumed. -/
structure Called (c : Nat) (child : Body σ E) (k : Int → Body σ E) (s s' : State σ E) :
    Prop where
  child : AtBody s.allocated (.task c) child s'
  calls : s'.calls.length = s.calls.length + 1
  store : s'.store = s.store
  waiter : s'.waiter = s.waiter
  allocated : s'.allocated = s.allocated + 1
  frame : s'.frame c = { s.frame c with point := .awaiting s.allocated k }
  others : ∀ g, g < s.allocated → g ≠ c → s'.frame g = s.frame g

theorem leads_call
    {child : Body σ E} {k : Int → Body σ E} {k' : Thrown E → Body σ E}
    (hs : AtBody c h (.await child k k') s) :
    ∃ s', Leads root st s
        [.create c s.allocated, .await (.task c) s.allocated, .begin s.allocated] s' ∧
      Called c child k s s' := by
  have hne : c ≠ s.allocated := Nat.ne_of_lt hs.lt
  obtain ⟨s₁, hs₁⟩ : ∃ s₁, s₁ = s.create c := ⟨_, rfl⟩
  have hnext₁ : s₁ =
      { (s.setPoint c (.calling s.allocated k)).setFrame s.allocated (.new child) with
        allocated := s.allocated + 1 } := by
    rw [hs₁, State.create, hs.point]
  have hframe₁ : s₁.frame c = { s.frame c with point := .calling s.allocated k } := by
    rw [hnext₁]
    exact (setFrame_of_ne _ _ hne).trans (setFrame_self s c _)
  have hchild₁ : s₁.frame s.allocated = .new child := by
    rw [hnext₁]
    exact setFrame_self _ _ _
  have hruns₁ : Runs c s₁ := by
    rw [hnext₁]
    exact ⟨hs.calls, hs.returning, hs.defined⟩
  have hcalls₁ : s₁.calls = s.calls := by
    rw [hnext₁]
    rfl
  obtain ⟨s₂, hs₂⟩ : ∃ s₂, s₂ = s₁.await (.task c) s.allocated := ⟨_, rfl⟩
  have hnext₂ : s₂ =
      { (s₁.setPoint c (.awaiting s.allocated k)).setFrame s.allocated
          { (Frame.new child : Frame σ E) with continuation := some (.task c) } with
        calls := .task s.allocated :: s.calls } := by
    have hother : (s₁.setPoint c (.awaiting s.allocated k)).frame s.allocated = .new child :=
      (setFrame_of_ne _ _ hne.symm).trans hchild₁
    simp only [hs₂, State.await, State.suspend, hframe₁, hother, hcalls₁]
  have hchild₂ : s₂.frame s.allocated =
      { point := .initial child, result := none, continuation := some (.task c) } := by
    rw [hnext₂]
    exact setFrame_self _ _ _
  have hruns₂ : Runs s.allocated s₂ := by
    rw [hnext₂]
    exact ⟨⟨_, rfl⟩, hruns₁.returning, hruns₁.defined⟩
  have hnext₃ : s₂.next (.begin s.allocated) = s₂.setPoint s.allocated (.body child) := by
    simp only [State.next, State.begin, hchild₂]
  have hother : ∀ g, g ≠ s.allocated →
      (s₂.setPoint s.allocated (.body child)).frame g =
        if g = c then { s.frame c with point := .awaiting s.allocated k } else s.frame g := by
    intro g hg
    rw [State.setPoint, setFrame_of_ne _ _ hg, hnext₂]
    change ((s₁.setPoint c (.awaiting s.allocated k)).setFrame s.allocated _).frame g = _
    rw [setFrame_of_ne _ _ hg]
    split
    · next hgc =>
        subst hgc
        rw [State.setPoint, setFrame_self, hframe₁]
    · next hgc =>
        rw [State.setPoint, setFrame_of_ne _ _ hgc, hnext₁]
        exact (setFrame_of_ne _ _ hg).trans (setFrame_of_ne s _ hgc)
  refine ⟨_, .cons (e := .create c s.allocated) ?_ (.cons (e := .await (.task c) s.allocated) ?_
    (.cons (e := .begin s.allocated) ?_ (.nil _))), ?_⟩
  · rw [hs.event?, State.eventOf, hs.point]
  · change (s.create c).event? = _
    rw [← hs₁, hruns₁.event?, State.eventOf, hframe₁]
  · change ((s.create c).await (.task c) s.allocated).event? = _
    rw [← hs₁, ← hs₂, hruns₂.event?, State.eventOf, hchild₂]
  · change Called c child k s (((s.create c).await (.task c) s.allocated).next (.begin _))
    rw [← hs₁, ← hs₂, hnext₃]
    constructor
    · refine ⟨⟨hruns₂.calls, hruns₂.returning, hruns₂.defined⟩, ?_, ?_, ?_, ?_⟩
      · exact congrArg Frame.point (setFrame_self s₂ _ _)
      · rw [State.setPoint, setFrame_self, hchild₂]
      · rw [State.setPoint, setFrame_self, hchild₂]
      · rw [hnext₂, hnext₁]
        exact Nat.lt_succ_self _
    · rw [hnext₂]
      rfl
    · rw [hnext₂, hnext₁]
      rfl
    · rw [hnext₂, hnext₁]
      rfl
    · rw [hnext₂, hnext₁]
      rfl
    · rw [hother c hne, if_pos rfl]
    · intro g hg hgc
      rw [hother g (Nat.ne_of_lt hg), if_neg hgc]

/-- What holds when the child `d` has resumed the coroutine `c`, which awaits it. -/
structure AtResume (c : Nat) (h : Handle) (d : Nat) (k : Int → Body σ E) (s : State σ E) :
    Prop extends Runs c s where
  point : (s.frame c).point = .awaiting d k
  result : (s.frame c).result = none
  continuation : (s.frame c).continuation = some h
  lt : c < s.allocated

/-- A child that has ended has resumed its parent. -/
theorem Called.ended
    {child : Body σ E} {k : Int → Body σ E} {k' : Thrown E → Body σ E} {r : Option Int}
    (hs : AtBody c h (.await child k k') s)
    (hcalled : Called c child k s s₁)
    (hended : Ended s.allocated (.task c) r n s₁ s₂) :
    AtResume c h s.allocated k s₂ ∧ GoesOn c (n + 1) s s₂ := by
  have hlt : c < s₁.allocated := by
    rw [hcalled.allocated]
    exact Nat.lt_succ_of_lt hs.lt
  have hframe := (hended.others c hlt (Nat.ne_of_lt hs.lt)).trans hcalled.frame
  obtain ⟨l, hl, hlen⟩ := hended.calls
  constructor
  · refine ⟨⟨⟨l, hl⟩, hended.returning, hended.defined⟩, ?_, ?_, ?_, ?_⟩
    · rw [hframe]
    · rw [hframe]
      exact hs.result
    · rw [hframe]
      exact hs.continuation
    · exact Nat.lt_of_lt_of_le hlt hended.allocated
  · refine ⟨?_, hended.waiter.trans hcalled.waiter, ?_, ?_⟩
    · rw [hcalled.calls] at hlen
      rw [hl, List.length_cons]
      omega
    · refine Nat.le_trans ?_ hended.allocated
      rw [hcalled.allocated]
      exact Nat.le_succ _
    · intro g hg hgc
      have hg' : g < s₁.allocated := by
        rw [hcalled.allocated]
        exact Nat.lt_succ_of_lt hg
      exact (hended.others g hg' (Nat.ne_of_lt hg)).trans (hcalled.others g hg hgc)

/-- `await_resume` returns the value that the child has stored. -/
theorem AtResume.returns
    {k : Int → Body σ E} {v : Int}
    (hs : AtResume c h d k s)
    (hresult : (s.frame d).result = some v) :
    s.event? = some (.resume (.task c) d) ∧
      AtBody c h (k v) (s.next (.resume (.task c) d)) ∧
      GoesOn c 0 s (s.next (.resume (.task c) d)) ∧
      (s.next (.resume (.task c) d)).store = s.store := by
  have hnext : s.next (.resume (.task c) d) = s.setPoint c (.body (k v)) := by
    simp only [State.next, State.resume, hresult, hs.point]
  refine ⟨by rw [hs.event?, State.eventOf, hs.point], ?_, ?_, by rw [hnext]; rfl⟩
  · rw [hnext]
    refine ⟨⟨hs.calls, hs.returning, hs.defined⟩, ?_, ?_, ?_, hs.lt⟩
    · exact congrArg Frame.point (setFrame_self s c _)
    · exact (congrArg Frame.result (setFrame_self s c _)).trans hs.result
    · exact (congrArg Frame.continuation (setFrame_self s c _)).trans hs.continuation
  · rw [hnext]
    exact ⟨rfl, rfl, Nat.le_refl _, fun g _ hgc => setFrame_of_ne s _ hgc⟩

/-- `await_resume` reads `result_` although the child has stored nothing. -/
theorem AtResume.undefined
    {k : Int → Body σ E}
    (hs : AtResume c h d k s)
    (hresult : (s.frame d).result = none) :
    ∃ s', Leads root st s [.resume (.task c) d] s' ∧ s'.undefined = true := by
  refine ⟨_, .cons (e := .resume (.task c) d) ?_ (.nil _), ?_⟩
  · rw [hs.event?, State.eventOf, hs.point]
  · simp only [State.next, State.resume, hresult]

end Steps

section Bodies

variable {root : Body σ E} {st : σ}
variable {s s₁ s₂ s' : State σ E} {c n m : Nat} {h : Handle} {p q : Body σ E}

/-- What the body `p` of the coroutine `c` comes to. -/
inductive Outcome (c : Nat) (h : Handle) (p : Body σ E) (s s' : State σ E) : Prop
  | returns (v : Int)
      (hquiet : p.Quiet s.store)
      (heval : p.task.eval s.store = (.ok v, s'.store))
      (hended : Ended c h (some v) (p.awaits s.store) s s')
  | throws (n : Nat)
      (hquiet : ¬ p.Quiet s.store)
      (hended : Ended c h none n s s')
  | undefined
      (hquiet : ¬ p.Quiet s.store)
      (hundefined : s'.undefined = true)

/-- A body that comes to `q` has the outcome of `q`. -/
theorem Outcome.after
    (hq : Outcome c h q s₁ s')
    (hgoes : GoesOn c n s s₁)
    (hquiet : p.Quiet s.store ↔ q.Quiet s₁.store)
    (heval : p.task.eval s.store = q.task.eval s₁.store)
    (hawaits : p.awaits s.store = n + q.awaits s₁.store) :
    Outcome c h p s s' := by
  cases hq with
  | returns v hq hv hended =>
      refine .returns v (hquiet.mpr hq) (heval.trans hv) ?_
      rw [hawaits]
      exact hended.after hgoes
  | throws m hq hended =>
      exact .throws (n + m) (mt hquiet.mp hq) (hended.after hgoes)
  | undefined hq hundefined =>
      exact .undefined (mt hquiet.mp hq) hundefined

/-- Every body that runs ends, or reads what was not set. -/
theorem ended_or_undefined
    (p : Body σ E) :
    ∀ (s : State σ E) (c : Nat) (h : Handle), AtBody c h p s →
      ∃ es s', Leads root st s es s' ∧ Outcome c h p s s' := by
  induction p with
  | coReturn v =>
      intro s c h hs
      obtain ⟨s', hleads, hended, hstore⟩ := leads_coReturn hs
      refine ⟨_, s', hleads, .returns v trivial ?_ hended⟩
      rw [hstore]
      rfl
  | throw e =>
      intro s c h hs
      obtain ⟨s', hleads, hended, -⟩ := leads_throw hs
      exact ⟨_, s', hleads, .throws 0 id hended⟩
  | act f k ih =>
      intro s c h hs
      obtain ⟨he, hbody, hgoes, hstore⟩ := atBody_act hs
      obtain ⟨es, s', hleads, hout⟩ := ih _ _ c h hbody
      refine ⟨_, s', .cons he hleads, hout.after hgoes ?_ ?_ ?_⟩
      · rw [hstore]
        rfl
      · rw [hstore]
        rfl
      · rw [hstore, Nat.zero_add]
        rfl
  | await child k k' ihChild ihK _ =>
      intro s c h hs
      obtain ⟨s₁, hleads₁, hcalled⟩ := leads_call hs
      obtain ⟨es, s₂, hleads₂, hout⟩ := ihChild s₁ _ _ hcalled.child
      have hloud : ¬ child.Quiet s₁.store → ¬ (Body.await child k k').Quiet s.store := by
        intro hloud hquiet
        rw [hcalled.store] at hloud
        rw [Body.Quiet] at hquiet
        exact hloud hquiet.1
      cases hout with
      | returns v hquiet heval hended =>
          obtain ⟨hresume, hgoes⟩ := hcalled.ended hs hended
          obtain ⟨he, hbody, hgoes', hstore⟩ := hresume.returns hended.result
          obtain ⟨es', s', hleads₃, hout⟩ := ihK v _ c h hbody
          rw [hcalled.store] at hquiet heval
          refine ⟨_, s', hleads₁.append (hleads₂.append (.cons he hleads₃)),
            hout.after (hgoes.trans hgoes') ?_ ?_ ?_⟩
          · rw [hstore, Body.Quiet, heval]
            exact and_iff_right hquiet
          · rw [hstore, Body.task, CallProgram.eval, heval]
            rfl
          · rw [hstore, Body.awaits, heval, hcalled.store]
      | throws n hquiet hended =>
          obtain ⟨hresume, -⟩ := hcalled.ended hs hended
          obtain ⟨s', hleads₃, hundefined⟩ := hresume.undefined hended.result
          exact ⟨_, s', hleads₁.append (hleads₂.append hleads₃),
            .undefined (hloud hquiet) hundefined⟩
      | undefined hquiet hundefined =>
          exact ⟨_, s₂, hleads₁.append hleads₂, .undefined (hloud hquiet) hundefined⟩

end Bodies

section Root

variable {root : Body σ E} {st : σ} {s s' : State σ E} {tr : List Event}

/-- `sync_wait` starts its coroutine, which awaits the `IntTask`. -/
theorem leads_start (root : Body σ E) (st : σ) :
    ∃ s,
      Leads root st (start root st) [.start, .await .syncWait 0, .begin 0] s ∧
      AtBody 0 .syncWait root s ∧
      s.store = st ∧
      s.calls.length = 2 ∧
      s.waiter = { point := .awaiting, result := none } := by
  obtain ⟨s₁, hs₁⟩ : ∃ s₁, s₁ = ((start root st).next .start).next (.await .syncWait 0) :=
    ⟨_, rfl⟩
  have hframe : s₁.frame 0 =
      { point := .initial root, result := none, continuation := some .syncWait } := by
    simp [hs₁, State.next, State.await, State.suspend, start, Frame.new]
  have hruns : Runs 0 s₁ := by
    rw [hs₁]
    exact ⟨⟨_, rfl⟩, rfl, rfl⟩
  have hbegin : s₁.next (.begin 0) = s₁.setPoint 0 (.body root) := by
    simp only [State.next, State.begin, hframe]
  refine ⟨s₁.setPoint 0 (.body root), .cons rfl (.cons rfl (.cons ?_ ⟨trivial, ?_⟩)),
    ⟨⟨hruns.calls, hruns.returning, hruns.defined⟩, ?_, ?_, ?_, ?_⟩, ?_, ?_, ?_⟩
  · rw [← hs₁, hruns.event?, State.eventOf, hframe]
  · rw [← hs₁, ← hbegin]
    rfl
  · exact congrArg Frame.point (setFrame_self s₁ _ _)
  · rw [State.setPoint, setFrame_self, hframe]
  · rw [State.setPoint, setFrame_self, hframe]
  · rw [hs₁]
    exact Nat.one_pos
  · rw [hs₁]
    rfl
  · rw [hs₁]
    rfl
  · rw [hs₁]
    rfl

/-- When the coroutine of `sync_wait` has suspended, all calls return. -/
theorem leads_return (root : Body σ E) (st : σ) (l : List Handle) :
    ∀ s : State σ E, s.calls = l → s.returning = true → s.undefined = false →
      Leads root st s (l.map .leave) { s with calls := [] } := by
  induction l with
  | nil =>
      intro s hl _ _
      refine ⟨trivial, ?_⟩
      change s = _
      rw [← hl]
  | cons h l ih =>
      intro s hl hreturning hdefined
      refine .cons ?_ (ih (s.next (.leave h)) ?_ hreturning hdefined)
      · rw [State.event?, hdefined, hl, hreturning]
        rfl
      · change s.calls.tail = l
        rw [hl]
        rfl

/-- The events `es`, and then those with which all calls return. -/
def complete (es : List Event) (l : List Handle) : List Event :=
  es ++ .resume .syncWait 0 :: l.map .leave

/--
`sync_wait` with all calls of `resume()` on the stack, just before it gets the value `v`
in the state `s`, and after all of them have returned.
-/
structure Completes (root : Body σ E) (st : σ) (es : List Event) (s s' : State σ E) (v : Int) :
    Prop where
  front : Leads root st (start root st) es s
  returning : s.returning = false
  calls : s.calls.length = 2 * root.awaits st + 3
  back : Leads root st s (.resume .syncWait 0 :: s.calls.map .leave) s'
  defined' : s'.undefined = false
  calls' : s'.calls = []
  waiter' : s'.waiter = { point := .yielded, result := some v }
  eval : root.task.eval st = (.ok v, s'.store)

theorem completes_or_undefined (root : Body σ E) (st : σ) :
    (root.Quiet st ∧ ∃ es s s' v, Completes root st es s s' v) ∨
      (¬ root.Quiet st ∧ ∃ es s, Leads root st (start root st) es s ∧ s.undefined = true) := by
  obtain ⟨s₁, hleads₁, hbody, hstore, hcalls, hwaiter⟩ := leads_start root st
  obtain ⟨es, s₂, hleads₂, hout⟩ := ended_or_undefined root s₁ 0 .syncWait hbody
  have hleads := hleads₁.append hleads₂
  have hresume : ∀ {r n}, Ended 0 .syncWait r n s₁ s₂ →
      s₂.event? = some (.resume .syncWait 0) := by
    intro r n hended
    obtain ⟨l, hl, -⟩ := hended.calls
    rw [State.event?, hended.defined, hl, hended.returning, hended.waiter, hwaiter]
    rfl
  cases hout with
  | returns v hquiet heval hended =>
      rw [hstore] at hquiet heval hended
      obtain ⟨l, hl, hlen⟩ := hended.calls
      have hnext : s₂.next (.resume .syncWait 0) =
          { s₂ with
            waiter := { point := .yielded, result := some v }
            returning := true } := by
        simp only [State.next, State.resume, hended.result]
      have hreturn := leads_return root st s₂.calls
        (s₂.next (.resume .syncWait 0)) (by rw [hnext]) (by rw [hnext])
        (by rw [hnext]; exact hended.defined)
      refine .inl ⟨hquiet, _, s₂, _, v, hleads, hended.returning, ?_,
        .cons (hresume hended) hreturn, ?_, rfl, ?_, ?_⟩
      · rw [hl, List.length_cons, hlen, hcalls]
        omega
      · rw [hnext]
        exact hended.defined
      · rw [hnext]
      · rw [hnext]
        exact heval
  | throws n hquiet hended =>
      rw [hstore] at hquiet
      refine .inr ⟨hquiet, _, s₂.next (.resume .syncWait 0),
        hleads.append (.cons (hresume hended) (.nil _)), ?_⟩
      simp only [State.next, State.resume, hended.result]
  | undefined hquiet hundefined =>
      rw [hstore] at hquiet
      exact .inr ⟨hquiet, _, _, hleads, hundefined⟩

theorem Leads.run
    {es : List Event}
    (h : Leads root st (start root st) es s) :
    (syncWait root st).Run es s := by
  obtain ⟨hes, rfl⟩ := h
  exact .of_enabled rfl hes

theorem Completes.run
    {es : List Event} {v : Int}
    (h : Completes root st es s s' v) :
    (syncWait root st).Run (complete es s.calls) s' :=
  (h.front.append h.back).run

theorem stuck_of_undefined
    (h : s.undefined = true)
    (e : Event) :
    ¬ (syncWait root st).guard s e := by
  intro he
  have he : s.event? = some e := he
  rw [State.event?, if_pos h] at he
  cases he

theorem Completes.stuck
    {es : List Event} {v : Int}
    (h : Completes root st es s s' v)
    (e : Event) :
    ¬ (syncWait root st).guard s' e := by
  intro he
  have he : s'.event? = some e := he
  rw [State.event?, h.defined', h.calls', h.waiter'] at he
  cases he

theorem guard_unique
    {e f : Event}
    (he : (syncWait root st).guard s e)
    (hf : (syncWait root st).guard s f) :
    e = f :=
  Option.some.inj (he.symm.trans hf)

/-- `sync_wait` has returned the value, with the side effects, that it has for `Task`s. -/
def Agrees (root : Body σ E) (st : σ) (s : State σ E) : Prop :=
  s.calls = [] ∧
    ∃ v, s.waiter.result = some v ∧
      ∃ tr' s',
        (SyncWait.syncWait .value root.task.program st).Run tr' s' ∧
        (∀ e, ¬ (SyncWait.syncWait .value root.task.program st).guard s' e) ∧
        s'.syncWaitResult .value = some (.ok v) ∧
        s'.store = s.store

theorem Completes.agrees
    {es : List Event} {v : Int}
    (h : Completes root st es s s' v) :
    Agrees root st s' := by
  obtain ⟨tr', t, hrun, hstuck, hresult, hstore⟩ := SyncWait.runs_root .value root.task st
  rw [h.eval] at hresult hstore
  refine ⟨h.calls', v, ?_, tr', t, hrun, hstuck, hresult, hstore⟩
  rw [h.waiter']

/--
`IntTask` does what `Task<int>` does, with the same result and the same side effects,
exactly if no body that is entered lets an exception out.  Otherwise `result_` is read
although nothing was stored in it.
-/
theorem intTask_agrees_iff (root : Body σ E) (st : σ) :
    ∃ tr s,
      (syncWait root st).Run tr s ∧
      (∀ tr' s', (syncWait root st).Run tr' s' → tr' <+: tr) ∧
      (root.Quiet st ↔ s.undefined = false) ∧
      (s.undefined = false → Agrees root st s) := by
  have hcomplete : ∀ {tr s}, (syncWait root st).Run tr s →
      (∀ e, ¬ (syncWait root st).guard s e) →
        ∀ tr' s', (syncWait root st).Run tr' s' → tr' <+: tr :=
    fun hrun hstuck tr' s' hrun' =>
      hrun.prefix_of_stuck (fun _ hs => hs) (fun _ _ _ => guard_unique) hstuck hrun'
  rcases completes_or_undefined root st with
    ⟨hquiet, es, s, s', v, h⟩ | ⟨hquiet, es, s, hleads, hundefined⟩
  · exact ⟨_, s', h.run, hcomplete h.run h.stuck, iff_of_true hquiet h.defined',
      fun _ => h.agrees⟩
  · have hdefined : ¬ s.undefined = false := ne_false_of_eq_true hundefined
    exact ⟨es, s, hleads.run, hcomplete hleads.run (stuck_of_undefined hundefined),
      iff_of_false hquiet hdefined, fun h => absurd h hdefined⟩

end Root

section Calls

variable {root : Body σ E} {st : σ} {s s' : State σ E} {e : Event} {tr tr' : List Event}

/-- The steps that call `resume()`. -/
def Event.calls : Event → Bool
  | start => true
  | await _ _ => true
  | finalSuspend _ => true
  | _ => false

/-- What a step does to the calls on the stack. -/
inductive Stacks (e : Event) (s s' : State σ E) : Prop
  | call (h : Handle)
      (he : e.calls = true)
      (hcalls : s'.calls = h :: s.calls)
      (hreturning : s'.returning = s.returning)
  | stay
      (he : e.calls = false)
      (hcalls : s'.calls = s.calls)
      (hreturning : s'.returning = s.returning)
  | last
      (hcalls : s'.calls.length ≤ s.calls.length)
      (hend : s'.returning = true ∨ s'.undefined = true)

theorem eventOf_cases (s : State σ E) (c : Nat) :
    s.eventOf c ≠ .start ∧ ∀ h, s.eventOf c ≠ .leave h := by
  rw [State.eventOf]
  split <;> exact ⟨nofun, nofun⟩

theorem defined_of_event?
    (he : s.event? = some e) :
    s.undefined = false := by
  rw [State.event?] at he
  split at he
  · cases he
  · next h =>
      exact Bool.eq_false_iff.mpr h

/-- `start()` is called first, and a call of `resume()` returns at the end. -/
theorem of_event?
    (he : s.event? = some e) :
    (e = .start → s.calls = []) ∧ (∀ h, e = .leave h → s.returning = true) := by
  rw [State.event?] at he
  split at he
  · cases he
  · split at he
    · next hcalls =>
        split at he
        · cases he
          exact ⟨fun _ => hcalls, nofun⟩
        · cases he
    · split at he
      · next hreturning =>
          cases he
          exact ⟨nofun, fun _ _ => hreturning⟩
      · split at he
        · next c _ =>
            cases he
            obtain ⟨hstart, hleave⟩ := eventOf_cases s c
            exact ⟨fun h => absurd h hstart, fun h hh => absurd hh (hleave h)⟩
        · split at he <;> cases he <;> exact ⟨nofun, nofun⟩

theorem stacks_next
    (he : s.event? = some e) :
    Stacks e s (s.next e) := by
  obtain ⟨hstart, hleave⟩ := of_event? he
  cases e with
  | start =>
      refine .call .syncWait rfl ?_ rfl
      rw [hstart rfl]
      rfl
  | create c d =>
      change Stacks _ s (s.create c)
      rw [State.create]
      split <;> exact .stay rfl rfl rfl
  | await h d =>
      refine .call (.task d) rfl rfl ?_
      cases h with
      | syncWait =>
          rfl
      | task c =>
          change (s.suspend (.task c)).returning = s.returning
          rw [State.suspend]
          split <;> rfl
  | begin c =>
      change Stacks _ s (s.begin c)
      rw [State.begin]
      split <;> exact .stay rfl rfl rfl
  | act c =>
      change Stacks _ s (s.act c)
      rw [State.act]
      split <;> exact .stay rfl rfl rfl
  | finish c =>
      change Stacks _ s (s.finish c)
      rw [State.finish]
      split <;> exact .stay rfl rfl rfl
  | finalSuspend c =>
      change Stacks _ s (s.finalSuspend c)
      rw [State.finalSuspend]
      split
      · exact .call _ rfl rfl rfl
      · exact .last (Nat.le_refl _) (.inr rfl)
  | resume h d =>
      change Stacks _ s (s.resume h d)
      rw [State.resume]
      split
      · exact .last (Nat.le_refl _) (.inr rfl)
      · split
        · exact .last (Nat.le_refl _) (.inl rfl)
        · split <;> exact .stay rfl rfl rfl
  | leave h =>
      refine .last ?_ (.inl (hleave h rfl))
      change s.calls.tail.length ≤ _
      rw [List.length_tail]
      exact Nat.sub_le _ _

/-- The calls of `resume()` that have been made. -/
def called (tr : List Event) : Nat :=
  tr.countP Event.calls

theorem called_append_singleton (tr : List Event) (e : Event) :
    called (tr ++ [e]) = called tr + if e.calls then 1 else 0 := by
  rw [called, List.countP_append, List.countP_singleton]
  rfl

/-- No call returns before the coroutine of `sync_wait` has suspended for good. -/
structure Counted (tr : List Event) (s : State σ E) : Prop where
  le : s.calls.length ≤ called tr
  eq : s.returning = false → s.undefined = false → s.calls.length = called tr

theorem counted_iff :
    Counted tr s ↔
      s.calls.length ≤ called tr ∧
        (s.returning = false → s.undefined = false → s.calls.length = called tr) :=
  ⟨fun h => ⟨h.le, h.eq⟩, fun h => ⟨h.1, h.2⟩⟩

theorem counted_of_run
    (hrun : (syncWait root st).Run tr s) :
    Counted tr s := by
  induction hrun with
  | start hinit =>
      obtain rfl := hinit
      exact ⟨Nat.le_refl 0, fun _ _ => rfl⟩
  | @step tr s e hrun hguard ih =>
      have he : s.event? = some e := hguard
      have hdefined : s.undefined = false := defined_of_event? he
      change Counted (tr ++ [e]) (s.next e)
      rw [counted_iff, called_append_singleton]
      cases stacks_next he with
      | call h hcall hcalls hreturning =>
          rw [hcall, hcalls, hreturning]
          exact ⟨Nat.succ_le_succ ih.le, fun hr _ => congrArg Nat.succ (ih.eq hr hdefined)⟩
      | stay hcall hcalls hreturning =>
          rw [hcall, hcalls, hreturning]
          exact ⟨ih.le, fun hr _ => ih.eq hr hdefined⟩
      | last hcalls hend =>
          refine ⟨Nat.le_trans hcalls (Nat.le_trans ih.le (Nat.le_add_right ..)), ?_⟩
          intro hr hd
          rcases hend with hend | hend
          · exact absurd (hend.symm.trans hr) nofun
          · exact absurd (hend.symm.trans hd) nofun

/-- The end of `sync_wait` makes no call any more. -/
theorem called_complete (es : List Event) (l : List Handle) :
    called (complete es l) = called es := by
  have hleave : called (l.map .leave) = 0 := by
    rw [called, List.countP_map]
    exact List.countP_eq_zero.mpr fun _ _ => nofun
  rw [called, complete, List.countP_append, List.countP_cons_of_neg Bool.false_ne_true]
  exact congrArg (called es + ·) hleave

/--
The stack of the thread grows with the number of `co_await` expressions that have been
evaluated, however shallow they nest: each of them leaves two calls of `resume()` on it,
until all calls return at the end.
-/
theorem intTask_calls
    (hquiet : root.Quiet st) :
    (∃ tr s, (syncWait root st).Run tr s ∧ s.calls.length = 2 * root.awaits st + 3) ∧
      ∀ tr s, (syncWait root st).Run tr s → s.calls.length ≤ 2 * root.awaits st + 3 := by
  rcases completes_or_undefined root st with ⟨-, es, s, s', v, h⟩ | ⟨hloud, -⟩
  · refine ⟨⟨es, s, h.front.run, h.calls⟩, fun tr t hrun => ?_⟩
    have hcalled : called es = 2 * root.awaits st + 3 := by
      have hdefined := defined_of_event? h.back.1.1
      rw [← (counted_of_run h.front.run).eq h.returning hdefined, h.calls]
    have hprefix : tr <+: complete es s.calls :=
      h.run.prefix_of_stuck (fun _ hs => hs) (fun _ _ _ => guard_unique) h.stuck hrun
    calc
      t.calls.length ≤ called tr := (counted_of_run hrun).le
      _ ≤ called (complete es s.calls) := hprefix.sublist.countP_le
      _ = 2 * root.awaits st + 3 := (called_complete es s.calls).trans hcalled
  · exact absurd hquiet hloud

/-- A loop that awaits an `IntTask` `n` times, one after the other. -/
def awaitAgain : Nat → Body Unit Empty
  | 0 => .coReturn 0
  | n + 1 => .await (.coReturn 1) (fun _ => awaitAgain n) fun e => .throw e

theorem intTask_calls_awaitAgain :
    (∃ tr s, (syncWait (awaitAgain 2) ()).Run tr s ∧ s.calls.length = 7) ∧
      ∀ tr s, (syncWait (awaitAgain 2) ()).Run tr s → s.calls.length ≤ 7 :=
  intTask_calls ⟨trivial, trivial, trivial⟩

end Calls

end IntTask
end Ptl

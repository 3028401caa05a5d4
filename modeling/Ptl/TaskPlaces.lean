import Ptl.TaskExecution

/-!
# Every coroutine is in one place

The abstract model of tasks on executors: instead of the slots of the threads
and the queues, every coroutine carries its place.  The frames are those of
`TaskExecution`, and the steps are the same events; that a worker takes its
queue in order is left out.

`Linked` is the invariant of this model.  The coroutine that awaits a `Task` is
its continuation, it is nowhere until the `Task` has ended, and then it is back
on the thread or in the queue of the executor the `Task` has recorded.

**Results.**
* `linked_of_reachable`: the invariant.
* `simulation`: `tasks` refines the abstract model.
-/

namespace Ptl
namespace Task

open Transition Placement

universe u v

variable {ε : Type u} {V : Type v}

/-- The frames, and the place of every coroutine. -/
structure Located (ε : Type u) (V : Type v) where
  frame : Handle → Frame ε V
  allocated : Nat
  place : Handle → Place (Thread ε) ε

namespace Located

/-- Coroutine `h` is on thread `t` and does `op` next. -/
def At
    (s : Located ε V) (t : Thread ε) (h : Handle) (op : Op ε V) : Prop :=
  s.place h = .thread t ∧ (s.frame h).point.op? = some op

def guard [DecidableEq ε] (s : Located ε V) : Event ε V → Prop
  | .act t h _ => s.At t h .act
  | .await t h c => s.At t h .await ∧ c = s.allocated
  | .scheduleOn t h c x => s.At t h (.scheduleOn x) ∧ c = s.allocated
  | .schedulerReady t h x => s.At t h (.scheduler x) ∧ t.current = some x
  | .schedulerSuspend t h x => s.At t h (.scheduler x) ∧ t.current ≠ some x
  | .resume t h c v => s.At t h (.resume c) ∧ v = (s.frame c).value
  | .finish t h v => s.At t h (.finish v)
  | .finalSuspend t h o =>
      s.At t h .suspend ∧ o = (s.frame h).finalSuspend t.current
  | .run x h => s.place h = .queue x

/-- Coroutine `h` is left, and `c` is at `p`. -/
def handOver
    (place : Handle → Place (Thread ε) ε) (h c : Handle)
    (p : Place (Thread ε) ε) :
    Handle → Place (Thread ε) ε :=
  Function.update (Function.update place h .away) c p

/-- What a step does to the places. -/
def nextPlace
    (place : Handle → Place (Thread ε) ε) :
    Event ε V → Handle → Place (Thread ε) ε
  | .await t h c => handOver place h c (.thread t)
  | .scheduleOn _ h c x => handOver place h c (.queue x)
  | .schedulerSuspend _ h x => Function.update place h (.queue x)
  | .finalSuspend _ h .stop => Function.update place h .away
  | .finalSuspend t h (.resume p) => handOver place h p (.thread t)
  | .finalSuspend _ h (.add x p) => handOver place h p (.queue x)
  | .run x h => Function.update place h (.thread (.worker x))
  | _ => place

def next [Inhabited V] (s : Located ε V) (e : Event ε V) : Located ε V where
  frame := e.nextFrame s.frame
  allocated := s.allocated + e.created
  place := nextPlace s.place e

end Located

section Model

variable [DecidableEq ε] [Inhabited V]

/-- The roots are on their threads. -/
def startLocated (roots : List (Body ε V)) : Located ε V where
  frame := (start roots).frame
  allocated := roots.length
  place := fun h => if h < roots.length then .thread (.outer h) else .away

/-- The abstract model. -/
def located (roots : List (Body ε V)) : System (Located ε V) (Event ε V) where
  init := fun s => s = startLocated roots
  guard := Located.guard
  next := Located.next

@[simp] theorem located_next
    (roots : List (Body ε V)) (s : Located ε V) (e : Event ε V) :
    (located roots).next s e = s.next e := by
  rfl

end Model

/-- Coroutine `h` is in `co_await` of the `Task` `c`. -/
def Awaits (frame : Handle → Frame ε V) (h c : Handle) : Prop :=
  (frame h).point.op? = some (.resume c)

/-- Coroutine `h` has ended, or there is no such coroutine. -/
def Ended (frame : Handle → Frame ε V) (h : Handle) : Prop :=
  (frame h).point.op? = none

theorem Ended.not_awaits
    {frame : Handle → Frame ε V} {h : Handle}
    (hh : Ended frame h)
    (c : Handle) :
    ¬ Awaits frame h c := by
  intro hc
  rw [Awaits, hh] at hc
  cases hc

theorem Awaits.unique
    {frame : Handle → Frame ε V} {h c d : Handle}
    (hc : Awaits frame h c)
    (hd : Awaits frame h d) :
    c = d := by
  rw [Awaits, hc] at hd
  simpa using hd

/-- The places that belong to the executor `x`. -/
def Home (x : ε) (p : Place (Thread ε) ε) : Prop :=
  p = .thread (.worker x) ∨ p = .queue x

/-- Who awaits whom, and where. -/
structure Linked (s : Located ε V) : Prop where
  fresh : ∀ h, s.allocated ≤ h → Ended s.frame h
  ended : ∀ h, Ended s.frame h → s.place h = .away
  active : ∀ h, s.place h = .away →
    Ended s.frame h ∨ ∃ c, Awaits s.frame h c
  younger : ∀ h c, Awaits s.frame h c → h < c ∧ c < s.allocated
  continuation : ∀ h c, Awaits s.frame h c →
    (s.frame c).continuation = some h
  waiting : ∀ h c, Awaits s.frame h c →
    (s.place h = .away ↔ ¬ Ended s.frame c)
  awaited : ∀ c h, (s.frame c).continuation = some h →
    ¬ Ended s.frame c → Awaits s.frame h c
  home : ∀ h c x, Awaits s.frame h c → (s.frame c).executor = some x →
    s.place h = .away ∨ Home x (s.place h)

section Points

/-- The coroutine is neither in `co_await` of a `Task` nor ended. -/
structure Point.Active (p : Point ε V) : Prop where
  not_ended : p.op? ≠ none
  not_awaiting : ∀ c, p.op? ≠ some (.resume c)

variable {p : Point ε V}

theorem active_body (b : Body ε V) :
    (Point.body b).Active := by
  cases b <;> constructor <;> simp [Point.op?]

theorem active_final :
    (Point.final : Point ε V).Active := by
  constructor <;> simp [Point.op?]

theorem active_of_op
    {op : Op ε V}
    (hop : p.op? = some op)
    (hne : ∀ c, op ≠ .resume c) :
    p.Active := by
  constructor
  · simp [hop]
  · intro c hc
    rw [hop] at hc
    exact hne c (Option.some.inj hc)

theorem active_resumeWith
    (hop : p.op? ≠ none)
    (v : V) :
    (p.resumeWith v).Active := by
  cases p with
  | body b =>
      cases b <;> exact active_body _
  | awaiting c k =>
      exact active_body (k v)
  | final =>
      exact active_final
  | ended =>
      exact absurd rfl hop

theorem active_afterScheduler
    {x : ε}
    (hop : p.op? = some (.scheduler x)) :
    p.afterScheduler.Active := by
  cases p with
  | body b =>
      cases b with
      | scheduler y k =>
          exact active_body k
      | _ =>
          exact active_body _
  | _ =>
      simp [Point.op?] at hop

/-- The operations that await a new `Task`. -/
def Op.Calls : Op ε V → Prop
  | await => True
  | scheduleOn _ => True
  | _ => False

theorem body_of_calls
    {op : Op ε V}
    (hop : p.op? = some op)
    (hcalls : op.Calls) :
    (∃ b k, p = .body (.await b k)) ∨
      ∃ b x k, p = .body (.scheduleOn b x k) := by
  cases p with
  | body b =>
      cases b with
      | await child k =>
          exact Or.inl ⟨child, k, rfl⟩
      | scheduleOn child x k =>
          exact Or.inr ⟨child, x, k, rfl⟩
      | _ =>
          obtain rfl := Option.some.inj hop
          exact hcalls.elim
  | ended =>
      cases hop
  | _ =>
      obtain rfl := Option.some.inj hop
      exact hcalls.elim

theorem active_child
    {op : Op ε V}
    (hop : p.op? = some op)
    (hcalls : op.Calls) :
    p.child.Active := by
  rcases body_of_calls hop hcalls with ⟨b, k, rfl⟩ | ⟨b, x, k, rfl⟩
  · exact active_body b
  · exact active_body b

theorem op_await
    {op : Op ε V}
    (hop : p.op? = some op)
    (hcalls : op.Calls)
    (c : Handle) :
    (p.await c).op? = some (.resume c) := by
  rcases body_of_calls hop hcalls with ⟨b, k, rfl⟩ | ⟨b, x, k, rfl⟩
  · rfl
  · rfl

end Points

section Steps

variable {s : Located ε V} {h : Handle}

/-- The frames differ at most in how far the coroutine `h` has come. -/
structure Advances
    (frame frame' : Handle → Frame ε V) (h : Handle) : Prop where
  others : ∀ g, g ≠ h → frame' g = frame g
  continuation : (frame' h).continuation = (frame h).continuation
  executor : (frame' h).executor = (frame h).executor

theorem advances_setPoint
    (frame : Handle → Frame ε V) (h : Handle) (p : Point ε V) :
    Advances frame (setPoint frame h p) h where
  others := fun _ hg => Function.update_of_ne hg ..
  continuation := by simp [setPoint]
  executor := by simp [setPoint]

theorem advances_storeValue
    (frame : Handle → Frame ε V) (h : Handle) (v : V) :
    Advances frame (storeValue frame h v) h where
  others := fun _ hg => Function.update_of_ne hg ..
  continuation := by simp [storeValue]
  executor := by simp [storeValue]

theorem Advances.continuation_eq
    {frame frame' : Handle → Frame ε V}
    (hframe : Advances frame frame' h)
    (g : Handle) :
    (frame' g).continuation = (frame g).continuation := by
  by_cases hg : g = h
  · subst hg
    exact hframe.continuation
  · rw [hframe.others g hg]

theorem Advances.executor_eq
    {frame frame' : Handle → Frame ε V}
    (hframe : Advances frame frame' h)
    (g : Handle) :
    (frame' g).executor = (frame g).executor := by
  by_cases hg : g = h
  · subst hg
    exact hframe.executor
  · rw [hframe.others g hg]

theorem Linked.not_ended
    (hs : Linked s)
    (hplace : s.place h ≠ .away) :
    ¬ Ended s.frame h :=
  fun hended => hplace (hs.ended h hended)

theorem Linked.lt_allocated
    (hs : Linked s)
    (hplace : s.place h ≠ .away) :
    h < s.allocated := by
  by_contra hge
  exact hs.not_ended hplace (hs.fresh h (Nat.le_of_not_lt hge))

/-- A coroutine on a thread or in a queue is not waiting for a `Task`. -/
theorem Linked.ended_of_awaits
    (hs : Linked s)
    (hplace : s.place h ≠ .away)
    {c : Handle}
    (hc : Awaits s.frame h c) :
    Ended s.frame c := by
  by_contra hended
  exact hplace ((hs.waiting h c hc).mpr hended)

/-- The coroutine `h` goes on where it is. -/
theorem Linked.advance
    {frame' : Handle → Frame ε V}
    (hs : Linked s)
    (hplace : s.place h ≠ .away)
    (hframe : Advances s.frame frame' h)
    (hactive : (frame' h).point.Active) :
    Linked { s with frame := frame' } := by
  have hne : ∀ g c, Awaits frame' g c → g ≠ h := by
    intro g c hg
    rintro rfl
    exact hactive.not_awaiting c hg
  have hawaits : ∀ g c, Awaits frame' g c → Awaits s.frame g c := by
    intro g c hg
    simpa [Awaits, hframe.others g (hne g c hg)] using hg
  have hended : ∀ g, Ended frame' g ↔ Ended s.frame g := by
    intro g
    by_cases hg : g = h
    · subst hg
      have hlive : ¬ Ended s.frame g := hs.not_ended hplace
      simp only [hlive, iff_false]
      exact hactive.not_ended
    · simp [Ended, hframe.others g hg]
  constructor
  · intro g hg
    exact (hended g).mpr (hs.fresh g hg)
  · intro g hg
    exact hs.ended g ((hended g).mp hg)
  · intro g hg
    have hgh : g ≠ h := by
      rintro rfl
      exact hplace hg
    rcases hs.active g hg with hend | ⟨c, hc⟩
    · exact Or.inl ((hended g).mpr hend)
    · exact Or.inr ⟨c, by simpa [Awaits, hframe.others g hgh] using hc⟩
  · intro g c hg
    exact hs.younger g c (hawaits g c hg)
  · intro g c hg
    rw [hframe.continuation_eq]
    exact hs.continuation g c (hawaits g c hg)
  · intro g c hg
    rw [hended]
    exact hs.waiting g c (hawaits g c hg)
  · intro c g hc hlive
    rw [hframe.continuation_eq] at hc
    rw [hended] at hlive
    have hg := hs.awaited c g hc hlive
    have hgh : g ≠ h := by
      rintro rfl
      exact hlive (hs.ended_of_awaits hplace hg)
    simpa [Awaits, hframe.others g hgh] using hg
  · intro g c x hg hx
    rw [hframe.executor_eq] at hx
    exact hs.home g c x (hawaits g c hg) hx

/-- The coroutine `h` moves between threads and queues. -/
theorem Linked.move
    {p : Place (Thread ε) ε}
    (hs : Linked s)
    (hplace : s.place h ≠ .away)
    (hp : p ≠ .away)
    (hhome : ∀ c x, Awaits s.frame h c → (s.frame c).executor = some x →
      Home x p) :
    Linked { s with place := Function.update s.place h p } := by
  have haway : ∀ g, Function.update s.place h p g = .away ↔
      s.place g = .away := by
    intro g
    by_cases hg : g = h
    · subst hg
      simp [hp, hplace]
    · simp [hg]
  refine
    { fresh := hs.fresh
      ended := fun g hg => (haway g).mpr (hs.ended g hg)
      active := fun g hg => hs.active g ((haway g).mp hg)
      younger := hs.younger
      continuation := hs.continuation
      waiting := fun g c hg => (haway g).trans (hs.waiting g c hg)
      awaited := hs.awaited
      home := ?_ }
  intro g c x hg hx
  by_cases hgh : g = h
  · subst hgh
    right
    simpa using hhome c x hg hx
  · simpa [hgh] using hs.home g c x hg hx

/--
The coroutine `h` ends.  Its continuation `p`, if there is one, is put at a
place that belongs to the executor that `h` has recorded.
-/
theorem Linked.finish
    {frame' : Handle → Frame ε V} {place' : Handle → Place (Thread ε) ε}
    (hs : Linked s)
    (hplace : s.place h ≠ .away)
    (hop : (s.frame h).point.op? = some .suspend)
    (hframe : Advances s.frame frame' h)
    (hend : Ended frame' h)
    (hleft : place' h = .away)
    (hother : ∀ g, g ≠ h → (s.frame h).continuation ≠ some g →
      place' g = s.place g)
    (hback : ∀ p, (s.frame h).continuation = some p →
      place' p ≠ .away ∧
        ∀ x, (s.frame h).executor = some x → Home x (place' p)) :
    Linked { s with frame := frame', place := place' } := by
  have hlive := hs.not_ended hplace
  have hne : ∀ g c, Awaits s.frame g c → g ≠ h := by
    intro g c hg
    rintro rfl
    rw [Awaits, hop] at hg
    cases hg
  have hawaits : ∀ g c, Awaits frame' g c ↔ Awaits s.frame g c := by
    intro g c
    by_cases hg : g = h
    · subst hg
      exact ⟨fun hc => absurd hc (hend.not_awaits c),
        fun hc => absurd rfl (hne g c hc)⟩
    · simp [Awaits, hframe.others g hg]
  have hended : ∀ g, g ≠ h → (Ended frame' g ↔ Ended s.frame g) := by
    intro g hg
    simp [Ended, hframe.others g hg]
  -- Only the coroutine that awaits `h` gets a place, and it had none before.
  have hparent : ∀ p, (s.frame h).continuation = some p → Awaits s.frame p h :=
    fun p hp => hs.awaited h p hp hlive
  have hplace' : ∀ g c, Awaits s.frame g c → c ≠ h →
      place' g = s.place g := by
    intro g c hg hc
    refine hother g (hne g c hg) ?_
    intro hgh
    exact hc (hg.unique (hparent g hgh))
  constructor
  · intro g hg
    by_cases hgh : g = h
    · subst hgh
      exact hend
    · exact (hended g hgh).mpr (hs.fresh g hg)
  · intro g hg
    by_cases hgh : g = h
    · subst hgh
      exact hleft
    · have hg' := (hended g hgh).mp hg
      have hnot : (s.frame h).continuation ≠ some g :=
        fun hp => hg'.not_awaits h (hparent g hp)
      exact (hother g hgh hnot).trans (hs.ended g hg')
  · intro g hg
    by_cases hgh : g = h
    · subst hgh
      exact Or.inl hend
    · have hnot : (s.frame h).continuation ≠ some g :=
        fun hp => (hback g hp).1 hg
      have hold : s.place g = .away := (hother g hgh hnot).symm.trans hg
      rcases hs.active g hold with hg' | ⟨c, hc⟩
      · exact Or.inl ((hended g hgh).mpr hg')
      · exact Or.inr ⟨c, (hawaits g c).mpr hc⟩
  · intro g c hg
    exact hs.younger g c ((hawaits g c).mp hg)
  · intro g c hg
    rw [hframe.continuation_eq]
    exact hs.continuation g c ((hawaits g c).mp hg)
  · intro g c hg
    have hg' := (hawaits g c).mp hg
    by_cases hc : c = h
    · subst hc
      have hg'' := (hback g (hs.continuation g c hg')).1
      simp [hg'', hend]
    · rw [hended c hc, ← hs.waiting g c hg', ← hplace' g c hg' hc]
  · intro c g hc hc'
    rw [hframe.continuation_eq] at hc
    have hch : c ≠ h := by
      rintro rfl
      exact hc' hend
    exact (hawaits g c).mpr
      (hs.awaited c g hc (mt (hended c hch).mpr hc'))
  · intro g c x hg hx
    have hg' := (hawaits g c).mp hg
    rw [hframe.executor_eq] at hx
    by_cases hc : c = h
    · subst hc
      exact Or.inr ((hback g (hs.continuation g c hg')).2 x hx)
    · simpa only [hplace' g c hg' hc] using hs.home g c x hg' hx

/-- The coroutine `h` awaits the new `Task` `c`, which starts at `q`. -/
theorem Linked.call
    {frame' : Handle → Frame ε V} {q : Place (Thread ε) ε} {c : Handle}
    (hs : Linked s)
    (hplace : s.place h ≠ .away)
    (hop : (s.frame h).point.Active)
    (hc : c = s.allocated)
    (hothers : ∀ g, g ≠ h → g ≠ c → frame' g = s.frame g)
    (hcontinuation : (frame' h).continuation = (s.frame h).continuation)
    (hexecutor : (frame' h).executor = (s.frame h).executor)
    (hawaits : Awaits frame' h c)
    (hchild : (frame' c).continuation = some h)
    (hactive : (frame' c).point.Active)
    (hq : q ≠ .away) :
    Linked
      { frame := frame'
        allocated := s.allocated + 1
        place := Located.handOver s.place h c q } := by
  subst hc
  have hlt := hs.lt_allocated hplace
  have hlive := hs.not_ended hplace
  have hframe : ∀ g, g < s.allocated → g ≠ h → frame' g = s.frame g :=
    fun g hg hgh => hothers g hgh (Nat.ne_of_lt hg)
  have hfrom : ∀ g d, Awaits frame' g d →
      g = h ∧ d = s.allocated ∨ g ≠ h ∧ Awaits s.frame g d := by
    intro g d hg
    by_cases hgh : g = h
    · subst hgh
      exact Or.inl ⟨rfl, hg.unique hawaits⟩
    · by_cases hgc : g = s.allocated
      · subst hgc
        exact absurd hg (hactive.not_awaiting d)
      · exact Or.inr ⟨hgh, by simpa [Awaits, hothers g hgh hgc] using hg⟩
  have hended : ∀ g, g < s.allocated → (Ended frame' g ↔ Ended s.frame g) := by
    intro g hg
    by_cases hgh : g = h
    · subst hgh
      have hnot : ¬ Ended frame' g := fun h => h.not_awaits _ hawaits
      simp [hnot, hlive]
    · simp [Ended, hframe g hg hgh]
  have hcont : ∀ g, g < s.allocated →
      (frame' g).continuation = (s.frame g).continuation := by
    intro g hg
    by_cases hgh : g = h
    · subst hgh
      exact hcontinuation
    · rw [hframe g hg hgh]
  have hexec : ∀ g, g < s.allocated →
      (frame' g).executor = (s.frame g).executor := by
    intro g hg
    by_cases hgh : g = h
    · subst hgh
      exact hexecutor
    · rw [hframe g hg hgh]
  have hplace' : ∀ g, g ≠ h → g ≠ s.allocated →
      Located.handOver s.place h s.allocated q g = s.place g := by
    intro g hgh hgc
    simp [Located.handOver, hgh, hgc]
  constructor
  · intro g hg
    have hgc : g ≠ s.allocated := Nat.ne_of_gt hg
    have hgh : g ≠ h := Nat.ne_of_gt (Nat.lt_trans hlt hg)
    have hfresh := hs.fresh g (Nat.le_of_lt hg)
    rwa [Ended, ← hothers g hgh hgc] at hfresh
  · intro g hg
    have hgc : g ≠ s.allocated := by
      rintro rfl
      exact hactive.not_ended hg
    have hgh : g ≠ h := by
      rintro rfl
      exact hg.not_awaits _ hawaits
    refine (hplace' g hgh hgc).trans (hs.ended g ?_)
    simpa [Ended, hothers g hgh hgc] using hg
  · intro g hg
    have hgc : g ≠ s.allocated := by
      rintro rfl
      exact hq (by simpa [Located.handOver] using hg)
    by_cases hgh : g = h
    · subst hgh
      exact Or.inr ⟨_, hawaits⟩
    · have hold : s.place g = .away := (hplace' g hgh hgc).symm.trans hg
      simpa [Ended, Awaits, hothers g hgh hgc] using hs.active g hold
  · intro g d hg
    rcases hfrom g d hg with ⟨rfl, rfl⟩ | ⟨-, hg'⟩
    · exact ⟨hlt, Nat.lt_succ_self _⟩
    · obtain ⟨hgd, hd⟩ := hs.younger g d hg'
      exact ⟨hgd, Nat.lt_succ_of_lt hd⟩
  · intro g d hg
    rcases hfrom g d hg with ⟨rfl, rfl⟩ | ⟨-, hg'⟩
    · exact hchild
    · exact (hcont d (hs.younger g d hg').2).trans (hs.continuation g d hg')
  · intro g d hg
    rcases hfrom g d hg with ⟨rfl, rfl⟩ | ⟨hgh, hg'⟩
    · have haway : Located.handOver s.place g s.allocated q g = .away := by
        simp [Located.handOver, Nat.ne_of_lt hlt]
      have hnot : ¬ Ended frame' s.allocated := hactive.not_ended
      simp [haway, hnot]
    · obtain ⟨hgd, hd⟩ := hs.younger g d hg'
      have hplace := hplace' g hgh (Nat.ne_of_lt (Nat.lt_trans hgd hd))
      simpa only [hplace, hended d hd] using hs.waiting g d hg'
  · intro d g hd hd'
    rcases Nat.lt_trichotomy d s.allocated with hlt' | rfl | hgt
    · have hg := hs.awaited d g ((hcont d hlt').symm.trans hd)
        (mt (hended d hlt').mpr hd')
      have hgh : g ≠ h := by
        rintro rfl
        exact hop.not_awaiting d hg
      have hgd := (hs.younger g d hg).1
      simpa [Awaits, hframe g (Nat.lt_trans hgd hlt') hgh] using hg
    · obtain rfl : h = g := by simpa [hchild] using hd
      exact hawaits
    · have hdh : d ≠ h := Nat.ne_of_gt (Nat.lt_trans hlt hgt)
      have hfresh := hs.fresh d (Nat.le_of_lt hgt)
      rw [Ended, ← hothers d hdh (Nat.ne_of_gt hgt)] at hfresh
      exact absurd hfresh hd'
  · intro g d x hg hx
    rcases hfrom g d hg with ⟨rfl, rfl⟩ | ⟨hgh, hg'⟩
    · left
      simp [Located.handOver, Nat.ne_of_lt hlt]
    · obtain ⟨hgd, hd⟩ := hs.younger g d hg'
      have hplace := hplace' g hgh (Nat.ne_of_lt (Nat.lt_trans hgd hd))
      simpa only [hplace] using hs.home g d x hg' ((hexec d hd).symm.trans hx)

end Steps

section Invariant

/-- What `final_suspend` decides, and why. -/
theorem finalSuspend_cases [DecidableEq ε] (f : Frame ε V) (current : Option ε) :
    (f.continuation = none ∧ f.finalSuspend current = .stop) ∨
    (∃ p, f.continuation = some p ∧ f.finalSuspend current = .resume p ∧
      ∀ x, f.executor = some x → current = some x) ∨
    ∃ p x, f.continuation = some p ∧ f.finalSuspend current = .add x p ∧
      f.executor = some x := by
  cases hp : f.continuation with
  | none =>
      left
      simp [Frame.finalSuspend, hp]
  | some p =>
      right
      cases hx : f.executor with
      | none =>
          left
          exact ⟨p, rfl, by simp [Frame.finalSuspend, hp, hx], by simp⟩
      | some x =>
          by_cases hcurrent : current = some x
          · left
            refine ⟨p, rfl, ?_, ?_⟩
            · simp [Frame.finalSuspend, hp, hx, hcurrent]
            · simp [hcurrent]
          · right
            exact ⟨p, x, rfl, by simp [Frame.finalSuspend, hp, hx, hcurrent],
              rfl⟩

variable {s : Located ε V}

theorem Linked.callTask
    [Inhabited V]
    {h c : Handle} {op : Op ε V} {q : Place (Thread ε) ε}
    (hs : Linked s)
    (hplace : s.place h ≠ .away)
    (hop : (s.frame h).point.op? = some op)
    (hcalls : op.Calls)
    (hc : c = s.allocated)
    (hq : q ≠ .away)
    (current : Option ε) :
    Linked
      { frame := callTask s.frame h c current
        allocated := s.allocated + 1
        place := Located.handOver s.place h c q } := by
  have hch : h ≠ c := by
    rintro rfl
    have hlt := hs.lt_allocated hplace
    rw [← hc] at hlt
    exact Nat.lt_irrefl h hlt
  have hactive : (s.frame h).point.Active := by
    refine active_of_op hop ?_
    rintro d rfl
    exact hcalls.elim
  refine hs.call hplace hactive hc ?_ ?_ ?_ ?_ ?_ ?_ hq
  · intro g hgh hgc
    simp [Task.callTask, setPoint, hgh, hgc]
  · simp [Task.callTask, setPoint, hch]
  · simp [Task.callTask, setPoint, hch]
  · simpa [Awaits, Task.callTask, setPoint, hch] using op_await hop hcalls c
  · simp [Task.callTask, Frame.setContinuation]
  · simpa [Task.callTask, Frame.setContinuation, Frame.new] using
      active_child hop hcalls

/-- An ended coroutine hands its place over to its continuation. -/
theorem Linked.handOver
    {h p : Handle} {q : Place (Thread ε) ε}
    (hs : Linked s)
    (hplace : s.place h ≠ .away)
    (hop : (s.frame h).point.op? = some .suspend)
    (hp : (s.frame h).continuation = some p)
    (hq : q ≠ .away)
    (hhome : ∀ x, (s.frame h).executor = some x → Home x q) :
    Linked
      { s with
        frame := setPoint s.frame h .ended
        place := Located.handOver s.place h p q } := by
  have hne : p ≠ h := by
    rintro rfl
    have hp' := hs.awaited p p hp (hs.not_ended hplace)
    exact Nat.lt_irrefl p (hs.younger p p hp').1
  refine hs.finish hplace hop (advances_setPoint ..) ?_ ?_ ?_ ?_
  · simp [Ended, setPoint, Point.op?]
  · simp [Located.handOver, hne.symm]
  · intro g hg hgp
    have hgp' : g ≠ p := by
      rintro rfl
      exact hgp hp
    simp [Located.handOver, hg, hgp']
  · intro g hg
    obtain rfl : p = g := by simpa [hp] using hg
    simpa [Located.handOver, hq] using hhome

variable [DecidableEq ε] [Inhabited V]

theorem Linked.next
    {e : Event ε V}
    (hs : Linked s)
    (hguard : Located.guard s e) :
    Linked (s.next e) := by
  cases e with
  | act t h v =>
      obtain ⟨hplace, hop⟩ : s.At t h .act := hguard
      refine hs.advance (by simp [hplace]) (advances_setPoint ..) ?_
      have hactive := active_resumeWith (p := (s.frame h).point)
        (by simp [hop]) v
      simpa [Event.nextFrame, setPoint] using hactive
  | await t h c =>
      obtain ⟨⟨hplace, hop⟩, hc⟩ := hguard
      exact hs.callTask (by simp [hplace]) hop (by trivial) hc (by simp) _
  | scheduleOn t h c x =>
      obtain ⟨⟨hplace, hop⟩, hc⟩ := hguard
      exact hs.callTask (by simp [hplace]) hop (by trivial) hc (by simp) _
  | schedulerReady t h x =>
      obtain ⟨⟨hplace, hop⟩, -⟩ := hguard
      refine hs.advance (by simp [hplace]) (advances_setPoint ..) ?_
      simpa [Event.nextFrame, setPoint] using active_afterScheduler hop
  | schedulerSuspend t h x =>
      obtain ⟨⟨hplace, hop⟩, -⟩ := hguard
      have hactive := active_afterScheduler hop
      have hmoved := hs.advance (by simp [hplace])
        (advances_setPoint s.frame h (s.frame h).point.afterScheduler)
        (by simpa [setPoint] using hactive)
      refine hmoved.move (by simp [hplace]) (by simp) ?_
      intro c y hc
      exact absurd hc (by simpa [Awaits, setPoint] using hactive.not_awaiting c)
  | resume t h c v =>
      obtain ⟨⟨hplace, hop⟩, -⟩ := hguard
      refine hs.advance (by simp [hplace]) (advances_setPoint ..) ?_
      have hactive := active_resumeWith (p := (s.frame h).point)
        (by simp [hop]) v
      simpa [Event.nextFrame, setPoint] using hactive
  | finish t h v =>
      obtain ⟨hplace, hop⟩ : s.At t h (.finish v) := hguard
      refine hs.advance (by simp [hplace]) (advances_storeValue ..) ?_
      simpa [Event.nextFrame, storeValue] using active_final
  | finalSuspend t h o =>
      obtain ⟨⟨hplace, hop⟩, ho⟩ := hguard
      rcases finalSuspend_cases (s.frame h) t.current with
        ⟨hp, hstop⟩ | ⟨p, hp, hresume, hcurrent⟩ | ⟨p, x, hp, hadd, hx⟩
      · rw [hstop] at ho
        subst ho
        refine hs.finish (by simp [hplace]) hop (advances_setPoint ..)
          ?_ ?_ ?_ ?_
        · simp [Ended, Event.nextFrame, setPoint, Point.op?]
        · simp [Located.nextPlace]
        · intro g hg _
          simp [Located.nextPlace, hg]
        · simp [hp]
      · rw [hresume] at ho
        subst ho
        refine hs.handOver (by simp [hplace]) hop hp (by simp) ?_
        intro x hx
        left
        simpa using hcurrent x hx
      · rw [hadd] at ho
        subst ho
        refine hs.handOver (by simp [hplace]) hop hp (by simp) ?_
        intro y hy
        obtain rfl : x = y := by simpa [hx] using hy
        right
        rfl
  | run x h =>
      have hplace : s.place h = .queue x := hguard
      refine hs.move (by simp [hplace]) (by simp) ?_
      intro c y hc hy
      rcases hs.home h c y hc hy with haway | hthread | hqueue
      · simp [hplace] at haway
      · simp [hplace] at hthread
      · left
        simpa [hplace] using hqueue

theorem linked_of_reachable
    {roots : List (Body ε V)}
    (hs : (located roots).Reachable s) :
    Linked s := by
  refine hs.invariant (I := fun s => Linked s) ?_ ?_
  · intro s hinit
    subst hinit
    have hpoint : ∀ h, h < roots.length ↔
        ¬ Ended (startLocated roots).frame h := by
      intro h
      by_cases hlt : h < roots.length
      · simpa [hlt, startLocated, start, Ended, Frame.new] using
          (active_body roots[h]).not_ended
      · simp [hlt, startLocated, start, Ended, Frame.new, Point.op?]
    have hawaits : ∀ h c, ¬ Awaits (startLocated roots).frame h c := by
      intro h c
      by_cases hlt : h < roots.length
      · simpa [hlt, startLocated, start, Awaits, Frame.new] using
          (active_body roots[h]).not_awaiting c
      · simp [hlt, startLocated, start, Awaits, Frame.new, Point.op?]
    constructor
    · intro h hge
      by_contra hlive
      exact absurd ((hpoint h).mpr hlive) (Nat.not_lt.mpr hge)
    · intro h hend
      have hge : ¬ h < roots.length := fun hlt => (hpoint h).mp hlt hend
      simp [startLocated, hge]
    · intro h haway
      left
      by_contra hlive
      simp [startLocated, (hpoint h).mpr hlive] at haway
    · intro h c hc
      exact absurd hc (hawaits h c)
    · intro h c hc
      exact absurd hc (hawaits h c)
    · intro h c hc
      exact absurd hc (hawaits h c)
    · intro c h hc
      simp [startLocated, start, Frame.new] at hc
    · intro h c x hc
      exact absurd hc (hawaits h c)
  · intro s e hs hguard
    exact hs.next hguard

end Invariant

section Refinement

/-- The slots and queues hold the coroutines where their places say. -/
structure Refines (s : State ε V) (a : Located ε V) : Prop where
  frame : a.frame = s.frame
  allocated : a.allocated = s.allocated
  placed : Placed s.slots a.place

variable {s : State ε V} {a : Located ε V}

theorem Refines.at
    {t : Thread ε} {h : Handle} {op : Op ε V}
    (hR : Refines s a)
    (hat : Event.At s t h op) :
    a.At t h op := by
  refine ⟨(hR.placed.running t h).mp hat.1, ?_⟩
  rw [hR.frame]
  exact hat.2

variable [DecidableEq ε] [Inhabited V]

/-- A step that matches the same step of the abstract model. -/
theorem Refines.next
    {e : Event ε V}
    (hR : Refines s a)
    (hplaced : Placed (e.nextSlots s.slots) (Located.nextPlace a.place e)) :
    Refines (e.next s) (a.next e) where
  frame := congrArg e.nextFrame hR.frame
  allocated := congrArg (fun n => n + e.created) hR.allocated
  placed := hplaced

theorem refines_step
    {e : Event ε V}
    (ha : Linked a)
    (hR : Refines s a)
    (hguard : e.guard s) :
    Located.guard a e ∧ Refines (e.next s) (a.next e) := by
  have haway : ∀ h, a.allocated ≤ h → a.place h = .away := fun h hh =>
    ha.ended h (ha.fresh h hh)
  cases e with
  | act t h v =>
      exact ⟨hR.at hguard, hR.next hR.placed⟩
  | await t h c =>
      obtain ⟨hat, hc⟩ := hguard
      rw [← hR.allocated] at hc
      refine ⟨⟨hR.at hat, hc⟩, hR.next ?_⟩
      exact hR.placed.replace (hR.at hat).1 (haway c (Nat.le_of_eq hc.symm))
  | scheduleOn t h c x =>
      obtain ⟨hat, hc⟩ := hguard
      rw [← hR.allocated] at hc
      refine ⟨⟨hR.at hat, hc⟩, hR.next ?_⟩
      refine (hR.placed.vacate (hR.at hat).1).push ?_
      have hc' := haway c (Nat.le_of_eq hc.symm)
      by_cases hch : c = h
      · simp [hch]
      · simpa [hch] using hc'
  | schedulerReady t h x =>
      exact ⟨⟨hR.at hguard.1, hguard.2⟩, hR.next hR.placed⟩
  | schedulerSuspend t h x =>
      refine ⟨⟨hR.at hguard.1, hguard.2⟩, hR.next ?_⟩
      exact hR.placed.requeue (hR.at hguard.1).1
  | resume t h c v =>
      refine ⟨⟨hR.at hguard.1, ?_⟩, hR.next hR.placed⟩
      rw [hR.frame]
      exact hguard.2
  | finish t h v =>
      exact ⟨hR.at hguard, hR.next hR.placed⟩
  | finalSuspend t h o =>
      obtain ⟨hat, ho⟩ := hguard
      obtain ⟨hplace, hop⟩ := hR.at hat
      have hlive := ha.not_ended (h := h) (by simp [hplace])
      have hwaits : ∀ p, (a.frame h).continuation = some p →
          a.place p = .away := by
        intro p hp
        exact (ha.waiting p h (ha.awaited h p hp hlive)).mpr hlive
      rw [← hR.frame] at ho
      refine ⟨⟨⟨hplace, hop⟩, ho⟩, hR.next ?_⟩
      rcases finalSuspend_cases (a.frame h) t.current with
        ⟨hp, hstop⟩ | ⟨p, hp, hresume, -⟩ | ⟨p, x, hp, hadd, -⟩
      · rw [hstop] at ho
        subst ho
        exact hR.placed.vacate hplace
      · rw [hresume] at ho
        subst ho
        exact hR.placed.replace hplace (hwaits p hp)
      · rw [hadd] at ho
        subst ho
        refine (hR.placed.vacate hplace).push ?_
        by_cases hph : p = h
        · simp [hph]
        · simpa [hph] using hwaits p hp
  | run x h =>
      obtain ⟨hidle, hhead⟩ := hguard
      have hmem : h ∈ s.slots.queue x := List.mem_of_head? hhead
      refine ⟨(hR.placed.queued x h).mp hmem, hR.next ?_⟩
      exact hR.placed.take hidle hhead

omit [DecidableEq ε] in
/-- The roots are placed on their threads. -/
theorem refines_start (roots : List (Body ε V)) :
    Refines (start roots) (startLocated roots) where
  frame := rfl
  allocated := rfl
  placed := by
    constructor
    · intro t h
      cases t with
      | outer i =>
          by_cases hi : i < roots.length
          · by_cases hh : h < roots.length
            · simp [start, startLocated, hi, hh, eq_comm]
            · have hne : i ≠ h := by
                rintro rfl
                exact hh hi
              simp [start, startLocated, hi, hh, hne]
          · by_cases hh : h < roots.length
            · have hne : h ≠ i := by
                rintro rfl
                exact hi hh
              simp [start, startLocated, hi, hh, hne]
            · simp [start, startLocated, hi, hh]
      | worker x =>
          by_cases hh : h < roots.length <;>
            simp [start, startLocated, hh]
    · intro x h
      by_cases hh : h < roots.length <;>
        simp [start, startLocated, hh]
    · intro x
      simp [start]

/-- Tasks on executors refine the model in which every coroutine has a place. -/
theorem simulation (roots : List (Body ε V)) :
    System.Simulation (tasks roots) (located roots) Refines some where
  init := by
    intro s hinit
    subst hinit
    exact ⟨_, rfl, refines_start roots⟩
  silent := by
    intro s a e _ _ _ _ hlabel
    cases hlabel
  step := by
    intro s a e f _ ha hR hguard hlabel
    obtain rfl := Option.some.inj hlabel
    exact refines_step (linked_of_reachable ha) hR hguard

end Refinement

end Task
end Ptl

import Ptl.TaskTermination

/-!
# Continuations return to their executor

What the trace of a run says about the tasks, proved of the abstract model of
`TaskPlaces` and carried over to `tasks`.

**Results.**
* `recorded_of_run`: a `Task` records who awaits it and on which executor, and
  the coroutine that awaits it resumes there.
* `counted_of_run`, `finished_of_run`: it resumes once, and after the `Task` has
  finished.
* `homed_of_run`: after `co_await SchedulerAwaitable{x}` a coroutine only runs
  on `x`.
-/

namespace Ptl
namespace Task

open Transition Placement

universe u v

variable {ε : Type u} {V : Type v}

section Traces

/-- The awaits and the resumptions of a run. -/
def awaits (tr : List (Event ε V)) : List (Thread ε × Handle × Handle) :=
  tr.filterMap Event.awaits?

def resumptions (tr : List (Event ε V)) : List (Thread ε × Handle × Handle) :=
  tr.filterMap Event.resumes?

/-- How often the coroutine `h` has resumed after awaiting the `Task` `c`. -/
def resumed (tr : List (Event ε V)) (h c : Handle) : Nat :=
  ((resumptions tr).filter fun r => r.2 = (h, c)).length

variable [DecidableEq ε] [Inhabited V]
variable {roots : List (Body ε V)}
variable {tr : List (Event ε V)} {a : Located ε V}

omit [DecidableEq ε] [Inhabited V] in
theorem mem_awaits_append
    {e : Event ε V} {r : Thread ε × Handle × Handle} :
    r ∈ awaits (tr ++ [e]) ↔ r ∈ awaits tr ∨ e.awaits? = some r := by
  simp [awaits]

omit [DecidableEq ε] [Inhabited V] in
theorem mem_resumptions_append
    {e : Event ε V} {r : Thread ε × Handle × Handle} :
    r ∈ resumptions (tr ++ [e]) ↔
      r ∈ resumptions tr ∨ e.resumes? = some r := by
  simp [resumptions]

/-- What a `Task` has recorded about the await that started it. -/
structure Recorded
    (tr : List (Event ε V)) (a : Located ε V) : Prop where
  awaited : ∀ t h c, (t, h, c) ∈ awaits tr →
    c < a.allocated ∧ (a.frame c).continuation = some h ∧
      (a.frame c).executor = t.current
  resumed : ∀ t h c, (t, h, c) ∈ resumptions tr →
    c < a.allocated ∧ ∀ x, (a.frame c).executor = some x → t = .worker x

theorem recorded_of_run
    (hrun : (located roots).Run tr a) :
    Recorded tr a := by
  refine hrun.invariant (I := Recorded) ?_ ?_
  · intro a _
    constructor <;> simp [awaits, resumptions]
  · intro tr a e hrun ih hguard
    have ha := linked_of_reachable ⟨tr, hrun⟩
    have hkeep : ∀ c, c < a.allocated → c < (a.next e).allocated :=
      fun c hc => Nat.lt_of_lt_of_le hc (Nat.le_add_right _ _)
    constructor
    · intro t h c hmem
      rcases mem_awaits_append.mp hmem with hold | hnew
      · obtain ⟨hc, hcont, hexec⟩ := ih.awaited t h c hold
        obtain ⟨hcont', hexec'⟩ := next_recorded hguard hc
        exact ⟨hkeep c hc, hcont'.trans hcont, hexec'.trans hexec⟩
      · cases e with
        | await t' h' c' =>
            simp only [Event.awaits?, Option.some.injEq, Prod.mk.injEq] at hnew
            obtain ⟨rfl, rfl, rfl⟩ := hnew
            refine ⟨?_, by simp [Event.nextFrame, Located.next, callTask,
              Frame.setContinuation]⟩
            rw [hguard.2]
            exact Nat.lt_succ_self _
        | scheduleOn t' h' c' x =>
            simp only [Event.awaits?, Option.some.injEq, Prod.mk.injEq] at hnew
            obtain ⟨rfl, rfl, rfl⟩ := hnew
            refine ⟨?_, by simp [Event.nextFrame, Located.next, callTask,
              Frame.setContinuation]⟩
            rw [hguard.2]
            exact Nat.lt_succ_self _
        | _ =>
            simp [Event.awaits?] at hnew
    · intro t h c hmem
      rcases mem_resumptions_append.mp hmem with hold | hnew
      · obtain ⟨hc, hexec⟩ := ih.resumed t h c hold
        obtain ⟨-, hexec'⟩ := next_recorded hguard hc
        exact ⟨hkeep c hc, fun x hx => hexec x (hexec'.symm.trans hx)⟩
      · cases e with
        | resume t' h' c' v =>
            simp only [Event.resumes?, Option.some.injEq, Prod.mk.injEq] at hnew
            obtain ⟨rfl, rfl, rfl⟩ := hnew
            have hop := hguard.1.2
            have hplace := hguard.1.1
            have hc := (ha.younger h' c' hop).2
            have hrecorded := (next_recorded (a := a)
              (e := .resume t' h' c' v) hguard hc).2
            refine ⟨hkeep c' hc, ?_⟩
            intro x hx
            have hx' : (a.frame c').executor = some x := by
              rw [← hx]
              exact hrecorded.symm
            rcases ha.home h' c' x hop hx' with haway | hthread | hqueue
            · simp [hplace] at haway
            · simpa [hplace] using hthread
            · simp [hplace] at hqueue
        | _ =>
            simp [Event.resumes?] at hnew

omit [DecidableEq ε] [Inhabited V] in
theorem resumed_append (e : Event ε V) (h c : Handle) :
    resumed (tr ++ [e]) h c =
      resumed tr h c +
        if e.resumes?.map Prod.snd = some (h, c) then 1 else 0 := by
  rw [resumed, resumptions, filterMap_append_singleton, ← resumptions,
    List.filter_append, List.length_append, ← resumed]
  cases hr : e.resumes? with
  | none =>
      simp
  | some r =>
      by_cases heq : r.2 = (h, c) <;> simp [heq]

/-- A coroutine that has awaited a `Task` waits for it or has resumed once. -/
structure Counted
    (tr : List (Event ε V)) (a : Located ε V) : Prop where
  once : ∀ h c, resumed tr h c ≤ 1
  unborn : ∀ h c, a.allocated ≤ c → resumed tr h c = 0
  pending : ∀ h c, Awaits a.frame h c → resumed tr h c = 0
  passed : ∀ t h c, (t, h, c) ∈ awaits tr →
    Awaits a.frame h c ∨ resumed tr h c = 1

theorem Counted.resume
    {t : Thread ε} {h c : Handle} {v : V}
    (ih : Counted tr a)
    (ha : Linked a)
    (hguard : Located.guard a (.resume t h c v)) :
    Counted (tr ++ [.resume t h c v]) (a.next (.resume t h c v)) := by
  have hawaits : Awaits a.frame h c := hguard.1.2
  have hzero := ih.pending h c hawaits
  have hcount : ∀ g d, resumed (tr ++ [.resume t h c v]) g d =
      resumed tr g d + if (h, c) = (g, d) then 1 else 0 := by
    intro g d
    simp [resumed_append, Event.resumes?]
  constructor
  · intro g d
    rw [hcount]
    by_cases heq : (h, c) = (g, d)
    · simp only [Prod.mk.injEq] at heq
      obtain ⟨rfl, rfl⟩ := heq
      simp [hzero]
    · simpa [heq] using ih.once g d
  · intro g d hd
    have hd' : a.allocated ≤ d := hd
    have hne : ¬ (h, c) = (g, d) := by
      intro heq
      simp only [Prod.mk.injEq] at heq
      obtain ⟨rfl, rfl⟩ := heq
      exact absurd (ha.younger h c hawaits).2 (Nat.not_lt.mpr hd')
    rw [hcount, if_neg hne, ih.unborn g d hd']
  · intro g d hg
    rcases awaits_of_next ha hguard hg with ⟨hold, hne⟩ | ⟨t', ht'⟩
    · have hne' : ¬ (h, c) = (g, d) := by
        intro heq
        simp only [Prod.mk.injEq] at heq
        obtain ⟨rfl, rfl⟩ := heq
        exact hne t rfl
      rw [hcount, if_neg hne', ih.pending g d hold]
    · simp [Event.awaits?] at ht'
  · intro t' g d hmem
    have hold : (t', g, d) ∈ awaits tr := by
      simpa [mem_awaits_append, Event.awaits?] using hmem
    rw [hcount]
    by_cases heq : (h, c) = (g, d)
    · simp only [Prod.mk.injEq] at heq
      obtain ⟨rfl, rfl⟩ := heq
      right
      simp [hzero]
    · rw [if_neg heq]
      rcases ih.passed t' g d hold with hg | hone
      · rcases awaits_next ha hguard hg with hg' | ⟨t'', v', he⟩
        · exact Or.inl hg'
        · simp only [Event.resume.injEq] at he
          exact absurd (by simp [he.2.1, he.2.2.1]) heq
      · exact Or.inr hone

/-- Steps that resume nobody keep the counts. -/
theorem Counted.of_same
    {e : Event ε V}
    (ih : Counted tr a)
    (ha : Linked a)
    (hguard : Located.guard a e)
    (he : e.resumes? = none) :
    Counted (tr ++ [e]) (a.next e) := by
  have hcount : ∀ g d, resumed (tr ++ [e]) g d = resumed tr g d := by
    intro g d
    simp [resumed_append, he]
  constructor
  · intro g d
    rw [hcount]
    exact ih.once g d
  · intro g d hd
    rw [hcount]
    exact ih.unborn g d (Nat.le_trans (Nat.le_add_right _ _) hd)
  · intro g d hg
    rw [hcount]
    rcases awaits_of_next ha hguard hg with ⟨hold, -⟩ | ⟨t, ht⟩
    · exact ih.pending g d hold
    · obtain ⟨-, rfl⟩ := awaits_of_awaits? ha hguard ht
      exact ih.unborn g _ (Nat.le_refl _)
  · intro t g d hmem
    rw [hcount]
    rcases mem_awaits_append.mp hmem with hold | hnew
    · rcases ih.passed t g d hold with hg | hone
      · rcases awaits_next ha hguard hg with hg' | ⟨t', v, rfl⟩
        · exact Or.inl hg'
        · simp [Event.resumes?] at he
      · exact Or.inr hone
    · exact Or.inl (awaits_of_awaits? ha hguard hnew).1

theorem counted_of_run
    (hrun : (located roots).Run tr a) :
    Counted tr a := by
  refine hrun.invariant (I := Counted) ?_ ?_
  · intro a hinit
    subst hinit
    constructor
    · simp [resumed, resumptions]
    · simp [resumed, resumptions]
    · simp [resumed, resumptions]
    · simp [awaits]
  · intro tr a e hrun ih hguard
    have ha := linked_of_reachable ⟨tr, hrun⟩
    cases e with
    | resume t h c v =>
        exact ih.resume ha hguard
    | _ =>
        exact ih.of_same ha hguard rfl

/-- The coroutine has reached `final_suspend`. -/
def Point.Done : Point ε V → Prop
  | final => True
  | ended => True
  | _ => False

omit [DecidableEq ε] [Inhabited V] in
theorem not_done_resumeWith
    {p : Point ε V} {op : Op ε V}
    (hop : p.op? = some op)
    (hvalue : op = .act ∨ ∃ c, op = .resume c)
    (v : V) :
    ¬ (p.resumeWith v).Done := by
  cases p with
  | body b =>
      cases b <;> simp [Point.resumeWith, Point.Done]
  | awaiting c k =>
      simp [Point.resumeWith, Point.Done]
  | final =>
      obtain rfl := Option.some.inj hop
      simp at hvalue
  | ended =>
      cases hop

omit [DecidableEq ε] [Inhabited V] in
theorem not_done_afterScheduler
    {p : Point ε V} {x : ε}
    (hop : p.op? = some (.scheduler x)) :
    ¬ p.afterScheduler.Done := by
  cases p with
  | body b =>
      cases b <;> simp [Point.afterScheduler, Point.Done]
  | awaiting c k =>
      simp [Point.afterScheduler, Point.Done]
  | _ =>
      simp [Point.op?] at hop

omit [DecidableEq ε] [Inhabited V] in
theorem not_done_of_calls
    {p : Point ε V} {op : Op ε V}
    (hop : p.op? = some op)
    (hcalls : op.Calls)
    (c : Handle) :
    ¬ p.child.Done ∧ ¬ (p.await c).Done := by
  rcases body_of_calls hop hcalls with ⟨b, k, rfl⟩ | ⟨b, x, k, rfl⟩
  · exact ⟨id, id⟩
  · exact ⟨id, id⟩

omit [DecidableEq ε] [Inhabited V] in
theorem done_of_op
    {p : Point ε V}
    (hop : p.op? = some .suspend ∨ p.op? = none) :
    p.Done := by
  cases p with
  | body b =>
      cases b <;> simp [Point.op?] at hop
  | awaiting c k =>
      simp [Point.op?] at hop
  | final =>
      trivial
  | ended =>
      trivial

omit [DecidableEq ε] in
theorem not_done_callTask
    {frame : Handle → Frame ε V} {h c g : Handle} {op : Op ε V}
    (hop : (frame h).point.op? = some op)
    (hcalls : op.Calls)
    (current : Option ε)
    (hg : g = h ∨ g = c) :
    ¬ (callTask frame h c current g).point.Done := by
  obtain ⟨hchild, hawait⟩ := not_done_of_calls hop hcalls c
  by_cases hgc : g = c
  · subst hgc
    simpa [callTask, Frame.setContinuation, Frame.new] using hchild
  · obtain rfl : g = h := hg.resolve_right hgc
    simpa [callTask, setPoint, hgc] using hawait

/-- Steps after which a coroutine is done leave its value, or store it. -/
theorem done_of_next
    {e : Event ε V} {c : Handle}
    (hguard : Located.guard a e)
    (hc : c < (a.next e).allocated)
    (hdone : ((a.next e).frame c).point.Done) :
    (c < a.allocated ∧ (a.frame c).point.Done ∧
        ((a.next e).frame c).value = (a.frame c).value) ∨
      ∃ t, e = .finish t c ((a.next e).frame c).value := by
  by_cases hne : c = e.coroutine
  · subst hne
    cases e with
    | act t h v =>
        have hop := (show a.At t h .act from hguard).2
        refine absurd hdone ?_
        simpa [Located.next, Event.nextFrame, Event.coroutine, setPoint] using
          not_done_resumeWith hop (Or.inl rfl) v
    | resume t h d v =>
        refine absurd hdone ?_
        simpa [Located.next, Event.nextFrame, Event.coroutine, setPoint] using
          not_done_resumeWith hguard.1.2 (Or.inr ⟨d, rfl⟩) v
    | schedulerReady t h x =>
        refine absurd hdone ?_
        simpa [Located.next, Event.nextFrame, Event.coroutine, setPoint] using
          not_done_afterScheduler hguard.1.2
    | schedulerSuspend t h x =>
        refine absurd hdone ?_
        simpa [Located.next, Event.nextFrame, Event.coroutine, setPoint] using
          not_done_afterScheduler hguard.1.2
    | await t h d =>
        exact absurd hdone
          (not_done_callTask hguard.1.2 (by trivial) _ (Or.inl rfl))
    | scheduleOn t h d x =>
        exact absurd hdone
          (not_done_callTask hguard.1.2 (by trivial) _ (Or.inl rfl))
    | finish t h v =>
        right
        exact ⟨t, by simp [Located.next, Event.nextFrame, Event.coroutine,
          storeValue]⟩
    | finalSuspend t h o =>
        left
        refine ⟨hc, done_of_op (Or.inl hguard.1.2), ?_⟩
        simp [Located.next, Event.nextFrame, Event.coroutine, setPoint]
    | run x h =>
        exact Or.inl ⟨hc, hdone, rfl⟩
  · left
    by_cases hlt : c < a.allocated
    · rw [next_frame_of_ne hguard hlt hne] at hdone ⊢
      exact ⟨hlt, hdone, rfl⟩
    · cases e with
      | await t h d =>
          have hd : c = d := by
            rw [hguard.2]
            exact Nat.le_antisymm (Nat.lt_succ_iff.mp hc) (Nat.not_lt.mp hlt)
          exact absurd hdone
            (not_done_callTask hguard.1.2 (by trivial) _ (Or.inr hd))
      | scheduleOn t h d x =>
          have hd : c = d := by
            rw [hguard.2]
            exact Nat.le_antisymm (Nat.lt_succ_iff.mp hc) (Nat.not_lt.mp hlt)
          exact absurd hdone
            (not_done_callTask hguard.1.2 (by trivial) _ (Or.inr hd))
      | _ =>
          exact absurd hc hlt

/-- A coroutine that is done has stored the value it finished with. -/
theorem finished_of_run
    {c : Handle}
    (hrun : (located roots).Run tr a)
    (hc : c < a.allocated)
    (hdone : (a.frame c).point.Done) :
    ∃ t, .finish t c (a.frame c).value ∈ tr := by
  refine hrun.invariant
    (I := fun tr a => c < a.allocated → (a.frame c).point.Done →
      ∃ t, .finish t c (a.frame c).value ∈ tr) ?_ ?_ hc hdone
  · intro a hinit hc hdone
    subst hinit
    have hlt : c < roots.length := hc
    simp [startLocated, start, Frame.new, hlt, Point.Done] at hdone
  · intro tr a e _ ih hguard hc hdone
    rcases done_of_next (a := a) hguard hc hdone with
      ⟨hlt, hold, hvalue⟩ | ⟨t, ht⟩
    · obtain ⟨t, ht⟩ := ih hlt hold
      refine ⟨t, List.mem_append_left _ ?_⟩
      rwa [located_next, hvalue]
    · exact ⟨t, by rw [ht]; simp [ht.symm]⟩

/-- The executor of the last `co_await SchedulerAwaitable` of `h`. -/
def lastHop (tr : List (Event ε V)) (h : Handle) : Option ε :=
  (tr.filterMap (Event.hops? h)).getLast?

omit [DecidableEq ε] [Inhabited V] in
theorem lastHop_append (e : Event ε V) (h : Handle) :
    lastHop (tr ++ [e]) h = (e.hops? h).or (lastHop tr h) := by
  rw [lastHop, filterMap_append_singleton, List.getLast?_append, ← lastHop]
  cases e.hops? h <;> rfl

/-- The coroutine is on the executor `x`, or will be put there again. -/
structure HomedOn (x : ε) (a : Located ε V) (h : Handle) : Prop where
  lt : h < a.allocated
  place : a.place h = .away ∨ Home x (a.place h)
  executor : ∀ c, Awaits a.frame h c → (a.frame c).executor = some x

omit [DecidableEq ε] [Inhabited V] in
/-- On a thread, such a coroutine finds `Executor::current` to be `x`. -/
theorem HomedOn.current
    {x : ε} {h : Handle} {t : Thread ε}
    (hh : HomedOn x a h)
    (ht : a.place h = .thread t) :
    t = .worker x := by
  rcases hh.place with haway | hthread | hqueue
  · simp [ht] at haway
  · simpa [ht] using hthread
  · simp [ht] at hqueue

/-- A coroutine stays with its executor while others make steps. -/
theorem HomedOn.next_of_ne
    {e : Event ε V} {x : ε} {g : Handle}
    (hg : HomedOn x a g)
    (ha : Linked a)
    (hguard : Located.guard a e)
    (hne : g ≠ e.coroutine) :
    HomedOn x (a.next e) g where
  lt := Nat.lt_of_lt_of_le hg.lt (Nat.le_add_right _ _)
  place := by
    rcases nextPlace_of_ne ha hguard hg.lt hne with hsame | ⟨-, -, c, hc, hback⟩
    · rw [hsame]
      exact hg.place
    · exact Or.inr (hback x (hg.executor c hc))
  executor := by
    intro c hc
    have hc' : Awaits a.frame g c := by
      simpa [Awaits, next_frame_of_ne hguard hg.lt hne] using hc
    rw [(next_recorded hguard (ha.younger g c hc').2).2]
    exact hg.executor c hc'

/-- The place of a coroutine after a step of its own. -/
theorem HomedOn.place_next
    {e : Event ε V} {x : ε}
    (hg : HomedOn x a e.coroutine)
    (ha : Linked a)
    (hguard : Located.guard a e)
    (hhop : e.hops? e.coroutine = none) :
    (a.next e).place e.coroutine = .away ∨
      Home x ((a.next e).place e.coroutine) := by
  have hlt := coroutine_lt ha hguard
  cases e with
  | await t h c =>
      left
      refine ((ha.next hguard).waiting h c ?_).mpr ?_
      · exact (awaits_of_awaits? ha hguard rfl).1
      · have hactive := active_child hguard.1.2 (by trivial)
        simpa [Ended, Located.next, Event.nextFrame, callTask,
          Frame.setContinuation, Frame.new] using hactive.not_ended
  | scheduleOn t h c y =>
      left
      refine ((ha.next hguard).waiting h c ?_).mpr ?_
      · exact (awaits_of_awaits? ha hguard rfl).1
      · have hactive := active_child hguard.1.2 (by trivial)
        simpa [Ended, Located.next, Event.nextFrame, callTask,
          Frame.setContinuation, Frame.new] using hactive.not_ended
  | schedulerReady t h y =>
      simp [Event.hops?, Event.coroutine] at hhop
  | schedulerSuspend t h y =>
      simp [Event.hops?, Event.coroutine] at hhop
  | finalSuspend t h o =>
      left
      refine (ha.next hguard).ended h ?_
      simp [Ended, Located.next, Event.nextFrame, setPoint, Point.op?]
  | run y h =>
      right
      left
      have hplace : a.place h = .queue y := hguard
      rcases hg.place with haway | hthread | hqueue
      · simp [Event.coroutine, hplace] at haway
      · simp [Event.coroutine, hplace] at hthread
      · obtain rfl : y = x := by simpa [Event.coroutine, hplace] using hqueue
        simp [Event.coroutine, Located.next, Located.nextPlace]
  | _ =>
      exact hg.place

theorem HomedOn.next_self
    {e : Event ε V} {x : ε}
    (hg : HomedOn x a e.coroutine)
    (ha : Linked a)
    (hguard : Located.guard a e)
    (hhop : e.hops? e.coroutine = none) :
    HomedOn x (a.next e) e.coroutine where
  lt := Nat.lt_of_lt_of_le hg.lt (Nat.le_add_right _ _)
  place := hg.place_next ha hguard hhop
  executor := by
    intro c hc
    rcases awaits_of_next ha hguard hc with ⟨hold, -⟩ | ⟨t, ht⟩
    · rw [(next_recorded hguard (ha.younger _ c hold).2).2]
      exact hg.executor c hold
    · rw [executor_of_awaits? ht, hg.current (calls_of_awaits? hguard ht).1]
      rfl

/-- `co_await SchedulerAwaitable{x}` puts the coroutine on `x`. -/
theorem homedOn_of_hop
    {e : Event ε V} {x : ε} {h : Handle}
    (ha : Linked a)
    (hguard : Located.guard a e)
    (hhop : e.hops? h = some x) :
    HomedOn x (a.next e) h := by
  have hlt := coroutine_lt ha hguard
  cases e with
  | schedulerReady t g y =>
      by_cases hgh : g = h
      · obtain rfl : y = x := by simpa [Event.hops?, hgh] using hhop
        subst hgh
        obtain ⟨⟨hplace, hop⟩, hcurrent⟩ := hguard
        have hactive := active_afterScheduler hop
        refine ⟨hlt, Or.inr (Or.inl ?_), ?_⟩
        · simpa [Located.next, Located.nextPlace, hplace] using hcurrent
        · intro c hc
          refine absurd hc ?_
          simpa [Awaits, Located.next, Event.nextFrame, setPoint] using
            hactive.not_awaiting c
      · simp [Event.hops?, hgh] at hhop
  | schedulerSuspend t g y =>
      by_cases hgh : g = h
      · obtain rfl : y = x := by simpa [Event.hops?, hgh] using hhop
        subst hgh
        have hactive := active_afterScheduler hguard.1.2
        refine ⟨hlt, Or.inr (Or.inr ?_), ?_⟩
        · simp [Located.next, Located.nextPlace]
        · intro c hc
          refine absurd hc ?_
          simpa [Awaits, Located.next, Event.nextFrame, setPoint] using
            hactive.not_awaiting c
      · simp [Event.hops?, hgh] at hhop
  | _ =>
      simp [Event.hops?] at hhop

/-- After `co_await SchedulerAwaitable{x}` a coroutine stays with `x`. -/
theorem homed_of_run
    {h : Handle} {x : ε}
    (hrun : (located roots).Run tr a)
    (hlast : lastHop tr h = some x) :
    HomedOn x a h := by
  refine hrun.invariant
    (I := fun tr a => ∀ x, lastHop tr h = some x → HomedOn x a h) ?_ ?_ x hlast
  · intro a _ x hx
    simp [lastHop] at hx
  · intro tr a e hrun ih hguard x hx
    have ha := linked_of_reachable ⟨tr, hrun⟩
    rw [lastHop_append] at hx
    cases hhop : e.hops? h with
    | some y =>
        obtain rfl : y = x := by simpa [hhop] using hx
        exact homedOn_of_hop ha hguard hhop
    | none =>
        have hh := ih x (by simpa [hhop] using hx)
        by_cases hne : h = e.coroutine
        · subst hne
          exact hh.next_self ha hguard hhop
        · exact hh.next_of_ne ha hguard hne

end Traces

section Results

variable [DecidableEq ε] [Inhabited V]
variable {roots : List (Body ε V)}
variable {tr : List (Event ε V)} {s : State ε V} {a : Located ε V}

/-- A coroutine that is on a thread can make a step. -/
theorem exists_step
    {t : Thread ε} {h : Handle}
    (ha : Linked a)
    (hR : Refines s a)
    (ht : s.slots.running t = some h) :
    ∃ e : Event ε V, e.guard s := by
  have hplace := (hR.placed.running t h).mp ht
  have hlive : ¬ Ended s.frame h := by
    rw [← hR.frame]
    exact ha.not_ended (by simp [hplace])
  cases hop : (s.frame h).point.op? with
  | none =>
      exact absurd hop hlive
  | some op =>
      have hat : Event.At s t h op := ⟨ht, hop⟩
      cases op with
      | act =>
          exact ⟨.act t h default, hat⟩
      | await =>
          exact ⟨.await t h s.allocated, hat, rfl⟩
      | scheduleOn x =>
          exact ⟨.scheduleOn t h s.allocated x, hat, rfl⟩
      | scheduler x =>
          by_cases hcurrent : t.current = some x
          · exact ⟨.schedulerReady t h x, hat, hcurrent⟩
          · exact ⟨.schedulerSuspend t h x, hat, hcurrent⟩
      | finish v =>
          exact ⟨.finish t h v, hat⟩
      | resume c =>
          exact ⟨.resume t h c _, hat, rfl⟩
      | suspend =>
          exact ⟨.finalSuspend t h _, hat, rfl⟩

/-- When no step is left, every coroutine has ended. -/
theorem ended_of_stuck
    (ha : Linked a)
    (hR : Refines s a)
    (hstuck : ∀ e : Event ε V, ¬ e.guard s)
    (h : Handle) :
    Ended a.frame h := by
  have hidle : ∀ t g, s.slots.running t ≠ some g := by
    intro t g ht
    obtain ⟨e, he⟩ := exists_step ha hR ht
    exact hstuck e he
  have haway : ∀ g, a.place g = .away := by
    intro g
    cases hplace : a.place g with
    | away =>
        rfl
    | thread t =>
        exact absurd ((hR.placed.running t g).mpr hplace) (hidle t g)
    | queue x =>
        have hmem := (hR.placed.queued x g).mpr hplace
        have hnone : s.slots.running (.worker x) = none := by
          cases hrun : s.slots.running (.worker x) with
          | none =>
              rfl
          | some f =>
              exact absurd hrun (hidle _ f)
        cases hqueue : s.slots.queue x with
        | nil =>
            simp [hqueue] at hmem
        | cons f rest =>
            exact absurd ⟨hnone, by simp [hqueue]⟩ (hstuck (.run x f))
  -- Whoever waits, waits for a younger coroutine that itself waits.
  have hwaits : ∀ n g c, a.allocated - g ≤ n → ¬ Awaits a.frame g c := by
    intro n
    induction n with
    | zero =>
        intro g c hn hg
        obtain ⟨hgc, hc⟩ := ha.younger g c hg
        exact absurd (Nat.lt_trans hgc hc) (Nat.not_lt.mpr (Nat.le_of_sub_eq_zero
          (Nat.le_zero.mp hn)))
    | succ n ih =>
        intro g c hn hg
        obtain ⟨hgc, hc⟩ := ha.younger g c hg
        rcases ha.active c (haway c) with hend | ⟨d, hd⟩
        · exact (ha.waiting g c hg).mp (haway g) hend
        · refine ih c d ?_ hd
          have hlt : a.allocated - c < a.allocated - g :=
            Nat.sub_lt_sub_left (Nat.lt_trans hgc hc) hgc
          exact Nat.lt_succ_iff.mp (Nat.lt_of_lt_of_le hlt hn)
  rcases ha.active h (haway h) with hend | ⟨c, hc⟩
  · exact hend
  · exact absurd hc (hwaits _ h c (Nat.le_refl _))

/--
A coroutine that awaits a `Task` resumes at most once, after the `Task` has
finished and with the value it finished with, and it resumes with the
`Executor::current` it awaited with unless that was null; after
`co_await SchedulerAwaitable{x}`, until the next one, it only runs where
`Executor::current` is `x`; it is never on two threads; and the run comes to an
end, where every await has resumed.
-/
structure ReturnsHome
    (roots : List (Body ε V)) (tr : List (Event ε V)) (s : State ε V) :
    Prop where
  once : ∀ h c, resumed tr h c ≤ 1
  finished : System.History
    (fun past e => ∀ t h c v, e = .resume t h c v →
      ∃ t', .finish t' c v ∈ past) tr
  returns : ∀ t h c, (t, h, c) ∈ awaits tr → ∀ x, t.current = some x →
    ∀ t', (t', h, c) ∈ resumptions tr → t'.current = some x
  hopped : ∀ h x, lastHop tr h = some x →
    ∀ t, s.slots.running t = some h → t.current = some x
  exclusive : ∀ h t t', s.slots.running t = some h →
    s.slots.running t' = some h → t = t'
  terminates : Acc (tasks roots).Successor s
  resumes : (∀ e, ¬ (tasks roots).guard s e) →
    ∀ t h c, (t, h, c) ∈ awaits tr → resumed tr h c = 1

/-- A coroutine resumes with a value that its `Task` has finished with. -/
theorem history_finished
    (hrun : (located roots).Run tr a) :
    System.History
      (fun past e => ∀ t h c v, e = Event.resume t h c v →
        ∃ t', .finish t' c v ∈ past) tr := by
  refine hrun.history ?_
  intro tr a e hrun hguard t h c v he
  subst he
  obtain ⟨⟨hplace, hop⟩, rfl⟩ := hguard
  have ha := linked_of_reachable ⟨tr, hrun⟩
  have hended := ha.ended_of_awaits (by simp [hplace]) hop
  exact finished_of_run hrun (ha.younger h c hop).2
    (done_of_op (Or.inr hended))

/-- Continuations return to their executor. -/
theorem tasks_return
    (hrun : (tasks roots).Run tr s) :
    ReturnsHome roots tr s := by
  obtain ⟨a, hR, hrunA⟩ := (simulation roots).run hrun
  rw [List.filterMap_some] at hrunA
  have ha := linked_of_reachable ⟨tr, hrunA⟩
  have hcounted := counted_of_run hrunA
  have hrecorded := recorded_of_run hrunA
  refine ⟨hcounted.once, history_finished hrunA, ?_, ?_, ?_,
    acc_of_reachable ⟨tr, hrun⟩, ?_⟩
  · intro t h c hawait x hx t' hresume
    obtain ⟨-, -, hexecutor⟩ := hrecorded.awaited t h c hawait
    obtain ⟨-, hback⟩ := hrecorded.resumed t' h c hresume
    simpa using hback x (hexecutor.trans hx)
  · intro h x hlast t ht
    have hplace := (hR.placed.running t h).mp ht
    simpa using (homed_of_run hrunA hlast).current hplace
  · intro h t t' ht ht'
    have hplace := (hR.placed.running t h).mp ht
    rw [(hR.placed.running t' h).mp ht'] at hplace
    simpa using hplace.symm
  · intro hstuck t h c hawait
    have hended := ended_of_stuck ha hR hstuck h
    exact (hcounted.passed t h c hawait).resolve_left (hended.not_awaits c)

/-- A `Task` on executor 1 awaits one on executor 2 and then hops there. -/
def thereAndBack : List (Body Nat Nat) :=
  [.scheduleOn (.scheduleOn (.finish 3) 2 fun v => .scheduler 2 (.finish v))
    1 fun v => .finish v]

def thereAndBackRun : List (Event Nat Nat) :=
  [.scheduleOn (.outer 0) 0 1 1,
    .run 1 1,
    .scheduleOn (.worker 1) 1 2 2,
    .run 2 2,
    .finish (.worker 2) 2 3,
    .finalSuspend (.worker 2) 2 (.add 1 1),
    .run 1 1,
    .resume (.worker 1) 1 2 3,
    .schedulerSuspend (.worker 1) 1 2,
    .run 2 1,
    .finish (.worker 2) 1 3,
    .finalSuspend (.worker 2) 1 (.resume 0),
    .resume (.worker 2) 0 1 3]

theorem tasks_return_thereAndBack :
    ReturnsHome thereAndBack thereAndBackRun
      ((tasks thereAndBack).exec (start thereAndBack) thereAndBackRun) ∧
    resumed thereAndBackRun 1 2 = 1 :=
  ⟨tasks_return (.of_enabled rfl (by decide +kernel)), by decide⟩

end Results

end Task
end Ptl

import Ptl.TaskPlaces

/-!
# What one step does to tasks

The inversion lemmas of the abstract model of `TaskPlaces`: a step touches the
frame of its own coroutine and the frame it creates (`next_frame_of_ne`), a
`Task` records its continuation and executor once (`next_recorded`), a coroutine
awaits a `Task` from the await until it resumes (`awaits_of_next`,
`awaits_next`), and a step moves at most the continuation besides its own
coroutine (`nextPlace_of_ne`).
-/

namespace Ptl
namespace Task

open Transition Placement

universe u v

variable {ε : Type u} {V : Type v}

namespace Event

/-- The coroutine that makes the step, or that the worker takes up. -/
def coroutine : Event ε V → Handle
  | act _ h _ => h
  | await _ h _ => h
  | scheduleOn _ h _ _ => h
  | schedulerReady _ h _ => h
  | schedulerSuspend _ h _ => h
  | resume _ h _ _ => h
  | finish _ h _ => h
  | finalSuspend _ h _ => h
  | run _ h => h

/-- On thread `t` the coroutine `h` awaits the `Task` `c` and suspends. -/
def awaits? : Event ε V → Option (Thread ε × Handle × Handle)
  | await t h c => some (t, h, c)
  | scheduleOn t h c _ => some (t, h, c)
  | _ => none

/-- On thread `t` the coroutine `h` resumes after awaiting the `Task` `c`. -/
def resumes? : Event ε V → Option (Thread ε × Handle × Handle)
  | resume t h c _ => some (t, h, c)
  | _ => none

/-- The coroutine `h` executes `co_await SchedulerAwaitable{x}`. -/
def hops? (h : Handle) : Event ε V → Option ε
  | schedulerReady _ g x => if g = h then some x else none
  | schedulerSuspend _ g x => if g = h then some x else none
  | _ => none

end Event

section Steps

variable [DecidableEq ε] {a : Located ε V} {e : Event ε V}

theorem coroutine_lt
    (ha : Linked a)
    (hguard : Located.guard a e) :
    e.coroutine < a.allocated := by
  refine ha.lt_allocated ?_
  cases e with
  | act t h v =>
      simp [Event.coroutine, (show a.At t h .act from hguard).1]
  | finish t h v =>
      simp [Event.coroutine, (show a.At t h (.finish v) from hguard).1]
  | run x h =>
      simp [Event.coroutine, (show a.place h = .queue x from hguard)]
  | await t h c =>
      simp [Event.coroutine, hguard.1.1]
  | scheduleOn t h c x =>
      simp [Event.coroutine, hguard.1.1]
  | schedulerReady t h x =>
      simp [Event.coroutine, hguard.1.1]
  | schedulerSuspend t h x =>
      simp [Event.coroutine, hguard.1.1]
  | resume t h c v =>
      simp [Event.coroutine, hguard.1.1]
  | finalSuspend t h o =>
      simp [Event.coroutine, hguard.1.1]

variable [Inhabited V]

omit [DecidableEq ε] in
theorem callTask_of_ne
    {frame : Handle → Frame ε V} {h c g : Handle} {current : Option ε}
    (hgh : g ≠ h)
    (hgc : g ≠ c) :
    callTask frame h c current g = frame g := by
  simp [callTask, setPoint, hgh, hgc]

/-- A step touches no frame but that of its coroutine and a new one. -/
theorem next_frame_of_ne
    {g : Handle}
    (hguard : Located.guard a e)
    (hg : g < a.allocated)
    (hne : g ≠ e.coroutine) :
    (a.next e).frame g = a.frame g := by
  cases e with
  | await t h c =>
      refine callTask_of_ne hne ?_
      rw [hguard.2]
      exact Nat.ne_of_lt hg
  | scheduleOn t h c x =>
      refine callTask_of_ne hne ?_
      rw [hguard.2]
      exact Nat.ne_of_lt hg
  | act t h v =>
      exact (advances_setPoint ..).others g hne
  | schedulerReady t h x =>
      exact (advances_setPoint ..).others g hne
  | schedulerSuspend t h x =>
      exact (advances_setPoint ..).others g hne
  | resume t h c v =>
      exact (advances_setPoint ..).others g hne
  | finish t h v =>
      exact (advances_storeValue ..).others g hne
  | finalSuspend t h o =>
      exact (advances_setPoint ..).others g hne
  | run x h =>
      rfl

/-- The continuation and the executor of a `Task` are recorded once. -/
theorem next_recorded
    {g : Handle}
    (hguard : Located.guard a e)
    (hg : g < a.allocated) :
    ((a.next e).frame g).continuation = (a.frame g).continuation ∧
      ((a.next e).frame g).executor = (a.frame g).executor := by
  by_cases hne : g = e.coroutine
  · subst hne
    have hset := fun p => advances_setPoint a.frame e.coroutine p
    cases e with
    | await t h c =>
        have hc : h ≠ c := by
          rw [hguard.2]
          exact Nat.ne_of_lt hg
        simp [Located.next, Event.nextFrame, Event.coroutine, callTask,
          setPoint, hc]
    | scheduleOn t h c x =>
        have hc : h ≠ c := by
          rw [hguard.2]
          exact Nat.ne_of_lt hg
        simp [Located.next, Event.nextFrame, Event.coroutine, callTask,
          setPoint, hc]
    | finish t h v =>
        have hstore := advances_storeValue a.frame h v
        exact ⟨hstore.continuation, hstore.executor⟩
    | run x h =>
        exact ⟨rfl, rfl⟩
    | _ =>
        exact ⟨(hset _).continuation, (hset _).executor⟩
  · rw [next_frame_of_ne hguard hg hne]
    exact ⟨rfl, rfl⟩

omit [DecidableEq ε] [Inhabited V] in
/-- A coroutine that is on a thread and does something else awaits nothing. -/
theorem not_awaits_of_op
    {h : Handle} {op : Op ε V}
    (hop : (a.frame h).point.op? = some op)
    (hne : ∀ c, op ≠ .resume c)
    (c : Handle) :
    ¬ Awaits a.frame h c :=
  (active_of_op hop hne).not_awaiting c

omit [DecidableEq ε] in
theorem next_frame_of_awaits?
    {t : Thread ε} {h c : Handle}
    (he : e.awaits? = some (t, h, c)) :
    (a.next e).frame = callTask a.frame h c t.current := by
  cases e with
  | await t' h' c' =>
      cases he
      rfl
  | scheduleOn t' h' c' x =>
      cases he
      rfl
  | _ =>
      cases he

omit [Inhabited V] in
/-- The coroutine calls the new `Task` on the thread that it occupies. -/
theorem calls_of_awaits?
    {t : Thread ε} {h c : Handle}
    (hguard : Located.guard a e)
    (he : e.awaits? = some (t, h, c)) :
    a.place h = .thread t ∧ c = a.allocated ∧
      ∃ op, (a.frame h).point.op? = some op ∧ op.Calls := by
  cases e with
  | await t' h' c' =>
      cases he
      exact ⟨hguard.1.1, hguard.2, _, hguard.1.2, trivial⟩
  | scheduleOn t' h' c' x =>
      cases he
      exact ⟨hguard.1.1, hguard.2, _, hguard.1.2, trivial⟩
  | _ =>
      cases he

theorem awaits_of_awaits?
    {t : Thread ε} {h c : Handle}
    (ha : Linked a)
    (hguard : Located.guard a e)
    (he : e.awaits? = some (t, h, c)) :
    Awaits (a.next e).frame h c ∧ c = a.allocated := by
  obtain ⟨hplace, hc, op, hop, hcalls⟩ := calls_of_awaits? hguard he
  have hne : h ≠ c := by
    rw [hc]
    exact Nat.ne_of_lt (ha.lt_allocated (by simp [hplace]))
  refine ⟨?_, hc⟩
  rw [next_frame_of_awaits? he]
  simpa [Awaits, callTask, setPoint, hne] using op_await hop hcalls c

omit [DecidableEq ε] in
theorem executor_of_awaits?
    {t : Thread ε} {h c : Handle}
    (he : e.awaits? = some (t, h, c)) :
    ((a.next e).frame c).executor = t.current := by
  rw [next_frame_of_awaits? he]
  simp [callTask, Frame.setContinuation]

/-- Who awaits a `Task` after a step did so before, or awaits it by this step. -/
theorem awaits_of_next
    {g c : Handle}
    (ha : Linked a)
    (hguard : Located.guard a e)
    (hg : Awaits (a.next e).frame g c) :
    (Awaits a.frame g c ∧ ∀ t, e.resumes? ≠ some (t, g, c)) ∨
      ∃ t, e.awaits? = some (t, g, c) := by
  have hlt : g < a.allocated := by
    obtain ⟨hgc, hc⟩ := (ha.next hguard).younger g c hg
    have hcreated : e.created ≤ 1 := by
      cases e <;> simp [Event.created]
    have hc' : c < a.allocated + 1 :=
      Nat.lt_of_lt_of_le hc (Nat.add_le_add_left hcreated _)
    exact Nat.lt_of_lt_of_le hgc (Nat.lt_succ_iff.mp hc')
  by_cases hne : g = e.coroutine
  · have hactive : ¬ ((a.next e).frame g).point.Active :=
      fun h => h.not_awaiting c hg
    subst hne
    cases e with
    | act t h v =>
        refine absurd ?_ hactive
        have hop := (show a.At t h .act from hguard).2
        simpa [Located.next, Event.nextFrame, Event.coroutine, setPoint] using
          active_resumeWith (p := (a.frame h).point) (by simp [hop]) v
    | resume t h d v =>
        refine absurd ?_ hactive
        have hop := hguard.1.2
        simpa [Located.next, Event.nextFrame, Event.coroutine, setPoint] using
          active_resumeWith (p := (a.frame h).point) (by simp [hop]) v
    | schedulerReady t h x =>
        refine absurd ?_ hactive
        simpa [Located.next, Event.nextFrame, Event.coroutine, setPoint] using
          active_afterScheduler hguard.1.2
    | schedulerSuspend t h x =>
        refine absurd ?_ hactive
        simpa [Located.next, Event.nextFrame, Event.coroutine, setPoint] using
          active_afterScheduler hguard.1.2
    | finish t h v =>
        refine absurd ?_ hactive
        simpa [Located.next, Event.nextFrame, Event.coroutine, storeValue] using
          active_final
    | finalSuspend t h o =>
        simp [Awaits, Located.next, Event.nextFrame, Event.coroutine, setPoint,
          Point.op?] at hg
    | run x h =>
        exact Or.inl ⟨hg, by simp [Event.resumes?]⟩
    | await t h d =>
        have hd := (awaits_of_awaits? (t := t) (h := h) (c := d) ha hguard rfl).1
        obtain rfl : d = c := Awaits.unique (h := h) hd hg
        exact Or.inr ⟨t, rfl⟩
    | scheduleOn t h d x =>
        have hd := (awaits_of_awaits? (t := t) (h := h) (c := d) ha hguard rfl).1
        obtain rfl : d = c := Awaits.unique (h := h) hd hg
        exact Or.inr ⟨t, rfl⟩
  · left
    constructor
    · simpa [Awaits, next_frame_of_ne hguard hlt hne] using hg
    · intro t ht
      cases e with
      | resume t' h d v =>
          simp only [Event.resumes?, Option.some.injEq, Prod.mk.injEq] at ht
          exact hne ht.2.1.symm
      | _ =>
          simp [Event.resumes?] at ht

/-- A coroutine awaits a `Task` until it resumes. -/
theorem awaits_next
    {g c : Handle}
    (ha : Linked a)
    (hguard : Located.guard a e)
    (hg : Awaits a.frame g c) :
    Awaits (a.next e).frame g c ∨ ∃ t v, e = .resume t g c v := by
  have hlt : g < a.allocated := by
    obtain ⟨hgc, hc⟩ := ha.younger g c hg
    exact Nat.lt_trans hgc hc
  by_cases hne : g = e.coroutine
  · subst hne
    cases e with
    | resume t h d v =>
        obtain ⟨⟨-, hop⟩, -⟩ := hguard
        have hd : d = c := Awaits.unique (h := h) hop hg
        exact Or.inr ⟨t, v, by simp [Event.coroutine, hd]⟩
    | run x h =>
        exact Or.inl hg
    | act t h v =>
        have hop := (show a.At t h .act from hguard).2
        exact absurd hg (not_awaits_of_op hop (by simp) c)
    | finish t h v =>
        have hop := (show a.At t h (.finish v) from hguard).2
        exact absurd hg (not_awaits_of_op hop (by simp) c)
    | await t h d =>
        exact absurd hg (not_awaits_of_op hguard.1.2 (by simp) c)
    | scheduleOn t h d x =>
        exact absurd hg (not_awaits_of_op hguard.1.2 (by simp) c)
    | schedulerReady t h x =>
        exact absurd hg (not_awaits_of_op hguard.1.2 (by simp) c)
    | schedulerSuspend t h x =>
        exact absurd hg (not_awaits_of_op hguard.1.2 (by simp) c)
    | finalSuspend t h o =>
        exact absurd hg (not_awaits_of_op hguard.1.2 (by simp) c)
  · left
    simpa [Awaits, next_frame_of_ne hguard hlt hne] using hg

/-- Where a step leaves a coroutine other than its own. -/
theorem nextPlace_of_ne
    {e : Event ε V} {g : Handle}
    (ha : Linked a)
    (hguard : Located.guard a e)
    (hg : g < a.allocated)
    (hne : g ≠ e.coroutine) :
    (a.next e).place g = a.place g ∨
      (a.place g = .away ∧ (a.next e).place g ≠ .away ∧
        ∃ c, Awaits a.frame g c ∧
          ∀ x, (a.frame c).executor = some x →
            Home x ((a.next e).place g)) := by
  cases e with
  | await t h c =>
      left
      have hgc : g ≠ c := by
        rw [hguard.2]
        exact Nat.ne_of_lt hg
      simp [Located.next, Located.nextPlace, Located.handOver, hgc,
        show g ≠ h from hne]
  | scheduleOn t h c x =>
      left
      have hgc : g ≠ c := by
        rw [hguard.2]
        exact Nat.ne_of_lt hg
      simp [Located.next, Located.nextPlace, Located.handOver, hgc,
        show g ≠ h from hne]
  | schedulerSuspend t h x =>
      left
      exact Function.update_of_ne hne ..
  | run x h =>
      left
      exact Function.update_of_ne hne ..
  | finalSuspend t h o =>
      have hgh : g ≠ h := hne
      obtain ⟨⟨hplace, hop⟩, ho⟩ := hguard
      have hlive := ha.not_ended (h := h) (by simp [hplace])
      rcases finalSuspend_cases (a.frame h) t.current with
        ⟨-, hstop⟩ | ⟨p, hp, hresume, hcurrent⟩ | ⟨p, x, hp, hadd, hx⟩
      · left
        rw [hstop] at ho
        subst ho
        exact Function.update_of_ne hgh ..
      · rw [hresume] at ho
        subst ho
        by_cases hgp : g = p
        · right
          subst hgp
          have hg' := ha.awaited h g hp hlive
          refine ⟨(ha.waiting g h hg').mpr hlive, ?_, h, hg', ?_⟩
          · simp [Located.next, Located.nextPlace, Located.handOver]
          intro x hx
          left
          simpa [Located.next, Located.nextPlace, Located.handOver] using
            hcurrent x hx
        · left
          simp [Located.next, Located.nextPlace, Located.handOver, hgh, hgp]
      · rw [hadd] at ho
        subst ho
        by_cases hgp : g = p
        · right
          subst hgp
          have hg' := ha.awaited h g hp hlive
          refine ⟨(ha.waiting g h hg').mpr hlive, ?_, h, hg', ?_⟩
          · simp [Located.next, Located.nextPlace, Located.handOver]
          intro y hy
          obtain rfl : x = y := by simpa [hx] using hy
          right
          simp [Located.next, Located.nextPlace, Located.handOver]
        · left
          simp [Located.next, Located.nextPlace, Located.handOver, hgh, hgp]
  | _ =>
      exact Or.inl rfl

end Steps

end Task
end Ptl

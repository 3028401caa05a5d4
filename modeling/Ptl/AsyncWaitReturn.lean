import Ptl.AsyncWaitTask
import Ptl.EventRelease

/-!
# How `async_wait` returns

The event of `async_wait` lives on the stack of its caller.  `completion_notifier` calls
`set` on the thread that completes the awaitable, which stores the word and then asks the
kernel to wake whoever sleeps at its address.

**Results.**
* `placed_of_run`: where the two threads are, and what they know of the event there.
* `asyncWait_left`: once `async_wait` has returned, the only thing that can still happen
  is the `FUTEX_WAKE` of the thread that completed the awaitable.
* `asyncWait_returns`: `async_wait` returns exactly if the awaitable completes.
-/

namespace Ptl
namespace AsyncWaitTask

open Transition
open SyncWait (Kind)
open WaitTask
open ManualResetEvent (Futex Pc manualResetEvent)

universe u v w x

variable {σ : Type u} {ρ : Type v} {V : Type w} {E : Type x}

/-- `start()` has returned. -/
def Caller.HasStarted : Caller V E → Prop
  | idle => False
  | inStart => False
  | _ => True

section Places

/-- The coroutine is on the thread that called `async_wait`. -/
def OnCaller : Phase σ → Prop
  | .initial => True
  | .running .caller _ => True
  | .final .caller => True
  | _ => False

/-- What a thread knows at its control points in calls on the event. -/
def Knows (s : State σ V E) (i : Runner) : Pc → Prop
  | .idle => i = .caller → s.caller ≠ .waiting
  | .setStore =>
      s.notified = true ∧ s.event.shared.state = 0 ∧ s.coroutine.phase = .final i ∧
        (i = .caller → s.caller = .inStart)
  | .setWake =>
      s.notified = true ∧ s.event.shared.state ≠ 0 ∧ s.coroutine.phase = .final i ∧
        (i = .caller → s.caller = .inStart)
  | .resetStore => False
  | .waitLoad => i = .caller ∧ s.caller = .waiting
  | .waitFutex => i = .caller ∧ s.caller = .waiting
  | .waitSleep => i = .caller ∧ s.caller = .waiting
  | .waitReturn => i = .caller ∧ s.caller = .waiting ∧ s.event.shared.state ≠ 0

/-- What holds between any two steps of `async_wait`. -/
structure Placed (s : State σ V E) : Prop where
  knows : ∀ i, Knows s i (s.event.pc i)
  idle : s.caller = .idle ↔ s.coroutine.phase = .initial
  inline : OnCaller s.coroutine.phase → s.coroutine.left = false
  started : s.caller.HasStarted → s.coroutine.left = true ∨ s.notified = true
  waited : s.caller.HasWaited → s.event.shared.state ≠ 0
  final : s.notified = true → ∃ i, s.coroutine.phase = .final i
  stored : s.notified = true → s.event.shared.state ≠ 0 ∨ ∃ j, s.event.pc j = .setStore
  unset : s.notified = false → s.event.shared.state = 0

theorem placed_new :
    Placed (State.new : State σ V E) where
  knows := fun _ _ => nofun
  idle := iff_of_true rfl rfl
  inline := fun _ => rfl
  started := nofun
  waited := nofun
  final := nofun
  stored := nofun
  unset := fun _ => rfl

variable {s s' : State σ V E} {i : Runner} {p : Pc}

/-- While the coroutine has not ended, nobody has called `set`. -/
theorem Placed.not_notified
    (h : Placed s)
    (hphase : ∀ i, s.coroutine.phase ≠ .final i) :
    s.notified = false := by
  cases hnotified : s.notified with
  | false =>
      rfl
  | true =>
      obtain ⟨i, hi⟩ := h.final hnotified
      exact absurd hi (hphase i)

/-- Outside `start()` and `wait()` the caller is in no call on the event. -/
theorem Placed.pc_caller
    (h : Placed s)
    (hstart : s.caller ≠ .inStart)
    (hwait : s.caller ≠ .waiting) :
    s.event.pc .caller = .idle := by
  have hknows := h.knows .caller
  cases hpc : s.event.pc .caller with
  | idle =>
      rfl
  | setStore | setWake =>
      rw [hpc] at hknows
      exact absurd (hknows.2.2.2 rfl) hstart
  | resetStore =>
      rw [hpc] at hknows
      exact hknows.elim
  | waitLoad | waitFutex | waitSleep =>
      rw [hpc] at hknows
      exact absurd hknows.2 hwait
  | waitReturn =>
      rw [hpc] at hknows
      exact absurd hknows.2.1 hwait

/-- A coroutine that ends inline has not let `start()` return before it calls `set`. -/
theorem Placed.not_released
    (h : Placed s)
    (hphase : s.coroutine.phase = .final .caller)
    (hnotified : s.notified = false) :
    ¬ (s.coroutine.left = true ∨ s.notified = true) := by
  have hleft := h.inline (hphase ▸ trivial)
  rw [hleft, hnotified]
  exact nofun

/-- The thread that is to call `set` is in no call on the event. -/
theorem Placed.pc_final
    (h : Placed s)
    (hphase : s.coroutine.phase = .final i)
    (hnotified : s.notified = false) :
    s.event.pc i = .idle := by
  have hset : s.notified ≠ true := ne_true_of_eq_false hnotified
  have hstart : i = .caller → s.caller ≠ .waiting := by
    rintro rfl hcaller
    exact h.not_released hphase hnotified (h.started (hcaller ▸ trivial))
  have hknows := h.knows i
  cases hpc : s.event.pc i with
  | idle =>
      rfl
  | setStore | setWake =>
      rw [hpc] at hknows
      exact absurd hknows.1 hset
  | resetStore =>
      rw [hpc] at hknows
      exact hknows.elim
  | waitLoad | waitFutex | waitSleep =>
      rw [hpc] at hknows
      exact absurd hknows.2 (hstart hknows.1)
  | waitReturn =>
      rw [hpc] at hknows
      exact absurd hknows.2.1 (hstart hknows.1)

/-- What a thread knows is kept by a step that leaves the word and its caller alone. -/
theorem Knows.keep
    (h : Knows s i p)
    (hnotified : s.notified = true → s'.notified = true)
    (hstate : s'.event.shared.state = s.event.shared.state)
    (hphase : s.notified = true → s'.coroutine.phase = s.coroutine.phase)
    (hcaller : i = .caller → s'.caller = s.caller) :
    Knows s' i p := by
  cases p with
  | idle =>
      intro hi
      rw [hcaller hi]
      exact h hi
  | setStore | setWake =>
      obtain ⟨hset, hword, hfinal, hstart⟩ := h
      exact ⟨hnotified hset, hstate ▸ hword, (hphase hset).trans hfinal,
        fun hi => (hcaller hi).trans (hstart hi)⟩
  | resetStore =>
      exact h.elim
  | waitLoad | waitFutex | waitSleep =>
      exact ⟨h.1, (hcaller h.1).trans h.2⟩
  | waitReturn =>
      exact ⟨h.1, (hcaller h.1).trans h.2.1, hstate ▸ h.2.2⟩

/-- What `wait` knows after it has loaded the word. -/
theorem Knows.loaded
    {old : Nat}
    (h : Knows s i .waitLoad)
    (hold : old = s.event.shared.state) :
    Knows s i (if old = 0 then .waitFutex else .waitReturn) := by
  subst hold
  split
  · exact h
  · next hset =>
      exact ⟨h.1, h.2, hset⟩

/-- A step of the coroutine after its start. -/
theorem Placed.resumed
    {c : Coroutine σ V E}
    (h : Placed s)
    (hset : s.notified ≠ true)
    (hinitial : s.coroutine.phase ≠ .initial)
    (hinitial' : c.phase ≠ .initial)
    (hleft : s.coroutine.left = true → c.left = true)
    (hinline : OnCaller c.phase → c.left = false) :
    Placed { s with coroutine := c } where
  knows := fun i => (h.knows i).keep id rfl (fun hn => absurd hn hset) fun _ => rfl
  idle := iff_of_false (fun hidle => hinitial (h.idle.mp hidle)) hinitial'
  inline := hinline
  started := fun hstarted => (h.started hstarted).imp_left hleft
  waited := h.waited
  final := fun hn => absurd hn hset
  stored := h.stored
  unset := h.unset

variable [Inhabited V] {kind : Kind} {a : Awaitable σ ρ V E}
variable {tr : List (Event σ ρ V E)}

/-- A step of the coroutine. -/
theorem Placed.task
    {e : Step σ ρ V E}
    (h : Placed s)
    (hguard : (waitTask kind a).guard s.coroutine e) :
    Placed ((asyncWait kind a).next s (.task e)) := by
  have hphase : ∀ i, s.coroutine.phase ≠ .final i :=
    fun i hi => not_enabled_of_final hi hguard
  have hnotified := h.not_notified hphase
  have hset : s.notified ≠ true := ne_true_of_eq_false hnotified
  cases e with
  | start =>
      have hinitial : s.coroutine.phase = .initial := hguard
      have hidle := h.idle.mpr hinitial
      have hpc := h.pc_caller (hidle ▸ nofun) (hidle ▸ nofun)
      constructor
      · intro i
        cases i with
        | caller =>
            change Knows _ _ (s.event.pc .caller)
            rw [hpc]
            exact fun _ => nofun
        | other =>
            exact (h.knows .other).keep id rfl (fun hn => absurd hn hset) nofun
      · exact iff_of_false nofun nofun
      · exact fun _ => h.inline (hinitial ▸ trivial)
      · exact nofun
      · exact nofun
      · exact fun hn => absurd hn hset
      · exact fun hn => absurd hn hset
      · exact h.unset
  | suspend who x r leaves x' =>
      refine h.resumed hset (hguard.1 ▸ nofun) nofun ?_ nofun
      intro hleft
      change (s.coroutine.left || leaves) = true
      rw [hleft, Bool.true_or]
  | resume who x =>
      refine h.resumed hset (hguard.1 ▸ nofun) nofun id ?_
      intro honCaller
      cases who with
      | caller =>
          exact hguard.2 rfl
      | other =>
          exact honCaller.elim
  | complete who x r o =>
      refine h.resumed hset (hguard.1 ▸ nofun) nofun id ?_
      intro honCaller
      refine h.inline ?_
      rw [hguard.1]
      cases who with
      | caller =>
          trivial
      | other =>
          exact honCaller

theorem event_pc (e : ManualResetEvent.Event Runner) (i : Runner) :
    ((asyncWait kind a).next s (.event e)).event.pc i =
      if i = e.actor then e.target else s.event.pc i :=
  ManualResetEvent.next_pc i

/-- A step in a call on the event that neither stores the word nor returns from `wait`. -/
theorem Placed.move
    {e : ManualResetEvent.Event Runner}
    (h : Placed s)
    (hpc : s.event.pc e.actor = e.source)
    (hcaller : s.afterEvent e = s.caller)
    (hnotified : s.notifiedAfter e = s.notified)
    (hstate : (e.effect s.event.shared).state = s.event.shared.state)
    (hsource : e.source ≠ .setStore)
    (hknows : Knows s e.actor e.target) :
    Placed ((asyncWait kind a).next s (.event e)) where
  knows := by
    intro i
    rw [event_pc]
    by_cases hi : i = e.actor
    · rw [if_pos hi, hi]
      exact hknows.keep (fun hn => hnotified.trans hn) hstate (fun _ => rfl) fun _ => hcaller
    · rw [if_neg hi]
      exact (h.knows i).keep (fun hn => hnotified.trans hn) hstate (fun _ => rfl) fun _ => hcaller
  idle := by
    change s.afterEvent e = .idle ↔ _
    rw [hcaller]
    exact h.idle
  inline := h.inline
  started := by
    change (s.afterEvent e).HasStarted → _ ∨ s.notifiedAfter e = true
    rw [hcaller, hnotified]
    exact h.started
  waited := by
    change (s.afterEvent e).HasWaited → (e.effect s.event.shared).state ≠ 0
    rw [hcaller, hstate]
    exact h.waited
  final := fun hn => h.final (hnotified.symm.trans hn)
  stored := by
    intro hn
    rcases h.stored (hnotified.symm.trans hn) with hword | ⟨j, hj⟩
    · exact .inl (hstate.trans_ne hword)
    · refine .inr ⟨j, ?_⟩
      rw [event_pc, if_neg]
      · exact hj
      · rintro rfl
        exact hsource (hpc.symm.trans hj)
  unset := fun hn => hstate.trans (h.unset (hnotified.symm.trans hn))

theorem Placed.callSet
    (h : Placed s)
    (hguard : (asyncWait kind a).guard s (.event (.callSet i))) :
    Placed ((asyncWait kind a).next s (.event (.callSet i))) := by
  obtain ⟨⟨hpc, -⟩, hphase, hnotified⟩ := hguard
  have hset : s.notified ≠ true := ne_true_of_eq_false hnotified
  have hstart : i = .caller → s.caller = .inStart := by
    rintro rfl
    have hnot : ¬ s.caller.HasStarted :=
      fun hstarted => h.not_released hphase hnotified (h.started hstarted)
    cases hcaller : s.caller with
    | idle =>
        exact absurd ((h.idle.mp hcaller).symm.trans hphase) nofun
    | inStart =>
        rfl
    | _ =>
        exact absurd (hcaller ▸ trivial) hnot
  constructor
  · intro j
    rw [event_pc]
    split
    · next hj =>
        obtain rfl : j = i := hj
        exact ⟨rfl, h.unset hnotified, hphase, hstart⟩
    · exact (h.knows j).keep (fun _ => rfl) rfl (fun _ => rfl) fun _ => rfl
  · exact h.idle
  · exact h.inline
  · exact fun _ => .inr rfl
  · exact h.waited
  · exact fun _ => ⟨i, hphase⟩
  · refine fun _ => .inr ⟨i, ?_⟩
    rw [event_pc]
    exact if_pos rfl
  · exact nofun

theorem Placed.setStore
    (h : Placed s)
    (hguard : (asyncWait kind a).guard s (.event (.setStore i))) :
    Placed ((asyncWait kind a).next s (.event (.setStore i))) := by
  have hknows := h.knows i
  rw [show s.event.pc i = .setStore from hguard.1.1] at hknows
  obtain ⟨hnotified, -, hphase, hstart⟩ := hknows
  constructor
  · intro j
    rw [event_pc]
    split
    · next hj =>
        obtain rfl : j = i := hj
        exact ⟨hnotified, Nat.one_ne_zero, hphase, hstart⟩
    · next hj =>
        -- Only one thread is in a call of `set`.
        have hj : j ≠ i := hj
        have hknows := h.knows j
        cases hpc : s.event.pc j with
        | idle | waitLoad | waitFutex | waitSleep =>
            rw [hpc] at hknows
            exact hknows
        | setStore | setWake =>
            rw [hpc] at hknows
            exact absurd (Phase.final.inj (hknows.2.2.1.symm.trans hphase)) hj
        | resetStore =>
            rw [hpc] at hknows
            exact hknows
        | waitReturn =>
            rw [hpc] at hknows
            exact ⟨hknows.1, hknows.2.1, Nat.one_ne_zero⟩
  · exact h.idle
  · exact h.inline
  · exact h.started
  · exact fun _ => Nat.one_ne_zero
  · exact h.final
  · exact fun _ => .inl Nat.one_ne_zero
  · exact fun hn => absurd hnotified (ne_true_of_eq_false hn)

/-- The caller enters `wait` or leaves it. -/
theorem Placed.call
    {e : ManualResetEvent.Event Runner}
    (h : Placed s)
    (hpc : s.event.pc e.actor = e.source)
    (hactor : e.actor = .caller)
    (hnotified : s.notifiedAfter e = s.notified)
    (hshared : e.effect s.event.shared = s.event.shared)
    (hsource : e.source ≠ .setStore)
    (hstarted : s.caller.HasStarted)
    (hstarted' : (s.afterEvent e).HasStarted)
    (hwaited : (s.afterEvent e).HasWaited → s.event.shared.state ≠ 0)
    (hknows : Knows ((asyncWait kind a).next s (.event e)) .caller e.target) :
    Placed ((asyncWait kind a).next s (.event e)) := by
  have hstate : (e.effect s.event.shared).state = s.event.shared.state :=
    congrArg Futex.state hshared
  constructor
  · intro j
    rw [event_pc]
    by_cases hj : j = e.actor
    · rw [if_pos hj, hj, hactor]
      exact hknows
    · rw [if_neg hj]
      exact (h.knows j).keep (fun hn => hnotified.trans hn) hstate (fun _ => rfl)
        fun hcaller => absurd (hcaller.trans hactor.symm) hj
  · refine iff_of_false (fun hidle => ?_) fun hinitial => ?_
    · have hidle : s.afterEvent e = .idle := hidle
      rw [hidle] at hstarted'
      exact hstarted'
    · rw [h.idle.mpr hinitial] at hstarted
      exact hstarted
  · exact h.inline
  · exact fun _ => (h.started hstarted).imp_right fun hn => hnotified.trans hn
  · exact fun hw => hstate.trans_ne (hwaited hw)
  · exact fun hn => h.final (hnotified.symm.trans hn)
  · intro hn
    rcases h.stored (hnotified.symm.trans hn) with hword | ⟨j, hj⟩
    · exact .inl (hstate.trans_ne hword)
    · refine .inr ⟨j, ?_⟩
      rw [event_pc, if_neg]
      · exact hj
      · rintro rfl
        exact hsource (hpc.symm.trans hj)
  · exact fun hn => hstate.trans (h.unset (hnotified.symm.trans hn))

omit [Inhabited V] in
/-- The caller goes on with no call on the event. -/
theorem Placed.goOn
    {c : Caller V E}
    (h : Placed s)
    (hstart : s.caller ≠ .idle)
    (hpc : s.event.pc .caller = .idle)
    (hidle : c ≠ .idle)
    (hwaiting : c ≠ .waiting)
    (hstarted : s.coroutine.left = true ∨ s.notified = true)
    (hwaited : c.HasWaited → s.event.shared.state ≠ 0) :
    Placed { s with caller := c } where
  knows := by
    intro i
    cases i with
    | caller =>
        change Knows _ _ (s.event.pc .caller)
        rw [hpc]
        exact fun _ => hwaiting
    | other =>
        exact (h.knows .other).keep id rfl (fun _ => rfl) nofun
  idle := iff_of_false hidle fun hinitial => hstart (h.idle.mpr hinitial)
  inline := h.inline
  started := fun _ => hstarted
  waited := hwaited
  final := h.final
  stored := h.stored
  unset := h.unset

theorem Placed.step
    {e : Event σ ρ V E}
    (h : Placed s)
    (hguard : (asyncWait kind a).guard s e) :
    Placed ((asyncWait kind a).next s e) := by
  cases e with
  | task e =>
      exact h.task hguard
  | startReturns =>
      obtain ⟨hcaller, hpc, hstarted⟩ := hguard
      exact h.goOn (hcaller ▸ nofun) hpc nofun nofun hstarted nofun
  | readResult r =>
      obtain ⟨hcaller, -⟩ := hguard
      have hpc := h.pc_caller (hcaller ▸ nofun) (hcaller ▸ nofun)
      exact h.goOn (hcaller ▸ nofun) hpc nofun nofun (h.started (hcaller ▸ trivial))
        fun _ => h.waited (hcaller ▸ trivial)
  | event e =>
      obtain ⟨⟨hpc, hcheck⟩, hcalls⟩ := id hguard
      have hpc : s.event.pc e.actor = e.source := hpc
      have hknows := h.knows e.actor
      rw [hpc] at hknows
      cases e with
      | callSet i =>
          exact h.callSet hguard
      | setStore i =>
          exact h.setStore hguard
      | setWake i =>
          refine h.move hpc rfl rfl rfl nofun ?_
          rintro rfl hwaiting
          exact absurd ((hknows.2.2.2 rfl).symm.trans hwaiting) nofun
      | callReset i =>
          exact hcalls.elim
      | resetStore i =>
          exact hknows.elim
      | callWait i =>
          obtain ⟨rfl, hcaller⟩ := hcalls
          exact h.call hpc rfl rfl rfl nofun (hcaller ▸ trivial) trivial nofun ⟨rfl, rfl⟩
      | waitLoad i old =>
          exact h.move hpc rfl rfl rfl nofun (Knows.loaded hknows hcheck)
      | futexAgain i =>
          exact h.move hpc rfl rfl rfl nofun ⟨hknows.1, hknows.2, hcheck⟩
      | futexSleep i | futexInterrupted i | futexWoken i | futexLeave i =>
          exact h.move hpc rfl rfl rfl nofun hknows
      | waitReturn i =>
          obtain ⟨rfl, hcaller, hset⟩ := hknows
          exact h.call hpc rfl rfl rfl nofun (hcaller ▸ trivial) trivial (fun _ => hset)
            fun _ => nofun

theorem placed_of_run
    (hrun : (asyncWait kind a).Run tr s) :
    Placed s := by
  induction hrun with
  | start hinit =>
      obtain rfl := hinit
      exact placed_new
  | step e _ hguard ih =>
      exact ih.step hguard

end Places

section Left

variable {s : State σ V E}
variable [Inhabited V] {kind : Kind} {a : Awaitable σ ρ V E}
variable {es fs : List (Event σ ρ V E)} {e : Event σ ρ V E} {r : Option (Except E V)}

/-- After `async_wait` has returned, only the `FUTEX_WAKE` of `set` can be due. -/
theorem Placed.setWake_of_returned
    (h : Placed s)
    (hcaller : s.caller = .returned r)
    (hguard : (asyncWait kind a).guard s e) :
    e = .event (.setWake .other) := by
  have hset : s.event.shared.state ≠ 0 := h.waited (hcaller ▸ trivial)
  have hnotified : s.notified = true :=
    Bool.not_eq_false _ ▸ mt h.unset hset
  obtain ⟨who, hphase⟩ := h.final hnotified
  have hpc := h.pc_caller (hcaller ▸ nofun) (hcaller ▸ nofun)
  cases e with
  | task e =>
      exact absurd hguard (not_enabled_of_final hphase)
  | startReturns =>
      exact absurd (hcaller.symm.trans hguard.1) nofun
  | readResult r =>
      exact absurd (hcaller.symm.trans hguard.1) nofun
  | event e =>
      obtain ⟨⟨hsource, -⟩, hcalls⟩ := hguard
      have hsource : s.event.pc e.actor = e.source := hsource
      have hknows := h.knows e.actor
      rw [hsource] at hknows
      cases e with
      | callSet i =>
          exact absurd (hcalls.2.symm.trans hnotified) nofun
      | callReset i =>
          exact hcalls.elim
      | callWait i =>
          exact absurd (hcaller.symm.trans hcalls.2) nofun
      | setStore i =>
          exact absurd hknows.2.1 hset
      | setWake i =>
          cases i with
          | caller =>
              exact absurd (hpc.symm.trans hsource) nofun
          | other =>
              rfl
      | resetStore i =>
          exact hknows.elim
      | waitLoad i | futexSleep i | futexAgain i | futexInterrupted i | futexWoken i
      | futexLeave i =>
          exact absurd (hcaller.symm.trans hknows.2) nofun
      | waitReturn i =>
          exact absurd (hcaller.symm.trans hknows.2.1) nofun

/--
Once `async_wait` has returned and its event is gone, the thread that completed the
awaitable at most makes the `FUTEX_WAKE` of its `set`; it does not touch the word again.
-/
theorem asyncWait_left
    (hrun : (asyncWait kind a).Run (es ++ .readResult r :: fs) s) :
    fs = [] ∨ fs = [.event (.setWake .other)] := by
  obtain ⟨s₀, hrun₀, ⟨hguard, hfs⟩, -⟩ := hrun.split
  have hplaced := (placed_of_run hrun₀).step hguard
  cases fs with
  | nil =>
      exact .inl rfl
  | cons e fs =>
      refine .inr ?_
      obtain ⟨he, hfs⟩ := hfs
      obtain rfl := hplaced.setWake_of_returned rfl he
      have hplaced := hplaced.step he
      cases fs with
      | nil =>
          rfl
      | cons f fs =>
          -- After the `FUTEX_WAKE` the thread is in no call any more.
          obtain ⟨hf, -⟩ := hfs
          obtain rfl := hplaced.setWake_of_returned rfl hf
          exact absurd hf.1.1 nofun

/-- The caller reads the word between the two steps of `set`. -/
def readBeforeWake : List (Event Bool Unit Nat Nat) :=
  startAndWait ++ completeAndStore ++ readAndReturn

/-- What happens after `async_wait` has returned. -/
def wakeLast : List (Event Bool Unit Nat Nat) :=
  [.event (.setWake .other)]

theorem asyncWait_left_wakeLast :
    wakeLast = [] ∨ wakeLast = [.event (.setWake .other)] := by
  have hrun : (asyncWait .value scheduled).Run
      (readBeforeWake ++ .readResult (some (.ok 3)) :: wakeLast) _ :=
    .of_enabled rfl (by decide +kernel)
  exact asyncWait_left hrun

end Left

section Executions

variable [Inhabited V] {kind : Kind} {a : Awaitable σ ρ V E}

/-- The steps of thread `i` that are no steps of the coroutine. -/
def Event.Own (i : Runner) : Event σ ρ V E → Prop
  | task _ => False
  | event e => e.actor = i
  | startReturns => i = .caller
  | readResult _ => i = .caller

/-- Those of them that need no signal and no spurious wakeup. -/
def Event.Due (i : Runner) : Event σ ρ V E → Prop
  | task _ => False
  | event e => e.actor = i ∧ e.spurious = false
  | startReturns => i = .caller
  | readResult _ => i = .caller

variable {s : State σ V E} {e : Event σ ρ V E} {i who : Runner}

/-- A step of another thread leaves the thread where it is. -/
theorem pc_of_not_own
    (hother : ¬ e.Own i) :
    ((asyncWait kind a).next s e).event.pc i = s.event.pc i := by
  cases e with
  | event e =>
      rw [event_pc, if_neg (Ne.symm hother)]
  | _ =>
      rfl

/-- Nobody else moves the caller once the coroutine is at its final suspend. -/
theorem caller_of_not_own
    (hplaced : Placed s)
    (hphase : s.coroutine.phase = .final who)
    (hguard : (asyncWait kind a).guard s e)
    (hother : ¬ e.Own .caller) :
    ((asyncWait kind a).next s e).caller = s.caller := by
  cases e with
  | task e =>
      exact absurd hguard (not_enabled_of_final hphase)
  | startReturns | readResult r =>
      exact absurd rfl hother
  | event e =>
      obtain ⟨⟨hpc, -⟩, hcalls⟩ := hguard
      cases e with
      | callWait i =>
          exact absurd hcalls.1 hother
      | waitReturn i =>
          have hknows := hplaced.knows i
          rw [show s.event.pc i = .waitReturn from hpc] at hknows
          exact absurd hknows.1 hother
      | _ =>
          rfl

theorem phase_final
    (hphase : s.coroutine.phase = .final who)
    (hguard : (asyncWait kind a).guard s e) :
    ((asyncWait kind a).next s e).coroutine.phase = .final who := by
  cases e with
  | task e =>
      exact absurd hguard (not_enabled_of_final hphase)
  | _ =>
      exact hphase

variable {X : Execution (asyncWait kind a)} {n m : Nat}

theorem final_of_le
    (hphase : (X.state n).coroutine.phase = .final who)
    (hm : n ≤ m) :
    (X.state m).coroutine.phase = .final who :=
  X.stable (P := fun s => s.coroutine.phase = .final who) hphase
    (fun _ _ _ h _ hguard => phase_final h hguard) hm

/-- What happens to the event of `async_wait`. -/
def eventExecution (X : Execution (asyncWait kind a)) :
    Execution (manualResetEvent (ι := Runner)) :=
  X.project State.event Event.event?
    (by
      rintro s rfl
      rfl)
    (by
      intro s e _ hlabel
      cases e with
      | event e =>
          cases hlabel
      | _ =>
          rfl)
    (by
      intro s e d hguard hlabel
      cases e with
      | event e =>
          cases hlabel
          exact ⟨hguard.1, rfl⟩
      | _ =>
          cases hlabel)

/-- A thread that goes on with `async_wait` goes on with its calls on the event. -/
theorem fair_eventExecution
    (hfair : X.Fair (Event.Due i) (Event.Own i)) :
    (eventExecution X).Fair (ManualResetEvent.Event.Due i) (ManualResetEvent.Event.Own i) := by
  intro n hn
  have hcall : ∀ m, n ≤ m → (X.state m).event.pc i ≠ .idle := by
    intro m hm hidle
    obtain ⟨e, hdue, hpc, -⟩ := hn m hm
    obtain rfl := hdue.actor
    exact hdue.inCall (hpc.symm.trans hidle)
  obtain ⟨m, e, hm, he, hown⟩ := hfair n fun m hm => by
    obtain ⟨e, hdue, hguard⟩ := hn m hm
    refine ⟨.event e, ⟨hdue.actor, hdue.regular⟩, hguard, ?_⟩
    cases e with
    | callSet i | callReset i | callWait i =>
        exact absurd rfl hdue.inCall
    | _ =>
        trivial
  obtain ⟨hguard, -⟩ := X.step m e he
  cases e with
  | task e =>
      exact hown.elim
  | event e =>
      exact ⟨m, e, hm, Option.bind_eq_some_iff.mpr ⟨_, he, rfl⟩, hown⟩
  | startReturns =>
      obtain rfl : i = .caller := hown
      exact absurd hguard.2.1 (hcall m hm)
  | readResult r =>
      obtain rfl : i = .caller := hown
      obtain ⟨hcaller, -⟩ := hguard
      have hplaced := placed_of_run (X.run m)
      exact absurd (hplaced.pc_caller (hcaller ▸ nofun) (hcaller ▸ nofun)) (hcall m hm)

/-- The order in which the caller goes through `async_wait`. -/
def Follows : Caller V E → Caller V E → Prop
  | .inStart, c => c = .started
  | .started, c => c = .waiting
  | .waiting, c => c = .waited
  | .waited, c => ∃ r, c = .returned r
  | _, _ => False

theorem follows_of_ne
    (hplaced : Placed s)
    (hphase : s.coroutine.phase = .final who)
    (hguard : (asyncWait kind a).guard s e)
    (hne : ((asyncWait kind a).next s e).caller ≠ s.caller) :
    Follows s.caller ((asyncWait kind a).next s e).caller := by
  cases e with
  | task e =>
      exact absurd hguard (not_enabled_of_final hphase)
  | startReturns =>
      rw [hguard.1]
      rfl
  | readResult r =>
      rw [hguard.1]
      exact ⟨r, rfl⟩
  | event e =>
      obtain ⟨⟨hpc, -⟩, hcalls⟩ := hguard
      cases e with
      | callWait i =>
          rw [hcalls.2]
          rfl
      | waitReturn i =>
          have hknows := hplaced.knows i
          rw [show s.event.pc i = .waitReturn from hpc] at hknows
          rw [hknows.2.1]
          rfl
      | _ =>
          exact absurd rfl hne

/-- What the caller does between its calls on the event, once the event is set. -/
theorem follows_of_own
    (hphase : s.coroutine.phase = .final who)
    (hnotified : s.notified = true)
    (hpc : s.event.pc .caller = .idle)
    (hguard : (asyncWait kind a).guard s e)
    (hown : e.Own .caller) :
    Follows s.caller ((asyncWait kind a).next s e).caller := by
  cases e with
  | task e =>
      exact absurd hguard (not_enabled_of_final hphase)
  | startReturns =>
      rw [hguard.1]
      rfl
  | readResult r =>
      rw [hguard.1]
      exact ⟨r, rfl⟩
  | event e =>
      obtain ⟨⟨hsource, -⟩, hcalls⟩ := hguard
      have hidle : e.source = .idle := by
        rw [← hpc, ← show e.actor = .caller from hown]
        exact hsource.symm
      cases e with
      | callSet i =>
          exact absurd (hnotified.symm.trans hcalls.2) nofun
      | callReset i =>
          exact hcalls.elim
      | callWait i =>
          rw [hcalls.2]
          rfl
      | _ =>
          cases hidle

/-- What the thread that has brought the coroutine to its end does first. -/
theorem Placed.eq_callSet
    (h : Placed s)
    (hphase : s.coroutine.phase = .final who)
    (hnotified : s.notified = false)
    (hguard : (asyncWait kind a).guard s e)
    (hown : e.Own who) :
    e = .event (.callSet who) := by
  cases e with
  | task e =>
      exact hown.elim
  | startReturns =>
      obtain rfl : who = .caller := hown
      exact absurd hguard.2.2 (h.not_released hphase hnotified)
  | readResult r =>
      obtain rfl : who = .caller := hown
      exact absurd (h.started (hguard.1 ▸ trivial)) (h.not_released hphase hnotified)
  | event e =>
      obtain ⟨⟨hsource, -⟩, hcalls⟩ := hguard
      have hactor : e.actor = who := hown
      have hidle : e.source = .idle := by
        rw [← h.pc_final hphase hnotified, ← hactor]
        exact hsource.symm
      cases e with
      | callSet i =>
          obtain rfl : i = who := hown
          rfl
      | callReset i =>
          exact hcalls.elim
      | callWait i =>
          obtain ⟨rfl, hcaller⟩ := hcalls
          obtain rfl : .caller = who := hown
          exact absurd (h.started (hcaller ▸ trivial)) (h.not_released hphase hnotified)
      | _ =>
          cases hidle

/-- The thread that brings the coroutine to its end calls `set`. -/
theorem sets_of_final
    (hfair : X.Fair (Event.Due who) (Event.Own who))
    (hphase : (X.state n).coroutine.phase = .final who) :
    ∃ m, n ≤ m ∧ (X.state m).notified = true := by
  by_contra hnever
  have hpending : ∀ m, n ≤ m → (X.state m).notified = false :=
    fun m hm => Bool.eq_false_iff.mpr fun h => hnever ⟨m, hm, h⟩
  obtain ⟨m, e, hm, he, hown⟩ := hfair n fun m hm => by
    have hfinal := final_of_le hphase hm
    have hpc := (placed_of_run (X.run m)).pc_final hfinal (hpending m hm)
    exact ⟨.event (.callSet who), ⟨rfl, rfl⟩, ⟨hpc, trivial⟩, hfinal, hpending m hm⟩
  obtain ⟨hguard, hnext⟩ := X.step m e he
  obtain rfl := (placed_of_run (X.run m)).eq_callSet (final_of_le hphase hm)
    (hpending m hm) hguard hown
  refine hnever ⟨m + 1, Nat.le_succ_of_le hm, ?_⟩
  rw [hnext]
  rfl

/-- The word is stored. -/
theorem stores_of_notified
    (hfair : ∀ i, X.Fair (Event.Due i) (Event.Own i))
    (hnotified : (X.state n).notified = true) :
    ∃ m, n ≤ m ∧ (X.state m).event.shared.state ≠ 0 := by
  rcases (placed_of_run (X.run n)).stored hnotified with hset | ⟨j, hj⟩
  · exact ⟨n, Nat.le_refl n, hset⟩
  · obtain ⟨m, e, hm, hpc, -, hown, hguard, hnext⟩ := (hfair j).acts
      (P := fun s => s.event.pc j = .setStore) hj
      (fun m _ hpc => ⟨.event (.setStore j), ⟨rfl, rfl⟩, ⟨hpc, trivial⟩, trivial⟩)
      (fun m e _ hpc _ hother => (pc_of_not_own hother).trans hpc)
    refine ⟨m + 1, Nat.le_succ_of_le hm, ?_⟩
    rw [hnext]
    cases e with
    | task e =>
        exact hown.elim
    | startReturns =>
        obtain rfl : j = .caller := hown
        exact absurd (hguard.2.1.symm.trans hpc) nofun
    | readResult r =>
        obtain rfl : j = .caller := hown
        obtain ⟨hcaller, -⟩ := hguard
        have hidle := (placed_of_run (X.run m)).pc_caller (hcaller ▸ nofun) (hcaller ▸ nofun)
        exact absurd (hidle.symm.trans hpc) nofun
    | event e =>
        obtain ⟨⟨hsource, -⟩, -⟩ := hguard
        obtain rfl : e.actor = j := hown
        have hsource : e.source = .setStore := hsource.symm.trans hpc
        cases e with
        | setStore i =>
            exact Nat.one_ne_zero
        | _ =>
            cases hsource

theorem staysSet_eventExecution
    (hset : (X.state n).event.shared.state ≠ 0) :
    ManualResetEvent.StaysSet (eventExecution X) n := by
  refine ManualResetEvent.staysSet hset fun m _ i hpc => ?_
  have hpc : (X.state m).event.pc i = .resetStore := hpc
  have hknows := (placed_of_run (X.run m)).knows i
  rw [hpc] at hknows
  exact hknows

/-- From the moment `n` on the coroutine has ended and the event is set. -/
structure Completed (X : Execution (asyncWait kind a)) (who : Runner) (n : Nat) : Prop where
  final : ∀ m, n ≤ m → (X.state m).coroutine.phase = .final who
  notified : ∀ m, n ≤ m → (X.state m).notified = true
  set : ManualResetEvent.StaysSet (eventExecution X) n

theorem completed_of_final
    (hfair : ∀ i, X.Fair (Event.Due i) (Event.Own i))
    (hphase : (X.state n).coroutine.phase = .final who) :
    ∃ m, n ≤ m ∧ Completed X who m := by
  obtain ⟨k, hk, hnotified⟩ := sets_of_final (hfair who) hphase
  obtain ⟨m, hm, hset⟩ := stores_of_notified hfair hnotified
  have hn := Nat.le_trans hk hm
  have hset := staysSet_eventExecution hset
  refine ⟨m, hn, ?_, ?_, hset⟩
  · intro l hl
    exact final_of_le hphase (Nat.le_trans hn hl)
  · intro l hl
    exact Bool.not_eq_false _ ▸ mt (placed_of_run (X.run l)).unset (hset l hl)

/-- The caller goes on as long as it is in no call on the event. -/
theorem Completed.goesOn
    {c : Caller V E}
    (h : Completed X who n)
    (hfair : X.Fair (Event.Due .caller) (Event.Own .caller))
    (hn : n ≤ m)
    (hcaller : (X.state m).caller = c)
    (hpc : (X.state m).event.pc .caller = .idle)
    (henabled : ∀ k, n ≤ k → (X.state k).caller = c → (X.state k).event.pc .caller = .idle →
      ∃ e : Event σ ρ V E, e.Due .caller ∧ (asyncWait kind a).guard (X.state k) e) :
    ∃ k, n ≤ k ∧ Follows c (X.state k).caller := by
  obtain ⟨k, e, hk, ⟨rfl, hpc⟩, -, hown, hguard, hnext⟩ := hfair.acts
    (P := fun s => s.caller = c ∧ s.event.pc .caller = .idle) ⟨hcaller, hpc⟩
    (fun k hk hP => henabled k (Nat.le_trans hn hk) hP.1 hP.2)
    (fun k e hk hP hguard hother => by
      have hplaced := placed_of_run (X.run k)
      have hfinal := h.final k (Nat.le_trans hn hk)
      exact ⟨(caller_of_not_own hplaced hfinal hguard hother).trans hP.1,
        (pc_of_not_own hother).trans hP.2⟩)
  have hk' := Nat.le_trans hn hk
  refine ⟨k + 1, Nat.le_succ_of_le hk', ?_⟩
  rw [hnext]
  exact follows_of_own (h.final k hk') (h.notified k hk') hpc hguard hown

/-- If the caller has left a point, it has gone on to the next one. -/
theorem Completed.left
    {c : Caller V E}
    {k : Nat}
    (h : Completed X who n)
    (hn : n ≤ m)
    (hcaller : (X.state m).caller = c)
    (hk : m ≤ k)
    (hleft : (X.state k).caller ≠ c) :
    ∃ k, n ≤ k ∧ Follows c (X.state k).caller := by
  obtain ⟨l, e, hl, rfl, hguard, hnext, hleft⟩ := Execution.exists_leave
    (P := fun s : State σ V E => s.caller = c) hk hcaller hleft
  have hl' := Nat.le_trans hn hl
  refine ⟨l + 1, Nat.le_succ_of_le hl', ?_⟩
  rw [hnext] at hleft ⊢
  exact follows_of_ne (placed_of_run (X.run l)) (h.final l hl') hguard hleft

theorem Completed.reads
    (h : Completed X who n)
    (hfair : X.Fair (Event.Due .caller) (Event.Own .caller))
    (hn : n ≤ m)
    (hcaller : (X.state m).caller = .waited) :
    ∃ k r, (X.state k).caller = .returned r := by
  have hplaced := placed_of_run (X.run m)
  have hpc := hplaced.pc_caller (hcaller ▸ nofun) (hcaller ▸ nofun)
  obtain ⟨k, -, hread⟩ := h.goesOn hfair hn hcaller hpc fun k _ hk _ =>
    ⟨.readResult _, rfl, hk, rfl⟩
  exact ⟨k, hread⟩

/-- `wait` returns. -/
theorem Completed.waits
    (h : Completed X who n)
    (hfair : ∀ i, X.Fair (Event.Due i) (Event.Own i))
    (hn : n ≤ m)
    (hcaller : (X.state m).caller = .waiting) :
    ∃ k r, (X.state k).caller = .returned r := by
  obtain ⟨k, hk, hidle⟩ := h.set.idle (fun i => fair_eventExecution (hfair i)) hn .caller
  have hknows := (placed_of_run (X.run k)).knows .caller
  rw [show (X.state k).event.pc .caller = .idle from hidle] at hknows
  obtain ⟨l, hl, hwaited⟩ := h.left hn hcaller hk (hknows rfl)
  exact h.reads (hfair .caller) hl hwaited

theorem Completed.enters
    (h : Completed X who n)
    (hfair : ∀ i, X.Fair (Event.Due i) (Event.Own i))
    (hn : n ≤ m)
    (hcaller : (X.state m).caller = .started) :
    ∃ k r, (X.state k).caller = .returned r := by
  have hplaced := placed_of_run (X.run m)
  have hpc := hplaced.pc_caller (hcaller ▸ nofun) (hcaller ▸ nofun)
  obtain ⟨k, hk, hwaiting⟩ := h.goesOn (hfair .caller) hn hcaller hpc fun k _ hk hidle =>
    ⟨.event (.callWait .caller), ⟨rfl, rfl⟩, ⟨hidle, trivial⟩, rfl, hk⟩
  exact h.waits hfair hk hwaiting

/-- `start()` returns. -/
theorem Completed.starts
    (h : Completed X who n)
    (hfair : ∀ i, X.Fair (Event.Due i) (Event.Own i))
    (hcaller : (X.state n).caller = .inStart) :
    ∃ k r, (X.state k).caller = .returned r := by
  obtain ⟨m, hm, hidle⟩ :=
    h.set.idle (fun i => fair_eventExecution (hfair i)) (Nat.le_refl n) .caller
  have hstarted : ∃ k, n ≤ k ∧ (X.state k).caller = .started := by
    by_cases hstays : (X.state m).caller = .inStart
    · exact h.goesOn (hfair .caller) hm hstays hidle fun k hk hin hpc =>
        ⟨.startReturns, rfl, hin, hpc, .inr (h.notified k hk)⟩
    · exact h.left (Nat.le_refl n) hcaller hm hstays
  obtain ⟨k, hk, hstarted⟩ := hstarted
  exact h.enters hfair hk hstarted

/-- Whoever completes the awaitable, `async_wait` returns. -/
theorem returns_of_final
    (hfair : ∀ i, X.Fair (Event.Due i) (Event.Own i))
    (hphase : (X.state n).coroutine.phase = .final who) :
    ∃ k r, (X.state k).caller = .returned r := by
  obtain ⟨m, -, h⟩ := completed_of_final hfair hphase
  cases hcaller : (X.state m).caller with
  | idle =>
      have hinitial := (placed_of_run (X.run m)).idle.mp hcaller
      exact absurd (hinitial.symm.trans (h.final m (Nat.le_refl m))) nofun
  | inStart =>
      exact h.starts hfair hcaller
  | started =>
      exact h.enters hfair (Nat.le_refl m) hcaller
  | waiting =>
      exact h.waits hfair (Nat.le_refl m) hcaller
  | waited =>
      exact h.reads (hfair .caller) (Nat.le_refl m) hcaller
  | returned r =>
      exact ⟨m, r, hcaller⟩

end Executions

section Outcome

variable [Inhabited V] {kind : Kind} {a : Awaitable σ ρ V E}
variable {tr : List (Event σ ρ V E)} {s : State σ V E} {r : Option (Except E V)}

/-- What `async_wait` has returned is the outcome of the awaitable. -/
theorem outcome_of_returned
    (hrun : (asyncWait kind a).Run tr s)
    (hcaller : s.caller = .returned r) :
    ∃ o, outcomes (taskSteps tr) = [o] ∧ r = some (o.map kind.returned) := by
  have hresult : r = s.coroutine.promise.result kind := by
    induction hrun with
    | start hinit =>
        obtain rfl := hinit
        cases hcaller
    | @step tr s e hrun hguard ih =>
        cases e with
        | task e =>
            have hphase : ∀ who, s.coroutine.phase ≠ .final who :=
              fun who hfinal => not_enabled_of_final hfinal hguard
            cases e with
            | start =>
                cases hcaller
            | _ =>
                have hcaller : s.caller = .returned r := hcaller
                obtain ⟨who, hfinal, -⟩ := signalled_of_hasWaited hrun (hcaller ▸ trivial)
                exact absurd hfinal (hphase who)
        | startReturns =>
            cases hcaller
        | readResult r =>
            cases hcaller
            exact hguard.2
        | event e =>
            cases e with
            | callWait i =>
                cases hcaller
            | waitReturn i =>
                cases hcaller
            | _ =>
                exact ih hcaller
  obtain ⟨who, hphase, -⟩ := signalled_of_hasWaited hrun (hcaller ▸ trivial)
  obtain ⟨o, houtcomes, hstored⟩ := result_of_final (task_run hrun) hphase
  exact ⟨o, houtcomes, hresult.trans hstored⟩

theorem final_of_outcomes
    {o : Except E V}
    (hrun : (asyncWait kind a).Run tr s)
    (houtcomes : outcomes (taskSteps tr) = [o]) :
    ∃ who, s.coroutine.phase = .final who := by
  have hstored := stored_of_run (task_run hrun)
  cases hphase : s.coroutine.phase with
  | final who =>
      exact ⟨who, rfl⟩
  | _ =>
      rw [hphase] at hstored
      exact absurd (houtcomes.symm.trans hstored.1) nofun

/-- The awaitable completes once. -/
theorem outcome_unique
    {X : Execution (asyncWait kind a)} {n k : Nat} {o o' : Except E V}
    (ho : outcomes (taskSteps (X.trace n)) = [o])
    (ho' : outcomes (taskSteps (X.trace k)) = [o']) :
    o = o' := by
  have hprefix : ∀ m, m ≤ max n k →
      outcomes (taskSteps (X.trace m)) <+: outcomes (taskSteps (X.trace (max n k))) :=
    fun m hm => ((X.trace_prefix hm).filterMap _).filterMap _
  obtain ⟨t, ht⟩ := hprefix n (Nat.le_max_left n k)
  obtain ⟨t', ht'⟩ := hprefix k (Nat.le_max_right n k)
  rw [ho] at ht
  rw [ho'] at ht'
  exact List.head_eq_of_cons_eq (ht.trans ht'.symm)

/--
`async_wait` returns or throws `r` exactly if the awaitable completes with this outcome,
on whatever thread, before or after the caller has gone to sleep.
-/
theorem asyncWait_returns
    {X : Execution (asyncWait kind a)}
    (hfair : ∀ i, X.Fair (Event.Due i) (Event.Own i)) :
    (∃ n, (X.state n).caller = .returned r) ↔
      ∃ n o, outcomes (taskSteps (X.trace n)) = [o] ∧ r = some (o.map kind.returned) := by
  constructor
  · rintro ⟨n, hcaller⟩
    exact ⟨n, outcome_of_returned (X.run n) hcaller⟩
  · rintro ⟨n, o, houtcomes, rfl⟩
    obtain ⟨who, hphase⟩ := final_of_outcomes (X.run n) houtcomes
    obtain ⟨k, r, hcaller⟩ := returns_of_final hfair hphase
    obtain ⟨o', houtcomes', rfl⟩ := outcome_of_returned (X.run k) hcaller
    obtain rfl := outcome_unique houtcomes houtcomes'
    exact ⟨k, hcaller⟩

/-- The schedule in which the caller sleeps until the awaitable completes. -/
def slept : Execution (asyncWait .value scheduled) :=
  .ofEnabled _ .new sleepAndRead rfl (by decide +kernel)

theorem asyncWait_returns_slept :
    (∃ n, (slept.state n).caller = .returned (some (.ok 3))) ↔
      ∃ n o, outcomes (taskSteps (slept.trace n)) = [o] ∧
        some (.ok 3) = some (o.map Kind.value.returned) := by
  refine asyncWait_returns fun i => Execution.fair_ofEnabled fun e _ hguard => ?_
  -- The caller has returned, and nobody is in `set` any more.
  have hrun : (asyncWait .value scheduled).Run sleepAndRead _ :=
    .of_enabled rfl (by decide +kernel)
  obtain rfl := (placed_of_run hrun).setWake_of_returned rfl hguard
  exact absurd hguard (by decide +kernel)

end Outcome

end AsyncWaitTask
end Ptl

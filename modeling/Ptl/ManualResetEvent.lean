import Ptl.ThreadProgram

/-!
# `linux_manual_reset_event`

This module embeds `set`, `reset` and `wait` of `sync/event.hpp` as a program of
any number of threads over the futex word and the threads that sleep on it.
Every access of the word and every system call is one step.

* `FUTEX_WAIT` compares the word with `old` and puts the thread to sleep, or
  fails with `EAGAIN`; a signal may interrupt it, before or while it sleeps, and
  it may return without reason.
* `FUTEX_WAKE` wakes all sleepers.

**Results.**
* `pendingWake_of_reachable`: if the word is set and a thread sleeps, another thread
  has stored the word and not yet made its `FUTEX_WAKE`.
* `manualResetEvent_keepsWakeups`: no wakeup is lost, and `wait` returns only if
  the event was set at some instant of the call.
-/

namespace Ptl
namespace ManualResetEvent

open Transition

universe u

/-- `state_`, and the threads in the kernel's queue for its address. -/
structure Futex (ι : Type u) where
  state : Nat
  asleep : ι → Bool

namespace Futex

variable {ι : Type u}

/-- `state_.store(v)`. -/
def store (m : Futex ι) (v : Nat) : Futex ι :=
  { m with state := v }

/-- The thread is put to sleep. -/
def sleep [DecidableEq ι] (m : Futex ι) (i : ι) : Futex ι :=
  { m with asleep := Function.update m.asleep i true }

/-- The thread leaves the queue on its own. -/
def leave [DecidableEq ι] (m : Futex ι) (i : ι) : Futex ι :=
  { m with asleep := Function.update m.asleep i false }

/-- `FUTEX_WAKE` of `INT32_MAX` threads. -/
def wakeAll (m : Futex ι) : Futex ι :=
  { m with asleep := fun _ => false }

theorem asleep_of_sleep [DecidableEq ι]
    {m : Futex ι} {i j : ι}
    (h : (m.sleep i).asleep j = true)
    (hj : j ≠ i) :
    m.asleep j = true := by
  simpa [sleep, hj] using h

theorem asleep_of_leave [DecidableEq ι]
    {m : Futex ι} {i j : ι}
    (h : (m.leave i).asleep j = true) :
    j ≠ i ∧ m.asleep j = true := by
  by_cases hj : j = i
  · simp [leave, hj] at h
  · simpa [leave, hj] using h

end Futex

/-- Control points of a thread that uses the event. -/
inductive Pc where
  | idle
  | setStore
  | setWake
  | resetStore
  | waitLoad
  | waitFutex
  | waitSleep
  | waitReturn
deriving DecidableEq

/-- The atomic steps, each with the thread that takes it. -/
inductive Event (ι : Type u) where
  | callSet (i : ι)
  | setStore (i : ι)
  | setWake (i : ι)
  | callReset (i : ι)
  | resetStore (i : ι)
  | callWait (i : ι)
  | waitLoad (i : ι) (old : Nat)
  | futexSleep (i : ι)
  | futexAgain (i : ι)
  | futexInterrupted (i : ι)
  | futexWoken (i : ι)
  | futexLeave (i : ι)
  | waitReturn (i : ι)
deriving DecidableEq

namespace Event

variable {ι : Type u}

def actor : Event ι → ι
  | callSet i => i
  | setStore i => i
  | setWake i => i
  | callReset i => i
  | resetStore i => i
  | callWait i => i
  | waitLoad i _ => i
  | futexSleep i => i
  | futexAgain i => i
  | futexInterrupted i => i
  | futexWoken i => i
  | futexLeave i => i
  | waitReturn i => i

def source : Event ι → Pc
  | callSet _ => .idle
  | setStore _ => .setStore
  | setWake _ => .setWake
  | callReset _ => .idle
  | resetStore _ => .resetStore
  | callWait _ => .idle
  | waitLoad _ _ => .waitLoad
  | futexSleep _ => .waitFutex
  | futexAgain _ => .waitFutex
  | futexInterrupted _ => .waitFutex
  | futexWoken _ => .waitSleep
  | futexLeave _ => .waitSleep
  | waitReturn _ => .waitReturn

/-- Only `EAGAIN` and a word that is not zero end the loop of `wait`. -/
def target : Event ι → Pc
  | callSet _ => .setStore
  | setStore _ => .setWake
  | setWake _ => .idle
  | callReset _ => .resetStore
  | resetStore _ => .idle
  | callWait _ => .waitLoad
  | waitLoad _ old => if old = 0 then .waitFutex else .waitReturn
  | futexSleep _ => .waitSleep
  | futexAgain _ => .waitReturn
  | futexInterrupted _ => .waitLoad
  | futexWoken _ => .waitLoad
  | futexLeave _ => .waitLoad
  | waitReturn _ => .idle

/-- What a step reads; `FUTEX_WAIT` compares the word with the zero that was loaded. -/
def check (m : Futex ι) : Event ι → Prop
  | waitLoad _ old => old = m.state
  | futexSleep _ => m.state = 0
  | futexAgain _ => m.state ≠ 0
  | futexWoken i => m.asleep i = false
  | futexLeave i => m.asleep i = true
  | _ => True

variable [DecidableEq ι]

def effect (m : Futex ι) : Event ι → Futex ι
  | setStore _ => m.store 1
  | setWake _ => m.wakeAll
  | resetStore _ => m.store 0
  | futexSleep i => m.sleep i
  | futexLeave i => m.leave i
  | _ => m

omit [DecidableEq ι] in
instance decidableCheck (m : Futex ι) (e : Event ι) :
    Decidable (e.check m) := by
  cases e <;> unfold check <;> infer_instance

end Event

variable {ι : Type u} [DecidableEq ι]

/-- The steps of all threads. -/
def program : Program ι Pc (Futex ι) (Event ι) where
  actor := Event.actor
  source := Event.source
  target := Event.target
  check := Event.check
  effect := Event.effect

/-- A new event that nobody uses yet. -/
def start : Config ι Pc (Futex ι) where
  shared :=
    { state := 0
      asleep := fun _ => false }
  pc := fun _ => .idle

/-- All interleavings of calls on one event. -/
def manualResetEvent : System (Config ι Pc (Futex ι)) (Event ι) :=
  program.system fun s => s = start

instance decidableEventGuard (s : Config ι Pc (Futex ι)) (e : Event ι) :
    Decidable (manualResetEvent.guard s e) :=
  inferInstanceAs (Decidable (s.pc e.actor = e.source ∧ e.check s.shared))

section Wakeups

/-- A sleeper is inside `FUTEX_WAIT`, and somebody is about to wake it if the event is set. -/
structure PendingWake (s : Config ι Pc (Futex ι)) : Prop where
  sleeper : ∀ i, s.shared.asleep i = true → s.pc i = .waitSleep
  wake : s.shared.state ≠ 0 → (∃ i, s.shared.asleep i = true) →
    ∃ j, s.pc j = .setWake

variable {s : Config ι Pc (Futex ι)} {e : Event ι}

theorem next_pc (j : ι) :
    (manualResetEvent.next s e).pc j =
      if j = e.actor then e.target else s.pc j := by
  by_cases hj : j = e.actor
  · subst hj
    rw [if_pos rfl]
    exact Program.system_next_pc_actor (P := program) s e
  · rw [if_neg hj]
    exact Program.system_next_pc_of_ne (P := program) s e hj

/-- A step that leaves the futex alone and is not a `FUTEX_WAKE`. -/
theorem PendingWake.silent
    (hs : PendingWake s)
    (hpc : s.pc e.actor = e.source)
    (heffect : e.effect s.shared = s.shared)
    (hsleep : e.source = .waitSleep → s.shared.asleep e.actor = false)
    (hwake : e.source ≠ .setWake) :
    PendingWake (manualResetEvent.next s e) := by
  have hshared : (manualResetEvent.next s e).shared = s.shared := heffect
  constructor
  · intro i hi
    rw [hshared] at hi
    have hold := hs.sleeper i hi
    rw [next_pc]
    by_cases hactor : i = e.actor
    · subst hactor
      rw [hsleep (hpc.symm.trans hold)] at hi
      cases hi
    · rwa [if_neg hactor]
  · intro hstate hasleep
    rw [hshared] at hstate hasleep
    obtain ⟨j, hj⟩ := hs.wake hstate hasleep
    refine ⟨j, ?_⟩
    rw [next_pc, if_neg]
    · exact hj
    · intro hactor
      subst hactor
      exact hwake (hpc.symm.trans hj)

theorem PendingWake.step
    (hs : PendingWake s)
    (hguard : manualResetEvent.guard s e) :
    PendingWake (manualResetEvent.next s e) := by
  obtain ⟨hpc, hcheck⟩ := hguard
  change s.pc e.actor = e.source at hpc
  cases e with
  | callSet i =>
      exact hs.silent hpc rfl nofun nofun
  | setStore i =>
      constructor
      · intro j hj
        have hold := hs.sleeper j hj
        have hne : j ≠ i := by
          intro heq
          subst heq
          exact absurd (hold.symm.trans hpc) nofun
        rw [next_pc, Event.actor, if_neg hne]
        exact hold
      · intro _ _
        refine ⟨i, ?_⟩
        rw [next_pc, Event.actor, if_pos rfl]
        rfl
  | setWake i =>
      constructor
      · intro j hj
        exact absurd hj Bool.false_ne_true
      · intro _ hasleep
        obtain ⟨j, hj⟩ := hasleep
        exact absurd hj Bool.false_ne_true
  | callReset i =>
      exact hs.silent hpc rfl nofun nofun
  | resetStore i =>
      constructor
      · intro j hj
        have hold := hs.sleeper j hj
        have hne : j ≠ i := by
          intro heq
          subst heq
          exact absurd (hold.symm.trans hpc) nofun
        rw [next_pc, Event.actor, if_neg hne]
        exact hold
      · intro hstate
        exact absurd rfl hstate
  | callWait i =>
      exact hs.silent hpc rfl nofun nofun
  | waitLoad i old =>
      exact hs.silent hpc rfl nofun nofun
  | futexSleep i =>
      constructor
      · intro j hj
        rw [next_pc, Event.actor]
        by_cases hji : j = i
        · rw [if_pos hji]
          rfl
        · rw [if_neg hji]
          exact hs.sleeper j (Futex.asleep_of_sleep hj hji)
      · intro hstate
        exact absurd hcheck hstate
  | futexAgain i =>
      exact hs.silent hpc rfl nofun nofun
  | futexInterrupted i =>
      exact hs.silent hpc rfl nofun nofun
  | futexWoken i =>
      exact hs.silent hpc rfl (fun _ => hcheck) nofun
  | futexLeave i =>
      constructor
      · intro j hj
        obtain ⟨hji, hold⟩ := Futex.asleep_of_leave hj
        rw [next_pc, Event.actor, if_neg hji]
        exact hs.sleeper j hold
      · intro hstate hasleep
        obtain ⟨j, hj⟩ := hasleep
        obtain ⟨k, hk⟩ := hs.wake hstate ⟨j, (Futex.asleep_of_leave hj).2⟩
        have hne : k ≠ i := by
          intro heq
          subst heq
          exact absurd (hk.symm.trans hpc) nofun
        refine ⟨k, ?_⟩
        rw [next_pc, Event.actor, if_neg hne]
        exact hk
  | waitReturn i =>
      exact hs.silent hpc rfl nofun nofun

theorem pendingWake_of_reachable
    (hs : manualResetEvent.Reachable s) :
    PendingWake s := by
  refine hs.invariant ?_ fun s e hI hguard => hI.step hguard
  intro s hinit
  obtain rfl : s = start := hinit
  constructor
  · intro i hi
    cases hi
  · intro hstate
    exact absurd rfl hstate

end Wakeups

section Returns

/-- The word after a trace. -/
def stateAfter (es : List (Event ι)) : Nat :=
  (manualResetEvent.exec start es).shared.state

/-- The thread has called `wait`; `mid` has happened since. -/
def InCall (past : List (Event ι)) (i : ι) : Prop :=
  ∃ es mid, past = es ++ .callWait i :: mid ∧ .callWait i ∉ mid

/-- The event was set at some instant since the thread called `wait`. -/
def SetDuring (past : List (Event ι)) (i : ι) : Prop :=
  ∃ es mid fs, past = es ++ .callWait i :: (mid ++ fs) ∧
    .callWait i ∉ mid ++ fs ∧
    stateAfter (es ++ .callWait i :: mid) ≠ 0

/-- `wait` returns only if the event was set during the call. -/
def ReturnsIfSet (past : List (Event ι)) (e : Event ι) : Prop :=
  ∀ i, e = .waitReturn i → SetDuring past i

/-- What is known at each control point of `wait`. -/
def Waits (past : List (Event ι)) (i : ι) : Pc → Prop
  | .waitLoad => InCall past i
  | .waitFutex => InCall past i
  | .waitSleep => InCall past i
  | .waitReturn => SetDuring past i
  | _ => True

variable {tr : List (Event ι)} {i : ι} {e : Event ι}

omit [DecidableEq ι] in
theorem InCall.append
    (h : InCall tr i)
    (he : e ≠ .callWait i) :
    InCall (tr ++ [e]) i := by
  obtain ⟨es, mid, rfl, hmid⟩ := h
  refine ⟨es, mid ++ [e], by simp, ?_⟩
  rw [List.mem_append, List.mem_singleton]
  exact not_or.mpr ⟨hmid, he.symm⟩

theorem SetDuring.append
    (h : SetDuring tr i)
    (he : e ≠ .callWait i) :
    SetDuring (tr ++ [e]) i := by
  obtain ⟨es, mid, fs, rfl, hmid, hset⟩ := h
  refine ⟨es, mid, fs ++ [e], by simp, ?_, hset⟩
  rw [← List.append_assoc, List.mem_append, List.mem_singleton]
  exact not_or.mpr ⟨hmid, he.symm⟩

/-- The event is set at this very instant of the call. -/
theorem InCall.setDuring
    (h : InCall tr i)
    (hset : stateAfter tr ≠ 0)
    (he : e ≠ .callWait i) :
    SetDuring (tr ++ [e]) i := by
  obtain ⟨es, mid, rfl, hmid⟩ := h
  refine ⟨es, mid, [e], by simp, ?_, hset⟩
  rw [List.mem_append, List.mem_singleton]
  exact not_or.mpr ⟨hmid, he.symm⟩

theorem Waits.append
    {p : Pc}
    (h : Waits tr i p)
    (he : e ≠ .callWait i) :
    Waits (tr ++ [e]) i p := by
  cases p with
  | waitLoad =>
      exact InCall.append h he
  | waitFutex =>
      exact InCall.append h he
  | waitSleep =>
      exact InCall.append h he
  | waitReturn =>
      exact SetDuring.append h he
  | _ =>
      exact trivial

/-- A step leads its thread to a point whose assertion holds. -/
theorem waits_step
    (h : Waits tr e.actor e.source)
    (hcheck : e.check (manualResetEvent.exec start tr).shared) :
    Waits (tr ++ [e]) e.actor e.target := by
  cases e with
  | callWait i =>
      exact ⟨tr, [], rfl, List.not_mem_nil⟩
  | waitLoad i old =>
      by_cases hold : old = 0
      · rw [Event.target, if_pos hold]
        exact InCall.append h nofun
      · rw [Event.target, if_neg hold]
        have hread : old = stateAfter tr := hcheck
        exact InCall.setDuring h (hread ▸ hold) nofun
  | futexSleep i =>
      exact InCall.append h nofun
  | futexAgain i =>
      exact InCall.setDuring h hcheck nofun
  | futexInterrupted i =>
      exact InCall.append h nofun
  | futexWoken i =>
      exact InCall.append h nofun
  | futexLeave i =>
      exact InCall.append h nofun
  | _ =>
      exact trivial

theorem waits_of_run
    {s : Config ι Pc (Futex ι)}
    (hrun : manualResetEvent.Run tr s) :
    s.shared = (manualResetEvent.exec start tr).shared ∧
      ∀ i, Waits tr i (s.pc i) := by
  refine Program.outline
    (P := program)
    (B := fun _ => True)
    (G := fun tr m => m = (manualResetEvent.exec start tr).shared)
    (A := fun tr _ i p => Waits tr i p)
    (fun _ _ h => h) ?_ ?_ ?_ ?_ hrun trivial
  · intro s hs
    obtain rfl : s = start := hs
    exact ⟨rfl, fun _ => trivial⟩
  · intro tr m e _ hm _ _
    rw [System.exec_append, hm]
    rfl
  · intro tr m e _ hm hactor hcheck
    subst hm
    exact waits_step hactor hcheck
  · intro tr m e _ _ _ _ j p hj hp
    refine hp.append ?_
    intro he
    subst he
    exact hj rfl

theorem callSet_of_state
    {s : Config ι Pc (Futex ι)}
    (hrun : manualResetEvent.Run tr s)
    (hstate : s.shared.state ≠ 0) :
    ∃ j, .callSet j ∈ tr := by
  have hcalled := Program.outline
    (P := program)
    (B := fun _ => True)
    (G := fun tr m => m.state ≠ 0 → ∃ j, .callSet j ∈ tr)
    (A := fun tr _ i p => p = .setStore → .callSet i ∈ tr)
    (fun _ _ h => h) ?_ ?_ ?_ ?_ hrun trivial
  · exact hcalled.1 hstate
  · intro s hs
    obtain rfl : s = start := hs
    exact ⟨fun h => absurd rfl h, fun _ => nofun⟩
  · intro tr m e _ hm hactor _ hnext
    cases e with
    | setStore i =>
        exact ⟨i, List.mem_append_left _ (hactor rfl)⟩
    | resetStore i =>
        exact absurd rfl hnext
    | _ =>
        obtain ⟨j, hj⟩ := hm hnext
        exact ⟨j, List.mem_append_left _ hj⟩
  · intro tr m e _ _ _ _ htarget
    cases e with
    | callSet i =>
        exact List.mem_append_right _ List.mem_cons_self
    | waitLoad i old =>
        by_cases hold : old = 0
        · simp [program, Event.target, hold] at htarget
        · simp [program, Event.target, hold] at htarget
    | _ =>
        cases htarget
  · intro tr m e _ _ _ _ j p _ hp hpc
    exact List.mem_append_left _ (hp hpc)

/-- When `wait` returns, somebody has called `set`. -/
theorem callSet_of_waitReturn
    {s : Config ι Pc (Futex ι)}
    (hrun : manualResetEvent.Run tr s)
    (hpc : s.pc i = .waitReturn) :
    ∃ j, .callSet j ∈ tr := by
  have hwaits := (waits_of_run hrun).2 i
  rw [hpc] at hwaits
  obtain ⟨es, mid, fs, rfl, -, hset⟩ := hwaits
  rw [← List.cons_append, ← List.append_assoc] at hrun ⊢
  obtain ⟨s₀, hrun₀, -, -⟩ := hrun.split
  obtain ⟨j, hj⟩ := callSet_of_state hrun₀ (by
    rw [hrun₀.eq_exec fun _ h => h]
    exact hset)
  exact ⟨j, List.mem_append_left _ hj⟩

/--
No wakeup is lost: whenever the event is set and a thread is asleep in the
kernel, some `set` is between its store and its wake.  And `wait` returns only
if the event was set at some instant of the call.
-/
theorem manualResetEvent_keepsWakeups
    {s : Config ι Pc (Futex ι)}
    (hrun : manualResetEvent.Run tr s) :
    System.History ReturnsIfSet tr ∧
      ¬ (s.shared.state ≠ 0 ∧
        (∃ i, s.shared.asleep i = true) ∧
        ∀ j, s.pc j ≠ .setWake) := by
  constructor
  · refine hrun.history ?_
    intro tr s e hrun hguard i he
    subst he
    have hwaits := (waits_of_run hrun).2 i
    rw [show s.pc i = .waitReturn from hguard.1] at hwaits
    exact hwaits
  · intro hlost
    obtain ⟨hstate, hasleep, hnone⟩ := hlost
    obtain ⟨j, hj⟩ := (pendingWake_of_reachable ⟨tr, hrun⟩).wake hstate hasleep
    exact hnone j hj

/-- One thread sleeps until another one sets the event. -/
def sleepAndWake : List (Event Bool) :=
  [.callWait false, .waitLoad false 0, .futexSleep false, .callSet true,
    .setStore true, .setWake true, .futexWoken false, .waitLoad false 1,
    .waitReturn false]

/-- The final state of the schedule. -/
def woken : Config Bool Pc (Futex Bool) :=
  manualResetEvent.exec start sleepAndWake

theorem manualResetEvent_keepsWakeups_sleepAndWake :
    System.History ReturnsIfSet sleepAndWake ∧
      ¬ (woken.shared.state ≠ 0 ∧
        (∃ i, woken.shared.asleep i = true) ∧
        ∀ j, woken.pc j ≠ .setWake) :=
  manualResetEvent_keepsWakeups (.of_enabled rfl (by decide +kernel))

end Returns

end ManualResetEvent
end Ptl

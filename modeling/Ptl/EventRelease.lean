import Ptl.FairExecution
import Ptl.ManualResetEvent

/-!
# `set` releases the waiting threads

Executions of `linux_manual_reset_event` in which every thread that can go on with a
call does go on.  Signals and spurious wakeups may happen at any time, but nobody has to
rely on them: a thread that sleeps in the kernel can go on only after a `FUTEX_WAKE`.

**Results.**
* `rank_lt`: while the word is set, each step brings its thread closer to the end of its
  call.
* `set_releases_all`: once the event is set and not reset any more, every call returns.
-/

namespace Ptl
namespace ManualResetEvent

open Transition

universe u

variable {ι : Type u}

/-- The steps that need a signal or that the kernel takes without reason. -/
def Event.spurious : Event ι → Bool
  | futexInterrupted _ => true
  | futexLeave _ => true
  | _ => false

/-- The steps that thread `i` takes if it is given time. -/
structure Event.Due (i : ι) (e : Event ι) : Prop where
  actor : e.actor = i
  inCall : e.source ≠ .idle
  regular : e.spurious = false

def Event.Own (i : ι) (e : Event ι) : Prop :=
  e.actor = i

/-- A bound on the steps up to the end of a call while the word is set. -/
def Pc.rank : Pc → Nat
  | idle => 0
  | setStore => 2
  | setWake => 1
  | resetStore => 1
  | waitLoad => 2
  | waitFutex => 3
  | waitSleep => 3
  | waitReturn => 1

variable [DecidableEq ι] {s : Config ι Pc (Futex ι)} {e : Event ι} {i : ι}

section Steps

theorem rank_lt
    (hset : s.shared.state ≠ 0)
    (hguard : manualResetEvent.guard s e)
    (hcall : e.source ≠ .idle) :
    ((manualResetEvent.next s e).pc e.actor).rank < (s.pc e.actor).rank := by
  obtain ⟨hpc, hcheck⟩ := hguard
  change s.pc e.actor = e.source at hpc
  rw [next_pc, if_pos rfl, hpc]
  cases e with
  | waitLoad i old =>
      have hold : old = s.shared.state := hcheck
      rw [Event.target, if_neg (hold ▸ hset)]
      exact Nat.lt_succ_self _
  | futexAgain i =>
      exact Nat.lt_of_succ_lt (Nat.lt_succ_self _)
  | futexSleep i =>
      exact absurd hcheck hset
  | callSet i | callReset i | callWait i =>
      exact absurd rfl hcall
  | _ =>
      exact Nat.lt_succ_self _

theorem state_next
    (hset : s.shared.state ≠ 0)
    (hguard : manualResetEvent.guard s e)
    (hreset : s.pc e.actor ≠ .resetStore) :
    (manualResetEvent.next s e).shared.state ≠ 0 := by
  cases e with
  | resetStore i =>
      exact absurd hguard.1 hreset
  | setStore i =>
      exact Nat.one_ne_zero
  | _ =>
      exact hset

/-- Nobody goes to sleep while the word is set. -/
theorem asleep_next
    (hset : s.shared.state ≠ 0)
    (hguard : manualResetEvent.guard s e)
    (hawake : s.shared.asleep i = false) :
    (manualResetEvent.next s e).shared.asleep i = false := by
  cases e with
  | futexSleep k =>
      exact absurd hguard.2 hset
  | setWake k =>
      rfl
  | futexLeave k =>
      change Function.update s.shared.asleep k false i = false
      rcases eq_or_ne i k with rfl | hne
      · exact Function.update_self ..
      · rwa [Function.update_of_ne hne]
  | _ =>
      exact hawake

/-- A thread in a call that does not sleep can go on. -/
theorem due_of_awake
    (hset : s.shared.state ≠ 0)
    (hcall : s.pc i ≠ .idle)
    (hawake : s.shared.asleep i = false) :
    ∃ e, e.Due i ∧ manualResetEvent.guard s e := by
  cases hpc : s.pc i with
  | idle =>
      exact absurd hpc hcall
  | setStore =>
      exact ⟨.setStore i, ⟨rfl, nofun, rfl⟩, hpc, trivial⟩
  | setWake =>
      exact ⟨.setWake i, ⟨rfl, nofun, rfl⟩, hpc, trivial⟩
  | resetStore =>
      exact ⟨.resetStore i, ⟨rfl, nofun, rfl⟩, hpc, trivial⟩
  | waitLoad =>
      exact ⟨.waitLoad i s.shared.state, ⟨rfl, nofun, rfl⟩, hpc, rfl⟩
  | waitFutex =>
      exact ⟨.futexAgain i, ⟨rfl, nofun, rfl⟩, hpc, hset⟩
  | waitSleep =>
      exact ⟨.futexWoken i, ⟨rfl, nofun, rfl⟩, hpc, hawake⟩
  | waitReturn =>
      exact ⟨.waitReturn i, ⟨rfl, nofun, rfl⟩, hpc, trivial⟩

/-- `FUTEX_WAKE` wakes all sleepers. -/
theorem asleep_setWake
    (hguard : manualResetEvent.guard s e)
    (hpc : s.pc e.actor = .setWake) :
    (manualResetEvent.next s e).shared.asleep i = false := by
  have hsource : e.source = .setWake := hguard.1.symm.trans hpc
  cases e with
  | setWake k =>
      rfl
  | _ =>
      cases hsource

end Steps

section Executions

variable {X : Execution (manualResetEvent : System (Config ι Pc (Futex ι)) (Event ι))}
variable {n m : Nat}

variable (X n) in
/-- From the moment `n` on the event is set. -/
def StaysSet : Prop :=
  ∀ m, n ≤ m → (X.state m).shared.state ≠ 0

theorem staysSet
    (hset : (X.state n).shared.state ≠ 0)
    (hreset : ∀ m, n ≤ m → ∀ i, (X.state m).pc i ≠ .resetStore) :
    StaysSet X n :=
  fun _ => Execution.stable (P := fun s => s.shared.state ≠ 0) hset
    fun m e hm h _ hguard => state_next h hguard (hreset m hm e.actor)

/-- A thread that does not sleep will not sleep again. -/
theorem StaysSet.awake
    {k : Nat}
    (h : StaysSet X n)
    (hn : n ≤ m)
    (hawake : (X.state m).shared.asleep i = false)
    (hm : m ≤ k) :
    (X.state k).shared.asleep i = false :=
  Execution.stable (P := fun s => s.shared.asleep i = false) hawake
    (fun k _ hk h' _ hguard => asleep_next (h k (Nat.le_trans hn hk)) hguard h') hm

/-- The `FUTEX_WAKE` that is due wakes every sleeper. -/
theorem StaysSet.wakes
    (h : StaysSet X n)
    (hfair : ∀ i, X.Fair (Event.Due i) (Event.Own i))
    (hn : n ≤ m)
    (i : ι) :
    ∃ k, m ≤ k ∧ (X.state k).shared.asleep i = false := by
  cases hasleep : (X.state m).shared.asleep i with
  | false =>
      exact ⟨m, Nat.le_refl m, hasleep⟩
  | true =>
      have hpending := pendingWake_of_reachable (X.reachable m)
      obtain ⟨j, hj⟩ := hpending.wake (h m hn) ⟨i, hasleep⟩
      obtain ⟨k, e, hk, hwake, -, hown, hguard, hnext⟩ := (hfair j).acts
        (P := fun s => s.pc j = .setWake) hj
        (fun k _ hwake => ⟨.setWake j, ⟨rfl, nofun, rfl⟩, hwake, trivial⟩)
        (fun k e _ hwake _ hother => by rwa [next_pc, if_neg (Ne.symm hother)])
      refine ⟨k + 1, Nat.le_succ_of_le hk, ?_⟩
      rw [hnext]
      exact asleep_setWake hguard (hown ▸ hwake)

/-- A thread that does not sleep comes to the end of its call. -/
theorem StaysSet.returns
    (h : StaysSet X n)
    (hfair : X.Fair (Event.Due i) (Event.Own i))
    (hn : n ≤ m)
    (hawake : (X.state m).shared.asleep i = false) :
    ∃ k, m ≤ k ∧ (X.state k).pc i = .idle := by
  have hset : ∀ k, m ≤ k → (X.state k).shared.state ≠ 0 :=
    fun k hk => h k (Nat.le_trans hn hk)
  refine hfair.eventually (G := fun s => s.pc i = .idle) (r := fun s => (s.pc i).rank) ?_ ?_ ?_
  · intro k hk hcall
    exact due_of_awake (hset k hk) hcall (h.awake hn hawake hk)
  · intro k e hk _ _ hother
    refine Nat.le_of_eq (congrArg Pc.rank ?_)
    rw [next_pc, if_neg (Ne.symm hother)]
  · intro k e hk hcall hguard hown
    obtain rfl : e.actor = i := hown
    exact .inr (rank_lt (hset k hk) hguard fun hidle => hcall (hguard.1.trans hidle))

/-- Every thread comes to the end of its call. -/
theorem StaysSet.idle
    (h : StaysSet X n)
    (hfair : ∀ i, X.Fair (Event.Due i) (Event.Own i))
    (hn : n ≤ m)
    (i : ι) :
    ∃ k, m ≤ k ∧ (X.state k).pc i = .idle := by
  obtain ⟨k, hk, hawake⟩ := h.wakes hfair hn i
  obtain ⟨l, hl, hidle⟩ := h.returns (hfair i) (Nat.le_trans hn hk) hawake
  exact ⟨l, Nat.le_trans hk hl, hidle⟩

/--
Once the event is set and no `reset` is under way any more, every thread comes to the
end of its call, however many signals and spurious wakeups there are.
-/
theorem set_releases_all
    (hfair : ∀ i, X.Fair (Event.Due i) (Event.Own i))
    (hset : (X.state n).shared.state ≠ 0)
    (hreset : ∀ m, n ≤ m → ∀ i, (X.state m).pc i ≠ .resetStore) :
    ∀ i m, n ≤ m → ∃ k, m ≤ k ∧ (X.state k).pc i = .idle := by
  intro i m hm
  exact (staysSet hset hreset).idle hfair hm i

/-- The schedule in which one thread sleeps, after which nothing happens. -/
def slept : Execution (manualResetEvent : System (Config Bool Pc (Futex Bool)) (Event Bool)) :=
  .ofEnabled manualResetEvent start sleepAndWake rfl (by decide +kernel)

theorem set_releases_all_slept :
    ∃ k, 5 ≤ k ∧ (slept.state k).pc false = .idle := by
  have hidle : ∀ i, (manualResetEvent.exec start sleepAndWake).pc i = .idle := by
    decide +kernel
  have hfew : ∀ m < 9, ∀ i,
      (manualResetEvent.exec start (sleepAndWake.take m)).pc i ≠ .resetStore := by
    decide +kernel
  refine set_releases_all (X := slept) (n := 5) ?_ (by decide +kernel) ?_ false 5 (Nat.le_refl 5)
  · intro i
    exact Execution.fair_ofEnabled fun e he hguard =>
      he.inCall (hguard.1.symm.trans (hidle e.actor))
  · intro m _ i
    rcases Nat.lt_or_ge m 9 with hm | hm
    · exact hfew m hm i
    · have hstate : slept.state m = manualResetEvent.exec start sleepAndWake :=
        Execution.state_ofEnabled_of_le hm
      rw [hstate, hidle i]
      exact nofun

end Executions

end ManualResetEvent
end Ptl

import Ptl.QueuedExecutor
import Mathlib.Algebra.GroupWithZero.Nat

/-!
# `QueuedExecutor::stop` and several runners

`stop` sets `finished_` and calls `notify_one`, which unblocks one thread.  A
runner that stays blocked needs a notification of another call of `add` or
`stop`.

This module determines when the runners are released.  It is decided by the
section of `stop` that sets `finished_` for the first time: the runners blocked
at this moment must be matched by calls of `add` and `stop` that are in progress
and so still have their notification ahead.

**Results.**
* `stop_releases_runners`: if the section finds enough calls in progress, no
  runner is ever left behind; if it does not, some continuation of the run leaves
  a runner behind.
-/

namespace Ptl
namespace QueuedExecutor

open Transition

universe u v

section Stranded

variable {ι : Type u} {F : Type v}

/-- A call of `add` or `stop` is in progress. -/
def InCall : List (Frame F) → Prop
  | .addLock _ :: _ => True
  | .stopLock :: _ => True
  | .notify :: _ => True
  | _ => False

/--
The thread has no call of `add` or `stop` in progress and executes no `run`
outside `cv_.wait`.
-/
def Quiet : List (Frame F) → Prop
  | [] => True
  | .runWait :: _ => True
  | _ => False

/--
The executor is finished and no thread executes a call on it, but one is still
blocked in `cv_.wait`.
-/
def Stranded (s : Config ι (List (Frame F)) (Executor ι F)) : Prop :=
  s.shared.finished = true ∧
  (∀ i, Quiet (s.pc i)) ∧
  ∃ i k, s.pc i = .runWait :: k ∧ i ∈ s.shared.blocked

/-- As many calls of `add` and `stop` are in progress as runners are blocked. -/
def Covered (s : Config ι (List (Frame F)) (Executor ι F)) : Prop :=
  ∃ callers : List ι,
    callers.Nodup ∧
    (∀ i ∈ callers, InCall (s.pc i)) ∧
    s.shared.blocked.length ≤ callers.length

/-- The section of `stop` that sets `finished_` finds the blocked runners covered. -/
def StopsCovered
    (s : Config ι (List (Frame F)) (Executor ι F)) (e : Event ι F) : Prop :=
  ∀ i k, e = .stopLock i k → s.shared.finished = false → Covered s

theorem Covered.mono
    {s s' : Config ι (List (Frame F)) (Executor ι F)}
    (hcovered : Covered s)
    (hcalls : ∀ i, InCall (s.pc i) → InCall (s'.pc i))
    (hblocked : s'.shared.blocked.length ≤ s.shared.blocked.length) :
    Covered s' := by
  obtain ⟨callers, hnodup, hin, hlen⟩ := hcovered
  exact ⟨callers, hnodup, fun i hi => hcalls i (hin i hi), Nat.le_trans hblocked hlen⟩

theorem covered_of_blocked_nil
    {s : Config ι (List (Frame F)) (Executor ι F)}
    (hblocked : s.shared.blocked = []) :
    Covered s :=
  ⟨[], List.nodup_nil, by simp, by simp [hblocked]⟩

theorem not_inCall_of_inUserCode
    {k : List (Frame F)}
    (hk : InUserCode k) :
    ¬ InCall k := by
  intro hcall
  cases k with
  | nil =>
      exact hcall
  | cons f k =>
      cases f <;> first | exact hk | exact hcall

theorem not_inCall_of_quiet
    {k : List (Frame F)}
    (hk : Quiet k) :
    ¬ InCall k := by
  intro hcall
  cases k with
  | nil =>
      exact hcall
  | cons f k =>
      cases f <;> first | exact hk | exact hcall

/-- With every thread quiet, only an executor without blocked runners is covered. -/
theorem blocked_nil_of_covered
    {s : Config ι (List (Frame F)) (Executor ι F)}
    (hquiet : ∀ i, Quiet (s.pc i))
    (hcovered : Covered s) :
    s.shared.blocked = [] := by
  obtain ⟨callers, -, hin, hlen⟩ := hcovered
  cases callers with
  | nil =>
      exact List.eq_nil_of_length_eq_zero (Nat.le_zero.mp hlen)
  | cons i callers =>
      exact absurd (hin i List.mem_cons_self) (not_inCall_of_quiet (hquiet i))

end Stranded

variable {ι : Type u} {F : Type v} [DecidableEq ι]

section Steps

variable {s : Config ι (List (Frame F)) (Executor ι F)} {e : Event ι F}

theorem pc_actor
    (hguard : queuedExecutor.guard s e) :
    s.pc e.actor = e.source :=
  hguard.1

theorem pc_next_actor
    (s : Config ι (List (Frame F)) (Executor ι F)) (e : Event ι F) :
    (queuedExecutor.next s e).pc e.actor = e.target :=
  Program.system_next_pc_actor s e

theorem pc_next_of_ne
    (s : Config ι (List (Frame F)) (Executor ι F)) (e : Event ι F)
    {i : ι}
    (hi : i ≠ e.actor) :
    (queuedExecutor.next s e).pc i = s.pc i :=
  Program.system_next_pc_of_ne s e hi

/-- What a step does to the calls in progress, from what it does at its actor. -/
theorem inCall_next
    (hguard : queuedExecutor.guard s e)
    (hcall : InCall e.source → InCall e.target)
    (i : ι) :
    InCall (s.pc i) → InCall ((queuedExecutor.next s e).pc i) := by
  intro hi
  by_cases hactor : i = e.actor
  · subst hactor
    rw [pc_actor hguard] at hi
    rw [pc_next_actor]
    exact hcall hi
  · rwa [pc_next_of_ne s e hactor]

theorem inCall_of_next
    (hguard : queuedExecutor.guard s e)
    (hcall : InCall e.target → InCall e.source)
    (i : ι) :
    InCall ((queuedExecutor.next s e).pc i) → InCall (s.pc i) := by
  intro hi
  by_cases hactor : i = e.actor
  · subst hactor
    rw [pc_next_actor] at hi
    rw [pc_actor hguard]
    exact hcall hi
  · rwa [pc_next_of_ne s e hactor] at hi

/-- A notification takes one call and one blocked runner away. -/
theorem Covered.notifyOne
    {i : ι} {k : List (Frame F)} {woken : Option ι}
    (hguard : queuedExecutor.guard s (.notifyOne i k woken))
    (hcovered : Covered s) :
    Covered (queuedExecutor.next s (.notifyOne i k woken)) := by
  cases woken with
  | none =>
      exact covered_of_blocked_nil hguard.2
  | some j =>
      obtain ⟨callers, hnodup, hin, hlen⟩ := hcovered
      refine ⟨callers.erase i, hnodup.erase i, ?_, ?_⟩
      · intro l hl
        obtain ⟨hne, hmem⟩ := (hnodup.mem_erase_iff).mp hl
        rw [pc_next_of_ne s _ hne]
        exact hin l hmem
      · have hj : j ∈ s.shared.blocked := hguard.2
        have herase : (s.shared.blocked.erase j).length = s.shared.blocked.length - 1 :=
          List.length_erase_of_mem hj
        have hcallers : callers.length - 1 ≤ (callers.erase i).length :=
          List.le_length_erase
        calc
          (s.shared.blocked.erase j).length = s.shared.blocked.length - 1 := herase
          _ ≤ callers.length - 1 := Nat.sub_le_sub_right hlen 1
          _ ≤ (callers.erase i).length := hcallers

theorem covered_of_notifyOne
    {i : ι} {k : List (Frame F)} {woken : Option ι}
    (hguard : queuedExecutor.guard s (.notifyOne i k woken))
    (hk : InUserCode k)
    (hcovered : Covered (queuedExecutor.next s (.notifyOne i k woken))) :
    Covered s := by
  cases woken with
  | none =>
      exact covered_of_blocked_nil hguard.2
  | some j =>
      obtain ⟨callers, hnodup, hin, hlen⟩ := hcovered
      have hi : i ∉ callers := by
        intro hi
        have hpc : (queuedExecutor.next s (.notifyOne i k (some j))).pc i = k :=
          pc_next_actor s (.notifyOne i k (some j))
        have hcall := hin i hi
        rw [hpc] at hcall
        exact not_inCall_of_inUserCode hk hcall
      refine ⟨i :: callers, List.nodup_cons.mpr ⟨hi, hnodup⟩, ?_, ?_⟩
      · intro l hl
        rcases List.mem_cons.mp hl with rfl | hl
        · exact (congrArg InCall (pc_actor hguard)).mpr trivial
        · have hne : l ≠ i := fun h => hi (h ▸ hl)
          have hcall := hin l hl
          rwa [pc_next_of_ne s _ hne] at hcall
      · have hj : j ∈ s.shared.blocked := hguard.2
        have hlen' : (s.shared.blocked.erase j).length ≤ callers.length := hlen
        rw [List.length_erase_of_mem hj] at hlen'
        rw [List.length_cons]
        omega

/-- Once the executor is finished, no runner blocks any more. -/
theorem covered_next
    (hfinished : s.shared.finished = true)
    (hguard : queuedExecutor.guard s e)
    (hcovered : Covered s) :
    Covered (queuedExecutor.next s e) := by
  have hstay
      (hcall : InCall e.source → InCall e.target)
      (hblocked : (e.effect s.shared).blocked.length ≤ s.shared.blocked.length) :
      Covered (queuedExecutor.next s e) :=
    hcovered.mono (inCall_next hguard hcall) hblocked
  cases e with
  | callAdd i k f =>
      exact hstay (fun h => absurd h (not_inCall_of_inUserCode hguard.2)) (Nat.le_refl _)
  | callStop i k =>
      exact hstay (fun h => absurd h (not_inCall_of_inUserCode hguard.2)) (Nat.le_refl _)
  | callRun i k =>
      exact hstay (fun h => absurd h (not_inCall_of_inUserCode hguard.2)) (Nat.le_refl _)
  | notifyOne i k woken =>
      exact hcovered.notifyOne hguard
  | runBlock i k =>
      have hready : s.shared.ready = false := hguard.2
      simp [Executor.ready, hfinished] at hready
  | runSpurious i k =>
      exact hstay (fun h => h.elim) List.length_erase_le
  | addLock i k f =>
      exact hstay (fun _ => trivial) (Nat.le_refl _)
  | stopLock i k =>
      exact hstay (fun _ => trivial) (Nat.le_refl _)
  | _ =>
      exact hstay (fun h => h.elim) (Nat.le_refl _)

end Steps

section Consistent

/-- Every pending call was made by user code. -/
def Nested : List (Frame F) → Prop
  | [] => True
  | _ :: k => InUserCode k ∧ Nested k

/-- The blocked threads wait in `run`, each of them once. -/
structure Consistent (s : Config ι (List (Frame F)) (Executor ι F)) : Prop where
  nested : ∀ i, Nested (s.pc i)
  nodup : s.shared.blocked.Nodup
  waiting : ∀ i ∈ s.shared.blocked, ∃ k, s.pc i = .runWait :: k

variable {s : Config ι (List (Frame F)) (Executor ι F)} {e : Event ι F}

omit [DecidableEq ι] in
theorem nested_target
    (hcheck : e.check s.shared)
    (hnested : Nested e.source) :
    Nested e.target := by
  cases e with
  | callAdd i k f =>
      exact ⟨hcheck, hnested⟩
  | callStop i k =>
      exact ⟨hcheck, hnested⟩
  | callRun i k =>
      exact ⟨hcheck, hnested⟩
  | notifyOne i k woken =>
      exact hnested.2
  | runReturn i k =>
      exact hnested.2
  | bodyThrow i k f =>
      exact hnested.2
  | _ =>
      exact hnested

theorem nested_next
    (hguard : queuedExecutor.guard s e)
    (hnested : ∀ i, Nested (s.pc i))
    (i : ι) :
    Nested ((queuedExecutor.next s e).pc i) := by
  by_cases hactor : i = e.actor
  · subst hactor
    rw [pc_next_actor]
    exact nested_target hguard.2 (pc_actor hguard ▸ hnested e.actor)
  · rw [pc_next_of_ne s e hactor]
    exact hnested i

/-- A step of another thread leaves a waiting thread where it is. -/
theorem waiting_next
    (hguard : queuedExecutor.guard s e)
    (hsource : ∀ k, e.source ≠ .runWait :: k)
    {i : ι}
    (hi : ∃ k, s.pc i = .runWait :: k) :
    ∃ k, (queuedExecutor.next s e).pc i = .runWait :: k := by
  obtain ⟨k, hk⟩ := hi
  have hactor : i ≠ e.actor := by
    rintro rfl
    exact hsource k ((pc_actor hguard).symm.trans hk)
  exact ⟨k, (pc_next_of_ne s e hactor).trans hk⟩

theorem Consistent.next
    (hconsistent : Consistent s)
    (hguard : queuedExecutor.guard s e) :
    Consistent (queuedExecutor.next s e) := by
  have hnested := nested_next hguard hconsistent.nested
  obtain ⟨-, hnodup, hwaiting⟩ := hconsistent
  cases e with
  | notifyOne i k woken =>
      cases woken with
      | none =>
          exact ⟨hnested, hnodup,
            fun j hj => waiting_next hguard (by simp [Event.source]) (hwaiting j hj)⟩
      | some l =>
          exact ⟨hnested, hnodup.erase l, fun j hj =>
            waiting_next hguard (by simp [Event.source])
              (hwaiting j (List.mem_of_mem_erase hj))⟩
  | runBlock i k =>
      have hi : i ∉ s.shared.blocked := by
        intro hmem
        obtain ⟨k', hk'⟩ := hwaiting i hmem
        exact absurd (hk'.symm.trans hguard.1) (by simp [program, Event.source])
      refine ⟨hnested, ?_, ?_⟩
      · exact List.nodup_append.mpr ⟨hnodup, by simp,
          fun a ha b hb => by rintro rfl; exact hi (List.mem_singleton.mp hb ▸ ha)⟩
      · intro j hj
        rcases List.mem_append.mp hj with hj | hj
        · exact waiting_next hguard (by simp [Event.source]) (hwaiting j hj)
        · obtain rfl := List.mem_singleton.mp hj
          exact ⟨k, pc_next_actor s (.runBlock j k)⟩
  | runSpurious i k =>
      refine ⟨hnested, hnodup.erase i, fun j hj => ?_⟩
      obtain ⟨hne, hmem⟩ := (hnodup.mem_erase_iff).mp hj
      obtain ⟨k', hk'⟩ := hwaiting j hmem
      exact ⟨k', (pc_next_of_ne s (.runSpurious i k) hne).trans hk'⟩
  | runNotified i k =>
      refine ⟨hnested, hnodup, fun j hj => ?_⟩
      have hne : j ≠ i := fun h => hguard.2 (h ▸ hj)
      obtain ⟨k', hk'⟩ := hwaiting j hj
      exact ⟨k', (pc_next_of_ne s (.runNotified i k) hne).trans hk'⟩
  | callAdd i k f =>
      refine ⟨hnested, hnodup, fun j hj => waiting_next hguard ?_ (hwaiting j hj)⟩
      rintro k' hk'
      exact (hk' ▸ hguard.2 : InUserCode (.runWait :: k'))
  | callStop i k =>
      refine ⟨hnested, hnodup, fun j hj => waiting_next hguard ?_ (hwaiting j hj)⟩
      rintro k' hk'
      exact (hk' ▸ hguard.2 : InUserCode (.runWait :: k'))
  | callRun i k =>
      refine ⟨hnested, hnodup, fun j hj => waiting_next hguard ?_ (hwaiting j hj)⟩
      rintro k' hk'
      exact (hk' ▸ hguard.2 : InUserCode (.runWait :: k'))
  | _ =>
      exact ⟨hnested, hnodup,
        fun j hj => waiting_next hguard (by simp [Event.source]) (hwaiting j hj)⟩

theorem consistent_of_run
    {tr : List (Event ι F)}
    (hrun : queuedExecutor.Run tr s) :
    Consistent s := by
  induction hrun with
  | start hinit =>
      obtain rfl := hinit
      exact ⟨fun _ => trivial, List.nodup_nil, fun _ h => absurd h List.not_mem_nil⟩
  | step e _ hguard ih =>
      exact ih.next hguard

end Consistent

section Draining

/-- The executor is finished, and too few calls are in progress for the blocked runners. -/
structure Short (s : Config ι (List (Frame F)) (Executor ι F)) : Prop where
  finished : s.shared.finished = true
  consistent : Consistent s
  uncovered : ¬ Covered s

/-- The steps by which calls come to an end. -/
def Event.Winds : Event ι F → Prop
  | addLock _ _ _ => True
  | stopLock _ _ => True
  | notifyOne _ _ _ => True
  | runPop _ _ _ => True
  | runReturn _ _ => True
  | bodyReturn _ _ _ => True
  | _ => False

/-- The remaining steps of a pending call, besides those for queued functions. -/
def Frame.weight : Frame F → Nat
  | addLock _ => 4
  | stopLock => 2
  | notify => 1
  | runLock => 1
  | runWait => 0
  | runBody _ => 2

/-- The remaining steps of a thread if only it moves. -/
def remaining (x : Executor ι F) (k : List (Frame F)) : Nat :=
  (k.map Frame.weight).sum + 2 * x.work.length

variable {s : Config ι (List (Frame F)) (Executor ι F)} {e : Event ι F}

theorem finished_effect
    {x : Executor ι F}
    (hfinished : x.finished = true) :
    (e.effect x).finished = true := by
  cases e with
  | notifyOne i k woken =>
      cases woken <;> exact hfinished
  | stopLock i k =>
      rfl
  | _ =>
      exact hfinished

theorem covered_of_next
    (hconsistent : Consistent s)
    (hguard : queuedExecutor.guard s e)
    (hwinds : e.Winds)
    (hcovered : Covered (queuedExecutor.next s e)) :
    Covered s := by
  have hnested := hconsistent.nested e.actor
  rw [pc_actor hguard] at hnested
  have hstay
      (hcall : InCall e.target → InCall e.source)
      (hblocked : s.shared.blocked.length ≤ (e.effect s.shared).blocked.length) :
      Covered s :=
    hcovered.mono (inCall_of_next hguard hcall) hblocked
  cases e with
  | addLock i k f =>
      exact hstay (fun _ => trivial) (Nat.le_refl _)
  | stopLock i k =>
      exact hstay (fun _ => trivial) (Nat.le_refl _)
  | notifyOne i k woken =>
      exact covered_of_notifyOne hguard hnested.1 hcovered
  | runPop i k f =>
      exact hstay (fun h => h.elim) (Nat.le_refl _)
  | runReturn i k =>
      exact hstay (fun h => absurd h (not_inCall_of_inUserCode hnested.1)) (Nat.le_refl _)
  | bodyReturn i k f =>
      exact hstay (fun h => h.elim) (Nat.le_refl _)
  | _ =>
      exact hwinds.elim

theorem Short.next
    (hshort : Short s)
    (hguard : queuedExecutor.guard s e)
    (hwinds : e.Winds) :
    Short (queuedExecutor.next s e) where
  finished := finished_effect hshort.finished
  consistent := hshort.consistent.next hguard
  uncovered := fun h => hshort.uncovered (covered_of_next hshort.consistent hguard hwinds h)

theorem remaining_lt
    {x : Executor ι F}
    (hcheck : e.check x)
    (hwinds : e.Winds) :
    remaining (e.effect x) e.target < remaining x e.source := by
  cases e with
  | addLock i k f =>
      simp [remaining, Event.effect, Event.source, Event.target, Executor.push, Frame.weight]
      omega
  | stopLock i k =>
      simp [remaining, Event.effect, Event.source, Event.target, Executor.finish,
        Frame.weight]
  | notifyOne i k woken =>
      cases woken <;>
        simp [remaining, Event.effect, Event.source, Event.target, Executor.unblock,
          Frame.weight]
  | runPop i k f =>
      obtain ⟨rest, hwork⟩ := List.head?_eq_some_iff.mp hcheck.2
      simp [remaining, Event.effect, Event.source, Event.target, Executor.pop, Frame.weight,
        hwork]
      omega
  | runReturn i k =>
      simp [remaining, Event.effect, Event.source, Event.target, Frame.weight]
  | bodyReturn i k f =>
      simp [remaining, Event.effect, Event.source, Event.target, Frame.weight]
  | _ =>
      exact hwinds.elim

/-- A thread that is not quiet can bring its innermost call forward. -/
theorem exists_step
    (hfinished : s.shared.finished = true)
    {i : ι}
    (hi : ¬ Quiet (s.pc i)) :
    ∃ e : Event ι F, e.actor = i ∧ queuedExecutor.guard s e ∧ e.Winds := by
  match hpc : s.pc i with
  | [] =>
      exact absurd (hpc ▸ trivial) hi
  | .runWait :: k =>
      exact absurd (hpc ▸ trivial) hi
  | .addLock f :: k =>
      exact ⟨.addLock i k f, rfl, ⟨hpc, trivial⟩, trivial⟩
  | .stopLock :: k =>
      exact ⟨.stopLock i k, rfl, ⟨hpc, trivial⟩, trivial⟩
  | .notify :: k =>
      cases hblocked : s.shared.blocked with
      | nil =>
          exact ⟨.notifyOne i k none, rfl, ⟨hpc, hblocked⟩, trivial⟩
      | cons j rest =>
          have hj : j ∈ s.shared.blocked := by
            rw [hblocked]
            exact List.mem_cons_self
          exact ⟨.notifyOne i k (some j), rfl, ⟨hpc, hj⟩, trivial⟩
  | .runLock :: k =>
      have hready : s.shared.ready = true := by simp [Executor.ready, hfinished]
      cases hwork : s.shared.work with
      | nil =>
          exact ⟨.runReturn i k, rfl, ⟨hpc, hready, hwork, hfinished⟩, trivial⟩
      | cons f rest =>
          exact ⟨.runPop i k f, rfl, ⟨hpc, hready, by simp [hwork]⟩, trivial⟩
  | .runBody f :: k =>
      exact ⟨.bodyReturn i k f, rfl, ⟨hpc, trivial⟩, trivial⟩

/-- Moving only one thread until it is quiet. -/
theorem drain
    (hshort : Short s)
    (i : ι) :
    ∃ es, queuedExecutor.Enabled s es ∧
      Short (queuedExecutor.exec s es) ∧
      Quiet ((queuedExecutor.exec s es).pc i) ∧
      ∀ j, j ≠ i → (queuedExecutor.exec s es).pc j = s.pc j := by
  -- induction on the steps that remain for the thread
  generalize hn : remaining s.shared (s.pc i) = n
  induction n using Nat.strongRecOn generalizing s with
  | ind n ih =>
      by_cases hi : Quiet (s.pc i)
      · exact ⟨[], trivial, hshort, hi, fun _ _ => rfl⟩
      · obtain ⟨e, rfl, hguard, hwinds⟩ := exists_step hshort.finished hi
        have hlt : remaining (queuedExecutor.next s e).shared
            ((queuedExecutor.next s e).pc e.actor) < n := by
          rw [pc_next_actor, ← hn, pc_actor hguard]
          exact remaining_lt hguard.2 hwinds
        obtain ⟨es, hes, hshort', hquiet, hother⟩ :=
          ih _ hlt (hshort.next hguard hwinds) rfl
        refine ⟨e :: es, ⟨hguard, hes⟩, hshort', hquiet, ?_⟩
        intro j hj
        exact (hother j hj).trans (pc_next_of_ne s e hj)

/-- Moving the threads of a list, one after the other. -/
theorem drain_all
    (hshort : Short s)
    (threads : List ι) :
    ∃ es, queuedExecutor.Enabled s es ∧
      Short (queuedExecutor.exec s es) ∧
      (∀ i ∈ threads, Quiet ((queuedExecutor.exec s es).pc i)) ∧
      ∀ j, j ∉ threads → (queuedExecutor.exec s es).pc j = s.pc j := by
  induction threads generalizing s with
  | nil =>
      exact ⟨[], trivial, hshort, fun _ h => absurd h List.not_mem_nil, fun _ _ => rfl⟩
  | cons i threads ih =>
      obtain ⟨es, hes, hshort₁, hquiet, hother⟩ := drain hshort i
      obtain ⟨fs, hfs, hshort₂, hquiets, hothers⟩ := ih hshort₁
      refine ⟨es ++ fs, (queuedExecutor.enabled_append s es fs).mpr ⟨hes, hfs⟩, ?_⟩
      rw [System.exec_append]
      refine ⟨hshort₂, ?_, ?_⟩
      · intro j hj
        by_cases hmem : j ∈ threads
        · exact hquiets j hmem
        · obtain rfl : j = i := (List.mem_cons.mp hj).resolve_right hmem
          rw [hothers j hmem]
          exact hquiet
      · intro j hj
        rw [List.mem_cons, not_or] at hj
        rw [hothers j hj.2, hother j hj.1]

/-- Only the threads of the trace have calls pending. -/
theorem pc_nil_of_run
    {tr : List (Event ι F)}
    (hrun : queuedExecutor.Run tr s)
    {i : ι}
    (hi : i ∉ tr.map Event.actor) :
    s.pc i = [] := by
  induction hrun with
  | start hinit =>
      obtain rfl := hinit
      rfl
  | @step tr s e hrun hguard ih =>
      simp only [List.map_append, List.map_cons, List.map_nil, List.mem_append,
        List.mem_singleton, not_or] at hi
      rw [pc_next_of_ne s e hi.2]
      exact ih hi.1

theorem exists_stranded
    {tr : List (Event ι F)}
    (hrun : queuedExecutor.Run tr s)
    (hfinished : s.shared.finished = true)
    (huncovered : ¬ Covered s) :
    ∃ es s', queuedExecutor.Run (tr ++ es) s' ∧ Stranded s' := by
  obtain ⟨es, hes, hshort, hquiets, hothers⟩ :=
    drain_all ⟨hfinished, consistent_of_run hrun, huncovered⟩ (tr.map Event.actor)
  have hquiet : ∀ i, Quiet ((queuedExecutor.exec s es).pc i) := by
    intro i
    by_cases hi : i ∈ tr.map Event.actor
    · exact hquiets i hi
    · rw [hothers i hi, pc_nil_of_run hrun hi]
      trivial
  refine ⟨es, _, hrun.extend hes, hshort.finished, hquiet, ?_⟩
  obtain ⟨i, hi⟩ := List.exists_mem_of_ne_nil _ fun h =>
    hshort.uncovered (covered_of_blocked_nil h)
  obtain ⟨k, hk⟩ := hshort.consistent.waiting i hi
  exact ⟨i, k, hk, hi⟩

end Draining

section Release

variable {s : Config ι (List (Frame F)) (Executor ι F)} {e : Event ι F}

/-- Only `stop` finishes the executor. -/
theorem eq_stopLock_of_finishes
    {x : Executor ι F}
    (hbefore : x.finished = false)
    (hafter : (e.effect x).finished = true) :
    ∃ i k, e = .stopLock i k := by
  cases e with
  | stopLock i k =>
      exact ⟨i, k, rfl⟩
  | notifyOne i k woken =>
      cases woken <;> exact absurd (hbefore.symm.trans hafter) Bool.false_ne_true
  | _ =>
      exact absurd (hbefore.symm.trans hafter) Bool.false_ne_true

theorem covered_of_finished
    {tr : List (Event ι F)}
    (hrun : (queuedExecutor.restrict StopsCovered).Run tr s) :
    s.shared.finished = true → Covered s := by
  induction hrun with
  | start hinit =>
      obtain rfl := hinit
      intro h
      exact absurd h Bool.false_ne_true
  | @step tr s e hrun hguard ih =>
      obtain ⟨hguard, hok⟩ := hguard
      intro hafter
      cases hbefore : s.shared.finished with
      | true =>
          exact covered_next hbefore hguard (ih hbefore)
      | false =>
          obtain ⟨i, k, rfl⟩ := eq_stopLock_of_finishes hbefore hafter
          exact (hok i k rfl hbefore).mono
            (inCall_next hguard fun _ => trivial) (Nat.le_refl _)

/--
`stop` releases the runners exactly if the section that sets `finished_` finds
as many calls of `add` and `stop` in progress as runners blocked: then no run of
the system leaves a runner behind, and otherwise the run has a continuation that
leaves one behind.
-/
theorem stop_releases_runners :
    (∀ (tr : List (Event ι F)) s,
      (queuedExecutor.restrict StopsCovered).Run tr s → ¬ Stranded s) ∧
    ∀ (tr : List (Event ι F)) s e,
      queuedExecutor.Run tr s → queuedExecutor.guard s e → ¬ StopsCovered s e →
      ∃ es s', queuedExecutor.Run (tr ++ e :: es) s' ∧ Stranded s' := by
  constructor
  · rintro tr s hrun ⟨hfinished, hquiet, i, k, -, hi⟩
    have hnil := blocked_nil_of_covered hquiet (covered_of_finished hrun hfinished)
    rw [hnil] at hi
    exact absurd hi List.not_mem_nil
  · intro tr s e hrun hguard hok
    simp only [StopsCovered, not_forall] at hok
    obtain ⟨i, k, rfl, -, huncovered⟩ := hok
    obtain ⟨es, s', hrun', hstranded⟩ :=
      exists_stranded (System.Run.step _ hrun hguard) rfl fun h =>
        huncovered (h.mono (inCall_of_next hguard fun _ => trivial) (Nat.le_refl _))
    rw [List.append_assoc] at hrun'
    exact ⟨es, s', hrun', hstranded⟩

/-- Two runners wait for work when a third thread calls `stop`. -/
def stopWithTwoRunners : List (Event (Fin 3) Unit) :=
  [.callRun 0 [], .runBlock 0 [], .callRun 1 [], .runBlock 1 [], .callStop 2 [],
    .stopLock 2 [], .notifyOne 2 [] (some 0), .runNotified 0 [], .runReturn 0 []]

theorem not_stop_releases_runners :
    ¬ ∀ (tr : List (Event (Fin 3) Unit)) s, queuedExecutor.Run tr s → ¬ Stranded s := by
  intro h
  refine h stopWithTwoRunners _ (.of_enabled rfl (by decide +kernel)) ⟨rfl, ?_, ?_⟩
  · intro i
    match i with
    | 0 => exact trivial
    | 1 => exact trivial
    | 2 => exact trivial
  · exact ⟨1, [], rfl, by decide⟩

end Release

end QueuedExecutor
end Ptl

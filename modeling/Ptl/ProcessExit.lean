import Ptl.ProcessService

/-!
# Waiting for a child

`wait()` is meant to complete with the exit status of the child, whenever the
exit is delivered.  `begin` asks `terminated()` for that, but nothing sets
`terminated_`; the callback looks the child up by its pid alone, and the entries
of `process_watchers_` outlive the operations they were made for.

This module determines when a history of subprocesses is right.

**Results.**
* `exits_delivered_iff`: no exit is lost exactly if every wait starts before the
  exit is delivered and, at each delivery, the first entry with the pid is that
  of the subprocess and registers its only pending wait.
* `exits_directed_iff`: every callback reaches the right subprocess and a pending
  operation exactly if, at each delivery, the last wait of the subprocess is
  pending and no entry of another subprocess with the same pid is in front.
* `exitDirected_iff_exit`: what such a callback does to `rc` and to the operation.
-/

namespace Ptl
namespace Process

open Transition

universe u v

section Properties

variable {π : Type u} {ω : Type v}

/-- The exit of the last launched child is delivered, but a wait for it is pending. -/
def Lost (s : State π ω) : Prop :=
  ∃ o p c rstatus,
    s.op o = .waiting p ∧
    s.childOf p = some c ∧
    s.children[c]? = some (.exited rstatus)

/-- A wait that completes has the exit status of the child. -/
def Yields (s s' : State π ω) : Prop :=
  ∀ o p v, s.op o ≠ .completed p v → s'.op o = .completed p v →
    ∃ c, s'.childOf p = some c ∧ s'.children[c]? = some (.exited v)

variable [DecidableEq π] [DecidableEq ω]

/-- The service after a trace. -/
def after (tr : List (Event π ω)) : State π ω :=
  processService.exec .start tr

/-- No exit is lost by a step, nor does it call an operation that is not pending. -/
def ExitKept (past : List (Event π ω)) (e : Event π ω) : Prop :=
  ¬ Lost (after (past ++ [e])) ∧
  Yields (after past) (after (past ++ [e])) ∧
  (after (past ++ [e])).undefined = false

/-- A callback stores the status for the child that exited and calls a pending operation. -/
def ExitDirected (past : List (Event π ω)) (e : Event π ω) : Prop :=
  ∀ c rpid rstatus, e = .exit c rpid rstatus →
    (∀ p, (after past).entryFor rpid = some p ↔ (after past).childOf p = some c) ∧
    ∀ p o, (after past).entryFor rpid = some p → (after past).registered p = some o →
      (after past).op o = .waiting p

/--
Every wait starts before the exit of the child is delivered.  At a delivery, an
entry with the pid has an entry of the subprocess of the child in front of it or
is one, and this subprocess has registered the only wait that is pending on it.
-/
def WaitsInTime (s : State π ω) : Event π ω → Prop
  | .wait p _ =>
      ∀ c rstatus, s.childOf p = some c → s.children[c]? ≠ some (.exited rstatus)
  | .exit c rpid _ =>
      (∀ q ∈ s.watchers, s.pidOf q = some rpid →
        ∃ p ∈ s.watchers, s.childOf p = some c ∧
          s.watchers.idxOf p ≤ s.watchers.idxOf q) ∧
      ∀ p ∈ s.watchers, s.childOf p = some c →
        ∃ o, s.registered p = some o ∧ ∀ o', s.op o' = .waiting p ↔ o' = o
  | _ => True

/--
At the delivery of an exit, the wait that the subprocess of the child has started
last is pending and no entry with the pid is in front of it; if the subprocess is
gone or has launched another child, no entry has the pid.
-/
def WaitsFirst (s : State π ω) : Event π ω → Prop
  | .exit c rpid _ =>
      (∀ p, s.childOf p = some c →
        (∃ o, s.registered p = some o ∧ s.op o = .waiting p) ∧
        ∀ q ∈ s.watchers, s.pidOf q = some rpid →
          s.watchers.idxOf p ≤ s.watchers.idxOf q) ∧
      ((∀ p, s.childOf p ≠ some c) →
        ∀ q ∈ s.watchers, s.pidOf q ≠ some rpid)
  | _ => True

end Properties

variable {π : Type u} {ω : Type v} [DecidableEq π] [DecidableEq ω]
variable {tr : List (Event π ω)} {s : State π ω} {e : Event π ω}

theorem after_of_run
    (hrun : processService.Run tr s) :
    after tr = s :=
  (hrun.eq_exec fun _ h => h).symm

theorem after_next
    (hrun : processService.Run tr s) :
    after (tr ++ [e]) = processService.next s e := by
  rw [after, System.exec_append_singleton]
  exact congrArg (fun s => processService.next s e) (after_of_run hrun)

section Directed

/-- The child that exits has the pid that its subprocess holds. -/
theorem pidOf_of_owner
    {p : π} {c : Nat} {rpid rstatus : Int}
    (hs : Consistent s)
    (hguard : processService.guard s (.exit c rpid rstatus))
    (hp : s.childOf p = some c) :
    s.pidOf p = some rpid :=
  hs.pid p c rpid hp hguard.2

omit [DecidableEq π] [DecidableEq ω] in
theorem isSome_of_childOf
    {p : π} {c : Nat}
    (hp : s.childOf p = some c) :
    (s.object p).isSome := by
  obtain ⟨x, hx, -⟩ := Option.bind_eq_some_iff.mp hp
  rw [hx]
  rfl

theorem exitDirected_iff
    (hrun : processService.Run tr s)
    (hguard : processService.guard s e) :
    ExitDirected tr e ↔ WaitsFirst s e := by
  have hs := consistent_of_run hrun
  simp only [ExitDirected, after_of_run hrun]
  cases e with
  | exit c rpid rstatus =>
      constructor
      · intro hdirected
        obtain ⟨hstored, hcalled⟩ := hdirected c rpid rstatus rfl
        constructor
        · intro p hp
          have hentry := (hstored p).mpr hp
          obtain ⟨hmem, -, hfirst⟩ := entryFor_eq_some_iff.mp hentry
          obtain ⟨o, hreg, -⟩ := hs.entry p hmem
          exact ⟨⟨o, hreg, hcalled p o hentry hreg⟩, hfirst⟩
        · intro hnone q hq hpid
          cases hentry : s.entryFor rpid with
          | none =>
              simpa [hpid] using List.find?_eq_none.mp hentry q hq
          | some p =>
              exact hnone p ((hstored p).mp hentry)
      · rintro ⟨howner, horphan⟩ c' rpid' rstatus' he
        obtain ⟨rfl, rfl, rfl⟩ : c = c' ∧ rpid = rpid' ∧ rstatus = rstatus' := by
          simpa using he
        have hentry (p : π) (hp : s.childOf p = some c) : s.entryFor rpid = some p := by
          obtain ⟨⟨o, -, hwaiting⟩, hfirst⟩ := howner p hp
          exact entryFor_eq_some_iff.mpr
            ⟨hs.waiting o p hwaiting (isSome_of_childOf hp),
              pidOf_of_owner hs hguard hp, hfirst⟩
        have hchild (p : π) (hp : s.entryFor rpid = some p) : s.childOf p = some c := by
          obtain ⟨hmem, hpid, -⟩ := entryFor_eq_some_iff.mp hp
          by_contra hne
          refine horphan (fun q hq => hne ?_) p hmem hpid
          obtain rfl : q = p := Option.some.inj ((hentry q hq).symm.trans hp)
          exact hq
        refine ⟨fun p => ⟨hchild p, hentry p⟩, ?_⟩
        intro p o hp hreg
        obtain ⟨⟨o', hreg', hwaiting⟩, -⟩ := howner p (hchild p hp)
        obtain rfl : o' = o := Option.some.inj (hreg'.symm.trans hreg)
        exact hwaiting
  | _ =>
      exact iff_of_true (fun _ _ _ h => nomatch h) trivial

/--
What `ExitDirected` says of the lookups, the callback does: it stores the status in the
subprocess of the child and completes a pending operation of it with this status, and
without such a subprocess it changes no subprocess and no operation.
-/
theorem exitDirected_iff_exit
    {c : Nat} {rpid rstatus : Int}
    (hrun : processService.Run tr s)
    (hguard : processService.guard s (.exit c rpid rstatus)) :
    ExitDirected tr (.exit c rpid rstatus)
      ↔
    (∀ p, s.childOf p = some c →
      ∃ o, s.op o = .waiting p ∧ s.exit c rpid rstatus = resumed s c rstatus p o) ∧
    ((∀ p, s.childOf p ≠ some c) →
      s.exit c rpid rstatus = { s with children := s.children.set c (.exited rstatus) }) := by
  simp only [ExitDirected, after_of_run hrun]
  constructor
  · intro hdirected
    obtain ⟨hstored, hcalled⟩ := hdirected c rpid rstatus rfl
    rcases exit_cases (consistent_of_run hrun) c rpid rstatus with
      ⟨hentry, hexit⟩ | ⟨p, o, hentry, hreg, ⟨ho, hexit⟩ | ⟨ho, -⟩⟩
    · refine ⟨fun p hp => ?_, fun _ => hexit⟩
      exact absurd (hentry.symm.trans ((hstored p).mpr hp)) (Option.some_ne_none p).symm
    · refine ⟨fun q hq => ?_, fun hnone => absurd ((hstored p).mp hentry) (hnone p)⟩
      obtain rfl : p = q := Option.some.inj (hentry.symm.trans ((hstored q).mpr hq))
      exact ⟨o, ho, hexit⟩
    · exact absurd (hcalled p o hentry hreg) (ho p)
  · rintro ⟨howner, horphan⟩ c' rpid' rstatus' he
    obtain ⟨rfl, rfl, rfl⟩ : c = c' ∧ rpid = rpid' ∧ rstatus = rstatus' := by
      simpa using he
    have hdefined : (s.exit c rpid rstatus).undefined = false := by
      by_cases hnone : ∀ p, s.childOf p ≠ some c
      · rw [horphan hnone]
        exact hguard.1
      · push Not at hnone
        obtain ⟨p, hp⟩ := hnone
        obtain ⟨o, -, hexit⟩ := howner p hp
        rw [hexit]
        exact hguard.1
    rcases exit_cases (consistent_of_run hrun) c rpid rstatus with
      ⟨hentry, hexit⟩ | ⟨p, o, hentry, hreg, ⟨ho, hexit⟩ | ⟨-, hexit⟩⟩
    · have hnone (p : π) : s.childOf p ≠ some c := by
        intro hp
        obtain ⟨o, ho, hexit'⟩ := howner p hp
        have hop := congrFun (congrArg State.op (hexit.symm.trans hexit')) o
        simp [resumed, ho] at hop
      refine ⟨fun p => ?_, fun p o hp => ?_⟩
      · simp [hentry, hnone p]
      · exact absurd (hentry.symm.trans hp) (Option.some_ne_none p).symm
    · have hsame (q : π) (hq : s.childOf q = some c) : p = q := by
        obtain ⟨o', -, hexit'⟩ := howner q hq
        have hop := congrFun (congrArg State.op (hexit.symm.trans hexit')) o
        rcases eq_or_ne o o' with rfl | hne
        · simpa [resumed] using hop
        · simp [resumed, hne, ho] at hop
      have hchild : s.childOf p = some c := by
        by_contra hne
        have hop := congrFun (congrArg State.op
          (hexit.symm.trans (horphan fun q hq => hne (hsame q hq ▸ hq)))) o
        simp [resumed, ho] at hop
      refine ⟨fun q => ?_, fun q o' hq hreg' => ?_⟩
      · rw [hentry, Option.some.injEq]
        exact ⟨fun h => h ▸ hchild, hsame q⟩
      · obtain rfl : p = q := Option.some.inj (hentry.symm.trans hq)
        obtain rfl : o = o' := Option.some.inj (hreg.symm.trans hreg')
        exact ho
    · rw [hexit] at hdefined
      simp [misled] at hdefined

/--
Every callback of a run stores its status in the subprocess whose child exited,
and calls an operation of it that is pending, exactly if each exit is delivered
while the last wait on the subprocess is pending and in front of all other
entries with the pid.
-/
theorem exits_directed_iff
    (hrun : processService.Run tr s) :
    System.History ExitDirected tr ↔ processService.Along WaitsFirst .start tr := by
  refine hrun.along_iff (fun _ h => h) System.history_nil ?_
  intro tr s e hrun hguard
  rw [System.history_append_singleton]
  exact and_congr_right fun _ => exitDirected_iff hrun hguard

/--
The pid of a child whose exit was delivered is given to a second child, while the
subprocess of the first is still alive.
-/
def pidReused : List (Event Bool Bool) :=
  [.construct false 0 0, .construct true 0 0, .launch false 100, .wait false false,
    .exit 0 100 7, .launch true 100, .wait true true, .exit 1 100 8]

theorem not_exits_directed :
    ¬ ∀ (tr : List (Event Bool Bool)) s, processService.Run tr s →
      System.History ExitDirected tr := by
  intro h
  have hrun : processService.Run pidReused (after pidReused) :=
    .of_enabled rfl (by decide +kernel)
  obtain ⟨hstored, -⟩ :=
    h pidReused _ hrun (pidReused.take 7) (.exit 1 100 8) [] rfl 1 100 8 rfl
  have hentry : (after (pidReused.take 7)).entryFor 100 = some false := by decide +kernel
  have hchild : (after (pidReused.take 7)).childOf false ≠ some 1 := by decide +kernel
  exact hchild ((hstored false).mp hentry)

/-- A child that is waited for, and whose pid is used again after its subprocess is gone. -/
def waitedInTurn : List (Event Bool Bool) :=
  [.construct false 0 0, .construct true 0 0, .launch false 100, .wait false false,
    .exit 0 100 7, .destroy false, .launch true 100, .wait true true, .exit 1 100 8]

theorem exits_directed_waitedInTurn :
    System.History ExitDirected waitedInTurn := by
  refine (exits_directed_iff (s := after waitedInTurn)
    (.of_enabled rfl (by decide +kernel))).mpr
      ⟨trivial, trivial, trivial, trivial, ⟨?_, ?_⟩, trivial, trivial, trivial,
        ⟨?_, ?_⟩, trivial⟩
  · decide +kernel
  · decide +kernel
  · decide +kernel
  · decide +kernel

end Directed

section Kept

omit [DecidableEq π] [DecidableEq ω] in
/-- A step that loses no exit by itself and completes no operation. -/
theorem not_lost_of_frame
    {s' : State π ω}
    (hop : s'.op = s.op)
    (hchild : ∀ p c rstatus, s'.childOf p = some c →
      s'.children[c]? = some (.exited rstatus) →
      s.childOf p = some c ∧ s.children[c]? = some (.exited rstatus))
    (hkept : ¬ Lost s) :
    ¬ Lost s' ∧ Yields s s' := by
  constructor
  · rintro ⟨o, p, c, rstatus, ho, hc, hexited⟩
    rw [hop] at ho
    obtain ⟨hc, hexited⟩ := hchild p c rstatus hc hexited
    exact hkept ⟨o, p, c, rstatus, ho, hc, hexited⟩
  · intro o p v hne ho
    rw [hop] at ho
    exact absurd ho hne

omit [DecidableEq ω] in
theorem not_lost_construct
    {p : π} {pid rc : Int}
    (hkept : ¬ Lost s) :
    ¬ Lost (s.construct p pid rc) ∧ Yields s (s.construct p pid rc) := by
  refine not_lost_of_frame rfl ?_ hkept
  intro q c rstatus hc hexited
  rcases eq_or_ne q p with rfl | hq
  · simp [State.construct, State.childOf] at hc
  · exact ⟨by simpa [State.construct, State.childOf, hq] using hc, hexited⟩

omit [DecidableEq ω] in
theorem not_lost_destroy
    {p : π}
    (hkept : ¬ Lost s) :
    ¬ Lost (s.destroy p) ∧ Yields s (s.destroy p) := by
  refine not_lost_of_frame rfl ?_ hkept
  intro q c rstatus hc hexited
  rcases eq_or_ne q p with rfl | hq
  · simp [State.destroy, State.childOf] at hc
  · refine ⟨?_, hexited⟩
    simpa [State.destroy, State.stopNotification, State.childOf, hq] using hc

omit [DecidableEq ω] in
theorem not_lost_launch
    {p : π} {pid : Int}
    (hs : Consistent s)
    (hp : (s.object p).isSome)
    (hkept : ¬ Lost s) :
    ¬ Lost (s.launch p pid) ∧ Yields s (s.launch p pid) := by
  refine not_lost_of_frame rfl ?_ hkept
  intro q c rstatus hc hexited
  rw [childOf_launch hp] at hc
  simp only [State.launch] at hexited
  split at hc
  · obtain rfl : s.children.length = c := Option.some.inj hc
    simp at hexited
  · rw [List.getElem?_append_left (hs.launched q c hc)] at hexited
    exact ⟨hc, hexited⟩

/-- A wait is lost exactly if the exit of the child is delivered already. -/
theorem exitKept_wait
    {p : π} {o : ω}
    (hs : Consistent s)
    (hp : (s.object p).isSome)
    (hkept : ¬ Lost s) :
    (¬ Lost (s.wait p o) ∧ Yields s (s.wait p o)) ↔ WaitsInTime s (.wait p o) := by
  rw [wait_eq hs hp]
  have hchild (q : π) : (s.startNotification p o).childOf q = s.childOf q :=
    childOf_startNotification
  constructor
  · rintro ⟨hnot, -⟩ c rstatus hc hexited
    exact hnot ⟨o, p, c, rstatus, Function.update_self .., (hchild p).trans hc, hexited⟩
  · intro hintime
    constructor
    · rintro ⟨o', q, c, rstatus, ho, hc, hexited⟩
      have hbefore : s.childOf q = some c := (hchild q).symm.trans hc
      rcases eq_or_ne o' o with rfl | hne
      · obtain rfl : p = q := by simpa using ho
        exact hintime c rstatus hbefore hexited
      · exact hkept ⟨o', q, c, rstatus, by simpa [hne] using ho, hbefore, hexited⟩
    · intro o' q v hold hnew
      rcases eq_or_ne o' o with rfl | hne
      · simp at hnew
      · exact absurd (by simpa [hne] using hnew) hold

variable {p : π} {o : ω} {c : Nat} {rpid rstatus : Int}

omit [DecidableEq π] [DecidableEq ω] in
/-- A delivery changes what is known of one child. -/
theorem exited_of_set
    {d : Nat} {v : Int}
    (hd : (s.children.set c (.exited rstatus))[d]? = some (.exited v))
    (hne : d ≠ c) :
    s.children[d]? = some (.exited v) := by
  rwa [List.getElem?_set_ne (Ne.symm hne)] at hd

theorem exited_set_self
    (hguard : processService.guard s (.exit c rpid rstatus)) :
    (s.children.set c (.exited rstatus))[c]? = some (.exited rstatus) := by
  obtain ⟨hlt, -⟩ := List.getElem?_eq_some_iff.mp hguard.2
  simp [hlt]

/-- In time, the first entry with the pid is that of the subprocess of the child. -/
theorem childOf_entry
    (hs : Consistent s)
    (hguard : processService.guard s (.exit c rpid rstatus))
    (hentry : s.entryFor rpid = some p)
    (hintime : WaitsInTime s (.exit c rpid rstatus)) :
    s.childOf p = some c := by
  obtain ⟨hmem, hpid, hfirst⟩ := entryFor_eq_some_iff.mp hentry
  obtain ⟨q, hq, hchild, hle⟩ := hintime.1 p hmem hpid
  have hge := hfirst q hq (pidOf_of_owner hs hguard hchild)
  obtain rfl := (List.idxOf_inj hq).mp (Nat.le_antisymm hle hge)
  exact hchild

/-- Nobody is called: then nobody waits for the child either. -/
theorem exitKept_unanswered
    (hs : Consistent s)
    (hguard : processService.guard s (.exit c rpid rstatus))
    (hkept : ¬ Lost s)
    (hentry : s.entryFor rpid = none) :
    (¬ Lost { s with children := s.children.set c (.exited rstatus) } ∧
        Yields s { s with children := s.children.set c (.exited rstatus) } ∧
        s.undefined = false)
      ↔
    WaitsInTime s (.exit c rpid rstatus) := by
  have hnone (q : π) (hq : q ∈ s.watchers) : s.pidOf q ≠ some rpid := by
    simpa using List.find?_eq_none.mp hentry q hq
  refine iff_of_true ⟨?_, ?_, hguard.1⟩ ⟨?_, ?_⟩
  · rintro ⟨o, q, d, v, ho, hd, hexited⟩
    rcases eq_or_ne d c with rfl | hne
    · exact hnone q (hs.waiting o q ho (isSome_of_childOf hd))
        (pidOf_of_owner hs hguard hd)
    · exact hkept ⟨o, q, d, v, ho, hd, exited_of_set hexited hne⟩
  · exact fun o q v hold hnew => absurd hnew hold
  · exact fun q hq hpid => absurd hpid (hnone q hq)
  · exact fun q hq hchild => absurd (pidOf_of_owner hs hguard hchild) (hnone q hq)

theorem exitKept_resumed
    (hs : Consistent s)
    (hguard : processService.guard s (.exit c rpid rstatus))
    (hkept : ¬ Lost s)
    (hentry : s.entryFor rpid = some p)
    (hreg : s.registered p = some o)
    (ho : s.op o = .waiting p) :
    (¬ Lost (resumed s c rstatus p o) ∧ Yields s (resumed s c rstatus p o) ∧
        (resumed s c rstatus p o).undefined = false)
      ↔
    WaitsInTime s (.exit c rpid rstatus) := by
  have hchild (q : π) : (resumed s c rstatus p o).childOf q = s.childOf q := childOf_store
  have hop (o' : ω) (hne : o' ≠ o) : (resumed s c rstatus p o).op o' = s.op o' :=
    Function.update_of_ne hne ..
  have hself : (resumed s c rstatus p o).op o = .completed p rstatus :=
    Function.update_self ..
  obtain ⟨hmem, -, hfirst⟩ := entryFor_eq_some_iff.mp hentry
  constructor
  · rintro ⟨hnot, hyields, -⟩
    have howner : s.childOf p = some c := by
      obtain ⟨d, hd, hexited⟩ := hyields o p rstatus (by simp [ho]) hself
      rw [hchild] at hd
      rcases eq_or_ne d c with rfl | hne
      · exact hd
      · exact absurd ⟨o, p, d, rstatus, ho, hd, exited_of_set hexited hne⟩ hkept
    refine ⟨fun q hq hpid => ⟨p, hmem, howner, hfirst q hq hpid⟩, ?_⟩
    intro q hq hq'
    obtain rfl := hs.owner q p c hq' howner
    refine ⟨o, hreg, fun o' => ⟨fun ho' => ?_, fun h => h ▸ ho⟩⟩
    by_contra hne
    exact hnot ⟨o', q, c, rstatus, (hop o' hne).trans ho', (hchild q).trans howner,
      exited_set_self hguard⟩
  · intro hintime
    have howner := childOf_entry hs hguard hentry hintime
    obtain ⟨o₁, hreg₁, honly⟩ := hintime.2 p hmem howner
    obtain rfl : o₁ = o := Option.some.inj (hreg₁.symm.trans hreg)
    refine ⟨?_, ?_, hguard.1⟩
    · rintro ⟨o', q, d, v, ho', hd, hexited⟩
      have hne : o' ≠ o₁ := by
        rintro rfl
        simp [hself] at ho'
      rw [hop o' hne] at ho'
      rw [hchild] at hd
      rcases eq_or_ne d c with rfl | hdc
      · obtain rfl := hs.owner q p d hd howner
        exact hne ((honly o').mp ho')
      · exact hkept ⟨o', q, d, v, ho', hd, exited_of_set hexited hdc⟩
    · intro o' q v hold hnew
      rcases eq_or_ne o' o₁ with rfl | hne
      · obtain ⟨rfl, rfl⟩ : p = q ∧ rstatus = v := by simpa [hself] using hnew
        exact ⟨c, (hchild p).trans howner, exited_set_self hguard⟩
      · rw [hop o' hne] at hnew
        exact absurd hnew hold

/-- What an operation that is not pending gets is no wait in time. -/
theorem exitKept_misled
    (hs : Consistent s)
    (hguard : processService.guard s (.exit c rpid rstatus))
    (hentry : s.entryFor rpid = some p)
    (hreg : s.registered p = some o)
    (ho : ∀ q, s.op o ≠ .waiting q) :
    ¬ WaitsInTime s (.exit c rpid rstatus) := by
  intro hintime
  have howner := childOf_entry hs hguard hentry hintime
  obtain ⟨o₁, hreg₁, honly⟩ := hintime.2 p (entryFor_eq_some_iff.mp hentry).1 howner
  obtain rfl : o₁ = o := Option.some.inj (hreg₁.symm.trans hreg)
  exact ho p ((honly o₁).mpr rfl)

theorem exitKept_exit
    (hs : Consistent s)
    (hguard : processService.guard s (.exit c rpid rstatus))
    (hkept : ¬ Lost s) :
    (¬ Lost (s.exit c rpid rstatus) ∧ Yields s (s.exit c rpid rstatus) ∧
        (s.exit c rpid rstatus).undefined = false)
      ↔
    WaitsInTime s (.exit c rpid rstatus) := by
  rcases exit_cases hs c rpid rstatus with
    ⟨hentry, hexit⟩ | ⟨p, o, hentry, hreg, ⟨ho, hexit⟩ | ⟨ho, hexit⟩⟩
  · rw [hexit]
    exact exitKept_unanswered hs hguard hkept hentry
  · rw [hexit]
    exact exitKept_resumed hs hguard hkept hentry hreg ho
  · rw [hexit]
    refine iff_of_false ?_ (exitKept_misled hs hguard hentry hreg ho)
    rintro ⟨-, -, hundefined⟩
    exact absurd hundefined (by simp [misled])

theorem exitKept_iff
    (hrun : processService.Run tr s)
    (hguard : processService.guard s e)
    (hkept : ¬ Lost s) :
    ExitKept tr e ↔ WaitsInTime s e := by
  have hs := consistent_of_run hrun
  rw [ExitKept, after_next hrun, after_of_run hrun]
  cases e with
  | construct p pid rc =>
      obtain ⟨hnot, hyields⟩ := not_lost_construct hkept
      exact iff_of_true ⟨hnot, hyields, hguard.1⟩ trivial
  | launch p pid =>
      obtain ⟨hnot, hyields⟩ := not_lost_launch hs hguard.2.1 hkept
      exact iff_of_true ⟨hnot, hyields, hguard.1⟩ trivial
  | wait p o =>
      have hundefined : (s.wait p o).undefined = false := by
        rw [wait_eq hs hguard.2.1]
        exact hguard.1
      rw [← exitKept_wait hs hguard.2.1 hkept]
      exact ⟨fun h => ⟨h.1, h.2.1⟩, fun h => ⟨h.1, h.2, hundefined⟩⟩
  | exit c rpid rstatus =>
      exact exitKept_exit hs hguard hkept
  | destroy p =>
      obtain ⟨hnot, hyields⟩ := not_lost_destroy hkept
      exact iff_of_true ⟨hnot, hyields, hguard.1⟩ trivial

omit [DecidableEq π] [DecidableEq ω] in
theorem not_lost_start :
    ¬ Lost (.start : State π ω) := by
  rintro ⟨o, p, c, rstatus, ho, -⟩
  simp [State.start] at ho

/--
No exit is lost in a run exactly if every wait starts before the exit of the
child is delivered and every delivery finds the pending wait of the child first.
-/
theorem exits_delivered_iff
    (hrun : processService.Run tr s) :
    System.History ExitKept tr ↔ processService.Along WaitsInTime .start tr := by
  refine hrun.history_iff_along (I := fun _ s => ¬ Lost s) (fun _ h => h) not_lost_start ?_ ?_
  · intro tr s e hrun hguard hkept
    exact exitKept_iff hrun hguard hkept
  · intro tr s e hrun hguard _ hlast
    rw [← after_next hrun]
    exact hlast.1

/-- The exit of the child is delivered before the wait starts. -/
def exitBeforeWait : List (Event Unit Unit) :=
  [.construct () 0 0, .launch () 100, .exit 0 100 7, .wait () ()]

theorem not_exits_delivered :
    ¬ ∀ (tr : List (Event Unit Unit)) s, processService.Run tr s →
      System.History ExitKept tr := by
  intro h
  have hrun : processService.Run exitBeforeWait (after exitBeforeWait) :=
    .of_enabled rfl (by decide +kernel)
  obtain ⟨hnot, -⟩ := h exitBeforeWait _ hrun (exitBeforeWait.take 3) (.wait () ()) [] rfl
  exact hnot ⟨(), (), 0, 7, by decide +kernel, by decide +kernel, by decide +kernel⟩

/-- The wait starts before the exit of the child is delivered. -/
def waitBeforeExit : List (Event Unit Unit) :=
  [.construct () 0 0, .launch () 100, .wait () (), .exit 0 100 7]

theorem exits_delivered_waitBeforeExit :
    System.History ExitKept waitBeforeExit := by
  refine (exits_delivered_iff (s := after waitBeforeExit)
    (.of_enabled rfl (by decide +kernel))).mpr ⟨trivial, trivial, ?_, ?_, trivial⟩
  · intro c rstatus hc
    obtain rfl : 0 = c := Option.some.inj hc
    change some (Child.running 100) ≠ some (.exited rstatus)
    simp
  · exact ⟨fun q _ _ => ⟨(), by decide +kernel, rfl, Nat.le_refl _⟩,
      fun p _ _ => ⟨(), rfl, fun () => iff_of_true rfl rfl⟩⟩

end Kept

end Process
end Ptl

import Ptl.FairExecution
import Ptl.QueuedExecutorStop

/-!
# No function is left in the queue while a thread waits in `run`

`add` calls `notify_one` once for each function.  As long as threads are blocked in
`cv_.wait`, each function in the queue is matched by a thread that will look at the
queue or still has to notify (`Attended`).  In a fair execution, in which some thread
comes to wait in `run` again and again, everything that has been added is popped.

**Results.**
* `attended_of_run`: the invariant, kept by every step.
* `popped_again`: a function in the queue and a waiting thread lead to a pop.
* `adds_are_popped`: what has been added before a moment is popped sooner or later, in
  the order in which it was added.
-/

namespace Ptl
namespace QueuedExecutor

open Transition

universe u v

variable {ι : Type u} {F : Type v}

/-- The thread will look at the queue before it blocks, or has to notify somebody. -/
def Alert (blocked : List ι) (i : ι) : List (Frame F) → Prop
  | .notify :: _ => True
  | .runLock :: _ => True
  | .runWait :: _ => i ∉ blocked
  | _ => False

def Active (s : Config ι (List (Frame F)) (Executor ι F)) (i : ι) : Prop :=
  Alert s.shared.blocked i (s.pc i)

/-- While threads are blocked, there are as many active threads as functions in the queue. -/
def Attended (s : Config ι (List (Frame F)) (Executor ι F)) : Prop :=
  s.shared.blocked ≠ [] →
    ∃ l : List ι, l.Nodup ∧ (∀ i ∈ l, Active s i) ∧ s.shared.work.length ≤ l.length

/-- The thread is in `run` and executes no function. -/
def Waiting : List (Frame F) → Prop
  | .runLock :: _ => True
  | .runWait :: _ => True
  | _ => False

/-- The steps that thread `i` takes if it is given time, apart from the user's code. -/
def Event.Due (i : ι) (e : Event ι F) : Prop :=
  e.actor = i ∧
    match e with
    | .addLock _ _ _ => True
    | .stopLock _ _ => True
    | .notifyOne _ _ _ => True
    | .runBlock _ _ => True
    | .runNotified _ _ => True
    | .runPop _ _ _ => True
    | .runReturn _ _ => True
    | _ => False

def Event.Own (i : ι) (e : Event ι F) : Prop :=
  e.actor = i

theorem not_alert_of_inUserCode
    {blocked : List ι} {i : ι} {k : List (Frame F)}
    (hk : InUserCode k) :
    ¬ Alert blocked i k := by
  intro halert
  cases k with
  | nil =>
      exact halert
  | cons f k =>
      cases f <;> first | exact hk | exact halert

section Attended

variable [DecidableEq ι] {s : Config ι (List (Frame F)) (Executor ι F)} {e : Event ι F}

theorem alert_of_active
    (hguard : queuedExecutor.guard s e)
    (hactive : Active s e.actor) :
    Alert s.shared.blocked e.actor e.source := by
  rwa [Active, pc_actor hguard] at hactive

theorem active_next_actor
    (halert : Alert (e.effect s.shared).blocked e.actor e.target) :
    Active (queuedExecutor.next s e) e.actor := by
  rwa [Active, pc_next_actor]

omit [DecidableEq ι] in
theorem Alert.mono
    {blocked blocked' : List ι} {i : ι} {k : List (Frame F)}
    (h : Alert blocked i k)
    (hblocked : i ∈ blocked' → i ∈ blocked) :
    Alert blocked' i k := by
  cases k with
  | nil =>
      exact h
  | cons f k =>
      cases f with
      | runWait =>
          exact fun hmem => h (hblocked hmem)
      | _ =>
          exact h

/-- A step of another thread leaves a thread active, if it does not block it. -/
theorem Active.next
    {i : ι}
    (hi : Active s i)
    (hne : i ≠ e.actor)
    (hblocked : i ∈ (e.effect s.shared).blocked → i ∈ s.shared.blocked) :
    Active (queuedExecutor.next s e) i := by
  rw [Active, pc_next_of_ne s e hne]
  exact hi.mono hblocked

/-- The active threads stay active, and the queue has not grown. -/
theorem Attended.keep
    (hs : Attended s)
    (hactor : Active s e.actor → Active (queuedExecutor.next s e) e.actor)
    (hblocked : ∀ i, i ∈ (e.effect s.shared).blocked → i ∈ s.shared.blocked)
    (hwork : (e.effect s.shared).work.length ≤ s.shared.work.length) :
    Attended (queuedExecutor.next s e) := by
  intro hne
  obtain ⟨j, hj⟩ := List.exists_mem_of_ne_nil _ hne
  obtain ⟨l, hnodup, hactive, hlen⟩ := hs (List.ne_nil_of_mem (hblocked j hj))
  refine ⟨l, hnodup, fun i hi => ?_, Nat.le_trans hwork hlen⟩
  by_cases hia : i = e.actor
  · subst hia
    exact hactor (hactive _ hi)
  · exact (hactive i hi).next hia (hblocked i)

omit [DecidableEq ι] in
theorem attended_of_work_nil
    (hwork : s.shared.work = []) :
    Attended s :=
  fun _ => ⟨[], List.nodup_nil, by simp, by simp [hwork]⟩

theorem Attended.addLock
    {i : ι} {k : List (Frame F)} {f : F}
    (hs : Attended s)
    (hguard : queuedExecutor.guard s (.addLock i k f)) :
    Attended (queuedExecutor.next s (.addLock i k f)) := by
  intro hne
  obtain ⟨l, hnodup, hactive, hlen⟩ := hs hne
  have hi : i ∉ l := fun hi => alert_of_active hguard (hactive i hi)
  refine ⟨i :: l, List.nodup_cons.mpr ⟨hi, hnodup⟩, ?_, ?_⟩
  · intro j hj
    rcases List.mem_cons.mp hj with rfl | hj
    · exact active_next_actor (e := .addLock j k f) trivial
    · exact (hactive j hj).next (ne_of_mem_of_not_mem hj hi) id
  · change (s.shared.work ++ [f]).length ≤ (i :: l).length
    rw [List.length_append, List.length_cons]
    exact Nat.succ_le_succ hlen

/-- The notified thread takes the place of the one that notifies it. -/
theorem Attended.notifyOne
    {i : ι} {k : List (Frame F)} {woken : Option ι}
    (hs : Attended s)
    (hconsistent : Consistent s)
    (hguard : queuedExecutor.guard s (.notifyOne i k woken)) :
    Attended (queuedExecutor.next s (.notifyOne i k woken)) := by
  cases woken with
  | none =>
      exact fun hne => absurd hguard.2 hne
  | some j =>
      intro _
      have hj : j ∈ s.shared.blocked := hguard.2
      obtain ⟨k', hwait⟩ := hconsistent.waiting j hj
      have hji : j ≠ i := by
        rintro rfl
        cases hwait.symm.trans (pc_actor hguard)
      obtain ⟨l, hnodup, hactive, hlen⟩ := hs (List.ne_nil_of_mem hj)
      have hjl : j ∉ l := by
        intro hmem
        have halert := hactive j hmem
        rw [Active, hwait] at halert
        exact halert hj
      have hjl' : j ∉ l.erase i := fun h => hjl (List.mem_of_mem_erase h)
      refine ⟨j :: l.erase i, List.nodup_cons.mpr ⟨hjl', hnodup.erase i⟩, ?_, ?_⟩
      · intro x hx
        rcases List.mem_cons.mp hx with rfl | hx
        · rw [Active, pc_next_of_ne s (.notifyOne i k (some x)) hji, hwait]
          exact hconsistent.nodup.not_mem_erase
        · obtain ⟨hne, hmem⟩ := hnodup.mem_erase_iff.mp hx
          exact (hactive x hmem).next hne fun h => List.mem_of_mem_erase h
      · have herase : l.length - 1 ≤ (l.erase i).length := List.le_length_erase
        have hlen' : s.shared.work.length ≤ l.length := hlen
        change s.shared.work.length ≤ (j :: l.erase i).length
        rw [List.length_cons]
        omega

theorem Attended.runPop
    (hs : Attended s)
    (i : ι) (k : List (Frame F)) (f : F) :
    Attended (queuedExecutor.next s (.runPop i k f)) := by
  intro hne
  obtain ⟨l, hnodup, hactive, hlen⟩ := hs hne
  refine ⟨l.erase i, hnodup.erase i, ?_, ?_⟩
  · intro j hj
    obtain ⟨hne, hmem⟩ := hnodup.mem_erase_iff.mp hj
    exact (hactive j hmem).next hne id
  · have herase : l.length - 1 ≤ (l.erase i).length := List.le_length_erase
    change s.shared.work.tail.length ≤ (l.erase i).length
    rw [List.length_tail]
    omega

omit [DecidableEq ι] in
theorem work_nil_of_not_ready
    (h : s.shared.ready = false) :
    s.shared.work = [] := by
  rw [Executor.ready, Bool.or_eq_false_iff] at h
  simpa using h.2

theorem Attended.step
    (hs : Attended s)
    (hconsistent : Consistent s)
    (hguard : queuedExecutor.guard s e) :
    Attended (queuedExecutor.next s e) := by
  cases e with
  | addLock i k f =>
      exact hs.addLock hguard
  | notifyOne i k woken =>
      exact hs.notifyOne hconsistent hguard
  | runPop i k f =>
      exact hs.runPop i k f
  | runBlock i k =>
      exact attended_of_work_nil (work_nil_of_not_ready hguard.2)
  | runReturn i k =>
      exact attended_of_work_nil hguard.2.2.1
  | stopLock i k | runNotified i k | bodyReturn i k f =>
      exact hs.keep (fun _ => active_next_actor trivial) (fun _ h => h) (Nat.le_refl _)
  | runSpurious i k =>
      exact hs.keep (fun _ => active_next_actor trivial) (fun _ h => List.mem_of_mem_erase h)
        (Nat.le_refl _)
  | bodyThrow i k f =>
      exact hs.keep (fun h => (alert_of_active hguard h).elim) (fun _ h => h) (Nat.le_refl _)
  | callAdd i k f | callStop i k | callRun i k =>
      exact hs.keep (fun h => absurd (alert_of_active hguard h) (not_alert_of_inUserCode hguard.2))
        (fun _ h => h) (Nat.le_refl _)

theorem attended_of_run
    {tr : List (Event ι F)}
    (hrun : queuedExecutor.Run tr s) :
    Attended s := by
  induction hrun with
  | start hinit =>
      obtain rfl := hinit
      exact attended_of_work_nil rfl
  | step e hrun hguard ih =>
      exact ih.step (consistent_of_run hrun) hguard

end Attended

section Executions

variable [DecidableEq ι]
variable {X : Execution
  (queuedExecutor : System (Config ι (List (Frame F)) (Executor ι F)) (Event ι F))}
variable {s : Config ι (List (Frame F)) (Executor ι F)} {e : Event ι F}
variable {n m : Nat} {i j : ι} {k : List (Frame F)}

/-- With a function in the queue, a runner that has the lock pops it. -/
theorem popped_of_lock
    (hguard : queuedExecutor.guard s e)
    (hpc : s.pc e.actor = .runLock :: k)
    (hwork : s.shared.work ≠ []) :
    e.popped ≠ none := by
  have hsource : e.source = .runLock :: k := (pc_actor hguard).symm.trans hpc
  have hcheck : e.check s.shared := hguard.2
  cases e with
  | runPop i k' f =>
      exact nofun
  | runBlock i k' =>
      exact absurd (work_nil_of_not_ready hcheck) hwork
  | runReturn i k' =>
      exact absurd hcheck.2.1 hwork
  | callAdd i k' f | callStop i k' | callRun i k' =>
      obtain rfl : k' = .runLock :: k := hsource
      exact hcheck.elim
  | _ =>
      cases hsource

/-- A runner that is not blocked any more asks for the lock. -/
theorem lock_of_awake
    (hguard : queuedExecutor.guard s e)
    (hpc : s.pc e.actor = .runWait :: k) :
    e.target = .runLock :: k := by
  have hsource : e.source = .runWait :: k := (pc_actor hguard).symm.trans hpc
  have hcheck : e.check s.shared := hguard.2
  cases e with
  | runNotified i k' | runSpurious i k' =>
      obtain rfl : k' = k := List.tail_eq_of_cons_eq hsource
      rfl
  | callAdd i k' f | callStop i k' | callRun i k' =>
      obtain rfl : k' = .runWait :: k := hsource
      exact hcheck.elim
  | _ =>
      cases hsource

theorem notifyOne_of_notify
    (hguard : queuedExecutor.guard s e)
    (hactor : e.actor = j)
    (hpc : s.pc j = .notify :: k) :
    ∃ woken, e = .notifyOne j k woken := by
  subst hactor
  have hsource : e.source = .notify :: k := (pc_actor hguard).symm.trans hpc
  have hcheck : e.check s.shared := hguard.2
  cases e with
  | notifyOne i k' woken =>
      obtain rfl : k' = k := List.tail_eq_of_cons_eq hsource
      exact ⟨woken, rfl⟩
  | callAdd i k' f | callStop i k' | callRun i k' =>
      obtain rfl : k' = .notify :: k := hsource
      exact hcheck.elim
  | _ =>
      cases hsource

/-- A thread is blocked by a step of its own only. -/
theorem blocked_of_effect
    {x : Executor ι F}
    (hj : j ∈ (e.effect x).blocked)
    (hne : j ≠ e.actor) :
    j ∈ x.blocked := by
  cases e with
  | runBlock i k =>
      rcases List.mem_append.mp hj with hj | hj
      · exact hj
      · exact absurd (List.mem_singleton.mp hj) hne
  | notifyOne i k woken =>
      cases woken with
      | none =>
          exact hj
      | some l =>
          exact List.mem_of_mem_erase hj
  | runSpurious i k =>
      exact List.mem_of_mem_erase hj
  | _ =>
      exact hj

/-- A queue with functions in it from which nobody pops. -/
structure Starved (X : Execution
    (queuedExecutor : System (Config ι (List (Frame F)) (Executor ι F)) (Event ι F)))
    (n : Nat) : Prop where
  quiet : ∀ m e, n ≤ m → X.event m = some e → e.popped = none
  work : ∀ m, n ≤ m → (X.state m).shared.work ≠ []

theorem starved_of_quiet
    (hquiet : ∀ m e, n ≤ m → X.event m = some e → e.popped = none)
    (hwork : (X.state n).shared.work ≠ []) :
    Starved X n := by
  refine ⟨hquiet, fun m hm => ?_⟩
  refine X.stable (P := fun s => s.shared.work ≠ []) hwork ?_ hm
  intro m e hm hwork he hguard
  have heffect := work_of_effect hguard.2
  rw [hquiet m e hm he, Option.toList_none, List.nil_append] at heffect
  change (e.effect (X.state m).shared).work ≠ []
  rw [heffect]
  exact List.append_ne_nil_of_left_ne_nil hwork _

variable (hfair : ∀ i, X.Fair (Event.Due i) (Event.Own i))
include hfair

theorem Starved.not_lock
    (h : Starved X n)
    (hm : n ≤ m) :
    (X.state m).pc j ≠ .runLock :: k := by
  intro hpc
  have henabled : ∀ l, m ≤ l → (X.state l).pc j = .runLock :: k →
      ∃ e, Event.Due j e ∧ queuedExecutor.guard (X.state l) e := by
    intro l hl hlock
    obtain ⟨f, rest, hwork⟩ := List.exists_cons_of_ne_nil (h.work l (Nat.le_trans hm hl))
    refine ⟨.runPop j k f, ⟨rfl, trivial⟩, hlock, ?_, ?_⟩
    · rw [Executor.ready, hwork]
      exact Bool.or_true _
    · rw [hwork]
      rfl
  obtain ⟨l, e, hl, hlock, he, hown, hguard, -⟩ := (hfair j).acts
    (P := fun s => s.pc j = .runLock :: k) hpc henabled
    fun _ e _ hlock _ hother => (pc_next_of_ne _ e (Ne.symm hother)).trans hlock
  obtain rfl : e.actor = j := hown
  have hn := Nat.le_trans hm hl
  exact popped_of_lock hguard hlock (h.work l hn) (h.quiet l e hn he)

theorem Starved.not_awake
    (h : Starved X n)
    (hm : n ≤ m)
    (hpc : (X.state m).pc j = .runWait :: k) :
    j ∈ (X.state m).shared.blocked := by
  by_contra hawake
  obtain ⟨l, e, hl, ⟨hwait, -⟩, -, hown, hguard, hnext⟩ := (hfair j).acts
    (P := fun s : Config ι (List (Frame F)) (Executor ι F) =>
      s.pc j = .runWait :: k ∧ j ∉ s.shared.blocked) ⟨hpc, hawake⟩
    (fun l _ hP => ⟨.runNotified j k, ⟨rfl, trivial⟩, hP.1, hP.2⟩)
    (fun l e _ hP _ hother => ⟨(pc_next_of_ne _ e (Ne.symm hother)).trans hP.1,
      fun hj => hP.2 (blocked_of_effect hj (Ne.symm hother))⟩)
  obtain rfl : e.actor = j := hown
  refine h.not_lock hfair (m := l + 1) (j := e.actor) (k := k)
    (Nat.le_succ_of_le (Nat.le_trans hm hl)) ?_
  rw [hnext, pc_next_actor]
  exact lock_of_awake hguard hwait

/-- Nobody wakes up. -/
theorem Starved.blocked
    (h : Starved X n)
    (hj : j ∈ (X.state n).shared.blocked)
    (hm : n ≤ m) :
    j ∈ (X.state m).shared.blocked := by
  refine X.stable (P := fun s => j ∈ s.shared.blocked) hj ?_ hm
  intro m e hm hj he hguard
  obtain ⟨k, hwait⟩ := (consistent_of_run (X.run m)).waiting j hj
  have hnext := (X.step m e he).2
  have hm' : n ≤ m + 1 := Nat.le_succ_of_le hm
  by_cases hactor : j = e.actor
  · subst hactor
    refine absurd ?_ (h.not_lock hfair (m := m + 1) (j := e.actor) (k := k) hm')
    rw [hnext, pc_next_actor]
    exact lock_of_awake hguard hwait
  · rw [← hnext]
    refine h.not_awake hfair hm' (k := k) ?_
    rw [hnext, pc_next_of_ne _ e hactor]
    exact hwait

/-- Nobody who has to notify finds a blocked thread. -/
theorem Starved.not_notify
    (h : Starved X n)
    (hi : i ∈ (X.state n).shared.blocked)
    (hm : n ≤ m) :
    (X.state m).pc j ≠ .notify :: k := by
  intro hpc
  have henabled : ∀ l, m ≤ l → (X.state l).pc j = .notify :: k →
      ∃ e, Event.Due j e ∧ queuedExecutor.guard (X.state l) e := by
    intro l hl hnotify
    exact ⟨.notifyOne j k (some i), ⟨rfl, trivial⟩, hnotify,
      h.blocked hfair hi (Nat.le_trans hm hl)⟩
  obtain ⟨l, e, hl, hnotify, -, hown, hguard, hnext⟩ := (hfair j).acts
    (P := fun s => s.pc j = .notify :: k) hpc henabled
    fun _ e _ hnotify _ hother => (pc_next_of_ne _ e (Ne.symm hother)).trans hnotify
  have hn : n ≤ l := Nat.le_trans hm hl
  obtain ⟨woken, rfl⟩ := notifyOne_of_notify hguard hown hnotify
  cases woken with
  | none =>
      have hblocked := h.blocked hfair hi hn
      rw [show (X.state l).shared.blocked = [] from hguard.2] at hblocked
      cases hblocked
  | some x =>
      have hx : x ∈ (X.state l).shared.blocked := hguard.2
      have hconsistent := consistent_of_run (X.run l)
      obtain ⟨k', hwait⟩ := hconsistent.waiting x hx
      have hne : x ≠ (Event.notifyOne j k (some x) : Event ι F).actor := by
        rintro rfl
        cases hwait.symm.trans hnotify
      have hmem := h.not_awake hfair (m := l + 1) (j := x) (k := k') (Nat.le_succ_of_le hn) (by
        rw [hnext, pc_next_of_ne _ _ hne]
        exact hwait)
      rw [hnext] at hmem
      exact hconsistent.nodup.not_mem_erase hmem

/-- A function in the queue and a thread that waits in `run` lead to a pop. -/
theorem popped_again
    (hwork : (X.state n).shared.work ≠ [])
    (hwaiting : Waiting ((X.state n).pc i)) :
    ∃ m e, n ≤ m ∧ X.event m = some e ∧ e.popped ≠ none := by
  by_contra hnever
  have h : Starved X n := by
    refine starved_of_quiet (fun m e hm he => ?_) hwork
    by_contra hpopped
    exact hnever ⟨m, e, hm, he, hpopped⟩
  have hn := Nat.le_refl n
  have hblocked : i ∈ (X.state n).shared.blocked := by
    cases hpc : (X.state n).pc i with
    | nil =>
        rw [hpc] at hwaiting
        exact hwaiting.elim
    | cons f k =>
        cases f with
        | runLock =>
            exact absurd hpc (h.not_lock hfair hn)
        | runWait =>
            exact h.not_awake hfair hn hpc
        | _ =>
            rw [hpc] at hwaiting
            exact hwaiting.elim
  obtain ⟨l, -, hactive, hlen⟩ := attended_of_run (X.run n) (List.ne_nil_of_mem hblocked)
  have hpos : 0 < l.length := Nat.lt_of_lt_of_le (List.length_pos_iff.mpr hwork) hlen
  obtain ⟨j, hj⟩ := List.exists_mem_of_length_pos hpos
  have halert := hactive j hj
  rw [Active] at halert
  cases hpc : (X.state n).pc j with
  | nil =>
      rw [hpc] at halert
      exact halert
  | cons f k =>
      rw [hpc] at halert
      cases f with
      | notify =>
          exact h.not_notify hfair hblocked hn hpc
      | runLock =>
          exact h.not_lock hfair hn hpc
      | runWait =>
          exact halert (h.not_awake hfair hn hpc)
      | _ =>
          exact halert

omit hfair in
theorem adds_grow (hm : n ≤ m) :
    adds (X.trace n) <+: adds (X.trace m) :=
  (X.trace_prefix hm).filterMap Event.added

omit hfair in
theorem pops_grow (hm : n ≤ m) :
    pops (X.trace n) <+: pops (X.trace m) :=
  (X.trace_prefix hm).filterMap Event.popped

omit hfair in
theorem pops_length_lt
    (hm : n ≤ m)
    (he : X.event m = some e)
    (hpopped : e.popped ≠ none) :
    (pops (X.trace n)).length < (pops (X.trace (m + 1))).length := by
  have hlen := (pops_grow (X := X) hm).length_le
  obtain ⟨f, hf⟩ := Option.ne_none_iff_exists'.mp hpopped
  rw [X.trace_of_some he, pops_append_singleton, hf]
  exact Nat.lt_of_le_of_lt hlen (by simp)

theorem popped_of_waiting
    (hwaiting : ∀ m, ∃ k i, m ≤ k ∧ Waiting ((X.state k).pc i))
    (n : Nat) :
    ∃ m, n ≤ m ∧ adds (X.trace n) <+: pops (X.trace m) := by
  have hlen : ∀ r m, n ≤ m → (adds (X.trace n)).length ≤ (pops (X.trace m)).length + r →
      ∃ k, n ≤ k ∧ (adds (X.trace n)).length ≤ (pops (X.trace k)).length := by
    intro r
    induction r with
    | zero =>
        exact fun m hm h => ⟨m, hm, h⟩
    | succ r ih =>
        intro m hm h
        obtain ⟨k, i, hk, hwaiting⟩ := hwaiting m
        have hnk := Nat.le_trans hm hk
        by_cases hdone : (adds (X.trace n)).length ≤ (pops (X.trace k)).length
        · exact ⟨k, hnk, hdone⟩
        · have hwork : (X.state k).shared.work ≠ [] := by
            intro hwork
            have hqueue := queue_of_run (X.run k)
            rw [hwork, List.append_nil] at hqueue
            exact hdone (hqueue ▸ (adds_grow hnk).length_le)
          obtain ⟨l, e, hl, he, hpopped⟩ := popped_again hfair hwork hwaiting
          have hlt := pops_length_lt hl he hpopped
          have hle := (pops_grow (X := X) hk).length_le
          exact ih (l + 1) (Nat.le_succ_of_le (Nat.le_trans hnk hl)) (by omega)
  obtain ⟨k, hk, hle⟩ := hlen _ n (Nat.le_refl n) (Nat.le_add_left ..)
  have hqueue : pops (X.trace k) <+: adds (X.trace k) :=
    ⟨(X.state k).shared.work, (queue_of_run (X.run k)).symm⟩
  exact ⟨k, hk, List.prefix_of_prefix_length_le (adds_grow hk) hqueue hle⟩

omit hfair in
/--
The queue is attended at every moment.  If threads that are inside these calls get time
and threads come to wait in `run` again and again, everything that has been added is
popped sooner or later, in the order in which it was added.
-/
theorem adds_are_popped :
    (∀ n, Attended (X.state n)) ∧
      ((∀ i, X.Fair (Event.Due i) (Event.Own i)) →
        (∀ m, ∃ k i, m ≤ k ∧ Waiting ((X.state k).pc i)) →
        ∀ n, ∃ m, n ≤ m ∧ adds (X.trace n) <+: pops (X.trace m)) :=
  ⟨fun n => attended_of_run (X.run n),
    fun hfair hwaiting n => popped_of_waiting hfair hwaiting n⟩

end Executions

/-- A thread waits in `run` for a function and then for the next one. -/
def waitForTwo : List (Event Bool Nat) :=
  [.callRun true [], .runBlock true [], .callAdd false [] 7, .addLock false [] 7,
    .notifyOne false [] (some true), .runNotified true [], .runPop true [] 7,
    .bodyReturn true [] 7, .runBlock true []]

def waitedForTwo : Execution (queuedExecutor :
    System (Config Bool (List (Frame Nat)) (Executor Bool Nat)) (Event Bool Nat)) :=
  .ofEnabled queuedExecutor start waitForTwo rfl (by decide +kernel)

theorem adds_are_popped_waitedForTwo :
    Attended (waitedForTwo.state 4) ∧
      ∃ m, 4 ≤ m ∧ adds (waitedForTwo.trace 4) <+: pops (waitedForTwo.trace m) := by
  have htrue : (queuedExecutor.exec start waitForTwo).pc true = [.runWait] := by
    decide +kernel
  have hfalse : (queuedExecutor.exec start waitForTwo).pc false = [] := by
    decide +kernel
  have hblocked : (queuedExecutor.exec start waitForTwo).shared.blocked = [true] := by
    decide +kernel
  obtain ⟨hattended, hpopped⟩ := adds_are_popped (X := waitedForTwo)
  refine ⟨hattended 4, hpopped ?_ ?_ 4⟩
  · intro i
    refine Execution.fair_ofEnabled fun e hdue hguard => ?_
    have hpc := pc_actor hguard
    cases e with
    | runNotified j k =>
        cases j with
        | false =>
            cases hfalse.symm.trans hpc
        | true =>
            exact hguard.2 (hblocked ▸ List.mem_singleton_self true)
    | callAdd j k f | callStop j k | callRun j k | runSpurious j k =>
        exact hdue.2
    | bodyReturn j k f | bodyThrow j k f =>
        exact hdue.2
    | _ j =>
        cases j
        · cases hfalse.symm.trans hpc
        · cases htrue.symm.trans hpc
  · intro m
    refine ⟨m + 9, true, Nat.le_add_right .., ?_⟩
    have hstate : waitedForTwo.state (m + 9) = queuedExecutor.exec start waitForTwo :=
      Execution.state_ofEnabled_of_le (Nat.le_add_left ..)
    rw [hstate, htrue]
    trivial

end QueuedExecutor
end Ptl

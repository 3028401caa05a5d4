import Mathlib.Data.List.Induction
import Mathlib.Order.Basic

/-!
# Guarded transition systems and their runs

This module is the general layer every concurrent component below is stated
in.  A system has an initial condition, a guard for each event and the state
the event leads to.  Everything nondeterministic is part of the event: which
thread moves, the arguments of a new call, whether a weak compare-exchange
fails spuriously, the outcome of a system call.

A run is recorded together with its trace, the list of events in the order in
which they happened, so that a property may speak about the past of a run.

**Rules.**
* `Run.invariant`: what holds initially and is kept by one step holds of every
  run.
* `Run.along_iff`: a property of traces, read off the steps of a run.
* `Run.along_congr`: two conditions on the steps of a run that agree under an invariant.
* `Run.split`: a run can be cut at any point of its trace.
* `Run.of_enabled`: a trace all of whose events are enabled is a run; this is
  how a concrete schedule is executed.
* `Run.prefix_of_stuck`: a deterministic system has one complete run.
* `Run.history`: what every step does, given the past, holds along a run.
* `Run.history_congr`, `Run.history_iff_along`: two conditions on the steps of a
  run that agree while an invariant holds, which one of them keeps.
* `Run.onset`: a condition that stays true becomes true at one step.
* `Simulation.run`: a run of one system is matched by a run of another.
* `Run.project`: the runs of a component of a system.
* `Run.refine`: a run whose steps are matched by blocks of steps of another system.
* `Run.le_of_append`: what never decreases along a run.
* `Reachable.acc`: a measure that every step decreases ends every run.
* `restrict`: the runs whose steps all meet a condition.
-/

namespace Ptl
namespace Transition

universe u v w x

/-- A guarded transition system over states `σ` and events `ε`. -/
structure System
    (σ : Type u) (ε : Type v) where
  init : σ → Prop
  guard : σ → ε → Prop
  next : σ → ε → σ

/-- The last event of a trace in a projection of the trace. -/
theorem filterMap_append_singleton
    {α : Type u} {β : Type v}
    (f : α → Option β) (l : List α) (a : α) :
    (l ++ [a]).filterMap f = l.filterMap f ++ (f a).toList := by
  rw [List.filterMap_append]
  cases h : f a <;> simp [h]

/-- A condition on lists that survives dropping the last element holds of all prefixes. -/
theorem inherited_of_append
    {α : Type u} {B : List α → Prop}
    (hB : ∀ l a, B (l ++ [a]) → B l)
    {es fs : List α}
    (h : B (es ++ fs)) :
    B es := by
  induction fs using List.reverseRecOn with
  | nil =>
      rwa [List.append_nil] at h
  | append_singleton fs e ih =>
      rw [← List.append_assoc] at h
      exact ih (hB _ e h)

namespace System

variable {σ : Type u} {ε : Type v}

/-- Runs of the system with their traces. -/
inductive Run (M : System σ ε) : List ε → σ → Prop
  | start {s : σ} (hinit : M.init s) :
      Run M [] s
  | step {tr : List ε} {s : σ} (e : ε)
      (hrun : Run M tr s)
      (hguard : M.guard s e) :
      Run M (tr ++ [e]) (M.next s e)

/-- States reached by some run. -/
def Reachable (M : System σ ε) (s : σ) : Prop :=
  ∃ tr : List ε, M.Run tr s

/-- The state after executing a list of events. -/
def exec (M : System σ ε) : σ → List ε → σ
  | s, [] => s
  | s, e :: es => exec M (M.next s e) es

/-- Every event of the list is enabled when its turn comes. -/
def Enabled (M : System σ ε) : σ → List ε → Prop
  | _, [] => True
  | s, e :: es => M.guard s e ∧ Enabled M (M.next s e) es

/-- Every event of the list meets the condition when its turn comes. -/
def Along (M : System σ ε) (ok : σ → ε → Prop) : σ → List ε → Prop
  | _, [] => True
  | s, e :: es => ok s e ∧ Along M ok (M.next s e) es

instance decidableEnabled
    (M : System σ ε)
    [hdec : ∀ s e, Decidable (M.guard s e)] :
    ∀ (s : σ) (es : List ε), Decidable (M.Enabled s es)
  | _, [] => isTrue trivial
  | s, e :: es =>
      match hdec s e, decidableEnabled M (M.next s e) es with
      | isTrue hg, isTrue ht => isTrue ⟨hg, ht⟩
      | isFalse hg, _ => isFalse fun h => hg h.1
      | _, isFalse ht => isFalse fun h => ht h.2

instance decidableAlong
    (M : System σ ε) (ok : σ → ε → Prop)
    [hdec : ∀ s e, Decidable (ok s e)] :
    ∀ (s : σ) (es : List ε), Decidable (M.Along ok s es)
  | _, [] => isTrue trivial
  | s, e :: es =>
      match hdec s e, decidableAlong M ok (M.next s e) es with
      | isTrue hok, isTrue ht => isTrue ⟨hok, ht⟩
      | isFalse hok, _ => isFalse fun h => hok h.1
      | _, isFalse ht => isFalse fun h => ht h.2

@[simp] theorem exec_append
    (M : System σ ε) (s : σ) (es fs : List ε) :
    M.exec s (es ++ fs) = M.exec (M.exec s es) fs := by
  induction es generalizing s with
  | nil =>
      rfl
  | cons e es ih =>
      exact ih (M.next s e)

theorem exec_append_singleton
    (M : System σ ε) (s : σ) (es : List ε) (e : ε) :
    M.exec s (es ++ [e]) = M.next (M.exec s es) e := by
  rw [exec_append]
  rfl

theorem enabled_append
    (M : System σ ε) (s : σ) (es fs : List ε) :
    M.Enabled s (es ++ fs)
      ↔
    M.Enabled s es ∧ M.Enabled (M.exec s es) fs := by
  induction es generalizing s with
  | nil =>
      simp [Enabled, exec]
  | cons e es ih =>
      simp only [List.cons_append, Enabled, exec, ih, and_assoc]

theorem along_append
    (M : System σ ε) (ok : σ → ε → Prop) (s : σ) (es fs : List ε) :
    M.Along ok s (es ++ fs)
      ↔
    M.Along ok s es ∧ M.Along ok (M.exec s es) fs := by
  induction es generalizing s with
  | nil =>
      simp [Along, exec]
  | cons e es ih =>
      simp only [List.cons_append, Along, exec, ih, and_assoc]

namespace Run

variable {M : System σ ε}

/-- With one initial state, the trace determines the state. -/
theorem eq_exec
    {s₀ : σ}
    (hinit : ∀ s, M.init s → s = s₀)
    {tr : List ε} {s : σ}
    (hrun : M.Run tr s) :
    s = M.exec s₀ tr := by
  induction hrun with
  | start hs =>
      exact hinit _ hs
  | step e hrun hg ih =>
      rw [exec_append_singleton, ← ih]

/--
A property of traces that every step keeps exactly if it meets `ok`: a run has
the property exactly if all its steps meet `ok`.
-/
theorem along_iff
    {s₀ : σ} {ok : σ → ε → Prop} {A : List ε → Prop}
    (hinit : ∀ s, M.init s → s = s₀)
    (hnil : A [])
    (hstep : ∀ tr s e, M.Run tr s → M.guard s e →
      (A (tr ++ [e]) ↔ A tr ∧ ok s e))
    {tr : List ε} {s : σ}
    (hrun : M.Run tr s) :
    A tr ↔ M.Along ok s₀ tr := by
  induction hrun with
  | start _ =>
      exact iff_of_true hnil trivial
  | @step tr s e hrun hguard ih =>
      rw [hstep tr s e hrun hguard, along_append, ih, ← hrun.eq_exec hinit]
      simp only [Along, and_true]

/-- Two conditions on the steps of a run that agree while an invariant holds. -/
theorem along_congr
    {s₀ : σ} {ok ok' : σ → ε → Prop} {I : σ → Prop}
    (hinit : ∀ s, M.init s → s = s₀)
    (hstart : I s₀)
    (hstep : ∀ s e, I s → M.guard s e → I (M.next s e))
    (hiff : ∀ s e, I s → M.guard s e → (ok s e ↔ ok' s e))
    {tr : List ε} {s : σ}
    (hrun : M.Run tr s) :
    M.Along ok s₀ tr ↔ M.Along ok' s₀ tr := by
  have hboth : (M.Along ok s₀ tr ↔ M.Along ok' s₀ tr) ∧ I s := by
    induction hrun with
    | start hs =>
        exact ⟨Iff.rfl, hinit _ hs ▸ hstart⟩
    | @step tr s e hrun hguard ih =>
        obtain ⟨hpast, hI⟩ := ih
        refine ⟨?_, hstep s e hI hguard⟩
        rw [along_append, along_append, hpast, ← hrun.eq_exec hinit]
        exact and_congr_right fun _ => and_congr_left fun _ => hiff s e hI hguard
  exact hboth.1

/-- Invariant rule over runs and their traces. -/
theorem invariant
    {I : List ε → σ → Prop}
    (hinit : ∀ s, M.init s → I [] s)
    (hstep : ∀ tr s e, M.Run tr s → I tr s →
      M.guard s e → I (tr ++ [e]) (M.next s e))
    {tr : List ε} {s : σ}
    (hrun : M.Run tr s) :
    I tr s := by
  induction hrun with
  | start hs =>
      exact hinit _ hs
  | step e hrun hg ih =>
      exact hstep _ _ e hrun ih hg

/-- Continuing a run by a list of enabled events. -/
theorem extend
    {tr : List ε} {s : σ}
    (hrun : M.Run tr s)
    {es : List ε}
    (hes : M.Enabled s es) :
    M.Run (tr ++ es) (M.exec s es) := by
  induction es generalizing tr s with
  | nil =>
      simpa [exec] using hrun
  | cons e es ih =>
      have hnext := ih (Run.step e hrun hes.1) hes.2
      simpa [exec, List.append_assoc] using hnext

/-- A trace whose events are all enabled from an initial state is a run. -/
theorem of_enabled
    {s : σ} {es : List ε}
    (hinit : M.init s)
    (hes : M.Enabled s es) :
    M.Run es (M.exec s es) := by
  simpa using (Run.start hinit).extend hes

/-- Cutting a run at a point of its trace. -/
theorem split
    {es fs : List ε} {s : σ}
    (hrun : M.Run (es ++ fs) s) :
    ∃ s₀ : σ,
      M.Run es s₀ ∧
      M.Enabled s₀ fs ∧
      s = M.exec s₀ fs := by
  generalize htr : es ++ fs = tr at hrun
  induction hrun generalizing fs with
  | start hs =>
      obtain ⟨rfl, rfl⟩ := List.append_eq_nil_iff.mp htr
      exact ⟨_, Run.start hs, trivial, rfl⟩
  | @step tr s e hrun hg ih =>
      rcases List.eq_nil_or_concat fs with rfl | ⟨gs, g, rfl⟩
      · rw [List.append_nil] at htr
        subst htr
        exact ⟨_, Run.step e hrun hg, trivial, rfl⟩
      · rw [List.concat_eq_append, ← List.append_assoc] at htr
        obtain ⟨hpre, hlast⟩ := List.append_inj' htr rfl
        obtain rfl : g = e := by simpa using hlast
        obtain ⟨s₀, hrun₀, hen, rfl⟩ := ih hpre
        refine ⟨s₀, hrun₀, ?_, ?_⟩
        · rw [List.concat_eq_append, enabled_append]
          exact ⟨hen, hg, trivial⟩
        · simp [exec]

/-- What no step decreases has only grown between two moments of a run. -/
theorem le_of_append
    {α : Type w} [Preorder α]
    {s₀ : σ} {B : List ε → Prop} (g : σ → α)
    (hinit : ∀ s, M.init s → s = s₀)
    (hB : ∀ tr e, B (tr ++ [e]) → B tr)
    (hstep : ∀ tr s e, M.Run tr s → B tr → M.guard s e → g s ≤ g (M.next s e))
    {es fs : List ε} {s : σ}
    (hrun : M.Run (es ++ fs) s)
    (hbound : B (es ++ fs)) :
    g (M.exec s₀ es) ≤ g s := by
  induction fs using List.reverseRecOn generalizing s with
  | nil =>
      rw [List.append_nil] at hrun
      exact le_of_eq (congrArg g (hrun.eq_exec hinit).symm)
  | append_singleton fs e ih =>
      rw [← List.append_assoc] at hrun hbound
      obtain ⟨s₁, hrun₁, ⟨hguard, -⟩, rfl⟩ := hrun.split
      exact (ih hrun₁ (hB _ e hbound)).trans (hstep _ s₁ e hrun₁ (hB _ e hbound) hguard)

/-- If at most one event is ever enabled, all runs are parts of a complete one. -/
theorem prefix_of_stuck
    {s₀ : σ}
    (hinit : ∀ s, M.init s → s = s₀)
    (hone : ∀ s e f, M.guard s e → M.guard s f → e = f)
    {tr tr' : List ε} {s s' : σ}
    (hrun : M.Run tr s)
    (hstuck : ∀ e, ¬ M.guard s e)
    (hrun' : M.Run tr' s') :
    tr' <+: tr := by
  induction hrun' with
  | start _ =>
      exact List.nil_prefix
  | @step tr' s' e hrun' hguard ih =>
      obtain ⟨rest, rfl⟩ := ih
      obtain ⟨s₁, hrun₁, hrest, hs⟩ := hrun.split
      obtain rfl : s' = s₁ := (hrun'.eq_exec hinit).trans (hrun₁.eq_exec hinit).symm
      cases rest with
      | nil =>
          subst hs
          exact absurd hguard (hstuck e)
      | cons f fs =>
          obtain rfl := hone s' e f hguard hrest.1
          exact ⟨fs, by simp⟩

end Run

/-- The state rule: an inductive state predicate holds of every reachable state. -/
theorem Reachable.invariant
    {M : System σ ε} {I : σ → Prop}
    (hinit : ∀ s, M.init s → I s)
    (hstep : ∀ s e, I s → M.guard s e → I (M.next s e))
    {s : σ}
    (hs : M.Reachable s) :
    I s := by
  obtain ⟨tr, hrun⟩ := hs
  exact hrun.invariant (I := fun _ s => I s) hinit
    fun _ s e _ hI hg => hstep s e hI hg

section Termination

/-- The state `s'` is reached from `s` by one step. -/
def Successor (M : System σ ε) (s' s : σ) : Prop :=
  ∃ e, M.guard s e ∧ s' = M.next s e

theorem Reachable.next
    {M : System σ ε} {s : σ} {e : ε}
    (hs : M.Reachable s)
    (hguard : M.guard s e) :
    M.Reachable (M.next s e) := by
  obtain ⟨tr, hrun⟩ := hs
  exact ⟨tr ++ [e], Run.step e hrun hguard⟩

/-- Every continuation of a run ends if each step decreases a measure. -/
theorem Reachable.acc
    {M : System σ ε} {α : Type w} {r : α → α → Prop}
    (hr : WellFounded r)
    (measure : σ → α)
    (hstep : ∀ s e, M.Reachable s → M.guard s e →
      r (measure (M.next s e)) (measure s))
    {s : σ}
    (hs : M.Reachable s) :
    Acc M.Successor s := by
  generalize ha : measure s = a
  induction hr.apply a generalizing s with
  | intro a _ ih =>
      subst ha
      refine Acc.intro s ?_
      rintro s' ⟨e, hguard, rfl⟩
      exact ih _ (hstep s e hs hguard) (hs.next hguard) rfl

end Termination

section History

/-- Every event of the trace is as `Q` says, given the events before it. -/
def History (Q : List ε → ε → Prop) (tr : List ε) : Prop :=
  ∀ es e fs, tr = es ++ e :: fs → Q es e

variable {Q : List ε → ε → Prop}

theorem history_nil :
    History Q [] := by
  rintro es e fs h
  simp at h

theorem history_append_singleton (tr : List ε) (e : ε) :
    History Q (tr ++ [e]) ↔ History Q tr ∧ Q tr e := by
  constructor
  · intro h
    constructor
    · rintro es f fs rfl
      exact h es f (fs ++ [e]) (by simp)
    · exact h tr e [] rfl
  · rintro ⟨htr, he⟩ es f fs h
    rcases List.eq_nil_or_concat fs with rfl | ⟨gs, g, rfl⟩
    · obtain ⟨rfl, hlast⟩ := List.append_inj' h rfl
      obtain rfl : e = f := by simpa using hlast
      exact he
    · rw [List.concat_eq_append, ← List.cons_append, ← List.append_assoc] at h
      exact htr es f gs (List.append_inj' h rfl).1

theorem history_cons (e : ε) (tr : List ε) :
    History Q (e :: tr) ↔ Q [] e ∧ History (fun es => Q (e :: es)) tr := by
  constructor
  · intro h
    constructor
    · exact h [] e tr rfl
    · rintro es f fs rfl
      exact h (e :: es) f fs rfl
  · rintro ⟨he, htr⟩ es f fs h
    cases es with
    | nil =>
        obtain ⟨rfl, -⟩ := List.cons_eq_cons.mp h
        exact he
    | cons g es =>
        obtain ⟨rfl, htail⟩ := List.cons_eq_cons.mp h
        exact htr es f fs htail

theorem history_append (es fs : List ε) :
    History Q (es ++ fs) ↔ History Q es ∧ History (fun gs => Q (es ++ gs)) fs := by
  induction es generalizing Q with
  | nil =>
      exact (and_iff_right history_nil).symm
  | cons e es ih =>
      rw [List.cons_append, history_cons, history_cons, ih, and_assoc]
      rfl

instance decidableHistory :
    ∀ (Q : List ε → ε → Prop) [∀ es e, Decidable (Q es e)] (tr : List ε),
      Decidable (History Q tr)
  | _, _, [] => isTrue history_nil
  | Q, hdec, e :: tr =>
      match hdec [] e,
        @decidableHistory (fun es => Q (e :: es)) (fun es f => hdec (e :: es) f) tr with
      | isTrue he, isTrue htr => isTrue ((history_cons e tr).mpr ⟨he, htr⟩)
      | isFalse he, _ => isFalse fun h => he ((history_cons e tr).mp h).1
      | _, isFalse htr => isFalse fun h => htr ((history_cons e tr).mp h).2

/-- The rule for histories: every step is as `Q` says, given the run before it. -/
theorem Run.history
    {M : System σ ε}
    (hstep : ∀ tr s e, M.Run tr s → M.guard s e → Q tr e)
    {tr : List ε} {s : σ}
    (hrun : M.Run tr s) :
    History Q tr := by
  induction hrun with
  | start _ =>
      exact history_nil
  | @step tr s e hrun hguard ih =>
      exact (history_append_singleton tr e).mpr ⟨ih, hstep tr s e hrun hguard⟩

/-- A condition on states and steps, as one on the events before a step. -/
theorem along_iff_history
    (M : System σ ε) (ok : σ → ε → Prop) (s : σ) (tr : List ε) :
    M.Along ok s tr ↔ History (fun es e => ok (M.exec s es) e) tr := by
  induction tr generalizing s with
  | nil =>
      exact iff_of_true trivial history_nil
  | cons e es ih =>
      rw [Along, history_cons, ih]
      rfl

/--
The rule for two conditions on histories: the first one keeps an invariant, under
which a step meets the first exactly if it meets the second.
-/
theorem Run.history_congr
    {M : System σ ε} {Q R : List ε → ε → Prop} {I : List ε → σ → Prop}
    (hinit : ∀ s, M.init s → I [] s)
    (hiff : ∀ tr s e, M.Run tr s → M.guard s e → I tr s → (Q tr e ↔ R tr e))
    (hnext : ∀ tr s e, M.Run tr s → M.guard s e → I tr s → Q tr e →
      I (tr ++ [e]) (M.next s e))
    {tr : List ε} {s : σ}
    (hrun : M.Run tr s) :
    History Q tr ↔ History R tr := by
  have hboth : (History Q tr ↔ History R tr) ∧ (History Q tr → I tr s) := by
    induction hrun with
    | start hs =>
        exact ⟨iff_of_true history_nil history_nil, fun _ => hinit _ hs⟩
    | @step tr s e hrun hguard ih =>
        obtain ⟨hpast, hI⟩ := ih
        rw [history_append_singleton, history_append_singleton, ← hpast]
        constructor
        · exact and_congr_right fun hQ => hiff tr s e hrun hguard (hI hQ)
        · rintro ⟨hQ, he⟩
          exact hnext tr s e hrun hguard (hI hQ) he
  exact hboth.1

/-- The same rule for a condition on states and steps. -/
theorem Run.history_iff_along
    {M : System σ ε} {s₀ : σ} {ok : σ → ε → Prop}
    {Q : List ε → ε → Prop} {I : List ε → σ → Prop}
    (hinit : ∀ s, M.init s → s = s₀)
    (hstart : I [] s₀)
    (hiff : ∀ tr s e, M.Run tr s → M.guard s e → I tr s → (Q tr e ↔ ok s e))
    (hnext : ∀ tr s e, M.Run tr s → M.guard s e → I tr s → Q tr e →
      I (tr ++ [e]) (M.next s e))
    {tr : List ε} {s : σ}
    (hrun : M.Run tr s) :
    History Q tr ↔ M.Along ok s₀ tr := by
  rw [along_iff_history]
  refine hrun.history_congr ?_ ?_ hnext
  · intro s hs
    rwa [hinit s hs]
  · intro tr s e hrun hguard hI
    rw [← hrun.eq_exec hinit]
    exact hiff tr s e hrun hguard hI

end History

section Onset

/--
A condition that stays true once it holds: if a projection keeps exactly the
steps that make it true, a run has at most one of them.
-/
theorem Run.onset
    {M : System σ ε} {α : Type w}
    {P : σ → Prop} [DecidablePred P]
    {g : ε → Option α} (mark : ε → α)
    (hinit : ∀ s, M.init s → ¬ P s)
    (hstable : ∀ tr s e, M.Run tr s → M.guard s e → P s → P (M.next s e))
    (hmark : ∀ tr s e, M.Run tr s → M.guard s e →
      g e = if ¬ P s ∧ P (M.next s e) then some (mark e) else none)
    {tr : List ε} {s : σ}
    (hrun : M.Run tr s) :
    (tr.filterMap g).length ≤ 1 ∧ (tr.filterMap g = [] ↔ ¬ P s) := by
  induction hrun with
  | start hs =>
      exact ⟨Nat.zero_le 1, iff_of_true rfl (hinit _ hs)⟩
  | @step tr s e hrun hguard ih =>
      obtain ⟨hlen, hnil⟩ := ih
      rw [filterMap_append_singleton, hmark tr s e hrun hguard]
      by_cases hs : P s
      · have hs' := hstable tr s e hrun hguard hs
        rw [if_neg fun h => h.1 hs, Option.toList_none, List.append_nil, hnil]
        exact ⟨hlen, not_congr (iff_of_true hs hs')⟩
      · have htr := hnil.mpr hs
        by_cases hs' : P (M.next s e)
        · simp [hs, hs', htr]
        · simp [hs', htr]

end Onset

section Restrict

/-- The runs of `M` whose steps all meet the condition `ok`. -/
def restrict
    (M : System σ ε) (ok : σ → ε → Prop) :
    System σ ε where
  init := M.init
  guard := fun s e => M.guard s e ∧ ok s e
  next := M.next

variable {M : System σ ε} {ok : σ → ε → Prop}

instance decidableRestrictGuard
    [∀ s e, Decidable (M.guard s e)]
    [∀ s e, Decidable (ok s e)]
    (s : σ) (e : ε) :
    Decidable ((M.restrict ok).guard s e) :=
  inferInstanceAs (Decidable (M.guard s e ∧ ok s e))

/-- A restricted run is a run. -/
theorem Run.of_restrict
    {tr : List ε} {s : σ}
    (hrun : (M.restrict ok).Run tr s) :
    M.Run tr s := by
  induction hrun with
  | start hs =>
      exact Run.start hs
  | step e _ hg ih =>
      exact Run.step e ih hg.1

end Restrict

section Simulation

variable {τ : Type w} {φ : Type x}

/--
A forward simulation of `M` by `N`: an event of `M` is matched by the event of
`N` that `label` assigns to it, or by no event at all.
-/
structure Simulation
    (M : System σ ε) (N : System τ φ)
    (R : σ → τ → Prop) (label : ε → Option φ) : Prop where
  init : ∀ s, M.init s → ∃ t, N.init t ∧ R s t
  silent : ∀ s t e, M.Reachable s → N.Reachable t → R s t → M.guard s e →
    label e = none → R (M.next s e) t
  step : ∀ s t e f, M.Reachable s → N.Reachable t → R s t → M.guard s e →
    label e = some f → N.guard t f ∧ R (M.next s e) (N.next t f)

/-- Every run of `M` is matched by a run of `N` with the relabelled trace. -/
theorem Simulation.run
    {M : System σ ε} {N : System τ φ}
    {R : σ → τ → Prop} {label : ε → Option φ}
    (h : Simulation M N R label)
    {tr : List ε} {s : σ}
    (hrun : M.Run tr s) :
    ∃ t, R s t ∧ N.Run (tr.filterMap label) t := by
  induction hrun with
  | start hs =>
      obtain ⟨t, ht, hR⟩ := h.init _ hs
      exact ⟨t, hR, Run.start ht⟩
  | @step tr s e hrun hguard ih =>
      obtain ⟨t, hR, hrunN⟩ := ih
      rw [filterMap_append_singleton]
      cases hl : label e with
      | none =>
          rw [Option.toList_none, List.append_nil]
          exact ⟨t, h.silent s t e ⟨tr, hrun⟩ ⟨_, hrunN⟩ hR hguard hl, hrunN⟩
      | some f =>
          obtain ⟨hguardN, hnext⟩ :=
            h.step s t e f ⟨tr, hrun⟩ ⟨_, hrunN⟩ hR hguard hl
          exact ⟨N.next t f, hnext, Run.step f hrunN hguardN⟩

/-- A part of the state, whose events are those that have a label, runs on its own. -/
theorem Run.project
    {M : System σ ε} {N : System τ φ}
    {f : σ → τ} {label : ε → Option φ}
    (hinit : ∀ s, M.init s → N.init (f s))
    (hsilent : ∀ s e, M.guard s e → label e = none → f (M.next s e) = f s)
    (hstep : ∀ s e e', M.guard s e → label e = some e' →
      N.guard (f s) e' ∧ f (M.next s e) = N.next (f s) e')
    {tr : List ε} {s : σ}
    (hrun : M.Run tr s) :
    N.Run (tr.filterMap label) (f s) := by
  have hsimulation : Simulation M N (fun s t => f s = t) label := by
    constructor
    · exact fun s hs => ⟨f s, hinit s hs, rfl⟩
    · intro s t e _ _ ht hguard hlabel
      exact (hsilent s e hguard hlabel).trans ht
    · intro s t e e' _ _ ht hguard hlabel
      subst ht
      exact hstep s e e' hguard hlabel
  obtain ⟨t, ht, hrunN⟩ := hsimulation.run hrun
  subst ht
  exact hrunN

/--
The refinement rule: if every event of `M` is matched by the block `expand` of events
of `N`, every run of `M` is matched by a run of `N`.  The steps may use an invariant
of `M`, and `B` is a condition on the traces of `N` that prefixes inherit.
-/
theorem Run.refine
    {M : System σ ε} {N : System τ φ}
    {f : σ → τ} {expand : ε → List φ} {I : σ → Prop} {B : List φ → Prop}
    (hB : ∀ tr e, B (tr ++ [e]) → B tr)
    (hinit : ∀ s, M.init s → N.init (f s) ∧ I s)
    (hstep : ∀ tr s e, N.Run tr (f s) → B (tr ++ expand e) → I s → M.guard s e →
      N.Enabled (f s) (expand e) ∧ f (M.next s e) = N.exec (f s) (expand e) ∧
        I (M.next s e))
    {tr : List ε} {s : σ}
    (hrun : M.Run tr s)
    (hbound : B (tr.flatMap expand)) :
    N.Run (tr.flatMap expand) (f s) ∧ I s := by
  induction hrun with
  | start hs =>
      obtain ⟨hN, hI⟩ := hinit _ hs
      exact ⟨Run.start hN, hI⟩
  | @step tr s e hrun hguard ih =>
      have hblock : (tr ++ [e]).flatMap expand = tr.flatMap expand ++ expand e := by
        rw [List.flatMap_append, List.flatMap_singleton]
      rw [hblock] at hbound ⊢
      obtain ⟨hrunN, hI⟩ := ih (inherited_of_append hB hbound)
      obtain ⟨henabled, hnext, hI'⟩ := hstep _ s e hrunN hbound hI hguard
      rw [hnext]
      exact ⟨hrunN.extend henabled, hI'⟩

/-- If no event is silent, the end of all runs carries over. -/
theorem Simulation.acc
    {M : System σ ε} {N : System τ φ}
    {R : σ → τ → Prop} {label : ε → Option φ}
    (h : Simulation M N R label)
    (hlabel : ∀ e, label e ≠ none)
    {s : σ} {t : τ}
    (hs : M.Reachable s)
    (ht : N.Reachable t)
    (hR : R s t)
    (hacc : Acc N.Successor t) :
    Acc M.Successor s := by
  induction hacc generalizing s with
  | intro t _ ih =>
      refine Acc.intro s ?_
      rintro s' ⟨e, hguard, rfl⟩
      obtain ⟨f, hf⟩ := Option.ne_none_iff_exists'.mp (hlabel e)
      obtain ⟨hguardN, hnext⟩ := h.step s t e f hs ht hR hguard hf
      exact ih _ ⟨f, hguardN, rfl⟩ (hs.next hguard) (ht.next hguardN) hnext

end Simulation

end System

end Transition
end Ptl

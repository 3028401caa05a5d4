import Ptl.Duty
import Ptl.WeakCountInvariant
import Mathlib.Data.Fintype.Basic

/-!
# Destruction and deallocation under weak references

The two branches at the end of `intrusive_weak_ptr_release` and the one at the
end of `intrusive_weak_ptr_release_weak` each hand a thread a duty: to call
`~T()`, to let it return, or to deallocate the storage.  The exactness of the
counts shows that each duty is taken up at most once, and `Duty.run` gives the
rest.

**Results.**
* `destroyed_once_iff`: a run destroys the object exactly once at its last
  `release` if and only if a weak handle is alive at that release.  Without one
  the code deletes a pointer to the union of the counts, and `~T()` never runs.
* `storage_safe`: the storage is deallocated exactly once and after the
  destructor, provided that the last `release_weak` does not take effect while
  the destructor is pending or running.  One more step of the thread that breaks
  the condition frees the storage too early.
-/

namespace Ptl
namespace IntrusivePtr

open Transition

universe u

variable {ι : Type u}

/-- No strong and no weak handle is alive. -/
def NoHandles (m : Object ι) : Prop :=
  m.strong = 0 ∧ m.weak = 0

instance decidableNoHandles [DecidableEq ι] (m : Object ι) :
    Decidable (NoHandles m) :=
  inferInstanceAs (Decidable (m.strong = 0 ∧ m.weak = 0))

/-- The thread is about to run `~T()` or runs it. -/
def ControlPoint.Destructing (p : ControlPoint) : Prop :=
  p = .callDestructor ∨ p = .inDestructor

instance decidableDestructing (p : ControlPoint) :
    Decidable p.Destructing :=
  inferInstanceAs (Decidable (p = .callDestructor ∨ p = .inDestructor))

/-- The thread is about to deallocate the storage. -/
def ControlPoint.Deallocating (p : ControlPoint) : Prop :=
  p = .deletePtr ∨ p = .operatorDelete

section Branches

theorem afterRelease_eq_callDestructor_iff (desired : BitVec 64) :
    ControlPoint.afterRelease desired = .callDestructor ↔
      strongCount desired = 0 ∧ weakCount desired ≠ 0 := by
  unfold ControlPoint.afterRelease
  split
  · split <;> simp_all
  · simp_all

theorem deallocating_afterRelease_iff (desired : BitVec 64) :
    (ControlPoint.afterRelease desired).Deallocating ↔
      strongCount desired = 0 ∧ weakCount desired = 0 := by
  unfold ControlPoint.afterRelease ControlPoint.Deallocating
  split
  · split <;> simp_all
  · simp_all

theorem afterRelease_ne_inDestructor (desired : BitVec 64) :
    ControlPoint.afterRelease desired ≠ .inDestructor := by
  unfold ControlPoint.afterRelease
  split
  · split <;> simp
  · simp

theorem deallocating_afterReleaseWeak_iff (desired : BitVec 64) :
    (ControlPoint.afterReleaseWeak desired).Deallocating ↔ desired = 0 := by
  unfold ControlPoint.afterReleaseWeak ControlPoint.Deallocating
  split <;> simp_all

theorem not_destructing_afterReleaseWeak (desired : BitVec 64) :
    ¬ (ControlPoint.afterReleaseWeak desired).Destructing := by
  unfold ControlPoint.afterReleaseWeak ControlPoint.Destructing
  split <;> simp

theorem lockLoop_cases (value : BitVec 64) :
    ControlPoint.lockLoop value = .lockReturn false ∨
      ControlPoint.lockLoop value = .lockCas value := by
  unfold ControlPoint.lockLoop
  split
  · left
    rfl
  · right
    rfl

end Branches

variable [DecidableEq ι]

section Duties

/-- The deallocation is a duty of the thread that branches to it. -/
theorem deallocatingDuty :
    Duty (boundedProgram : Program ι ControlPoint (Object ι) (Event ι))
      ControlPoint.Deallocating Event.deleter? Event.freer? where
  take_actor := by
    intro e i h
    cases e <;> simp_all [Event.deleter?, Event.actor]
  finish_actor := by
    intro e i h
    cases e <;> simp_all [Event.freer?, Event.actor]
  target := by
    intro e
    rw [boundedProgram_target]
    cases e with
    | releaseCas i value =>
        simpa [Event.target, Event.deleter?] using deallocating_afterRelease_iff _
    | releaseWeakCas i value =>
        simpa [Event.target, Event.deleter?] using deallocating_afterReleaseWeak_iff _
    | lockLoad i value =>
        rcases lockLoop_cases value with h | h <;>
          simp [Event.target, h, ControlPoint.Deallocating, Event.deleter?]
    | lockCasFail i value loaded =>
        rcases lockLoop_cases loaded with h | h <;>
          simp [Event.target, h, ControlPoint.Deallocating, Event.deleter?]
    | _ =>
        simp [Event.target, ControlPoint.Deallocating, Event.deleter?]
  source := by
    intro e
    rw [boundedProgram_source]
    cases e <;>
      simp [Event.source, ControlPoint.Deallocating, Event.freer?]

/-- The call of `~T()` is a duty of the thread that branches to it. -/
theorem callingDuty :
    Duty (boundedProgram : Program ι ControlPoint (Object ι) (Event ι))
      (fun p => p = .callDestructor) Event.destroyer? Event.starter? where
  take_actor := by
    intro e i h
    cases e <;> simp_all [Event.destroyer?, Event.actor]
  finish_actor := by
    intro e i h
    cases e <;> simp_all [Event.starter?, Event.actor]
  target := by
    intro e
    rw [boundedProgram_target]
    cases e with
    | releaseCas i value =>
        simpa [Event.target, Event.destroyer?]
          using afterRelease_eq_callDestructor_iff _
    | releaseWeakCas i value =>
        have h := not_destructing_afterReleaseWeak (releaseWeakDesired value)
        simp only [ControlPoint.Destructing, not_or] at h
        simp [Event.target, Event.destroyer?, h.1]
    | lockLoad i value =>
        rcases lockLoop_cases value with h | h <;>
          simp [Event.target, h, Event.destroyer?]
    | lockCasFail i value loaded =>
        rcases lockLoop_cases loaded with h | h <;>
          simp [Event.target, h, Event.destroyer?]
    | _ =>
        simp [Event.target, Event.destroyer?]
  source := by
    intro e
    rw [boundedProgram_source]
    cases e <;> simp [Event.source, Event.starter?]

/-- A thread that has called `~T()` has the duty to return from it. -/
theorem returningDuty :
    Duty (boundedProgram : Program ι ControlPoint (Object ι) (Event ι))
      (fun p => p = .inDestructor) Event.starter? Event.finisher? where
  take_actor := by
    intro e i h
    cases e <;> simp_all [Event.starter?, Event.actor]
  finish_actor := by
    intro e i h
    cases e <;> simp_all [Event.finisher?, Event.actor]
  target := by
    intro e
    rw [boundedProgram_target]
    cases e with
    | releaseCas i value =>
        simp [Event.target, Event.starter?, afterRelease_ne_inDestructor]
    | releaseWeakCas i value =>
        have h := not_destructing_afterReleaseWeak (releaseWeakDesired value)
        simp only [ControlPoint.Destructing, not_or] at h
        simp [Event.target, Event.starter?, h.2]
    | lockLoad i value =>
        rcases lockLoop_cases value with h | h <;>
          simp [Event.target, h, Event.starter?]
    | lockCasFail i value loaded =>
        rcases lockLoop_cases loaded with h | h <;>
          simp [Event.target, h, Event.starter?]
    | _ =>
        simp [Event.target, Event.starter?]
  source := by
    intro e
    rw [boundedProgram_source]
    cases e <;> simp [Event.source, Event.finisher?]

end Duties

section Steps

variable {m : Object ι} {e : Event ι}

theorem card_effect_releaseCas
    {i : ι} (value : BitVec 64)
    (hi : i ∈ m.strong) :
    Multiset.card (Event.effect m (.releaseCas i value)).strong + 1 =
      Multiset.card m.strong :=
  card_erase hi

/-- The release that branches to the destructor, by the handles. -/
theorem destroyer_eq
    (howns : Owns m e.actor e.source)
    (hm' : Counted (e.effect m)) :
    e.destroyer? =
      if Multiset.card m.strong ≠ 0 ∧
        Multiset.card (e.effect m).strong = 0 ∧
        m.weak ≠ 0 then some e.actor else none := by
  have hpacked := hm'.packed
  simp only [Event.effect] at hpacked ⊢
  cases e with
  | releaseCas i value =>
      have hcard := card_erase (show i ∈ m.strong from howns)
      have hzero := hpacked.strongCount_eq_zero_iff
      have hweak := hpacked.weakCount_eq_zero_iff
      simp only [Event.store, Event.strongAfter, Event.weakAfter] at hzero hweak
      simp only [Event.destroyer?, Event.strongAfter, Event.actor, hzero, Ne,
        hweak]
      by_cases hlast : Multiset.card (m.strong.erase i) = 0
      · simp [hlast, ← hcard]
      · simp only [hlast, false_and, and_false]
  | _ =>
      simp +contextual [Event.destroyer?, Event.strongAfter]

/-- The step that branches to the deallocation, by the handles. -/
theorem deleter_eq
    (howns : Owns m e.actor e.source)
    (hcheck : e.check m)
    (hm' : Counted (e.effect m)) :
    e.deleter? =
      if ¬ NoHandles m ∧ NoHandles (e.effect m) then some e.actor
      else none := by
  have hpacked := hm'.packed
  simp only [Event.effect, NoHandles] at hpacked ⊢
  cases e with
  | releaseCas i value =>
      have hne : m.strong ≠ 0 := by
        rintro h
        have hi : i ∈ m.strong := howns
        simp [h] at hi
      have hzero := hpacked.strongCount_eq_zero_iff
      have hweak := hpacked.weakCount_eq_zero_iff
      simp only [Event.store, Event.strongAfter, Event.weakAfter] at hzero hweak
      simp only [Event.deleter?, Event.strongAfter, Event.weakAfter,
        Event.actor, hzero, hweak]
      by_cases hlast : Multiset.card (m.strong.erase i) = 0
      · simp [hne, Multiset.card_eq_zero.mp hlast]
      · simp [hlast, mt Multiset.card_eq_zero.mpr hlast]
  | releaseWeakCas i value =>
      have hne : m.weak ≠ 0 := by
        rintro h
        have hi : i ∈ m.weak := howns
        simp [h] at hi
      have hzero := hpacked.eq_zero_iff
      simp only [Event.store, Event.strongAfter, Event.weakAfter] at hzero
      simp only [Event.deleter?, Event.strongAfter, Event.weakAfter,
        Event.actor, hzero]
      by_cases hs : m.strong = 0
      · simp [hs, hne]
      · simp [hs, Multiset.card_eq_zero]
  | addRef i =>
      simp [Event.deleter?, Event.strongAfter]
  | addWeakRef i =>
      simp [Event.deleter?, Event.weakAfter]
  | giveStrong i j =>
      simp [Event.deleter?, Event.strongAfter]
  | giveWeak i j =>
      simp [Event.deleter?, Event.weakAfter]
  | lockCas i value =>
      simp [Event.deleter?, Event.strongAfter]
  | _ =>
      simp [Event.deleter?, Event.strongAfter, Event.weakAfter]

/-- Without handles no operation can create one. -/
theorem noHandles_effect
    (howns : Owns m e.actor e.source)
    (hcheck : e.check m)
    (hm : Counted m)
    (h : NoHandles m) :
    NoHandles (e.effect m) := by
  refine ⟨strong_eq_zero_effect hm howns hcheck h.1, ?_⟩
  have hstrong : ∀ i, i ∉ m.strong := by
    simp [h.1]
  have hweak : ∀ i, i ∉ m.weak := by
    simp [h.2]
  simp only [Event.effect]
  cases e with
  | addWeakRef i =>
      exact absurd hcheck (not_or.mpr ⟨hstrong i, hweak i⟩)
  | giveWeak i j =>
      exact absurd hcheck (hweak i)
  | releaseWeakCas i value =>
      exact absurd howns (hweak i)
  | _ =>
      exact h.2

end Steps

theorem length_filterMap_le_of_none
    {α β γ : Type*} {f : α → Option β} {g : α → Option γ}
    (h : ∀ a, f a = none → g a = none)
    (l : List α) :
    (l.filterMap g).length ≤ (l.filterMap f).length := by
  induction l with
  | nil =>
      rfl
  | cons a l ih =>
      cases hf : f a with
      | none =>
          rw [List.filterMap_cons_none hf, List.filterMap_cons_none (h a hf)]
          exact ih
      | some b =>
          rw [List.filterMap_cons_some hf, List.length_cons]
          cases hg : g a with
          | none =>
              rw [List.filterMap_cons_none hg]
              exact Nat.le_succ_of_le ih
          | some c =>
              rw [List.filterMap_cons_some hg, List.length_cons]
              exact Nat.succ_le_succ ih

section Runs

variable {creator : ι} {tr : List (Event ι)}
variable {s : Config ι ControlPoint (Object ι)}

/-- At most one release drops the strong count to zero. -/
theorem droppers_of_run
    (hrun : (weakReferences creator).Run tr s) :
    (droppers tr).length ≤ 1 ∧
      (droppers tr = [] ↔ Multiset.card s.shared.strong ≠ 0) := by
  refine hrun.onset (P := fun s => Multiset.card s.shared.strong = 0)
    Event.actor ?_ ?_ ?_
  · intro s hs
    obtain rfl := hs
    simp [start, newObject]
  · intro tr s e hrun hguard hs
    obtain ⟨hm, howns, hcheck, -⟩ := facts_of_guard hrun hguard
    rw [Multiset.card_eq_zero] at hs ⊢
    exact strong_eq_zero_effect hm howns hcheck hs
  · intro tr s e hrun hguard
    obtain ⟨hm, howns, hcheck, hfew⟩ := facts_of_guard hrun hguard
    exact dropper_eq howns (hm.step howns hcheck hfew)

/-- At most one step branches to a deallocation. -/
theorem deleters_of_run
    (hrun : (weakReferences creator).Run tr s) :
    (deleters tr).length ≤ 1 ∧
      (deleters tr = [] ↔ ¬ NoHandles s.shared) := by
  refine hrun.onset (P := fun s => NoHandles s.shared) Event.actor ?_ ?_ ?_
  · intro s hs
    obtain rfl := hs
    simp [start, newObject, NoHandles]
  · intro tr s e hrun hguard hs
    obtain ⟨hm, howns, hcheck, -⟩ := facts_of_guard hrun hguard
    exact noHandles_effect howns hcheck hm hs
  · intro tr s e hrun hguard
    obtain ⟨hm, howns, hcheck, hfew⟩ := facts_of_guard hrun hguard
    exact deleter_eq howns hcheck (hm.step howns hcheck hfew)

omit [DecidableEq ι] in
/-- Only a release that drops the strong count branches to the destructor. -/
theorem destroyers_length_le (tr : List (Event ι)) :
    (destroyers tr).length ≤ (droppers tr).length := by
  apply length_filterMap_le_of_none
  rintro e h
  cases e with
  | releaseCas i value =>
      simp only [Event.dropper?, Event.destroyer?] at h ⊢
      split at h
      next =>
        exact absurd h (Option.some_ne_none i)
      next hs =>
        exact if_neg fun hc => hs hc.1
  | _ =>
      rfl

/-- Who has to call `~T()`. -/
theorem calling_of_run
    (hrun : (weakReferences creator).Run tr s) :
    Exclusive (destroyers tr) (destructorCalls tr) ∧
      ∀ i, s.pc i = .callDestructor ↔
        Holds (destroyers tr) (destructorCalls tr) i := by
  refine callingDuty.run ?_ hrun
    ((destroyers_length_le tr).trans (droppers_of_run hrun).1)
  rintro _ rfl i
  simp [start]

/-- Who is inside `~T()`. -/
theorem returning_of_run
    (hrun : (weakReferences creator).Run tr s) :
    Exclusive (destructorCalls tr) (destructorReturns tr) ∧
      ∀ i, s.pc i = .inDestructor ↔
        Holds (destructorCalls tr) (destructorReturns tr) i := by
  refine returningDuty.run ?_ hrun (calling_of_run hrun).1.done_length_le
  rintro _ rfl i
  simp [start]

/-- Who has to deallocate the storage. -/
theorem deallocating_of_run
    (hrun : (weakReferences creator).Run tr s) :
    Exclusive (deleters tr) (deallocations tr) ∧
      ∀ i, (s.pc i).Deallocating ↔
        Holds (deleters tr) (deallocations tr) i := by
  refine deallocatingDuty.run ?_ hrun (deleters_of_run hrun).1
  rintro _ rfl i
  simp [start, ControlPoint.Deallocating]

end Runs

section Destruction

variable {creator : ι} {tr : List (Event ι)}
variable {s : Config ι ControlPoint (Object ι)}

/--
The destructor of the object runs once, at the release that drops the strong
count to zero: before such a release it has not been called, and the thread
whose release it was either has called it, once, or is about to.
-/
def DestroyedOnce
    (tr : List (Event ι)) (s : Config ι ControlPoint (Object ι)) : Prop :=
  droppers tr = [] ∧ destructorCalls tr = [] ∨
    ∃ i, droppers tr = [i] ∧
      (destructorCalls tr = [i] ∨
        destructorCalls tr = [] ∧ s.pc i = .callDestructor)

/-- The last strong handle is released while a weak handle is alive. -/
def WeakAtLastRelease
    (s : Config ι ControlPoint (Object ι)) : Event ι → Prop
  | .releaseCas _ _ =>
      Multiset.card s.shared.strong = 1 → s.shared.weak ≠ 0
  | _ => True

/-- The destructor is called for the release that drops the count. -/
theorem destroyedOnce_iff_destroyers
    (hrun : (weakReferences creator).Run tr s) :
    DestroyedOnce tr s ↔ destroyers tr = droppers tr := by
  obtain ⟨hexcl, hholds⟩ := calling_of_run hrun
  constructor
  · rintro (⟨hdrop, -⟩ | ⟨i, hdrop, hcall | ⟨-, hpc⟩⟩)
    · have hle := destroyers_length_le tr
      rw [hdrop, List.length_nil, Nat.le_zero] at hle
      rw [hdrop, List.eq_nil_of_length_eq_zero hle]
    · rcases hexcl.done_eq with hd | hd
      · simp [hd] at hcall
      · rw [← hd, hcall, hdrop]
    · rw [((hholds i).mp hpc).1, hdrop]
  · rintro heq
    rw [DestroyedOnce, ← heq]
    rcases hexcl.cases with ⟨htake, hdone⟩ | ⟨i, hi⟩ | ⟨i, htake, hdone⟩
    · exact Or.inl ⟨htake, hdone⟩
    · exact Or.inr ⟨i, hi.1, Or.inr ⟨hi.2, (hholds i).mpr hi⟩⟩
    · exact Or.inr ⟨i, htake, Or.inl hdone⟩

/-- A step that drops no count meets the condition. -/
theorem weakAtLastRelease_of_dropper_none
    {e : Event ι}
    (hrun : (weakReferences creator).Run tr s)
    (hguard : (weakReferences creator).guard s e)
    (hnone : e.dropper? = none) :
    WeakAtLastRelease s e := by
  obtain ⟨hm, howns, hcheck, hfew⟩ := facts_of_guard hrun hguard
  rw [dropper_eq howns (hm.step howns hcheck hfew)] at hnone
  cases e with
  | releaseCas i value =>
      rintro hone
      have hcard := card_effect_releaseCas (i := i) value howns
      rw [hone] at hcard
      rw [if_pos ⟨by simp [hone], Nat.succ_inj.mp hcard⟩] at hnone
      exact absurd hnone (Option.some_ne_none _)
  | _ =>
      trivial

/-- A step that drops the count meets the condition if it also destroys. -/
theorem weakAtLastRelease_iff_of_dropper
    {e : Event ι} {i : ι}
    (hrun : (weakReferences creator).Run tr s)
    (hguard : (weakReferences creator).guard s e)
    (hdrop : e.dropper? = some i) :
    WeakAtLastRelease s e ↔ e.destroyer? = some i := by
  obtain ⟨hm, howns, hcheck, hfew⟩ := facts_of_guard hrun hguard
  have hm' := hm.step howns hcheck hfew
  have hdropper := dropper_eq howns hm'
  rw [destroyer_eq howns hm']
  rw [hdrop] at hdropper
  cases e with
  | releaseCas j value =>
      have hcard := card_effect_releaseCas (i := j) value howns
      split at hdropper
      next hz =>
        obtain ⟨hne, hzero⟩ := hz
        rw [hzero, Nat.zero_add] at hcard
        simp [WeakAtLastRelease, hzero, ← hcard, ← hdropper]
      next =>
        exact absurd hdropper (Option.some_ne_none i)
  | _ =>
      simp [Event.dropper?] at hdrop

/-- Every last release of the run meets the condition if it also destroys. -/
theorem along_weakAtLastRelease_iff
    (hrun : (weakReferences creator).Run tr s) :
    (weakReferences creator).Along WeakAtLastRelease (start creator) tr ↔
      destroyers tr = droppers tr := by
  refine (hrun.along_iff (A := fun tr => destroyers tr = droppers tr)
    (fun _ h => h) rfl ?_).symm
  · intro tr s e hrun hguard
    simp only [destroyers, droppers, filterMap_append_singleton]
    rw [← destroyers, ← droppers]
    cases hdrop : e.dropper? with
    | none =>
        have hdestroy : e.destroyer? = none := by
          have hle := destroyers_length_le [e]
          simp [destroyers, droppers, hdrop] at hle
          exact hle
        simp [hdestroy, weakAtLastRelease_of_dropper_none hrun hguard hdrop]
    | some i =>
        have hnil : droppers tr = [] := by
          have hlen := (droppers_of_run (hrun.step e hguard)).1
          rw [droppers, filterMap_append_singleton, hdrop] at hlen
          simpa [droppers] using hlen
        have hnil' : destroyers tr = [] := by
          have hle := destroyers_length_le tr
          rw [hnil, List.length_nil, Nat.le_zero] at hle
          exact List.eq_nil_of_length_eq_zero hle
        rw [weakAtLastRelease_iff_of_dropper hrun hguard hdrop, hnil, hnil']
        cases e.destroyer? <;> simp

/--
The object is destroyed exactly once at the release that drops the strong count
to zero exactly in the runs in which a weak handle is alive at that release.
-/
theorem destroyed_once_iff
    (hrun : (weakReferences creator).Run tr s) :
    DestroyedOnce tr s ↔
      (weakReferences creator).Along WeakAtLastRelease (start creator) tr := by
  rw [destroyedOnce_iff_destroyers hrun, along_weakAtLastRelease_iff hrun]

/-- The only strong handle is released and no weak handle was ever created. -/
def releaseOnly : List (Event Unit) :=
  [.callRelease (),
    .releaseLoad () (referenceCount 1 1),
    .releaseCas () (referenceCount 1 1),
    .deletePtr ()]

theorem not_destroyed_releaseOnly :
    (weakReferences ()).Run releaseOnly
      ((weakReferences ()).exec (start ()) releaseOnly) ∧
    ¬ DestroyedOnce releaseOnly
      ((weakReferences ()).exec (start ()) releaseOnly) := by
  refine ⟨.of_enabled rfl (by decide +kernel), ?_⟩
  have hdrop : droppers releaseOnly = [()] := by decide +kernel
  have hcall : destructorCalls releaseOnly = [] := by decide +kernel
  have hpc :
      ((weakReferences ()).exec (start ()) releaseOnly).pc () = .idle := by
    decide +kernel
  simp [DestroyedOnce, hdrop, hcall, hpc]

/-- A weak handle is alive when the only strong handle is released. -/
def releaseStrongFirst : List (Event Unit) :=
  [.addWeakRef (),
    .callRelease (),
    .releaseLoad () (referenceCount 1 2),
    .releaseCas () (referenceCount 1 2),
    .startDestructor ()]

theorem destroyed_once_releaseStrongFirst :
    DestroyedOnce releaseStrongFirst
      ((weakReferences ()).exec (start ()) releaseStrongFirst) := by
  have hrun :
      (weakReferences ()).Run releaseStrongFirst
        ((weakReferences ()).exec (start ()) releaseStrongFirst) :=
    .of_enabled rfl (by decide +kernel)
  rw [destroyed_once_iff hrun]
  simp only [releaseStrongFirst, System.Along, WeakAtLastRelease, true_and,
    and_true]
  exact fun _ => by decide +kernel

end Destruction

section Deallocation

variable {creator : ι} {tr : List (Event ι)}
variable {s : Config ι ControlPoint (Object ι)}

/--
The storage outlives the handles and the destructor: it is deallocated at most
once, only when no handle is alive and no destructor call is pending or running,
and without handles it is deallocated or some thread is about to do so.
-/
structure StorageSafe
    (tr : List (Event ι)) (s : Config ι ControlPoint (Object ι)) : Prop where
  once : (deallocations tr).length ≤ 1
  noHandles : deallocations tr ≠ [] → NoHandles s.shared
  destructed : deallocations tr ≠ [] → ∀ i, ¬ (s.pc i).Destructing
  deallocated : NoHandles s.shared →
    (deallocations tr).length = 1 ∨
      deallocations tr = [] ∧ ∃ i, (s.pc i).Deallocating

/--
The `release_weak` that gives up the last handle takes effect only when no
thread is about to call `~T()` or inside it.
-/
def DestructorFirst
    (s : Config ι ControlPoint (Object ι)) : Event ι → Prop
  | .releaseWeakCas _ _ =>
      s.shared.strong = 0 → Multiset.card s.shared.weak = 1 →
        ∀ i, ¬ (s.pc i).Destructing
  | _ => True

instance decidableDestructorFirst
    [Fintype ι]
    (s : Config ι ControlPoint (Object ι)) (e : Event ι) :
    Decidable (DestructorFirst s e) :=
  match e with
  | .releaseWeakCas _ _ =>
      inferInstanceAs (Decidable
        (s.shared.strong = 0 → Multiset.card s.shared.weak = 1 →
          ∀ i, ¬ (s.pc i).Destructing))
  | .addRef _ | .addWeakRef _ | .giveStrong _ _ | .giveWeak _ _
  | .callRelease _ | .releaseLoad _ _ | .releaseCas _ _ | .releaseCasFail _ _ _
  | .deletePtr _ | .startDestructor _ | .finishDestructor _
  | .callReleaseWeak _ | .releaseWeakLoad _ _ | .releaseWeakCasFail _ _ _
  | .operatorDelete _ | .callLock _ | .lockLoad _ _ | .lockCas _ _
  | .lockCasFail _ _ _ | .lockReturn _ _ => isTrue trivial

/-- Runs in which the last `release_weak` waits for the destructor. -/
def destructorFirst (creator : ι) :
    System (Config ι ControlPoint (Object ι)) (Event ι) :=
  (weakReferences creator).restrict DestructorFirst

/-- While a strong handle is alive, nobody destructs. -/
theorem not_destructing_of_strong
    (hrun : (weakReferences creator).Run tr s)
    (hs : s.shared.strong ≠ 0)
    (i : ι) :
    ¬ (s.pc i).Destructing := by
  have hdrop := (droppers_of_run hrun).2.mpr (mt Multiset.card_eq_zero.mp hs)
  have hle := destroyers_length_le tr
  rw [hdrop, List.length_nil, Nat.le_zero] at hle
  have hnil := List.eq_nil_of_length_eq_zero hle
  obtain ⟨hcall, hcalling⟩ := calling_of_run hrun
  have hcalls : destructorCalls tr = [] := by
    simpa [hnil] using hcall.done_eq
  rintro (hpc | hpc)
  · have hheld := ((hcalling i).mp hpc).1
    simp [hnil] at hheld
  · have hheld := (((returning_of_run hrun).2 i).mp hpc).1
    simp [hcalls] at hheld

/-- Destructing starts only at a release that drops the strong count. -/
theorem destructing_target
    {e : Event ι}
    (h : e.target.Destructing)
    (hsource : ¬ e.source.Destructing) :
    e.destroyer? = some e.actor := by
  rcases h with h | h
  · have hne := (callingDuty.target e).mp h
    obtain ⟨i, hi⟩ := Option.ne_none_iff_exists'.mp hne
    rw [hi, callingDuty.take_actor e i hi, boundedProgram_actor]
  · have hne := (returningDuty.target e).mp h
    have hcall := (callingDuty.source e).mpr hne
    exact absurd (Or.inl hcall) hsource

/-- In such runs nobody destructs once the last handle is gone. -/
theorem not_destructing_of_noHandles
    (hrun : (destructorFirst creator).Run tr s)
    (hnone : NoHandles s.shared)
    (i : ι) :
    ¬ (s.pc i).Destructing := by
  induction hrun generalizing i with
  | start hs =>
      obtain rfl := hs
      simp [start, newObject, NoHandles] at hnone
  | @step tr s e hrun hguard ih =>
      have hrun' : (weakReferences creator).Run tr s := hrun.of_restrict
      obtain ⟨hstep, hok⟩ := hguard
      obtain ⟨hm, howns, hcheck, hfew⟩ := facts_of_guard hrun' hstep
      have hm' := hm.step howns hcheck hfew
      -- nobody destructs before the step, or the step gives up the last handle
      have hbefore : ∀ j, ¬ (s.pc j).Destructing := by
        by_cases hs : s.shared.strong = 0
        · by_cases hw : s.shared.weak = 0
          · exact ih ⟨hs, hw⟩
          · have hdelete := deleter_eq howns hcheck hm'
            rw [if_pos ⟨fun h => hw h.2, hnone⟩] at hdelete
            cases e with
            | releaseCas j value =>
                have hj : j ∈ s.shared.strong := howns
                simp [hs] at hj
            | releaseWeakCas j value =>
                have hj : j ∈ s.shared.weak := howns
                have hlast : s.shared.weak.erase j = 0 := hnone.2
                have hcard := card_erase hj
                rw [hlast, Multiset.card_zero, Nat.zero_add] at hcard
                exact hok hs hcard.symm
            | _ =>
                simp [Event.deleter?] at hdelete
        · exact not_destructing_of_strong hrun' hs
      have hdestroy : e.destroyer? = none := by
        cases e with
        | releaseCas j value =>
            rw [destroyer_eq howns hm', if_neg]
            rintro ⟨-, -, hw⟩
            exact hw hnone.2
        | _ =>
            rfl
      by_cases hi : i = e.actor
      · rintro htarget
        have hpc : s.pc e.actor = e.source := hstep.1
        have hsource : ¬ e.source.Destructing := hpc ▸ hbefore e.actor
        have hnext : ((weakReferences creator).next s e).pc i = e.target := by
          rw [hi]
          exact next_pc_actor creator s e
        have hdestructs := destructing_target (hnext ▸ htarget) hsource
        rw [hdestroy] at hdestructs
        exact absurd hdestructs.symm (Option.some_ne_none _)
      · have hnext : ((weakReferences creator).next s e).pc i = s.pc i :=
          next_pc_of_ne creator s e hi
        exact hnext ▸ hbefore i

theorem storageSafe_of_run
    (hrun : (destructorFirst creator).Run tr s) :
    StorageSafe tr s := by
  have hrun' : (weakReferences creator).Run tr s := hrun.of_restrict
  obtain ⟨hexcl, hholds⟩ := deallocating_of_run hrun'
  have hdeleters := (deleters_of_run hrun').2
  have hnone : deallocations tr ≠ [] → NoHandles s.shared := by
    rintro hne
    by_contra hsome
    rcases hexcl.done_eq with hd | hd
    · exact hne hd
    · exact hne (hd.trans (hdeleters.mpr hsome))
  refine ⟨hexcl.done_length_le, hnone, ?_, ?_⟩
  · rintro hne i
    exact not_destructing_of_noHandles hrun (hnone hne) i
  · rintro hhandles
    rcases hexcl.cases with ⟨htake, -⟩ | ⟨i, hi⟩ | ⟨i, -, hdone⟩
    · exact absurd hhandles (hdeleters.mp htake)
    · exact Or.inr ⟨hi.2, i, (hholds i).mpr hi⟩
    · left
      rw [hdone]
      rfl

/-- Breaking the condition frees the storage one step later. -/
theorem not_storageSafe_of_not_destructorFirst
    {e : Event ι}
    (hrun : (weakReferences creator).Run tr s)
    (hguard : (weakReferences creator).guard s e)
    (hbad : ¬ DestructorFirst s e) :
    ∃ f, (weakReferences creator).guard
        ((weakReferences creator).next s e) f ∧
      ¬ StorageSafe (tr ++ [e, f])
        ((weakReferences creator).next
          ((weakReferences creator).next s e) f) := by
  obtain ⟨hm, howns, hcheck, hfew⟩ := facts_of_guard hrun hguard
  have hm' := hm.step howns hcheck hfew
  cases e with
  | releaseWeakCas i value =>
      simp only [DestructorFirst, not_forall, not_not] at hbad
      obtain ⟨hs, hw, j, hj⟩ := hbad
      have hcard := card_erase (show i ∈ s.shared.weak from howns)
      rw [hw] at hcard
      have hlast : NoHandles (Event.effect s.shared (.releaseWeakCas i value)) :=
        ⟨hs, Multiset.card_eq_zero.mp (Nat.succ_inj.mp hcard)⟩
      have hdelete := deleter_eq howns hcheck hm'
      have halive : ¬ NoHandles s.shared := by
        rintro hnone
        simp [hnone.2] at hw
      rw [if_pos ⟨halive, hlast⟩] at hdelete
      have hzero : releaseWeakDesired value = 0 := by
        by_contra hne
        simp [Event.deleter?] at hdelete
        exact hne hdelete.1
      have hpc :
          ((weakReferences creator).next s (.releaseWeakCas i value)).pc i =
            .operatorDelete := by
        refine (next_pc_actor creator s (.releaseWeakCas i value)).trans ?_
        simp [Event.target, ControlPoint.afterReleaseWeak, hzero]
      have hne : j ≠ i := by
        rintro rfl
        rw [show s.pc j = .releaseWeakCas value from hguard.1] at hj
        simp [ControlPoint.Destructing] at hj
      refine ⟨.operatorDelete i, ⟨hpc, trivial, hfew⟩, ?_⟩
      rintro hsafe
      refine hsafe.destructed ?_ j ?_
      · simp [deallocations, Event.freer?]
      · -- the other thread has not moved
        rw [next_pc_of_ne creator _ (.operatorDelete i) hne,
          next_pc_of_ne creator _ (.releaseWeakCas i value) hne]
        exact hj
  | _ =>
      exact absurd trivial hbad

/--
Storage outlives destruction in every run in which the `release_weak` of the
last handle takes effect only while no thread is about to call `~T()` or inside
it; and a step that breaks this condition in any run leads in one more step to
a state in which the storage has been freed too early.
-/
theorem storage_safe (creator : ι) :
    (∀ tr s, (destructorFirst creator).Run tr s → StorageSafe tr s) ∧
    (∀ tr s e, (weakReferences creator).Run tr s →
      (weakReferences creator).guard s e → ¬ DestructorFirst s e →
      ∃ f, (weakReferences creator).guard
          ((weakReferences creator).next s e) f ∧
        ¬ StorageSafe (tr ++ [e, f])
          ((weakReferences creator).next
            ((weakReferences creator).next s e) f)) :=
  ⟨fun _ _ hrun => storageSafe_of_run hrun,
    fun _ _ _ hrun hguard hbad =>
      not_storageSafe_of_not_destructorFirst hrun hguard hbad⟩

/-- The last weak handle is released before `~T()` has been called. -/
def freedFirst : List (Event Bool) :=
  [.addWeakRef false,
    .giveWeak false true,
    .callRelease false,
    .releaseLoad false (referenceCount 1 2),
    .releaseCas false (referenceCount 1 2),
    .callReleaseWeak true,
    .releaseWeakLoad true (referenceCount 0 1),
    .releaseWeakCas true (referenceCount 0 1),
    .operatorDelete true]

theorem not_storageSafe_freedFirst :
    (weakReferences false).Run freedFirst
      ((weakReferences false).exec (start false) freedFirst) ∧
    ¬ StorageSafe freedFirst
      ((weakReferences false).exec (start false) freedFirst) := by
  refine ⟨.of_enabled rfl (by decide +kernel), ?_⟩
  rintro hsafe
  have hfreed : deallocations freedFirst ≠ [] := by decide +kernel
  have hpending :
      ((weakReferences false).exec (start false) freedFirst).pc false =
        .callDestructor := by
    decide +kernel
  exact hsafe.destructed hfreed false (Or.inl hpending)

/-- The destructor returns before the last weak handle is released. -/
def destructedFirst : List (Event Bool) :=
  [.addWeakRef false,
    .giveWeak false true,
    .callRelease false,
    .releaseLoad false (referenceCount 1 2),
    .releaseCas false (referenceCount 1 2),
    .callReleaseWeak true,
    .startDestructor false,
    .finishDestructor false,
    .releaseWeakLoad true (referenceCount 0 1),
    .releaseWeakCas true (referenceCount 0 1),
    .operatorDelete true]

theorem storage_safe_destructedFirst :
    StorageSafe destructedFirst
      ((weakReferences false).exec (start false) destructedFirst) := by
  have hrun :
      (destructorFirst false).Run destructedFirst
        ((destructorFirst false).exec (start false) destructedFirst) := by
    refine .of_enabled rfl ?_
    change ((weakReferences false).restrict DestructorFirst).Enabled _ _
    decide +kernel
  exact (storage_safe false).1 _ _ hrun

end Deallocation

end IntrusivePtr
end Ptl

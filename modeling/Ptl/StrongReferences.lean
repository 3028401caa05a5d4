import Ptl.Duty
import Mathlib.Data.BitVec
import Mathlib.Data.Multiset.AddSub

/-!
# Objects managed by `intrusive_strong_reference`

The counter of `intrusive_ptr.hpp` without weak references.  `add_ref` and `release` are
one atomic step each; a `release` whose decrement gives 0 continues with `delete derived`,
which is a step of its own, and the steps of any number of threads interleave freely.  A
thread only uses handles it owns: it may copy one, dereference it, hand it to another
thread, or release it.

**Results.**
* `references_eq`: the counter is the number of live handles.
* `droppers_of_run`: at most one decrement gives 0, and one does when no handle is left.
* `strongReferences_safe`: the object is deleted at most once, by the thread whose
  `release` took the last handle, and no thread touches it at or after that step.
-/

namespace Ptl
namespace StrongReferences

open Transition

universe u

/-- The counter and the owner of every live handle. -/
structure Object (ι : Type u) where
  references : BitVec 32
  owners : Multiset ι

/-- Control points of a thread that uses the object. -/
inductive ControlPoint where
  | idle
  | deleteDerived
deriving DecidableEq

/-- Where `release` continues after a decrement that gave `value`. -/
def ControlPoint.afterRelease (value : BitVec 32) : ControlPoint :=
  if 0 = value then .deleteDerived else .idle

/-- The atomic steps, each with the thread that takes it. -/
inductive Event (ι : Type u) where
  | addRef (i : ι)
  | give (i j : ι)
  | dereference (i : ι)
  | release (i : ι) (value : BitVec 32)
  | deleteDerived (i : ι)
deriving DecidableEq

namespace Event

variable {ι : Type u}

def actor : Event ι → ι
  | addRef i => i
  | give i _ => i
  | dereference i => i
  | release i _ => i
  | deleteDerived i => i

def source : Event ι → ControlPoint
  | deleteDerived _ => .deleteDerived
  | _ => .idle

def target : Event ι → ControlPoint
  | release _ value => .afterRelease value
  | _ => .idle

/-- The handle a step needs, and the value a decrement returns. -/
def check (m : Object ι) : Event ι → Prop
  | addRef i => i ∈ m.owners
  | give i _ => i ∈ m.owners
  | dereference i => i ∈ m.owners
  | release i value => i ∈ m.owners ∧ value = m.references - 1
  | deleteDerived _ => True

variable [DecidableEq ι]

def effect (m : Object ι) : Event ι → Object ι
  | addRef i =>
      { references := m.references + 1
        owners := i ::ₘ m.owners }
  | give i j => { m with owners := j ::ₘ m.owners.erase i }
  | dereference _ => m
  | release i value =>
      { references := value
        owners := m.owners.erase i }
  | deleteDerived _ => m

instance decidableCheck (m : Object ι) (e : Event ι) :
    Decidable (e.check m) := by
  cases e <;> unfold check <;> infer_instance

end Event

variable {ι : Type u}

/-- Fewer than `2 ^ 32` handles are alive. -/
def FewHandles (m : Object ι) : Prop :=
  Multiset.card m.owners < 2 ^ 32

/-- The constructor's count, and the handle that adopts it. -/
def newObject (creator : ι) : Object ι where
  references := 1
  owners := {creator}

/-- The configuration in which every run starts. -/
def start (creator : ι) : Config ι ControlPoint (Object ι) where
  shared := newObject creator
  pc := fun _ => .idle

variable [DecidableEq ι]

/-- The steps of all threads on one object, with few handles alive at any time. -/
def program : Program ι ControlPoint (Object ι) (Event ι) where
  actor := Event.actor
  source := Event.source
  target := Event.target
  check := fun m e => e.check m ∧ FewHandles (e.effect m)
  effect := Event.effect

def strongReferences (creator : ι) :
    System (Config ι ControlPoint (Object ι)) (Event ι) :=
  program.system fun s => s = start creator

instance decidableGuard
    (creator : ι) (s : Config ι ControlPoint (Object ι)) (e : Event ι) :
    Decidable ((strongReferences creator).guard s e) :=
  inferInstanceAs
    (Decidable
      (s.pc e.actor = e.source ∧
        e.check s.shared ∧ Multiset.card (e.effect s.shared).owners < 2 ^ 32))

section Trace

/-- The thread whose decrement gives 0. -/
def Event.dropper? : Event ι → Option ι
  | .release i value => if 0 = value then some i else none
  | _ => none

def Event.deleter? : Event ι → Option ι
  | .deleteDerived i => some i
  | _ => none

/-- The releases whose decrement gave 0. -/
def droppers (tr : List (Event ι)) : List ι :=
  tr.filterMap Event.dropper?

/-- The executions of `delete derived`. -/
def deletes (tr : List (Event ι)) : List ι :=
  tr.filterMap Event.deleter?

end Trace

section Steps

variable {m : Object ι} {e : Event ι}

/-- The counter is the number of live handles. -/
def Counted (m : Object ι) : Prop :=
  m.references.toNat = Multiset.card m.owners

theorem Counted.step
    (hm : Counted m)
    (hcheck : e.check m)
    (hfew : FewHandles (e.effect m)) :
    Counted (e.effect m) := by
  unfold Counted at hm ⊢
  cases e with
  | addRef i =>
      have hlt : Multiset.card (i ::ₘ m.owners) < 2 ^ 32 := hfew
      simp only [Multiset.card_cons] at hlt
      simp only [Event.effect, Multiset.card_cons, BitVec.toNat_add, BitVec.ofNat_eq_ofNat,
        BitVec.toNat_ofNat]
      omega
  | give i j =>
      have hcard := Multiset.card_erase_add_one (show i ∈ m.owners from hcheck)
      simp only [Event.effect, Multiset.card_cons]
      omega
  | release i value =>
      obtain ⟨hi, rfl⟩ := hcheck
      have hcard := Multiset.card_erase_add_one hi
      have hlt := m.references.isLt
      simp only [Event.effect, BitVec.toNat_sub, BitVec.ofNat_eq_ofNat, BitVec.toNat_ofNat]
      omega
  | _ =>
      exact hm

/-- Without handles there are only the steps that need none. -/
theorem owners_effect_of_eq_zero
    (hcheck : e.check m)
    (h : m.owners = 0) :
    (e.effect m).owners = 0 := by
  have hnone : ∀ i, i ∉ m.owners := by
    simp [h]
  cases e with
  | addRef i =>
      exact absurd hcheck (hnone i)
  | give i j =>
      exact absurd hcheck (hnone i)
  | release i value =>
      exact absurd hcheck.1 (hnone i)
  | _ =>
      exact h

/-- The decrement that gives 0, by the handles. -/
theorem dropper_eq
    (hcheck : e.check m)
    (hm' : Counted (e.effect m)) :
    e.dropper? =
      if ¬ m.owners = 0 ∧ (e.effect m).owners = 0 then some e.actor else none := by
  unfold Counted at hm'
  cases e with
  | addRef i =>
      simp [Event.dropper?, Event.effect]
  | give i j =>
      simp [Event.dropper?, Event.effect]
  | release i value =>
      have hne : ¬ m.owners = 0 := by
        intro h
        simp [h, Event.check] at hcheck
      have hcard : value.toNat = Multiset.card (m.owners.erase i) := hm'
      have hzero : (0 : BitVec 32) = value ↔ m.owners.erase i = 0 := by
        rw [← Multiset.card_eq_zero, ← hcard, ← BitVec.toNat_inj]
        exact eq_comm
      simp only [Event.dropper?, Event.effect, Event.actor, hzero, hne, not_false_eq_true,
        true_and]
  | _ =>
      simp [Event.dropper?, Event.effect]

end Steps

/-- `delete derived` is a duty of the thread whose decrement gives 0. -/
theorem deletingDuty :
    Duty (program : Program ι ControlPoint (Object ι) (Event ι))
      (fun p => p = .deleteDerived) Event.dropper? Event.deleter? where
  take_actor := by
    intro e i h
    cases e <;> simp_all [Event.dropper?, Event.actor, program]
  finish_actor := by
    intro e i h
    cases e <;> simp_all [Event.deleter?, Event.actor, program]
  target := by
    intro e
    cases e with
    | release i value =>
        by_cases h : 0 = value <;>
          simp [program, Event.target, ControlPoint.afterRelease, Event.dropper?, h]
    | _ =>
        simp [program, Event.target, Event.dropper?]
  source := by
    intro e
    cases e <;> simp [program, Event.source, Event.deleter?]

section Runs

variable {creator : ι} {tr : List (Event ι)}
variable {s : Config ι ControlPoint (Object ι)}

/-- The counter is the number of live handles, in every run. -/
theorem references_eq
    (hrun : (strongReferences creator).Run tr s) :
    Counted s.shared := by
  refine hrun.invariant (I := fun _ s => Counted s.shared) ?_ ?_
  · rintro _ rfl
    simp [start, newObject, Counted]
  · rintro tr s e - hm ⟨-, hcheck, hfew⟩
    exact hm.step hcheck hfew

/-- At most one decrement gives 0, and one does when no handle is left. -/
theorem droppers_of_run
    (hrun : (strongReferences creator).Run tr s) :
    (droppers tr).length ≤ 1 ∧ (droppers tr = [] ↔ ¬ s.shared.owners = 0) := by
  refine hrun.onset (P := fun s => s.shared.owners = 0) Event.actor ?_ ?_ ?_
  · rintro _ rfl
    simp [start, newObject]
  · rintro tr s e - ⟨-, hcheck, -⟩ hs
    exact owners_effect_of_eq_zero hcheck hs
  · rintro tr s e hrun ⟨-, hcheck, hfew⟩
    exact dropper_eq hcheck ((references_eq hrun).step hcheck hfew)

/-- Who has to delete the object. -/
theorem deleting_of_run
    (hrun : (strongReferences creator).Run tr s) :
    Exclusive (droppers tr) (deletes tr) ∧
      ∀ i, s.pc i = .deleteDerived ↔ Holds (droppers tr) (deletes tr) i := by
  refine deletingDuty.run ?_ hrun (droppers_of_run hrun).1
  rintro _ rfl i
  simp [start]

/-- Once the object is deleted, no thread can take a step on it. -/
theorem not_guard_of_deletes
    (hrun : (strongReferences creator).Run tr s)
    (hdel : deletes tr ≠ [])
    (e : Event ι) :
    ¬ (strongReferences creator).guard s e := by
  rintro ⟨hpc, hcheck, -⟩
  obtain ⟨hexcl, hholds⟩ := deleting_of_run hrun
  have hdrop : droppers tr ≠ [] := by
    rcases hexcl.done_eq with h | h
    · exact absurd h hdel
    · rwa [← h]
  have hzero : s.shared.owners = 0 := by
    by_contra hne
    exact hdrop ((droppers_of_run hrun).2.mpr hne)
  have hnone : ∀ i, i ∉ s.shared.owners := by
    simp [hzero]
  cases e with
  | addRef i =>
      exact hnone i hcheck
  | give i j =>
      exact hnone i hcheck
  | dereference i =>
      exact hnone i hcheck
  | release i value =>
      exact hnone i hcheck.1
  | deleteDerived i =>
      exact hdel ((hholds i).mp hpc).2

end Runs

/--
The object is deleted at most once, by the thread that released the last handle.  While
handles are left nobody deletes it or is about to; when none is left, the thread whose
decrement gave 0 has deleted it or is about to.  Nothing follows the deletion.
-/
structure Safe
    (tr : List (Event ι)) (s : Config ι ControlPoint (Object ι)) : Prop where
  counted : s.shared.references.toNat = Multiset.card s.shared.owners
  alive : s.shared.owners ≠ 0 → deletes tr = [] ∧ ∀ i, s.pc i = .idle
  deleted : s.shared.owners = 0 →
    ∃ i, droppers tr = [i] ∧
      (deletes tr = [i] ∧ (∀ j, s.pc j = .idle) ∨
        deletes tr = [] ∧ ∀ j, s.pc j = .deleteDerived ↔ j = i)
  untouched : System.History (fun past _ => deletes past = []) tr

/-- Reference counting deletes once and never too early, whatever the interleaving. -/
theorem strongReferences_safe
    {creator : ι} {tr : List (Event ι)}
    {s : Config ι ControlPoint (Object ι)}
    (hrun : (strongReferences creator).Run tr s) :
    Safe tr s := by
  obtain ⟨hexcl, hholds⟩ := deleting_of_run hrun
  have hidle : ∀ i, ¬ Holds (droppers tr) (deletes tr) i → s.pc i = .idle := by
    intro i hi
    have hne := mt (hholds i).mp hi
    cases hpc : s.pc i with
    | idle =>
        rfl
    | deleteDerived =>
        exact absurd hpc hne
  refine ⟨references_eq hrun, ?_, ?_, ?_⟩
  · intro halive
    have hnil := (droppers_of_run hrun).2.mpr halive
    refine ⟨?_, fun i => hidle i ?_⟩
    · simpa [hnil] using hexcl.done_eq
    · rintro ⟨htaken, -⟩
      simp [hnil] at htaken
  · intro hzero
    rcases hexcl.cases with ⟨htaken, -⟩ | ⟨i, hi⟩ | ⟨i, htaken, hdone⟩
    · exact absurd hzero ((droppers_of_run hrun).2.mp htaken)
    · refine ⟨i, hi.1, Or.inr ⟨hi.2, fun j => ?_⟩⟩
      rw [hholds j, Holds, hi.1, hi.2]
      simp [eq_comm]
    · refine ⟨i, htaken, Or.inl ⟨hdone, fun j => hidle j ?_⟩⟩
      rintro ⟨-, hnil⟩
      simp [hdone] at hnil
  · refine hrun.history ?_
    intro tr s e hrun hguard
    by_contra hdel
    exact not_guard_of_deletes hrun hdel e hguard

/-- One thread hands a copy to another, which releases the last handle. -/
def releasedElsewhere : List (Event Bool) :=
  [.addRef false,
    .give false true,
    .release false 1,
    .dereference true,
    .release true 0,
    .deleteDerived true]

theorem strongReferences_safe_releasedElsewhere :
    Safe releasedElsewhere
      ((strongReferences false).exec (start false) releasedElsewhere) := by
  have hrun :
      (strongReferences false).Run releasedElsewhere
        ((strongReferences false).exec (start false) releasedElsewhere) :=
    .of_enabled rfl (by decide +kernel)
  exact strongReferences_safe hrun

end StrongReferences
end Ptl

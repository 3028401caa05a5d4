import Ptl.ThreadProgram
import Ptl.WeakCount
import Mathlib.Data.Multiset.AddSub

/-!
# Objects managed by `intrusive_weak_references`

This module embeds the five operations of `intrusive_ptr.hpp` on an object with
strong and weak references as a program over a shared memory.  Every access to
`references`, the call of `~T()`, its return and every deallocation is one
step, and the steps of any number of threads interleave freely.

* `intrusive_weak_ptr_release`, `intrusive_weak_ptr_release_weak` and
  `intrusive_weak_ptr_lock` load the word once and then run a
  `compare_exchange_weak` loop.  A failed exchange may be spurious.
* The last `release` ends in one of two branches: `delete ptr`, where `ptr` has
  the type `intrusive_weak_references*`, or `derived->~T()`.
* The union of the counter is taken to sit at the address of the object, on which both
  deallocations rely: they are given the pointer to the union.
* The memory also records who owns the live handles.  A thread only uses
  handles it owns; it may hand an idle one to another thread.
-/

namespace Ptl
namespace IntrusivePtr

open Transition

universe u

/-- The word `references` and the owner of every live handle. -/
structure Object (ι : Type u) where
  references : BitVec 64
  strong : Multiset ι
  weak : Multiset ι

/-- Control points of a thread that uses the object. -/
inductive ControlPoint where
  | idle
  | releaseLoad
  | releaseCas (value : BitVec 64)
  | deletePtr
  | callDestructor
  | inDestructor
  | releaseWeakLoad
  | releaseWeakCas (value : BitVec 64)
  | operatorDelete
  | lockLoad
  | lockCas (value : BitVec 64)
  | lockReturn (success : Bool)
deriving DecidableEq

namespace ControlPoint

/-- Where `release` continues after it has stored `desired`. -/
def afterRelease (desired : BitVec 64) : ControlPoint :=
  if strongCount desired = 0 then
    if weakCount desired = 0 then .deletePtr else .callDestructor
  else .idle

/-- Where `release_weak` continues after it has stored `desired`. -/
def afterReleaseWeak (desired : BitVec 64) : ControlPoint :=
  if desired = 0 then .operatorDelete else .idle

/-- The body of the loop of `lock` for the value just read. -/
def lockLoop (value : BitVec 64) : ControlPoint :=
  if lockFails value then .lockReturn false else .lockCas value

end ControlPoint

/-- The atomic steps, each with the thread that takes it. -/
inductive Event (ι : Type u) where
  | addRef (i : ι)
  | addWeakRef (i : ι)
  | giveStrong (i j : ι)
  | giveWeak (i j : ι)
  | callRelease (i : ι)
  | releaseLoad (i : ι) (value : BitVec 64)
  | releaseCas (i : ι) (value : BitVec 64)
  | releaseCasFail (i : ι) (value loaded : BitVec 64)
  | deletePtr (i : ι)
  | startDestructor (i : ι)
  | finishDestructor (i : ι)
  | callReleaseWeak (i : ι)
  | releaseWeakLoad (i : ι) (value : BitVec 64)
  | releaseWeakCas (i : ι) (value : BitVec 64)
  | releaseWeakCasFail (i : ι) (value loaded : BitVec 64)
  | operatorDelete (i : ι)
  | callLock (i : ι)
  | lockLoad (i : ι) (value : BitVec 64)
  | lockCas (i : ι) (value : BitVec 64)
  | lockCasFail (i : ι) (value loaded : BitVec 64)
  | lockReturn (i : ι) (success : Bool)
deriving DecidableEq

namespace Event

variable {ι : Type u}

def actor : Event ι → ι
  | addRef i => i
  | addWeakRef i => i
  | giveStrong i _ => i
  | giveWeak i _ => i
  | callRelease i => i
  | releaseLoad i _ => i
  | releaseCas i _ => i
  | releaseCasFail i _ _ => i
  | deletePtr i => i
  | startDestructor i => i
  | finishDestructor i => i
  | callReleaseWeak i => i
  | releaseWeakLoad i _ => i
  | releaseWeakCas i _ => i
  | releaseWeakCasFail i _ _ => i
  | operatorDelete i => i
  | callLock i => i
  | lockLoad i _ => i
  | lockCas i _ => i
  | lockCasFail i _ _ => i
  | lockReturn i _ => i

def source : Event ι → ControlPoint
  | addRef _ => .idle
  | addWeakRef _ => .idle
  | giveStrong _ _ => .idle
  | giveWeak _ _ => .idle
  | callRelease _ => .idle
  | releaseLoad _ _ => .releaseLoad
  | releaseCas _ value => .releaseCas value
  | releaseCasFail _ value _ => .releaseCas value
  | deletePtr _ => .deletePtr
  | startDestructor _ => .callDestructor
  | finishDestructor _ => .inDestructor
  | callReleaseWeak _ => .idle
  | releaseWeakLoad _ _ => .releaseWeakLoad
  | releaseWeakCas _ value => .releaseWeakCas value
  | releaseWeakCasFail _ value _ => .releaseWeakCas value
  | operatorDelete _ => .operatorDelete
  | callLock _ => .idle
  | lockLoad _ _ => .lockLoad
  | lockCas _ value => .lockCas value
  | lockCasFail _ value _ => .lockCas value
  | lockReturn _ success => .lockReturn success

def target : Event ι → ControlPoint
  | addRef _ => .idle
  | addWeakRef _ => .idle
  | giveStrong _ _ => .idle
  | giveWeak _ _ => .idle
  | callRelease _ => .releaseLoad
  | releaseLoad _ value => .releaseCas value
  | releaseCas _ value => .afterRelease (releaseDesired value)
  | releaseCasFail _ _ loaded => .releaseCas loaded
  | deletePtr _ => .idle
  | startDestructor _ => .inDestructor
  | finishDestructor _ => .idle
  | callReleaseWeak _ => .releaseWeakLoad
  | releaseWeakLoad _ value => .releaseWeakCas value
  | releaseWeakCas _ value => .afterReleaseWeak (releaseWeakDesired value)
  | releaseWeakCasFail _ _ loaded => .releaseWeakCas loaded
  | operatorDelete _ => .idle
  | callLock _ => .lockLoad
  | lockLoad _ value => .lockLoop value
  | lockCas _ _ => .lockReturn true
  | lockCasFail _ _ loaded => .lockLoop loaded
  | lockReturn _ _ => .idle

/-- The handle a call needs, and the value a step reads from the word. -/
def check (m : Object ι) : Event ι → Prop
  | addRef i => i ∈ m.strong
  | addWeakRef i => i ∈ m.strong ∨ i ∈ m.weak
  | giveStrong i _ => i ∈ m.strong
  | giveWeak i _ => i ∈ m.weak
  | callRelease i => i ∈ m.strong
  | releaseLoad _ value => value = m.references
  | releaseCas _ value => value = m.references
  | releaseCasFail _ _ loaded => loaded = m.references
  | deletePtr _ => True
  | startDestructor _ => True
  | finishDestructor _ => True
  | callReleaseWeak i => i ∈ m.weak
  | releaseWeakLoad _ value => value = m.references
  | releaseWeakCas _ value => value = m.references
  | releaseWeakCasFail _ _ loaded => loaded = m.references
  | operatorDelete _ => True
  | callLock i => i ∈ m.strong ∨ i ∈ m.weak
  | lockLoad _ value => value = m.references
  | lockCas _ value => value = m.references
  | lockCasFail _ _ loaded => loaded = m.references
  | lockReturn _ _ => True

/-- What a step stores into `references`. -/
def store (references : BitVec 64) : Event ι → BitVec 64
  | addRef _ => references + 1
  | addWeakRef _ => references + referenceCount 0 1
  | releaseCas _ value => releaseDesired value
  | releaseWeakCas _ value => releaseWeakDesired value
  | lockCas _ value => lockDesired value
  | _ => references

variable [DecidableEq ι]

/-- The strong handles after a step. -/
def strongAfter (owners : Multiset ι) : Event ι → Multiset ι
  | addRef i => i ::ₘ owners
  | giveStrong i j => j ::ₘ owners.erase i
  | releaseCas i _ => owners.erase i
  | lockCas i _ => i ::ₘ owners
  | _ => owners

/-- The weak handles after a step. -/
def weakAfter (owners : Multiset ι) : Event ι → Multiset ι
  | addWeakRef i => i ::ₘ owners
  | giveWeak i j => j ::ₘ owners.erase i
  | releaseWeakCas i _ => owners.erase i
  | _ => owners

def effect (m : Object ι) (e : Event ι) : Object ι where
  references := e.store m.references
  strong := e.strongAfter m.strong
  weak := e.weakAfter m.weak

instance decidableCheck (m : Object ι) (e : Event ι) :
    Decidable (e.check m) := by
  cases e <;> unfold check <;> infer_instance

end Event

variable {ι : Type u}

/-- Fewer than `2 ^ 32 - 1` handles of each kind are alive. -/
def FewHandles (m : Object ι) : Prop :=
  Multiset.card m.strong < 2 ^ 32 - 1 ∧ Multiset.card m.weak < 2 ^ 32 - 1

instance decidableFewHandles (m : Object ι) :
    Decidable (FewHandles m) :=
  inferInstanceAs
    (Decidable
      (Multiset.card m.strong < 2 ^ 32 - 1 ∧
        Multiset.card m.weak < 2 ^ 32 - 1))

/-- A new object: the constructor's counts and one strong handle. -/
def newObject (creator : ι) : Object ι where
  references := referenceCount 1 1
  strong := {creator}
  weak := 0

/-- The configuration in which every run starts. -/
def start (creator : ι) : Config ι ControlPoint (Object ι) where
  shared := newObject creator
  pc := fun _ => .idle

variable [DecidableEq ι]

/-- The steps of all threads on one object. -/
def program : Program ι ControlPoint (Object ι) (Event ι) where
  actor := Event.actor
  source := Event.source
  target := Event.target
  check := Event.check
  effect := Event.effect

/-- The steps that keep the number of handles of each kind small. -/
def boundedProgram : Program ι ControlPoint (Object ι) (Event ι) :=
  program.restrict fun m e => FewHandles (e.effect m)

@[simp] theorem boundedProgram_actor (e : Event ι) :
    boundedProgram.actor e = e.actor := by
  rfl

@[simp] theorem boundedProgram_source (e : Event ι) :
    boundedProgram.source e = e.source := by
  rfl

@[simp] theorem boundedProgram_target (e : Event ι) :
    boundedProgram.target e = e.target := by
  rfl

/-- All interleavings on one object, with few handles alive at any time. -/
def weakReferences (creator : ι) :
    System (Config ι ControlPoint (Object ι)) (Event ι) :=
  boundedProgram.system fun s => s = start creator

theorem next_pc_actor
    (creator : ι) (s : Config ι ControlPoint (Object ι)) (e : Event ι) :
    ((weakReferences creator).next s e).pc e.actor = e.target :=
  Program.system_next_pc_actor s e

theorem next_pc_of_ne
    (creator : ι) (s : Config ι ControlPoint (Object ι)) (e : Event ι)
    {j : ι}
    (hj : j ≠ e.actor) :
    ((weakReferences creator).next s e).pc j = s.pc j :=
  Program.system_next_pc_of_ne s e hj

instance decidableGuard
    (creator : ι) (s : Config ι ControlPoint (Object ι)) (e : Event ι) :
    Decidable ((weakReferences creator).guard s e) :=
  inferInstanceAs
    (Decidable
      (s.pc e.actor = e.source ∧
        e.check s.shared ∧ FewHandles (e.effect s.shared)))

section Trace

/-- The thread whose `release` drops the strong count to zero. -/
def Event.dropper? : Event ι → Option ι
  | .releaseCas i value =>
      if strongCount (releaseDesired value) = 0 then some i else none
  | _ => none

/-- The thread whose `release` branches to `derived->~T()`. -/
def Event.destroyer? : Event ι → Option ι
  | .releaseCas i value =>
      if strongCount (releaseDesired value) = 0 ∧
        weakCount (releaseDesired value) ≠ 0 then some i else none
  | _ => none

/-- The thread that branches to a deallocation. -/
def Event.deleter? : Event ι → Option ι
  | .releaseCas i value =>
      if strongCount (releaseDesired value) = 0 ∧
        weakCount (releaseDesired value) = 0 then some i else none
  | .releaseWeakCas i value =>
      if releaseWeakDesired value = 0 then some i else none
  | _ => none

def Event.starter? : Event ι → Option ι
  | .startDestructor i => some i
  | _ => none

def Event.finisher? : Event ι → Option ι
  | .finishDestructor i => some i
  | _ => none

def Event.freer? : Event ι → Option ι
  | .deletePtr i => some i
  | .operatorDelete i => some i
  | _ => none

/-- The releases that dropped the strong count to zero. -/
def droppers (tr : List (Event ι)) : List ι :=
  tr.filterMap Event.dropper?

/-- The releases that branched to the destructor call. -/
def destroyers (tr : List (Event ι)) : List ι :=
  tr.filterMap Event.destroyer?

/-- The releases, strong or weak, that branched to a deallocation. -/
def deleters (tr : List (Event ι)) : List ι :=
  tr.filterMap Event.deleter?

/-- The calls of `~T()`. -/
def destructorCalls (tr : List (Event ι)) : List ι :=
  tr.filterMap Event.starter?

/-- The calls of `~T()` that have returned. -/
def destructorReturns (tr : List (Event ι)) : List ι :=
  tr.filterMap Event.finisher?

/-- The deallocations of the storage. -/
def deallocations (tr : List (Event ι)) : List ι :=
  tr.filterMap Event.freer?

end Trace

end IntrusivePtr
end Ptl

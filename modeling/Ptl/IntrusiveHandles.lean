import Ptl.TransitionSystem
import Ptl.HandleVariables
import Mathlib.Data.BitVec
import Mathlib.Data.Fintype.Basic
import Mathlib.Algebra.Group.Nat.Defs

/-!
# Variables of type `intrusive_ptr`

This module embeds the constructors, assignments, `swap`, `reset` and the
destructor of `intrusive_ptr`, over objects that are counted by
`intrusive_strong_reference`.  A call that reaches an object after its deletion
is recorded.

The caller starts with one reference to each object.  Adopting a raw pointer, by
the constructor, by `operator=(T*)` or by `reset(T*)`, uses up one reference of
the caller.

The count is an `atomic<uint32_t>`, so 2^32 references are counted as none.

**Results.**
* `references_accounted`: with fewer than 2^32 references to each object, every
  count is the number of references, an object is deleted exactly when it has no
  reference left, and it is not touched after that.
-/

namespace Ptl
namespace StrongReference

open Transition Handles

universe u v

/-- Objects with an `intrusive_strong_reference`. -/
structure Objects (κ : Type v) where
  references : κ → BitVec 32
  deleted : κ → Bool
  touchedDeleted : Bool

namespace Objects

variable {κ : Type v} [DecidableEq κ]

/-- `intrusive_strong_ptr_add_ref`. -/
def addRef (m : Objects κ) (p : κ) : Objects κ :=
  { m with
    references := Function.update m.references p (m.references p + 1)
    touchedDeleted := m.touchedDeleted || m.deleted p }

/-- `intrusive_strong_ptr_release`. -/
def release (m : Objects κ) (p : κ) : Objects κ :=
  let count := m.references p - 1
  { references := Function.update m.references p count
    deleted := if count = 0 then Function.update m.deleted p true else m.deleted
    touchedDeleted := m.touchedDeleted || m.deleted p }

/-- The functions `intrusive_ptr` calls. -/
def api : Api κ (Objects κ) where
  addRef := addRef
  release := release

end Objects

/-- The variables, the objects and the references the caller still owns. -/
structure State (ν : Type u) (κ : Type v) where
  store : Store ν κ (Objects κ)
  owned : κ → Nat

namespace State

variable {ν : Type u} {κ : Type v}

/-- New objects. -/
def start : State ν κ where
  store :=
    { vars := .empty
      memory :=
        { references := fun _ => 1
          deleted := fun _ => false
          touchedDeleted := false } }
  owned := fun _ => 1

variable [DecidableEq κ]

/-- The references to an object, of variables and of the caller. -/
def refs (s : State ν κ) (p : κ) : Nat :=
  s.store.refs s.owned p

/-- The caller gives up its reference to what is adopted. -/
def give (s : State ν κ) (q : Option κ) : κ → Nat :=
  giveUp s.owned q

end State

/-- The operations on variables; an adopted pointer may be null. -/
inductive Event (ν : Type u) (κ : Type v) where
  | operation (e : Operation ν)
  | adopt (a : ν) (q : Option κ)
  | addRef (a : ν) (q : Option κ)
  | adoptAssign (a : ν) (q : Option κ)
deriving DecidableEq

namespace Event

variable {ν : Type u} {κ : Type v} [DecidableEq ν] [DecidableEq κ]

/-- The caller adopts references it owns, and names objects that have a reference. -/
def Allowed (s : State ν κ) : Event ν κ → Prop
  | operation e => e.Allowed s.store
  | adopt a q => some a ∉ s.store.vars.declared ∧ ∀ p ∈ q, 0 < s.owned p
  | addRef a q => some a ∉ s.store.vars.declared ∧ ∀ p ∈ q, 0 < s.refs p
  | adoptAssign a q => some a ∈ s.store.vars.declared ∧ ∀ p ∈ q, 0 < s.owned p

instance decidableAllowed (s : State ν κ) :
    ∀ e : Event ν κ, Decidable (e.Allowed s)
  | operation e => inferInstanceAs (Decidable (e.Allowed s.store))
  | adopt a q =>
      inferInstanceAs (Decidable (some a ∉ s.store.vars.declared ∧ ∀ p ∈ q, 0 < s.owned p))
  | addRef a q =>
      inferInstanceAs (Decidable (some a ∉ s.store.vars.declared ∧ ∀ p ∈ q, 0 < s.refs p))
  | adoptAssign a q =>
      inferInstanceAs (Decidable (some a ∈ s.store.vars.declared ∧ ∀ p ∈ q, 0 < s.owned p))

def apply (s : State ν κ) : Event ν κ → State ν κ
  | operation e => { s with store := e.apply Objects.api s.store }
  | adopt a q => { store := s.store.construct a q, owned := s.give q }
  | addRef a q => { s with store := s.store.constructAddRef Objects.api a q }
  | adoptAssign a q =>
      { store := s.store.adoptAssign Objects.api a q, owned := s.give q }

end Event

variable {ν : Type u} {κ : Type v} [DecidableEq ν] [DecidableEq κ]

/-- All sequences of operations on variables of type `intrusive_ptr`. -/
def intrusivePtr : System (State ν κ) (Event ν κ) where
  init := fun s => s = .start
  guard := fun s e => e.Allowed s
  next := Event.apply

instance decidableEventGuard (s : State ν κ) (e : Event ν κ) :
    Decidable (intrusivePtr.guard s e) :=
  inferInstanceAs (Decidable (e.Allowed s))

section Accounting

omit [DecidableEq ν]

/-- The counts are right, and an object is deleted when the last reference is gone. -/
structure Accounted (s : State ν κ) : Prop where
  count : ∀ p, (s.store.memory.references p).toNat = s.refs p
  deleted : ∀ p, s.store.memory.deleted p = true ↔ s.refs p = 0
  untouched : s.store.memory.touchedDeleted = false

/-- The counts of the objects modulo 2^32, for at most 2^32 references each. -/
structure Balanced (m : Objects κ) (r : κ → Nat) : Prop where
  limit : ∀ p, r p ≤ 2 ^ 32
  count : ∀ p, m.references p = BitVec.ofNat 32 (r p)
  deleted : ∀ p, m.deleted p = true ↔ r p = 0
  untouched : m.touchedDeleted = false

omit [DecidableEq κ] in
theorem Balanced.deleted_false
    {m : Objects κ} {r : κ → Nat} {p : κ}
    (hm : Balanced m r)
    (hp : 0 < r p) :
    m.deleted p = false := by
  rw [← Bool.not_eq_true, hm.deleted p]
  omega

theorem balanced_addRef
    {m : Objects κ} {r : κ → Nat} {p : κ}
    (hm : Balanced m r)
    (hpos : 0 < r p)
    (hlt : r p < 2 ^ 32) :
    Balanced (m.addRef p) (Function.update r p (r p + 1)) := by
  constructor
  · intro p'
    rcases eq_or_ne p' p with rfl | hp
    · rw [Function.update_self]
      omega
    · rw [Function.update_of_ne hp]
      exact hm.limit p'
  · intro p'
    rcases eq_or_ne p' p with rfl | hp
    · simp only [Objects.addRef, Function.update_self, hm.count]
      rw [BitVec.ofNat_add]
      rfl
    · simp only [Objects.addRef, Function.update_of_ne hp, hm.count]
  · intro p'
    rcases eq_or_ne p' p with rfl | hp
    · rw [Function.update_self]
      exact iff_of_false (by simp [Objects.addRef, hm.deleted_false hpos]) (by omega)
    · rw [Function.update_of_ne hp]
      exact hm.deleted p'
  · simp [Objects.addRef, hm.untouched, hm.deleted_false hpos]

/-- Below the limit, the decremented count is zero only for the last reference. -/
theorem release_eq_zero_iff
    {n : Nat}
    (hpos : 0 < n)
    (hle : n ≤ 2 ^ 32) :
    BitVec.ofNat 32 n - 1 = BitVec.ofNat 32 (n - 1) ∧
      (BitVec.ofNat 32 (n - 1) = 0 ↔ n = 1) := by
  obtain ⟨k, rfl⟩ : ∃ k, n = k + 1 := ⟨n - 1, by omega⟩
  constructor
  · rw [BitVec.ofNat_add, Nat.add_sub_cancel]
    exact BitVec.add_sub_cancel _ _
  · rw [← BitVec.toNat_inj, BitVec.toNat_ofNat, Nat.mod_eq_of_lt (by omega)]
    simp

theorem balanced_release
    {m : Objects κ} {r : κ → Nat} {p : κ}
    (hm : Balanced m r)
    (hpos : 0 < r p) :
    Balanced (m.release p) (Function.update r p (r p - 1)) := by
  obtain ⟨hcount, hzero⟩ := release_eq_zero_iff hpos (hm.limit p)
  constructor
  · intro p'
    rcases eq_or_ne p' p with rfl | hp
    · have hle := hm.limit p'
      rw [Function.update_self]
      omega
    · rw [Function.update_of_ne hp]
      exact hm.limit p'
  · intro p'
    rcases eq_or_ne p' p with rfl | hp
    · simp only [Objects.release, Function.update_self, hm.count, hcount]
    · simp only [Objects.release, Function.update_of_ne hp, hm.count]
  · intro p'
    simp only [Objects.release, hm.count p, hcount]
    rcases eq_or_ne p' p with rfl | hp
    · rw [Function.update_self]
      split
      next h =>
          rw [Function.update_self]
          exact iff_of_true rfl (by have := hzero.mp h; omega)
      next h =>
          rw [hm.deleted_false hpos]
          refine iff_of_false Bool.false_ne_true fun h' => h (hzero.mpr (by omega))
    · rw [Function.update_of_ne hp, ← hm.deleted p']
      split
      next => rw [Function.update_of_ne hp]
      next => rfl
  · simp [Objects.release, hm.untouched, hm.deleted_false hpos]

/-- The functions of `intrusive_strong_reference` count what `intrusive_ptr` does. -/
theorem accounting_api :
    Accounting (Objects.api (κ := κ)) Balanced (2 ^ 32) where
  addRef := fun _ _ _ hm hpos hlt => balanced_addRef hm hpos hlt
  release := fun _ _ _ hm hpos => balanced_release hm hpos

end Accounting

section Runs

variable {tr : List (Event ν κ)} {s : State ν κ} {e : Event ν κ}

/-- The step leaves fewer than 2^32 references to each object. -/
def StaysFew (s : State ν κ) (e : Event ν κ) : Prop :=
  ∀ p, (intrusivePtr.next s e).refs p < 2 ^ 32

instance decidableStaysFew [Fintype κ] (s : State ν κ) (e : Event ν κ) :
    Decidable (StaysFew s e) :=
  inferInstanceAs (Decidable (∀ p, (intrusivePtr.next s e).refs p < 2 ^ 32))

/-- What holds between the operations. -/
structure Consistent (s : State ν κ) : Prop where
  few : ∀ p, s.refs p < 2 ^ 32
  temporary : none ∉ s.store.vars.declared
  balanced : Balanced s.store.memory s.refs

/-- Every operation counts correctly and leaves no temporary behind. -/
theorem Consistent.balanced_next
    (hs : Consistent s)
    (hguard : intrusivePtr.guard s e) :
    none ∉ (intrusivePtr.next s e).store.vars.declared ∧
      Balanced (intrusivePtr.next s e).store.memory (intrusivePtr.next s e).refs := by
  obtain ⟨hfew, hnone, hbalanced⟩ := hs
  have hinsert (a : ν) : none ∉ insert (some a) s.store.vars.declared := by
    simp [hnone]
  cases e with
  | operation e =>
      exact ⟨e.temporary_apply Objects.api hnone,
        Operation.accounting accounting_api hbalanced hfew hnone hguard⟩
  | adopt a q =>
      exact ⟨hinsert a, Accounting.construct hbalanced hguard.1 (eq_giveUp_add_points hguard.2)⟩
  | addRef a q =>
      exact ⟨hinsert a, accounting_api.constructAddRef hbalanced hguard.1
        fun p hp => ⟨hguard.2 p hp, hfew p⟩⟩
  | adoptAssign a q =>
      exact ⟨(Store.declared_adoptAssign hnone).symm ▸ hnone,
        accounting_api.adoptAssign hbalanced hnone hguard.1 (eq_giveUp_add_points hguard.2)⟩

omit [DecidableEq ν] in
theorem consistent_start :
    Consistent (State.start : State ν κ) := by
  have hrefs (p : κ) : (State.start : State ν κ).refs p = 1 := rfl
  refine ⟨fun p => ?_, Finset.notMem_empty _, ⟨fun p => ?_, fun p => ?_, fun p => ?_, rfl⟩⟩
  · rw [hrefs]
    omega
  · rw [hrefs]
    omega
  · rw [hrefs]
    rfl
  · rw [hrefs]
    exact iff_of_false Bool.false_ne_true Nat.one_ne_zero

theorem consistent_of_run
    (hrun : (intrusivePtr.restrict StaysFew).Run tr s) :
    Consistent s := by
  induction hrun with
  | start hinit =>
      obtain rfl := hinit
      exact consistent_start
  | step e _ hguard ih =>
      obtain ⟨htemporary, hbalanced⟩ := ih.balanced_next hguard.1
      exact ⟨hguard.2, htemporary, hbalanced⟩

/--
As long as each object has fewer than 2^32 references, its count is the number of
variables that point to it plus the references of the caller, it is deleted
exactly when there is none left, and it is never touched after that.
-/
theorem references_accounted
    (hrun : (intrusivePtr.restrict StaysFew).Run tr s) :
    Accounted s := by
  obtain ⟨hfew, -, hbalanced⟩ := consistent_of_run hrun
  refine ⟨fun p => ?_, hbalanced.deleted, hbalanced.untouched⟩
  rw [hbalanced.count, BitVec.toNat_ofNat, Nat.mod_eq_of_lt (hfew p)]

/-- An object is adopted, shared, assigned to itself and given up. -/
def sharedAndGivenUp : List (Event Bool Unit) :=
  [.adopt false (some ()), .operation (.copyConstruct true false),
    .operation (.copyAssign true true), .operation (.reset false),
    .operation (.moveAssign true true), .operation (.destroy true),
    .operation (.destroy false)]

theorem references_accounted_sharedAndGivenUp :
    Accounted (intrusivePtr.exec .start sharedAndGivenUp) := by
  have hrun : (intrusivePtr.restrict StaysFew).Run sharedAndGivenUp
      ((intrusivePtr.restrict StaysFew).exec .start sharedAndGivenUp) :=
    .of_enabled rfl (by decide +kernel)
  exact references_accounted hrun

/-- One object is adopted and copied `n` times. -/
def copies : Nat → List (Event Nat Unit)
  | 0 => [.adopt 0 (some ())]
  | n + 1 => copies n ++ [.operation (.copyConstruct (n + 1) 0)]

/-- Every copy is counted by the variables, and by the object modulo 2^32. -/
theorem run_copies (n : Nat) :
    ∃ s, intrusivePtr.Run (copies n) s ∧
      s.store.memory.references () = BitVec.ofNat 32 (n + 1) ∧
      s.store.vars.holders () = n + 1 ∧
      (∀ i, some i ∈ s.store.vars.declared ↔ i ≤ n) ∧
      s.store.vars.ptr (some 0) = some () := by
  induction n with
  | zero =>
      refine ⟨_, .of_enabled rfl (by decide +kernel), rfl, by decide +kernel, fun i => ?_, rfl⟩
      change some i ∈ insert (some 0) (∅ : Finset (Option Nat)) ↔ i ≤ 0
      simp
  | succ n ih =>
      obtain ⟨s, hrun, hcount, hholders, hdeclared, hptr⟩ := ih
      have hnew : some (n + 1) ∉ s.store.vars.declared := by
        rw [hdeclared]
        omega
      have hguard : intrusivePtr.guard s (.operation (.copyConstruct (n + 1) 0)) :=
        ⟨hnew, (hdeclared 0).mpr (Nat.zero_le n)⟩
      refine ⟨_, System.Run.step _ hrun hguard, ?_, ?_, ?_, ?_⟩
      · simp [intrusivePtr, Event.apply, Operation.apply, Store.copyConstruct, Store.constructAddRef, hptr,
          Api.retain, Objects.api, Objects.addRef, hcount, BitVec.ofNat_add]
      · have hdeclare := Variables.holders_declare hnew (some ()) ()
        rw [points_some_self, hholders] at hdeclare
        simpa [intrusivePtr, Event.apply, Operation.apply, Store.copyConstruct,
          Store.constructAddRef, hptr] using hdeclare
      · intro i
        simp only [intrusivePtr, Event.apply, Operation.apply, Store.copyConstruct,
          Store.constructAddRef, Variables.declare, Finset.mem_insert, Option.some.injEq, hdeclared]
        omega
      · simp [intrusivePtr, Event.apply, Operation.apply, Store.copyConstruct, Store.constructAddRef,
          Variables.declare, hptr]

/-- 2^32 variables point to one object, whose count is zero. -/
theorem not_references_accounted :
    ¬ ∀ (tr : List (Event Nat Unit)) s, intrusivePtr.Run tr s → Accounted s := by
  intro h
  obtain ⟨s, hrun, hcount, hholders, -⟩ := run_copies (2 ^ 32 - 1)
  have hrefs := (h _ s hrun).count ()
  rw [hcount, State.refs, Store.refs, hholders, BitVec.toNat_ofNat] at hrefs
  omega

end Runs

end StrongReference
end Ptl

import Ptl.TransitionSystem
import Ptl.HandleVariables
import Ptl.WeakCount
import Mathlib.Data.Fintype.Basic
import Mathlib.Algebra.Group.Nat.Defs

/-!
# Variables of type `intrusive_ptr` and `intrusive_wptr`

This module embeds both kinds of variables over objects that are counted by
`intrusive_weak_references`, with `weak()` and `lock()`.  The operations run one
after the other, so the compare-exchange loops succeed at once and the functions
of the objects are given by the words that they store.

A call with a null pointer, and a call that reaches an object whose storage is
freed, has no defined meaning and is the last step of a run.

**Results.**
* `weak_handles_safe_iff`: with few references to each object, every call is made
  on an object whose storage exists, and `weak()` and `lock()` give the right
  handles, exactly if neither is called on an empty variable.
-/

namespace Ptl
namespace WeakReference

open Transition Handles IntrusivePtr

universe u v w

/-- Objects with `intrusive_weak_references`. -/
structure Objects (κ : Type v) where
  references : κ → BitVec 64
  destructed : κ → Bool
  freed : κ → Bool
  undefined : Bool

namespace Objects

variable {κ : Type v} [DecidableEq κ]

/-- The object stores a word, if it still exists. -/
def write (m : Objects κ) (p : κ) (desired : BitVec 64) : Objects κ :=
  { m with
    references := Function.update m.references p desired
    undefined := m.undefined || m.freed p }

/-- The call has no defined meaning. -/
def nullCall (m : Objects κ) : Objects κ :=
  { m with undefined := true }

/-- `intrusive_weak_ptr_add_ref`. -/
def addRef (m : Objects κ) (p : κ) : Objects κ :=
  m.write p (m.references p + 1)

/-- `intrusive_weak_ptr_release`. -/
def release (m : Objects κ) (p : κ) : Objects κ :=
  let desired := releaseDesired (m.references p)
  let stored := m.write p desired
  if strongCount desired = 0 then
    if weakCount desired = 0 then
      { stored with freed := Function.update stored.freed p true }
    else { stored with destructed := Function.update stored.destructed p true }
  else stored

/-- `intrusive_weak_ptr_add_weak_ref`. -/
def addWeakRef (m : Objects κ) (p : κ) : Objects κ :=
  m.write p (m.references p + referenceCount 0 1)

/-- `intrusive_weak_ptr_release_weak`. -/
def releaseWeak (m : Objects κ) (p : κ) : Objects κ :=
  let desired := releaseWeakDesired (m.references p)
  let stored := m.write p desired
  if desired = 0 then
    { stored with freed := Function.update stored.freed p true }
  else stored

/-- `intrusive_weak_ptr_lock`. -/
def lock (m : Objects κ) (p : κ) : Objects κ × Bool :=
  if lockFails (m.references p) then
    (m.write p (m.references p), false)
  else (m.write p (lockDesired (m.references p)), true)

/-- The functions `intrusive_ptr` calls. -/
def strongApi : Api κ (Objects κ) where
  addRef := addRef
  release := release

/-- The functions `intrusive_wptr` calls. -/
def weakApi : Api κ (Objects κ) where
  addRef := addWeakRef
  release := releaseWeak

/-- The call in `intrusive_wptr(T*)`, which does not test the pointer. -/
def addWeakRefTo (m : Objects κ) : Option κ → Objects κ
  | some p => m.addWeakRef p
  | none => m.nullCall

/-- The call in `intrusive_wptr::lock`, which does not test the pointer. -/
def lockTo (m : Objects κ) : Option κ → Objects κ × Bool
  | some p => m.lock p
  | none => (m.nullCall, false)

end Objects

/-- The variables of both kinds, the objects and the references the caller still owns. -/
structure State (ν : Type u) (ω : Type w) (κ : Type v) where
  strong : Variables (Option ν) κ
  weak : Variables (Option ω) κ
  memory : Objects κ
  owned : κ → Nat

namespace State

variable {ν : Type u} {ω : Type w} {κ : Type v}

/-- New objects. -/
def start : State ν ω κ where
  strong := .empty
  weak := .empty
  memory :=
    { references := fun _ => referenceCount 1 1
      destructed := fun _ => false
      freed := fun _ => false
      undefined := false }
  owned := fun _ => 1

/-- The variables of type `intrusive_ptr` and the objects. -/
def strongStore (s : State ν ω κ) : Store ν κ (Objects κ) where
  vars := s.strong
  memory := s.memory

/-- The variables of type `intrusive_wptr` and the objects. -/
def weakStore (s : State ν ω κ) : Store ω κ (Objects κ) where
  vars := s.weak
  memory := s.memory

def withStrong (s : State ν ω κ) (h : Store ν κ (Objects κ)) : State ν ω κ :=
  { s with strong := h.vars, memory := h.memory }

def withWeak (s : State ν ω κ) (h : Store ω κ (Objects κ)) : State ν ω κ :=
  { s with weak := h.vars, memory := h.memory }

variable [DecidableEq ν] [DecidableEq ω] [DecidableEq κ]

/-- The strong references to an object, of variables and of the caller. -/
def strongRefs (s : State ν ω κ) : κ → Nat :=
  s.strongStore.refs s.owned

/-- The weak references to an object. -/
def weakRefs (s : State ν ω κ) : κ → Nat :=
  s.weakStore.refs fun _ => 0

/-- The caller gives up its reference to what is adopted. -/
def give (s : State ν ω κ) (q : Option κ) : State ν ω κ :=
  { s with owned := giveUp s.owned q }

/-- A new weak variable from `weak()` of a strong one. -/
def makeWeak (s : State ν ω κ) (a : ω) (b : ν) : State ν ω κ :=
  { s with
    weak := s.weak.declare a (s.strong.ptr b)
    memory := s.memory.addWeakRefTo (s.strong.ptr b) }

/-- A new strong variable from `lock()` of a weak one. -/
def lock (s : State ν ω κ) (a : ν) (b : ω) : State ν ω κ :=
  let q := s.weak.ptr b
  let result := s.memory.lockTo q
  { s with
    strong := s.strong.declare a (if result.2 then q else none)
    memory := result.1 }

end State

/-- The operations on variables of both kinds; an adopted pointer may be null. -/
inductive Event (ν : Type u) (ω : Type w) (κ : Type v) where
  | strong (e : Operation ν)
  | adopt (a : ν) (q : Option κ)
  | addRef (a : ν) (q : Option κ)
  | adoptAssign (a : ν) (q : Option κ)
  | weak (e : Operation ω)
  | makeWeak (a : ω) (b : ν)
  | lock (a : ν) (b : ω)
deriving DecidableEq

namespace Event

variable {ν : Type u} {ω : Type w} {κ : Type v}
variable [DecidableEq ν] [DecidableEq ω] [DecidableEq κ]

def Allowed (s : State ν ω κ) : Event ν ω κ → Prop
  | strong e => e.Allowed s.strongStore
  | adopt a q => some a ∉ s.strong.declared ∧ ∀ p ∈ q, 0 < s.owned p
  | addRef a q => some a ∉ s.strong.declared ∧ ∀ p ∈ q, 0 < s.strongRefs p
  | adoptAssign a q => some a ∈ s.strong.declared ∧ ∀ p ∈ q, 0 < s.owned p
  | weak e => e.Allowed s.weakStore
  | makeWeak a b => some a ∉ s.weak.declared ∧ some b ∈ s.strong.declared
  | lock a b => some a ∉ s.strong.declared ∧ some b ∈ s.weak.declared

instance decidableAllowed (s : State ν ω κ) :
    ∀ e : Event ν ω κ, Decidable (e.Allowed s)
  | strong e => inferInstanceAs (Decidable (e.Allowed s.strongStore))
  | adopt a q =>
      inferInstanceAs (Decidable (some a ∉ s.strong.declared ∧ ∀ p ∈ q, 0 < s.owned p))
  | addRef a q =>
      inferInstanceAs (Decidable (some a ∉ s.strong.declared ∧ ∀ p ∈ q, 0 < s.strongRefs p))
  | adoptAssign a q =>
      inferInstanceAs (Decidable (some a ∈ s.strong.declared ∧ ∀ p ∈ q, 0 < s.owned p))
  | weak e => inferInstanceAs (Decidable (e.Allowed s.weakStore))
  | makeWeak a b =>
      inferInstanceAs (Decidable (some a ∉ s.weak.declared ∧ some b ∈ s.strong.declared))
  | lock a b =>
      inferInstanceAs (Decidable (some a ∉ s.strong.declared ∧ some b ∈ s.weak.declared))

def apply (s : State ν ω κ) : Event ν ω κ → State ν ω κ
  | strong e => s.withStrong (e.apply Objects.strongApi s.strongStore)
  | adopt a q => (s.withStrong (s.strongStore.construct a q)).give q
  | addRef a q => s.withStrong (s.strongStore.constructAddRef Objects.strongApi a q)
  | adoptAssign a q =>
      (s.withStrong (s.strongStore.adoptAssign Objects.strongApi a q)).give q
  | weak e => s.withWeak (e.apply Objects.weakApi s.weakStore)
  | makeWeak a b => s.makeWeak a b
  | lock a b => s.lock a b

end Event

variable {ν : Type u} {ω : Type w} {κ : Type v}
variable [DecidableEq ν] [DecidableEq ω] [DecidableEq κ]

/-- All sequences of operations until a call has no defined meaning. -/
def weakHandles : System (State ν ω κ) (Event ν ω κ) where
  init := fun s => s = .start
  guard := fun s e => s.memory.undefined = false ∧ e.Allowed s
  next := Event.apply

instance decidableEventGuard (s : State ν ω κ) (e : Event ν ω κ) :
    Decidable (weakHandles.guard s e) :=
  inferInstanceAs (Decidable (s.memory.undefined = false ∧ e.Allowed s))

section Counts

/--
Every object counts the references to it, with one weak count for all strong
ones, and its storage is freed when there is none left.
-/
structure Balanced (m : Objects κ) (strong weak : κ → Nat) : Prop where
  packed : ∀ p, Packed (m.references p) (strong p)
    (weak p + if strong p = 0 then 0 else 1)
  freed : ∀ p, m.freed p = true ↔ strong p = 0 ∧ weak p = 0
  defined : m.undefined = false

variable {m : Objects κ} {strong weak : κ → Nat} {p : κ}

omit [DecidableEq κ] in
theorem Balanced.freed_false
    (hm : Balanced m strong weak)
    (hp : 0 < strong p ∨ 0 < weak p) :
    m.freed p = false := by
  rw [← Bool.not_eq_true, hm.freed p]
  omega

/-- A function that stores a word in an object, and frees it if nothing is left. -/
theorem Balanced.of_word
    {m' : Objects κ} {v : BitVec 64} {n k : Nat}
    (hm : Balanced m strong weak)
    (hp : m.freed p = false)
    (hv : Packed v n (k + if n = 0 then 0 else 1))
    (hreferences : m'.references = Function.update m.references p v)
    (hfreed : m'.freed p = true ↔ n = 0 ∧ k = 0)
    (hother : ∀ p', p' ≠ p → m'.freed p' = m.freed p')
    (hdefined : m'.undefined = (m.undefined || m.freed p)) :
    Balanced m' (Function.update strong p n) (Function.update weak p k) := by
  constructor
  · intro p'
    rw [hreferences]
    rcases eq_or_ne p' p with rfl | hne
    · simpa only [Function.update_self] using hv
    · simpa only [Function.update_of_ne hne] using hm.packed p'
  · intro p'
    rcases eq_or_ne p' p with rfl | hne
    · simpa only [Function.update_self] using hfreed
    · rw [hother p' hne, Function.update_of_ne hne, Function.update_of_ne hne]
      exact hm.freed p'
  · rw [hdefined, hm.defined, hp]
    rfl

/-- A word that still counts a reference. -/
theorem Balanced.write
    {v : BitVec 64} {n k : Nat}
    (hm : Balanced m strong weak)
    (hp : m.freed p = false)
    (hv : Packed v n (k + if n = 0 then 0 else 1))
    (hleft : 0 < n ∨ 0 < k) :
    Balanced (m.write p v) (Function.update strong p n) (Function.update weak p k) := by
  refine hm.of_word hp hv rfl ?_ (fun _ _ => rfl) rfl
  exact iff_of_false (by simp [Objects.write, hp]) (by omega)

theorem balanced_addRef
    (hm : Balanced m strong weak)
    (hpos : 0 < strong p)
    (hlt : strong p < 2 ^ 32 - 1) :
    Balanced (m.addRef p) (Function.update strong p (strong p + 1)) weak := by
  have hpacked := hm.packed p
  rw [if_neg (by omega)] at hpacked
  have hv := hpacked.addRef (by omega)
  have hstep := hm.write (n := strong p + 1) (k := weak p)
    (hm.freed_false (Or.inl hpos)) (by rwa [if_neg (by omega)]) (Or.inl (by omega))
  rwa [Function.update_eq_self] at hstep

theorem balanced_addWeakRef
    (hm : Balanced m strong weak)
    (halive : 0 < strong p ∨ 0 < weak p)
    (hlt : weak p < 2 ^ 32 - 2) :
    Balanced (m.addWeakRef p) strong (Function.update weak p (weak p + 1)) := by
  have hv := (hm.packed p).addWeakRef (by split <;> omega)
  have hstep := hm.write (n := strong p) (k := weak p + 1)
    (hm.freed_false halive) (by rwa [Nat.add_right_comm] at hv) (Or.inr (by omega))
  rwa [Function.update_eq_self] at hstep

/-- Only the last strong reference gives up its weak count and ends the object. -/
theorem balanced_release
    (hm : Balanced m strong weak)
    (hpos : 0 < strong p) :
    Balanced (m.release p) (Function.update strong p (strong p - 1)) weak := by
  have hpacked := hm.packed p
  rw [if_neg (by omega)] at hpacked
  have hp := hm.freed_false (Or.inl hpos)
  obtain ⟨n, hn⟩ : ∃ n, strong p = n + 1 := ⟨strong p - 1, by omega⟩
  rw [hn] at hpacked
  rw [hn, Nat.add_sub_cancel, ← Function.update_eq_self p weak]
  rcases Nat.eq_zero_or_pos n with rfl | hleft
  · have hv := hpacked.releaseLast
    refine hm.of_word hp hv ?_ ?_ ?_ ?_
    · simp only [Objects.release, hv.strongCount_eq_zero_iff.mpr rfl, if_true]
      split <;> rfl
    · simp only [Objects.release, hv.strongCount_eq_zero_iff.mpr rfl, if_true,
        hv.weakCount_eq_zero_iff]
      split
      next h => exact iff_of_true (Function.update_self ..) ⟨trivial, h⟩
      next h => exact iff_of_false (by simp [Objects.write, hp]) fun h' => h h'.2
    · intro p' hne
      simp only [Objects.release, hv.strongCount_eq_zero_iff.mpr rfl, if_true]
      split
      next => exact Function.update_of_ne hne ..
      next => rfl
    · simp only [Objects.release, hv.strongCount_eq_zero_iff.mpr rfl, if_true]
      split <;> rfl
  · have hv := hpacked.release (by omega)
    have hne : strongCount (releaseDesired (m.references p)) ≠ 0 := by
      rw [Ne, hv.strongCount_eq_zero_iff]
      omega
    have hrelease : m.release p = m.write p (releaseDesired (m.references p)) := by
      simp only [Objects.release, if_neg hne]
    rw [hrelease]
    exact hm.write hp (by rwa [if_neg (by omega)]) (Or.inl hleft)

theorem balanced_releaseWeak
    (hm : Balanced m strong weak)
    (hpos : 0 < weak p) :
    Balanced (m.releaseWeak p) strong (Function.update weak p (weak p - 1)) := by
  have hp := hm.freed_false (Or.inr hpos)
  obtain ⟨k, hk⟩ : ∃ k, weak p = k + 1 := ⟨weak p - 1, by omega⟩
  have hpacked := hm.packed p
  rw [hk, Nat.add_right_comm] at hpacked
  have hv := hpacked.releaseWeak
  rw [hk, Nat.add_sub_cancel, ← Function.update_eq_self p strong]
  have hzero : releaseWeakDesired (m.references p) = 0 ↔ strong p = 0 ∧ k = 0 := by
    rw [hv.eq_zero_iff]
    refine and_congr_right fun h => ?_
    rw [if_pos h, Nat.add_zero]
  refine hm.of_word hp hv ?_ ?_ ?_ ?_
  · simp only [Objects.releaseWeak]
    split <;> rfl
  · simp only [Objects.releaseWeak, hzero]
    split
    next h => exact iff_of_true (Function.update_self ..) h
    next h => exact iff_of_false (by simp [Objects.write, hp]) h
  · intro p' hne
    simp only [Objects.releaseWeak]
    split
    next => exact Function.update_of_ne hne ..
    next => rfl
  · simp only [Objects.releaseWeak]
    split <;> rfl

/-- `lock` of a weak reference succeeds exactly if a strong one is left. -/
theorem balanced_lock
    (hm : Balanced m strong weak)
    (hpos : 0 < weak p)
    (hlt : strong p < 2 ^ 32 - 1) :
    ((m.lock p).2 = false ∧ strong p = 0 ∧ Balanced (m.lock p).1 strong weak) ∨
    ((m.lock p).2 = true ∧ 0 < strong p ∧
      Balanced (m.lock p).1 (Function.update strong p (strong p + 1)) weak) := by
  have hp := hm.freed_false (Or.inr hpos)
  have hfails := (hm.packed p).lockFails_iff
  rcases Nat.eq_zero_or_pos (strong p) with hzero | hstrong
  · refine Or.inl ⟨?_, hzero, ?_⟩
    · simp only [Objects.lock, if_pos (hfails.mpr hzero)]
    · simp only [Objects.lock, if_pos (hfails.mpr hzero)]
      have hstep := hm.write hp (hm.packed p) (Or.inr hpos)
      rwa [Function.update_eq_self, Function.update_eq_self] at hstep
  · have hnot : ¬ lockFails (m.references p) := fun h => by
      have hzero := hfails.mp h
      omega
    refine Or.inr ⟨?_, hstrong, ?_⟩
    · simp only [Objects.lock, if_neg hnot]
    · simp only [Objects.lock, if_neg hnot]
      have hv := (hm.packed p).lock (by omega)
      rw [if_neg (by omega)] at hv
      have hstep := hm.write (n := strong p + 1) (k := weak p) hp
        (by rwa [if_neg (by omega)]) (Or.inl (by omega))
      rwa [Function.update_eq_self p weak] at hstep

theorem accounting_strong
    (weak : κ → Nat) :
    Accounting (Objects.strongApi (κ := κ)) (fun m strong => Balanced m strong weak)
      (2 ^ 32 - 1) where
  addRef := fun _ _ _ hm hpos hlt => balanced_addRef hm hpos hlt
  release := fun _ _ _ hm hpos => balanced_release hm hpos

theorem accounting_weak
    (strong : κ → Nat) :
    Accounting (Objects.weakApi (κ := κ)) (fun m weak => Balanced m strong weak)
      (2 ^ 32 - 2) where
  addRef := fun _ _ _ hm hpos hlt => balanced_addWeakRef hm (Or.inr hpos) hlt
  release := fun _ _ _ hm hpos => balanced_releaseWeak hm hpos

end Counts

section Safety

variable {tr : List (Event ν ω κ)} {s : State ν ω κ} {e : Event ν ω κ}

/--
No call was undefined; every object counts its strong references, and its storage
is freed exactly when no reference of either kind is left.
-/
structure Safe (s : State ν ω κ) : Prop where
  defined : s.memory.undefined = false
  count : ∀ p, (strongCount (s.memory.references p)).toNat = s.strongRefs p
  freed : ∀ p, s.memory.freed p = true ↔ s.strongRefs p = 0 ∧ s.weakRefs p = 0

/--
What `weak()` and `lock()` return: a handle to the same object, or an empty one if
there is none; a successful `lock()` counts one strong reference more.
-/
def HandlesRight (s s' : State ν ω κ) : Event ν ω κ → Prop
  | .makeWeak a b => s'.weak.ptr a = s.strong.ptr b
  | .lock a b =>
      s'.strong.ptr a = (s.weak.ptr b).filter (fun p => s.strongRefs p ≠ 0) ∧
      ∀ p, (strongCount (s'.memory.references p)).toNat =
        (strongCount (s.memory.references p)).toNat + points (s'.strong.ptr a) p
  | _ => True

/-- The state after a trace. -/
def after (tr : List (Event ν ω κ)) : State ν ω κ :=
  weakHandles.exec .start tr

/-- After a step everything is safe, and it returned the right handle. -/
def SafeStep (past : List (Event ν ω κ)) (e : Event ν ω κ) : Prop :=
  Safe (after (past ++ [e])) ∧ HandlesRight (after past) (after (past ++ [e])) e

/-- Each object has fewer references than either half of the word can count. -/
def Few (s : State ν ω κ) (_ : Event ν ω κ) : Prop :=
  ∀ p, s.strongRefs p < 2 ^ 32 - 1 ∧ s.weakRefs p < 2 ^ 32 - 2

instance decidableFew [Fintype κ] (s : State ν ω κ) (e : Event ν ω κ) :
    Decidable (Few s e) :=
  inferInstanceAs (Decidable
    (∀ p, s.strongRefs p < 2 ^ 32 - 1 ∧ s.weakRefs p < 2 ^ 32 - 2))

/-- `weak()` and `lock()` are called on variables that are not empty. -/
def OnObject (s : State ν ω κ) : Event ν ω κ → Prop
  | .makeWeak _ b => s.strong.ptr b ≠ none
  | .lock _ b => s.weak.ptr b ≠ none
  | _ => True

/-- What holds between the operations. -/
structure Consistent (s : State ν ω κ) : Prop where
  strongTemporary : none ∉ s.strong.declared
  weakTemporary : none ∉ s.weak.declared
  balanced : Balanced s.memory s.strongRefs s.weakRefs

omit [DecidableEq ν] [DecidableEq ω] in
theorem Consistent.safe
    (hs : Consistent s) :
    Safe s where
  defined := hs.balanced.defined
  count := fun p => (hs.balanced.packed p).strong
  freed := hs.balanced.freed

omit [DecidableEq ν] [DecidableEq ω] in
/-- Giving up references changes nothing but what the caller owns. -/
theorem consistent_give
    {h : Store ν κ (Objects κ)} {q : Option κ}
    (hstrong : none ∉ h.vars.declared)
    (hweak : none ∉ s.weak.declared)
    (hbalanced : Balanced h.memory (h.refs (s.give q).owned) s.weakRefs) :
    Consistent ((s.withStrong h).give q) :=
  ⟨hstrong, hweak, hbalanced⟩

omit [DecidableEq ν] in
theorem Consistent.makeWeak
    {a : ω} {b : ν} {p : κ}
    (hs : Consistent s)
    (hfew : Few s e)
    (ha : some a ∉ s.weak.declared)
    (hb : some b ∈ s.strong.declared)
    (hp : s.strong.ptr b = some p) :
    Consistent (s.makeWeak a b) := by
  have hpos : 0 < s.strongRefs p := Nat.add_pos_left (Variables.holders_pos hb hp) _
  have hrefs : (s.makeWeak a b).weakRefs =
      Function.update s.weakRefs p (s.weakRefs p + 1) :=
    Store.refs_of_declare_some (h := s.weakStore) (by rw [← hp]; rfl) ha
  refine ⟨hs.strongTemporary, ?_, ?_⟩
  · simpa [State.makeWeak, Variables.declare] using hs.weakTemporary
  · rw [hrefs]
    have hmemory : (s.makeWeak a b).memory = s.memory.addWeakRef p := by
      simp only [State.makeWeak, hp, Objects.addWeakRefTo]
    rw [hmemory]
    exact balanced_addWeakRef hs.balanced (Or.inl hpos) (hfew p).2

omit [DecidableEq ω] in
theorem Consistent.lock
    {a : ν} {b : ω} {p : κ}
    (hs : Consistent s)
    (hfew : Few s e)
    (ha : some a ∉ s.strong.declared)
    (hb : some b ∈ s.weak.declared)
    (hp : s.weak.ptr b = some p) :
    Consistent (s.lock a b) ∧ HandlesRight s (s.lock a b) (.lock a b) := by
  have hpos : 0 < s.weakRefs p := Nat.add_pos_left (Variables.holders_pos hb hp) _
  have hptr : (s.lock a b).strong.ptr a = if (s.memory.lock p).2 then some p else none := by
    simp [State.lock, Variables.declare, hp, Objects.lockTo]
  have hvars : (s.lock a b).strong =
      s.strong.declare a (if (s.memory.lock p).2 then some p else none) := by
    simp [State.lock, hp, Objects.lockTo]
  have hmemory : (s.lock a b).memory = (s.memory.lock p).1 := by
    simp [State.lock, hp, Objects.lockTo]
  have htemporary : none ∉ (s.lock a b).strong.declared := by
    rw [hvars]
    simpa [Variables.declare] using hs.strongTemporary
  rcases balanced_lock hs.balanced hpos (hfew p).1 with
    ⟨hfails, hzero, hbalanced⟩ | ⟨hsucceeds, hstrong, hbalanced⟩
  · have hnone : (if (s.memory.lock p).2 then some p else none) = none := by simp [hfails]
    rw [hnone] at hptr hvars
    have hrefs : (s.lock a b).strongRefs = s.strongRefs :=
      Store.refs_of_declare_none (h := s.strongStore) hvars ha
    rw [← hmemory, ← hrefs] at hbalanced
    refine ⟨⟨htemporary, hs.weakTemporary, hbalanced⟩, ?_, fun p' => ?_⟩
    · rw [hptr, hp]
      simp [Option.filter, hzero]
    · rw [(hbalanced.packed p').strong, (hs.balanced.packed p').strong, hptr, hrefs]
      rfl
  · have hsome : (if (s.memory.lock p).2 then some p else none) = some p := by simp [hsucceeds]
    rw [hsome] at hptr hvars
    have hrefs : (s.lock a b).strongRefs =
        Function.update s.strongRefs p (s.strongRefs p + 1) :=
      Store.refs_of_declare_some (h := s.strongStore) hvars ha
    rw [← hmemory, ← hrefs] at hbalanced
    refine ⟨⟨htemporary, hs.weakTemporary, hbalanced⟩, ?_, fun p' => ?_⟩
    · rw [hptr, hp]
      simp [Option.filter, Nat.pos_iff_ne_zero.mp hstrong]
    · rw [(hbalanced.packed p').strong, (hs.balanced.packed p').strong, hptr, hrefs]
      rcases eq_or_ne p' p with rfl | hne
      · rw [Function.update_self, points_some_self]
      · rw [Function.update_of_ne hne, points_of_ne hne, Nat.add_zero]

/-- A step on an object keeps the counts and returns the right handle. -/
theorem Consistent.next
    (hs : Consistent s)
    (hfew : Few s e)
    (hguard : weakHandles.guard s e)
    (hok : OnObject s e) :
    Consistent (weakHandles.next s e) ∧ HandlesRight s (weakHandles.next s e) e := by
  obtain ⟨hstrong, hweak, hbalanced⟩ := hs
  obtain ⟨-, hallowed⟩ := hguard
  have hinsert (a : ν) : none ∉ insert (some a) s.strong.declared := by
    simp [hstrong]
  cases e with
  | strong e =>
      exact ⟨⟨e.temporary_apply (h := s.strongStore) _ hstrong, hweak,
        Operation.accounting (h := s.strongStore) (accounting_strong s.weakRefs)
          hbalanced (fun p => (hfew p).1) hstrong hallowed⟩, trivial⟩
  | adopt a q =>
      exact ⟨consistent_give (hinsert a) hweak
        (Accounting.construct (h := s.strongStore)
          (I := fun m strong => Balanced m strong s.weakRefs)
          hbalanced hallowed.1 (eq_giveUp_add_points hallowed.2)), trivial⟩
  | addRef a q =>
      exact ⟨⟨hinsert a, hweak,
        (accounting_strong s.weakRefs).constructAddRef (h := s.strongStore) hbalanced
          hallowed.1 fun p hp => ⟨hallowed.2 p hp, (hfew p).1⟩⟩, trivial⟩
  | adoptAssign a q =>
      have htemporary := Store.declared_adoptAssign (A := Objects.strongApi)
        (h := s.strongStore) (a := some a) (q := q) hstrong
      exact ⟨consistent_give (htemporary.symm ▸ hstrong) hweak
        ((accounting_strong s.weakRefs).adoptAssign (h := s.strongStore)
          hbalanced hstrong hallowed.1 (eq_giveUp_add_points hallowed.2)), trivial⟩
  | weak e =>
      exact ⟨⟨hstrong, e.temporary_apply (h := s.weakStore) _ hweak,
        Operation.accounting (h := s.weakStore) (accounting_weak s.strongRefs)
          hbalanced (fun p => (hfew p).2) hweak hallowed⟩, trivial⟩
  | makeWeak a b =>
      obtain ⟨p, hp⟩ := Option.ne_none_iff_exists'.mp hok
      exact ⟨Consistent.makeWeak ⟨hstrong, hweak, hbalanced⟩ hfew hallowed.1 hallowed.2 hp,
        Function.update_self ..⟩
  | lock a b =>
      obtain ⟨p, hp⟩ := Option.ne_none_iff_exists'.mp hok
      exact Consistent.lock ⟨hstrong, hweak, hbalanced⟩ hfew hallowed.1 hallowed.2 hp

/-- On an empty variable, `weak()` and `lock()` call a function with a null pointer. -/
theorem undefined_of_not_onObject
    (hempty : ¬ OnObject s e) :
    (weakHandles.next s e).memory.undefined = true := by
  cases e with
  | makeWeak a b =>
      have hb : s.strong.ptr b = none := not_not.mp hempty
      simp [weakHandles, Event.apply, State.makeWeak, hb, Objects.addWeakRefTo,
        Objects.nullCall]
  | lock a b =>
      have hb : s.weak.ptr b = none := not_not.mp hempty
      simp [weakHandles, Event.apply, State.lock, hb, Objects.lockTo, Objects.nullCall]
  | _ =>
      exact absurd trivial hempty

omit [DecidableEq ν] [DecidableEq ω] in
theorem consistent_start :
    Consistent (State.start : State ν ω κ) := by
  have hstrong (p : κ) : (State.start : State ν ω κ).strongRefs p = 1 := rfl
  have hweak (p : κ) : (State.start : State ν ω κ).weakRefs p = 0 := rfl
  refine ⟨Finset.notMem_empty _, Finset.notMem_empty _, fun p => ?_, fun p => ?_, rfl⟩
  · rw [hstrong, hweak]
    exact .of_toNat (by omega) rfl
  · rw [hstrong]
    exact iff_of_false Bool.false_ne_true fun h => Nat.one_ne_zero h.1

theorem after_of_run
    (hrun : (weakHandles.restrict Few).Run tr s) :
    after tr = s :=
  (hrun.of_restrict.eq_exec fun _ h => h).symm

theorem after_next
    (hrun : (weakHandles.restrict Few).Run tr s) :
    after (tr ++ [e]) = weakHandles.next s e := by
  rw [after, System.exec_append_singleton]
  exact congrArg (fun s => weakHandles.next s e) (after_of_run hrun)

theorem safeStep_iff
    (hrun : (weakHandles.restrict Few).Run tr s)
    (hguard : (weakHandles.restrict Few).guard s e)
    (hs : Consistent s) :
    SafeStep tr e ↔ OnObject s e := by
  rw [SafeStep, after_next hrun, after_of_run hrun]
  constructor
  · rintro ⟨hsafe, -⟩
    by_contra hempty
    have hundefined := undefined_of_not_onObject hempty
    exact absurd (hundefined.symm.trans hsafe.defined) (by decide)
  · intro hok
    obtain ⟨hnext, hright⟩ := hs.next hguard.2 hguard.1 hok
    exact ⟨hnext.safe, hright⟩

/--
With few references to each object, a run is safe exactly if `weak()` is never
called on an empty `intrusive_ptr` and `lock()` never on an empty
`intrusive_wptr`.
-/
theorem weak_handles_safe_iff
    (hrun : (weakHandles.restrict Few).Run tr s) :
    System.History SafeStep tr ↔ (weakHandles.restrict Few).Along OnObject .start tr := by
  refine hrun.history_iff_along (I := fun _ s => Consistent s) (fun _ h => h)
    consistent_start ?_ ?_
  · intro tr s e hrun hguard hs
    exact safeStep_iff hrun hguard hs
  · intro tr s e hrun hguard hs hsafe
    exact (hs.next hguard.2 hguard.1 ((safeStep_iff hrun hguard hs).mp hsafe)).1

/-- A weak handle is locked while its object exists and again when it is gone. -/
def lockedTwice : List (Event Bool Unit Unit) :=
  [.adopt false (some ()), .makeWeak () false, .lock true (), .strong (.reset false),
    .strong (.destroy true), .lock true (), .weak (.destroy ())]

theorem weak_handles_safe_lockedTwice :
    System.History SafeStep lockedTwice := by
  refine (weak_handles_safe_iff (s := (weakHandles.restrict Few).exec .start lockedTwice)
    (.of_enabled rfl (by decide +kernel))).mpr ⟨trivial, ?_, ?_, trivial, trivial, ?_, trivial,
      trivial⟩
  · exact Option.some_ne_none ()
  · exact Option.some_ne_none ()
  · exact Option.some_ne_none ()

/-- `weak()` of an empty `intrusive_ptr`. -/
def weakOfEmpty : List (Event Unit Unit Unit) :=
  [.strong (.construct ()), .makeWeak () ()]

theorem not_weak_handles_safe :
    ¬ ∀ (tr : List (Event Unit Unit Unit)) s, weakHandles.Run tr s →
      System.History SafeStep tr := by
  intro h
  have hrun : weakHandles.Run weakOfEmpty (after weakOfEmpty) :=
    .of_enabled rfl (by decide +kernel)
  have hsafe := (h weakOfEmpty _ hrun [.strong (.construct ())] (.makeWeak () ()) [] rfl).1
  exact absurd hsafe.defined (by decide +kernel)

end Safety

end WeakReference
end Ptl

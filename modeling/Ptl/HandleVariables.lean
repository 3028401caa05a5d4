import Mathlib.Data.Finset.Card
import Mathlib.Logic.Function.Basic

/-!
# Variables that hold counted handles

This module is a library for reference counting by the copy-and-swap idiom.  A
variable is declared or not, and a declared variable points to an object or is
empty.  The number of variables that point to an object changes by one with each
primitive operation; moves and swaps do not change it.

Handles of one kind are given by two operations on a memory, `addRef` and
`release`.  Copies call `addRef`, and the destruction of a variable calls
`release`; assignments are made of a temporary, a swap and the destruction of the
temporary.  The temporary is the variable `none`.

**Rules.**
* `holders_declare`, `holders_remove`, `holders_assign`, `holders_swap`: what the
  primitive operations do to the number of variables that point to an object.
* `Operation.accounting`: if `addRef` and `release` keep an invariant between the
  memory and the number of references of each object, every operation on
  variables keeps it; `Accounting.construct`, `Accounting.constructAddRef` and
  `Accounting.adoptAssign` say the same of pointers from outside, whose references are
  given up (`eq_giveUp_add_points`).
-/

namespace Ptl
namespace Handles

universe u v w

/-- The declared variables and what they point to. -/
structure Variables (ν : Type u) (κ : Type v) where
  declared : Finset ν
  ptr : ν → Option κ

/-- One if the handle points to the object. -/
def points {κ : Type v} [DecidableEq κ] (q : Option κ) (p : κ) : Nat :=
  if q = some p then 1 else 0

@[simp] theorem points_none {κ : Type v} [DecidableEq κ] (p : κ) :
    points none p = 0 := by
  rfl

@[simp] theorem points_some_self {κ : Type v} [DecidableEq κ] (p : κ) :
    points (some p) p = 1 := by
  simp [points]

theorem points_of_ne
    {κ : Type v} [DecidableEq κ] {p p' : κ}
    (hp : p' ≠ p) :
    points (some p) p' = 0 := by
  simp [points, Ne.symm hp]

/-- The references counted by `ext` without the one that is given up. -/
def giveUp {κ : Type v} [DecidableEq κ] (ext : κ → Nat) : Option κ → κ → Nat
  | some p => Function.update ext p (ext p - 1)
  | none => ext

theorem eq_giveUp_add_points
    {κ : Type v} [DecidableEq κ] {ext : κ → Nat} {q : Option κ}
    (hq : ∀ p ∈ q, 0 < ext p)
    (p : κ) :
    ext p = giveUp ext q p + points q p := by
  cases q with
  | none =>
      rfl
  | some p' =>
      rcases eq_or_ne p p' with rfl | hp
      · have hpos := hq p rfl
        simp only [giveUp, Function.update_self, points_some_self]
        omega
      · simp only [giveUp, Function.update_of_ne hp, points_of_ne hp, Nat.add_zero]

namespace Variables

variable {ν : Type u} {κ : Type v} [DecidableEq ν]

/-- No variable is declared. -/
def empty : Variables ν κ where
  declared := ∅
  ptr := fun _ => none

/-- A new variable. -/
def declare (x : Variables ν κ) (a : ν) (q : Option κ) : Variables ν κ where
  declared := insert a x.declared
  ptr := Function.update x.ptr a q

/-- The lifetime of a variable ends. -/
def remove (x : Variables ν κ) (a : ν) : Variables ν κ where
  declared := x.declared.erase a
  ptr := x.ptr

/-- A variable is given another pointer. -/
def assign (x : Variables ν κ) (a : ν) (q : Option κ) : Variables ν κ :=
  { x with ptr := Function.update x.ptr a q }

/-- Two variables exchange their pointers. -/
def swap (x : Variables ν κ) (a b : ν) : Variables ν κ :=
  (x.assign a (x.ptr b)).assign b (x.ptr a)

/-- A new variable takes the pointer of another one, which becomes empty. -/
def move (x : Variables ν κ) (a b : ν) : Variables ν κ :=
  (x.declare a (x.ptr b)).assign b none

variable [DecidableEq κ]

/-- The number of variables that point to the object. -/
def holders (x : Variables ν κ) (p : κ) : Nat :=
  (x.declared.filter fun a => x.ptr a = some p).card

variable {x : Variables ν κ} {a b : ν}

omit [DecidableEq ν] in
theorem holders_pos
    {p : κ}
    (ha : a ∈ x.declared)
    (hp : x.ptr a = some p) :
    0 < x.holders p :=
  Finset.card_pos.mpr ⟨a, Finset.mem_filter.mpr ⟨ha, hp⟩⟩

theorem holders_declare
    (ha : a ∉ x.declared)
    (q : Option κ) (p : κ) :
    (x.declare a q).holders p = x.holders p + points q p := by
  have hold : (x.declared.filter fun c => Function.update x.ptr a q c = some p) =
      x.declared.filter fun c => x.ptr c = some p := by
    refine Finset.filter_congr fun c hc => ?_
    have hca : c ≠ a := by
      rintro rfl
      exact ha hc
    rw [Function.update_of_ne hca]
  rw [holders, holders, declare, Finset.filter_insert, hold]
  simp only [Function.update_self]
  split
  next h =>
      rw [Finset.card_insert_of_notMem (by simp [ha]), points, if_pos h]
  next h =>
      rw [points, if_neg h, Nat.add_zero]

omit [DecidableEq κ] in
/-- A declared variable is what its removal takes away. -/
theorem declare_remove
    (ha : a ∈ x.declared) :
    (x.remove a).declare a (x.ptr a) = x := by
  simp [declare, remove, Finset.insert_erase ha]

theorem holders_remove
    (ha : a ∈ x.declared)
    (p : κ) :
    (x.remove a).holders p + points (x.ptr a) p = x.holders p := by
  have hdeclare := holders_declare (x := x.remove a) (a := a)
    (Finset.notMem_erase a x.declared) (x.ptr a) p
  rwa [declare_remove ha, eq_comm] at hdeclare

theorem holders_assign
    (ha : a ∈ x.declared)
    (q : Option κ) (p : κ) :
    (x.assign a q).holders p + points (x.ptr a) p = x.holders p + points q p := by
  have hassign : x.assign a q = (x.remove a).declare a q := by
    simp [assign, declare, remove, Finset.insert_erase ha]
  have hdeclare := holders_declare (x := x.remove a) (a := a)
    (Finset.notMem_erase a x.declared) q p
  have hremove := holders_remove ha p
  rw [hassign, hdeclare]
  omega

theorem holders_swap
    (ha : a ∈ x.declared)
    (hb : b ∈ x.declared)
    (p : κ) :
    (x.swap a b).holders p = x.holders p := by
  have hfirst := holders_assign ha (x.ptr b) p
  have hsecond := holders_assign (x := x.assign a (x.ptr b)) (a := b) hb (x.ptr a) p
  have hptr : (x.assign a (x.ptr b)).ptr b = x.ptr b := by
    rcases eq_or_ne b a with rfl | hba
    · simp [assign]
    · simp [assign, hba]
  rw [hptr] at hsecond
  rw [swap]
  omega

theorem holders_move
    (ha : a ∉ x.declared)
    (hb : b ∈ x.declared)
    (p : κ) :
    (x.move a b).holders p = x.holders p := by
  have hba : b ≠ a := by
    rintro rfl
    exact ha hb
  have hdeclare := holders_declare ha (x.ptr b) p
  have hassign := holders_assign (x := x.declare a (x.ptr b)) (a := b)
    (Finset.mem_insert_of_mem hb) none p
  have hptr : (x.declare a (x.ptr b)).ptr b = x.ptr b := by
    simp [declare, hba]
  rw [hptr, points_none] at hassign
  rw [move]
  omega

end Variables

/-- How a memory counts the handles to an object. -/
structure Api (κ : Type v) (μ : Type w) where
  addRef : μ → κ → μ
  release : μ → κ → μ

namespace Api

variable {κ : Type v} {μ : Type w}

/-- `addRef` of a handle that may be empty. -/
def retain (A : Api κ μ) (m : μ) : Option κ → μ
  | some p => A.addRef m p
  | none => m

/-- `release` of a handle that may be empty. -/
def drop (A : Api κ μ) (m : μ) : Option κ → μ
  | some p => A.release m p
  | none => m

end Api

/-- Variables over a memory; the variable `none` is the temporary of an assignment. -/
structure Store (ν : Type u) (κ : Type v) (μ : Type w) where
  vars : Variables (Option ν) κ
  memory : μ

namespace Store

variable {ν : Type u} {κ : Type v} {μ : Type w} [DecidableEq ν]

/-- A new variable takes over a reference that exists already, or is empty. -/
def construct (h : Store ν κ μ) (a : Option ν) (q : Option κ) : Store ν κ μ :=
  { h with vars := h.vars.declare a q }

/-- A new variable with a reference of its own. -/
def constructAddRef
    (A : Api κ μ) (h : Store ν κ μ) (a : Option ν) (q : Option κ) : Store ν κ μ where
  vars := h.vars.declare a q
  memory := A.retain h.memory q

def copyConstruct (A : Api κ μ) (h : Store ν κ μ) (a b : Option ν) : Store ν κ μ :=
  h.constructAddRef A a (h.vars.ptr b)

def moveConstruct (h : Store ν κ μ) (a b : Option ν) : Store ν κ μ :=
  { h with vars := h.vars.move a b }

def swap (h : Store ν κ μ) (a b : Option ν) : Store ν κ μ :=
  { h with vars := h.vars.swap a b }

def destroy (A : Api κ μ) (h : Store ν κ μ) (a : Option ν) : Store ν κ μ where
  vars := h.vars.remove a
  memory := A.drop h.memory (h.vars.ptr a)

/-- The temporary is swapped with the variable and destroyed. -/
def settle (A : Api κ μ) (h : Store ν κ μ) (a : Option ν) : Store ν κ μ :=
  (h.swap none a).destroy A none

def copyAssign (A : Api κ μ) (h : Store ν κ μ) (a b : Option ν) : Store ν κ μ :=
  (h.copyConstruct A none b).settle A a

def moveAssign (A : Api κ μ) (h : Store ν κ μ) (a b : Option ν) : Store ν κ μ :=
  (h.moveConstruct none b).settle A a

/-- Assignment of a pointer whose reference is taken over; `reset` assigns none. -/
def adoptAssign
    (A : Api κ μ) (h : Store ν κ μ) (a : Option ν) (q : Option κ) : Store ν κ μ :=
  (h.construct none q).settle A a

variable {A : Api κ μ} {h : Store ν κ μ} {a b : Option ν} {q : Option κ}

theorem declared_copyAssign
    (hnone : none ∉ h.vars.declared) :
    (h.copyAssign A a b).vars.declared = h.vars.declared :=
  Finset.erase_insert hnone

theorem declared_moveAssign
    (hnone : none ∉ h.vars.declared) :
    (h.moveAssign A a b).vars.declared = h.vars.declared :=
  Finset.erase_insert hnone

theorem declared_adoptAssign
    (hnone : none ∉ h.vars.declared) :
    (h.adoptAssign A a q).vars.declared = h.vars.declared :=
  Finset.erase_insert hnone

variable [DecidableEq κ]

/-- The references to an object: those of variables and those counted by `ext`. -/
def refs (h : Store ν κ μ) (ext : κ → Nat) (p : κ) : Nat :=
  h.vars.holders p + ext p

theorem refs_of_declare_some
    {h' : Store ν κ μ} {ext : κ → Nat} {p : κ}
    (hvars : h'.vars = h.vars.declare a (some p))
    (ha : a ∉ h.vars.declared) :
    h'.refs ext = Function.update (h.refs ext) p (h.refs ext p + 1) := by
  funext p'
  have hdeclare := Variables.holders_declare ha (some p) p'
  rw [refs, hvars]
  rcases eq_or_ne p' p with rfl | hp
  · rw [points_some_self] at hdeclare
    rw [Function.update_self, hdeclare, refs]
    omega
  · rw [points_of_ne hp, Nat.add_zero] at hdeclare
    rw [Function.update_of_ne hp, hdeclare, refs]

theorem refs_of_declare_none
    {h' : Store ν κ μ} {ext : κ → Nat}
    (hvars : h'.vars = h.vars.declare a none)
    (ha : a ∉ h.vars.declared) :
    h'.refs ext = h.refs ext := by
  funext p
  have hdeclare := Variables.holders_declare ha none p
  rw [points_none, Nat.add_zero] at hdeclare
  rw [refs, hvars, hdeclare, refs]

end Store

/--
`addRef` and `release` keep an invariant between the memory and the number of
references of each object, below a limit.
-/
structure Accounting
    {κ : Type v} {μ : Type w} [DecidableEq κ]
    (A : Api κ μ) (I : μ → (κ → Nat) → Prop) (limit : Nat) : Prop where
  addRef : ∀ m r p, I m r → 0 < r p → r p < limit →
    I (A.addRef m p) (Function.update r p (r p + 1))
  release : ∀ m r p, I m r → 0 < r p →
    I (A.release m p) (Function.update r p (r p - 1))

namespace Accounting

open Store

variable {ν : Type u} {κ : Type v} {μ : Type w} [DecidableEq ν] [DecidableEq κ]
variable {A : Api κ μ} {I : μ → (κ → Nat) → Prop} {limit : Nat}
variable {h : Store ν κ μ} {ext : κ → Nat} {a b : Option ν} {q : Option κ}

theorem construct
    {ext' : κ → Nat}
    (hI : I h.memory (h.refs ext))
    (ha : a ∉ h.vars.declared)
    (hext : ∀ p, ext p = ext' p + points q p) :
    I (h.construct a q).memory ((h.construct a q).refs ext') := by
  have hrefs : (h.construct a q).refs ext' = h.refs ext := by
    funext p
    have hdeclare := Variables.holders_declare ha q p
    have hp := hext p
    simp only [refs, Store.construct]
    omega
  rw [hrefs]
  exact hI

theorem constructAddRef
    (hA : Accounting A I limit)
    (hI : I h.memory (h.refs ext))
    (ha : a ∉ h.vars.declared)
    (hq : ∀ p, q = some p → 0 < h.refs ext p ∧ h.refs ext p < limit) :
    I (h.constructAddRef A a q).memory ((h.constructAddRef A a q).refs ext) := by
  cases q with
  | none =>
      exact construct hI ha fun p => by simp
  | some p =>
      obtain ⟨hpos, hlt⟩ := hq p rfl
      have hrefs : (h.constructAddRef A a (some p)).refs ext =
          Function.update (h.refs ext) p (h.refs ext p + 1) :=
        refs_of_declare_some rfl ha
      rw [hrefs]
      exact hA.addRef _ _ _ hI hpos hlt

theorem copyConstruct
    (hA : Accounting A I limit)
    (hI : I h.memory (h.refs ext))
    (hlimit : ∀ p, h.refs ext p < limit)
    (ha : a ∉ h.vars.declared)
    (hb : b ∈ h.vars.declared) :
    I (h.copyConstruct A a b).memory ((h.copyConstruct A a b).refs ext) := by
  refine hA.constructAddRef hI ha fun p hp => ⟨?_, hlimit p⟩
  exact Nat.add_pos_left (Variables.holders_pos hb hp) _

theorem moveConstruct
    (hI : I h.memory (h.refs ext))
    (ha : a ∉ h.vars.declared)
    (hb : b ∈ h.vars.declared) :
    I (h.moveConstruct a b).memory ((h.moveConstruct a b).refs ext) := by
  have hrefs : (h.moveConstruct a b).refs ext = h.refs ext := by
    funext p
    simp only [refs, Store.moveConstruct, Variables.holders_move ha hb]
  rw [hrefs]
  exact hI

theorem swap
    (hI : I h.memory (h.refs ext))
    (ha : a ∈ h.vars.declared)
    (hb : b ∈ h.vars.declared) :
    I (h.swap a b).memory ((h.swap a b).refs ext) := by
  have hrefs : (h.swap a b).refs ext = h.refs ext := by
    funext p
    simp only [refs, Store.swap, Variables.holders_swap ha hb]
  rw [hrefs]
  exact hI

theorem destroy
    (hA : Accounting A I limit)
    (hI : I h.memory (h.refs ext))
    (ha : a ∈ h.vars.declared) :
    I (h.destroy A a).memory ((h.destroy A a).refs ext) := by
  have hremove := Variables.holders_remove ha
  cases hq : h.vars.ptr a with
  | none =>
      have hrefs : (h.destroy A a).refs ext = h.refs ext := by
        funext p
        have hp := hremove p
        rw [hq, points_none, Nat.add_zero] at hp
        simp only [refs, Store.destroy, hp]
      rw [hrefs]
      simpa [Store.destroy, Api.drop, hq] using hI
  | some p =>
      have hpos : 0 < h.refs ext p := Nat.add_pos_left (Variables.holders_pos ha hq) _
      have hrefs : (h.destroy A a).refs ext =
          Function.update (h.refs ext) p (h.refs ext p - 1) := by
        funext p'
        have hp' := hremove p'
        rw [hq] at hp'
        change (h.vars.remove a).holders p' + ext p' = _
        rcases eq_or_ne p' p with rfl | hp
        · rw [points_some_self] at hp'
          rw [Function.update_self, refs]
          omega
        · rw [points_of_ne hp, Nat.add_zero] at hp'
          rw [Function.update_of_ne hp, hp', refs]
      rw [hrefs]
      simpa [Store.destroy, Api.drop, hq] using hA.release _ _ _ hI hpos

theorem settle
    (hA : Accounting A I limit)
    (hI : I h.memory (h.refs ext))
    (hnone : none ∈ h.vars.declared)
    (ha : a ∈ h.vars.declared) :
    I (h.settle A a).memory ((h.settle A a).refs ext) :=
  hA.destroy (swap hI hnone ha) hnone

theorem copyAssign
    (hA : Accounting A I limit)
    (hI : I h.memory (h.refs ext))
    (hlimit : ∀ p, h.refs ext p < limit)
    (hnone : none ∉ h.vars.declared)
    (ha : a ∈ h.vars.declared)
    (hb : b ∈ h.vars.declared) :
    I (h.copyAssign A a b).memory ((h.copyAssign A a b).refs ext) :=
  hA.settle (hA.copyConstruct hI hlimit hnone hb)
    (Finset.mem_insert_self ..) (Finset.mem_insert_of_mem ha)

theorem moveAssign
    (hA : Accounting A I limit)
    (hI : I h.memory (h.refs ext))
    (hnone : none ∉ h.vars.declared)
    (ha : a ∈ h.vars.declared)
    (hb : b ∈ h.vars.declared) :
    I (h.moveAssign A a b).memory ((h.moveAssign A a b).refs ext) :=
  hA.settle (moveConstruct hI hnone hb)
    (Finset.mem_insert_self ..) (Finset.mem_insert_of_mem ha)

theorem adoptAssign
    {ext' : κ → Nat}
    (hA : Accounting A I limit)
    (hI : I h.memory (h.refs ext))
    (hnone : none ∉ h.vars.declared)
    (ha : a ∈ h.vars.declared)
    (hext : ∀ p, ext p = ext' p + points q p) :
    I (h.adoptAssign A a q).memory ((h.adoptAssign A a q).refs ext') :=
  hA.settle (construct hI hnone hext)
    (Finset.mem_insert_self ..) (Finset.mem_insert_of_mem ha)

end Accounting

/-- The operations on variables that concern no pointers from outside. -/
inductive Operation (ν : Type u) where
  | construct (a : ν)
  | copyConstruct (a b : ν)
  | moveConstruct (a b : ν)
  | copyAssign (a b : ν)
  | moveAssign (a b : ν)
  | swap (a b : ν)
  | reset (a : ν)
  | destroy (a : ν)
deriving DecidableEq

namespace Operation

variable {ν : Type u} {κ : Type v} {μ : Type w} [DecidableEq ν]

/-- What is constructed is not declared yet, all other variables are. -/
def Allowed (h : Store ν κ μ) : Operation ν → Prop
  | construct a => some a ∉ h.vars.declared
  | copyConstruct a b => some a ∉ h.vars.declared ∧ some b ∈ h.vars.declared
  | moveConstruct a b => some a ∉ h.vars.declared ∧ some b ∈ h.vars.declared
  | copyAssign a b => some a ∈ h.vars.declared ∧ some b ∈ h.vars.declared
  | moveAssign a b => some a ∈ h.vars.declared ∧ some b ∈ h.vars.declared
  | swap a b => some a ∈ h.vars.declared ∧ some b ∈ h.vars.declared
  | reset a => some a ∈ h.vars.declared
  | destroy a => some a ∈ h.vars.declared

instance decidableAllowed (h : Store ν κ μ) :
    ∀ e : Operation ν, Decidable (e.Allowed h)
  | construct a => inferInstanceAs (Decidable (some a ∉ h.vars.declared))
  | copyConstruct a b =>
      inferInstanceAs (Decidable (some a ∉ h.vars.declared ∧ some b ∈ h.vars.declared))
  | moveConstruct a b =>
      inferInstanceAs (Decidable (some a ∉ h.vars.declared ∧ some b ∈ h.vars.declared))
  | copyAssign a b =>
      inferInstanceAs (Decidable (some a ∈ h.vars.declared ∧ some b ∈ h.vars.declared))
  | moveAssign a b =>
      inferInstanceAs (Decidable (some a ∈ h.vars.declared ∧ some b ∈ h.vars.declared))
  | swap a b =>
      inferInstanceAs (Decidable (some a ∈ h.vars.declared ∧ some b ∈ h.vars.declared))
  | reset a => inferInstanceAs (Decidable (some a ∈ h.vars.declared))
  | destroy a => inferInstanceAs (Decidable (some a ∈ h.vars.declared))

def apply (A : Api κ μ) (h : Store ν κ μ) : Operation ν → Store ν κ μ
  | construct a => h.construct a none
  | copyConstruct a b => h.copyConstruct A a b
  | moveConstruct a b => h.moveConstruct a b
  | copyAssign a b => h.copyAssign A a b
  | moveAssign a b => h.moveAssign A a b
  | swap a b => h.swap a b
  | reset a => h.adoptAssign A a none
  | destroy a => h.destroy A a

variable {h : Store ν κ μ} {e : Operation ν}

/-- No operation leaves the temporary declared. -/
theorem temporary_apply
    (A : Api κ μ)
    (hnone : none ∉ h.vars.declared) :
    none ∉ (e.apply A h).vars.declared := by
  have hinsert (a : ν) : none ∉ insert (some a) h.vars.declared := by
    simp [hnone]
  cases e with
  | construct a =>
      exact hinsert a
  | copyConstruct a b =>
      exact hinsert a
  | moveConstruct a b =>
      exact hinsert a
  | copyAssign a b =>
      exact (Store.declared_copyAssign hnone).symm ▸ hnone
  | moveAssign a b =>
      exact (Store.declared_moveAssign hnone).symm ▸ hnone
  | swap a b =>
      exact hnone
  | reset a =>
      exact (Store.declared_adoptAssign hnone).symm ▸ hnone
  | destroy a =>
      exact fun h => hnone (Finset.mem_of_mem_erase h)

/-- Every operation keeps the account. -/
theorem accounting
    [DecidableEq κ]
    {A : Api κ μ} {I : μ → (κ → Nat) → Prop} {limit : Nat} {ext : κ → Nat}
    (hA : Accounting A I limit)
    (hI : I h.memory (h.refs ext))
    (hlimit : ∀ p, h.refs ext p < limit)
    (hnone : none ∉ h.vars.declared)
    (hallowed : e.Allowed h) :
    I (e.apply A h).memory ((e.apply A h).refs ext) := by
  cases e with
  | construct a =>
      exact Accounting.construct hI hallowed fun _ => rfl
  | copyConstruct a b =>
      exact hA.copyConstruct hI hlimit hallowed.1 hallowed.2
  | moveConstruct a b =>
      exact Accounting.moveConstruct hI hallowed.1 hallowed.2
  | copyAssign a b =>
      exact hA.copyAssign hI hlimit hnone hallowed.1 hallowed.2
  | moveAssign a b =>
      exact hA.moveAssign hI hnone hallowed.1 hallowed.2
  | swap a b =>
      exact Accounting.swap hI hallowed.1 hallowed.2
  | reset a =>
      exact hA.adoptAssign hI hnone hallowed fun _ => rfl
  | destroy a =>
      exact hA.destroy hI hallowed

end Operation

end Handles
end Ptl

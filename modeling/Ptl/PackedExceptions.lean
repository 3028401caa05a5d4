import Ptl.HandleVariables
import Ptl.PackedPtr
import Ptl.TransitionSystem

/-!
# Exceptions in a `PackedPtr`

`std::exception_ptr` shares the ownership of an exception object, which exists as long
as some `exception_ptr` refers to it.  The two specialisations of `PackedPtr` for it
copy the bits of their argument with `*(uintptr_t *)&ptr`, and `get()` makes an
`exception_ptr` of the bits by `*(std::exception_ptr *)(&ptr)`.

This module runs them together with variables of type `exception_ptr`.  The argument of
`set` is passed by value: it is the variable `none`, which is destroyed at the end of the
call.  A program whose behaviour is undefined makes no further step.

**Results.**
* `get_exec`: `get()` finds the bits of the exception that was given to the last `set`.
* `packed_owns_nothing`: an exception exists exactly as long as a variable refers to it,
  whatever the packed pointers hold, and a run is defined exactly if every `get()` finds
  null or an exception that a variable still refers to.
-/

namespace Ptl
namespace PackedPtr

open Handles Transition

universe u v w

/-- The specialisations for `std::exception_ptr`, by the type of the value. -/
inductive Form where
  | value
  | bool
deriving DecidableEq

namespace Form

def get : Form → BitVec 64 → BitVec 64
  | value => ExceptionValue.get
  | bool => ExceptionBool.get

def set : Form → BitVec 64 → BitVec 64 → BitVec 64
  | value => ExceptionValue.set
  | bool => ExceptionBool.set

/-- The arguments of `set_value` and, where it exists, of `set_small`. -/
def Scalar : Form → Type
  | value => BitVec 16 ⊕ BitVec 8
  | bool => Bool

def write : (X : Form) → X.Scalar → BitVec 64 → BitVec 64
  | value, .inl v => ExceptionValue.setValue v
  | value, .inr n => ExceptionValue.setSmall n
  | bool, b => ExceptionBool.setValue b

theorem get_set
    (X : Form) {p : BitVec 64}
    (hp : Address p)
    (data : BitVec 64) :
    X.get (X.set p data) = p := by
  cases X with
  | value =>
      exact ExceptionValue.fields.get_set .ptr p data hp
  | bool =>
      exact ExceptionBool.fields.get_set .ptr p data hp.1

theorem get_write (X : Form) (v : X.Scalar) (data : BitVec 64) :
    X.get (X.write v data) = X.get data := by
  cases X with
  | value =>
      rcases v with v | n
      · exact ExceptionValue.fields.get_set_of_ne .ptr .value v data (by decide)
      · exact ExceptionValue.fields.get_set_of_ne .ptr .small n data (by decide)
  | bool =>
      exact ExceptionBool.fields.get_set_of_ne .ptr .value v data (by decide)

end Form

/-- Where the exception objects are. -/
structure Addresses (κ : Type v) where
  address : κ → BitVec 64
  find : BitVec 64 → Option κ
  valid : ∀ p, Address (address p)
  find_address : ∀ p, find (address p) = some p
  find_zero : find 0 = none

namespace Addresses

variable {κ : Type v} (A : Addresses κ)

/-- The bits of an `exception_ptr`. -/
def word : Option κ → BitVec 64
  | some p => A.address p
  | none => 0

theorem find_word (q : Option κ) :
    A.find (A.word q) = q := by
  cases q with
  | none =>
      exact A.find_zero
  | some p =>
      exact A.find_address p

theorem valid_word (q : Option κ) :
    Address (A.word q) := by
  cases q with
  | none =>
      exact (by decide : (0#64).toNat < 2 ^ 48 ∧ 8 ∣ (0#64).toNat)
  | some p =>
      exact A.valid p

end Addresses

/-- The exception objects with the number of references that are counted in them. -/
structure Exceptions (κ : Type v) where
  references : κ → Nat
  made : κ → Bool
  undefined : Bool

namespace Exceptions

variable {κ : Type v} [DecidableEq κ]

/-- A new exception with one reference. -/
def make (m : Exceptions κ) (p : κ) : Exceptions κ :=
  { m with
    references := Function.update m.references p 1
    made := Function.update m.made p true }

/-- A copy of an `exception_ptr`; an exception without references has been destroyed. -/
def addRef (m : Exceptions κ) (p : κ) : Exceptions κ :=
  { m with
    references := Function.update m.references p (m.references p + 1)
    undefined := m.undefined || decide (m.references p = 0) }

/-- The destruction of an `exception_ptr`. -/
def release (m : Exceptions κ) (p : κ) : Exceptions κ :=
  { m with
    references := Function.update m.references p (m.references p - 1)
    undefined := m.undefined || decide (m.references p = 0) }

def api : Api κ (Exceptions κ) where
  addRef := addRef
  release := release

end Exceptions

/-- The variables of type `exception_ptr` and the words of the packed pointers. -/
structure State (ν : Type u) (π : Type w) (κ : Type v) where
  store : Store ν κ (Exceptions κ)
  words : π → BitVec 64

/-- The argument of `set`: a variable, a variable that is moved, or a new exception. -/
inductive Source (ν : Type u) (κ : Type v) where
  | copy (a : ν)
  | move (a : ν)
  | fresh (p : κ)
deriving DecidableEq

/-- The operations; `get` initialises a variable, and `assign` copies a packed pointer. -/
inductive Event (X : Form) (ν : Type u) (π : Type w) (κ : Type v) where
  | operation (e : Handles.Operation ν)
  | make (a : ν) (p : κ)
  | set (i : π) (x : Source ν κ)
  | get (a : ν) (i : π)
  | write (i : π) (v : X.Scalar)
  | assign (i j : π)

namespace Source

variable {ν : Type u} {κ : Type v} [DecidableEq ν] [DecidableEq κ]

def Allowed (h : Store ν κ (Exceptions κ)) : Source ν κ → Prop
  | copy a => some a ∈ h.vars.declared
  | move a => some a ∈ h.vars.declared
  | fresh p => h.memory.made p = false

instance decidableAllowed (h : Store ν κ (Exceptions κ)) :
    ∀ x : Source ν κ, Decidable (x.Allowed h)
  | copy a => inferInstanceAs (Decidable (some a ∈ h.vars.declared))
  | move a => inferInstanceAs (Decidable (some a ∈ h.vars.declared))
  | fresh p => inferInstanceAs (Decidable (h.memory.made p = false))

/-- The initialisation of the parameter. -/
def pass (h : Store ν κ (Exceptions κ)) : Source ν κ → Store ν κ (Exceptions κ)
  | copy a => h.copyConstruct Exceptions.api none (some a)
  | move a => h.moveConstruct none (some a)
  | fresh p => { h with memory := h.memory.make p }.construct none (some p)

/-- What the parameter refers to. -/
def argument (h : Store ν κ (Exceptions κ)) (x : Source ν κ) : Option κ :=
  (x.pass h).vars.ptr none

end Source

namespace State

variable {ν : Type u} {π : Type w} {κ : Type v}

def start : State ν π κ where
  store :=
    { vars := .empty
      memory := { references := fun _ => 0, made := fun _ => false, undefined := false } }
  words := fun _ => 0

variable [DecidableEq ν] [DecidableEq κ]

/-- A variable is initialised with `std::make_exception_ptr`. -/
def make (s : State ν π κ) (a : ν) (p : κ) : State ν π κ :=
  { s with store := { s.store with memory := s.store.memory.make p }.construct (some a) (some p) }

def get (X : Form) (A : Addresses κ) (s : State ν π κ) (a : ν) (i : π) : State ν π κ :=
  { s with
    store := s.store.constructAddRef Exceptions.api (some a) (A.find (X.get (s.words i))) }

variable [DecidableEq π]

def setWord (s : State ν π κ) (i : π) (data : BitVec 64) : State ν π κ :=
  { s with words := Function.update s.words i data }

def set (X : Form) (A : Addresses κ) (s : State ν π κ) (i : π) (x : Source ν κ) : State ν π κ where
  store := (x.pass s.store).destroy Exceptions.api none
  words := Function.update s.words i (X.set (A.word (x.argument s.store)) (s.words i))

end State

section System

variable {ν : Type u} {π : Type w} {κ : Type v} [DecidableEq ν] [DecidableEq π] [DecidableEq κ]
variable (X : Form) (A : Addresses κ)

/-- All sequences of operations up to one whose behaviour is undefined. -/
def packed : System (State ν π κ) (Event X ν π κ) where
  init := fun s => s = .start
  guard := fun s e =>
    s.store.memory.undefined = false ∧
      match e with
      | .operation e => e.Allowed s.store
      | .make a p => some a ∉ s.store.vars.declared ∧ s.store.memory.made p = false
      | .set _ x => x.Allowed s.store
      | .get a _ => some a ∉ s.store.vars.declared
      | .write _ _ => True
      | .assign _ _ => True
  next := fun s e =>
    match e with
    | .operation e => { s with store := e.apply Exceptions.api s.store }
    | .make a p => s.make a p
    | .set i x => s.set X A i x
    | .get a i => s.get X A a i
    | .write i v => s.setWord i (X.write v (s.words i))
    | .assign i j => s.setWord i (s.words j)

instance decidablePackedGuard (s : State ν π κ) (e : Event X ν π κ) :
    Decidable ((packed X A).guard s e) :=
  match e with
  | .operation e => inferInstanceAs (Decidable (_ ∧ e.Allowed s.store))
  | .make a p =>
      inferInstanceAs (Decidable
        (_ ∧ some a ∉ s.store.vars.declared ∧ s.store.memory.made p = false))
  | .set _ x => inferInstanceAs (Decidable (_ ∧ x.Allowed s.store))
  | .get a _ => inferInstanceAs (Decidable (_ ∧ some a ∉ s.store.vars.declared))
  | .write _ _ => inferInstanceAs (Decidable (_ ∧ True))
  | .assign _ _ => inferInstanceAs (Decidable (_ ∧ True))

/-- `get()` finds null or an exception that a variable refers to. -/
def FindsHeld (s : State ν π κ) (e : Event X ν π κ) : Prop :=
  match e with
  | .get _ i => ∀ p ∈ A.find (X.get (s.words i)), 0 < s.store.vars.holders p
  | _ => True

instance decidableFindsHeld (s : State ν π κ) (e : Event X ν π κ) :
    Decidable (FindsHeld X A s e) :=
  match e with
  | .get _ i =>
      inferInstanceAs (Decidable (∀ p ∈ A.find (X.get (s.words i)), 0 < s.store.vars.holders p))
  | .operation _ | .make _ _ | .set _ _ | .write _ _ | .assign _ _ => isTrue trivial

end System

section Words

variable {ν : Type u} {π : Type w} {κ : Type v} [DecidableEq ν] [DecidableEq π] [DecidableEq κ]
variable {X : Form} {A : Addresses κ}
variable {s : State ν π κ} {e : Event X ν π κ} {i : π} {q : Option κ}

/-- The step gives `q` to the packed pointer. -/
def Gives (A : Addresses κ) (s : State ν π κ) (e : Event X ν π κ) (i : π) (q : Option κ) : Prop :=
  match e with
  | .set k x => k = i ∧ q = x.argument s.store
  | .assign k j => k = i ∧ X.get (s.words j) = A.word q
  | _ => False

/-- The steps that replace the pointer. -/
def Event.replaces (i : π) : Event X ν π κ → Prop
  | set k _ => k = i
  | assign k _ => k = i
  | _ => False

theorem get_next_of_gives
    (h : Gives A s e i q) :
    X.get (((packed X A).next s e).words i) = A.word q := by
  cases e with
  | set k x =>
      obtain ⟨rfl, rfl⟩ := h
      change X.get (Function.update s.words k _ k) = _
      rw [Function.update_self, X.get_set (A.valid_word _)]
  | assign k j =>
      obtain ⟨rfl, hget⟩ := h
      change X.get (Function.update s.words k _ k) = _
      rw [Function.update_self, hget]
  | operation _ | make _ _ | get _ _ | write _ _ =>
      cases h

theorem get_next_of_not_replaces
    (h : ¬ e.replaces i) :
    X.get (((packed X A).next s e).words i) = X.get (s.words i) := by
  cases e with
  | set k x =>
      exact congrArg X.get (Function.update_of_ne (Ne.symm h) ..)
  | assign k j =>
      exact congrArg X.get (Function.update_of_ne (Ne.symm h) ..)
  | write k v =>
      change X.get (Function.update s.words k _ i) = _
      rcases eq_or_ne i k with rfl | hik
      · rw [Function.update_self, X.get_write]
      · rw [Function.update_of_ne hik]
  | operation _ | make _ _ | get _ _ =>
      rfl

/-- What was given last is found, whatever other fields are written in between. -/
theorem get_exec
    {fs : List (Event X ν π κ)}
    (hfs : ∀ f ∈ fs, ¬ f.replaces i)
    (s : State ν π κ) :
    X.get (((packed X A).exec s fs).words i) = X.get (s.words i) := by
  induction fs generalizing s with
  | nil =>
      rfl
  | cons f fs ih =>
      rw [System.exec, ih fun g hg => hfs g (List.mem_cons_of_mem f hg)]
      exact get_next_of_not_replaces (hfs f List.mem_cons_self)

end Words

section Counting

variable {κ : Type v} [DecidableEq κ]

/-- The counts are the numbers of variables, and no step was undefined. -/
structure Counted (m : Exceptions κ) (r : κ → Nat) : Prop where
  count : ∀ p, m.references p = r p
  made : ∀ p, 0 < r p → m.made p = true
  defined : m.undefined = false

omit [DecidableEq κ] in
theorem Counted.not_zero
    {m : Exceptions κ} {r : κ → Nat} {p : κ}
    (h : Counted m r)
    (hp : 0 < r p) :
    (m.undefined || decide (m.references p = 0)) = false := by
  rw [h.defined, h.count, Bool.false_or, decide_eq_false (by omega)]

theorem counted_addRef
    {m : Exceptions κ} {r : κ → Nat} {p : κ}
    (h : Counted m r)
    (hp : 0 < r p) :
    Counted (m.addRef p) (Function.update r p (r p + 1)) := by
  refine ⟨fun p' => ?_, fun p' => ?_, h.not_zero hp⟩
  · rcases eq_or_ne p' p with rfl | hne
    · simp only [Exceptions.addRef, Function.update_self, h.count]
    · simp only [Exceptions.addRef, Function.update_of_ne hne, h.count]
  · rcases eq_or_ne p' p with rfl | hne
    · exact fun _ => h.made p' hp
    · rw [Function.update_of_ne hne]
      exact h.made p'

theorem counted_release
    {m : Exceptions κ} {r : κ → Nat} {p : κ}
    (h : Counted m r)
    (hp : 0 < r p) :
    Counted (m.release p) (Function.update r p (r p - 1)) := by
  refine ⟨fun p' => ?_, fun p' => ?_, h.not_zero hp⟩
  · rcases eq_or_ne p' p with rfl | hne
    · simp only [Exceptions.release, Function.update_self, h.count]
    · simp only [Exceptions.release, Function.update_of_ne hne, h.count]
  · rcases eq_or_ne p' p with rfl | hne
    · exact fun _ => h.made p' hp
    · rw [Function.update_of_ne hne]
      exact h.made p'

/-- Copies and destructions of an `exception_ptr` count the variables. -/
theorem accounting_exceptions (limit : Nat) :
    Accounting (Exceptions.api : Api κ (Exceptions κ)) Counted limit where
  addRef := fun _ _ _ h hp _ => counted_addRef h hp
  release := fun _ _ _ h hp => counted_release h hp

end Counting

section Runs

variable {ν : Type u} {π : Type w} {κ : Type v} [DecidableEq ν] [DecidableEq π] [DecidableEq κ]
variable {X : Form} {A : Addresses κ}
variable {s : State ν π κ} {e : Event X ν π κ} {tr : List (Event X ν π κ)}

/-- What holds between the operations. -/
structure Consistent (s : State ν π κ) : Prop where
  temporary : none ∉ s.store.vars.declared
  counted : Counted s.store.memory s.store.vars.holders

omit [DecidableEq ν] [DecidableEq π] in
/-- No reference is kept outside the variables. -/
theorem Consistent.refs
    (h : Consistent s) :
    Counted s.store.memory (s.store.refs fun _ => 0) :=
  h.counted

omit [DecidableEq ν] in
/-- No exception has more references than there are variables. -/
theorem holders_lt (h : Store ν κ (Exceptions κ)) (p : κ) :
    h.refs (fun _ => 0) p < h.vars.declared.card + 1 :=
  Nat.lt_succ_of_le (Finset.card_filter_le ..)

theorem counted_make
    {h : Store ν κ (Exceptions κ)} {a : Option ν} {p : κ}
    (hcounted : Counted h.memory h.vars.holders)
    (ha : a ∉ h.vars.declared)
    (hp : h.memory.made p = false) :
    Counted (h.memory.make p) (h.vars.declare a (some p)).holders := by
  have hzero : h.vars.holders p = 0 := by
    by_contra hne
    rw [hcounted.made p (Nat.pos_of_ne_zero hne)] at hp
    cases hp
  refine ⟨fun p' => ?_, fun p' => ?_, hcounted.defined⟩
  · rw [Variables.holders_declare ha]
    rcases eq_or_ne p' p with rfl | hne
    · simp only [Exceptions.make, Function.update_self, points_some_self, hzero]
    · simp only [Exceptions.make, Function.update_of_ne hne, points_of_ne hne, Nat.add_zero,
        hcounted.count]
  · rw [Variables.holders_declare ha]
    rcases eq_or_ne p' p with rfl | hne
    · exact fun _ => Function.update_self ..
    · rw [points_of_ne hne, Nat.add_zero]
      exact fun hpos => (Function.update_of_ne hne ..).trans (hcounted.made p' hpos)

omit [DecidableEq π] in
/-- The parameter of `set` counts as a variable. -/
theorem Consistent.pass
    {x : Source ν κ}
    (h : Consistent s)
    (hx : x.Allowed s.store) :
    Counted (x.pass s.store).memory ((x.pass s.store).refs fun _ => 0) ∧
      none ∈ (x.pass s.store).vars.declared := by
  have hA := accounting_exceptions (κ := κ) (s.store.vars.declared.card + 1)
  cases x with
  | copy a =>
      exact ⟨hA.copyConstruct h.refs (holders_lt s.store) h.temporary hx,
        Finset.mem_insert_self ..⟩
  | move a =>
      exact ⟨Accounting.moveConstruct h.refs h.temporary hx,
        Finset.mem_insert_self ..⟩
  | fresh p =>
      exact ⟨counted_make h.counted h.temporary hx, Finset.mem_insert_self ..⟩

/-- Only a `get()` of an exception that is gone is undefined. -/
theorem Consistent.next
    (h : Consistent s)
    (hguard : (packed X A).guard s e)
    (hfinds : FindsHeld X A s e) :
    Consistent ((packed X A).next s e) := by
  have hA := accounting_exceptions (κ := κ) (s.store.vars.declared.card + 1)
  have hinsert (a : ν) : none ∉ insert (some a) s.store.vars.declared := by
    simp [h.temporary]
  obtain ⟨-, hallowed⟩ := hguard
  cases e with
  | operation e =>
      exact ⟨e.temporary_apply Exceptions.api h.temporary,
        Operation.accounting hA h.refs (holders_lt s.store) h.temporary hallowed⟩
  | make a p =>
      exact ⟨hinsert a, counted_make h.counted hallowed.1 hallowed.2⟩
  | set i x =>
      obtain ⟨hcounted, hnone⟩ := h.pass hallowed
      refine ⟨Finset.notMem_erase none _, ?_⟩
      exact hA.destroy hcounted hnone
  | get a i =>
      refine ⟨hinsert a, ?_⟩
      exact hA.constructAddRef h.refs hallowed
        fun p hp => ⟨hfinds p hp, holders_lt s.store p⟩
  | write i v =>
      exact ⟨h.temporary, h.counted⟩
  | assign i j =>
      exact ⟨h.temporary, h.counted⟩

/-- A `get()` of an exception that no variable refers to touches a destroyed object. -/
theorem Consistent.undefined_next
    (h : Consistent s)
    (hfinds : ¬ FindsHeld X A s e) :
    ((packed X A).next s e).store.memory.undefined = true := by
  cases e with
  | get a i =>
      change ¬ ∀ p ∈ A.find (X.get (s.words i)), 0 < s.store.vars.holders p at hfinds
      push Not at hfinds
      obtain ⟨p, hp, hzero⟩ := hfinds
      change (Exceptions.api.retain s.store.memory (A.find (X.get (s.words i)))).undefined = true
      rw [Option.mem_def.mp hp]
      change (s.store.memory.undefined || decide (s.store.memory.references p = 0)) = true
      rw [h.counted.count p, decide_eq_true (Nat.le_zero.mp hzero), Bool.or_true]
  | operation _ | make _ _ | set _ _ | write _ _ | assign _ _ =>
      exact absurd trivial hfinds

omit [DecidableEq ν] [DecidableEq π] in
theorem consistent_start :
    Consistent (State.start : State ν π κ) :=
  ⟨Finset.notMem_empty _, fun _ => rfl, fun _ h => absurd h (Nat.lt_irrefl 0), rfl⟩

theorem consistent_of_run
    (hrun : (packed X A).Run tr s)
    (hdefined : s.store.memory.undefined = false) :
    Consistent s := by
  induction hrun with
  | start hinit =>
      obtain rfl := hinit
      exact consistent_start
  | @step tr s e _ hguard ih =>
      have hs := ih hguard.1
      by_cases hfinds : FindsHeld X A s e
      · exact hs.next hguard hfinds
      · rw [hs.undefined_next hfinds] at hdefined
        cases hdefined

/-- What a run of a program with packed pointers to exceptions does. -/
structure Unowned (A : Addresses κ) (tr : List (Event X ν π κ)) (s : State ν π κ) : Prop where
  found : ∀ es e fs i q, tr = es ++ e :: fs → Gives A ((packed X A).exec .start es) e i q →
    (∀ f ∈ fs, ¬ f.replaces i) → A.find (X.get (s.words i)) = q
  count : s.store.memory.undefined = false →
    ∀ p, s.store.memory.references p = s.store.vars.holders p
  defined : s.store.memory.undefined = false ↔ (packed X A).Along (FindsHeld X A) .start tr

/--
A packed pointer finds what was given to it last, but it owns nothing: the references to
an exception are those of the variables, and `get()` is defined exactly if one of them
is left.
-/
theorem packed_owns_nothing
    (hrun : (packed X A).Run tr s) :
    Unowned A tr s := by
  have hexec := hrun.eq_exec fun _ h => h
  constructor
  · rintro es e fs i q rfl hgives hfs
    rw [hexec, System.exec_append, System.exec, get_exec hfs, get_next_of_gives hgives,
      A.find_word]
  · exact fun hdefined => (consistent_of_run hrun hdefined).counted.count
  · rw [hexec]
    refine hrun.along_iff (A := fun tr =>
      ((packed X A).exec .start tr).store.memory.undefined = false) (fun _ h => h) rfl ?_
    intro tr s e hrun hguard
    rw [System.exec_append_singleton, ← hrun.eq_exec fun _ h => h]
    have hs := consistent_of_run hrun hguard.1
    by_cases hfinds : FindsHeld X A s e
    · exact iff_of_true (hs.next hguard hfinds).counted.defined ⟨hguard.1, hfinds⟩
    · refine iff_of_false (fun hdefined => ?_) fun h => hfinds h.2
      rw [hs.undefined_next hfinds] at hdefined
      cases hdefined

/-- Two exceptions at addresses that end in 0x1000 and 0x2000. -/
def twoAddresses : Addresses Bool where
  address := fun p => if p then 0x7fff00001000 else 0x7fff00002000
  find := fun data =>
    if data = 0x7fff00001000 then some true
    else if data = 0x7fff00002000 then some false
    else none
  valid := by
    intro p
    cases p
    · exact (by decide : (0x7fff00002000#64).toNat < 2 ^ 48 ∧ 8 ∣ (0x7fff00002000#64).toNat)
    · exact (by decide : (0x7fff00001000#64).toNat < 2 ^ 48 ∧ 8 ∣ (0x7fff00001000#64).toNat)
  find_address := by decide
  find_zero := by decide

/-- `ptr.set(std::make_exception_ptr(...))` and the other setters, and then `get()`. -/
def setOfTemporary : List (Event .value Bool Unit Bool) :=
  [.make false false, .set () (.fresh true), .write () (.inl 0xffff), .write () (.inr 7),
    .get true ()]

theorem packed_owns_nothing_setOfTemporary :
    ((packed .value twoAddresses).exec .start setOfTemporary).store.memory.undefined ≠ false := by
  have hrun : (packed .value twoAddresses).Run setOfTemporary
      ((packed .value twoAddresses).exec .start setOfTemporary) :=
    .of_enabled rfl (by decide +kernel)
  exact fun h => absurd ((packed_owns_nothing hrun).defined.mp h) (by decide +kernel)

end Runs

end PackedPtr
end Ptl

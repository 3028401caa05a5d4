import Ptl.ExpectedVariables

/-!
# `expected<T&, E>`

The specialisation for references stores a `T*`.  The move assignment copies this pointer
by `new (&value_) T*(...)`; the two constructors and the copy assignment write
`new (&value_) T(...)` and so construct a `T` from the pointer in the place of the
pointer.  This module embeds these four operations, `value()` and the destructor of the
union on any number of variables, for any constructor of `T` from `T*`.  A `T` that does
not fit into the union is not told apart from one that does.

A chain passes the content of a variable on to the next one.

**Results.**
* `objects_created`: every other step than a move assignment or a self-assignment creates
  an object.
* `keeps_referent_iff`: a chain leads to the object it started from, and creates and
  modifies no object, exactly if it consists of move assignments and self-assignments.
-/

namespace Ptl
namespace ReferenceExpected

open Transition
open ExpectedVariables (Contains)

universe u v w x

/-- The constructors and assignments from `const expected &` and from `expected &&`. -/
inductive Kind where
  | copy
  | move
deriving DecidableEq

/-- The object that lives in the union. -/
inductive Live (α : Type v) (T : Type w) (E : Type x) where
  | pointer (p : α)
  | object (t : T)
  | error (e : E)

/-- `contains_` and the union. -/
structure Storage (α : Type v) (T : Type w) (E : Type x) where
  contains : Contains
  live : Option (Live α T E)

/--
The variables, the objects of type `T` that exist outside them, and the objects that the
operations on the variables have created.  If `undefined` is set, a member of a union was
read that is not alive.
-/
structure State (ν : Type u) (α : Type v) (T : Type w) (E : Type x) where
  storage : ν → Storage α T E
  objects : α → T
  created : List T
  undefined : Bool

/--
The constructor of `T` from the pointer of another variable, which may change objects, and
what the move constructor of `E` leaves.
-/
structure Classes (α : Type v) (T : Type w) (E : Type x) where
  construct : Kind → (α → T) → α → T × (α → T)
  leave : E → E

namespace State

variable {ν : Type u} {α : Type v} {T : Type w} {E : Type x} [DecidableEq ν]

def setLive (s : State ν α T E) (a : ν) (l : Option (Live α T E)) : State ν α T E :=
  { s with storage := Function.update s.storage a { s.storage a with live := l } }

def setContains (s : State ν α T E) (a : ν) (c : Contains) : State ν α T E :=
  { s with storage := Function.update s.storage a { s.storage a with contains := c } }

/-- `new (&value_) T(other.value_)`. -/
def newObject (C : Classes α T E) (k : Kind) (s : State ν α T E) (a b : ν) : State ν α T E :=
  match (s.storage b).live with
  | some (.pointer p) =>
      { s.setLive a (some (.object (C.construct k s.objects p).1)) with
        objects := (C.construct k s.objects p).2
        created := s.created ++ [(C.construct k s.objects p).1] }
  | _ => { s with undefined := true }

/-- `new (&value_) T*(std::move(other.value_))`. -/
def newPointer (s : State ν α T E) (a b : ν) : State ν α T E :=
  match (s.storage b).live with
  | some (.pointer p) => s.setLive a (some (.pointer p))
  | _ => { s with undefined := true }

/-- `new (&unexpected_) E(other.unexpected_)`. -/
def newError (C : Classes α T E) (k : Kind) (s : State ν α T E) (a b : ν) : State ν α T E :=
  match (s.storage b).live with
  | some (.error e) =>
      match k with
      | .copy => s.setLive a (some (.error e))
      | .move => (s.setLive b (some (.error (C.leave e)))).setLive a (some (.error e))
  | _ => { s with undefined := true }

/-- `destroy()`: only an error has a destructor to run. -/
def destroy (s : State ν α T E) (a : ν) : State ν α T E :=
  match (s.storage a).contains with
  | .unexpected => (s.setContains a .nothing).setLive a none
  | _ => s.setContains a .nothing

/-- The copy and the move constructor. -/
def construct (C : Classes α T E) (k : Kind) (s : State ν α T E) (a b : ν) : State ν α T E :=
  let s := (s.setLive a none).setContains a (s.storage b).contains
  match (s.storage a).contains with
  | .expected => s.newObject C k a b
  | .unexpected => s.newError C k a b
  | .nothing => s

/-- `operator=(const expected &)`. -/
def copyAssign (C : Classes α T E) (s : State ν α T E) (a b : ν) : State ν α T E :=
  if b = a then s
  else
    let s := (s.destroy a).setContains a (s.storage b).contains
    match (s.storage a).contains with
    | .expected => s.newObject C .copy a b
    | .unexpected => s.newError C .copy a b
    | .nothing => s

/-- `operator=(expected &&)`, the only one that constructs a `T*`. -/
def moveAssign (C : Classes α T E) (s : State ν α T E) (a b : ν) : State ν α T E :=
  if b = a then s
  else
    let s := (s.destroy a).setContains a (s.storage b).contains
    match (s.storage a).contains with
    | .expected => s.newPointer a b
    | .unexpected => s.newError C .move a b
    | .nothing => s

/-- `value() &`: the object that is referred to, unless `enforce` fails. -/
def value (s : State ν α T E) (a : ν) : Option α :=
  match (s.storage a).contains, (s.storage a).live with
  | .expected, some (.pointer p) => some p
  | _, _ => none

end State

/-- A step from the current variable to `a`. -/
inductive Step (ν : Type u) where
  | construct (k : Kind) (a : ν)
  | assign (k : Kind) (a : ν)
deriving DecidableEq

def Step.target {ν : Type u} : Step ν → ν
  | construct _ a => a
  | assign _ a => a

/-- The variables and the one that a chain has reached. -/
structure Chain (ν : Type u) (α : Type v) (T : Type w) (E : Type x) where
  vars : State ν α T E
  owner : ν

namespace Chain

variable {ν : Type u} {α : Type v} {T : Type w} {E : Type x} [DecidableEq ν]

/-- A variable is not constructed from itself. -/
def guard (s : Chain ν α T E) : Step ν → Prop
  | .construct _ a => a ≠ s.owner
  | .assign _ _ => True

def next (C : Classes α T E) (s : Chain ν α T E) : Step ν → Chain ν α T E
  | .construct k a => { vars := s.vars.construct C k a s.owner, owner := a }
  | .assign .copy a => { vars := s.vars.copyAssign C a s.owner, owner := a }
  | .assign .move a => { vars := s.vars.moveAssign C a s.owner, owner := a }

end Chain

variable {ν : Type u} {α : Type v} {T : Type w} {E : Type x} [DecidableEq ν]

/-- All chains from a given state. -/
def chains (C : Classes α T E) (s₀ : Chain ν α T E) : System (Chain ν α T E) (Step ν) where
  init := fun s => s = s₀
  guard := Chain.guard
  next := Chain.next C

/-- The variable that a chain from `b` has reached. -/
def reached (b : ν) (tr : List (Step ν)) : ν :=
  tr.foldl (fun _ e => e.target) b

/-- A move assignment, or an assignment of a variable to itself. -/
def Harmless (b : ν) (es : List (Step ν)) : Step ν → Prop
  | .assign .move _ => True
  | .assign .copy a => a = reached b es
  | .construct _ _ => False

/-- The last variable refers to `p`, and no object was created or modified. -/
structure Kept (s₀ : Chain ν α T E) (p : α) (s : Chain ν α T E) : Prop where
  value : s.vars.value s.owner = some p
  created : s.vars.created = s₀.vars.created
  objects : s.vars.objects = s₀.vars.objects

section Steps

variable {C : Classes α T E} {s : State ν α T E} {a b : ν} {p : α} {k : Kind}

omit [DecidableEq ν] in
theorem value_eq_some_iff :
    s.value a = some p ↔
      (s.storage a).contains = .expected ∧ (s.storage a).live = some (.pointer p) := by
  rw [State.value]
  split
  · next q hcontains hlive =>
      simp [hcontains, hlive]
  · next hne =>
      refine iff_of_false (by simp) ?_
      rintro ⟨hcontains, hlive⟩
      exact hne p hcontains hlive

/-- The state in which a constructor of a member is about to run in the storage of `a`. -/
structure Ready (s : State ν α T E) (a b : ν) (p : α) (s' : State ν α T E) : Prop where
  contains : (s'.storage a).contains = .expected
  source : (s'.storage b).live = some (.pointer p)
  created : s'.created = s.created
  objects : s'.objects = s.objects

theorem ready_of_assign
    (hvalue : s.value b = some p)
    (hba : b ≠ a) :
    Ready s a b p ((s.destroy a).setContains a (s.storage b).contains) := by
  obtain ⟨hcontains, hlive⟩ := value_eq_some_iff.mp hvalue
  have hdestroy : (s.destroy a).storage b = s.storage b ∧
      (s.destroy a).created = s.created ∧ (s.destroy a).objects = s.objects := by
    rw [State.destroy]
    split
    · exact ⟨by simp [State.setLive, State.setContains, hba], rfl, rfl⟩
    · exact ⟨by simp [State.setContains, hba], rfl, rfl⟩
  obtain ⟨hstorage, hcreated, hobjects⟩ := hdestroy
  exact
    { contains := by simp [State.setContains, hcontains]
      source := by simp [State.setContains, hba, hstorage, hlive]
      created := hcreated
      objects := hobjects }

theorem ready_of_construct
    (hvalue : s.value b = some p)
    (hba : b ≠ a) :
    Ready s a b p ((s.setLive a none).setContains a (s.storage b).contains) := by
  obtain ⟨hcontains, hlive⟩ := value_eq_some_iff.mp hvalue
  exact
    { contains := by simp [State.setContains, hcontains]
      source := by simp [State.setContains, State.setLive, hba, hlive]
      created := rfl
      objects := rfl }

/-- An object is created in the storage of `a`. -/
theorem created_construct
    (hvalue : s.value b = some p)
    (hba : b ≠ a) :
    (s.construct C k a b).created = s.created ++ [(C.construct k s.objects p).1] := by
  have h := ready_of_construct hvalue hba
  simp only [State.construct, h.contains, State.newObject, h.source]
  rw [h.created, h.objects]

theorem created_copyAssign
    (hvalue : s.value b = some p)
    (hba : b ≠ a) :
    (s.copyAssign C a b).created = s.created ++ [(C.construct .copy s.objects p).1] := by
  have h := ready_of_assign hvalue hba
  simp only [State.copyAssign, if_neg hba, h.contains, State.newObject, h.source]
  rw [h.created, h.objects]

/-- The pointer is copied, and no object is touched. -/
theorem moveAssign_of_value
    (hvalue : s.value b = some p)
    (hba : b ≠ a) :
    (s.moveAssign C a b).value a = some p ∧
      (s.moveAssign C a b).created = s.created ∧ (s.moveAssign C a b).objects = s.objects := by
  have h := ready_of_assign hvalue hba
  simp only [State.moveAssign, if_neg hba, h.contains, State.newPointer, h.source]
  refine ⟨?_, h.created, h.objects⟩
  rw [value_eq_some_iff]
  exact ⟨by simpa [State.setLive] using h.contains, by simp [State.setLive]⟩

end Steps

section Created

variable (C : Classes α T E) (k : Kind) (s : State ν α T E) (a b : ν)

theorem created_destroy (c : Contains) :
    ((s.destroy a).setContains a c).created = s.created := by
  rw [State.destroy]
  split <;> rfl

theorem created_newError : s.created <+: (s.newError C k a b).created := by
  rw [State.newError]
  split
  · cases k <;> exact List.prefix_rfl
  · exact List.prefix_rfl

theorem created_newPointer : s.created <+: (s.newPointer a b).created := by
  rw [State.newPointer]
  split <;> exact List.prefix_rfl

theorem created_newObject : s.created <+: (s.newObject C k a b).created := by
  rw [State.newObject]
  split
  · exact List.prefix_append ..
  · exact List.prefix_rfl

/-- Nothing that was created is forgotten. -/
theorem created_next (c : Chain ν α T E) (e : Step ν) :
    c.vars.created <+: (c.next C e).vars.created := by
  cases e with
  | construct k a =>
      have hprepared : c.vars.created =
          ((c.vars.setLive a none).setContains a (c.vars.storage c.owner).contains).created :=
        rfl
      rw [hprepared]
      simp only [Chain.next, State.construct]
      split
      · exact created_newObject ..
      · exact created_newError ..
      · exact List.prefix_rfl
  | assign k a =>
      rw [← created_destroy c.vars a (c.vars.storage c.owner).contains]
      cases k with
      | copy =>
          simp only [Chain.next, State.copyAssign]
          split
          · rw [created_destroy]
          · split
            · exact created_newObject ..
            · exact created_newError ..
            · exact List.prefix_rfl
      | move =>
          simp only [Chain.next, State.moveAssign]
          split
          · rw [created_destroy]
          · split
            · exact created_newPointer ..
            · exact created_newError ..
            · exact List.prefix_rfl

end Created

section Runs

variable {C : Classes α T E} {s₀ s : Chain ν α T E} {p : α}
variable {tr : List (Step ν)} {e : Step ν}

/-- A self-assignment changes nothing. -/
theorem next_assign_self
    (k : Kind)
    {a : ν}
    (hself : s.owner = a) :
    s.next C (.assign k a) = s := by
  obtain ⟨vars, owner⟩ := s
  obtain rfl : owner = a := hself
  cases k with
  | copy =>
      exact congrArg (Chain.mk · owner) (if_pos rfl)
  | move =>
      exact congrArg (Chain.mk · owner) (if_pos rfl)

/-- A harmless step keeps the reference. -/
theorem Kept.next
    (hkept : Kept s₀ p s)
    (howner : s.owner = reached s₀.owner tr)
    (hharmless : Harmless s₀.owner tr e) :
    Kept s₀ p (s.next C e) := by
  cases e with
  | construct k a =>
      exact hharmless.elim
  | assign k a =>
      rcases eq_or_ne s.owner a with hself | hne
      · rw [next_assign_self k hself]
        exact hkept
      · cases k with
        | copy =>
            exact absurd (howner.trans (Eq.symm hharmless)) hne
        | move =>
            obtain ⟨hvalue, hcreated, hobjects⟩ :=
              moveAssign_of_value (C := C) hkept.value hne
            exact ⟨hvalue, hcreated.trans hkept.created, hobjects.trans hkept.objects⟩

/-- Every other step creates an object. -/
theorem objects_created
    (hkept : Kept s₀ p s)
    (howner : s.owner = reached s₀.owner tr)
    (hguard : s.guard e)
    (hharmful : ¬Harmless s₀.owner tr e) :
    ∃ x, (s.next C e).vars.created = s₀.vars.created ++ [x] := by
  rw [← hkept.created]
  cases e with
  | construct k a =>
      exact ⟨_, created_construct hkept.value (Ne.symm hguard)⟩
  | assign k a =>
      cases k with
      | copy =>
          have hne : s.owner ≠ a := fun h => hharmful (h.symm.trans howner)
          exact ⟨_, created_copyAssign hkept.value hne⟩
      | move =>
          exact absurd trivial hharmful

theorem owner_of_run
    (hrun : (chains C s₀).Run tr s) :
    s.owner = reached s₀.owner tr := by
  cases hrun with
  | start hs =>
      cases hs
      rfl
  | @step tr s e hrun hguard =>
      rw [reached, List.foldl_append]
      cases e with
      | construct k a =>
          rfl
      | assign k a =>
          cases k <;> rfl

/--
A chain from a variable that refers to `p` ends in one that refers to `p`, without any
object created or modified, exactly if it consists of move assignments and of assignments
of a variable to itself.
-/
theorem keeps_referent_iff
    (hstart : s₀.vars.value s₀.owner = some p)
    (hrun : (chains C s₀).Run tr s) :
    Kept s₀ p s ↔ System.History (Harmless s₀.owner) tr := by
  -- Once an object was created, the chain has failed for good.
  suffices h : System.History (Harmless s₀.owner) tr ∧ Kept s₀ p s ∨
      ¬System.History (Harmless s₀.owner) tr ∧
        s₀.vars.created.length < s.vars.created.length by
    rcases h with ⟨hharmless, hkept⟩ | ⟨hharmful, hcreated⟩
    · exact iff_of_true hkept hharmless
    · refine iff_of_false (fun hkept => ?_) hharmful
      exact absurd (congrArg List.length hkept.created) (Nat.ne_of_gt hcreated)
  induction hrun with
  | start hs =>
      cases hs
      exact .inl ⟨System.history_nil, hstart, rfl, rfl⟩
  | @step tr s e hrun hguard ih =>
      have howner := owner_of_run hrun
      rw [System.history_append_singleton]
      rcases ih with ⟨hpast, hkept⟩ | ⟨hpast, hcreated⟩
      · by_cases hharmless : Harmless s₀.owner tr e
        · exact .inl ⟨⟨hpast, hharmless⟩, hkept.next howner hharmless⟩
        · obtain ⟨x, hx⟩ := objects_created (C := C) hkept howner hguard hharmless
          refine .inr ⟨fun h => hharmless h.2, ?_⟩
          change _ < (s.next C e).vars.created.length
          rw [hx]
          simp
      · refine .inr ⟨fun h => hpast h.1, Nat.lt_of_lt_of_le hcreated ?_⟩
        exact (created_next C s e).length_le

end Runs

section Examples

/-- A class whose constructor from a pointer ignores the object, such as `bool`. -/
def truthy : Classes Nat Bool Unit where
  construct _ objects _ := (true, objects)
  leave e := e

/-- Variable 0 refers to object 7; the other variables contain nothing. -/
def single : Chain Nat Nat Bool Unit where
  vars :=
    { storage := fun a =>
        if a = 0 then { contains := .expected, live := some (.pointer 7) }
        else { contains := .nothing, live := none }
      objects := fun _ => false
      created := []
      undefined := false }
  owner := 0

theorem keeps_referent_moves :
    Kept single 7 ((chains truthy single).exec single [.assign .move 1, .assign .copy 1]) := by
  have hrun : (chains truthy single).Run [.assign .move 1, .assign .copy 1] _ :=
    .of_enabled rfl ⟨trivial, trivial, trivial⟩
  rw [keeps_referent_iff rfl hrun, System.history_cons, System.history_cons]
  exact ⟨trivial, rfl, System.history_nil⟩

/-- A copy holds an object in the place of the pointer. -/
theorem not_keeps_referent :
    ∃ s, (chains truthy single).Run [.construct .copy 1] s ∧
      single.vars.value 0 = some 7 ∧ s.owner = 1 ∧ s.vars.value 1 = none ∧
      s.vars.created = [true] ∧ ¬Kept single 7 s := by
  refine ⟨_, .of_enabled rfl ⟨Nat.one_ne_zero, trivial⟩, rfl, rfl, rfl, rfl, ?_⟩
  intro h
  cases h.created

end Examples

end ReferenceExpected
end Ptl

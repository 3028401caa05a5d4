import Ptl.TransitionSystem
import Ptl.HandleVariables
import Mathlib.Algebra.Group.Nat.Defs

/-!
# Variables of type `expected<T, E>`

This module embeds the tagged union of `expected<T, E>`: its constructors,
assignments, `value() &&` and the destructor, on any number of variables.  The
storage of a variable holds the object that was constructed in it last, until a
destructor runs on that object, whatever `contains_` says.  Objects are numbered in
the order in which they are constructed.

With `error_policy_assert`, a call of `value() &&` on a variable that does not
contain a value ends the program; with `error_policy_throw` it has no effect on
the variable.

**Results.**
* `destroyed_nodup`: no destructor ever runs twice on an object, or where none lives.
* `payloads_destroyed_iff`: when all variables are gone, every object was
  destroyed exactly once, exactly if `value() &&` was never called on a variable
  that contained a value.
-/

namespace Ptl
namespace ExpectedVariables

open Transition Handles

universe u v w

/-- `expected_base::Contains`. -/
inductive Contains where
  | expected
  | unexpected
  | nothing
deriving DecidableEq

/-- The members of the union. -/
inductive Member where
  | value
  | unexpected
deriving DecidableEq

/-- The member that is alive according to `contains_`. -/
def Contains.member : Contains → Option Member
  | expected => some .value
  | unexpected => some .unexpected
  | nothing => none

/-- What `error_policy_assert` and `error_policy_throw` select in `enforce`. -/
inductive Policy where
  | assert
  | throw
deriving DecidableEq

/-- What a constructor from another object leaves in it. -/
structure Leftover (V : Type v) (E : Type w) where
  value : V → V
  error : E → E

/-- Copy constructors do not change the other object. -/
def Leftover.copied {V : Type v} {E : Type w} : Leftover V E where
  value := id
  error := id

/-- An object that was constructed in some variable. -/
structure Payload (V : Type v) (E : Type w) where
  id : Nat
  content : V ⊕ E

namespace Payload

variable {V : Type v} {E : Type w}

def member (p : Payload V E) : Member :=
  match p.content with
  | .inl _ => .value
  | .inr _ => .unexpected

def leave (f : Leftover V E) (p : Payload V E) : Payload V E :=
  { p with content := Sum.map f.value f.error p.content }

@[simp] theorem member_leave (f : Leftover V E) (p : Payload V E) :
    (p.leave f).member = p.member := by
  obtain ⟨k, v | e⟩ := p <;> rfl

end Payload

/-- `contains_` and the object that lives in the union. -/
structure Storage (V : Type v) (E : Type w) where
  contains : Contains
  live : Option (Payload V E)

/--
The variables whose lifetime has begun, the number of objects constructed so far
and the objects on which a destructor ran.  A member that is not alive was
destroyed or read if `undefined` is set.
-/
structure State (ν : Type u) (V : Type v) (E : Type w) where
  declared : Finset ν
  storage : ν → Storage V E
  constructed : Nat
  destroyed : List Nat
  undefined : Bool

namespace State

variable {ν : Type u} {V : Type v} {E : Type w} [DecidableEq ν]

/-- No variable and no object. -/
def start : State ν V E where
  declared := ∅
  storage := fun _ => { contains := .nothing, live := none }
  constructed := 0
  destroyed := []
  undefined := false

def setStorage (s : State ν V E) (a : ν) (m : Storage V E) : State ν V E :=
  { s with storage := Function.update s.storage a m }

def setContains (s : State ν V E) (a : ν) (c : Contains) : State ν V E :=
  s.setStorage a { s.storage a with contains := c }

/-- Placement new of a member of the union. -/
def place (s : State ν V E) (a : ν) (x : V ⊕ E) : State ν V E :=
  { s.setStorage a { s.storage a with live := some { id := s.constructed, content := x } } with
    constructed := s.constructed + 1 }

/-- The destructor of a member of the union runs. -/
def destroyMember (s : State ν V E) (a : ν) (m : Member) : State ν V E :=
  match (s.storage a).live with
  | some p =>
      if p.member = m then
        { s.setStorage a { s.storage a with live := none } with
          destroyed := s.destroyed ++ [p.id] }
      else { s with undefined := true }
  | none => { s with undefined := true }

/-- The branches of `destroy` and of the destructor. -/
def destroyContained (s : State ν V E) (a : ν) (contained : Contains) : State ν V E :=
  match contained.member with
  | some m => s.destroyMember a m
  | none => s

/-- `expected::destroy`. -/
def destroy (s : State ν V E) (a : ν) : State ν V E :=
  (s.setContains a .nothing).destroyContained a (s.storage a).contains

/-- `expected::~expected`. -/
def destruct (s : State ν V E) (a : ν) : State ν V E :=
  let after := s.destroyContained a (s.storage a).contains
  { after with declared := after.declared.erase a }

/-- `expected::expected()`. -/
def constructNothing (s : State ν V E) (a : ν) : State ν V E :=
  { s.setStorage a { contains := .nothing, live := none } with
    declared := insert a s.declared }

/-- The constructors from a value. -/
def constructValue (s : State ν V E) (a : ν) (v : V) : State ν V E :=
  ((s.constructNothing a).setContains a .expected).place a (.inl v)

/-- The constructors from an error. -/
def constructError (s : State ν V E) (a : ν) (e : E) : State ν V E :=
  ((s.constructNothing a).setContains a .unexpected).place a (.inr e)

/-- `contains_` and the member are taken from another variable. -/
def takeOver (f : Leftover V E) (s : State ν V E) (a b : ν) : State ν V E :=
  let contains := (s.storage b).contains
  let after := s.setContains a contains
  match contains.member, (after.storage b).live with
  | none, _ => after
  | some m, some p =>
      if p.member = m then
        (after.setStorage b { after.storage b with live := some (p.leave f) }).place a p.content
      else { after with undefined := true }
  | some _, none => { after with undefined := true }

/-- The copy and the move constructor. -/
def constructFrom (f : Leftover V E) (s : State ν V E) (a b : ν) : State ν V E :=
  (s.constructNothing a).takeOver f a b

/-- The copy and the move assignment. -/
def assignFrom (f : Leftover V E) (s : State ν V E) (a b : ν) : State ν V E :=
  if b = a then s else (s.destroy a).takeOver f a b

/-- `expected::value() &&`. -/
def valueRvalue (s : State ν V E) (a : ν) : State ν V E :=
  if (s.storage a).contains = .expected then s.setContains a .nothing else s

end State

/-- The operations on variables. -/
inductive Event (ν : Type u) (V : Type v) (E : Type w) where
  | nothing (a : ν)
  | value (a : ν) (v : V)
  | error (a : ν) (e : E)
  | copyConstruct (a b : ν)
  | moveConstruct (a b : ν)
  | copyAssign (a b : ν)
  | moveAssign (a b : ν)
  | valueRvalue (a : ν)
  | destruct (a : ν)

namespace Event

variable {ν : Type u} {V : Type v} {E : Type w} [DecidableEq ν]

def Allowed (policy : Policy) (s : State ν V E) : Event ν V E → Prop
  | nothing a | value a _ | error a _ => a ∉ s.declared
  | copyConstruct a b | moveConstruct a b => a ∉ s.declared ∧ b ∈ s.declared
  | copyAssign a b | moveAssign a b => a ∈ s.declared ∧ b ∈ s.declared
  | valueRvalue a =>
      a ∈ s.declared ∧ (policy = .assert → (s.storage a).contains = .expected)
  | destruct a => a ∈ s.declared

instance decidableAllowed (policy : Policy) (s : State ν V E) :
    ∀ e : Event ν V E, Decidable (e.Allowed policy s)
  | nothing a | value a _ | error a _ => inferInstanceAs (Decidable (a ∉ s.declared))
  | copyConstruct a b | moveConstruct a b =>
      inferInstanceAs (Decidable (a ∉ s.declared ∧ b ∈ s.declared))
  | copyAssign a b | moveAssign a b =>
      inferInstanceAs (Decidable (a ∈ s.declared ∧ b ∈ s.declared))
  | valueRvalue a =>
      inferInstanceAs (Decidable
        (a ∈ s.declared ∧ (policy = .assert → (s.storage a).contains = .expected)))
  | destruct a => inferInstanceAs (Decidable (a ∈ s.declared))

/-- The effect of an operation; `f` is what the move constructors leave. -/
def apply (f : Leftover V E) (s : State ν V E) : Event ν V E → State ν V E
  | nothing a => s.constructNothing a
  | value a v => s.constructValue a v
  | error a e => s.constructError a e
  | copyConstruct a b => s.constructFrom .copied a b
  | moveConstruct a b => s.constructFrom f a b
  | copyAssign a b => s.assignFrom .copied a b
  | moveAssign a b => s.assignFrom f a b
  | valueRvalue a => s.valueRvalue a
  | destruct a => s.destruct a

end Event

variable {ν : Type u} {V : Type v} {E : Type w} [DecidableEq ν]

/-- All sequences of operations on variables. -/
def expectedVariables
    (policy : Policy) (f : Leftover V E) : System (State ν V E) (Event ν V E) where
  init := fun s => s = .start
  guard := fun s e => e.Allowed policy s
  next := Event.apply f

instance decidableGuard
    (policy : Policy) (f : Leftover V E) (s : State ν V E) (e : Event ν V E) :
    Decidable ((expectedVariables policy f).guard s e) :=
  inferInstanceAs (Decidable (e.Allowed policy s))

section Ledger

/-- `contains_` says which member is alive. -/
def Matches (contains : Contains) (live : Option (Payload V E)) : Prop :=
  ∀ m, contains.member = some m → ∃ p, live = some p ∧ p.member = m

theorem matches_nothing (live : Option (Payload V E)) :
    Matches .nothing live :=
  fun m hm => absurd hm.symm (Option.some_ne_none m)

/-- The object on which the destructor of the variable will run. -/
def Storage.owned (m : Storage V E) : Option Nat :=
  m.contains.member.bind fun _ => m.live.map Payload.id

/-- The variables and the objects that they will destroy. -/
def State.owners (s : State ν V E) : Variables ν Nat where
  declared := s.declared
  ptr := fun a => (s.storage a).owned

/-- One for the objects among the first `n`. -/
def issued (n k : Nat) : Nat :=
  if k < n then 1 else 0

theorem issued_succ (n k : Nat) :
    issued (n + 1) k = issued n k + points (some n) k := by
  rcases Nat.lt_trichotomy k n with h | rfl | h
  · rw [issued, issued, if_pos h, if_pos (by omega), points_of_ne (by omega)]
  · rw [issued, issued, if_neg (Nat.lt_irrefl k), if_pos (by omega), points_some_self]
  · rw [issued, issued, if_neg (by omega), if_neg (by omega), points_of_ne (by omega)]

/--
Every object constructed so far was destroyed once, will be destroyed by one
variable, or is lost.
-/
structure Accounted (s : State ν V E) (lost : List Nat) : Prop where
  tagged : ∀ a ∈ s.declared, Matches (s.storage a).contains (s.storage a).live
  once : ∀ k, s.destroyed.count k + s.owners.holders k + lost.count k =
    issued s.constructed k
  defined : s.undefined = false

variable {s : State ν V E} {a b : ν} {lost : List Nat} {f : Leftover V E}

omit [DecidableEq ν] in
theorem count_toList (q : Option Nat) (k : Nat) :
    q.toList.count k = points q k := by
  cases q with
  | none =>
      rfl
  | some p =>
      rw [Option.toList_some, List.count_singleton, points]
      simp

theorem owners_setStorage (m : Storage V E) :
    (s.setStorage a m).owners = s.owners.assign a m.owned := by
  simp only [State.owners, State.setStorage, Variables.assign, Variables.mk.injEq, true_and]
  exact funext fun c => Function.apply_update (fun _ => Storage.owned) s.storage a m c

/-- What `destroy` and the destructor do if `contained` is right. -/
theorem destroyContained_eq
    {contained : Contains}
    (hmatches : Matches contained (s.storage a).live) :
    ∃ live, s.destroyContained a contained =
      { s.setStorage a { s.storage a with live := live } with
        destroyed := s.destroyed ++
          (Storage.owned { contains := contained, live := (s.storage a).live }).toList } := by
  cases hm : contained.member with
  | none =>
      refine ⟨(s.storage a).live, ?_⟩
      simp [State.destroyContained, Storage.owned, State.setStorage, hm]
  | some m =>
      obtain ⟨p, hp, hmember⟩ := hmatches m hm
      refine ⟨none, ?_⟩
      simp [State.destroyContained, State.destroyMember, Storage.owned, hm, hp, hmember]

/-- One variable is given other contents, and the objects are still accounted for. -/
theorem Accounted.of_storage
    {s' : State ν V E} {m : Storage V E} {lost' : List Nat}
    (hs : Accounted s lost)
    (ha : a ∈ s.declared)
    (hdeclared : s'.declared = s.declared)
    (hstorage : s'.storage = Function.update s.storage a m)
    (hm : Matches m.contains m.live)
    (hbalance : ∀ k,
      s'.destroyed.count k + points m.owned k + lost'.count k +
          issued s.constructed k =
        s.destroyed.count k + points (s.storage a).owned k + lost.count k +
          issued s'.constructed k)
    (hdefined : s'.undefined = s.undefined) :
    Accounted s' lost' := by
  have howners : s'.owners = s.owners.assign a m.owned := by
    rw [← owners_setStorage]
    simp only [State.owners, State.setStorage, hdeclared, hstorage]
  constructor
  · intro c hc
    rw [hdeclared] at hc
    rw [hstorage]
    rcases eq_or_ne c a with rfl | hca
    · simpa only [Function.update_self] using hm
    · simpa only [Function.update_of_ne hca] using hs.tagged c hc
  · intro k
    have hassign := Variables.holders_assign (x := s.owners) ha m.owned k
    have hk := hs.once k
    have hbalance := hbalance k
    change _ + points (s.storage a).owned k = _ at hassign
    rw [howners]
    omega
  · rw [hdefined, hs.defined]

theorem destroy_eq
    (hmatches : Matches (s.storage a).contains (s.storage a).live) :
    ∃ live, s.destroy a =
      { s.setStorage a { contains := .nothing, live := live } with
        destroyed := s.destroyed ++ (s.storage a).owned.toList } := by
  have hstorage : (s.setContains a .nothing).storage a =
      { s.storage a with contains := .nothing } :=
    Function.update_self ..
  have hlive : Matches (s.storage a).contains ((s.setContains a .nothing).storage a).live := by
    rwa [hstorage]
  obtain ⟨live, heq⟩ := destroyContained_eq hlive
  refine ⟨live, ?_⟩
  rw [State.destroy, heq, hstorage]
  simp only [State.setContains, State.setStorage, Function.update_idem]

/-- `destroy` leaves a variable that contains nothing. -/
theorem Accounted.destroy
    (hs : Accounted s lost)
    (ha : a ∈ s.declared) :
    Accounted (s.destroy a) lost ∧
      (s.destroy a).declared = s.declared ∧
      ((s.destroy a).storage a).contains = .nothing := by
  obtain ⟨live, heq⟩ := destroy_eq (hs.tagged a ha)
  rw [heq]
  refine ⟨hs.of_storage ha rfl rfl (matches_nothing live) ?_ rfl, rfl, ?_⟩
  · intro k
    have hnew : Storage.owned { contains := .nothing, live := live } = none := rfl
    rw [List.count_append, count_toList, hnew, points_none]
    change _ + issued s.constructed k = _ + issued s.constructed k
    omega
  · simp only [State.setStorage, Function.update_self]

/-- The objects of a variable that is gone are destroyed. -/
theorem Accounted.destruct
    (hs : Accounted s lost)
    (ha : a ∈ s.declared) :
    Accounted (s.destruct a) lost := by
  obtain ⟨live, heq⟩ := destroyContained_eq (hs.tagged a ha)
  constructor
  · intro c hc
    simp only [State.destruct, heq, State.setStorage] at hc ⊢
    rw [Function.update_of_ne (Finset.ne_of_mem_erase hc)]
    exact hs.tagged c (Finset.mem_of_mem_erase hc)
  · intro k
    have howners : (s.destruct a).owners =
        (s.owners.assign a
          (Storage.owned { s.storage a with live := live })).remove a := by
      rw [← owners_setStorage, State.destruct, heq]
      rfl
    have hremove := Variables.holders_remove
      (x := s.owners.assign a (Storage.owned { s.storage a with live := live })) ha k
    have hassign := Variables.holders_assign (x := s.owners) ha
      (Storage.owned { s.storage a with live := live }) k
    have hk := hs.once k
    change _ + points (s.storage a).owned k = _ at hassign
    simp only [Variables.assign, Function.update_self] at hremove
    have hdestroyed : (s.destruct a).destroyed =
        s.destroyed ++ (s.storage a).owned.toList := by
      rw [State.destruct, heq]
    have hconstructed : (s.destruct a).constructed = s.constructed := by
      rw [State.destruct, heq]
      rfl
    rw [howners, hdestroyed, hconstructed, List.count_append, count_toList]
    simp only [Variables.assign] at hassign ⊢
    omega
  · rw [State.destruct, heq]
    exact hs.defined

theorem Accounted.constructNothing
    (hs : Accounted s lost)
    (ha : a ∉ s.declared) :
    Accounted (s.constructNothing a) lost := by
  constructor
  · intro c hc
    simp only [State.constructNothing, State.setStorage] at hc ⊢
    rcases Finset.mem_insert.mp hc with rfl | hc
    · rw [Function.update_self]
      exact matches_nothing none
    · rw [Function.update_of_ne (ne_of_mem_of_not_mem hc ha)]
      exact hs.tagged c hc
  · intro k
    have hdeclare := Variables.holders_declare (x := s.owners) ha none k
    have howners : (s.constructNothing a).owners = s.owners.declare a none := by
      have hassign := owners_setStorage (s := s) (a := a)
        { contains := .nothing, live := none }
      exact congrArg (fun x => { x with declared := insert a s.declared }) hassign
    rw [howners, hdeclare, points_none, Nat.add_zero]
    exact hs.once k
  · exact hs.defined

theorem contains_constructNothing (s : State ν V E) (a : ν) :
    ((s.constructNothing a).storage a).contains = .nothing := by
  simp only [State.constructNothing, State.setStorage, Function.update_self]

/-- A new object in a variable that contains nothing. -/
theorem Accounted.place
    {contains : Contains} {x : V ⊕ E}
    (hs : Accounted s lost)
    (ha : a ∈ s.declared)
    (hnothing : (s.storage a).contains = .nothing)
    (hcontains : contains.member =
      some (Payload.member { id := s.constructed, content := x })) :
    Accounted ((s.setContains a contains).place a x) lost := by
  refine hs.of_storage ha (m :=
    { contains := contains, live := some { id := s.constructed, content := x } }) rfl ?_ ?_ ?_ rfl
  · simp [State.place, State.setContains, State.setStorage]
  · intro m hm
    exact ⟨_, rfl, Option.some_inj.mp (hcontains.symm.trans hm)⟩
  · intro k
    have hold : (s.storage a).owned = none := by
      rw [Storage.owned, hnothing]
      rfl
    have hnew : Storage.owned
        { contains := contains, live := some { id := s.constructed, content := x } } =
          some s.constructed := by
      rw [Storage.owned, hcontains]
      rfl
    have hissued := issued_succ s.constructed k
    rw [hold, hnew, points_none]
    change s.destroyed.count k + _ + _ + _ = _ + issued (s.constructed + 1) k
    omega

/-- A variable that contains nothing takes over from another one. -/
theorem Accounted.takeOver
    (hs : Accounted s lost)
    (ha : a ∈ s.declared)
    (hb : b ∈ s.declared)
    (hba : b ≠ a)
    (hnothing : (s.storage a).contains = .nothing) :
    Accounted (s.takeOver f a b) lost := by
  have hother (c : Contains) : (s.setContains a c).storage b = s.storage b :=
    Function.update_of_ne hba ..
  cases hm : (s.storage b).contains.member with
  | none =>
      have hbnothing : (s.storage b).contains = .nothing := by
        revert hm
        cases (s.storage b).contains <;> simp [Contains.member]
      have heq : s.takeOver f a b = s := by
        simp only [State.takeOver, hm]
        rw [hbnothing, ← hnothing]
        simp [State.setContains, State.setStorage]
      rwa [heq]
  | some m =>
      obtain ⟨p, hp, rfl⟩ := hs.tagged b hb m hm
      have heq : s.takeOver f a b =
          ((s.setStorage b { s.storage b with live := some (p.leave f) }).setContains a
            (s.storage b).contains).place a p.content := by
        simp only [State.takeOver, hm, hother, hp, if_true]
        simp only [State.setContains, State.setStorage, Function.update_of_ne hba.symm,
          Function.update_comm hba]
      have hleave : Accounted
          (s.setStorage b { s.storage b with live := some (p.leave f) }) lost := by
        refine hs.of_storage hb rfl rfl ?_ ?_ rfl
        · intro m hm'
          exact ⟨_, rfl, (p.member_leave f).trans (Option.some_inj.mp (hm.symm.trans hm'))⟩
        · intro k
          have howned : Storage.owned { s.storage b with live := some (p.leave f) } =
              (s.storage b).owned := by
            rw [Storage.owned, Storage.owned, hp]
            rfl
          rw [howned]
          rfl
      rw [heq]
      refine hleave.place ha ?_ hm
      simpa only [State.setStorage, Function.update_of_ne hba.symm] using hnothing

/-- The constructors from another variable. -/
theorem Accounted.constructFrom
    (hs : Accounted s lost)
    (ha : a ∉ s.declared)
    (hb : b ∈ s.declared) :
    Accounted (s.constructFrom f a b) lost := by
  exact (hs.constructNothing ha).takeOver (Finset.mem_insert_self ..)
    (Finset.mem_insert_of_mem hb) (ne_of_mem_of_not_mem hb ha) (contains_constructNothing s a)

/-- The assignments; a variable is not assigned to itself. -/
theorem Accounted.assignFrom
    (hs : Accounted s lost)
    (ha : a ∈ s.declared)
    (hb : b ∈ s.declared) :
    Accounted (s.assignFrom f a b) lost := by
  rw [State.assignFrom]
  split
  next => exact hs
  next hba =>
      obtain ⟨hdestroy, hdeclared, hnothing⟩ := hs.destroy ha
      exact hdestroy.takeOver (hdeclared ▸ ha) (hdeclared ▸ hb) hba hnothing

/-- The object that `value() &&` returns is not destroyed by any variable any more. -/
theorem Accounted.valueRvalue
    (hs : Accounted s lost)
    (ha : a ∈ s.declared)
    (hvalue : (s.storage a).contains = .expected) :
    ∃ k, Accounted (s.valueRvalue a) (k :: lost) := by
  obtain ⟨p, hp, -⟩ := hs.tagged a ha .value (by rw [hvalue]; rfl)
  refine ⟨p.id, ?_⟩
  rw [State.valueRvalue, if_pos hvalue]
  refine hs.of_storage ha rfl rfl (matches_nothing _) ?_ rfl
  · intro k
    have hold : (s.storage a).owned = some p.id := by
      rw [Storage.owned, hvalue, hp]
      rfl
    have hnew : Storage.owned { s.storage a with contains := .nothing } = none := rfl
    have hlost : (p.id :: lost).count k = lost.count k + points (some p.id) k := by
      rw [← count_toList, Option.toList_some, List.count_cons, List.count_singleton]
    rw [hold, hnew, points_none, hlost]
    change s.destroyed.count k + _ + _ + _ = _ + issued s.constructed k
    omega

end Ledger

section Runs

/-- No destructor ran where no object lived, and one on every object. -/
def DestroyedOnce (s : State ν V E) : Prop :=
  s.undefined = false ∧ ∀ k < s.constructed, s.destroyed.count k = 1

/-- `value() &&` is not called on a variable that contains a value. -/
def KeepsValue (s : State ν V E) : Event ν V E → Prop
  | .valueRvalue a => (s.storage a).contains ≠ .expected
  | _ => True

instance decidableKeepsValue (s : State ν V E) :
    ∀ e : Event ν V E, Decidable (KeepsValue s e)
  | .valueRvalue a => inferInstanceAs (Decidable ((s.storage a).contains ≠ .expected))
  | .nothing _ | .value _ _ | .error _ _ | .copyConstruct _ _ | .moveConstruct _ _
  | .copyAssign _ _ | .moveAssign _ _ | .destruct _ => isTrue trivial

variable {policy : Policy} {f : Leftover V E}
variable {tr : List (Event ν V E)} {s : State ν V E} {e : Event ν V E} {lost : List Nat}

/-- Only `value() &&` of a value loses an object. -/
theorem Accounted.next
    (hs : Accounted s lost)
    (hguard : (expectedVariables policy f).guard s e)
    (hkeeps : KeepsValue s e) :
    Accounted ((expectedVariables policy f).next s e) lost := by
  cases e with
  | nothing a =>
      exact hs.constructNothing hguard
  | value a v =>
      exact (hs.constructNothing hguard).place (Finset.mem_insert_self ..)
        (contains_constructNothing s a) rfl
  | error a e =>
      exact (hs.constructNothing hguard).place (Finset.mem_insert_self ..)
        (contains_constructNothing s a) rfl
  | copyConstruct a b =>
      exact hs.constructFrom hguard.1 hguard.2
  | moveConstruct a b =>
      exact hs.constructFrom hguard.1 hguard.2
  | copyAssign a b =>
      exact hs.assignFrom hguard.1 hguard.2
  | moveAssign a b =>
      exact hs.assignFrom hguard.1 hguard.2
  | valueRvalue a =>
      have heq : (expectedVariables policy f).next s (.valueRvalue a) = s := if_neg hkeeps
      rwa [heq]
  | destruct a =>
      exact hs.destruct hguard

theorem Accounted.next_lost
    (hs : Accounted s lost)
    (hguard : (expectedVariables policy f).guard s e)
    (hloses : ¬ KeepsValue s e) :
    ∃ k, Accounted ((expectedVariables policy f).next s e) (k :: lost) := by
  cases e with
  | valueRvalue a =>
      exact hs.valueRvalue hguard.1 (not_not.mp hloses)
  | _ =>
      exact absurd trivial hloses

omit [DecidableEq ν] in
theorem accounted_start :
    Accounted (State.start : State ν V E) [] := by
  refine ⟨fun a ha => absurd ha (Finset.notMem_empty a), fun k => ?_, rfl⟩
  have hholders : (State.start : State ν V E).owners.holders k = 0 := rfl
  rw [hholders]
  rfl

/-- Something is lost exactly if a step of the run lost it. -/
theorem accounted_of_run
    (hrun : (expectedVariables policy f).Run tr s) :
    ∃ lost, Accounted s lost ∧
      (lost = [] ↔ (expectedVariables policy f).Along KeepsValue .start tr) := by
  induction hrun with
  | start hinit =>
      obtain rfl := hinit
      exact ⟨[], accounted_start, iff_of_true rfl trivial⟩
  | @step tr s e hrun hguard ih =>
      obtain ⟨lost, hs, hlost⟩ := ih
      have hstate := hrun.eq_exec fun _ h => h
      rw [System.along_append, ← hlost, ← hstate]
      by_cases hkeeps : KeepsValue s e
      · exact ⟨lost, hs.next hguard hkeeps, by simp [System.Along, hkeeps]⟩
      · obtain ⟨k, hnext⟩ := hs.next_lost hguard hkeeps
        exact ⟨k :: lost, hnext, by simp [System.Along, hkeeps]⟩

/-- No destructor runs on a member that is not alive, and none twice on an object. -/
theorem destroyed_nodup
    (hrun : (expectedVariables policy f).Run tr s) :
    s.undefined = false ∧ s.destroyed.Nodup := by
  obtain ⟨lost, hs, -⟩ := accounted_of_run hrun
  refine ⟨hs.defined, List.nodup_iff_count_le_one.mpr fun k => ?_⟩
  have hk := hs.once k
  have hissued : issued s.constructed k ≤ 1 := by
    rw [issued]
    split <;> omega
  omega

/--
After the end of all variables, every object was destroyed exactly once, and no
destructor ran where no object lived, exactly if no value was taken out by
`value() &&`.
-/
theorem payloads_destroyed_iff
    (hrun : (expectedVariables policy f).Run tr s)
    (hend : s.declared = ∅) :
    DestroyedOnce s
      ↔
    (expectedVariables policy f).Along KeepsValue .start tr := by
  obtain ⟨lost, hs, hlost⟩ := accounted_of_run hrun
  have hholders (k : Nat) : s.owners.holders k = 0 := by
    simp [Variables.holders, State.owners, hend]
  rw [← hlost]
  constructor
  · rintro ⟨-, honce⟩
    rw [List.eq_nil_iff_forall_not_mem]
    intro k hk
    have hpos := List.count_pos_iff.mpr hk
    have hledger := hs.once k
    rcases Nat.lt_or_ge k s.constructed with hlt | hge
    · rw [issued, if_pos hlt, honce k hlt] at hledger
      omega
    · rw [issued, if_neg (by omega)] at hledger
      omega
  · rintro rfl
    refine ⟨hs.defined, fun k hlt => ?_⟩
    have hledger := hs.once k
    rw [issued, if_pos hlt, hholders k, List.count_nil] at hledger
    omega

/-- What the move constructor of a type leaves, if it resets a number. -/
def reset : Leftover Nat Nat where
  value := fun _ => 0
  error := fun _ => 0

/-- Two variables are assigned to each other and to themselves. -/
def assignedTwice : List (Event Bool Nat Nat) :=
  [.value true 1, .error false 2, .copyAssign true true, .moveAssign true false,
    .destruct false, .copyConstruct false true, .destruct true, .destruct false]

theorem payloads_destroyed_assignedTwice :
    DestroyedOnce ((expectedVariables .assert reset).exec .start assignedTwice) := by
  have hrun : (expectedVariables .assert reset).Run assignedTwice
      ((expectedVariables .assert reset).exec .start assignedTwice) :=
    .of_enabled rfl (by decide +kernel)
  exact (payloads_destroyed_iff hrun (by decide +kernel)).mpr (by decide +kernel)

/-- A value is taken out of its variable. -/
def valueTaken : List (Event Unit Nat Nat) :=
  [.value () 1, .valueRvalue (), .destruct ()]

/-- The value to which `value() &&` returns a reference is never destroyed. -/
theorem not_payloads_destroyed :
    ¬ ∀ (tr : List (Event Unit Nat Nat)) (s : State Unit Nat Nat),
      (expectedVariables .assert reset).Run tr s → s.declared = ∅ → DestroyedOnce s := by
  intro h
  have hrun : (expectedVariables .assert reset).Run valueTaken
      ((expectedVariables .assert reset).exec .start valueTaken) :=
    .of_enabled rfl (by decide +kernel)
  have hdestroyed := (h _ _ hrun (by decide +kernel)).2 0 (by decide +kernel)
  exact absurd hdestroyed (by decide +kernel)

end Runs

end ExpectedVariables
end Ptl

import Ptl.ExpectedVariables

/-!
# Assignments of `expected<T, E>` whose constructor throws

Both assignments destroy the old object, set `contains_` and only then construct the
new object in the union.  If this constructor throws, the exception leaves the
assignment in between: placement new has ended the lifetime of what was in the
storage, no object lives there, and `contains_` says that one does.

The later uses of the variables are all operations of `ExpectedVariables` and the
lvalue overloads of `value()` and `error()`.

**Results.**
* `storage_of_throws`: what an assignment leaves when its constructor throws.
* `destruct_of_throws`: the next destructor runs on a member that is not alive.
* `assignment_safe_iff`: an assignment is safe exactly if no constructor throws.
-/

namespace Ptl
namespace ExpectedVariables

open Transition

universe u v w

/-- The two assignment operators. -/
inductive Kind where
  | copy
  | move
deriving DecidableEq

/-- How the constructor that an assignment runs ends. -/
inductive Construction where
  | completes
  | throws
deriving DecidableEq

/-- What the constructor of an assignment leaves in its source, if move leaves `f`. -/
def Kind.leftover {V : Type v} {E : Type w} : Kind → Leftover V E → Leftover V E
  | .copy, _ => .copied
  | .move, f => f

namespace State

variable {ν : Type u} {V : Type v} {E : Type w} [DecidableEq ν]

/-- Placement new whose constructor throws: the storage is reused, and nothing lives in it. -/
def placeThrows (s : State ν V E) (a : ν) : State ν V E :=
  s.setStorage a { s.storage a with live := none }

/-- `takeOver`, if the constructor throws and leaves `g` in the other object. -/
def takeOverThrows (g : Leftover V E) (s : State ν V E) (a b : ν) : State ν V E :=
  let contains := (s.storage b).contains
  let after := s.setContains a contains
  match contains.member, (after.storage b).live with
  | none, _ => after
  | some m, some p =>
      if p.member = m then
        (after.setStorage b { after.storage b with live := some (p.leave g) }).placeThrows a
      else { after with undefined := true }
  | some _, none => { after with undefined := true }

/-- The copy and the move assignment, if the constructor that they run throws. -/
def assignThrows (g : Leftover V E) (s : State ν V E) (a b : ν) : State ν V E :=
  if b = a then s else (s.destroy a).takeOverThrows g a b

/-- An assignment; a move constructor leaves `f`, and `g` if it throws. -/
def assign (f g : Leftover V E) (kind : Kind) (c : Construction) (s : State ν V E)
    (a b : ν) : State ν V E :=
  match c with
  | .completes => s.assignFrom (kind.leftover f) a b
  | .throws => s.assignThrows (kind.leftover g) a b

/-- The member is read. -/
def read (s : State ν V E) (a : ν) (m : Member) : State ν V E :=
  match (s.storage a).live with
  | some p => if p.member = m then s else { s with undefined := true }
  | none => { s with undefined := true }

/-- `expected::value() &` and `expected::value() const &`. -/
def value (s : State ν V E) (a : ν) : State ν V E :=
  if (s.storage a).contains = .expected then s.read a .value else s

/-- `expected::error()`. -/
def error (s : State ν V E) (a : ν) : State ν V E :=
  if (s.storage a).contains = .unexpected then s.read a .unexpected else s

end State

/-- The operations on variables and the accesses to them. -/
inductive Use (ν : Type u) (V : Type v) (E : Type w) where
  | operation (e : Event ν V E)
  | value (a : ν)
  | error (a : ν)

namespace Use

variable {ν : Type u} {V : Type v} {E : Type w} [DecidableEq ν]

def Allowed (policy : Policy) (s : State ν V E) : Use ν V E → Prop
  | operation e => e.Allowed policy s
  | value a => a ∈ s.declared ∧ (policy = .assert → (s.storage a).contains = .expected)
  | error a => a ∈ s.declared ∧ (policy = .assert → (s.storage a).contains = .unexpected)

instance decidableAllowed (policy : Policy) (s : State ν V E) :
    ∀ e : Use ν V E, Decidable (e.Allowed policy s)
  | operation e => inferInstanceAs (Decidable (e.Allowed policy s))
  | value a =>
      inferInstanceAs (Decidable
        (a ∈ s.declared ∧ (policy = .assert → (s.storage a).contains = .expected)))
  | error a =>
      inferInstanceAs (Decidable
        (a ∈ s.declared ∧ (policy = .assert → (s.storage a).contains = .unexpected)))

def apply (f : Leftover V E) (s : State ν V E) : Use ν V E → State ν V E
  | operation e => e.apply f s
  | value a => s.value a
  | error a => s.error a

end Use

variable {ν : Type u} {V : Type v} {E : Type w} [DecidableEq ν]

/-- All sequences of operations on variables and accesses to them. -/
def uses (policy : Policy) (f : Leftover V E) : System (State ν V E) (Use ν V E) where
  init := fun s => s = .start
  guard := fun s e => e.Allowed policy s
  next := Use.apply f

instance decidableUsesGuard
    (policy : Policy) (f : Leftover V E) (s : State ν V E) (e : Use ν V E) :
    Decidable ((uses policy f).guard s e) :=
  inferInstanceAs (Decidable (e.Allowed policy s))

/--
The variable `a` can be used after it was assigned from `b`: `contains_` says what its
storage holds, no later use touches a member that is not alive, and a copy has not
changed `b`.
-/
structure Safe (policy : Policy) (f : Leftover V E) (kind : Kind) (s s' : State ν V E)
    (a b : ν) : Prop where
  tag : Matches (s'.storage a).contains (s'.storage a).live
  later : ∀ es : List (Use ν V E), (uses policy f).Enabled s' es →
    ((uses policy f).exec s' es).undefined = false
  source : kind = .copy → s'.storage b = s.storage b

/-- The assignment of `b` to `a` runs a constructor, and this constructor throws. -/
def ConstructorThrows (c : Construction) (s : State ν V E) (a b : ν) : Prop :=
  c = .throws ∧ b ≠ a ∧ (s.storage b).contains ≠ .nothing

section Uses

variable {policy : Policy} {f g : Leftover V E} {kind : Kind} {c : Construction}
variable {s s' : State ν V E} {a b : ν} {m : Member}
variable {lost : List Nat} {es tr : List (Use ν V E)} {e : Use ν V E}

omit [DecidableEq ν] in
/-- Reading the member that `contains_` names. -/
theorem Accounted.read
    (hs : Accounted s lost)
    (ha : a ∈ s.declared)
    (hm : (s.storage a).contains.member = some m) :
    s.read a m = s := by
  obtain ⟨p, hp, hmember⟩ := hs.tagged a ha m hm
  rw [State.read, hp]
  exact if_pos hmember

theorem Accounted.use
    (hs : Accounted s lost)
    (hguard : (uses policy f).guard s e) :
    ∃ lost', Accounted ((uses policy f).next s e) lost' := by
  cases e with
  | operation e =>
      by_cases hkeeps : KeepsValue s e
      · exact ⟨lost, hs.next (f := f) hguard hkeeps⟩
      · obtain ⟨k, hnext⟩ := hs.next_lost (f := f) hguard hkeeps
        exact ⟨k :: lost, hnext⟩
  | value a =>
      have heq : (uses policy f).next s (.value a) = s := by
        change s.value a = s
        rw [State.value]
        split
        next h => exact hs.read hguard.1 (by rw [h]; rfl)
        next => rfl
      rw [heq]
      exact ⟨lost, hs⟩
  | error a =>
      have heq : (uses policy f).next s (.error a) = s := by
        change s.error a = s
        rw [State.error]
        split
        next h => exact hs.read hguard.1 (by rw [h]; rfl)
        next => rfl
      rw [heq]
      exact ⟨lost, hs⟩

theorem accounted_of_uses
    (hrun : (uses policy f).Run tr s) :
    ∃ lost, Accounted s lost := by
  refine hrun.invariant (I := fun _ s => ∃ lost, Accounted s lost) ?_ ?_
  · rintro s rfl
    exact ⟨[], accounted_start⟩
  · rintro tr s e - ⟨lost, hs⟩ hguard
    exact hs.use hguard

/-- While all objects are accounted for, no use touches a member that is not alive. -/
theorem Accounted.later
    (hs : Accounted s lost)
    (hes : (uses policy f).Enabled s es) :
    ((uses policy f).exec s es).undefined = false := by
  induction es generalizing s lost with
  | nil =>
      exact hs.defined
  | cons e es ih =>
      obtain ⟨lost', hnext⟩ := hs.use hes.1
      exact ih hnext hes.2

end Uses

section Assignments

variable {policy : Policy} {f g : Leftover V E} {kind : Kind} {c : Construction}
variable {s : State ν V E} {a b : ν}
variable {lost : List Nat} {tr : List (Use ν V E)}

/-- The other variables are not touched by `destroy`. -/
theorem Accounted.storage_destroy
    (hs : Accounted s lost)
    (ha : a ∈ s.declared)
    (hba : b ≠ a) :
    (s.destroy a).storage b = s.storage b := by
  obtain ⟨live, heq⟩ := destroy_eq (hs.tagged a ha)
  rw [heq]
  exact Function.update_of_ne hba ..

/-- If the source contains nothing, no constructor is run. -/
theorem takeOverThrows_of_nothing
    (h : (s.storage b).contains = .nothing) :
    s.takeOverThrows g a b = s.takeOver f a b := by
  simp only [State.takeOverThrows, State.takeOver, h, Contains.member]

/-- An assignment in which no constructor throws. -/
theorem assign_of_not_throws
    (hs : Accounted s lost)
    (ha : a ∈ s.declared)
    (h : ¬ ConstructorThrows c s a b) :
    s.assign f g kind c a b = s.assignFrom (kind.leftover f) a b := by
  cases c with
  | completes =>
      rfl
  | throws =>
      rw [State.assign, State.assignThrows, State.assignFrom]
      split
      next => rfl
      next hba =>
          have hnothing : (s.storage b).contains = .nothing := by
            by_contra hne
            exact h ⟨rfl, hba, hne⟩
          refine takeOverThrows_of_nothing ?_
          rw [hs.storage_destroy ha hba, hnothing]

omit [DecidableEq ν] in
@[simp] theorem leave_copied (p : Payload V E) :
    p.leave .copied = p := by
  obtain ⟨k, v | e⟩ := p <;> rfl

/-- Taking over from a variable whose object is alive. -/
theorem takeOver_of_live
    {m : Member} {p : Payload V E}
    (hba : b ≠ a)
    (hm : (s.storage b).contains.member = some m)
    (hp : (s.storage b).live = some p)
    (hmember : p.member = m) :
    s.takeOver f a b =
        ((s.setContains a (s.storage b).contains).setStorage b
          { s.storage b with live := some (p.leave f) }).place a p.content ∧
      s.takeOverThrows g a b =
        ((s.setContains a (s.storage b).contains).setStorage b
          { s.storage b with live := some (p.leave g) }).placeThrows a := by
  have hother : (s.setContains a (s.storage b).contains).storage b = s.storage b :=
    Function.update_of_ne hba ..
  constructor
  · simp only [State.takeOver, hm, hother, hp, hmember, if_true]
  · simp only [State.takeOverThrows, hm, hother, hp, hmember, if_true]

/-- An assignment neither begins nor ends the lifetime of a variable. -/
theorem Accounted.declared_assignFrom
    (hs : Accounted s lost)
    (ha : a ∈ s.declared) :
    (s.assignFrom f a b).declared = s.declared := by
  have htakeOver (d : State ν V E) : (d.takeOver f a b).declared = d.declared := by
    simp only [State.takeOver]
    split
    next => rfl
    next => split <;> rfl
    next => rfl
  rw [State.assignFrom]
  split
  next => rfl
  next => rw [htakeOver, (hs.destroy ha).2.1]

/-- A copy does not change its source. -/
theorem Accounted.storage_assignFrom_copied
    (hs : Accounted s lost)
    (ha : a ∈ s.declared)
    (hb : b ∈ s.declared) :
    (s.assignFrom .copied a b).storage b = s.storage b := by
  rw [State.assignFrom]
  split
  next => rfl
  next hba =>
      have hdestroy := hs.storage_destroy ha hba
      rw [← hdestroy]
      generalize s.destroy a = d at hdestroy
      cases hm : (d.storage b).contains.member with
      | none =>
          simp only [State.takeOver, hm]
          exact Function.update_of_ne hba ..
      | some m =>
          obtain ⟨p, hp, hmember⟩ := hs.tagged b hb m (hdestroy ▸ hm)
          rw [← hdestroy] at hp
          rw [(takeOver_of_live (g := .copied) hba hm hp hmember).1, leave_copied, ← hp]
          simp [State.place, State.setContains, State.setStorage, hba]

/-- A variable that contains something has a member that is alive. -/
theorem member_of_ne_nothing
    {contains : Contains}
    (h : contains ≠ .nothing) :
    ∃ m, contains.member = some m := by
  cases contains with
  | expected =>
      exact ⟨.value, rfl⟩
  | unexpected =>
      exact ⟨.unexpected, rfl⟩
  | nothing =>
      exact absurd rfl h

/-- The constructor throws: `contains_` names a member, and nothing lives in the union. -/
theorem Accounted.storage_of_throws
    (hs : Accounted s lost)
    (ha : a ∈ s.declared)
    (hb : b ∈ s.declared)
    (hba : b ≠ a)
    (hsome : (s.storage b).contains ≠ .nothing) :
    (s.assignThrows g a b).storage a =
      { contains := (s.storage b).contains, live := none } := by
  have hdestroy := hs.storage_destroy ha hba
  obtain ⟨m, hm⟩ := member_of_ne_nothing hsome
  obtain ⟨p, hp, hmember⟩ := hs.tagged b hb m hm
  rw [State.assignThrows, if_neg hba]
  rw [← hdestroy] at hm hp ⊢
  rw [(takeOver_of_live (f := g) hba hm hp hmember).2]
  simp [State.placeThrows, State.setContains, State.setStorage, hba.symm]

/-- The next destructor of the variable runs on a member that is not alive. -/
theorem Accounted.destruct_of_throws
    (hs : Accounted s lost)
    (ha : a ∈ s.declared)
    (hb : b ∈ s.declared)
    (hthrows : ConstructorThrows c s a b) :
    ((s.assign f g kind c a b).destruct a).undefined = true := by
  obtain ⟨rfl, hba, hsome⟩ := hthrows
  have hstorage := hs.storage_of_throws (g := kind.leftover g) ha hb hba hsome
  obtain ⟨m, hm⟩ := member_of_ne_nothing hsome
  simp only [State.assign, State.destruct, State.destroyContained, State.destroyMember,
    hstorage, hm]

/--
An assignment of variables that are in order is safe exactly if no constructor throws
in it: when one throws, the variable names a member that is not alive.
-/
theorem assignment_safe_iff
    (hrun : (uses policy f).Run tr s)
    (ha : a ∈ s.declared)
    (hb : b ∈ s.declared) :
    Safe policy f kind s (s.assign f g kind c a b) a b ↔ ¬ ConstructorThrows c s a b := by
  obtain ⟨lost, hs⟩ := accounted_of_uses hrun
  constructor
  · rintro hsafe ⟨rfl, hba, hsome⟩
    have htag := hsafe.tag
    rw [State.assign, hs.storage_of_throws ha hb hba hsome] at htag
    obtain ⟨m, hm⟩ := member_of_ne_nothing hsome
    obtain ⟨p, hp, -⟩ := htag m hm
    cases hp
  · intro hnot
    rw [assign_of_not_throws hs ha hnot]
    have hnext : Accounted (s.assignFrom (kind.leftover f) a b) lost := hs.assignFrom ha hb
    have ha' : a ∈ (s.assignFrom (kind.leftover f) a b).declared := by
      rwa [hs.declared_assignFrom ha]
    refine ⟨hnext.tagged a ha', fun es hes => hnext.later hes, ?_⟩
    rintro rfl
    exact hs.storage_assignFrom_copied ha hb

/-- A variable with a value and one with an error. -/
def valueAndError : List (Use Bool Nat Nat) :=
  [.operation (.value true 1), .operation (.error false 2)]

/-- An error is assigned to a value, and its copy constructor completes. -/
theorem assignment_safe_valueAndError :
    Safe .assert reset .copy ((uses .assert reset).exec .start valueAndError)
      (((uses .assert reset).exec .start valueAndError).assign reset reset .copy .completes true false)
      true false := by
  have hrun : (uses .assert reset).Run valueAndError
      ((uses .assert reset).exec .start valueAndError) :=
    .of_enabled rfl (by decide +kernel)
  refine (assignment_safe_iff hrun (by decide +kernel) (by decide +kernel)).mpr ?_
  rintro ⟨hthrows, -⟩
  cases hthrows

/-- The copy constructor of an error throws while it is assigned to a value. -/
theorem not_assignment_safe :
    ¬ ∀ (tr : List (Use Bool Nat Nat)) (s : State Bool Nat Nat) (kind : Kind)
      (a b : Bool),
      (uses .assert reset).Run tr s → a ∈ s.declared → b ∈ s.declared →
      ConstructorThrows .throws s a b →
      Safe .assert reset kind s (s.assign reset reset kind .throws a b) a b := by
  intro h
  have hrun : (uses .assert reset).Run valueAndError
      ((uses .assert reset).exec .start valueAndError) :=
    .of_enabled rfl (by decide +kernel)
  have hsafe := h _ _ .copy true false hrun (by decide +kernel) (by decide +kernel)
    ⟨rfl, by decide, by decide +kernel⟩
  obtain ⟨p, hp, -⟩ := hsafe.tag .unexpected (by decide +kernel)
  cases hp

end Assignments

end ExpectedVariables
end Ptl

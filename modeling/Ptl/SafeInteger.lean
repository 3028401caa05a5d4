import Ptl.IntegerTypes
import Ptl.TransitionSystem
import Mathlib.Logic.Function.Basic

/-!
# `integer<T>`

A variable of type `integer<T>` is constructed from an integer or another `integer<U>`,
and assigned one, where `is_safe_integer_conversion` holds; the other conversions are
deleted.  The operators are `+` and, for signed types, `-`, which negates the value in
the promoted type and converts the result back to `integer<T>`.

A variable here is a name with a type; a construction and an assignment both give it a
new value.

**Results.**
* `isSafe_iff`: the conversions that are not deleted are those that preserve all values.
* `negate_eq`: where `-` compiles, it negates, except the smallest value.
* `integers_refine`: variables hold the integers that the operations have in mathematics,
  and a run is defined exactly if it negates no smallest value.
-/

namespace Ptl
namespace SafeInteger

open Integers IntType Transition

/-- `is_safe_integer_conversion<From, To>`. -/
def IsSafeIntegerConversion (u t : IntType) : Prop :=
  (u.bits ≤ t.bits ∧ u.signed = t.signed) ∨
    (u.bits < t.bits ∧ u.signed = false ∧ t.signed = true)

instance decidableIsSafe (u t : IntType) :
    Decidable (IsSafeIntegerConversion u t) :=
  inferInstanceAs (Decidable ((_ ∧ _) ∨ (_ ∧ _ ∧ _)))

section Conversions

variable {t u : IntType}

theorem minValue_le_maxValue (t : IntType) :
    t.minValue ≤ t.maxValue := by
  have h := t.inRange_toInt (0 : t.Value)
  exact h.1.trans h.2

/-- All values of `u` are values of `t` if the smallest and the largest one are. -/
theorem forall_inRange_iff :
    (∀ x : u.Value, t.InRange (u.toInt x)) ↔
      t.minValue ≤ u.minValue ∧ u.maxValue ≤ t.maxValue := by
  have hle := minValue_le_maxValue u
  constructor
  · intro h
    have hmin := h (u.ofInt u.minValue)
    have hmax := h (u.ofInt u.maxValue)
    rw [toInt_ofInt ⟨le_rfl, hle⟩] at hmin
    rw [toInt_ofInt ⟨hle, le_rfl⟩] at hmax
    exact ⟨hmin.1, hmax.2⟩
  · rintro ⟨hmin, hmax⟩ x
    obtain ⟨hlow, hhigh⟩ := u.inRange_toInt x
    exact ⟨hmin.trans hlow, hhigh.trans hmax⟩

theorem two_pow_le_iff {m n : Nat} :
    (2 : Int) ^ m ≤ 2 ^ n ↔ m ≤ n :=
  pow_le_pow_iff_right₀ (by decide)

/-- The conversions that are not deleted are those that preserve every value. -/
theorem isSafe_iff (u t : IntType) :
    IsSafeIntegerConversion u t ↔ ∀ x : u.Value, t.InRange (u.toInt x) := by
  rw [forall_inRange_iff, IsSafeIntegerConversion]
  have hbitsu := u.bits_pos
  have hbitst := t.bits_pos
  have hposu : (0 : Int) < 2 ^ (u.bits - 1) := pow_pos (by decide) _
  have hpost : (0 : Int) < 2 ^ (t.bits - 1) := pow_pos (by decide) _
  have hpowu := u.two_pow_bits
  have hpowt := t.two_pow_bits
  rw [minValue, minValue, maxValue, maxValue]
  cases hu : u.signed with
  | false =>
      cases ht : t.signed with
      | false =>
          have hle := @two_pow_le_iff u.bits t.bits
          simp only [Bool.false_eq_true, if_false, and_false, or_false, and_true]
          omega
      | true =>
          have hle := @two_pow_le_iff u.bits (t.bits - 1)
          simp only [Bool.false_eq_true, if_false, if_true, and_false, false_or, and_true]
          omega
  | true =>
      cases ht : t.signed with
      | false =>
          simp only [Bool.true_eq_false, Bool.false_eq_true, if_false, if_true, and_false,
            or_self, false_iff]
          omega
      | true =>
          have hle := @two_pow_le_iff (u.bits - 1) (t.bits - 1)
          simp only [Bool.true_eq_false, if_true, and_true, and_false, or_false]
          omega

end Conversions

section Negation

variable {t : IntType} (int : Nat)

/-- `-value_`, converted to `integer<T>`; there is no value where the negation overflows. -/
def negate (x : t.Value) : Option t.Value :=
  ((t.promote int).result false (-(t.promote int).toInt (promoted int x))).map
    ((t.promote int).convert t)

/-- `operator-` compiles: the type is signed, and its result can be converted back. -/
def HasNegation (t : IntType) : Prop :=
  t.signed = true ∧ IsSafeIntegerConversion (t.promote int) t

instance decidableHasNegation (t : IntType) :
    Decidable (HasNegation int t) :=
  inferInstanceAs (Decidable (_ ∧ _))

variable {int}

/-- The types that are not narrower than `int`. -/
theorem hasNegation_iff :
    HasNegation int t ↔ t.signed = true ∧ ¬ t.bits < int := by
  refine and_congr_right fun hsigned => ?_
  constructor
  · intro h hlt
    rw [promote, dif_pos hlt] at h
    rcases h with ⟨hle, -⟩ | ⟨-, hunsigned, -⟩
    · exact absurd hle (Nat.not_le.mpr hlt)
    · cases hunsigned
  · intro hlt
    rw [promote_of_not_lt hlt]
    exact .inl ⟨Nat.le_refl _, rfl⟩

/-- The integers whose negation is representable. -/
theorem inRange_neg_iff
    (hsigned : t.signed = true)
    {x : Int}
    (hx : t.InRange x) :
    t.InRange (-x) ↔ x ≠ t.minValue := by
  rw [InRange, minValue, maxValue, if_pos hsigned, if_pos hsigned] at hx ⊢
  omega

theorem negate_eq
    (h : HasNegation int t)
    (x : t.Value) :
    negate int x = if t.toInt x = t.minValue then none else some (t.ofInt (-t.toInt x)) := by
  obtain ⟨hsigned, hlt⟩ := hasNegation_iff.mp h
  have hin := inRange_neg_iff hsigned (t.inRange_toInt x)
  have hsigned' : (t.promote int).signed = true := signed_promote hsigned int
  rw [negate, toInt_promoted]
  split
  · next hmin =>
      have hnone : (t.promote int).result false (-t.toInt x) = none := by
        rw [← Option.not_isSome_iff_eq_none, isSome_result_iff hsigned', promote_of_not_lt hlt,
          hin]
        exact not_not.mpr hmin
      rw [hnone, Option.map_none]
  · next hmin =>
      rw [result_promote (hin.mpr hmin), Option.map_some]
      exact congrArg some (demoted_promoted int _)

end Negation

section Variables

universe u

/-- The variables with their types; `undefined` says that a negation has overflowed. -/
structure State (ι : Type u) (type : ι → IntType) where
  value : (i : ι) → Option (type i).Value
  undefined : Bool

/-- What gives the variable `i` a value: an integer, `j`, `+j` or `-j`. -/
inductive Event (ι : Type u) where
  | set (i : ι) (u : IntType) (x : u.Value)
  | copy (i j : ι)
  | plus (i j : ι)
  | minus (i j : ι)

variable {ι : Type u} [DecidableEq ι] {type : ι → IntType} (int : Nat)

namespace State

/-- The conversion of the operand to the type of `i`. -/
def assign (s : State ι type) (i : ι) {u : IntType} (x : Option u.Value) : State ι type :=
  match x with
  | some x => { s with value := Function.update s.value i (some (u.convert (type i) x)) }
  | none => { s with undefined := true }

def next (s : State ι type) : Event ι → State ι type
  | .set i _ x => s.assign i (some x)
  | .copy i j => s.assign i (s.value j)
  | .plus i j => s.assign i (s.value j)
  | .minus i j => s.assign i ((s.value j).bind (negate int))

end State

namespace Event

/-- No deleted or missing function is called. -/
def Compiles (type : ι → IntType) : Event ι → Prop
  | set i u _ => IsSafeIntegerConversion u (type i)
  | copy i j => IsSafeIntegerConversion (type j) (type i)
  | plus i j => IsSafeIntegerConversion (type j) (type i)
  | minus i j => HasNegation int (type j) ∧ IsSafeIntegerConversion (type j) (type i)

/-- The operand has been constructed. -/
def Constructed (s : State ι type) : Event ι → Prop
  | set _ _ _ => True
  | copy _ j => (s.value j).isSome = true
  | plus _ j => (s.value j).isSome = true
  | minus _ j => (s.value j).isSome = true

/-- What the operation does with the integers that the variables stand for. -/
def apply (a : ι → Option Int) : Event ι → ι → Option Int
  | set i u x => Function.update a i (some (u.toInt x))
  | copy i j => Function.update a i (a j)
  | plus i j => Function.update a i (a j)
  | minus i j => Function.update a i ((a j).map (- ·))

end Event

/-- All programs over the variables. -/
def integers (type : ι → IntType) : System (State ι type) (Event ι) where
  init := fun s => s = { value := fun _ => none, undefined := false }
  guard := fun s e => e.Compiles int type ∧ e.Constructed s ∧ s.undefined = false
  next := State.next int

instance decidableCompiles (type : ι → IntType) :
    ∀ e : Event ι, Decidable (e.Compiles int type)
  | .set i u _ => decidableIsSafe u (type i)
  | .copy i j => decidableIsSafe (type j) (type i)
  | .plus i j => decidableIsSafe (type j) (type i)
  | .minus i j =>
      inferInstanceAs (Decidable (HasNegation int (type j) ∧
        IsSafeIntegerConversion (type j) (type i)))

instance decidableConstructed (s : State ι type) :
    ∀ e : Event ι, Decidable (e.Constructed s)
  | .set _ _ _ => isTrue trivial
  | .copy _ j => inferInstanceAs (Decidable ((s.value j).isSome = true))
  | .plus _ j => inferInstanceAs (Decidable ((s.value j).isSome = true))
  | .minus _ j => inferInstanceAs (Decidable ((s.value j).isSome = true))

instance decidableGuard (s : State ι type) (e : Event ι) :
    Decidable ((integers int type).guard s e) :=
  inferInstanceAs (Decidable (_ ∧ _ ∧ _))

/-- The integers that the variables stand for. -/
def ideal (tr : List (Event ι)) : ι → Option Int :=
  tr.foldl Event.apply fun _ => none

/-- The step negates the smallest value of a type. -/
def NegatesMin (type : ι → IntType) (past : List (Event ι)) (e : Event ι) : Prop :=
  ∃ i j, e = .minus i j ∧ ideal past j = some (type j).minValue

variable {int} {tr : List (Event ι)} {s : State ι type} {e : Event ι} {i : ι} {u : IntType}

/-- The variables hold the integers `a`. -/
def Holds (s : State ι type) (a : ι → Option Int) : Prop :=
  ∀ k, (s.value k).map (type k).toInt = a k

/-- A conversion that compiles keeps the integer. -/
theorem Holds.assign
    {a : ι → Option Int}
    (h : Holds s a)
    (hsafe : IsSafeIntegerConversion u (type i))
    (x : u.Value) :
    Holds (s.assign i (some x)) (Function.update a i (some (u.toInt x))) := by
  intro k
  change (Function.update s.value i (some (u.convert (type i) x)) k).map _ = _
  rcases eq_or_ne k i with rfl | hk
  · rw [Function.update_self, Function.update_self, Option.map_some]
    exact congrArg some (toInt_ofInt ((isSafe_iff u _).mp hsafe x))
  · rw [Function.update_of_ne hk, Function.update_of_ne hk]
    exact h k

omit [DecidableEq ι] in
/-- What is read is what the variable stands for. -/
theorem Holds.read
    {a : ι → Option Int} {j : ι} {x : (type j).Value}
    (h : Holds s a)
    (hx : s.value j = some x) :
    a j = some ((type j).toInt x) := by
  rw [← h j, hx, Option.map_some]

theorem ideal_append_singleton (tr : List (Event ι)) (e : Event ι) :
    ideal (tr ++ [e]) = e.apply (ideal tr) := by
  rw [ideal, List.foldl_append]
  rfl

/-- A step from a state whose variables hold the ideal integers. -/
theorem holds_next
    (h : Holds s (ideal tr))
    (hguard : (integers int type).guard s e) :
    ((s.next int e).undefined = false ∧ ¬ NegatesMin type tr e ∧
        Holds (s.next int e) (ideal (tr ++ [e]))) ∨
      ((s.next int e).undefined = true ∧ NegatesMin type tr e) := by
  obtain ⟨hcompiles, hconstructed, hdefined⟩ := hguard
  rw [ideal_append_singleton]
  cases e with
  | set i u x =>
      exact .inl ⟨hdefined, nofun, h.assign hcompiles x⟩
  | copy i j | plus i j =>
      obtain ⟨x, hx⟩ := Option.isSome_iff_exists.mp hconstructed
      refine .inl ?_
      rw [State.next, Event.apply, hx, h.read hx]
      exact ⟨hdefined, nofun, h.assign hcompiles x⟩
  | minus i j =>
      obtain ⟨x, hx⟩ := Option.isSome_iff_exists.mp hconstructed
      obtain ⟨hnegation, hsafe⟩ := hcompiles
      rw [State.next, Event.apply, hx, h.read hx, Option.bind_some, negate_eq hnegation x]
      split
      · next hmin =>
          exact .inr ⟨rfl, i, j, rfl, (h.read hx).trans (congrArg some hmin)⟩
      · next hmin =>
          refine .inl ⟨hdefined, ?_, ?_⟩
          · rintro ⟨i', j', he, hj⟩
            cases he
            exact hmin (Option.some.inj ((h.read hx).symm.trans hj))
          · have hin := (inRange_neg_iff (hasNegation_iff.mp hnegation).1
              ((type j).inRange_toInt x)).mpr hmin
            have hassign := h.assign hsafe ((type j).ofInt (-(type j).toInt x))
            rw [toInt_ofInt hin] at hassign
            exact hassign

/-- What a run of a program over `integer` variables guarantees. -/
structure Refines (type : ι → IntType) (tr : List (Event ι)) (s : State ι type) : Prop where
  defined : s.undefined = false ↔
    System.History (fun past e => ¬ NegatesMin type past e) tr
  holds : s.undefined = false → Holds s (ideal tr)

/--
`integer` variables of any types refine the integers: whatever is constructed, converted,
assigned and negated, each variable holds what it holds in mathematics, and a run is
defined exactly if it negates no smallest value.  What compiles does not depend on values.
-/
theorem integers_refine
    (hrun : (integers int type).Run tr s) :
    Refines type tr s := by
  induction hrun with
  | start hinit =>
      obtain rfl := hinit
      exact ⟨iff_of_true rfl (System.history_nil), fun _ _ => rfl⟩
  | @step tr s e hrun hguard ih =>
      have hdefined : s.undefined = false := hguard.2.2
      have hpast := ih.defined.mp hdefined
      change Refines type (tr ++ [e]) (s.next int e)
      rcases holds_next (ih.holds hdefined) hguard with ⟨hd, hmin, hholds⟩ | ⟨hd, hmin⟩
      · refine ⟨iff_of_true hd ?_, fun _ => hholds⟩
        rw [System.history_append_singleton]
        exact ⟨hpast, hmin⟩
      · have hd : ¬ (s.next int e).undefined = false := ne_false_of_eq_true hd
        refine ⟨iff_of_false hd ?_, fun h => absurd h hd⟩
        rw [System.history_append_singleton]
        exact fun h => h.2 hmin

/-- A variable of type `int`, and a wider one. -/
def intAndWider : Bool → IntType
  | false => int32
  | true => { bits := 64, signed := true, bits_pos := Nat.succ_pos 63 }

/-- The first variable gets 3, and the second one its negation. -/
def negatedThree : List (Event Bool) :=
  [.set false int32 3#32, .minus true false]

theorem integers_refine_negatedThree :
    Refines intAndWider negatedThree
      ((integers 32 intAndWider).exec
        { value := fun _ => none, undefined := false } negatedThree) :=
  integers_refine (.of_enabled rfl (by decide +kernel))

end Variables

end SafeInteger
end Ptl

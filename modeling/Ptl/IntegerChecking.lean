import Ptl.IntegerTypes
import Mathlib.Tactic.Ring.RingNF

/-!
# The overflow predicates of `integer_checking.hpp`

The predicates are evaluated in the promoted type, in C++ arithmetic or in strict
arithmetic, which has no value where an operation overflows.  The limits in the signed
subtraction are read as their values.

**Results.**
* `signed_multiplication`: the four quadrants.
* `predicates_exact`: for every type, a predicate has a value in both arithmetics, and it is
  true exactly if the mathematical result is not representable.
* `division_predicates_iff`: the predicate for `/` is exact, and the one for `%` except at the
  minimum and `-1`, where the quotient is not representable.
-/

namespace Ptl
namespace IntegerChecking

open Integers IntType

inductive IntegerTag where
  | signedInteger
  | unsignedInteger
deriving DecidableEq

/-- `integer_tag<T>`. -/
def integerTag (t : IntType) : IntegerTag :=
  if t.signed then .signedInteger else .unsignedInteger

section Predicates

variable (int : Nat) (strict : Bool) (t : IntType)

/-- `std::numeric_limits<T>::max()`, as an operand. -/
def max : (t.promote int).Value :=
  promoted int (t.ofInt t.maxValue)

/-- `std::numeric_limits<T>::min()`, as an operand. -/
def min : (t.promote int).Value :=
  promoted int (t.ofInt t.minValue)

/-- `T(0)`, as an operand. -/
def zero : (t.promote int).Value :=
  promoted int (t.ofInt 0)

def isAdditionUndefined (a b : t.Value) : IntegerTag → Option Bool
  | .signedInteger =>
      let p := t.promote int
      if p.lt (promoted int b) (zero int t) then do
        let r ← p.sub strict (min int t) (promoted int b)
        some (p.lt (promoted int a) r)
      else do
        let r ← p.sub strict (max int t) (promoted int b)
        some (p.lt r (promoted int a))
  | .unsignedInteger => do
      let p := t.promote int
      let r ← p.sub strict (max int t) (promoted int b)
      some (p.lt r (promoted int a))

def isSubtractionUndefined (a b : t.Value) : IntegerTag → Option Bool
  | .signedInteger =>
      let p := t.promote int
      if p.lt (promoted int b) (zero int t) then do
        let r ← p.add strict (max int t) (promoted int b)
        some (p.lt r (promoted int a))
      else do
        let r ← p.add strict (min int t) (promoted int b)
        some (p.lt (promoted int a) r)
  | .unsignedInteger =>
      some ((t.promote int).lt (promoted int a) (promoted int b))

def isMultiplcationUndefined (a b : t.Value) : IntegerTag → Option Bool
  | .signedInteger =>
      let p := t.promote int
      if p.le (promoted int a) (zero int t) then
        if p.le (promoted int b) (zero int t) then
          -- the quotient is not evaluated if `a` is zero
          if promoted int a = zero int t then some false
          else do
            let q ← p.div strict (max int t) (promoted int a)
            some (p.lt (promoted int b) q)
        else do
          let q ← p.div strict (min int t) (promoted int b)
          some (p.lt (promoted int a) q)
      else
        if p.le (promoted int b) (zero int t) then do
          let q ← p.div strict (min int t) (promoted int a)
          some (p.lt (promoted int b) q)
        else do
          let q ← p.div strict (max int t) (promoted int b)
          some (p.lt q (promoted int a))
  | .unsignedInteger =>
      let p := t.promote int
      if promoted int b = zero int t then some false
      else do
        let q ← p.div strict (max int t) (promoted int b)
        some (p.lt q (promoted int a))

/-- `T(-1)`, as an operand. -/
def minusOne : (t.promote int).Value :=
  promoted int (t.ofInt (-1))

def isDivisionUndefined (a b : t.Value) : IntegerTag → Bool
  | .signedInteger =>
      promoted int b = zero int t ||
        (promoted int b = minusOne int t && promoted int a = min int t)
  | .unsignedInteger =>
      promoted int b = zero int t

def isModuloUndefined (_ b : t.Value) : IntegerTag → Bool
  | .signedInteger =>
      promoted int b = zero int t
  | .unsignedInteger =>
      promoted int b = zero int t

end Predicates

section Limits

variable {t : IntType}

theorem minValue_nonpos : t.minValue ≤ 0 := by
  rw [minValue]
  split
  · exact Int.neg_nonpos_of_nonneg (pow_nonneg (by decide) _)
  · exact Int.le_refl 0

theorem maxValue_nonneg : 0 ≤ t.maxValue := by
  have hsigned : (0 : Int) < 2 ^ (t.bits - 1) := pow_pos (by decide) _
  have hunsigned : (0 : Int) < 2 ^ t.bits := pow_pos (by decide) _
  rw [maxValue]
  split <;> omega

/-- A signed type has one more negative value. -/
theorem minValue_of_signed
    (h : t.signed = true) :
    t.minValue = -t.maxValue - 1 := by
  rw [minValue, maxValue, if_pos h, if_pos h]
  ring

theorem minValue_of_unsigned
    (h : t.signed = false) :
    t.minValue = 0 :=
  if_neg (by simp [h])

theorem inRange_max : t.InRange t.maxValue :=
  ⟨le_trans minValue_nonpos maxValue_nonneg, le_rfl⟩

theorem inRange_min : t.InRange t.minValue :=
  ⟨le_rfl, le_trans minValue_nonpos maxValue_nonneg⟩

theorem inRange_zero : t.InRange 0 :=
  ⟨minValue_nonpos, maxValue_nonneg⟩

end Limits

section Steps

variable {int : Nat} {strict : Bool} {t : IntType} {a b : t.Value} {c : Int}

theorem lt_limit
    (h : t.InRange c) :
    (t.promote int).lt (promoted int a) (promoted int (t.ofInt c)) = decide (t.toInt a < c) := by
  rw [lt_promoted, toInt_ofInt h]

theorem limit_lt
    (h : t.InRange c) :
    (t.promote int).lt (promoted int (t.ofInt c)) (promoted int a) = decide (c < t.toInt a) := by
  rw [lt_promoted, toInt_ofInt h]

theorem promoted_eq_iff
    (h : t.InRange c) :
    promoted int a = promoted int (t.ofInt c) ↔ t.toInt a = c := by
  rw [← toInt_inj, toInt_promoted, toInt_promoted, toInt_ofInt h]

theorem promoted_eq_zero_iff :
    promoted int a = promoted int (t.ofInt 0) ↔ t.toInt a = 0 :=
  promoted_eq_iff inRange_zero

theorem limit_add
    (hc : t.InRange c)
    (h : t.InRange (c + t.toInt b)) :
    (t.promote int).add strict (promoted int (t.ofInt c)) (promoted int b) =
      some (promoted int (t.ofInt (c + t.toInt b))) := by
  have hval := toInt_ofInt hc
  rw [add_promoted (by rwa [hval]), hval]

theorem limit_sub
    (hc : t.InRange c)
    (h : t.InRange (c - t.toInt b)) :
    (t.promote int).sub strict (promoted int (t.ofInt c)) (promoted int b) =
      some (promoted int (t.ofInt (c - t.toInt b))) := by
  have hval := toInt_ofInt hc
  rw [sub_promoted (by rwa [hval]), hval]

theorem limit_div
    (hc : t.InRange c)
    (hne : t.toInt b ≠ 0)
    (h : t.InRange (c.tdiv (t.toInt b))) :
    (t.promote int).div strict (promoted int (t.ofInt c)) (promoted int b) =
      some (promoted int (t.ofInt (c.tdiv (t.toInt b)))) := by
  have hval := toInt_ofInt hc
  rw [div_promoted hne (by rwa [hval]), hval]

end Steps

section Exact

variable {int : Nat} {strict : Bool} {t : IntType}

theorem signed_addition
    (hsigned : t.signed = true)
    (a b : t.Value) :
    isAdditionUndefined int strict t a b .signedInteger =
      some (decide ¬t.InRange (t.toInt a + t.toInt b)) := by
  obtain ⟨hlow, hhigh⟩ := t.inRange_toInt a
  obtain ⟨hlow', hhigh'⟩ := t.inRange_toInt b
  have hasym := minValue_of_signed hsigned
  have hmax := maxValue_nonneg (t := t)
  rw [isAdditionUndefined, zero, lt_limit inRange_zero]
  split
  · next hneg =>
      replace hneg := of_decide_eq_true hneg
      have hr : t.InRange (t.minValue - t.toInt b) := ⟨by omega, by omega⟩
      rw [min, limit_sub inRange_min hr]
      refine congrArg some ((lt_limit hr).trans (decide_eq_decide.mpr ?_))
      rw [InRange]
      omega
  · next hneg =>
      replace hneg : ¬t.toInt b < 0 := fun h => hneg (decide_eq_true h)
      have hr : t.InRange (t.maxValue - t.toInt b) := ⟨by omega, by omega⟩
      rw [max, limit_sub inRange_max hr]
      refine congrArg some ((limit_lt hr).trans (decide_eq_decide.mpr ?_))
      rw [InRange]
      omega

theorem unsigned_addition
    (hunsigned : t.signed = false)
    (a b : t.Value) :
    isAdditionUndefined int strict t a b .unsignedInteger =
      some (decide ¬t.InRange (t.toInt a + t.toInt b)) := by
  obtain ⟨hlow, hhigh⟩ := t.inRange_toInt a
  obtain ⟨hlow', hhigh'⟩ := t.inRange_toInt b
  have hmin := minValue_of_unsigned hunsigned
  have hr : t.InRange (t.maxValue - t.toInt b) := ⟨by omega, by omega⟩
  rw [isAdditionUndefined, max, limit_sub inRange_max hr]
  refine congrArg some ((limit_lt hr).trans (decide_eq_decide.mpr ?_))
  rw [InRange]
  omega

theorem signed_subtraction
    (hsigned : t.signed = true)
    (a b : t.Value) :
    isSubtractionUndefined int strict t a b .signedInteger =
      some (decide ¬t.InRange (t.toInt a - t.toInt b)) := by
  obtain ⟨hlow, hhigh⟩ := t.inRange_toInt a
  obtain ⟨hlow', hhigh'⟩ := t.inRange_toInt b
  have hasym := minValue_of_signed hsigned
  have hmax := maxValue_nonneg (t := t)
  rw [isSubtractionUndefined, zero, lt_limit inRange_zero]
  split
  · next hneg =>
      replace hneg := of_decide_eq_true hneg
      have hr : t.InRange (t.maxValue + t.toInt b) := ⟨by omega, by omega⟩
      rw [max, limit_add inRange_max hr]
      refine congrArg some ((limit_lt hr).trans (decide_eq_decide.mpr ?_))
      rw [InRange]
      omega
  · next hneg =>
      replace hneg : ¬t.toInt b < 0 := fun h => hneg (decide_eq_true h)
      have hr : t.InRange (t.minValue + t.toInt b) := ⟨by omega, by omega⟩
      rw [min, limit_add inRange_min hr]
      refine congrArg some ((lt_limit hr).trans (decide_eq_decide.mpr ?_))
      rw [InRange]
      omega

theorem unsigned_subtraction
    (hunsigned : t.signed = false)
    (a b : t.Value) :
    isSubtractionUndefined int strict t a b .unsignedInteger =
      some (decide ¬t.InRange (t.toInt a - t.toInt b)) := by
  obtain ⟨hlow, hhigh⟩ := t.inRange_toInt a
  obtain ⟨hlow', hhigh'⟩ := t.inRange_toInt b
  have hmin := minValue_of_unsigned hunsigned
  rw [isSubtractionUndefined, lt_promoted]
  refine congrArg some (decide_eq_decide.mpr ?_)
  rw [InRange]
  omega

theorem inRange_max_div
    (hsigned : t.signed = true)
    (d : Int) :
    t.InRange (t.maxValue.tdiv d) := by
  have hasym := minValue_of_signed hsigned
  obtain ⟨hlow, hhigh⟩ := abs_tdiv_le t.maxValue d
  rw [abs_of_nonneg maxValue_nonneg] at hlow hhigh
  exact ⟨by omega, hhigh⟩

/-- The minimum is not divided by `-1`. -/
theorem inRange_min_div
    {d : Int}
    (hd : 0 < d) :
    t.InRange (t.minValue.tdiv d) := by
  have hmax := maxValue_nonneg (t := t)
  obtain ⟨hlow, -⟩ := abs_tdiv_le t.minValue d
  rw [abs_of_nonpos minValue_nonpos, neg_neg] at hlow
  have hsign : t.minValue.tdiv d ≤ 0 := by
    rw [← neg_neg t.minValue, Int.neg_tdiv]
    exact Int.neg_nonpos_of_nonneg
      (Int.tdiv_nonneg (Int.neg_nonneg_of_nonpos minValue_nonpos) hd.le)
  exact ⟨hlow, by omega⟩

/-- A product of factors with the same sign. -/
theorem not_inRange_of_nonneg
    {x : Int}
    (h : 0 ≤ x) :
    ¬t.InRange x ↔ t.maxValue < x := by
  have hmin := minValue_nonpos (t := t)
  rw [InRange]
  omega

/-- A product of factors with different signs. -/
theorem not_inRange_of_nonpos
    {x : Int}
    (h : x ≤ 0) :
    ¬t.InRange x ↔ x < t.minValue := by
  have hmax := maxValue_nonneg (t := t)
  rw [InRange]
  omega

/-- The four quadrants. -/
theorem signed_multiplication
    (hsigned : t.signed = true)
    (a b : t.Value) :
    isMultiplcationUndefined int strict t a b .signedInteger =
      some (decide ¬t.InRange (t.toInt a * t.toInt b)) := by
  rw [isMultiplcationUndefined, zero, le_promoted, le_promoted, toInt_ofInt inRange_zero]
  by_cases ha : t.toInt a ≤ 0 <;> by_cases hb : t.toInt b ≤ 0
  · have hprod : 0 ≤ t.toInt a * t.toInt b := Int.mul_nonneg_of_nonpos_of_nonpos ha hb
    rw [if_pos (decide_eq_true ha), if_pos (decide_eq_true hb)]
    simp only [promoted_eq_zero_iff]
    split
    · next hzero =>
        refine congrArg some (decide_eq_false ?_).symm
        rw [hzero, Int.zero_mul, not_not]
        exact inRange_zero
    · next hne =>
        have hq := inRange_max_div hsigned (t.toInt a)
        rw [max, limit_div inRange_max hne hq]
        refine congrArg some ((lt_limit hq).trans (decide_eq_decide.mpr ?_))
        rw [not_inRange_of_nonneg hprod, lt_tdiv_iff_of_neg maxValue_nonneg (by omega), mul_comm]
  · have hpos : 0 < t.toInt b := by omega
    have hprod : t.toInt a * t.toInt b ≤ 0 := Int.mul_nonpos_of_nonpos_of_nonneg ha hpos.le
    have hq := inRange_min_div (t := t) hpos
    rw [if_pos (decide_eq_true ha), if_neg (by simpa using hpos), min,
      limit_div inRange_min hpos.ne' hq]
    refine congrArg some ((lt_limit hq).trans (decide_eq_decide.mpr ?_))
    rw [not_inRange_of_nonpos hprod, lt_tdiv_iff_of_nonpos minValue_nonpos hpos]
  · have hpos : 0 < t.toInt a := by omega
    have hprod : t.toInt a * t.toInt b ≤ 0 := Int.mul_nonpos_of_nonneg_of_nonpos hpos.le hb
    have hq := inRange_min_div (t := t) hpos
    rw [if_neg (by simpa using hpos), if_pos (decide_eq_true hb), min,
      limit_div inRange_min hpos.ne' hq]
    refine congrArg some ((lt_limit hq).trans (decide_eq_decide.mpr ?_))
    rw [not_inRange_of_nonpos hprod, lt_tdiv_iff_of_nonpos minValue_nonpos hpos, mul_comm]
  · have hpos : 0 < t.toInt a := by omega
    have hpos' : 0 < t.toInt b := by omega
    have hq := inRange_max_div hsigned (t.toInt b)
    rw [if_neg (by simpa using hpos), if_neg (by simpa using hpos'), max,
      limit_div inRange_max hpos'.ne' hq]
    refine congrArg some ((limit_lt hq).trans (decide_eq_decide.mpr ?_))
    rw [not_inRange_of_nonneg (Int.mul_nonneg hpos.le hpos'.le), tdiv_lt_iff maxValue_nonneg hpos']

theorem unsigned_multiplication
    (hunsigned : t.signed = false)
    (a b : t.Value) :
    isMultiplcationUndefined int strict t a b .unsignedInteger =
      some (decide ¬t.InRange (t.toInt a * t.toInt b)) := by
  have hmin := minValue_of_unsigned hunsigned
  obtain ⟨ha, -⟩ := t.inRange_toInt a
  obtain ⟨hb, -⟩ := t.inRange_toInt b
  rw [hmin] at ha hb
  simp only [isMultiplcationUndefined, zero, promoted_eq_zero_iff]
  split
  · next hzero =>
      refine congrArg some (decide_eq_false ?_).symm
      rw [hzero, Int.mul_zero, not_not]
      exact inRange_zero
  · next hne =>
      have hpos : 0 < t.toInt b := by omega
      have hq : t.InRange (t.maxValue.tdiv (t.toInt b)) :=
        ⟨hmin ▸ Int.tdiv_nonneg maxValue_nonneg hb, Int.tdiv_le_self _ maxValue_nonneg⟩
      rw [max, limit_div inRange_max hne hq]
      refine congrArg some ((limit_lt hq).trans (decide_eq_decide.mpr ?_))
      rw [not_inRange_of_nonneg (Int.mul_nonneg ha hb), tdiv_lt_iff maxValue_nonneg hpos]

/--
For all values of every type, each predicate says exactly whether the mathematical result is
not representable.  In strict arithmetic it has the same value: nothing that it evaluates
overflows, wraps around or divides by zero.
-/
theorem predicates_exact
    (int : Nat) (strict : Bool) (t : IntType) (a b : t.Value) :
    isAdditionUndefined int strict t a b (integerTag t) =
        some (decide ¬t.InRange (t.toInt a + t.toInt b)) ∧
      isSubtractionUndefined int strict t a b (integerTag t) =
        some (decide ¬t.InRange (t.toInt a - t.toInt b)) ∧
      isMultiplcationUndefined int strict t a b (integerTag t) =
        some (decide ¬t.InRange (t.toInt a * t.toInt b)) := by
  rw [integerTag]
  cases hsigned : t.signed with
  | true =>
      exact ⟨signed_addition hsigned a b, signed_subtraction hsigned a b,
        signed_multiplication hsigned a b⟩
  | false =>
      exact ⟨unsigned_addition hsigned a b, unsigned_subtraction hsigned a b,
        unsigned_multiplication hsigned a b⟩

end Exact

section Quotients

variable {int : Nat} {t : IntType}

/-- The minimum divided by `-1` is the one quotient that is not representable. -/
theorem inRange_tdiv_iff
    (hsigned : t.signed = true)
    {x y : Int}
    (hx : t.InRange x) (hy : y ≠ 0) :
    t.InRange (x.tdiv y) ↔ ¬(x = t.minValue ∧ y = -1) := by
  have hasym := minValue_of_signed hsigned
  have hmax := maxValue_nonneg (t := t)
  constructor
  · rintro hin ⟨rfl, rfl⟩
    have hhigh := hin.2
    rw [Int.tdiv_neg, Int.tdiv_one] at hhigh
    omega
  · intro hne
    rcases eq_or_ne x t.minValue with rfl | hx'
    · have hminus : y ≠ -1 := fun h => hne ⟨rfl, h⟩
      rcases Int.lt_or_gt_of_ne hy with hneg | hpos
      · -- the absolute value is at most the half
        have hlt : (-t.minValue).tdiv (-y) < -t.minValue := by
          rw [tdiv_lt_iff (by omega) (by omega)]
          exact lt_mul_of_one_lt_right (by omega) (by omega)
        have hnonneg : 0 ≤ (-t.minValue).tdiv (-y) := Int.tdiv_nonneg (by omega) (by omega)
        rw [Int.neg_tdiv_neg] at hlt hnonneg
        exact ⟨by omega, by omega⟩
      · exact inRange_min_div hpos
    · obtain ⟨hlow, hhigh⟩ := abs_tdiv_le x y
      have habs : |x| ≤ t.maxValue := by
        have := hx.1
        exact abs_le'.mpr ⟨hx.2, by omega⟩
      exact ⟨by omega, by omega⟩

/-- Quotients of an unsigned type are representable. -/
theorem inRange_tdiv_of_unsigned
    (hunsigned : t.signed = false)
    {x y : Int}
    (hx : t.InRange x) (hy : t.InRange y) :
    t.InRange (x.tdiv y) := by
  have hmin := minValue_of_unsigned hunsigned
  have hx' : 0 ≤ x := hmin ▸ hx.1
  have hy' : 0 ≤ y := hmin ▸ hy.1
  exact ⟨hmin ▸ Int.tdiv_nonneg hx' hy', (Int.tdiv_le_self y hx').trans hx.2⟩

/-- The rule of the language for a quotient. -/
theorem div_eq_none_iff (x y : t.Value) :
    t.div false x y = none ↔
      t.toInt y = 0 ∨ ¬t.InRange ((t.toInt x).tdiv (t.toInt y)) := by
  rw [div]
  split
  · next hzero =>
      exact iff_of_true rfl (Or.inl hzero)
  · next hne =>
      rw [or_iff_right hne]
      cases hsigned : t.signed with
      | true =>
          rw [← isSome_result_iff hsigned, Bool.not_eq_true, Option.isSome_eq_false_iff,
            Option.isNone_iff_eq_none]
      | false =>
          rw [result_of_unsigned hsigned]
          refine iff_of_false (Option.some_ne_none _) (not_not.mpr ?_)
          exact inRange_tdiv_of_unsigned hsigned (t.inRange_toInt x) (t.inRange_toInt y)

/-- The same rule for a remainder. -/
theorem mod_eq_none_iff (x y : t.Value) :
    t.mod false x y = none ↔
      t.toInt y = 0 ∨ ¬t.InRange ((t.toInt x).tdiv (t.toInt y)) := by
  rw [mod, Option.map_eq_none_iff, div_eq_none_iff]

theorem signed_division
    (hsigned : t.signed = true)
    (a b : t.Value) :
    isDivisionUndefined int t a b .signedInteger = true ↔
      t.toInt b = 0 ∨ ¬t.InRange ((t.toInt a).tdiv (t.toInt b)) := by
  have hminus : t.InRange (-1) := by
    have hmax := maxValue_nonneg (t := t)
    have hasym := minValue_of_signed hsigned
    exact ⟨by omega, by omega⟩
  rw [isDivisionUndefined, zero, minusOne, min, Bool.or_eq_true, Bool.and_eq_true,
    decide_eq_true_eq, decide_eq_true_eq, decide_eq_true_eq, promoted_eq_zero_iff,
    promoted_eq_iff hminus, promoted_eq_iff inRange_min]
  rcases eq_or_ne (t.toInt b) 0 with hzero | hne
  · exact iff_of_true (Or.inl hzero) (Or.inl hzero)
  · rw [or_iff_right hne, or_iff_right hne, inRange_tdiv_iff hsigned (t.inRange_toInt a) hne,
      not_not]
    exact and_comm

theorem unsigned_division
    (hunsigned : t.signed = false)
    (a b : t.Value) :
    isDivisionUndefined int t a b .unsignedInteger = true ↔
      t.toInt b = 0 ∨ ¬t.InRange ((t.toInt a).tdiv (t.toInt b)) := by
  have hin := inRange_tdiv_of_unsigned hunsigned (t.inRange_toInt a) (t.inRange_toInt b)
  rw [isDivisionUndefined, zero, decide_eq_true_eq, promoted_eq_zero_iff,
    or_iff_left (not_not.mpr hin)]

theorem modulo_eq_true_iff (a b : t.Value) (tag : IntegerTag) :
    isModuloUndefined int t a b tag = true ↔ t.toInt b = 0 := by
  cases tag with
  | signedInteger =>
      rw [isModuloUndefined, zero, decide_eq_true_eq, promoted_eq_zero_iff]
  | unsignedInteger =>
      rw [isModuloUndefined, zero, decide_eq_true_eq, promoted_eq_zero_iff]

/-- Division by zero is the only case that the predicate for `%` knows. -/
theorem modulo_exact_iff (a b : t.Value) :
    (t.toInt b = 0 ↔ t.toInt b = 0 ∨ ¬t.InRange ((t.toInt a).tdiv (t.toInt b))) ↔
      ¬(t.signed = true ∧ t.toInt a = t.minValue ∧ t.toInt b = -1) := by
  rcases eq_or_ne (t.toInt b) 0 with hzero | hne
  · refine iff_of_true (iff_of_true hzero (Or.inl hzero)) ?_
    rintro ⟨-, -, hminus⟩
    omega
  · rw [or_iff_right hne, iff_false_left hne, not_not]
    cases hsigned : t.signed with
    | true =>
        rw [inRange_tdiv_iff hsigned (t.inRange_toInt a) hne]
        simp
    | false =>
        refine iff_of_true ?_ (by simp)
        exact inRange_tdiv_of_unsigned hsigned (t.inRange_toInt a) (t.inRange_toInt b)

/--
Without promotion, both operators are undefined exactly if `b` is zero or the quotient is
not representable, and the predicate for `/` says so.  The predicate for `%` says so except
at the minimum of a signed type and `-1`.
-/
theorem division_predicates_iff
    (hwidth : int ≤ t.bits)
    (a b : t.Value) :
    ((t.promote int).div false (promoted int a) (promoted int b) = none ↔
        t.toInt b = 0 ∨ ¬t.InRange ((t.toInt a).tdiv (t.toInt b))) ∧
      ((t.promote int).mod false (promoted int a) (promoted int b) = none ↔
        t.toInt b = 0 ∨ ¬t.InRange ((t.toInt a).tdiv (t.toInt b))) ∧
      (isDivisionUndefined int t a b (integerTag t) = true ↔
        (t.promote int).div false (promoted int a) (promoted int b) = none) ∧
      ((isModuloUndefined int t a b (integerTag t) = true ↔
          (t.promote int).mod false (promoted int a) (promoted int b) = none) ↔
        ¬(t.signed = true ∧ t.toInt a = t.minValue ∧ t.toInt b = -1)) := by
  have hrange : ∀ x, (t.promote int).InRange x ↔ t.InRange x := by
    intro x
    rw [promote_of_not_lt (Nat.not_lt.mpr hwidth)]
  have hdiv := div_eq_none_iff (promoted int a) (promoted int b)
  have hmod := mod_eq_none_iff (promoted int a) (promoted int b)
  rw [toInt_promoted, toInt_promoted, hrange] at hdiv hmod
  refine ⟨hdiv, hmod, ?_, ?_⟩
  · rw [hdiv, integerTag]
    cases hsigned : t.signed with
    | true => exact signed_division hsigned a b
    | false => exact unsigned_division hsigned a b
  · rw [hmod, modulo_eq_true_iff]
    exact modulo_exact_iff a b

/-- `int`: the minimum divided by 2, and by `-1`. -/
theorem division_predicates_int32 :
    32 ≤ int32.bits ∧
      isModuloUndefined 32 int32 (int32.ofInt int32.minValue) (int32.ofInt 2)
          (integerTag int32) = false ∧
      isDivisionUndefined 32 int32 (int32.ofInt int32.minValue) (int32.ofInt (-1))
          (integerTag int32) = true := by
  obtain ⟨-, hmod, -, hexact⟩ := division_predicates_iff (Nat.le_refl int32.bits)
    (int32.ofInt int32.minValue) (int32.ofInt 2)
  obtain ⟨hdiv, -, hpredicate, -⟩ := division_predicates_iff (Nat.le_refl int32.bits)
    (int32.ofInt int32.minValue) (int32.ofInt (-1))
  refine ⟨Nat.le_refl 32, ?_, ?_⟩
  · have hiff := hexact.mpr (by decide)
    rw [hmod] at hiff
    exact Bool.eq_false_iff.mpr fun h => absurd (hiff.mp h) (by decide)
  · exact hpredicate.mpr (hdiv.mpr (by decide))

/-- The remainder of the minimum and `-1` is undefined, and the predicate says it is not. -/
theorem not_modulo_exact :
    isModuloUndefined 32 int32 (int32.ofInt int32.minValue) (int32.ofInt (-1))
        (integerTag int32) = false ∧
      (int32.promote 32).mod false (promoted 32 (int32.ofInt int32.minValue))
        (promoted 32 (int32.ofInt (-1))) = none := by
  decide

end Quotients

end IntegerChecking
end Ptl

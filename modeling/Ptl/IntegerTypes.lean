import Mathlib.Algebra.Order.Ring.Int
import Mathlib.Tactic.Ring.RingNF

/-!
# Integer types and their arithmetic

An integer type has a width and a sign.  Its values are bit patterns, read in two's
complement if the type is signed.  Operands narrower than `int` are promoted to it.

The result of an operation is the mathematical one, if it is representable.  Otherwise it
has no value in a signed type, and wraps around in an unsigned one.  `strict` arithmetic
has no value in either case: an expression that it evaluates does not overflow.

**Rules.**
* `toInt_ofInt`, `ofInt_toInt`: the integers in the range are the values of the type.
* `toInt_promoted`: promotion preserves values.
* `add_promoted`, `sub_promoted`, `div_promoted`, `lt_promoted`, `le_promoted`: operations on
  promoted operands with representable results.
* `demoted_add`, `demoted_sub`, `demoted_shiftLeft`, `demoted_and`, `demoted_or`, `demoted_not`:
  the pattern of a result does not depend on the promotion.
* `tdiv_lt_iff`, `lt_tdiv_iff_of_nonpos`, `lt_tdiv_iff_of_neg`: comparing with a quotient is
  comparing with a product.
-/

namespace Ptl
namespace Integers

/-- An integer type. -/
structure IntType where
  bits : Nat
  signed : Bool
  bits_pos : 0 < bits
deriving DecidableEq

/-- Dropping bits of an integer's pattern. -/
theorem setWidth_ofInt
    {k w : Nat}
    (h : k ≤ w)
    (z : Int) :
    (BitVec.ofInt w z).setWidth k = BitVec.ofInt k z := by
  have hdvd : (2 : Int) ^ k ∣ 2 ^ w := pow_dvd_pow _ h
  have hk : (2 : Int) ^ k ≠ 0 := pow_ne_zero _ (by decide)
  have hw : (2 : Int) ^ w ≠ 0 := pow_ne_zero _ (by decide)
  apply BitVec.eq_of_toNat_eq
  rw [BitVec.toNat_setWidth, BitVec.toNat_ofInt, BitVec.toNat_ofInt]
  push_cast
  rw [← Int.natCast_inj, Int.natCast_emod, Int.toNat_of_nonneg (Int.emod_nonneg _ hw),
    Int.toNat_of_nonneg (Int.emod_nonneg _ hk)]
  exact Int.emod_emod_of_dvd z hdvd

namespace IntType

variable (t : IntType)

/-- The values of a type, as bit patterns. -/
abbrev Value := BitVec t.bits

def minValue : Int :=
  if t.signed then -2 ^ (t.bits - 1) else 0

def maxValue : Int :=
  if t.signed then 2 ^ (t.bits - 1) - 1 else 2 ^ t.bits - 1

/-- The integer is representable in the type. -/
def InRange (x : Int) : Prop :=
  t.minValue ≤ x ∧ x ≤ t.maxValue

instance (x : Int) : Decidable (t.InRange x) :=
  inferInstanceAs (Decidable (_ ∧ _))

def toInt (x : t.Value) : Int :=
  if t.signed then BitVec.toInt x else x.toNat

/-- The value that is congruent to the integer. -/
def ofInt (x : Int) : t.Value :=
  BitVec.ofInt t.bits x

theorem two_pow_bits :
    (2 : Int) ^ t.bits = 2 * 2 ^ (t.bits - 1) := by
  obtain ⟨k, hk⟩ := Nat.exists_eq_succ_of_ne_zero t.bits_pos.ne'
  rw [hk, Nat.succ_sub_one, pow_succ, mul_comm]

theorem inRange_toInt (x : t.Value) : t.InRange (t.toInt x) := by
  have hpow := t.two_pow_bits
  rw [InRange, toInt, minValue, maxValue]
  split
  · have hlow := BitVec.le_two_mul_toInt (x := x)
    have hhigh := BitVec.two_mul_toInt_lt (x := x)
    omega
  · have hlt : (x.toNat : Int) < 2 ^ t.bits := by exact_mod_cast x.isLt
    omega

variable {t}

theorem toInt_ofInt
    {x : Int}
    (h : t.InRange x) :
    t.toInt (t.ofInt x) = x := by
  have hpow := t.two_pow_bits
  rw [InRange, minValue, maxValue] at h
  rw [toInt, ofInt]
  split
  · next hsigned =>
      rw [if_pos hsigned, if_pos hsigned] at h
      rw [BitVec.toInt_ofInt]
      apply Int.bmod_eq_of_le <;> push_cast <;> omega
  · next hsigned =>
      rw [if_neg hsigned, if_neg hsigned] at h
      rw [BitVec.toNat_ofInt]
      push_cast
      rw [Int.emod_eq_of_lt h.1 (by omega)]
      exact Int.toNat_of_nonneg h.1

@[simp] theorem ofInt_toInt (x : t.Value) :
    t.ofInt (t.toInt x) = x := by
  rw [ofInt, toInt]
  split
  · exact BitVec.ofInt_toInt
  · exact BitVec.ofInt_natCast .. |>.trans (BitVec.ofNat_toNat ..) |>.trans (BitVec.setWidth_eq x)

theorem toInt_inj
    {x y : t.Value} :
    t.toInt x = t.toInt y ↔ x = y := by
  constructor
  · intro h
    rw [← ofInt_toInt x, h, ofInt_toInt]
  · exact congrArg _

/-- The conversion to another type. -/
def convert (t u : IntType) (x : t.Value) : u.Value :=
  u.ofInt (t.toInt x)

/-- The type that operands are promoted to, with the width of `int`. -/
def promote (t : IntType) (int : Nat) : IntType :=
  if h : t.bits < int then
    { bits := int, signed := true, bits_pos := Nat.zero_lt_of_lt h }
  else t

theorem inRange_promote
    {x : Int} (int : Nat)
    (h : t.InRange x) :
    (t.promote int).InRange x := by
  rw [promote]
  split
  · next hlt =>
      have hpow := t.two_pow_bits
      have hpos : (0 : Int) < 2 ^ (t.bits - 1) := pow_pos (by decide) _
      have hle : (2 : Int) ^ t.bits ≤ 2 ^ (int - 1) :=
        pow_le_pow_right₀ (by decide) (by omega)
      simp only [InRange, minValue, maxValue, if_true] at h ⊢
      split at h <;> omega
  · exact h

/-- An operand, promoted. -/
def promoted (int : Nat) (x : t.Value) : (t.promote int).Value :=
  t.convert (t.promote int) x

@[simp] theorem toInt_promoted (int : Nat) (x : t.Value) :
    (t.promote int).toInt (promoted int x) = t.toInt x :=
  toInt_ofInt (inRange_promote int (t.inRange_toInt x))

section Arithmetic

variable (t) (strict : Bool)

/-- The result of an operation. -/
def result (x : Int) : Option t.Value :=
  if t.InRange x ∨ (!strict && !t.signed) = true then some (t.ofInt x) else none

def add (x y : t.Value) : Option t.Value :=
  t.result strict (t.toInt x + t.toInt y)

def sub (x y : t.Value) : Option t.Value :=
  t.result strict (t.toInt x - t.toInt y)

/-- Division truncates towards zero. -/
def div (x y : t.Value) : Option t.Value :=
  if t.toInt y = 0 then none else t.result strict ((t.toInt x).tdiv (t.toInt y))

/-- The remainder has a value only if the quotient has one. -/
def mod (x y : t.Value) : Option t.Value :=
  (t.div strict x y).map fun _ => t.ofInt ((t.toInt x).tmod (t.toInt y))

/-- Shifts have no value if the second operand is not below the width. -/
def shl (x : t.Value) (k : Nat) : Option t.Value :=
  if k < t.bits then some (x <<< k) else none

/-- Signed values are shifted with their sign. -/
def shr (x : t.Value) (k : Nat) : Option t.Value :=
  if k < t.bits then some (if t.signed then BitVec.sshiftRight x k else x >>> k) else none

def lt (x y : t.Value) : Bool :=
  t.toInt x < t.toInt y

def le (x y : t.Value) : Bool :=
  t.toInt x ≤ t.toInt y

end Arithmetic

section Patterns

/-- An operation that has a value gives the pattern that wraps around. -/
theorem result_eq_some
    {strict : Bool} {x : Int} {z : t.Value}
    (h : t.result strict x = some z) :
    z = t.ofInt x := by
  rw [result] at h
  split at h
  · exact (Option.some.inj h).symm
  · cases h

theorem add_eq_some
    {strict : Bool} {x y z : t.Value}
    (h : t.add strict x y = some z) :
    z = x + y := by
  rw [result_eq_some h, ofInt, BitVec.ofInt_add]
  exact congrArg₂ _ (ofInt_toInt x) (ofInt_toInt y)

theorem sub_eq_some
    {strict : Bool} {x y z : t.Value}
    (h : t.sub strict x y = some z) :
    z = x - y := by
  rw [result_eq_some h, ofInt, sub_eq_add_neg, BitVec.ofInt_add, BitVec.ofInt_neg,
    BitVec.sub_eq_add_neg]
  exact congrArg₂ (· + -·) (ofInt_toInt x) (ofInt_toInt y)

theorem toInt_of_unsigned
    (h : t.signed = false)
    (x : t.Value) :
    t.toInt x = x.toNat :=
  if_neg (by simp [h])

/-- Without the sign bit, a value is what its pattern reads as. -/
theorem toInt_of_lt
    {x : t.Value}
    (h : x.toNat < 2 ^ (t.bits - 1)) :
    t.toInt x = x.toNat := by
  have hpow := t.two_pow_bits
  rw [toInt]
  split
  · rw [BitVec.toInt_eq_toNat_of_lt]
    have hcast : (x.toNat : Int) < 2 ^ (t.bits - 1) := by exact_mod_cast h
    have htwice : 2 * (x.toNat : Int) < 2 ^ t.bits := by omega
    exact_mod_cast htwice
  · rfl

/-- Promotion leaves room for the patterns of an unsigned type. -/
theorem toInt_promote_of_unsigned
    {int : Nat}
    (hunsigned : t.signed = false)
    {x : (t.promote int).Value}
    (h : x.toNat < 2 ^ t.bits) :
    (t.promote int).toInt x = x.toNat := by
  by_cases hlt : t.bits < int
  · refine toInt_of_lt (h.trans_le (Nat.pow_le_pow_right Nat.two_pos ?_))
    rw [promote, dif_pos hlt]
    exact Nat.le_sub_one_of_lt hlt
  · refine toInt_of_unsigned ?_ x
    rw [promote, dif_neg hlt, hunsigned]

/-- A conversion to a type that is not wider drops bits. -/
theorem convert_of_le
    {u : IntType}
    (h : u.bits ≤ t.bits)
    (x : t.Value) :
    t.convert u x = BitVec.setWidth u.bits x := by
  rw [convert, ofInt, toInt]
  split
  · exact BitVec.signExtend_eq_setWidth_of_le x h
  · rw [BitVec.ofInt_natCast, BitVec.ofNat_toNat]

theorem bits_le_promote (t : IntType) (int : Nat) :
    t.bits ≤ (t.promote int).bits := by
  rw [promote]
  split
  · next h => exact h.le
  · exact le_rfl

/-- The result of an operation, converted back. -/
def demoted (int : Nat) (x : (t.promote int).Value) : t.Value :=
  (t.promote int).convert t x

theorem demoted_eq (int : Nat) (x : (t.promote int).Value) :
    demoted int x = BitVec.setWidth t.bits x :=
  convert_of_le (t.bits_le_promote int) x

@[simp] theorem demoted_promoted (int : Nat) (x : t.Value) :
    demoted int (promoted int x) = x := by
  rw [demoted, convert, toInt_promoted, ofInt_toInt]

theorem getLsbD_demoted
    {j : Nat}
    (hj : j < t.bits)
    (int : Nat) (x : (t.promote int).Value) :
    (demoted int x).getLsbD j = x.getLsbD j := by
  rw [demoted_eq, BitVec.getLsbD_setWidth]
  simp [hj]

theorem getLsbD_promoted
    {j : Nat}
    (hj : j < t.bits)
    (int : Nat) (x : t.Value) :
    (promoted int x).getLsbD j = x.getLsbD j := by
  rw [← getLsbD_demoted hj, demoted_promoted]

/-- Bits of the result come from bits of the same or a lower place. -/
theorem demoted_shiftLeft (int k : Nat) (x : (t.promote int).Value) :
    demoted int (x <<< k) = demoted int x <<< k := by
  have hle := t.bits_le_promote int
  apply BitVec.eq_of_getLsbD_eq
  intro j hj
  rw [getLsbD_demoted hj, BitVec.getLsbD_shiftLeft, BitVec.getLsbD_shiftLeft]
  by_cases hk : j < k
  · simp [hk]
  · rw [getLsbD_demoted (by omega)]
    simp [hj, hj.trans_le hle]

theorem demoted_and (int : Nat) (x y : (t.promote int).Value) :
    demoted int (x &&& y) = demoted int x &&& demoted int y := by
  rw [demoted_eq, demoted_eq, demoted_eq, BitVec.setWidth_and]

theorem demoted_or (int : Nat) (x y : (t.promote int).Value) :
    demoted int (x ||| y) = demoted int x ||| demoted int y := by
  rw [demoted_eq, demoted_eq, demoted_eq, BitVec.setWidth_or]

theorem demoted_not (int : Nat) (x : (t.promote int).Value) :
    demoted int (~~~x) = ~~~demoted int x := by
  rw [demoted_eq, demoted_eq, BitVec.setWidth_not (t.bits_le_promote int)]

theorem demoted_add (int : Nat) (x y : (t.promote int).Value) :
    demoted int (x + y) = demoted int x + demoted int y := by
  rw [demoted_eq, demoted_eq, demoted_eq, BitVec.setWidth_add _ _ (t.bits_le_promote int)]

theorem demoted_sub (int : Nat) (x y : (t.promote int).Value) :
    demoted int (x - y) = demoted int x - demoted int y := by
  have hsum := demoted_add int (x - y) y
  rw [BitVec.sub_add_cancel] at hsum
  rw [hsum, BitVec.add_sub_cancel]

end Patterns

theorem result_of_inRange
    {strict : Bool} {x : Int}
    (h : t.InRange x) :
    t.result strict x = some (t.ofInt x) :=
  if_pos (.inl h)

/-- A result that is representable before the promotion. -/
theorem result_promote
    {strict : Bool} {int : Nat} {x : Int}
    (h : t.InRange x) :
    (t.promote int).result strict x = some (promoted int (t.ofInt x)) := by
  rw [result_of_inRange (inRange_promote int h), promoted, convert, toInt_ofInt h]

/-- In C++ arithmetic a signed result has to be representable. -/
theorem isSome_result_iff
    (h : t.signed = true)
    (x : Int) :
    (t.result false x).isSome = true ↔ t.InRange x := by
  rw [result]
  split
  · next hin => simpa [h] using hin
  · next hin => simpa [h] using hin

/-- In C++ arithmetic an unsigned result wraps around. -/
theorem result_of_unsigned
    (h : t.signed = false)
    (x : Int) :
    t.result false x = some (t.ofInt x) :=
  if_pos (.inr (by simp [h]))

theorem signed_promote_of_lt
    {int : Nat}
    (h : t.bits < int) :
    (t.promote int).signed = true := by
  rw [promote, dif_pos h]

theorem promote_of_not_lt
    {int : Nat}
    (h : ¬t.bits < int) :
    t.promote int = t :=
  dif_neg h

theorem signed_promote
    (h : t.signed = true)
    (int : Nat) :
    (t.promote int).signed = true := by
  rw [promote]
  split
  · rfl
  · exact h

theorem inRange_of_unsigned
    (hunsigned : t.signed = false)
    {x : Int}
    (hnonneg : 0 ≤ x) (hlt : x < 2 ^ t.bits) :
    t.InRange x := by
  have hsigned : ¬t.signed = true := by simp [hunsigned]
  rw [InRange, minValue, maxValue, if_neg hsigned, if_neg hsigned]
  omega

section Promoted

variable {int : Nat} {strict : Bool} {x y : t.Value}

theorem add_promoted
    (h : t.InRange (t.toInt x + t.toInt y)) :
    (t.promote int).add strict (promoted int x) (promoted int y) =
      some (promoted int (t.ofInt (t.toInt x + t.toInt y))) := by
  rw [add, toInt_promoted, toInt_promoted, result_promote h]

theorem sub_promoted
    (h : t.InRange (t.toInt x - t.toInt y)) :
    (t.promote int).sub strict (promoted int x) (promoted int y) =
      some (promoted int (t.ofInt (t.toInt x - t.toInt y))) := by
  rw [sub, toInt_promoted, toInt_promoted, result_promote h]

theorem div_promoted
    (hne : t.toInt y ≠ 0)
    (h : t.InRange ((t.toInt x).tdiv (t.toInt y))) :
    (t.promote int).div strict (promoted int x) (promoted int y) =
      some (promoted int (t.ofInt ((t.toInt x).tdiv (t.toInt y)))) := by
  rw [div, toInt_promoted, toInt_promoted, if_neg hne, result_promote h]

theorem lt_promoted :
    (t.promote int).lt (promoted int x) (promoted int y) = decide (t.toInt x < t.toInt y) := by
  rw [lt, toInt_promoted, toInt_promoted]

theorem le_promoted :
    (t.promote int).le (promoted int x) (promoted int y) = decide (t.toInt x ≤ t.toInt y) := by
  rw [le, toInt_promoted, toInt_promoted]

end Promoted

/-- Plain `char`, on a platform where it is signed. -/
def char : IntType where
  bits := 8
  signed := true
  bits_pos := by decide

/-- `int`, and `int32_t`. -/
def int32 : IntType where
  bits := 32
  signed := true
  bits_pos := by decide

/-- `uint32_t`. -/
def uint32 : IntType where
  bits := 32
  signed := false
  bits_pos := by decide

/-- `uint64_t`. -/
def uint64 : IntType where
  bits := 64
  signed := false
  bits_pos := by decide

end IntType

section Quotients

variable {c d x : Int}

theorem tdiv_lt_iff
    (hc : 0 ≤ c)
    (hd : 0 < d) :
    c.tdiv d < x ↔ c < x * d := by
  rw [Int.tdiv_eq_ediv_of_nonneg hc]
  exact Int.ediv_lt_iff_lt_mul hd

theorem lt_tdiv_iff_of_nonpos
    (hc : c ≤ 0)
    (hd : 0 < d) :
    x < c.tdiv d ↔ x * d < c := by
  have h := tdiv_lt_iff (x := -x) (Int.neg_nonneg_of_nonpos hc) hd
  rw [Int.neg_tdiv, Int.neg_mul] at h
  omega

theorem lt_tdiv_iff_of_neg
    (hc : 0 ≤ c)
    (hd : d < 0) :
    x < c.tdiv d ↔ c < x * d := by
  have h := tdiv_lt_iff (x := -x) hc (Int.neg_pos_of_neg hd)
  rw [Int.tdiv_neg, Int.neg_mul_neg] at h
  omega

/-- Dividing does not increase the absolute value. -/
theorem abs_tdiv_le (c d : Int) :
    -|c| ≤ c.tdiv d ∧ c.tdiv d ≤ |c| := by
  have h := Int.natAbs_tdiv_le_natAbs c d
  rw [Int.abs_eq_natAbs]
  omega

end Quotients

end Integers
end Ptl

import Ptl.IntegerTypes
import Ptl.BitRange

/-!
# `bitfield.hpp`

A `bit_field_member` holds the whole word in `value_`; the members of a bit field type share
it.  Operands are promoted, and the results are converted back to `T`; `mask0` and `mask` are
read as calls.

**Results.**
* `read_eq`: a member reads as its field of the word.
* `assignable_iff`, `increasable_iff`, `decreasable_iff`: what the assertions say.
* `assign_eq`, `increase_eq`, `decrease_eq`: what the operations do to the word.
* `signed_confined_iff`: when the operations on a signed word stay in the bits of the member.
-/

namespace Ptl
namespace BitField

open Integers IntType BitRange

/--
A member with the bounds that its static assertions check.  The sum `Bits + Offset` is a
`size_t`, which wraps for an `Offset` near `2^64`; such members are left out.
-/
structure Member (t : IntType) where
  offset : Nat
  bits : Nat
  sizeof : Nat
  width : t.bits = sizeof * 8
  bits_lt : bits < sizeof * 8
  fits : bits + offset ≤ sizeof * 8
deriving DecidableEq

section Operators

variable (int : Nat) {t : IntType} (m : Member t)

def mask0 : Option t.Value := do
  let p := t.promote int
  let bit ← p.shl (promoted int (t.ofInt 1)) m.bits
  let r ← p.sub false bit (p.ofInt 1)
  some (demoted int r)

def mask : Option t.Value := do
  let low ← mask0 int m
  let r ← (t.promote int).shl (promoted int low) m.offset
  some (demoted int r)

/-- `operator T`. -/
def read (value : t.Value) : Option t.Value := do
  let shifted ← (t.promote int).shr (promoted int value) m.offset
  let low ← mask0 int m
  some (demoted int (shifted &&& promoted int low))

/-- The assertion of `operator=`. -/
def assignable (v : t.Value) : Option Bool := do
  let low ← mask0 int m
  some ((t.promote int).le (promoted int v) (promoted int low))

/-- The statement of `operator=`. -/
def assign (value v : t.Value) : Option t.Value := do
  let own ← mask int m
  let shifted ← (t.promote int).shl (promoted int v) m.offset
  some (demoted int (promoted int value &&& ~~~promoted int own ||| shifted))

/-- The assertion of `operator+=`. -/
def increasable (value v : t.Value) : Option Bool := do
  let p := t.promote int
  let x ← read int m value
  let sum ← p.add false (promoted int x) (promoted int v)
  let low ← mask0 int m
  some (p.le sum (promoted int low))

/-- The statement of `operator+=`. -/
def increase (value v : t.Value) : Option t.Value := do
  let p := t.promote int
  let shifted ← p.shl (promoted int v) m.offset
  let sum ← p.add false (promoted int value) shifted
  some (demoted int sum)

/-- The assertion of `operator-=`. -/
def decreasable (value v : t.Value) : Option Bool := do
  let x ← read int m value
  some ((t.promote int).le (promoted int v) (promoted int x))

/-- The statement of `operator-=`. -/
def decrease (value v : t.Value) : Option t.Value := do
  let p := t.promote int
  let shifted ← p.shl (promoted int v) m.offset
  let difference ← p.sub false (promoted int value) shifted
  some (demoted int difference)

end Operators

section Specification

variable {int : Nat} {t : IntType} {m : Member t} {value v : t.Value}

theorem Member.bits_lt_bits (m : Member t) : m.bits < t.bits := by
  rw [m.width]
  exact m.bits_lt

theorem Member.offset_add_bits_le (m : Member t) : m.offset + m.bits ≤ t.bits := by
  rw [m.width, Nat.add_comm]
  exact m.fits

/-- The bits of a member, from bit `0` on. -/
def Member.low (m : Member t) : t.Value :=
  BitVec.ofNat t.bits (2 ^ m.bits - 1)

theorem Member.two_pow_bits_le (m : Member t) : 2 ^ m.bits ≤ 2 ^ (t.bits - 1) :=
  Nat.pow_le_pow_right Nat.two_pos (Nat.le_sub_one_of_lt m.bits_lt_bits)

/-- A value that fits into the member. -/
theorem toInt_of_fits
    {x : Nat}
    (hx : x < 2 ^ m.bits) :
    t.toInt (BitVec.ofNat t.bits x) = x := by
  have hlt : x < 2 ^ (t.bits - 1) := hx.trans_le m.two_pow_bits_le
  have hmod : x % 2 ^ t.bits = x :=
    Nat.mod_eq_of_lt (hlt.trans_le (Nat.pow_le_pow_right Nat.two_pos (Nat.sub_le ..)))
  have htoNat : (BitVec.ofNat t.bits x).toNat = x := by rw [BitVec.toNat_ofNat, hmod]
  rw [toInt_of_lt (by rwa [htoNat]), htoNat]

theorem toInt_low : t.toInt m.low = 2 ^ m.bits - 1 := by
  have hpos := Nat.two_pow_pos m.bits
  rw [Member.low, toInt_of_fits (m := m) (by omega)]
  push_cast [Nat.one_le_two_pow]
  rfl

theorem getLsbD_low
    {j : Nat}
    (hj : j < t.bits) :
    m.low.getLsbD j = decide (j < m.bits) := by
  rw [Member.low, BitVec.getLsbD_ofNat, Nat.testBit_two_pow_sub_one]
  simp [hj]

theorem toNat_one
    {u : IntType}
    (h : 1 < u.bits) :
    (u.ofInt 1).toNat = 1 := by
  have hwide : (1 : Int) < 2 ^ u.bits := one_lt_pow₀ (by decide) (by omega)
  rw [ofInt, BitVec.toNat_ofInt]
  push_cast
  rw [Int.emod_eq_of_lt (by decide) hwide]
  rfl

theorem Member.one_lt_bits (m : Member t) : 1 < t.bits := by
  have hwidth := m.width
  have hbits := m.bits_lt
  omega

theorem toInt_one (m : Member t) : t.toInt (t.ofInt 1) = 1 := by
  have hone : (1 : Nat) < 2 ^ (t.bits - 1) :=
    Nat.one_lt_two_pow (Nat.sub_ne_zero_of_lt m.one_lt_bits)
  have hpattern := toNat_one m.one_lt_bits
  rw [toInt_of_lt (by rwa [hpattern]), hpattern]
  rfl

theorem promoted_one (m : Member t) :
    promoted int (t.ofInt 1) = (t.promote int).ofInt 1 := by
  rw [promoted, convert, toInt_one m]

/-- `T(1) << Bits` is one more than the mask. -/
theorem low_add_one (m : Member t) :
    m.low + t.ofInt 1 = t.ofInt 1 <<< m.bits := by
  have hpos := Nat.two_pow_pos m.bits
  apply BitVec.eq_of_toNat_eq
  rw [Member.low, BitVec.toNat_add, BitVec.toNat_shiftLeft, toNat_one m.one_lt_bits,
    BitVec.toNat_ofNat, Nat.mod_add_mod, Nat.sub_add_cancel hpos, Nat.one_shiftLeft]

theorem mask0_eq (m : Member t) :
    mask0 int m =
      ((t.promote int).sub false ((t.promote int).ofInt 1 <<< m.bits)
        ((t.promote int).ofInt 1)).map (demoted int) := by
  have hin : m.bits < (t.promote int).bits := m.bits_lt_bits.trans_le (t.bits_le_promote int)
  rw [mask0, shl, if_pos hin, promoted_one m, Option.map_eq_bind]
  rfl

theorem mask0_eq_some
    {low : t.Value}
    (h : mask0 int m = some low) :
    low = m.low := by
  rw [mask0_eq, Option.map_eq_some_iff] at h
  obtain ⟨r, hr, rfl⟩ := h
  rw [sub_eq_some hr, demoted_sub, demoted_shiftLeft, ← promoted_one m, demoted_promoted,
    ← low_add_one, BitVec.add_sub_cancel]

theorem mask0_of_unsigned
    (hunsigned : t.signed = false) :
    mask0 int m = some m.low := by
  have hle := t.bits_le_promote int
  have hbit : ((t.promote int).ofInt 1 <<< m.bits).toNat = 2 ^ m.bits := by
    rw [BitVec.toNat_shiftLeft, toNat_one (m.one_lt_bits.trans_le hle), Nat.one_shiftLeft]
    exact Nat.mod_eq_of_lt (Nat.pow_lt_pow_right (by decide) (m.bits_lt_bits.trans_le hle))
  have hin : 2 ^ m.bits < 2 ^ t.bits := Nat.pow_lt_pow_right (by decide) m.bits_lt_bits
  have hsub : ∃ r, (t.promote int).sub false ((t.promote int).ofInt 1 <<< m.bits)
      ((t.promote int).ofInt 1) = some r := by
    rw [sub, toInt_promote_of_unsigned hunsigned (by rwa [hbit]), hbit, ← promoted_one m,
      toInt_promoted, toInt_one m]
    have hcast : ((2 ^ m.bits : Nat) : Int) < 2 ^ t.bits := by exact_mod_cast hin
    have hpos : (0 : Int) < (2 ^ m.bits : Nat) := by exact_mod_cast Nat.two_pow_pos m.bits
    exact ⟨_, result_promote (inRange_of_unsigned hunsigned (by omega) (by omega))⟩
  obtain ⟨r, hr⟩ := hsub
  have hsome : mask0 int m = some (demoted int r) := by rw [mask0_eq, hr, Option.map_some]
  rw [hsome, mask0_eq_some hsome]

/-- A member reads as its field of the word. -/
theorem read_eq
    (hmask : mask0 int m = some m.low)
    (hoffset : m.offset < (t.promote int).bits)
    (value : t.Value) :
    read int m value = some (BitVec.ofNat t.bits (field m.offset m.bits value)) := by
  have hfit := m.offset_add_bits_le
  have hle := t.bits_le_promote int
  rw [read, shr, if_pos hoffset, hmask]
  refine congrArg some (BitVec.eq_of_getLsbD_eq fun j hj => ?_)
  rw [getLsbD_demoted hj, BitVec.getLsbD_and, getLsbD_promoted hj, getLsbD_low hj,
    BitVec.getLsbD_ofNat, testBit_field]
  by_cases hlow : j < m.bits
  · have hin : m.offset + j < t.bits := by omega
    have hbit := getLsbD_promoted hin int value
    split
    · rw [BitVec.getLsbD_sshiftRight, hbit]
      simp [hj, hlow, hin.trans_le hle, hj.trans_le hle]
    · rw [BitVec.getLsbD_ushiftRight, hbit]
      simp [hj, hlow]
  · simp [hlow]

theorem read_eq_some
    {x : t.Value}
    (h : read int m value = some x) :
    mask0 int m = some m.low ∧ m.offset < (t.promote int).bits ∧
      t.toInt x = field m.offset m.bits value := by
  have hread := h
  rw [read, Option.bind_eq_bind, Option.bind_eq_some_iff] at h
  obtain ⟨shifted, hshift, h⟩ := h
  rw [Option.bind_eq_bind, Option.bind_eq_some_iff] at h
  obtain ⟨low, hlow, -⟩ := h
  obtain rfl := mask0_eq_some hlow
  have hoffset : m.offset < (t.promote int).bits := by
    by_contra hge
    rw [shr, if_neg hge] at hshift
    cases hshift
  rw [read_eq hlow hoffset, Option.some.injEq] at hread
  rw [← hread, toInt_of_fits (m := m) (field_lt ..)]
  exact ⟨hlow, hoffset, rfl⟩

/-- The comparison with `mask0`. -/
theorem le_low (x : (t.promote int).Value) :
    (t.promote int).le x (promoted int m.low) =
      decide ((t.promote int).toInt x < 2 ^ m.bits) := by
  rw [le, toInt_promoted, toInt_low]
  exact decide_eq_decide.mpr Int.le_sub_one_iff

theorem assignable_iff :
    assignable int m v = some true ↔
      mask0 int m = some m.low ∧ t.toInt v < 2 ^ m.bits := by
  cases hmask : mask0 int m with
  | none =>
      simp [assignable, hmask]
  | some low =>
      obtain rfl := mask0_eq_some hmask
      simp [assignable, hmask, le_low]

/-- Where `mask0` has a value, the member is replaced by the bits of the argument. -/
theorem assign_eq
    (hmask : mask0 int m = some m.low)
    (hoffset : m.offset < (t.promote int).bits) :
    assign int m value v = some (insert m.offset m.bits value v) := by
  have hown : mask int m = some (m.low <<< m.offset) := by
    rw [mask, hmask, Option.bind_eq_bind, Option.bind_some, shl, if_pos hoffset,
      Option.bind_eq_bind, Option.bind_some, demoted_shiftLeft, demoted_promoted]
  rw [assign, hown, shl, if_pos hoffset]
  refine congrArg some ?_
  rw [demoted_or, demoted_and, demoted_not, demoted_shiftLeft, demoted_promoted,
    demoted_promoted, demoted_promoted]
  rfl

theorem increasable_iff :
    increasable int m value v = some true ↔
      mask0 int m = some m.low ∧ m.offset < (t.promote int).bits ∧
        ∃ sum, (t.promote int).result false (field m.offset m.bits value + t.toInt v) = some sum ∧
          (t.promote int).toInt sum < 2 ^ m.bits := by
  cases hread : read int m value with
  | none =>
      refine iff_of_false (by simp [increasable, hread]) ?_
      rintro ⟨hmask, hoffset, -⟩
      rw [read_eq hmask hoffset] at hread
      cases hread
  | some x =>
      obtain ⟨hmask, hoffset, hval⟩ := read_eq_some hread
      simp [increasable, hread, hmask, hoffset, add, hval, le_low, Option.bind_eq_some_iff]

theorem decreasable_iff :
    decreasable int m value v = some true ↔
      mask0 int m = some m.low ∧ m.offset < (t.promote int).bits ∧
        t.toInt v ≤ field m.offset m.bits value := by
  cases hread : read int m value with
  | none =>
      refine iff_of_false (by simp [decreasable, hread]) ?_
      rintro ⟨hmask, hoffset, -⟩
      rw [read_eq hmask hoffset] at hread
      cases hread
  | some x =>
      obtain ⟨hmask, hoffset, hval⟩ := read_eq_some hread
      simp [decreasable, hread, hmask, hoffset, hval, le_promoted]

/-- The integer that `+=` adds to the word and `-=` subtracts from it. -/
def shiftedValue (int : Nat) (m : Member t) (v : t.Value) : Int :=
  (t.promote int).toInt (promoted int v <<< m.offset)

theorem increase_eq
    (hoffset : m.offset < (t.promote int).bits) :
    increase int m value v =
      ((t.promote int).result false (t.toInt value + shiftedValue int m v)).map fun _ =>
        BitVec.ofInt t.bits (value.toNat + t.toInt v * 2 ^ m.offset) := by
  have hadd : (t.promote int).add false (promoted int value) (promoted int v <<< m.offset) =
      (t.promote int).result false (t.toInt value + shiftedValue int m v) := by
    rw [add, toInt_promoted, shiftedValue]
  rw [increase, shl, if_pos hoffset, Option.bind_eq_bind, Option.bind_some, ← hadd]
  cases hsum : (t.promote int).add false (promoted int value) (promoted int v <<< m.offset) with
  | none =>
      rfl
  | some sum =>
      refine congrArg some ?_
      rw [add_eq_some hsum, demoted_add, demoted_promoted, demoted_shiftLeft, demoted_promoted]
      exact add_shiftLeft (ofInt_toInt v)

theorem decrease_eq
    (hoffset : m.offset < (t.promote int).bits) :
    decrease int m value v =
      ((t.promote int).result false (t.toInt value - shiftedValue int m v)).map fun _ =>
        BitVec.ofInt t.bits (value.toNat + -t.toInt v * 2 ^ m.offset) := by
  have hsub : (t.promote int).sub false (promoted int value) (promoted int v <<< m.offset) =
      (t.promote int).result false (t.toInt value - shiftedValue int m v) := by
    rw [sub, toInt_promoted, shiftedValue]
  rw [decrease, shl, if_pos hoffset, Option.bind_eq_bind, Option.bind_some, ← hsub]
  cases hdiff : (t.promote int).sub false (promoted int value) (promoted int v <<< m.offset) with
  | none =>
      rfl
  | some difference =>
      refine congrArg some ?_
      rw [sub_eq_some hdiff, demoted_sub, demoted_promoted, demoted_shiftLeft, demoted_promoted]
      exact sub_shiftLeft (ofInt_toInt v)

/-- The operation has a result, and changes no bit outside the member. -/
def Confined (m : Member t) (value : t.Value) (result : Option t.Value) : Prop :=
  ∃ y, result = some y ∧ SameOutside m.offset m.bits value y

theorem confined_assign_iff
    (hmask : mask0 int m = some m.low) :
    Confined m value (assign int m value v) ↔
      m.offset < (t.promote int).bits ∧
        ∀ i, m.bits ≤ i → m.offset + i < t.bits → v.getLsbD i = true →
          value.getLsbD (m.offset + i) = true := by
  by_cases hoffset : m.offset < (t.promote int).bits
  · rw [Confined, assign_eq hmask hoffset, and_iff_right hoffset, ← sameOutside_insert_iff]
    simp
  · refine iff_of_false ?_ fun h => hoffset h.1
    rintro ⟨y, hy, -⟩
    have hnone : mask int m = none := by
      rw [mask, hmask, Option.bind_eq_bind, Option.bind_some, shl, if_neg hoffset]
      rfl
    rw [assign, hnone] at hy
    cases hy

/-- For `operator+=` and `operator-=`. -/
theorem confined_map_iff
    {o : Option (t.promote int).Value} {k : Int} :
    Confined m value
        (o.map fun _ => BitVec.ofInt t.bits (value.toNat + k * 2 ^ m.offset)) ↔
      o.isSome = true ∧ ((field m.offset m.bits value : Int) + k) % 2 ^ (t.bits - m.offset) <
        2 ^ m.bits := by
  rw [Confined, ← sameOutside_add_iff m.offset_add_bits_le]
  cases o <;> simp

/--
For a signed type, whenever an assertion holds, the operation stays in its bits exactly if
`=` inserts no bit beyond them that the word does not have, and if the sum or difference of
`+=` and `-=` is representable and, modulo the bits from the member on, fits into the member.
-/
theorem signed_confined_iff
    (hsigned : t.signed = true)
    (int : Nat) (m : Member t) (value v : t.Value) :
    (assignable int m v = some true →
      (Confined m value (assign int m value v) ↔
        m.offset < (t.promote int).bits ∧
          ∀ i, m.bits ≤ i → m.offset + i < t.bits → v.getLsbD i = true →
            value.getLsbD (m.offset + i) = true)) ∧
    (increasable int m value v = some true →
      (Confined m value (increase int m value v) ↔
        (t.promote int).InRange (t.toInt value + shiftedValue int m v) ∧
          (field m.offset m.bits value + t.toInt v) % 2 ^ (t.bits - m.offset) < 2 ^ m.bits)) ∧
    (decreasable int m value v = some true →
      (Confined m value (decrease int m value v) ↔
        (t.promote int).InRange (t.toInt value - shiftedValue int m v) ∧
          (field m.offset m.bits value - t.toInt v) % 2 ^ (t.bits - m.offset) < 2 ^ m.bits)) := by
  have hpromoted := signed_promote hsigned int
  refine ⟨fun h => ?_, fun h => ?_, fun h => ?_⟩
  · exact confined_assign_iff (assignable_iff.mp h).1
  · obtain ⟨-, hoffset, -⟩ := increasable_iff.mp h
    rw [increase_eq hoffset, confined_map_iff, isSome_result_iff hpromoted]
  · obtain ⟨-, hoffset, -⟩ := decreasable_iff.mp h
    rw [decrease_eq hoffset, confined_map_iff, isSome_result_iff hpromoted, ← sub_eq_add_neg]

end Specification

/-- `bit_field_member<int, 0, 2>`. -/
def instantiated : Member int32 where
  offset := 0
  bits := 2
  sizeof := 4
  width := rfl
  bits_lt := by decide
  fits := by decide

/-- From `2` the member is decreased by `1`. -/
theorem signed_confined_decrease :
    decreasable 32 instantiated 2 1 = some true ∧
      Confined instantiated 2 (decrease 32 instantiated 2 1) := by
  have hasserted : decreasable 32 instantiated 2 1 = some true := by decide
  refine ⟨hasserted, ?_⟩
  exact ((signed_confined_iff rfl 32 instantiated 2 1).2.2 hasserted).mpr (by decide)

/-- All three assertions admit `-8`; each operation changes bits from bit `2` on. -/
theorem not_signed_confined :
    (assignable 32 instantiated (-8) = some true ∧
      assign 32 instantiated 0 (-8) = some (-8)) ∧
    (increasable 32 instantiated 0 (-8) = some true ∧
      increase 32 instantiated 0 (-8) = some (-8)) ∧
    (decreasable 32 instantiated 0 (-8) = some true ∧
      decrease 32 instantiated 0 (-8) = some 8) ∧
    ¬SameOutside 0 2 (0 : BitVec 32) (-8) ∧ ¬SameOutside 0 2 (0 : BitVec 32) 8 := by
  refine ⟨by decide, by decide, by decide, fun h => ?_, fun h => ?_⟩
  · exact absurd (h 3 (.inr (by decide))) (by decide)
  · exact absurd (h 3 (.inr (by decide))) (by decide)

end BitField
end Ptl

import Mathlib.Algebra.Order.Ring.Int
import Mathlib.Tactic.Ring.RingNF

/-!
# Ranges of bits in a word

A field of a word is a range of its bits.  This module says which operations on the whole
word keep the bits outside a field, and what they do to the field.

**Rules.**
* `field_of_sameOutside`: a field is kept if the bits outside a disjoint one are.
* `sameOutside_add_iff`, `sameOutside_and_field_add`: adding a multiple of the unit of a field.
* `sameOutside_insert_iff`, `field_insert`: replacing the bits of a field.
-/

namespace Ptl
namespace BitRange

section Blocks

variable {a k z N P R : Int}

theorem emod_mul_ediv
    (hP : 0 ≤ P) :
    z % (P * R) / P = z / P % R := by
  rcases hP.eq_or_lt with rfl | hpos
  · simp
  · have hquot : z / (P * R) = z / P / R := (Int.ediv_ediv_of_nonneg hP).symm
    rw [Int.emod_def, Int.emod_def, hquot, sub_eq_add_neg, mul_assoc, ← mul_neg,
      Int.add_mul_ediv_left _ _ hpos.ne', sub_eq_add_neg]

/-- The multiples of a block size stay below the size of the whole. -/
theorem block_le
    (hN : 0 < N)
    (hlt : a < N * R) :
    N * (a / N) + N ≤ N * R := by
  have hquot : a / N + 1 ≤ R := by
    refine Int.add_one_le_of_lt (Int.ediv_lt_of_lt_mul hN ?_)
    rwa [mul_comm]
  calc N * (a / N) + N
      = N * (a / N + 1) := by ring
    _ ≤ N * R := Int.mul_le_mul_of_nonneg_left hquot hN.le

/-- Adding inside a block, modulo a multiple of the block size. -/
theorem add_emod_of_block
    (hN : 0 < N)
    (ha : 0 ≤ a) (hlt : a < N * R)
    (hblock : (a % N + k) % (N * R) < N) :
    (a + k) % (N * R) = N * (a / N) + (a % N + k) % (N * R) := by
  have hwhole : 0 < N * R := ha.trans_lt hlt
  have htop := block_le hN hlt
  have hlow : 0 ≤ N * (a / N) := Int.mul_nonneg hN.le (Int.ediv_nonneg ha hN.le)
  have hrest := Int.emod_nonneg (a % N + k) hwhole.ne'
  calc (a + k) % (N * R)
      = (N * (a / N) + (a % N + k)) % (N * R) := by rw [← Int.add_assoc, Int.mul_ediv_add_emod]
    _ = (N * (a / N) + (a % N + k) % (N * R)) % (N * R) := (Int.add_emod_emod ..).symm
    _ = N * (a / N) + (a % N + k) % (N * R) := Int.emod_eq_of_lt (by omega) (by omega)

/-- The block stays the same exactly if the sum inside it does not leave it. -/
theorem add_emod_ediv_eq_iff
    (hN : 0 < N)
    (ha : 0 ≤ a) (hlt : a < N * R) :
    (a + k) % (N * R) / N = a / N ↔ (a % N + k) % (N * R) < N := by
  have hwhole : 0 < N * R := ha.trans_lt hlt
  constructor
  · intro h
    have hinside : (a % N + k) % (N * R) = (a + k) % (N * R) % N := by
      have hfix : (a + k) % (N * R) % N = (a + k) % (N * R) - N * (a / N) := by
        rw [Int.emod_def, h]
      have htop := block_le hN hlt
      have hbelow := Int.emod_lt_of_pos ((a + k) % (N * R)) hN
      have hlow : 0 ≤ N * (a / N) := Int.mul_nonneg hN.le (Int.ediv_nonneg ha hN.le)
      calc (a % N + k) % (N * R)
          = (a + k - N * (a / N)) % (N * R) := by rw [Int.emod_def a N]; ring_nf
        _ = ((a + k) % (N * R) - N * (a / N)) % (N * R) := (Int.emod_sub_emod ..).symm
        _ = ((a + k) % (N * R) % N) % (N * R) := by rw [hfix]
        _ = (a + k) % (N * R) % N :=
            Int.emod_eq_of_lt (Int.emod_nonneg _ hN.ne') (by omega)
    rw [hinside]
    exact Int.emod_lt_of_pos _ hN
  · intro h
    rw [add_emod_of_block hN ha hlt h, Int.add_comm, Int.add_mul_ediv_left _ _ hN.ne',
      Int.ediv_eq_zero_of_lt (Int.emod_nonneg _ hwhole.ne') h, Int.zero_add]

end Blocks

section Fields

variable {w off n : Nat} {x y v : BitVec w}

/-- The number in the `n` bits from `off` on. -/
def field (off n : Nat) (x : BitVec w) : Nat :=
  x.toNat / 2 ^ off % 2 ^ n

/-- The words agree outside the `n` bits from `off` on. -/
def SameOutside (off n : Nat) (x y : BitVec w) : Prop :=
  ∀ j, j < off ∨ off + n ≤ j → y.getLsbD j = x.getLsbD j

theorem field_lt (off n : Nat) (x : BitVec w) : field off n x < 2 ^ n :=
  Nat.mod_lt _ (Nat.two_pow_pos n)

theorem testBit_field (off n j : Nat) (x : BitVec w) :
    (field off n x).testBit j = (decide (j < n) && x.getLsbD (off + j)) := by
  rw [field, Nat.testBit_mod_two_pow, Nat.testBit_div_two_pow, Nat.add_comm]
  rfl

/-- A disjoint field has the same value. -/
theorem field_of_sameOutside
    {off' n' : Nat}
    (h : SameOutside off n x y)
    (hdisjoint : off' + n' ≤ off ∨ off + n ≤ off') :
    field off' n' y = field off' n' x := by
  apply Nat.eq_of_testBit_eq
  intro j
  rw [testBit_field, testBit_field]
  by_cases hj : j < n'
  · rw [h (off' + j) (by omega)]
  · simp [hj]

/-- The bits below the field and the bits above it, as numbers. -/
theorem sameOutside_iff :
    SameOutside off n x y ↔
      y.toNat % 2 ^ off = x.toNat % 2 ^ off ∧
        y.toNat / 2 ^ (off + n) = x.toNat / 2 ^ (off + n) := by
  constructor
  · intro h
    constructor
    · apply Nat.eq_of_testBit_eq
      intro j
      rw [Nat.testBit_mod_two_pow, Nat.testBit_mod_two_pow]
      by_cases hj : j < off
      · rw [← BitVec.getLsbD, ← BitVec.getLsbD, h j (.inl hj)]
      · simp [hj]
    · apply Nat.eq_of_testBit_eq
      intro j
      rw [Nat.testBit_div_two_pow, Nat.testBit_div_two_pow]
      exact h (j + (off + n)) (.inr (Nat.le_add_left ..))
  · rintro ⟨hlow, hhigh⟩ j (hj | hj)
    · have hbit := congrArg (Nat.testBit · j) hlow
      rw [BitVec.getLsbD, BitVec.getLsbD]
      simpa [Nat.testBit_mod_two_pow, hj] using hbit
    · have hbit := congrArg (Nat.testBit · (j - (off + n))) hhigh
      rw [BitVec.getLsbD, BitVec.getLsbD]
      simpa [Nat.testBit_div_two_pow, Nat.sub_add_cancel hj] using hbit

/-- The number of a word after adding `k` to the bits from `off` on. -/
theorem toNat_ofInt_add (x : BitVec w) (z : Int) :
    ((BitVec.ofInt w (x.toNat + z)).toNat : Int) = ((x.toNat : Int) + z) % 2 ^ w := by
  have hpos : (0 : Int) < 2 ^ w := pow_pos (by decide) w
  rw [BitVec.toNat_ofInt]
  push_cast
  exact Int.toNat_of_nonneg (Int.emod_nonneg _ hpos.ne')

theorem two_pow_split
    (h : off + n ≤ w) :
    (2 : Int) ^ w = 2 ^ off * 2 ^ (w - off) ∧
      (2 : Int) ^ (w - off) = 2 ^ n * 2 ^ (w - off - n) := by
  constructor
  · rw [← pow_add]
    congr 1
    omega
  · rw [← pow_add]
    congr 1
    omega

/-- Adding a multiple of the unit of a field acts on the bits from there on. -/
theorem add_ediv (h : off + n ≤ w) (x : BitVec w) (k : Int) :
    ((BitVec.ofInt w (x.toNat + k * 2 ^ off)).toNat : Int) / 2 ^ off =
      ((x.toNat : Int) / 2 ^ off + k) % 2 ^ (w - off) := by
  have hpos : (0 : Int) < 2 ^ off := pow_pos (by decide) off
  rw [toNat_ofInt_add, (two_pow_split h).1, emod_mul_ediv hpos.le,
    Int.add_mul_ediv_right _ _ hpos.ne']

theorem add_emod (h : off + n ≤ w) (x : BitVec w) (k : Int) :
    ((BitVec.ofInt w (x.toNat + k * 2 ^ off)).toNat : Int) % 2 ^ off =
      (x.toNat : Int) % 2 ^ off := by
  rw [toNat_ofInt_add, (two_pow_split h).1, Int.emod_emod_of_dvd _ (Dvd.intro _ rfl),
    Int.add_mul_emod_self_right]

theorem natCast_field (off n : Nat) (x : BitVec w) :
    (field off n x : Int) = (x.toNat : Int) / 2 ^ off % 2 ^ n := by
  rw [field]
  push_cast
  rfl

theorem ediv_lt (h : off + n ≤ w) (x : BitVec w) :
    (x.toNat : Int) / 2 ^ off < 2 ^ n * 2 ^ (w - off - n) := by
  have hlt : (x.toNat : Int) < 2 ^ w := by exact_mod_cast x.isLt
  rw [← (two_pow_split h).2]
  refine Int.ediv_lt_of_lt_mul (pow_pos (by decide) off) ?_
  rwa [mul_comm, ← (two_pow_split h).1]

/-- Adding stays inside the field exactly if the sum, modulo the bits from there on, does. -/
theorem sameOutside_add_iff
    (h : off + n ≤ w)
    (k : Int) :
    SameOutside off n x (BitVec.ofInt w (x.toNat + k * 2 ^ off)) ↔
      ((field off n x : Int) + k) % 2 ^ (w - off) < 2 ^ n := by
  have hn : (0 : Int) < 2 ^ n := pow_pos (by decide) n
  have hnonneg : 0 ≤ (x.toNat : Int) / 2 ^ off :=
    Int.ediv_nonneg (Int.natCast_nonneg _) (pow_nonneg (by decide) off)
  have hlow := add_emod h x k
  have hiff := add_emod_ediv_eq_iff (k := k) hn hnonneg (ediv_lt h x)
  rw [← (two_pow_split h).2, ← add_ediv h x k, ← natCast_field,
    Int.ediv_ediv_of_nonneg (pow_nonneg (by decide) off),
    Int.ediv_ediv_of_nonneg (pow_nonneg (by decide) off), ← pow_add] at hiff
  rw [← hiff, sameOutside_iff]
  constructor
  · rintro ⟨-, hhigh⟩
    exact_mod_cast hhigh
  · intro hhigh
    exact ⟨by exact_mod_cast hlow, by exact_mod_cast hhigh⟩

theorem field_add
    (h : off + n ≤ w)
    {k : Int}
    (hk : ((field off n x : Int) + k) % 2 ^ (w - off) < 2 ^ n) :
    (field off n (BitVec.ofInt w (x.toNat + k * 2 ^ off)) : Int) =
      ((field off n x : Int) + k) % 2 ^ (w - off) := by
  have hn : (0 : Int) < 2 ^ n := pow_pos (by decide) n
  have hnonneg : 0 ≤ (x.toNat : Int) / 2 ^ off :=
    Int.ediv_nonneg (Int.natCast_nonneg _) (pow_nonneg (by decide) off)
  have hpos : (0 : Int) < 2 ^ (w - off) := pow_pos (by decide) _
  rw [natCast_field, (two_pow_split h).2] at hk
  rw [natCast_field, add_ediv h, natCast_field, (two_pow_split h).2,
    add_emod_of_block hn hnonneg (ediv_lt h x) hk, Int.mul_add_emod_self_left]
  refine Int.emod_eq_of_lt (Int.emod_nonneg _ ?_) hk
  rw [← (two_pow_split h).2]
  exact hpos.ne'

/-- The field holds the sum, modulo the bits from there on, if that fits. -/
theorem sameOutside_and_field_add
    (h : off + n ≤ w)
    {k : Int} {b : Nat}
    (hk : ((field off n x : Int) + k) % 2 ^ (w - off) = b)
    (hb : b < 2 ^ n) :
    SameOutside off n x (BitVec.ofInt w (x.toNat + k * 2 ^ off)) ∧
      field off n (BitVec.ofInt w (x.toNat + k * 2 ^ off)) = b := by
  have hin : ((field off n x : Int) + k) % 2 ^ (w - off) < 2 ^ n := by
    rw [hk]
    exact_mod_cast hb
  have hfield := field_add h hin
  rw [hk] at hfield
  exact ⟨(sameOutside_add_iff h k).mpr hin, by exact_mod_cast hfield⟩

/-- Without a carry out of the field, the word does not wrap around. -/
theorem add_lt_of_field
    (h : off + n ≤ w)
    {k : Nat}
    (hk : field off n x + k < 2 ^ n) :
    x.toNat + k * 2 ^ off < 2 ^ w := by
  have hn : (0 : Int) < 2 ^ n := pow_pos (by decide) n
  have hoff : (0 : Int) < 2 ^ off := pow_pos (by decide) off
  have htop := block_le hn (ediv_lt h x)
  have hsum : (field off n x : Int) + k < 2 ^ n := by exact_mod_cast hk
  have hparts := Int.mul_ediv_add_emod ((x.toNat : Int) / 2 ^ off) (2 ^ n)
  have hword := Int.mul_ediv_add_emod (x.toNat : Int) (2 ^ off)
  have hlow := Int.emod_lt_of_pos (x.toNat : Int) hoff
  rw [← natCast_field] at hparts
  rw [← (two_pow_split h).2] at htop
  have hhigh : (x.toNat : Int) / 2 ^ off + k + 1 ≤ 2 ^ (w - off) := by omega
  have hscaled := Int.mul_le_mul_of_nonneg_left hhigh hoff.le
  rw [← (two_pow_split h).1, mul_add, mul_add, mul_one, mul_comm ((2 : Int) ^ off) (k : Int)]
    at hscaled
  have hlt : (x.toNat : Int) + k * 2 ^ off < 2 ^ w := by omega
  exact_mod_cast hlt

/-- Without a borrow from beyond the field, neither. -/
theorem mul_le_of_le_field
    {k : Nat}
    (hk : k ≤ field off n x) :
    k * 2 ^ off ≤ x.toNat :=
  (Nat.le_div_iff_mul_le (Nat.two_pow_pos off)).mp (hk.trans (Nat.mod_le _ _))

section Shifted

variable {k : Int}

/-- Shifting a number to a field is multiplying it by the unit of the field. -/
theorem ofInt_mul_two_pow
    (hk : BitVec.ofInt w k = v) :
    BitVec.ofInt w (k * 2 ^ off) = v <<< off := by
  rw [BitVec.ofInt_mul, hk, BitVec.shiftLeft_eq_mul_twoPow]
  congr 1
  apply BitVec.eq_of_toNat_eq
  rw [BitVec.toNat_twoPow, BitVec.toNat_ofInt]
  norm_cast

theorem add_shiftLeft
    (hk : BitVec.ofInt w k = v) :
    x + v <<< off = BitVec.ofInt w (x.toNat + k * 2 ^ off) := by
  rw [BitVec.ofInt_add, ofInt_mul_two_pow hk, BitVec.ofInt_natCast, BitVec.ofNat_toNat,
    BitVec.setWidth_eq]

theorem sub_shiftLeft
    (hk : BitVec.ofInt w k = v) :
    x - v <<< off = BitVec.ofInt w (x.toNat + -k * 2 ^ off) := by
  rw [← add_shiftLeft (v := -v) (by rw [BitVec.ofInt_neg, hk]), BitVec.sub_eq_add_neg]
  congr 1
  rw [BitVec.shiftLeft_eq_mul_twoPow, BitVec.shiftLeft_eq_mul_twoPow, BitVec.neg_mul]

end Shifted

/-- The word with the bits of a field replaced, and the bits that `v` has beyond it. -/
def insert (off n : Nat) (x v : BitVec w) : BitVec w :=
  x &&& ~~~(BitVec.ofNat w (2 ^ n - 1) <<< off) ||| v <<< off

theorem getLsbD_insert
    {j : Nat}
    (hj : j < w)
    (x v : BitVec w) :
    (insert off n x v).getLsbD j =
      (x.getLsbD j && !(decide (off ≤ j) && decide (j < off + n)) ||
        decide (off ≤ j) && v.getLsbD (j - off)) := by
  have hmask : (BitVec.ofNat w (2 ^ n - 1)).getLsbD (j - off) = decide (j - off < n) := by
    have hin : j - off < w := by omega
    rw [BitVec.getLsbD_ofNat, Nat.testBit_two_pow_sub_one]
    simp [hin]
  rw [insert, BitVec.getLsbD_or, BitVec.getLsbD_and, BitVec.getLsbD_not, BitVec.getLsbD_shiftLeft,
    BitVec.getLsbD_shiftLeft, hmask]
  by_cases hoff : off ≤ j
  · have hiff : j - off < n ↔ j < off + n := by omega
    simp [hj, hoff, Nat.not_lt.mpr hoff, hiff]
  · simp [hj, hoff, Nat.lt_of_not_le hoff]

/-- Bits of `v` beyond the field do no harm where the word has them already. -/
theorem sameOutside_insert_iff :
    SameOutside off n x (insert off n x v) ↔
      ∀ i, n ≤ i → off + i < w → v.getLsbD i = true → x.getLsbD (off + i) = true := by
  constructor
  · intro h i hi hw hv
    rw [← h (off + i) (.inr (by omega)), getLsbD_insert hw, Nat.add_sub_cancel_left, hv]
    simp
  · intro h j hj
    by_cases hw : j < w
    · rw [getLsbD_insert hw]
      rcases hj with hj | hj
      · simp [Nat.not_le.mpr hj]
      · have hoff : off ≤ j := by omega
        have hbeyond := h (j - off) (by omega)
        rw [Nat.add_sub_cancel' hoff] at hbeyond
        cases hv : v.getLsbD (j - off) with
        | true => simp [hoff, hbeyond hw hv]
        | false => simp [Nat.not_lt.mpr hj]
    · rw [BitVec.getLsbD_of_ge _ _ (Nat.le_of_not_lt hw), BitVec.getLsbD_of_ge _ _ (Nat.le_of_not_lt hw)]

theorem sameOutside_insert_of_lt
    (hv : v.toNat < 2 ^ n) :
    SameOutside off n x (insert off n x v) := by
  refine sameOutside_insert_iff.mpr fun i hi _ hbit => ?_
  have hclear : v.toNat.testBit i = false :=
    Nat.testBit_lt_two_pow (hv.trans_le (Nat.pow_le_pow_right Nat.two_pos hi))
  rw [BitVec.getLsbD, hclear] at hbit
  cases hbit

theorem field_insert
    (h : off + n ≤ w)
    (hv : v.toNat < 2 ^ n) :
    field off n (insert off n x v) = v.toNat := by
  apply Nat.eq_of_testBit_eq
  intro j
  rw [testBit_field]
  by_cases hj : j < n
  · rw [getLsbD_insert (by omega), Nat.add_sub_cancel_left]
    simp [hj, BitVec.getLsbD]
  · have hbit : v.toNat.testBit j = false :=
      Nat.testBit_lt_two_pow (hv.trans_le (Nat.pow_le_pow_right Nat.two_pos (Nat.le_of_not_lt hj)))
    simp [hj, hbit]

end Fields

end BitRange
end Ptl

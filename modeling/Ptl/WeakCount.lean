import Mathlib.Data.BitVec

/-!
# The packed reference counts of `intrusive_weak_references`

Both counts of an object live in one 64-bit word: the strong count in the low
half and the weak count in the high half.  This module embeds the functions
that split and pack the word and the values that the compare-exchange loops of
`intrusive_ptr.hpp` compute from a loaded word.

`Packed v s w` is the abstract view of the word: two natural numbers.  Every
operation gets one lemma that says what it does to them; later modules reason
about the numbers only.
-/

namespace Ptl
namespace IntrusivePtr

/-- `strong_count(v)`: the cast to `uint32_t` keeps the low half. -/
def strongCount (v : BitVec 64) : BitVec 32 :=
  v.setWidth 32

/-- `weak_count(v)`. -/
def weakCount (v : BitVec 64) : BitVec 32 :=
  (v >>> 32).setWidth 32

/-- `reference_count(strong, weak)`. -/
def referenceCount (strong weak : BitVec 32) : BitVec 64 :=
  (weak.setWidth 64 <<< 32) ||| strong.setWidth 64

/-- The word `intrusive_weak_ptr_release` tries to store after loading `value`. -/
def releaseDesired (value : BitVec 64) : BitVec 64 :=
  let strong := strongCount value - 1
  let weak := weakCount value
  referenceCount strong (if strong = 0 then weak - 1 else weak)

/-- The word `intrusive_weak_ptr_release_weak` tries to store. -/
def releaseWeakDesired (value : BitVec 64) : BitVec 64 :=
  referenceCount (strongCount value) (weakCount value - 1)

/-- `intrusive_weak_ptr_lock` gives up when the incremented count is one. -/
def lockFails (value : BitVec 64) : Prop :=
  strongCount value + 1 = 1

instance decidableLockFails (value : BitVec 64) :
    Decidable (lockFails value) :=
  inferInstanceAs (Decidable (strongCount value + 1 = 1))

/-- The word `intrusive_weak_ptr_lock` tries to store otherwise. -/
def lockDesired (value : BitVec 64) : BitVec 64 :=
  referenceCount (strongCount value + 1) (weakCount value)

/-- The word holds strong count `s` and weak count `w`. -/
structure Packed (v : BitVec 64) (s w : Nat) : Prop where
  strong : (strongCount v).toNat = s
  weak : (weakCount v).toNat = w

theorem strongCount_toNat (v : BitVec 64) :
    (strongCount v).toNat = v.toNat % 2 ^ 32 := by
  simp [strongCount]

theorem weakCount_toNat (v : BitVec 64) :
    (weakCount v).toNat = v.toNat / 2 ^ 32 := by
  have hlt := v.isLt
  rw [weakCount, BitVec.toNat_setWidth, BitVec.toNat_ushiftRight,
    Nat.shiftRight_eq_div_pow]
  exact Nat.mod_eq_of_lt (by omega)

theorem referenceCount_toNat (strong weak : BitVec 32) :
    (referenceCount strong weak).toNat =
      2 ^ 32 * weak.toNat + strong.toNat := by
  have hs := strong.isLt
  have hw := weak.isLt
  have hshift :
      (weak.setWidth 64 <<< 32).toNat = 2 ^ 32 * weak.toNat := by
    rw [BitVec.toNat_shiftLeft, BitVec.toNat_setWidth,
      Nat.shiftLeft_eq, Nat.mod_eq_of_lt (by omega : weak.toNat < 2 ^ 64)]
    omega
  rw [referenceCount, BitVec.toNat_or, hshift, BitVec.toNat_setWidth,
    Nat.mod_eq_of_lt (by omega : strong.toNat < 2 ^ 64),
    Nat.two_pow_add_eq_or_of_lt hs]

@[simp] theorem strongCount_referenceCount (strong weak : BitVec 32) :
    strongCount (referenceCount strong weak) = strong := by
  have hs := strong.isLt
  apply BitVec.eq_of_toNat_eq
  rw [strongCount_toNat, referenceCount_toNat]
  omega

@[simp] theorem weakCount_referenceCount (strong weak : BitVec 32) :
    weakCount (referenceCount strong weak) = weak := by
  have hs := strong.isLt
  apply BitVec.eq_of_toNat_eq
  rw [weakCount_toNat, referenceCount_toNat]
  omega

namespace Packed

variable {v : BitVec 64} {s w : Nat}

theorem toNat_eq
    (h : Packed v s w) :
    v.toNat = 2 ^ 32 * w + s := by
  have hs := h.strong
  have hw := h.weak
  rw [strongCount_toNat] at hs
  rw [weakCount_toNat] at hw
  omega

theorem of_toNat
    (hs : s < 2 ^ 32)
    (hv : v.toNat = 2 ^ 32 * w + s) :
    Packed v s w where
  strong := by
    rw [strongCount_toNat]
    omega
  weak := by
    rw [weakCount_toNat]
    omega

theorem strongCount_eq_zero_iff
    (h : Packed v s w) :
    strongCount v = 0 ↔ s = 0 := by
  have h0 : (0 : BitVec 32).toNat = 0 := rfl
  rw [← BitVec.toNat_inj, h.strong, h0]

theorem weakCount_eq_zero_iff
    (h : Packed v s w) :
    weakCount v = 0 ↔ w = 0 := by
  have h0 : (0 : BitVec 32).toNat = 0 := rfl
  rw [← BitVec.toNat_inj, h.weak, h0]

/-- The word is zero exactly when both counts are. -/
theorem eq_zero_iff
    (h : Packed v s w) :
    v = 0 ↔ s = 0 ∧ w = 0 := by
  have hv := h.toNat_eq
  have h0 : (0 : BitVec 64).toNat = 0 := rfl
  rw [← BitVec.toNat_inj, h0]
  omega

/-- `references++` does not carry into the weak count. -/
theorem addRef
    (h : Packed v s w)
    (hs : s + 1 < 2 ^ 32) :
    Packed (v + 1) (s + 1) w := by
  have hv := h.toNat_eq
  have hlt := h.weak ▸ (weakCount v).isLt
  have h1 : (1 : BitVec 64).toNat = 1 := rfl
  refine of_toNat hs ?_
  rw [BitVec.toNat_add, h1]
  omega

/-- `references += reference_count(0, 1)` does not overflow. -/
theorem addWeakRef
    (h : Packed v s w)
    (hw : w + 1 < 2 ^ 32) :
    Packed (v + referenceCount 0 1) s (w + 1) := by
  have hv := h.toNat_eq
  have hlt := h.strong ▸ (strongCount v).isLt
  have h1 : (referenceCount 0 1).toNat = 2 ^ 32 := rfl
  refine of_toNat hlt ?_
  rw [BitVec.toNat_add, h1]
  omega

/-- Decrementing one half. -/
theorem sub_one_toNat
    {x : BitVec 32} {n : Nat}
    (h : x.toNat = n + 1) :
    (x - 1).toNat = n := by
  have hlt := x.isLt
  have h1 : (1 : BitVec 32).toNat = 1 := rfl
  rw [BitVec.toNat_sub, h1]
  omega

/-- A release that is not the last one only changes the strong count. -/
theorem release
    (h : Packed v (s + 1) w)
    (hs : s ≠ 0) :
    Packed (releaseDesired v) s w := by
  have hstrong := sub_one_toNat h.strong
  have hne : strongCount v - 1 ≠ 0 := by
    intro hz
    rw [hz] at hstrong
    exact hs hstrong.symm
  exact
    { strong := by simpa [releaseDesired] using hstrong
      weak := by
        rw [releaseDesired, weakCount_referenceCount, if_neg hne]
        exact h.weak }

/-- The last release also gives up the weak count of the strong group. -/
theorem releaseLast
    (h : Packed v 1 (w + 1)) :
    Packed (releaseDesired v) 0 w := by
  have hstrong := sub_one_toNat h.strong
  have hz : strongCount v - 1 = 0 := by
    apply BitVec.eq_of_toNat_eq
    simpa using hstrong
  have hweak := sub_one_toNat h.weak
  exact
    { strong := by simpa [releaseDesired] using hstrong
      weak := by
        rw [releaseDesired, weakCount_referenceCount, if_pos hz]
        exact hweak }

theorem releaseWeak
    (h : Packed v s (w + 1)) :
    Packed (releaseWeakDesired v) s w where
  strong := by simpa [releaseWeakDesired] using h.strong
  weak := by simpa [releaseWeakDesired] using sub_one_toNat h.weak

/-- `lock` gives up exactly when the strong count is zero. -/
theorem lockFails_iff
    (h : Packed v s w) :
    lockFails v ↔ s = 0 := by
  have hlt := (strongCount v).isLt
  have hs := h.strong
  have h1 : (1 : BitVec 32).toNat = 1 := rfl
  rw [lockFails, ← BitVec.toNat_inj, BitVec.toNat_add, h1]
  omega

theorem lock
    (h : Packed v s w)
    (hs : s + 1 < 2 ^ 32) :
    Packed (lockDesired v) (s + 1) w := by
  have hstrong := h.strong
  have h1 : (1 : BitVec 32).toNat = 1 := rfl
  exact
    { strong := by
        rw [lockDesired, strongCount_referenceCount, BitVec.toNat_add, h1]
        omega
      weak := by simpa [lockDesired] using h.weak }

end Packed

end IntrusivePtr
end Ptl

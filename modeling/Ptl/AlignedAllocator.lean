import Mathlib.Data.BitVec
import Mathlib.Algebra.Order.Ring.Nat

/-!
# `aligned_allocator`

This module embeds `allocate` of `aligned_allocator<T, A>` and the function
`allocate_aligned_memory` it calls.  `posix_memalign` is a parameter: a call either fails
with a result code, or succeeds with a block of the requested size.

The number of bytes is the product `n * sizeof(T)` in `size_t`.

**Result.**  `allocate_largeEnough_iff`: `allocate` throws or returns a block that is large
enough exactly if the product does not wrap, wraps to zero, or `posix_memalign` fails on what
is left of it.
-/

namespace Ptl
namespace AlignedAllocator

/-- `size_t` of the 64-bit build. -/
abbrev SizeT := BitVec 64

/-- A block of memory. -/
structure Block where
  address : SizeT
  bytes : Nat
deriving DecidableEq

/--
`posix_memalign(&ptr, align, size)`: the result code, and the pointer it stores, where `none`
is the null pointer.
-/
abbrev Memalign := SizeT → SizeT → Int × Option Block

/-- A call of `posix_memalign` fails, or returns a block of the requested size. -/
def Documented (posixMemalign : Memalign) : Prop :=
  ∀ align size, (posixMemalign align size).1 = 0 →
    ∃ block : Block, (posixMemalign align size).2 = some block ∧ block.bytes = size.toNat

/-- `sizeof(void*)`. -/
def sizeofPointer : SizeT := 8

/-- `Alignment::AVX`, the default of `A`. -/
def avx : SizeT := 32

/-- How a call of `allocate` ends. -/
inductive Outcome where
  | assertionFails
  | throwsBadAlloc
  | returns (block : Block)
deriving DecidableEq

section Allocate

variable (posixMemalign : Memalign)

/-- The pointer that is returned; no result if the assertion fails. -/
def allocateAlignedMemory (align size : SizeT) : Option (Option Block) :=
  if sizeofPointer ≤ align then
    if size = 0 then some none
    else
      let call := posixMemalign align size
      if call.1 ≠ 0 then some none else some call.2
  else none

/-- `allocate(n)` of an allocator for elements of `sizeofT` bytes. -/
def allocate (sizeofT alignment n : SizeT) : Outcome :=
  match allocateAlignedMemory posixMemalign alignment (n * sizeofT) with
  | none => .assertionFails
  | some none => .throwsBadAlloc
  | some (some block) => .returns block

end Allocate

/-- The call throws, or its block has room for `n` elements. -/
def LargeEnough (sizeofT n : SizeT) : Outcome → Prop
  | .assertionFails => False
  | .throwsBadAlloc => True
  | .returns block => n.toNat * sizeofT.toNat ≤ block.bytes

instance decidableLargeEnough (sizeofT n : SizeT) (outcome : Outcome) :
    Decidable (LargeEnough sizeofT n outcome) := by
  cases outcome <;> unfold LargeEnough <;> infer_instance

section Product

variable {n sizeofT : SizeT}

/-- The computed number of bytes is the product exactly if it does not wrap. -/
theorem product_le_iff :
    n.toNat * sizeofT.toNat ≤ (n * sizeofT).toNat ↔ n.toNat * sizeofT.toNat < 2 ^ 64 := by
  rw [BitVec.toNat_mul]
  constructor
  · intro hle
    exact hle.trans_lt (Nat.mod_lt _ (Nat.two_pow_pos 64))
  · intro hlt
    exact (Nat.mod_eq_of_lt hlt).ge

theorem product_eq_zero_iff :
    n * sizeofT = 0 ↔ 2 ^ 64 ∣ n.toNat * sizeofT.toNat := by
  rw [← BitVec.toNat_inj, BitVec.toNat_mul, Nat.dvd_iff_mod_eq_zero]
  rfl

end Product

section Outcomes

variable {posixMemalign : Memalign} {sizeofT alignment n : SizeT}

theorem allocate_of_zero
    (halign : sizeofPointer ≤ alignment)
    (hzero : n * sizeofT = 0) :
    allocate posixMemalign sizeofT alignment n = .throwsBadAlloc := by
  rw [allocate, allocateAlignedMemory, if_pos halign, if_pos hzero]

theorem allocate_of_failure
    (halign : sizeofPointer ≤ alignment)
    (hfails : (posixMemalign alignment (n * sizeofT)).1 ≠ 0) :
    allocate posixMemalign sizeofT alignment n = .throwsBadAlloc := by
  rcases eq_or_ne (n * sizeofT) 0 with hzero | hne
  · exact allocate_of_zero halign hzero
  · rw [allocate, allocateAlignedMemory, if_pos halign, if_neg hne]
    simp only [if_pos hfails]

/-- Otherwise the block has the size that was computed. -/
theorem allocate_of_success
    (hdoc : Documented posixMemalign)
    (halign : sizeofPointer ≤ alignment)
    (hne : n * sizeofT ≠ 0)
    (hsucceeds : (posixMemalign alignment (n * sizeofT)).1 = 0) :
    ∃ block, allocate posixMemalign sizeofT alignment n = .returns block ∧
      block.bytes = (n * sizeofT).toNat := by
  obtain ⟨block, hblock, hbytes⟩ := hdoc alignment (n * sizeofT) hsucceeds
  refine ⟨block, ?_, hbytes⟩
  rw [allocate, allocateAlignedMemory, if_pos halign, if_neg hne]
  simp only [hsucceeds, hblock, ne_eq, not_true_eq_false, if_false]

/--
A call that passes the assertion throws or returns a block that is large enough exactly if the
product does not wrap, if it wraps to zero, or if there is no memory for what is left of it.
-/
theorem allocate_largeEnough_iff
    (hdoc : Documented posixMemalign)
    (halign : sizeofPointer ≤ alignment) :
    LargeEnough sizeofT n (allocate posixMemalign sizeofT alignment n) ↔
      n.toNat * sizeofT.toNat < 2 ^ 64 ∨ 2 ^ 64 ∣ n.toNat * sizeofT.toNat ∨
        (posixMemalign alignment (n * sizeofT)).1 ≠ 0 := by
  rw [← product_eq_zero_iff]
  rcases eq_or_ne (n * sizeofT) 0 with hzero | hne
  · rw [allocate_of_zero halign hzero]
    exact iff_of_true trivial (Or.inr (Or.inl hzero))
  rcases eq_or_ne (posixMemalign alignment (n * sizeofT)).1 0 with hsucceeds | hfails
  · obtain ⟨block, hcall, hbytes⟩ := allocate_of_success hdoc halign hne hsucceeds
    rw [hcall, LargeEnough, hbytes, product_le_iff]
    constructor
    · exact Or.inl
    · rintro (hfits | hzero | hfails)
      · exact hfits
      · exact absurd hzero hne
      · exact absurd hsucceeds hfails
  · rw [allocate_of_failure halign hfails]
    exact iff_of_true trivial (Or.inr (Or.inr hfails))

/-- A heap with that many free bytes, from the address 4096 on. -/
def heap (free : Nat) : Memalign := fun _ size =>
  if size.toNat ≤ free then (0, some { address := 4096, bytes := size.toNat })
  else (12, none)

theorem documented_heap (free : Nat) : Documented (heap free) := by
  intro align size h
  rw [heap] at h ⊢
  split at h
  · next hfree =>
      rw [if_pos hfree]
      exact ⟨_, rfl, rfl⟩
  · cases h

/-- Four elements of 8 bytes, and more elements than there is memory for. -/
theorem allocate_largeEnough_heap :
    LargeEnough 8 4 (allocate (heap 65536) 8 avx 4) ∧
      LargeEnough 8 2305843009213693951 (allocate (heap 65536) 8 avx 2305843009213693951) :=
  ⟨(allocate_largeEnough_iff (documented_heap 65536) (by decide)).mpr (by decide),
    (allocate_largeEnough_iff (documented_heap 65536) (by decide)).mpr (by decide)⟩

/-- For `2 ^ 61 + 1` elements of 8 bytes the block has 8 bytes. -/
theorem not_allocate_largeEnough :
    Documented (heap 65536) ∧
      allocate (heap 65536) 8 avx 2305843009213693953 =
        .returns { address := 4096, bytes := 8 } ∧
      ¬ LargeEnough 8 2305843009213693953
        (allocate (heap 65536) 8 avx 2305843009213693953) :=
  ⟨documented_heap 65536, by decide, by decide⟩

end Outcomes

end AlignedAllocator
end Ptl

import Ptl.WordFields
import Mathlib.Algebra.Group.Nat.Defs
import Mathlib.Algebra.Order.Ring.Nat

/-!
# `PackedPtr`

A pointer, a value and a small number share one 64-bit word.  This module embeds the
primary template, its specialisation for `bool` and the two full specialisations for
`std::exception_ptr`.  As written, the `reinterpret_cast`s of an integer to an integer
type of another size and the `const` on `set_small` do not compile; they are read as
conversions and as a member that may write.

**Results.**
* `Layout.getters_show_last`: in all four layouts every getter returns the argument of
  the last call of its setter.
* `ElementLayout.keeps_pointer_iff`: an address survives exactly if it is a multiple of
  eight, and every address of a type exactly if the type is aligned to eight.  The
  assertion on `alignof(T *)` does not ask for that, since it is about the pointer type and
  holds for every `T`.
-/

namespace Ptl
namespace PackedPtr

open Words

/-- `uintptr_t(-1)`. -/
def ones : BitVec 64 :=
  -1

/-- An integer type that `sizeof(VT) <= sizeof(uint16_t)` admits. -/
structure ValueType where
  bits : Nat
  signed : Bool
  size : bits = 8 ∨ bits = 16

namespace ValueType

/-- The conversion of a value to `uintptr_t`. -/
def widen (V : ValueType) (v : BitVec V.bits) : BitVec 64 :=
  if V.signed then v.signExtend 64 else v.setWidth 64

/-- The conversion of a `uintptr_t` to the value type. -/
def narrow (V : ValueType) (data : BitVec 64) : BitVec V.bits :=
  data.setWidth V.bits

/-- `uint16_t`, the default of the template. -/
def uint16 : ValueType where
  bits := 16
  signed := false
  size := .inr rfl

theorem bits_le (V : ValueType) :
    V.bits ≤ 16 := by
  have h := V.size
  omega

theorem getLsbD_widen
    (V : ValueType) (v : BitVec V.bits)
    {i : Nat}
    (hi : i < V.bits) :
    (V.widen v).getLsbD i = v.getLsbD i := by
  have hbits := V.bits_le
  rw [widen]
  split
  · rw [BitVec.getLsbD_signExtend, if_pos hi, decide_eq_true (by omega), Bool.true_and]
  · rw [BitVec.getLsbD_setWidth, decide_eq_true (by omega), Bool.true_and]

/-- A value that is shifted to the top of the word is found there. -/
theorem narrow_shift
    (V : ValueType) (v : BitVec V.bits) :
    V.narrow (V.widen v <<< 48 >>> 48) = v := by
  have hbits := V.bits_le
  apply BitVec.eq_of_getLsbD_eq
  intro i hi
  rw [narrow, BitVec.getLsbD_setWidth, decide_eq_true hi, Bool.true_and,
    BitVec.getLsbD_ushiftRight, BitVec.getLsbD_shiftLeft, decide_eq_true (by omega),
    decide_eq_false (by omega), Bool.true_and, Bool.not_false, Bool.true_and,
    Nat.add_sub_cancel_left, V.getLsbD_widen v hi]

end ValueType

/-- `(uintptr_t)v` for a `bool`. -/
def boolWord (b : Bool) : BitVec 64 :=
  if b then 1 else 0

section Masks

@[simp] theorem getLsbD_ones (i : Nat) :
    ones.getLsbD i = decide (i < 64) :=
  BitVec.getLsbD_allOnes

/-- A shift to the right drops the bits that the mask clears. -/
theorem and_high_shift (data : BitVec 64) (k : Nat) :
    (data &&& ones <<< k) >>> k = data >>> k := by
  apply BitVec.eq_of_getLsbD_eq
  intro i hi
  simp only [BitVec.getLsbD_ushiftRight, BitVec.getLsbD_and, BitVec.getLsbD_shiftLeft,
    getLsbD_ones]
  rcases Nat.lt_or_ge (k + i) 64 with h | h
  · simp [h, hi]
  · simp [BitVec.getLsbD_of_ge data (k + i) h]

theorem and_and (data mask : BitVec 64) :
    data &&& mask &&& mask = data &&& mask := by
  rw [BitVec.and_assoc, BitVec.and_self]

/-- What the low and the high mask leave of an address. -/
theorem toNat_and_between
    {h : Nat}
    (p : BitVec 64)
    (hp : p.toNat < 2 ^ h) :
    (p &&& ~~~(ones >>> 61 ||| ones <<< h)).toNat = p.toNat / 8 * 8 := by
  have heq : p &&& ~~~(ones >>> 61 ||| ones <<< h) = p >>> 3 <<< 3 := by
    apply BitVec.eq_of_getLsbD_eq
    intro i hi
    simp only [BitVec.getLsbD_and, BitVec.getLsbD_not, BitVec.getLsbD_or,
      BitVec.getLsbD_ushiftRight, BitVec.getLsbD_shiftLeft, getLsbD_ones]
    rcases Nat.lt_or_ge i h with hlt | hge
    · rcases Nat.lt_or_ge i 3 with h3 | h3
      · simp [h3, show 61 + i < 64 by omega]
      · simp [hi, hlt, Nat.not_lt.mpr h3, show ¬61 + i < 64 by omega, show 3 + (i - 3) = i by omega]
    · have hzero : p.getLsbD i = false := getLsbD_eq_false hp hge
      rcases Nat.lt_or_ge i 3 with h3 | h3
      · simp [hzero, h3]
      · simp [hzero, show 3 + (i - 3) = i by omega]
  have hdiv : p.toNat / 8 * 8 < 2 ^ 64 := by
    have hlt := p.isLt
    omega
  rw [heq, BitVec.toNat_shiftLeft, BitVec.toNat_ushiftRight, Nat.shiftRight_eq_div_pow,
    Nat.shiftLeft_eq]
  exact Nat.mod_eq_of_lt hdiv

end Masks

/-- The fields of a `PackedPtr`, named by their setters. -/
inductive Part where
  | ptr
  | value
  | small
deriving DecidableEq

/-- The argument of a setter, for a value type `ν`. -/
def Part.Arg (ν : Type) : Part → Type
  | .ptr => BitVec 64
  | .value => ν
  | .small => BitVec 8

/-- The fields of a word without a small number. -/
inductive Half where
  | ptr
  | value
deriving DecidableEq

def Half.Arg (ν : Type) : Half → Type
  | .ptr => BitVec 64
  | .value => ν

instance Half.decidableEqArg (ν : Type) [DecidableEq ν] : (k : Half) → DecidableEq (Half.Arg ν k)
  | .ptr => inferInstanceAs (DecidableEq (BitVec 64))
  | .value => inferInstanceAs (DecidableEq ν)

/-- A pointer that is below 2^48 and a multiple of 8. -/
def Address (p : BitVec 64) : Prop :=
  p.toNat < 2 ^ 48 ∧ 8 ∣ p.toNat

/-- The arguments that the fields hold. -/
def Part.Fits {ν : Type} : (k : Part) → Part.Arg ν k → Prop
  | .ptr, p => Address p
  | .value, _ => True
  | .small, v => v.toNat < 8

/-- The templates over an element type: `PackedPtr<T, VT>` and `PackedPtr<T, bool>`. -/
inductive ElementLayout where
  | primary (V : ValueType)
  | bool

namespace ElementLayout

def Value : ElementLayout → Type
  | primary V => BitVec V.bits
  | bool => Bool

def highBase : ElementLayout → Nat
  | primary _ => 48
  | bool => 63

/-- `(uintptr_t)v`. -/
def widen : (L : ElementLayout) → L.Value → BitVec 64
  | primary V, v => V.widen v
  | bool, b => boolWord b

/-- What `value()` makes of the shifted word; the one for `bool` returns `... & 1`. -/
def narrow : (L : ElementLayout) → BitVec 64 → L.Value
  | primary V, x => V.narrow x
  | bool, x => decide (x &&& 1 ≠ 0)

/-- The value zero, or `false`. -/
def falsy : (L : ElementLayout) → L.Value
  | primary V => 0#V.bits
  | bool => false

def lowMask : BitVec 64 :=
  ones >>> 61

def highMask (L : ElementLayout) : BitVec 64 :=
  ones <<< L.highBase

def ptrMask (L : ElementLayout) : BitVec 64 :=
  ~~~(lowMask ||| L.highMask)

def value (L : ElementLayout) (data : BitVec 64) : L.Value :=
  L.narrow (data >>> L.highBase)

def setValue (L : ElementLayout) (v : L.Value) (data : BitVec 64) : BitVec 64 :=
  ((L.widen v <<< L.highBase) &&& L.highMask) ||| (data &&& ~~~L.highMask)

def small (data : BitVec 64) : BitVec 8 :=
  (data &&& lowMask).setWidth 8

def setSmall (v : BitVec 8) (data : BitVec 64) : BitVec 64 :=
  (data &&& ~~~lowMask) ||| (v.setWidth 64 &&& lowMask)

def get (L : ElementLayout) (data : BitVec 64) : BitVec 64 :=
  data &&& L.ptrMask

/-- The specialisation for `bool` has the operands of `|` the other way round. -/
def set (L : ElementLayout) (ptr data : BitVec 64) : BitVec 64 :=
  (data &&& ~~~L.ptrMask) ||| (ptr &&& L.ptrMask)

theorem setValue_eq_store (L : ElementLayout) (v : L.Value) (data : BitVec 64) :
    L.setValue v data = store L.highMask (L.widen v <<< L.highBase) data :=
  rfl

theorem setSmall_eq_store (v : BitVec 8) (data : BitVec 64) :
    setSmall v data = store lowMask (v.setWidth 64) data :=
  BitVec.or_comm ..

theorem set_eq_store (L : ElementLayout) (ptr data : BitVec 64) :
    L.set ptr data = store L.ptrMask ptr data :=
  BitVec.or_comm ..

theorem reads_value (L : ElementLayout) :
    Reads L.value L.highMask := by
  intro data
  exact congrArg L.narrow (and_high_shift data L.highBase)

theorem reads_small :
    Reads small lowMask := by
  intro data
  exact congrArg (BitVec.setWidth 8) (and_and data lowMask)

theorem reads_get (L : ElementLayout) :
    Reads L.get L.ptrMask := by
  intro data
  exact and_and data L.ptrMask

theorem narrow_widen (L : ElementLayout) (v : L.Value) :
    L.narrow (L.widen v <<< L.highBase >>> L.highBase) = v := by
  cases L with
  | primary V =>
      exact V.narrow_shift v
  | bool =>
      cases v <;> rfl

theorem small_setWidth {v : BitVec 8} (h : v.toNat < 8) :
    small (v.setWidth 64) = v := by
  have hlow : v.toNat < 2 ^ 3 := h
  apply BitVec.eq_of_getLsbD_eq
  intro i hi
  simp only [small, lowMask, BitVec.getLsbD_setWidth, BitVec.getLsbD_and,
    BitVec.getLsbD_ushiftRight, getLsbD_ones]
  rcases Nat.lt_or_ge i 3 with h3 | h3
  · simp [hi, show i < 64 by omega, show 61 + i < 64 by omega]
  · simp [getLsbD_eq_false hlow h3]

/-- The pointer that `set` leaves in the word. -/
theorem toNat_get
    (L : ElementLayout)
    {p : BitVec 64}
    (hp : p.toNat < 2 ^ 48) :
    (L.get p).toNat = p.toNat / 8 * 8 := by
  cases L with
  | primary V =>
      exact toNat_and_between p hp
  | bool =>
      exact toNat_and_between p (Nat.lt_trans hp (by decide))

theorem get_eq_iff
    (L : ElementLayout)
    {p : BitVec 64}
    (hp : p.toNat < 2 ^ 48) :
    L.get p = p ↔ 8 ∣ p.toNat := by
  rw [← BitVec.toNat_inj, L.toNat_get hp]
  omega

/-- The mask of each field. -/
def mask (L : ElementLayout) : Part → BitVec 64
  | .ptr => L.ptrMask
  | .value => L.highMask
  | .small => lowMask

theorem mask_and_mask
    (L : ElementLayout)
    (j k : Part)
    (h : j ≠ k) :
    L.mask j &&& L.mask k = 0 := by
  have hbase : L.highBase = 48 ∨ L.highBase = 63 := by
    cases L <;> simp [highBase]
  have hmask (k : Part) :
      L.mask k =
        match k with
        | .ptr => ~~~(ones >>> 61 ||| ones <<< L.highBase)
        | .value => ones <<< L.highBase
        | .small => ones >>> 61 := by
    cases k <;> rfl
  rw [hmask, hmask]
  revert h
  rcases hbase with hbase | hbase
  · rw [hbase]
    cases j <;> cases k <;> decide
  · rw [hbase]
    cases j <;> cases k <;> decide

/-- The word that a setter stores under its mask. -/
def encode (L : ElementLayout) : (k : Part) → Part.Arg L.Value k → BitVec 64
  | .ptr, p => p
  | .value, v => L.widen v <<< L.highBase
  | .small, n => BitVec.setWidth 64 n

/-- The three fields of the word. -/
def fields (L : ElementLayout) :
    Fields (BitVec 64) Part (Part.Arg L.Value) (Part.Arg L.Value) :=
  .ofStores
    (fun
      | .ptr => L.get
      | .value => L.value
      | .small => small)
    (fun
      | .ptr => L.set
      | .value => L.setValue
      | .small => setSmall)
    (fun _ a => a)
    Part.Fits
    L.encode
    L.mask
    L.mask
    (fun
      | .ptr => L.set_eq_store
      | .value => L.setValue_eq_store
      | .small => setSmall_eq_store)
    (fun
      | .ptr => L.reads_get
      | .value => L.reads_value
      | .small => reads_small)
    (fun _ => BitVec.and_self)
    L.mask_and_mask
    (fun
      | .ptr, _, h => (L.get_eq_iff h.1).mpr h.2
      | .value, v, _ => L.narrow_widen v
      | .small, _, h => small_setWidth h)

end ElementLayout

/-! `PackedPtr<std::exception_ptr, uint16_t>`: the value is in the low bits. -/
namespace ExceptionValue

def lowMask : BitVec 64 :=
  ones >>> 48

def highBase : Nat :=
  61

def highMask : BitVec 64 :=
  ones <<< highBase

def ptrShift : Nat :=
  16 - 3

def ptrMask : BitVec 64 :=
  ~~~(lowMask ||| highMask)

def value (data : BitVec 64) : BitVec 16 :=
  (data &&& lowMask).setWidth 16

def setValue (v : BitVec 16) (data : BitVec 64) : BitVec 64 :=
  (v.setWidth 64 &&& lowMask) ||| (data &&& ~~~lowMask)

def small (data : BitVec 64) : BitVec 8 :=
  ((data &&& highMask) >>> highBase).setWidth 8

def setSmall (v : BitVec 8) (data : BitVec 64) : BitVec 64 :=
  (data &&& ~~~highMask) ||| ((v.setWidth 64 <<< highBase) &&& highMask)

def get (data : BitVec 64) : BitVec 64 :=
  (data &&& ptrMask) >>> ptrShift

def set (ptr data : BitVec 64) : BitVec 64 :=
  ((ptr <<< ptrShift) &&& ptrMask) ||| (data &&& ~~~ptrMask)

theorem setValue_eq_store (v : BitVec 16) (data : BitVec 64) :
    setValue v data = store lowMask (v.setWidth 64) data :=
  rfl

theorem setSmall_eq_store (v : BitVec 8) (data : BitVec 64) :
    setSmall v data = store highMask (v.setWidth 64 <<< highBase) data :=
  BitVec.or_comm ..

theorem set_eq_store (ptr data : BitVec 64) :
    set ptr data = store ptrMask (ptr <<< ptrShift) data :=
  rfl

theorem reads_value :
    Reads value lowMask := by
  intro data
  exact congrArg (BitVec.setWidth 16) (and_and data lowMask)

theorem reads_small :
    Reads small highMask := by
  intro data
  rw [small, small, and_and]

theorem reads_get :
    Reads get ptrMask := by
  intro data
  rw [get, get, and_and]

theorem value_setWidth (v : BitVec 16) :
    value (v.setWidth 64) = v := by
  apply BitVec.eq_of_getLsbD_eq
  intro i hi
  simp only [value, lowMask, BitVec.getLsbD_setWidth, BitVec.getLsbD_and,
    BitVec.getLsbD_ushiftRight, getLsbD_ones]
  simp [hi, show i < 64 by omega, show 48 + i < 64 by omega]

theorem small_shift {v : BitVec 8} (h : v.toNat < 8) :
    small (v.setWidth 64 <<< highBase) = v := by
  have hlow : v.toNat < 2 ^ 3 := h
  apply BitVec.eq_of_getLsbD_eq
  intro i hi
  simp only [small, highMask, highBase, and_high_shift, BitVec.getLsbD_setWidth,
    BitVec.getLsbD_ushiftRight, BitVec.getLsbD_shiftLeft]
  rcases Nat.lt_or_ge i 3 with h3 | h3
  · simp [hi, show i < 64 by omega, show 61 + i < 64 by omega]
  · simp [getLsbD_eq_false hlow h3]

/-- The shift puts the three bits that are zero on top of the value. -/
theorem get_shift {p : BitVec 64} (h : Address p) :
    get (p <<< ptrShift) = p := by
  obtain ⟨hlt, hdvd⟩ := h
  have haligned : 2 ^ 3 ∣ p.toNat := hdvd
  apply BitVec.eq_of_getLsbD_eq
  intro i hi
  simp only [get, ptrMask, lowMask, highMask, highBase, ptrShift, BitVec.getLsbD_and,
    BitVec.getLsbD_not, BitVec.getLsbD_or, BitVec.getLsbD_ushiftRight,
    BitVec.getLsbD_shiftLeft, getLsbD_ones]
  rcases Nat.lt_or_ge i 3 with h3 | h3
  · simp [getLsbD_eq_false_of_dvd haligned h3]
  · rcases Nat.lt_or_ge i 48 with h48 | h48
    · simp [show 13 + i < 64 by omega, show 13 + i < 61 by omega, show ¬48 + (13 + i) < 64 by omega]
    · simp [getLsbD_eq_false hlt h48]

/-- The mask of each field. -/
def mask : Part → BitVec 64
  | .ptr => ptrMask
  | .value => lowMask
  | .small => highMask

theorem mask_and_mask
    (j k : Part)
    (h : j ≠ k) :
    mask j &&& mask k = 0 := by
  revert h
  cases j <;> cases k <;> decide

/-- The word that a setter stores under its mask. -/
def encode : (k : Part) → Part.Arg (BitVec 16) k → BitVec 64
  | .ptr, p => BitVec.shiftLeft p ptrShift
  | .value, v => BitVec.setWidth 64 v
  | .small, n => BitVec.setWidth 64 n <<< highBase

/-- The three fields of the word. -/
def fields : Fields (BitVec 64) Part (Part.Arg (BitVec 16)) (Part.Arg (BitVec 16)) :=
  .ofStores
    (fun
      | .ptr => get
      | .value => value
      | .small => small)
    (fun
      | .ptr => set
      | .value => setValue
      | .small => setSmall)
    (fun _ a => a)
    Part.Fits
    encode
    mask
    mask
    (fun
      | .ptr => set_eq_store
      | .value => setValue_eq_store
      | .small => setSmall_eq_store)
    (fun
      | .ptr => reads_get
      | .value => reads_value
      | .small => reads_small)
    (fun _ => BitVec.and_self)
    mask_and_mask
    (fun
      | .ptr, _, h => get_shift h
      | .value, v, _ => value_setWidth v
      | .small, _, h => small_shift h)

end ExceptionValue

/-! `PackedPtr<std::exception_ptr, bool>`: no small number. -/
namespace ExceptionBool

/-- `uintptr_t(-1) >> 16`, also written `-1ULL >> 16`. -/
def ptrMask : BitVec 64 :=
  ones >>> 16

def highMask : BitVec 64 :=
  ones <<< 63

/-- A `bool` that is returned as a `uint16_t`. -/
def returned (b : Bool) : BitVec 16 :=
  if b then 1 else 0

def value (data : BitVec 64) : BitVec 16 :=
  returned (decide (data >>> 63 ≠ 0))

def setValue (v : Bool) (data : BitVec 64) : BitVec 64 :=
  (boolWord v <<< 63) ||| (data &&& ptrMask)

def get (data : BitVec 64) : BitVec 64 :=
  data &&& ptrMask

def set (ptr data : BitVec 64) : BitVec 64 :=
  (ptr &&& ptrMask) ||| (data &&& highMask)

theorem setValue_eq_store (v : Bool) (data : BitVec 64) :
    setValue v data = store (~~~ptrMask) (boolWord v <<< 63) data :=
  or_and_eq_store (by cases v <;> decide) data

theorem set_eq_store (ptr data : BitVec 64) :
    set ptr data = store (~~~highMask) (ptr &&& ptrMask) data :=
  or_and_eq_store (by rw [BitVec.and_assoc]; exact BitVec.and_zero) data

theorem reads_value :
    Reads value highMask := by
  intro data
  exact congrArg (fun x => returned (decide (x ≠ 0))) (and_high_shift data 63)

theorem reads_get :
    Reads get ptrMask := by
  intro data
  exact and_and data ptrMask

/-- The pointer that `set` leaves in the word. -/
theorem get_eq {p : BitVec 64} (h : p.toNat < 2 ^ 48) :
    get p = p := by
  apply BitVec.eq_of_getLsbD_eq
  intro i hi
  simp only [get, ptrMask, BitVec.getLsbD_and, BitVec.getLsbD_ushiftRight, getLsbD_ones]
  rcases Nat.lt_or_ge i 48 with h48 | h48
  · simp [show 16 + i < 64 by omega]
  · simp [getLsbD_eq_false h h48]

/-- The bits that a getter looks at. -/
def bits : Half → BitVec 64
  | .ptr => ptrMask
  | .value => highMask

/-- The bits that a setter replaces; both clear the bits between the fields. -/
def written : Half → BitVec 64
  | .ptr => ~~~highMask
  | .value => ~~~ptrMask

def encode : (k : Half) → Half.Arg Bool k → BitVec 64
  | .ptr, p => BitVec.and p ptrMask
  | .value, v => boolWord v <<< 63

/-- The two fields of the word. -/
def fields : Fields (BitVec 64) Half (Half.Arg Bool) (Half.Arg (BitVec 16)) :=
  .ofStores
    (fun
      | .ptr => get
      | .value => value)
    (fun
      | .ptr => set
      | .value => setValue)
    (fun
      | .ptr => id
      | .value => returned)
    (fun
      | .ptr => fun p => BitVec.toNat p < 2 ^ 48
      | .value => fun _ => True)
    encode
    bits
    written
    (fun
      | .ptr => set_eq_store
      | .value => setValue_eq_store)
    (fun
      | .ptr => reads_get
      | .value => reads_value)
    (fun
      | .ptr => by decide
      | .value => by decide)
    (fun
      | .ptr, .value, _ => by decide
      | .value, .ptr, _ => by decide
      | .ptr, .ptr, h => absurd rfl h
      | .value, .value, h => absurd rfl h)
    (fun
      | .ptr, p, h => (reads_get p).trans (get_eq h)
      | .value, v, _ => by cases v <;> rfl)

end ExceptionBool

/-- The layouts of `PackedPtr`. -/
inductive Layout where
  | element (L : ElementLayout)
  | exceptionValue
  | exceptionBool

namespace Layout

/-- The setters that a layout offers. -/
def Setter : Layout → Type
  | element _ => Part
  | exceptionValue => Part
  | exceptionBool => Half

instance decidableEqSetter : (L : Layout) → DecidableEq L.Setter
  | element _ => inferInstanceAs (DecidableEq Part)
  | exceptionValue => inferInstanceAs (DecidableEq Part)
  | exceptionBool => inferInstanceAs (DecidableEq Half)

def Arg : (L : Layout) → L.Setter → Type
  | element L => Part.Arg L.Value
  | exceptionValue => Part.Arg (BitVec 16)
  | exceptionBool => Half.Arg Bool

/-- What the getter of a field returns. -/
def Result : (L : Layout) → L.Setter → Type
  | element L => Part.Arg L.Value
  | exceptionValue => Part.Arg (BitVec 16)
  | exceptionBool => Half.Arg (BitVec 16)

def fields : (L : Layout) → Fields (BitVec 64) L.Setter L.Arg L.Result
  | element L => L.fields
  | exceptionValue => ExceptionValue.fields
  | exceptionBool => ExceptionBool.fields

/-- The arguments of a setter that are pointers to aligned objects and small numbers. -/
def Valid : (L : Layout) → (k : L.Setter) → L.Arg k → Prop
  | element _ => Part.Fits
  | exceptionValue => Part.Fits
  | exceptionBool => fun
      | .ptr => Address
      | .value => fun _ => True

/-- The null pointer, the value zero or `false`, and the small number zero. -/
def zero : (L : Layout) → (k : L.Setter) → L.Result k
  | element L => fun
      | .ptr => 0#64
      | .value => L.falsy
      | .small => 0#8
  | exceptionValue => fun
      | .ptr => 0#64
      | .value => 0#16
      | .small => 0#8
  | exceptionBool => fun
      | .ptr => 0#64
      | .value => 0#16

theorem Valid.fits
    {L : Layout} {k : L.Setter} {a : L.Arg k}
    (h : L.Valid k a) :
    L.fields.fits k a := by
  cases L with
  | element L =>
      exact h
  | exceptionValue =>
      exact h
  | exceptionBool =>
      cases k with
      | ptr =>
          exact h.1
      | value =>
          exact trivial

end Layout

section Elements

/-- An element type; the alignment of a type is a power of two. -/
structure ElementType where
  alignment : Nat
  power : ∃ k, alignment = 2 ^ k

namespace ElementType

/-- `alignof(T *)`, which does not depend on `T`. -/
def alignofPointer (_ : ElementType) : Nat :=
  8

/-- `sizeof(T *)`. -/
def sizeofPointer (_ : ElementType) : Nat :=
  8

/-- The assertions of the two templates. -/
def Asserted (T : ElementType) : Prop :=
  T.alignofPointer = 8 ∧ T.sizeofPointer = 8

/-- The assertions admit every element type. -/
theorem asserted (T : ElementType) :
    T.Asserted :=
  ⟨rfl, rfl⟩

end ElementType

namespace ElementLayout

/-- What `get()` returns after `set(p)` and calls of the other setters. -/
theorem get_run_set
    (L : ElementLayout)
    (p data : BitVec 64)
    {calls : List (Write (Part.Arg L.Value))}
    (hcalls : ∀ c ∈ calls, c.1 ≠ .ptr) :
    L.get (L.fields.run calls (L.set p data)) = L.get p := by
  have hset : L.get (L.set p data) = L.get p := by
    rw [set_eq_store, L.reads_get.store_own BitVec.and_self]
  exact (L.fields.get_run_of_ne hcalls (L.set p data)).trans hset

/-- After `set(p)` and any further calls of the other setters, `get()` returns `p`. -/
def Keeps (L : ElementLayout) (p : BitVec 64) : Prop :=
  ∀ data (calls : List (Write (Part.Arg L.Value))), (∀ c ∈ calls, c.1 ≠ .ptr) →
    L.get (L.fields.run calls (L.set p data)) = p

/-- An address is kept exactly if its low three bits are zero. -/
theorem keeps_iff
    (L : ElementLayout)
    {p : BitVec 64}
    (hp : p.toNat < 2 ^ 48) :
    L.Keeps p ↔ 8 ∣ p.toNat := by
  rw [← L.get_eq_iff hp]
  constructor
  · intro h
    have hnone := h 0 [] (by simp)
    rwa [L.get_run_set p 0 (by simp)] at hnone
  · intro h data calls hcalls
    rw [L.get_run_set p data hcalls, h]

/-- The alignment that the three low bits need. -/
theorem eight_dvd_alignment_iff (T : ElementType) :
    8 ∣ T.alignment ↔ 8 ≤ T.alignment := by
  obtain ⟨k, hk⟩ := T.power
  rw [hk]
  constructor
  · exact Nat.le_of_dvd Nat.one_le_two_pow
  · intro h
    have h3 : 3 ≤ k := (Nat.pow_le_pow_iff_right (by decide : 1 < 2)).mp h
    exact Nat.pow_dvd_pow 2 h3

/--
The assertions admit every element type.  The address of an object is kept exactly if it
is a multiple of eight, and all addresses of objects of a type are kept exactly if the
type is aligned to eight bytes.
-/
theorem keeps_pointer_iff
    (L : ElementLayout)
    (T : ElementType) :
    T.Asserted ∧
    (∀ p : BitVec 64, p.toNat < 2 ^ 48 → T.alignment ∣ p.toNat →
      (L.Keeps p ↔ 8 ∣ p.toNat)) ∧
    ((∀ p : BitVec 64, p.toNat < 2 ^ 48 → T.alignment ∣ p.toNat → L.Keeps p) ↔
      8 ≤ T.alignment) := by
  refine ⟨T.asserted, fun p hp _ => L.keeps_iff hp, ?_⟩
  rw [← eight_dvd_alignment_iff]
  constructor
  · intro h
    rw [eight_dvd_alignment_iff]
    by_contra hlt
    -- The first aligned address is not a multiple of eight.
    have hsmall : T.alignment < 8 := Nat.lt_of_not_le hlt
    have hnat : (BitVec.ofNat 64 T.alignment).toNat = T.alignment := by
      rw [BitVec.toNat_ofNat]
      exact Nat.mod_eq_of_lt (by omega)
    have hbound : (BitVec.ofNat 64 T.alignment).toNat < 2 ^ 48 := by omega
    have hkeeps := h (BitVec.ofNat 64 T.alignment) hbound (by rw [hnat])
    rw [L.keeps_iff hbound, hnat, eight_dvd_alignment_iff] at hkeeps
    exact hlt hkeeps
  · intro h p hp haligned
    exact (L.keeps_iff hp).mpr (h.trans haligned)

/-- An `int` at an odd multiple of four is not found again. -/
def int : ElementType where
  alignment := 4
  power := ⟨2, rfl⟩

theorem not_keeps_int :
    int.Asserted ∧ int.alignment ∣ (0x1004#64).toNat ∧ (0x1004#64).toNat < 2 ^ 48 ∧
      (primary .uint16).get ((primary .uint16).set 0x1004 0) = 0x1000 ∧
      ¬(primary .uint16).Keeps 0x1004 := by
  refine ⟨⟨rfl, rfl⟩, by decide, by decide, rfl, ?_⟩
  intro h
  have hget := h 0 [] (by simp)
  revert hget
  decide

end ElementLayout

end Elements

end PackedPtr
end Ptl

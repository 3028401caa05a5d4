import Ptl.SocketAddress

/-!
# The classes of `ip_address.hpp`

This module embeds the constructors, the accessors and the comparison operators of
`ipv4_address` and `ipv6_address`.

* `subnet()` and `interface()` put 64 bits together and return 32 of them.
* The constructor from sixteen bytes puts `15` in the place of its last argument.
* `operator<` on IPv6 addresses compares the bytes at which `std::mismatch` stops, which
  looks at all bytes but the last.

**Results.**
* `construction_agrees_iff`: the accessors return the words an address was constructed from
  exactly if they have 32 bits, and the four constructors agree exactly if the last byte
  is `15`.
* `comparisons_numeric`: the operators of both classes compare the addresses as numbers.
-/

namespace Ptl
namespace Asio

open Bytes

namespace Ipv4Address

/-- `address_[i]`. -/
def byte (a : Ipv4Address) (i : Nat) (h : i < 4 := by decide) : Byte :=
  a.address.get ⟨i, by rwa [a.length_address]⟩

def toInteger (a : Ipv4Address) : BitVec 32 :=
  (a.byte 0).setWidth 32 <<< 24 ||| (a.byte 1).setWidth 32 <<< 16 |||
    (a.byte 2).setWidth 32 <<< 8 ||| (a.byte 3).setWidth 32 <<< 0

theorem address_eq (a : Ipv4Address) :
    a.address = [a.byte 0, a.byte 1, a.byte 2, a.byte 3] := by
  obtain ⟨address, hlength⟩ := a
  match address, hlength with
  | [_, _, _, _], _ => rfl

theorem toInteger_eq (a : Ipv4Address) :
    a.toInteger = wordOf 32 a.address := by
  rw [address_eq, toInteger]
  simp [wordOf, BitVec.or_assoc]

end Ipv4Address

namespace Ipv6Address

/-- `address_[i]`. -/
def byte (a : Ipv6Address) (i : Nat) (h : i < 16 := by decide) : Byte :=
  a.address.get ⟨i, by rwa [a.length_address]⟩

/-- `ipv6_address(uint64_t, uint64_t)`. -/
def ofWords (subnet iface : BitVec 64) : Ipv6Address where
  address := [
    (subnet >>> 56).setWidth 8, (subnet >>> 48).setWidth 8,
    (subnet >>> 40).setWidth 8, (subnet >>> 32).setWidth 8,
    (subnet >>> 24).setWidth 8, (subnet >>> 16).setWidth 8,
    (subnet >>> 8).setWidth 8, (subnet >>> 0).setWidth 8,
    (iface >>> 56).setWidth 8, (iface >>> 48).setWidth 8,
    (iface >>> 40).setWidth 8, (iface >>> 32).setWidth 8,
    (iface >>> 24).setWidth 8, (iface >>> 16).setWidth 8,
    (iface >>> 8).setWidth 8, (iface >>> 0).setWidth 8]
  length_address := rfl

/-- `ipv6_address(uint16_t, ..., uint16_t)`. -/
def ofGroups (a0 a1 a2 a3 a4 a5 a6 a7 : BitVec 16) : Ipv6Address where
  address := [
    (a0 >>> 8).setWidth 8, (a0 >>> 0).setWidth 8, (a1 >>> 8).setWidth 8,
    (a1 >>> 0).setWidth 8, (a2 >>> 8).setWidth 8, (a2 >>> 0).setWidth 8,
    (a3 >>> 8).setWidth 8, (a3 >>> 0).setWidth 8, (a4 >>> 8).setWidth 8,
    (a4 >>> 0).setWidth 8, (a5 >>> 8).setWidth 8, (a5 >>> 0).setWidth 8,
    (a6 >>> 8).setWidth 8, (a6 >>> 0).setWidth 8, (a7 >>> 8).setWidth 8,
    (a7 >>> 0).setWidth 8]
  length_address := rfl

/-- `ipv6_address(const uint8_t (&)[16])`. -/
def ofArray (addr : Vector Byte 16) : Ipv6Address where
  address := [
    addr[0], addr[1], addr[2], addr[3], addr[4], addr[5], addr[6], addr[7],
    addr[8], addr[9], addr[10], addr[11], addr[12], addr[13], addr[14], addr[15]]
  length_address := rfl

/-- `ipv6_address(uint8_t, ..., uint8_t)`. -/
def ofBytes (a0 a1 a2 a3 a4 a5 a6 a7 a8 a9 a10 a11 a12 a13 a14 _a15 : Byte) : Ipv6Address where
  -- the last element is a literal
  address := [a0, a1, a2, a3, a4, a5, a6, a7, a8, a9, a10, a11, a12, a13, a14, 15]
  length_address := rfl

def subnet (a : Ipv6Address) : BitVec 32 :=
  ((a.byte 0).setWidth 64 <<< 56 ||| (a.byte 1).setWidth 64 <<< 48 |||
    (a.byte 2).setWidth 64 <<< 40 ||| (a.byte 3).setWidth 64 <<< 32 |||
    (a.byte 4).setWidth 64 <<< 24 ||| (a.byte 5).setWidth 64 <<< 16 |||
    (a.byte 6).setWidth 64 <<< 8 ||| (a.byte 7).setWidth 64 <<< 0).setWidth 32

def interface (a : Ipv6Address) : BitVec 32 :=
  ((a.byte 8).setWidth 64 <<< 56 ||| (a.byte 9).setWidth 64 <<< 48 |||
    (a.byte 10).setWidth 64 <<< 40 ||| (a.byte 11).setWidth 64 <<< 32 |||
    (a.byte 12).setWidth 64 <<< 24 ||| (a.byte 13).setWidth 64 <<< 16 |||
    (a.byte 14).setWidth 64 <<< 8 ||| (a.byte 15).setWidth 64 <<< 0).setWidth 32

theorem address_eq (a : Ipv6Address) :
    a.address = [
      a.byte 0, a.byte 1, a.byte 2, a.byte 3, a.byte 4, a.byte 5, a.byte 6, a.byte 7,
      a.byte 8, a.byte 9, a.byte 10, a.byte 11, a.byte 12, a.byte 13, a.byte 14, a.byte 15] := by
  obtain ⟨address, hlength⟩ := a
  match address, hlength with
  | [_, _, _, _, _, _, _, _, _, _, _, _, _, _, _, _], _ => rfl

theorem subnet_eq (a : Ipv6Address) :
    a.subnet = (wordOf 64 (a.address.take 8)).setWidth 32 := by
  rw [address_eq, subnet]
  simp [wordOf, BitVec.or_assoc]

theorem interface_eq (a : Ipv6Address) :
    a.interface = (wordOf 64 (a.address.drop 8)).setWidth 32 := by
  rw [address_eq, interface]
  simp [wordOf, BitVec.or_assoc]

theorem address_ofWords (subnet iface : BitVec 64) :
    (ofWords subnet iface).address = bytesOf subnet 8 ++ bytesOf iface 8 := by
  rfl

/-- The part of an address with `n` bits of which `k` bits follow. -/
def part (x : BitVec 128) (n k : Nat) : BitVec n :=
  (x >>> k).setWidth n

section Parts

variable (x : BitVec 128)

/-- The constructors, each given the big-endian parts of an address. -/
def fromWords : Ipv6Address :=
  ofWords (part x 64 64) (part x 64 0)

def fromGroups : Ipv6Address :=
  ofGroups (part x 16 112) (part x 16 96) (part x 16 80) (part x 16 64)
    (part x 16 48) (part x 16 32) (part x 16 16) (part x 16 0)

def fromArray : Ipv6Address :=
  ofArray #v[
    part x 8 120, part x 8 112, part x 8 104, part x 8 96,
    part x 8 88, part x 8 80, part x 8 72, part x 8 64,
    part x 8 56, part x 8 48, part x 8 40, part x 8 32,
    part x 8 24, part x 8 16, part x 8 8, part x 8 0]

def fromBytes : Ipv6Address :=
  ofBytes (part x 8 120) (part x 8 112) (part x 8 104) (part x 8 96)
    (part x 8 88) (part x 8 80) (part x 8 72) (part x 8 64)
    (part x 8 56) (part x 8 48) (part x 8 40) (part x 8 32)
    (part x 8 24) (part x 8 16) (part x 8 8) (part x 8 0)

theorem address_fromArray :
    (fromArray x).address = bytesOf x 16 := by
  rfl

theorem address_fromWords :
    (fromWords x).address = bytesOf x 16 := by
  simp (disch := omega) only [fromWords, ofWords, part, setWidth_ushiftRight_setWidth]
  rfl

theorem address_fromGroups :
    (fromGroups x).address = bytesOf x 16 := by
  simp (disch := omega) only [fromGroups, ofGroups, part, setWidth_ushiftRight_setWidth]
  rfl

theorem address_fromBytes :
    (fromBytes x).address = (bytesOf x 16).take 15 ++ [15] := by
  rfl

/-- Three constructors always agree; the fourth one does if its literal is the last byte. -/
theorem fromBytes_eq_iff :
    fromBytes x = fromArray x ↔ part x 8 0 = 15 := by
  have hlast : (bytesOf x 16).drop 15 = [part x 8 0] := rfl
  rw [Ipv6Address.ext_iff, address_fromBytes, address_fromArray]
  nth_rewrite 2 [← List.take_append_drop 15 (bytesOf x 16)]
  rw [List.append_cancel_left_eq, hlast, List.cons.injEq, eq_comm]
  exact and_iff_left rfl

end Parts

/-- `subnet() == subnet` and `interface() == iface`; the operands have 64 bits there. -/
def AccessAgrees (subnet iface : BitVec 64) : Prop :=
  (ofWords subnet iface).subnet.setWidth 64 = subnet ∧
    (ofWords subnet iface).interface.setWidth 64 = iface

/-- The four constructors produce the same `bytes()`. -/
def ConstructorsAgree (x : BitVec 128) : Prop :=
  (fromWords x).address = (fromGroups x).address ∧
    (fromGroups x).address = (fromBytes x).address ∧
    (fromBytes x).address = (fromArray x).address

theorem subnet_ofWords (subnet iface : BitVec 64) :
    (ofWords subnet iface).subnet = subnet.setWidth 32 := by
  rw [subnet_eq, address_ofWords, List.take_left' (length_bytesOf ..), wordOf_bytesOf subnet rfl]

theorem interface_ofWords (subnet iface : BitVec 64) :
    (ofWords subnet iface).interface = iface.setWidth 32 := by
  rw [interface_eq, address_ofWords, List.drop_left' (length_bytesOf ..), wordOf_bytesOf iface rfl]

/-- A word survives the conversion to the result type if it has 32 bits. -/
theorem setWidth_setWidth_eq_iff (x : BitVec 64) :
    (x.setWidth 32).setWidth 64 = x ↔ x.toNat < 2 ^ 32 := by
  rw [← BitVec.toNat_inj, BitVec.toNat_setWidth, BitVec.toNat_setWidth]
  have hx := x.isLt
  omega

/--
The accessors agree with the construction exactly for words of 32 bits, and the constructors
agree with each other exactly for addresses that end with `15`.
-/
theorem construction_agrees_iff (subnet iface : BitVec 64) (x : BitVec 128) :
    (AccessAgrees subnet iface ↔ subnet.toNat < 2 ^ 32 ∧ iface.toNat < 2 ^ 32) ∧
      (ConstructorsAgree x ↔ part x 8 0 = 15) := by
  constructor
  · rw [AccessAgrees, subnet_ofWords, interface_ofWords, setWidth_setWidth_eq_iff,
      setWidth_setWidth_eq_iff]
  · rw [← fromBytes_eq_iff, Ipv6Address.ext_iff, ConstructorsAgree, address_fromWords,
      address_fromGroups, ← address_fromArray]
    exact ⟨fun h => h.2.2, fun h => ⟨rfl, h.symm, h⟩⟩

/-- The prefix `2001:db8::/32`, and the loopback address. -/
theorem not_construction_agrees :
    ¬AccessAgrees 0x20010db800000000 1 ∧
      (ofWords 0x20010db800000000 1).subnet = 0 ∧ ¬ConstructorsAgree 1 := by
  refine ⟨fun h => ?_, rfl, fun h => ?_⟩
  · exact absurd h.1 (by decide)
  · exact absurd h.2.2 (by decide)

end Ipv6Address

/-- The comparison operators of a class; one that reads past the last byte has no result. -/
structure Operators (α : Type) where
  eq : α → α → Option Bool
  ne : α → α → Option Bool
  lt : α → α → Option Bool
  gt : α → α → Option Bool
  le : α → α → Option Bool
  ge : α → α → Option Bool

namespace Operators

variable {α : Type}

/-- `a < b`. -/
def Less (ops : Operators α) (a b : α) : Prop :=
  ops.lt a b = some true

/-- The operators compare a number, and never read past the last byte. -/
structure Numeric (ops : Operators α) (value : α → Nat) : Prop where
  eq : ∀ a b, ops.eq a b = some (decide (value a = value b))
  ne : ∀ a b, ops.ne a b = some (decide (value a ≠ value b))
  lt : ∀ a b, ops.lt a b = some (decide (value a < value b))
  gt : ∀ a b, ops.gt a b = some (decide (value a > value b))
  le : ∀ a b, ops.le a b = some (decide (value a ≤ value b))
  ge : ∀ a b, ops.ge a b = some (decide (value a ≥ value b))

/-- A strict total order, for which the incomparable addresses are those that `==` equates. -/
structure StrictTotal (ops : Operators α) : Prop where
  order : IsStrictTotalOrder α ops.Less
  eq_iff : ∀ a b, ops.eq a b = some true ↔ a = b
  incomparable_iff : ∀ a b, ¬ops.Less a b ∧ ¬ops.Less b a ↔ ops.eq a b = some true

variable {ops : Operators α} {value : α → Nat}

theorem Numeric.less_iff
    (h : ops.Numeric value)
    (a b : α) :
    ops.Less a b ↔ value a < value b := by
  rw [Less, h.lt, Option.some.injEq, decide_eq_true_iff]

theorem Numeric.eq_iff
    (h : ops.Numeric value)
    (a b : α) :
    ops.eq a b = some true ↔ value a = value b := by
  rw [h.eq, Option.some.injEq, decide_eq_true_iff]

/-- The derived operators follow from `==` and `<`. -/
theorem Numeric.of_derived
    (heq : ∀ a b, ops.eq a b = some (decide (value a = value b)))
    (hlt : ∀ a b, ops.lt a b = some (decide (value a < value b)))
    (hne : ∀ a b, ops.ne a b = (ops.eq a b).map not)
    (hgt : ∀ a b, ops.gt a b = ops.lt b a)
    (hle : ∀ a b, ops.le a b = (ops.gt a b).map not)
    (hge : ∀ a b, ops.ge a b = (ops.lt a b).map not) :
    ops.Numeric value where
  eq := heq
  ne a b := by simp [hne, heq]
  lt := hlt
  gt a b := by rw [hgt, hlt]
  le a b := by
    rw [hle, hgt, hlt, Option.map_some, ← decide_not]
    simp only [Nat.not_lt]
  ge a b := by
    rw [hge, hlt, Option.map_some, ← decide_not]
    simp only [Nat.not_lt, ge_iff_le]

theorem Numeric.strictTotal
    (h : ops.Numeric value)
    (hvalue : Function.Injective value) :
    ops.StrictTotal where
  order :=
    { irrefl := fun a => by
        rw [h.less_iff]
        exact Nat.lt_irrefl _
      trans := fun a b c => by
        rw [h.less_iff, h.less_iff, h.less_iff]
        exact Nat.lt_trans
      trichotomous := fun a b => by
        rw [h.less_iff, h.less_iff, Nat.not_lt, Nat.not_lt]
        exact fun hba hab => hvalue (Nat.le_antisymm hab hba) }
  eq_iff a b := by
    rw [h.eq_iff]
    exact hvalue.eq_iff
  incomparable_iff a b := by
    rw [h.less_iff, h.less_iff, h.eq_iff]
    omega

end Operators

namespace Ipv4Address

/-- The big-endian integer value of the bytes. -/
def value (a : Ipv4Address) : Nat :=
  load .big a.address

def eq (a other : Ipv4Address) : Bool :=
  a.byte 0 == other.byte 0 && a.byte 1 == other.byte 1 &&
    a.byte 2 == other.byte 2 && a.byte 3 == other.byte 3

def ne (a other : Ipv4Address) : Bool :=
  !a.eq other

def lt (a other : Ipv4Address) : Bool :=
  a.toInteger < other.toInteger

def gt (a other : Ipv4Address) : Bool :=
  other.lt a

def le (a other : Ipv4Address) : Bool :=
  !a.gt other

def ge (a other : Ipv4Address) : Bool :=
  !a.lt other

/-- All reads are at the indices `0` to `3`. -/
def operators : Operators Ipv4Address where
  eq a b := some (a.eq b)
  ne a b := some (a.ne b)
  lt a b := some (a.lt b)
  gt a b := some (a.gt b)
  le a b := some (a.le b)
  ge a b := some (a.ge b)

theorem value_injective : Function.Injective value := by
  intro a b h
  have hlength : a.address.length = b.address.length := by
    rw [a.length_address, b.length_address]
  exact Ipv4Address.ext ((load_inj hlength).mp h)

theorem toNat_toInteger (a : Ipv4Address) :
    a.toInteger.toNat = a.value := by
  rw [toInteger_eq, toNat_wordOf (by simp [a.length_address])]
  rfl

theorem eq_iff (a b : Ipv4Address) :
    a.eq b = true ↔ a.value = b.value := by
  rw [value_injective.eq_iff, Ipv4Address.ext_iff, address_eq a, address_eq b]
  simp [eq, and_assoc]

theorem numeric : operators.Numeric value := by
  refine .of_derived (fun a b => ?_) (fun a b => ?_) (fun _ _ => rfl) (fun _ _ => rfl)
    (fun _ _ => rfl) (fun _ _ => rfl)
  · exact congrArg some (Bool.eq_iff_iff.mpr ((eq_iff a b).trans decide_eq_true_iff.symm))
  · simp only [operators, lt, BitVec.lt_def, toNat_toInteger]

end Ipv4Address

/-- The number of elements before the places at which `std::mismatch` stops. -/
def mismatch : List Byte → List Byte → Nat
  | a :: l, b :: r => if a = b then mismatch l r + 1 else 0
  | _, _ => 0

/-- The bytes at which it stops decide, if it does not look at the last ones. -/
theorem mismatch_decides
    {l r : List Byte}
    (a b : Byte)
    (h : l.length = r.length) :
    ∃ x y, (l ++ [a])[mismatch l r]? = some x ∧ (r ++ [b])[mismatch l r]? = some y ∧
      (x < y ↔ load .big (l ++ [a]) < load .big (r ++ [b])) := by
  induction l, r using mismatch.induct with
  | case1 c l r ih =>
      obtain ⟨x, y, hx, hy, hxy⟩ := ih (Nat.succ.inj h)
      refine ⟨x, y, by simpa [mismatch] using hx, by simpa [mismatch] using hy, ?_⟩
      rw [hxy, List.cons_append, List.cons_append, load_big_cons_lt_iff (by simpa using h)]
      simp
  | case2 c l d r hne =>
      refine ⟨c, d, by simp [mismatch, hne], by simp [mismatch, hne], ?_⟩
      rw [List.cons_append, List.cons_append, load_big_cons_lt_iff (by simpa using h)]
      simp [hne]
  | case3 l r hnil =>
      cases l with
      | nil =>
          obtain rfl : r = [] := List.eq_nil_of_length_eq_zero h.symm
          exact ⟨a, b, rfl, rfl, by simp [load_big_cons_lt_iff]⟩
      | cons c l =>
          cases r with
          | nil => cases h
          | cons d r => exact absurd rfl (hnil c l d r rfl)

namespace Ipv6Address

/-- The big-endian integer value of the bytes. -/
def value (a : Ipv6Address) : Nat :=
  load .big a.address

/-- `std::equal` on the whole arrays. -/
def eq (a other : Ipv6Address) : Bool :=
  a.address == other.address

def ne (a other : Ipv6Address) : Bool :=
  !a.eq other

def lt (a other : Ipv6Address) : Option Bool :=
  -- from `begin()` to `end() - 1`
  let stop := mismatch a.address.dropLast other.address.dropLast
  do
    let left ← a.address[stop]?
    let right ← other.address[stop]?
    some (left < right)

def gt (a other : Ipv6Address) : Option Bool :=
  other.lt a

def le (a other : Ipv6Address) : Option Bool :=
  (a.gt other).map not

def ge (a other : Ipv6Address) : Option Bool :=
  (a.lt other).map not

def operators : Operators Ipv6Address where
  eq a b := some (a.eq b)
  ne a b := some (a.ne b)
  lt := lt
  gt := gt
  le := le
  ge := ge

theorem value_injective : Function.Injective value := by
  intro a b h
  have hlength : a.address.length = b.address.length := by
    rw [a.length_address, b.length_address]
  exact Ipv6Address.ext ((load_inj hlength).mp h)

theorem eq_iff (a b : Ipv6Address) :
    a.eq b = true ↔ a.value = b.value := by
  rw [value_injective.eq_iff, Ipv6Address.ext_iff, eq, beq_iff_eq]

theorem exists_last (a : Ipv6Address) :
    ∃ c, a.address = a.address.dropLast ++ [c] :=
  have hne : a.address ≠ [] := List.ne_nil_of_length_pos (by simp [a.length_address])
  ⟨_, (List.dropLast_concat_getLast hne).symm⟩

theorem lt_eq (a b : Ipv6Address) :
    a.lt b = some (decide (a.value < b.value)) := by
  obtain ⟨c, hc⟩ := a.exists_last
  obtain ⟨d, hd⟩ := b.exists_last
  have hlength : a.address.dropLast.length = b.address.dropLast.length := by
    rw [List.length_dropLast, List.length_dropLast, a.length_address, b.length_address]
  obtain ⟨x, y, hx, hy, hxy⟩ := mismatch_decides c d hlength
  rw [← hc] at hx hxy
  rw [← hd] at hy hxy
  simp only [lt, hx, hy]
  exact congrArg some (decide_eq_decide.mpr hxy)

theorem numeric : operators.Numeric value := by
  refine .of_derived (fun a b => ?_) lt_eq (fun _ _ => rfl) (fun _ _ => rfl)
    (fun _ _ => rfl) (fun _ _ => rfl)
  exact congrArg some (Bool.eq_iff_iff.mpr ((eq_iff a b).trans decide_eq_true_iff.symm))

end Ipv6Address

/--
The operators of both classes have a result for all addresses; they compare the values of the
bytes, and so order the addresses totally.
-/
theorem comparisons_numeric :
    (Ipv4Address.operators.Numeric Ipv4Address.value ∧ Ipv4Address.operators.StrictTotal) ∧
      Ipv6Address.operators.Numeric Ipv6Address.value ∧ Ipv6Address.operators.StrictTotal :=
  ⟨⟨Ipv4Address.numeric, Ipv4Address.numeric.strictTotal Ipv4Address.value_injective⟩,
    Ipv6Address.numeric, Ipv6Address.numeric.strictTotal Ipv6Address.value_injective⟩

end Asio
end Ptl

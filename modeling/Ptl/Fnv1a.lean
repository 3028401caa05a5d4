import Ptl.ByteOrder
import Ptl.IntegerTypes
import Mathlib.Data.List.Induction

/-!
# `fnv1a.hpp`

`fnv1a_32` and `fnv1a_64` convert each character with `uint32_t(str[0])` and
`uint64_t(str[0])`.  Where `char` is signed, this extends the sign of a character from `128` on
into the upper bytes of the word; FNV-1a takes the octet.

**Results.**
* `low_foldl`: in their lowest nine bits, the hash and FNV-1a differ by the parity of the
  number of characters from `128` on.
* `fnv1a_octets_iff`: a string and all strings that it starts with have the right hashes
  exactly if there is no such character; with an odd number of them the hash is wrong.
-/

namespace Ptl
namespace Fnv1a

open Bytes Integers IntType

section Hashes

variable {u : IntType} (prime : u.Value)

/-- One character, as the code takes it. -/
def step (value : u.Value) (c : Byte) : u.Value :=
  (value ^^^ char.convert u c) * prime

/-- The recursion of both functions; behind the end of the buffer there is no value. -/
def fnv1a : List Byte → u.Value → Option u.Value
  | [], _ => none
  | c :: str, value => if c = 0 then some value else fnv1a str (step prime value c)

/-- One octet of FNV-1a. -/
def octetStep (value : u.Value) (c : Byte) : u.Value :=
  (value ^^^ c.setWidth u.bits) * prime

/-- FNV-1a. -/
def reference (str : List Byte) (value : u.Value) : u.Value :=
  str.foldl (octetStep prime) value

end Hashes

/-- The default of `value`. -/
def val32Const : uint32.Value := 0x811c9dc5#32

def prime32Const : uint32.Value := 0x1000193#32

/-- The default of `value`. -/
def val64Const : uint64.Value := 0xcbf29ce484222325#64

def prime64Const : uint64.Value := 0x100000001b3#64

def fnv1a32 (str : List Byte) (value : uint32.Value) : Option uint32.Value :=
  fnv1a prime32Const str value

def fnv1a64 (str : List Byte) (value : uint64.Value) : Option uint64.Value :=
  fnv1a prime64Const str value

/-- A character whose sign bit is set. -/
def High (c : Byte) : Bool :=
  128 ≤ c.toNat

section Low

/-- Bit `8`, the lowest one that the sign is extended to. -/
def mark (b : Bool) : BitVec 9 :=
  if b then 256 else 0

theorem mark_xor (a b : Bool) : mark (a ^^ b) = mark a ^^^ mark b := by
  cases a <;> cases b <;> rfl

theorem xor_mark_true (x : BitVec 9) : x ^^^ mark true = x + 256 := by
  revert x
  decide +kernel

/-- The highest bit is kept by the multiplication with an odd number. -/
theorem xor_mark_mul
    {q : BitVec 9}
    (hq : 256 * q = 256)
    (b : Bool) (x : BitVec 9) :
    (x ^^^ mark b) * q = x * q ^^^ mark b := by
  cases b with
  | false =>
      simp [mark]
  | true =>
      rw [xor_mark_true, xor_mark_true, BitVec.add_mul, hq]

theorem signExtend_nine (c : Byte) :
    BitVec.ofInt 9 c.toInt = c.setWidth 9 ^^^ mark (High c) := by
  revert c
  decide +kernel

end Low

section Strings

variable {u : IntType} {prime : u.Value}

/-- What both functions compute of a string that a zero byte ends. -/
theorem fnv1a_terminated
    {str : List Byte}
    (hzero : 0 ∉ str)
    (rest : List Byte) (value : u.Value) :
    fnv1a prime (str ++ 0 :: rest) value = some (str.foldl (step prime) value) := by
  induction str generalizing value with
  | nil =>
      rfl
  | cons c str ih =>
      rw [List.mem_cons, not_or] at hzero
      rw [List.cons_append, fnv1a, if_neg (Ne.symm hzero.1), ih hzero.2, List.foldl_cons]

/-- The conversion of a character in the lowest nine bits. -/
theorem low_convert
    (hwide : 9 ≤ u.bits)
    (c : Byte) :
    (char.convert u c).setWidth 9 = (c.setWidth u.bits).setWidth 9 ^^^ mark (High c) := by
  have hval : char.convert u c = BitVec.ofInt u.bits c.toInt := rfl
  rw [hval, setWidth_ofInt hwide, signExtend_nine, BitVec.setWidth_setWidth_of_le c hwide]

/-- Without the sign bit, a character is its octet. -/
theorem convert_eq
    {c : Byte}
    (h : c.toNat < 128) :
    char.convert u c = c.setWidth u.bits := by
  have hval : char.convert u c = BitVec.ofInt u.bits (char.toInt c) := rfl
  have hnat : char.toInt c = c.toNat := toInt_of_lt h
  rw [hval, hnat, BitVec.ofInt_natCast, BitVec.ofNat_toNat]

theorem foldl_eq_reference
    {str : List Byte}
    (h : ∀ c ∈ str, c.toNat < 128)
    (value : u.Value) :
    str.foldl (step prime) value = reference prime str value := by
  induction str generalizing value with
  | nil =>
      rfl
  | cons c str ih =>
      rw [List.forall_mem_cons] at h
      rw [reference, List.foldl_cons, List.foldl_cons, step, convert_eq h.1]
      exact ih h.2 _

/-- In the lowest nine bits, every character from `128` on flips the highest one. -/
theorem low_foldl
    (hwide : 9 ≤ u.bits)
    (hprime : 256 * prime.setWidth 9 = 256)
    (str : List Byte) (value : u.Value) :
    (str.foldl (step prime) value).setWidth 9 =
      (reference prime str value).setWidth 9 ^^^ mark (str.countP High % 2 == 1) := by
  induction str using List.reverseRecOn with
  | nil =>
      simp [reference, mark]
  | append_singleton str c ih =>
      have hparity : ((str ++ [c]).countP High % 2 == 1) =
          ((str.countP High % 2 == 1) ^^ High c) := by
        rw [List.countP_append, List.countP_singleton]
        cases High c <;> grind
      rw [hparity, mark_xor, reference, List.foldl_append, List.foldl_append]
      simp only [List.foldl_cons, List.foldl_nil, step, octetStep]
      rw [BitVec.setWidth_mul _ _ hwide, BitVec.setWidth_mul _ _ hwide, BitVec.setWidth_xor,
        BitVec.setWidth_xor, low_convert hwide, ih, ← mark_xor, ← xor_mark_mul hprime, mark_xor]
      congr 1
      ac_rfl

theorem foldl_ne_reference
    (hwide : 9 ≤ u.bits)
    (hprime : 256 * prime.setWidth 9 = 256)
    {str : List Byte}
    (hodd : str.countP High % 2 = 1)
    (value : u.Value) :
    str.foldl (step prime) value ≠ reference prime str value := by
  intro heq
  have hlow := low_foldl hwide hprime str value
  rw [heq, hodd] at hlow
  generalize (reference prime str value).setWidth 9 = x at hlow
  have hmark : mark true = 0 := by
    calc mark true
        = x ^^^ (x ^^^ mark true) := by rw [← BitVec.xor_assoc, BitVec.xor_self, BitVec.zero_xor]
      _ = x ^^^ x := congrArg (x ^^^ ·) hlow.symm
      _ = 0 := BitVec.xor_self
  exact absurd hmark (by decide)

/-- All strings that a string starts with have the right hashes. -/
theorem prefixes_iff
    (hwide : 9 ≤ u.bits)
    (hprime : 256 * prime.setWidth 9 = 256)
    (str : List Byte) (value : u.Value) :
    (∀ p, p <+: str → p.foldl (step prime) value = reference prime p value) ↔
      ∀ c ∈ str, c.toNat < 128 := by
  constructor
  · intro h
    induction str using List.reverseRecOn with
    | nil =>
        simp
    | append_singleton str c ih =>
        have hpast := ih fun p hp => h p (hp.trans (List.prefix_append ..))
        refine List.forall_mem_append.mpr ⟨hpast, ?_⟩
        rw [List.forall_mem_singleton]
        by_contra hhigh
        refine foldl_ne_reference hwide hprime ?_ value (h _ List.prefix_rfl)
        have hnone : str.countP High = 0 := by
          rw [List.countP_eq_zero]
          intro d hd
          simpa [High] using hpast d hd
        have hone : High c = true := by simpa [High] using hhigh
        rw [List.countP_append, hnone, List.countP_singleton, if_pos hone]
  · intro h p hp
    exact foldl_eq_reference (fun c hc => h c (hp.subset hc)) value

end Strings

/-- The function computes FNV-1a of the string, whatever follows its zero byte. -/
def Computes
    {u : IntType} (hash : List Byte → u.Value → Option u.Value) (prime : u.Value)
    (str : List Byte) (value : u.Value) : Prop :=
  ∀ rest, hash (str ++ 0 :: rest) value = some (reference prime str value)

theorem computes_iff
    {u : IntType} {prime : u.Value} {str : List Byte}
    (hzero : 0 ∉ str)
    (value : u.Value) :
    Computes (fnv1a prime) prime str value ↔
      str.foldl (step prime) value = reference prime str value := by
  simp only [Computes, fnv1a_terminated hzero, Option.some.injEq, forall_const]

theorem low_prime32 : 256 * BitVec.setWidth 9 prime32Const = 256 := by
  decide

theorem low_prime64 : 256 * BitVec.setWidth 9 prime64Const = 256 := by
  decide

/--
For every string and start value, the functions compute FNV-1a of the string and of all strings
that it starts with exactly if all its characters are below `128`.  They compute something else
if an odd number of them is not.
-/
theorem fnv1a_octets_iff
    {str : List Byte}
    (hzero : 0 ∉ str)
    (value32 : uint32.Value) (value64 : uint64.Value) :
    ((∀ p, p <+: str → Computes fnv1a32 prime32Const p value32) ↔ ∀ c ∈ str, c.toNat < 128) ∧
      ((∀ p, p <+: str → Computes fnv1a64 prime64Const p value64) ↔ ∀ c ∈ str, c.toNat < 128) ∧
      (str.countP High % 2 = 1 →
        ¬Computes fnv1a32 prime32Const str value32 ∧
          ¬Computes fnv1a64 prime64Const str value64) := by
  have hsub : ∀ p, p <+: str → 0 ∉ p := fun p hp h => hzero (hp.subset h)
  refine ⟨?_, ?_, fun hodd => ⟨fun h => ?_, fun h => ?_⟩⟩
  · rw [← prefixes_iff (by decide) low_prime32 str value32]
    exact forall₂_congr fun p hp => computes_iff (hsub p hp) value32
  · rw [← prefixes_iff (by decide) low_prime64 str value64]
    exact forall₂_congr fun p hp => computes_iff (hsub p hp) value64
  · have heq := (computes_iff hzero value32).mp h
    exact foldl_ne_reference (by decide) low_prime32 hodd value32 heq
  · have heq := (computes_iff hzero value64).mp h
    exact foldl_ne_reference (by decide) low_prime64 hodd value64 heq

/-- The string `"ptl"`. -/
theorem fnv1a_octets_ptl :
    Computes fnv1a32 prime32Const [0x70, 0x74, 0x6c] val32Const ∧
      Computes fnv1a64 prime64Const [0x70, 0x74, 0x6c] val64Const := by
  have hzero : 0 ∉ ([0x70, 0x74, 0x6c] : List Byte) := by decide
  have h := fnv1a_octets_iff hzero val32Const val64Const
  exact ⟨h.1.mpr (by decide) _ List.prefix_rfl, h.2.1.mpr (by decide) _ List.prefix_rfl⟩

/-- The one character `0x80`. -/
theorem not_fnv1a_octets :
    (fnv1a32 [0x80, 0] val32Const ≠ some (reference prime32Const [0x80] val32Const) ∧
      fnv1a64 [0x80, 0] val64Const ≠ some (reference prime64Const [0x80] val64Const)) ∧
      ¬Computes fnv1a32 prime32Const [0x80] val32Const := by
  have h32 : fnv1a32 [0x80, 0] val32Const ≠ some (reference prime32Const [0x80] val32Const) := by decide
  refine ⟨⟨h32, by decide⟩, fun h => ?_⟩
  exact h32 (h [])

end Fnv1a
end Ptl

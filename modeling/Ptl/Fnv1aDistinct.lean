import Ptl.Fnv1a

/-!
# What the hashes tell apart

The multiplication with the prime can be undone, because the prime is odd, and so can the
exclusive or with a character.  So no step of the hash loses anything of the value before.

**Results.**
* `foldl_step_inj`: a string maps different start values to different hashes.
* `fnv1a_distinguishes`: replacing a part of a string changes the hash exactly if it
  changes the hash of the string up to the end of the part; this holds if the part is one
  character.
-/

namespace Ptl
namespace Fnv1a

open Bytes Integers IntType

section Steps

variable {u : IntType} {prime inverse : u.Value}

theorem mul_prime_inj
    (hinverse : prime * inverse = 1#u.bits)
    {x y : u.Value} :
    x * prime = y * prime ↔ x = y := by
  constructor
  · intro h
    calc
      x = x * prime * inverse := by rw [BitVec.mul_assoc, hinverse, BitVec.mul_one]
      _ = y * prime * inverse := by rw [h]
      _ = y := by rw [BitVec.mul_assoc, hinverse, BitVec.mul_one]
  · exact congrArg (· * prime)

theorem xor_left_inj
    {x y z : u.Value} :
    z ^^^ x = z ^^^ y ↔ x = y := by
  constructor
  · intro h
    calc
      x = z ^^^ (z ^^^ x) := by rw [← BitVec.xor_assoc, BitVec.xor_self, BitVec.zero_xor]
      _ = z ^^^ (z ^^^ y) := by rw [h]
      _ = y := by rw [← BitVec.xor_assoc, BitVec.xor_self, BitVec.zero_xor]
  · exact congrArg (z ^^^ ·)

/-- The sign is extended, and the character is still there. -/
theorem convert_inj
    (hwide : 8 ≤ u.bits)
    {c d : Byte} :
    char.convert u c = char.convert u d ↔ c = d := by
  constructor
  · intro h
    have hlow : ∀ x : Byte, (char.convert u x).setWidth 8 = x := by
      intro x
      have hval : char.convert u x = BitVec.ofInt u.bits x.toInt := rfl
      rw [hval, setWidth_ofInt hwide]
      exact BitVec.ofInt_toInt
    rw [← hlow c, h, hlow d]
  · exact congrArg _

theorem step_char_inj
    (hinverse : prime * inverse = 1#u.bits)
    (hwide : 8 ≤ u.bits)
    {value : u.Value} {c d : Byte} :
    step prime value c = step prime value d ↔ c = d := by
  rw [step, step, mul_prime_inj hinverse, xor_left_inj, convert_inj hwide]

theorem step_value_inj
    (hinverse : prime * inverse = 1#u.bits)
    {x y : u.Value} {c : Byte} :
    step prime x c = step prime y c ↔ x = y := by
  rw [step, step, mul_prime_inj hinverse, BitVec.xor_comm x, BitVec.xor_comm y, xor_left_inj]

/-- A string maps different start values to different hashes. -/
theorem foldl_step_inj
    (hinverse : prime * inverse = 1#u.bits)
    (str : List Byte) {x y : u.Value} :
    str.foldl (step prime) x = str.foldl (step prime) y ↔ x = y := by
  induction str generalizing x y with
  | nil =>
      rfl
  | cons c str ih =>
      rw [List.foldl_cons, List.foldl_cons, ih, step_value_inj hinverse]

end Steps

/-- A string in memory, with a zero byte at its end. -/
def terminated (str rest : List Byte) : List Byte :=
  str ++ 0 :: rest

/-- What two strings between the same strings have to do with their hashes. -/
structure Distinguishes {u : IntType} (hash : List Byte → u.Value → Option u.Value) : Prop where
  /-- What follows a part of a string does not hide a difference of the hashes. -/
  part : ∀ (p x y q rest rest' : List Byte) (value : u.Value),
    0 ∉ p ++ x ++ q → 0 ∉ p ++ y ++ q →
      (hash (terminated (p ++ x ++ q) rest) value = hash (terminated (p ++ y ++ q) rest') value ↔
        hash (terminated (p ++ x) rest) value = hash (terminated (p ++ y) rest') value)
  /-- One character that is replaced by another one changes the hash. -/
  character : ∀ (p q rest rest' : List Byte) (c d : Byte) (value : u.Value),
    0 ∉ p ++ [c] ++ q → 0 ∉ p ++ [d] ++ q →
      (hash (terminated (p ++ [c] ++ q) rest) value =
          hash (terminated (p ++ [d] ++ q) rest') value ↔
        c = d)

section Strings

variable {u : IntType} {prime inverse : u.Value}

theorem fnv1a_part_iff
    (hinverse : prime * inverse = 1#u.bits)
    {p x y q : List Byte}
    (hx : 0 ∉ p ++ x ++ q)
    (hy : 0 ∉ p ++ y ++ q)
    (rest rest' : List Byte) (value : u.Value) :
    fnv1a prime (terminated (p ++ x ++ q) rest) value =
        fnv1a prime (terminated (p ++ y ++ q) rest') value ↔
      fnv1a prime (terminated (p ++ x) rest) value =
        fnv1a prime (terminated (p ++ y) rest') value := by
  have hx' : 0 ∉ p ++ x := fun h => hx (List.mem_append_left q h)
  have hy' : 0 ∉ p ++ y := fun h => hy (List.mem_append_left q h)
  have hfold : ∀ z, (p ++ z ++ q).foldl (step prime) value =
      q.foldl (step prime) ((p ++ z).foldl (step prime) value) :=
    fun z => List.foldl_append
  simp only [terminated]
  rw [fnv1a_terminated hx, fnv1a_terminated hy, fnv1a_terminated hx', fnv1a_terminated hy',
    Option.some_inj, Option.some_inj, hfold, hfold, foldl_step_inj hinverse]

theorem distinguishes_fnv1a
    (hinverse : prime * inverse = 1#u.bits)
    (hwide : 8 ≤ u.bits) :
    Distinguishes (fnv1a prime) := by
  constructor
  · intro p x y q rest rest' value hx hy
    exact fnv1a_part_iff hinverse hx hy rest rest' value
  · intro p q rest rest' c d value hc hd
    have hc' : 0 ∉ p ++ [c] := fun h => hc (List.mem_append_left q h)
    have hd' : 0 ∉ p ++ [d] := fun h => hd (List.mem_append_left q h)
    rw [fnv1a_part_iff hinverse hc hd, terminated, terminated, fnv1a_terminated hc',
      fnv1a_terminated hd', Option.some_inj, List.foldl_append, List.foldl_append]
    exact step_char_inj hinverse hwide

end Strings

/-- The inverse of the prime among the words of 32 bits. -/
def inverse32 : uint32.Value := 0x359c449b#32

/-- The inverse of the prime among the words of 64 bits. -/
def inverse64 : uint64.Value := 0xce965057aff6957b#64

/--
Both hashes tell any two strings apart that differ in one character, and a difference of
the hashes is never lost by what follows.
-/
theorem fnv1a_distinguishes :
    Distinguishes fnv1a32 ∧ Distinguishes fnv1a64 := by
  constructor
  · have hinverse : prime32Const * inverse32 = 1#32 := rfl
    exact distinguishes_fnv1a hinverse (by decide)
  · have hinverse : prime64Const * inverse64 = 1#64 := rfl
    exact distinguishes_fnv1a hinverse (by decide)

end Fnv1a
end Ptl

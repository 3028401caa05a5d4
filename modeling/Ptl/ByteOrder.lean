import Mathlib.Algebra.Order.Ring.Nat

/-!
# Bytes in memory, byte order and C strings

A number of `n` bytes is stored with its least significant byte first or last,
depending on the host.  `hton` and `ntoh` convert between the order of the host
and the network order, which is big-endian on every host.

**Results.**
* `load_store`, `store_load`: storing and loading are inverse to each other.
* `store_hton`, `ntoh_load`: with the conversion, memory holds the network order.
* `load_big_cons_lt_iff`, `load_inj`: big-endian numbers of one length are compared byte by byte.
* `bytesOf_eq_store`, `toNat_wordOf`, `wordOf_bytesOf`: words taken apart and put together
  by shifts.
* `read_write`, `read_write_of_disjoint`: reading from memory behind a write.
* `cString_eq_take_iff`: a part of a buffer without zero bytes is what a C string
  reads there exactly if a zero byte follows.
-/

namespace Ptl
namespace Bytes

abbrev Byte := BitVec 8

section Numbers

/-- The number with the given bytes, least significant byte first. -/
def combine : List Byte → Nat
  | [] => 0
  | b :: bs => b.toNat + 256 * combine bs

/-- The last `n` bytes of a number, least significant byte first. -/
def split : Nat → Nat → List Byte
  | 0, _ => []
  | n + 1, x => BitVec.ofNat 8 x :: split n (x / 256)

@[simp] theorem length_split (n x : Nat) :
    (split n x).length = n := by
  induction n generalizing x with
  | zero =>
      rfl
  | succ n ih =>
      simp [split, ih]

theorem combine_lt (bs : List Byte) :
    combine bs < 256 ^ bs.length := by
  induction bs with
  | nil =>
      exact Nat.one_pos
  | cons b bs ih =>
      have hb : b.toNat < 256 := b.isLt
      rw [combine, List.length_cons, Nat.pow_succ]
      omega

theorem combine_split
    {n x : Nat}
    (h : x < 256 ^ n) :
    combine (split n x) = x := by
  induction n generalizing x with
  | zero =>
      obtain rfl : x = 0 := Nat.lt_one_iff.mp h
      rfl
  | succ n ih =>
      have hdiv : x / 256 < 256 ^ n := by
        rw [Nat.pow_succ] at h
        exact Nat.div_lt_of_lt_mul (by omega)
      have hbyte : (BitVec.ofNat 8 x).toNat = x % 256 := BitVec.toNat_ofNat ..
      rw [split, combine, ih hdiv, hbyte]
      omega

theorem split_combine (bs : List Byte) :
    split bs.length (combine bs) = bs := by
  induction bs with
  | nil =>
      rfl
  | cons b bs ih =>
      have hb : b.toNat < 256 := b.isLt
      have hhead : BitVec.ofNat 8 (b.toNat + 256 * combine bs) = b := by
        apply BitVec.eq_of_toNat_eq
        rw [BitVec.toNat_ofNat]
        omega
      have htail : (b.toNat + 256 * combine bs) / 256 = combine bs := by omega
      rw [List.length_cons, split, combine, hhead, htail, ih]

theorem combine_append_singleton (bs : List Byte) (b : Byte) :
    combine (bs ++ [b]) = combine bs + 256 ^ bs.length * b.toNat := by
  induction bs with
  | nil =>
      simp [combine]
  | cons a bs ih =>
      simp only [List.cons_append, combine, ih, List.length_cons, Nat.pow_succ]
      rw [Nat.mul_add, ← Nat.mul_assoc, Nat.mul_comm 256 (256 ^ bs.length), Nat.add_assoc]

theorem split_succ_last (n x : Nat) :
    split (n + 1) x = split n x ++ [BitVec.ofNat 8 (x / 256 ^ n)] := by
  induction n generalizing x with
  | zero =>
      simp [split]
  | succ n ih =>
      rw [split, ih (x / 256), split, List.cons_append, Nat.div_div_eq_div_mul,
        Nat.pow_succ, Nat.mul_comm 256]

end Numbers

/-- Which byte of a number has the lowest address. -/
inductive Endian where
  | little
  | big
deriving DecidableEq

section Order

variable (e : Endian)

/-- The bytes from the lowest address on, and from the least significant one on. -/
def Endian.arrange (bs : List Byte) : List Byte :=
  match e with
  | .little => bs
  | .big => bs.reverse

@[simp] theorem Endian.length_arrange (bs : List Byte) :
    (e.arrange bs).length = bs.length := by
  cases e <;> simp [arrange]

@[simp] theorem Endian.arrange_arrange (bs : List Byte) :
    e.arrange (e.arrange bs) = bs := by
  cases e <;> simp [arrange]

/-- The number that the bytes of memory are read as. -/
def load (bs : List Byte) : Nat :=
  combine (e.arrange bs)

/-- The bytes of memory that hold a number. -/
def store (n x : Nat) : List Byte :=
  e.arrange (split n x)

@[simp] theorem length_store (n x : Nat) :
    (store e n x).length = n := by
  rw [store, Endian.length_arrange, length_split]

theorem load_lt (bs : List Byte) :
    load e bs < 256 ^ bs.length := by
  have h := combine_lt (e.arrange bs)
  rwa [Endian.length_arrange] at h

theorem load_store
    {n x : Nat}
    (h : x < 256 ^ n) :
    load e (store e n x) = x := by
  rw [load, store, Endian.arrange_arrange, combine_split h]

theorem store_load (bs : List Byte) :
    store e bs.length (load e bs) = bs := by
  have h := split_combine (e.arrange bs)
  rw [Endian.length_arrange] at h
  rw [store, load, h, Endian.arrange_arrange]

/-- From the order of the host to the network order. -/
def hton (n x : Nat) : Nat :=
  load e (store .big n x)

/-- From the network order to the order of the host. -/
def ntoh (n x : Nat) : Nat :=
  load .big (store e n x)

theorem hton_lt (n x : Nat) :
    hton e n x < 256 ^ n := by
  have h := load_lt e (store .big n x)
  rwa [length_store] at h

theorem store_hton (n x : Nat) :
    store e n (hton e n x) = store .big n x := by
  have h := store_load e (store .big n x)
  rwa [length_store] at h

theorem ntoh_load (bs : List Byte) :
    ntoh e bs.length (load e bs) = load .big bs := by
  rw [ntoh, store_load]

theorem load_little_reverse (bs : List Byte) :
    load .little bs = load .big bs.reverse := by
  simp [load, Endian.arrange]

end Order

section Words

variable {w : Nat}

theorem load_big_cons (b : Byte) (bs : List Byte) :
    load .big (b :: bs) = b.toNat * 256 ^ bs.length + load .big bs := by
  rw [load, load, Endian.arrange, Endian.arrange, List.reverse_cons, combine_append_singleton,
    List.length_reverse, Nat.mul_comm, Nat.add_comm]

theorem store_big_succ (n x : Nat) :
    store .big (n + 1) x = BitVec.ofNat 8 (x / 256 ^ n) :: store .big n x := by
  rw [store, store, Endian.arrange, Endian.arrange, split_succ_last, List.reverse_append]
  rfl

/-- Big-endian numbers of one length are compared from the first byte on. -/
theorem load_big_cons_lt_iff
    {a b : Byte} {l r : List Byte}
    (h : l.length = r.length) :
    load .big (a :: l) < load .big (b :: r) ↔
      a < b ∨ a = b ∧ load .big l < load .big r := by
  have hl := load_lt .big l
  have hr := load_lt .big r
  rw [load_big_cons, load_big_cons, h, BitVec.lt_def, ← BitVec.toNat_inj]
  rw [h] at hl
  rcases Nat.lt_trichotomy a.toNat b.toNat with hlt | heq | hgt
  · have hstep := Nat.mul_le_mul_right (256 ^ r.length) hlt
    rw [Nat.succ_mul] at hstep
    omega
  · rw [heq]
    omega
  · have hstep := Nat.mul_le_mul_right (256 ^ r.length) hgt
    rw [Nat.succ_mul] at hstep
    omega

theorem load_inj
    {e : Endian} {l r : List Byte}
    (h : l.length = r.length) :
    load e l = load e r ↔ l = r := by
  constructor
  · intro heq
    rw [← store_load e l, heq, h, store_load]
  · exact congrArg _

/-- The last `n` bytes of a word, most significant byte first, each by a shift. -/
def bytesOf (x : BitVec w) : Nat → List Byte
  | 0 => []
  | n + 1 => (x >>> (8 * n)).setWidth 8 :: bytesOf x n

/-- The word with the given bytes, most significant byte first, by shifts. -/
def wordOf (w : Nat) : List Byte → BitVec w
  | [] => 0
  | b :: bs => b.setWidth w <<< (8 * bs.length) ||| wordOf w bs

theorem bytesOf_eq_store (x : BitVec w) (n : Nat) :
    bytesOf x n = store .big n x.toNat := by
  induction n with
  | zero =>
      rfl
  | succ n ih =>
      rw [bytesOf, store_big_succ, ih]
      congr 1
      apply BitVec.eq_of_toNat_eq
      rw [BitVec.toNat_setWidth, BitVec.toNat_ushiftRight, BitVec.toNat_ofNat,
        Nat.shiftRight_eq_div_pow, Nat.pow_mul]

@[simp] theorem length_bytesOf (x : BitVec w) (n : Nat) :
    (bytesOf x n).length = n := by
  rw [bytesOf_eq_store, length_store]

theorem toNat_wordOf
    {bs : List Byte}
    (h : 8 * bs.length ≤ w) :
    (wordOf w bs).toNat = load .big bs := by
  induction bs with
  | nil =>
      rfl
  | cons b bs ih =>
      rw [List.length_cons] at h
      have hb : b.toNat < 2 ^ 8 := b.isLt
      have hrest : load .big bs < 2 ^ (8 * bs.length) := by
        rw [Nat.pow_mul]
        exact load_lt .big bs
      have hshift : b.toNat <<< (8 * bs.length) < 2 ^ w := by
        calc b.toNat <<< (8 * bs.length)
            ≤ load .big (b :: bs) := by
              rw [load_big_cons, Nat.shiftLeft_eq, Nat.pow_mul]
              exact Nat.le_add_right ..
          _ < 2 ^ (8 * (bs.length + 1)) := by
              rw [Nat.pow_mul]
              exact load_lt .big (b :: bs)
          _ ≤ 2 ^ w := Nat.pow_le_pow_right Nat.two_pos h
      have hwide : (b.setWidth w).toNat = b.toNat := by
        rw [BitVec.toNat_setWidth]
        exact Nat.mod_eq_of_lt (lt_of_lt_of_le hb (Nat.pow_le_pow_right Nat.two_pos (by omega)))
      rw [wordOf, load_big_cons, BitVec.toNat_or, BitVec.toNat_shiftLeft, hwide,
        Nat.mod_eq_of_lt hshift, ih (by omega), ← Nat.shiftLeft_add_eq_or_of_lt hrest,
        Nat.shiftLeft_eq, Nat.pow_mul]

/-- A part of a part of a word is a part of the word. -/
theorem setWidth_ushiftRight_setWidth
    {n m i : Nat}
    (x : BitVec w) (k : Nat)
    (h : i + m ≤ n) :
    (((x >>> k).setWidth n) >>> i).setWidth m = (x >>> (k + i)).setWidth m := by
  apply BitVec.eq_of_getLsbD_eq
  intro j hj
  have hin : i + j < n := by omega
  simp [hj, hin, Nat.add_assoc]

theorem wordOf_bytesOf
    {n : Nat}
    (x : BitVec w)
    (h : w = 8 * n) :
    wordOf w (bytesOf x n) = x := by
  apply BitVec.eq_of_toNat_eq
  have hlen : (store .big n x.toNat).length = n := length_store ..
  rw [bytesOf_eq_store, toNat_wordOf (by rw [hlen, h]), load_store]
  calc x.toNat
      < 2 ^ w := x.isLt
    _ = 256 ^ n := by rw [h, Nat.pow_mul]

end Words

/-- The bytes from some address on. -/
abbrev Memory := Nat → Byte

namespace Memory

variable {m : Memory} {offset : Nat} {bs : List Byte}

/-- Copy the bytes to an offset. -/
def write (m : Memory) (offset : Nat) (bs : List Byte) : Memory :=
  fun k => if offset ≤ k then (bs[k - offset]?).getD (m k) else m k

/-- The bytes at an offset. -/
def read (m : Memory) (offset n : Nat) : List Byte :=
  (List.range n).map fun k => m (offset + k)

@[simp] theorem length_read (m : Memory) (offset n : Nat) :
    (m.read offset n).length = n := by
  simp [read]

theorem read_congr
    {m' : Memory} {n : Nat}
    (h : ∀ k < n, m (offset + k) = m' (offset + k)) :
    m.read offset n = m'.read offset n :=
  List.map_congr_left fun k hk => h k (List.mem_range.mp hk)

theorem read_write
    {n : Nat}
    (h : bs.length = n) :
    (m.write offset bs).read offset n = bs := by
  refine List.ext_getElem ((length_read ..).trans h.symm) fun k hk hk' => ?_
  simp [read, write, hk']

theorem read_write_of_disjoint
    {offset' n : Nat}
    (h : offset + bs.length ≤ offset' ∨ offset' + n ≤ offset) :
    (m.write offset bs).read offset' n = m.read offset' n := by
  refine read_congr fun k hk => ?_
  rw [write]
  split
  · rw [List.getElem?_eq_none (by omega)]
    rfl
  · rfl

end Memory

section CStrings

/-- The bytes before the first zero byte; `none` if the buffer ends before it. -/
def cString : List Byte → Option (List Byte)
  | [] => none
  | b :: bs => if b = 0 then some [] else (cString bs).map (b :: ·)

/-- The number of bytes that are looked at for it, the one behind the buffer included. -/
def cStringReads : List Byte → Nat
  | [] => 1
  | b :: bs => if b = 0 then 1 else cStringReads bs + 1

theorem cString_eq_take_iff
    {bs : List Byte} {n : Nat}
    (hn : n ≤ bs.length)
    (hzero : 0 ∉ bs.take n) :
    cString bs = some (bs.take n) ↔ bs[n]? = some 0 := by
  induction n generalizing bs with
  | zero =>
      cases bs with
      | nil =>
          simp [cString]
      | cons b bs =>
          rw [cString]
          split
          · next hb =>
              simp [hb]
          · next hb =>
              refine iff_of_false (by simp) ?_
              simpa using hb
  | succ n ih =>
      cases bs with
      | nil =>
          simp at hn
      | cons b bs =>
          have hb : b ≠ 0 := by
            rintro rfl
            simp at hzero
          have htail : 0 ∉ bs.take n := fun h => hzero (List.mem_cons_of_mem b h)
          have hrest := ih (Nat.le_of_succ_le_succ hn) htail
          rw [cString, if_neg hb, List.getElem?_cons_succ, ← hrest, List.take_succ_cons]
          cases cString bs <;> simp

/-- A C string is read up to the zero byte. -/
theorem cStringReads_of_getElem?
    {bs : List Byte} {n : Nat}
    (hzero : 0 ∉ bs.take n)
    (hend : bs[n]? = some 0) :
    cStringReads bs = n + 1 := by
  induction n generalizing bs with
  | zero =>
      cases bs with
      | nil =>
          simp at hend
      | cons b bs =>
          obtain rfl : b = 0 := by simpa using hend
          rfl
  | succ n ih =>
      cases bs with
      | nil =>
          simp at hend
      | cons b bs =>
          have hb : b ≠ 0 := by
            rintro rfl
            simp at hzero
          have htail : 0 ∉ bs.take n := fun h => hzero (List.mem_cons_of_mem b h)
          rw [cStringReads, if_neg hb, ih htail (by simpa using hend)]

end CStrings

end Bytes
end Ptl

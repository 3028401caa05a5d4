import Mathlib.Algebra.Group.Nat.Defs
import Mathlib.Algebra.Order.Ring.Nat

/-!
# Fields of a word

Several values share one word.  A field is written by replacing the bits of a mask
and read by a function that looks at some of the bits.

**Fields.**  `Fields` is a family of readable and writable fields of any state: a
write is read back from its own field and leaves the other fields alone.
`Fields.get_run` is the rule for sequences of writes: a field shows its last write.

**Masks.**  `Reads.store_own` and `Reads.store_other` give the two laws for a word
from the relation between the mask that is written and the mask that is read.
-/

namespace Ptl
namespace Words

universe u v w x

section Fields

/--
Fields `κ` of a state.  Writing the argument `x : A k` makes the field read `shows k x`,
provided that the argument is one that the field can hold.
-/
structure Fields
    (σ : Type u) (κ : Type v) (A : κ → Type w) (R : κ → Type x) where
  get : ∀ k, σ → R k
  set : ∀ k, A k → σ → σ
  shows : ∀ k, A k → R k
  fits : ∀ k, A k → Prop
  get_set : ∀ k a s, fits k a → get k (set k a s) = shows k a
  get_set_of_ne : ∀ j k a s, j ≠ k → get j (set k a s) = get j s

/-- A field and the argument that is written to it. -/
abbrev Write {κ : Type v} (A : κ → Type w) :=
  (k : κ) × A k

variable {σ : Type u} {κ : Type v} {A : κ → Type w} {R : κ → Type x}

/-- The argument of the last write to the field `k`. -/
def last [DecidableEq κ] (k : κ) : List (Write A) → Option (A k)
  | [] => none
  | c :: cs =>
      match last k cs with
      | some a => some a
      | none => if h : c.1 = k then some (h ▸ c.2) else none

theorem last_eq_none
    [DecidableEq κ]
    {k : κ} {cs : List (Write A)}
    (h : ∀ c ∈ cs, c.1 ≠ k) :
    last k cs = none := by
  induction cs with
  | nil =>
      rfl
  | cons c cs ih =>
      have hrest : last k cs = none := ih fun d hd => h d (List.mem_cons_of_mem c hd)
      have hfirst : c.1 ≠ k := h c List.mem_cons_self
      simp [last, hrest, hfirst]

namespace Fields

variable (F : Fields σ κ A R)

/-- The state after a sequence of writes. -/
def run (cs : List (Write A)) (s : σ) : σ :=
  cs.foldl (fun s c => F.set c.1 c.2 s) s

/-- Only the writes to a field matter to it, and of these only the last one. -/
theorem get_run
    [DecidableEq κ]
    {cs : List (Write A)}
    (k : κ) (s : σ)
    (hfits : ∀ c ∈ cs, c.1 = k → F.fits c.1 c.2) :
    F.get k (F.run cs s) = (last k cs).elim (F.get k s) (F.shows k) := by
  induction cs generalizing s with
  | nil =>
      rfl
  | cons c cs ih =>
      have hrest := ih (F.set c.1 c.2 s) fun d hd => hfits d (List.mem_cons_of_mem c hd)
      have hstep : F.run (c :: cs) s = F.run cs (F.set c.1 c.2 s) := rfl
      rw [hstep, hrest, last]
      cases hlast : last k cs with
      | some a =>
          rfl
      | none =>
          obtain ⟨j, a⟩ := c
          rcases eq_or_ne j k with rfl | hne
          · simpa using F.get_set j a s (hfits ⟨j, a⟩ List.mem_cons_self rfl)
          · simpa [hne] using F.get_set_of_ne k j a s hne.symm

/-- A field that is not written keeps its value. -/
theorem get_run_of_ne
    [DecidableEq κ]
    {cs : List (Write A)} {k : κ}
    (h : ∀ c ∈ cs, c.1 ≠ k)
    (s : σ) :
    F.get k (F.run cs s) = F.get k s := by
  rw [F.get_run k s fun c hc hk => absurd hk (h c hc), last_eq_none h]
  rfl

end Fields

end Fields

section Masks

variable {n : Nat} {α : Type u}

/-- The word `data` with the bits of `mask` replaced by those of `value`. -/
def store (mask value data : BitVec n) : BitVec n :=
  (value &&& mask) ||| (data &&& ~~~mask)

/-- The function `f` looks at no bit outside `mask`. -/
def Reads (f : BitVec n → α) (mask : BitVec n) : Prop :=
  ∀ data, f (data &&& mask) = f data

variable {f : BitVec n → α} {mask written : BitVec n}

/-- A number below `2 ^ k` has no bit from `k` on. -/
theorem getLsbD_eq_false
    {x : BitVec n} {k i : Nat}
    (h : x.toNat < 2 ^ k)
    (hi : k ≤ i) :
    x.getLsbD i = false :=
  Nat.testBit_lt_two_pow (Nat.lt_of_lt_of_le h (Nat.pow_le_pow_right Nat.two_pos hi))

/-- A multiple of `2 ^ k` has no bit below `k`. -/
theorem getLsbD_eq_false_of_dvd
    {x : BitVec n} {k i : Nat}
    (h : 2 ^ k ∣ x.toNat)
    (hi : i < k) :
    x.getLsbD i = false := by
  obtain ⟨q, hq⟩ := h
  rw [BitVec.getLsbD, hq, Nat.testBit_two_pow_mul, decide_eq_false (Nat.not_le.mpr hi),
    Bool.false_and]

theorem store_and (value data : BitVec n) (h : mask &&& written = mask) :
    store written value data &&& mask = value &&& mask := by
  apply BitVec.eq_of_getLsbD_eq
  intro i hi
  have hbit := congrArg (fun m => m.getLsbD i) h
  simp only [store, BitVec.getLsbD_and, BitVec.getLsbD_or, BitVec.getLsbD_not, hi] at hbit ⊢
  cases hm : mask.getLsbD i <;> simp_all

theorem store_and_of_disjoint (value data : BitVec n) (h : mask &&& written = 0) :
    store written value data &&& mask = data &&& mask := by
  apply BitVec.eq_of_getLsbD_eq
  intro i hi
  have hbit := congrArg (fun m => m.getLsbD i) h
  simp only [store, BitVec.getLsbD_and, BitVec.getLsbD_or, BitVec.getLsbD_not, hi] at hbit ⊢
  cases hm : mask.getLsbD i <;> simp_all

/-- What is read was written. -/
theorem Reads.store_own
    (h : Reads f mask)
    (hsub : mask &&& written = mask)
    (value data : BitVec n) :
    f (store written value data) = f value := by
  rw [← h, store_and value data hsub, h]

/-- What is read was not written. -/
theorem Reads.store_other
    (h : Reads f mask)
    (hdisjoint : mask &&& written = 0)
    (value data : BitVec n) :
    f (store written value data) = f data := by
  rw [← h, store_and_of_disjoint value data hdisjoint, h]

theorem and_not_of_disjoint
    {x y : BitVec n}
    (h : x &&& y = 0) :
    x &&& ~~~y = x := by
  apply BitVec.eq_of_getLsbD_eq
  intro i hi
  have hbit := congrArg (fun m => m.getLsbD i) h
  simp only [BitVec.getLsbD_and, BitVec.getLsbD_not, hi] at hbit ⊢
  cases hy : y.getLsbD i <;> simp_all

/-- A store that keeps the bits of `keep` and has none of them in its value. -/
theorem or_and_eq_store
    {value keep : BitVec n}
    (h : value &&& keep = 0)
    (data : BitVec n) :
    value ||| (data &&& keep) = store (~~~keep) value data := by
  rw [store, and_not_of_disjoint h, BitVec.not_not]

variable {κ : Type v} {A : κ → Type w} {R : κ → Type x}

/--
Fields that are written by masked stores: the bits that one field reads are all written
by it, and none of them by another field.
-/
def Fields.ofStores
    (get : ∀ k, BitVec n → R k)
    (set : ∀ k, A k → BitVec n → BitVec n)
    (shows : ∀ k, A k → R k)
    (fits : ∀ k, A k → Prop)
    (encode : ∀ k, A k → BitVec n)
    (bits written : κ → BitVec n)
    (hset : ∀ k a data, set k a data = store (written k) (encode k a) data)
    (hreads : ∀ k, Reads (get k) (bits k))
    (hown : ∀ k, bits k &&& written k = bits k)
    (hother : ∀ j k, j ≠ k → bits j &&& written k = 0)
    (hshows : ∀ k a, fits k a → get k (encode k a) = shows k a) :
    Fields (BitVec n) κ A R where
  get := get
  set := set
  shows := shows
  fits := fits
  get_set k a s h := by
    rw [hset, (hreads k).store_own (hown k), hshows k a h]
  get_set_of_ne j k a s h := by
    rw [hset, (hreads j).store_other (hother j k h)]

end Masks

end Words
end Ptl

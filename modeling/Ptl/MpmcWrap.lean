import Ptl.MpmcQueue
import Mathlib.Algebra.Order.Ring.Nat

/-!
# Tickets of the MPMC queue when the counters wrap

`head_` and `tail_` wrap around at the width of `size_t`.  The ticket drawn after `k` others
is `k` modulo `2 ^ w`, and its slot and its turns are computed from what is left of `k`.

`calls` are the runs of whole calls of `emplace` and `pop`: a call draws its ticket, finds
its turn and publishes the next one.  It is stated for every width.

**Results.**
* `tickets_survive_wrap_iff`: ticket `t + size` takes over the slot of `t` exactly if it does
  not wrap or the capacity is 1 or 2, and only for these capacities runs of any length go on.
* `calls_refines`: for 64 bits a run of whole calls is a run of the queue.
* `queue_stalls`: with three slots or more it comes to an `emplace` that waits for nobody.
-/

namespace Ptl
namespace Mpmc

open Transition

universe u v

section Wrap

variable {w : Nat}

/-- The wrap does not change slot and turn of the ticket drawn after `k` others. -/
def Unwrapped (size : BitVec w) (k : Nat) : Prop :=
  size.toNat ≤ 2 ∨ k < 2 ^ w

/-- Ticket `t + size` has the slot of `t`, and waits for what the consumer of `t` stores. -/
def NextTicket (size t : BitVec w) : Prop :=
  idx size (t + size) = idx size t ∧
    acquireTurn size (t + size) = releaseTurn size t + 1

instance decidableNextTicket (size t : BitVec w) : Decidable (NextTicket size t) :=
  inferInstanceAs (Decidable (_ ∧ _))

variable {size : BitVec w} {k : Nat}

/-- The width is positive if there is room for a capacity. -/
theorem width_pos (hsize : 0 < size.toNat) : 0 < w := by
  have hlt := size.isLt
  rcases Nat.eq_zero_or_pos w with rfl | hw
  · rw [pow_zero] at hlt
    omega
  · exact hw

theorem two_pow_eq (hw : 0 < w) : 2 ^ w = 2 * 2 ^ (w - 1) := by
  obtain ⟨v, rfl⟩ := Nat.exists_eq_succ_of_ne_zero hw.ne'
  rw [Nat.succ_sub_one, Nat.pow_succ, Nat.mul_comm]

/-- Capacities 1 and 2 divide the range of the counters. -/
theorem dvd_two_pow
    (hsize : 0 < size.toNat)
    (h : size.toNat ≤ 2) :
    size.toNat ∣ 2 ^ w := by
  have hcases : size.toNat = 1 ∨ size.toNat = 2 := by omega
  rcases hcases with h | h
  · rw [h]
    exact Nat.one_dvd _
  · rw [h, two_pow_eq (width_pos hsize)]
    exact Nat.dvd_mul_right 2 _

/-- The slot of the ticket that is drawn after `k` others. -/
theorem idx_ofNat
    (hsize : 0 < size.toNat)
    (h : Unwrapped size k) :
    idx size (BitVec.ofNat w k) = BitVec.ofNat w (k % size.toNat) := by
  have hslot : k % size.toNat < 2 ^ w :=
    (Nat.mod_lt k hsize).trans size.isLt
  apply BitVec.eq_of_toNat_eq
  rw [idx, BitVec.toNat_umod, BitVec.toNat_ofNat, BitVec.toNat_ofNat, Nat.mod_eq_of_lt hslot]
  rcases h with h | h
  · exact Nat.mod_mod_of_dvd k (dvd_two_pow hsize h)
  · rw [Nat.mod_eq_of_lt h]

/-- The turn of its producer. -/
theorem acquireTurn_ofNat
    (hsize : 0 < size.toNat)
    (h : Unwrapped size k) :
    acquireTurn size (BitVec.ofNat w k) = BitVec.ofNat w (2 * (k / size.toNat)) := by
  have htwo : (2 : BitVec w) = BitVec.ofNat w 2 := rfl
  apply BitVec.eq_of_toNat_eq
  rw [acquireTurn, turn, htwo, BitVec.toNat_mul, BitVec.toNat_udiv, BitVec.toNat_ofNat,
    BitVec.toNat_ofNat, BitVec.toNat_ofNat, Nat.mod_mul_mod]
  rcases h with h | h
  · have hcases : size.toNat = 1 ∨ size.toNat = 2 := by omega
    rcases hcases with h | h
    · rw [h, Nat.div_one, Nat.div_one, Nat.mul_mod_mod]
    · rw [h, two_pow_eq (width_pos hsize), Nat.mod_mul_right_div_self, Nat.mul_mod_mul_left,
        Nat.mod_mod, Nat.mul_mod_mul_left]
  · rw [Nat.mod_eq_of_lt h]

theorem releaseTurn_ofNat
    (hsize : 0 < size.toNat)
    (h : Unwrapped size k) :
    releaseTurn size (BitVec.ofNat w k) = BitVec.ofNat w (2 * (k / size.toNat) + 1) := by
  have hacquire := acquireTurn_ofNat hsize h
  rw [acquireTurn] at hacquire
  rw [releaseTurn, hacquire, BitVec.ofNat_add]
  rfl

/-- What its consumer stores is the turn of the next round. -/
theorem releaseTurn_succ_ofNat
    (hsize : 0 < size.toNat)
    (h : Unwrapped size k) :
    releaseTurn size (BitVec.ofNat w k) + 1 =
      BitVec.ofNat w (2 * ((k + size.toNat) / size.toNat)) := by
  rw [releaseTurn_ofNat hsize h, Nat.add_div_right k hsize, Nat.mul_add, BitVec.ofNat_add,
    BitVec.ofNat_add _ (2 * 1), BitVec.add_assoc]
  exact congrArg _ (BitVec.ofNat_add 1 1).symm

/-- Producers wait for even numbers and consumers for odd ones. -/
theorem acquire_ne_release
    (hw : 0 < w)
    (a b : Nat) :
    BitVec.ofNat w (2 * a) ≠ BitVec.ofNat w (2 * b + 1) := by
  intro h
  have hmod := congrArg (fun x => x.toNat % 2) h
  have hdvd : 2 ∣ 2 ^ w := by
    rw [two_pow_eq hw]
    exact Nat.dvd_mul_right 2 _
  rw [BitVec.toNat_ofNat, BitVec.toNat_ofNat, Nat.mod_mod_of_dvd _ hdvd,
    Nat.mod_mod_of_dvd _ hdvd] at hmod
  omega

theorem ofNat_toNat_self (t : BitVec w) : BitVec.ofNat w t.toNat = t :=
  (BitVec.ofNat_toNat w t).trans (BitVec.setWidth_eq t)

theorem ofNat_wrapped (k : Nat) : BitVec.ofNat w (2 ^ w + k) = BitVec.ofNat w k := by
  apply BitVec.eq_of_toNat_eq
  rw [BitVec.toNat_ofNat, BitVec.toNat_ofNat, Nat.add_mod_left]

/-- If the counter does not wrap, or the capacity is 1 or 2, the slot is taken over. -/
theorem nextTicket_of_unwrapped
    (hsize : 0 < size.toNat)
    {t : BitVec w}
    (h : Unwrapped size (t.toNat + size.toNat)) :
    NextTicket size t := by
  have ht := ofNat_toNat_self t
  have hnext : t + size = BitVec.ofNat w (t.toNat + size.toNat) := by
    rw [BitVec.ofNat_add, ht, ofNat_toNat_self]
  have hold : Unwrapped size t.toNat := Or.inr t.isLt
  constructor
  · rw [hnext, idx_ofNat hsize h, Nat.add_mod_right, ← idx_ofNat hsize hold, ht]
  · rw [hnext, acquireTurn_ofNat hsize h, ← releaseTurn_succ_ofNat hsize hold, ht]

/-- A ticket that wraps is in round 0, which ends the round of `t` for no other capacity. -/
theorem unwrapped_of_nextTicket
    (hsize : 0 < size.toNat)
    {t : BitVec w}
    (h : NextTicket size t) :
    Unwrapped size (t.toNat + size.toNat) := by
  by_contra hwraps
  obtain ⟨hlarge, hge⟩ := not_or.mp hwraps
  obtain ⟨hslot, hturn⟩ := h
  have hlt := t.isLt
  have hcap := size.isLt
  have hnext : (t + size).toNat = t.toNat + size.toNat - 2 ^ w := by
    rw [BitVec.toNat_add, Nat.mod_eq_sub_mod (by omega), Nat.mod_eq_of_lt (by omega)]
  have hrest : (t + size).toNat < size.toNat := by omega
  -- equal slots: the rounds up to that of `t` fill the range of the counter
  have hmod : (t + size).toNat = t.toNat % size.toNat := by
    have hidx := congrArg BitVec.toNat hslot
    rwa [idx, idx, BitVec.toNat_umod, BitVec.toNat_umod, Nat.mod_eq_of_lt hrest] at hidx
  have hrounds : size.toNat * (t.toNat / size.toNat + 1) = 2 ^ w := by
    have hdiv := Nat.div_add_mod t.toNat size.toNat
    rw [Nat.mul_add, Nat.mul_one]
    omega
  -- equal turns: twice the number of these rounds is a multiple of the range
  have hzero : acquireTurn size (t + size) = BitVec.ofNat w 0 := by
    have hwrapped := acquireTurn_ofNat hsize (Or.inr (t + size).isLt)
    rwa [ofNat_toNat_self, Nat.div_eq_of_lt hrest] at hwrapped
  have hrelease := releaseTurn_succ_ofNat hsize (Or.inr hlt)
  rw [ofNat_toNat_self, ← hturn, hzero, Nat.add_div_right _ hsize] at hrelease
  have hdvd : 2 ^ w ∣ 2 * (t.toNat / size.toNat + 1) := by
    have htoNat := congrArg BitVec.toNat hrelease
    rw [BitVec.toNat_ofNat, BitVec.toNat_ofNat, Nat.zero_mod] at htoNat
    exact Nat.dvd_of_mod_eq_zero htoNat.symm
  have hle := Nat.le_of_dvd (Nat.mul_pos Nat.two_pos (Nat.succ_pos _)) hdvd
  rw [← hrounds] at hle
  exact hlarge (Nat.le_of_mul_le_mul_right hle (Nat.succ_pos _))

theorem nextTicket_iff
    (hsize : 0 < size.toNat)
    (t : BitVec w) :
    NextTicket size t ↔ size.toNat ≤ 2 ∨ t.toNat + size.toNat < 2 ^ w :=
  ⟨unwrapped_of_nextTicket hsize, nextTicket_of_unwrapped hsize⟩

end Wrap

section Calls

variable {w : Nat}

/-- `head_`, `tail_` and the sequence numbers of the slots. -/
structure Counters (w : Nat) where
  head : BitVec w
  tail : BitVec w
  sequence : BitVec w → BitVec w

/-- A call that returns, with its ticket. -/
inductive Returned (w : Nat) where
  | emplace (ticket : BitVec w)
  | pop (ticket : BitVec w)
deriving DecidableEq

/-- The number of calls of `emplace`. -/
def emplaces (tr : List (Returned w)) : Nat :=
  tr.countP fun c => match c with
    | .emplace _ => true
    | .pop _ => false

/-- The number of calls of `pop`. -/
def pops (tr : List (Returned w)) : Nat :=
  tr.countP fun c => match c with
    | .emplace _ => false
    | .pop _ => true

/-- A freshly constructed queue. -/
def Counters.empty : Counters w where
  head := 0
  tail := 0
  sequence := fun _ => 0

/-- Runs of whole calls: a call returns if it finds its turn. -/
def calls (size : BitVec w) : System (Counters w) (Returned w) where
  init := fun s => s = .empty
  guard := fun s c =>
    match c with
    | .emplace t => t = s.head ∧ acquireTurn size t = s.sequence (idx size t)
    | .pop t => t = s.tail ∧ releaseTurn size t = s.sequence (idx size t)
  next := fun s c =>
    match c with
    | .emplace t =>
        { s with
          head := s.head + 1
          sequence := Function.update s.sequence (idx size t) (releaseTurn size t) }
    | .pop t =>
        { s with
          tail := s.tail + 1
          sequence := Function.update s.sequence (idx size t) (releaseTurn size t + 1) }

/--
The next `emplace` returns exactly if a slot is free, and the next `pop` exactly if an
element is stored.
-/
structure HandsOn (size : BitVec w) (tr : List (Returned w)) (s : Counters w) : Prop where
  emplace : (calls size).guard s (.emplace s.head) ↔ emplaces tr < pops tr + size.toNat
  pop : (calls size).guard s (.pop s.tail) ↔ pops tr < emplaces tr

@[simp] theorem emplaces_emplace (tr : List (Returned w)) (t : BitVec w) :
    emplaces (tr ++ [.emplace t]) = emplaces tr + 1 := by
  simp [emplaces]

@[simp] theorem emplaces_pop (tr : List (Returned w)) (t : BitVec w) :
    emplaces (tr ++ [.pop t]) = emplaces tr := by
  simp [emplaces]

@[simp] theorem pops_emplace (tr : List (Returned w)) (t : BitVec w) :
    pops (tr ++ [.emplace t]) = pops tr := by
  simp [pops]

@[simp] theorem pops_pop (tr : List (Returned w)) (t : BitVec w) :
    pops (tr ++ [.pop t]) = pops tr + 1 := by
  simp [pops]

variable {size : BitVec w} {tr : List (Returned w)} {s : Counters w}

/-- The counters are the numbers of calls, modulo the range. -/
theorem counters_of_run
    (hrun : (calls size).Run tr s) :
    s.head = BitVec.ofNat w (emplaces tr) ∧ s.tail = BitVec.ofNat w (pops tr) := by
  refine hrun.invariant
    (I := fun tr s => s.head = BitVec.ofNat w (emplaces tr) ∧
      s.tail = BitVec.ofNat w (pops tr)) ?_ ?_
  · intro s hs
    obtain rfl : s = .empty := hs
    exact ⟨rfl, rfl⟩
  · intro tr s c _ ih _
    obtain ⟨hhead, htail⟩ := ih
    cases c with
    | emplace t =>
        rw [emplaces_emplace, pops_emplace, BitVec.ofNat_add]
        exact ⟨congrArg (· + 1) hhead, htail⟩
    | pop t =>
        rw [emplaces_pop, pops_pop, BitVec.ofNat_add]
        exact ⟨hhead, congrArg (· + 1) htail⟩

/--
The invariant: the slots of the `size` tickets from `tail_` on, which are pairwise different,
hold the turns of the consumers below `head_` and of the producers above it.
-/
structure InTurn (size : BitVec w) (tr : List (Returned w)) (s : Counters w) : Prop where
  le : pops tr ≤ emplaces tr
  room : emplaces tr ≤ pops tr + size.toNat
  stored : ∀ k, pops tr ≤ k → k < emplaces tr →
    s.sequence (BitVec.ofNat w (k % size.toNat)) = BitVec.ofNat w (2 * (k / size.toNat) + 1)
  free : ∀ k, emplaces tr ≤ k → k < pops tr + size.toNat →
    s.sequence (BitVec.ofNat w (k % size.toNat)) = BitVec.ofNat w (2 * (k / size.toNat))

/-- Tickets that are less than a ring apart have different slots. -/
theorem slot_ne
    (hsize : 0 < size.toNat)
    {k k' : Nat}
    (hlt : k < k') (hring : k' < k + size.toNat) :
    BitVec.ofNat w (k' % size.toNat) ≠ BitVec.ofNat w (k % size.toNat) := by
  intro h
  have hrange : ∀ m, m % size.toNat < 2 ^ w := fun m => (Nat.mod_lt m hsize).trans size.isLt
  have hmod := congrArg BitVec.toNat h
  rw [BitVec.toNat_ofNat, BitVec.toNat_ofNat, Nat.mod_eq_of_lt (hrange k'),
    Nat.mod_eq_of_lt (hrange k)] at hmod
  have hdvd := Nat.dvd_of_mod_eq_zero (Nat.sub_mod_eq_zero_of_mod_eq hmod)
  have hle := Nat.le_of_dvd (Nat.sub_pos_of_lt hlt) hdvd
  omega

theorem inTurn_empty : InTurn size [] .empty where
  le := Nat.le_refl 0
  room := Nat.zero_le _
  stored := fun k _ hk => absurd hk (Nat.not_lt_zero k)
  free := by
    intro k _ hk
    have hlt : k < size.toNat := by
      rwa [pops, List.countP_nil, Nat.zero_add] at hk
    rw [Nat.div_eq_of_lt hlt]
    rfl

/-- A producer that is not affected by the wrap finds its turn exactly if a slot is free. -/
theorem InTurn.emplace_iff
    (hsize : 0 < size.toNat)
    (h : InTurn size tr s)
    (hrun : (calls size).Run tr s)
    (hhead : Unwrapped size (emplaces tr)) :
    (calls size).guard s (.emplace s.head) ↔ emplaces tr < pops tr + size.toNat := by
  obtain ⟨hh, -⟩ := counters_of_run hrun
  change s.head = s.head ∧ acquireTurn size s.head = s.sequence (idx size s.head) ↔ _
  rw [hh, acquireTurn_ofNat hsize hhead, idx_ofNat hsize hhead, eq_self_iff_true, true_and]
  rcases h.room.lt_or_eq with hlt | hfull
  · exact iff_of_true (h.free _ (Nat.le_refl _) hlt).symm hlt
  · have hstored := h.stored (pops tr) (Nat.le_refl _) (by omega)
    rw [hfull, Nat.add_mod_right, hstored]
    exact iff_of_false (acquire_ne_release (width_pos hsize) _ _) (Nat.lt_irrefl _)

/-- A consumer that is not affected by the wrap finds its turn exactly if an element is stored. -/
theorem InTurn.pop_iff
    (hsize : 0 < size.toNat)
    (h : InTurn size tr s)
    (hrun : (calls size).Run tr s)
    (htail : Unwrapped size (pops tr)) :
    (calls size).guard s (.pop s.tail) ↔ pops tr < emplaces tr := by
  obtain ⟨-, ht⟩ := counters_of_run hrun
  change s.tail = s.tail ∧ releaseTurn size s.tail = s.sequence (idx size s.tail) ↔ _
  rw [ht, releaseTurn_ofNat hsize htail, idx_ofNat hsize htail, eq_self_iff_true, true_and]
  rcases h.le.lt_or_eq with hlt | hempty
  · exact iff_of_true (h.stored _ (Nat.le_refl _) hlt).symm hlt
  · rw [h.free (pops tr) hempty.ge (by omega)]
    exact iff_of_false (acquire_ne_release (width_pos hsize) _ _).symm hempty.not_lt

/-- An `emplace` that is due turns over its slot and no other. -/
theorem InTurn.emplace
    (hsize : 0 < size.toNat)
    (h : InTurn size tr s)
    (hrun : (calls size).Run tr s)
    (hhead : Unwrapped size (emplaces tr))
    (hdue : emplaces tr < pops tr + size.toNat) :
    InTurn size (tr ++ [.emplace s.head]) ((calls size).next s (.emplace s.head)) := by
  have hle := h.le
  obtain ⟨hh, -⟩ := counters_of_run hrun
  have hnext : ((calls size).next s (.emplace s.head)).sequence =
      Function.update s.sequence (BitVec.ofNat w (emplaces tr % size.toNat))
        (BitVec.ofNat w (2 * (emplaces tr / size.toNat) + 1)) := by
    rw [← idx_ofNat hsize hhead, ← releaseTurn_ofNat hsize hhead, ← hh]
    rfl
  constructor
  · rw [pops_emplace, emplaces_emplace]
    exact h.le.trans (Nat.le_succ _)
  · rw [pops_emplace, emplaces_emplace]
    exact hdue
  · intro k hlow hhigh
    rw [pops_emplace] at hlow
    rw [emplaces_emplace] at hhigh
    rw [hnext]
    rcases (Nat.lt_succ_iff.mp hhigh).lt_or_eq with hlt | rfl
    · rw [Function.update_of_ne (slot_ne hsize hlt (by omega)).symm]
      exact h.stored k hlow hlt
    · exact Function.update_self ..
  · intro k hlow hhigh
    rw [emplaces_emplace] at hlow
    rw [pops_emplace] at hhigh
    rw [hnext, Function.update_of_ne (slot_ne hsize hlow (by omega))]
    exact h.free k (Nat.le_of_succ_le hlow) hhigh

/-- A `pop` that is due leaves its slot to the producer of the next round. -/
theorem InTurn.pop
    (hsize : 0 < size.toNat)
    (h : InTurn size tr s)
    (hrun : (calls size).Run tr s)
    (htail : Unwrapped size (pops tr))
    (hdue : pops tr < emplaces tr) :
    InTurn size (tr ++ [.pop s.tail]) ((calls size).next s (.pop s.tail)) := by
  have hroom := h.room
  obtain ⟨-, ht⟩ := counters_of_run hrun
  have hnext : ((calls size).next s (.pop s.tail)).sequence =
      Function.update s.sequence (BitVec.ofNat w (pops tr % size.toNat))
        (BitVec.ofNat w (2 * ((pops tr + size.toNat) / size.toNat))) := by
    rw [← idx_ofNat hsize htail, ← releaseTurn_succ_ofNat hsize htail, ← ht]
    rfl
  constructor
  · rw [pops_pop, emplaces_pop]
    exact hdue
  · rw [pops_pop, emplaces_pop]
    omega
  · intro k hlow hhigh
    rw [pops_pop] at hlow
    rw [emplaces_pop] at hhigh
    rw [hnext, Function.update_of_ne (slot_ne hsize hlow (by omega))]
    exact h.stored k (Nat.le_of_succ_le hlow) hhigh
  · intro k hlow hhigh
    rw [emplaces_pop] at hlow
    rw [pops_pop] at hhigh
    rw [hnext]
    have hlast : k < pops tr + size.toNat ∨ k = pops tr + size.toNat := by omega
    rcases hlast with hlt | rfl
    · rw [Function.update_of_ne (slot_ne hsize (hdue.trans_le hlow) hlt)]
      exact h.free k hlow hlt
    · rw [Nat.add_mod_right]
      exact Function.update_self ..

/-- As long as no ticket is affected by the wrap, only calls that are due return. -/
theorem inTurn_of_run
    (hsize : 0 < size.toNat)
    (hrun : (calls size).Run tr s)
    (hfew : Unwrapped size (emplaces tr)) :
    InTurn size tr s := by
  refine hrun.invariant
    (I := fun tr s => Unwrapped size (emplaces tr) → InTurn size tr s) ?_ ?_ hfew
  · intro s hs _
    obtain rfl : s = .empty := hs
    exact inTurn_empty
  · intro tr s c hrun ih hguard hfew
    cases c with
    | emplace t =>
        obtain rfl : t = s.head := hguard.1
        rw [emplaces_emplace] at hfew
        have hhead : Unwrapped size (emplaces tr) := hfew.imp_right Nat.lt_of_succ_lt
        have hturn := ih hhead
        exact hturn.emplace hsize hrun hhead ((hturn.emplace_iff hsize hrun hhead).mp hguard)
    | pop t =>
        obtain rfl : t = s.tail := hguard.1
        rw [emplaces_pop] at hfew
        have hturn := ih hfew
        have htail : Unwrapped size (pops tr) := hfew.imp_right hturn.le.trans_lt
        exact hturn.pop hsize hrun htail ((hturn.pop_iff hsize hrun htail).mp hguard)

theorem handsOn_of_run
    (hsize : 0 < size.toNat)
    (hrun : (calls size).Run tr s)
    (hfew : Unwrapped size (emplaces tr)) :
    HandsOn size tr s := by
  have hturn := inTurn_of_run hsize hrun hfew
  exact ⟨hturn.emplace_iff hsize hrun hfew,
    hturn.pop_iff hsize hrun (hfew.imp_right hturn.le.trans_lt)⟩

section Laps

variable (hall : ∀ tr s, (calls size).Run tr s → emplaces tr = pops tr →
  (calls size).guard s (.emplace s.head))
include hall

/-- An `emplace` and a `pop` of an empty queue turn over one slot. -/
theorem exists_round
    (hsize : 0 < size.toNat)
    (hrun : (calls size).Run tr s)
    (hempty : emplaces tr = pops tr) :
    ∃ tr' s', (calls size).Run tr' s' ∧
      emplaces tr' = emplaces tr + 1 ∧ pops tr' = pops tr + 1 ∧
      (∀ j, j ≠ idx size s.head → s'.sequence j = s.sequence j) ∧
      (InTurn size tr s → Unwrapped size (emplaces tr) → InTurn size tr' s') := by
  obtain ⟨hh, ht⟩ := counters_of_run hrun
  have hheads : s.tail = s.head := by rw [hh, ht, hempty]
  have hrun₁ := hrun.step (.emplace s.head) (hall _ _ hrun hempty)
  -- the element that was stored last is the first one to be taken
  have hpop : (calls size).guard ((calls size).next s (.emplace s.head)) (.pop s.tail) := by
    refine ⟨rfl, ?_⟩
    rw [hheads]
    exact (Function.update_self (idx size s.head) (releaseTurn size s.head) s.sequence).symm
  have hrun₂ := hrun₁.step (.pop s.tail) hpop
  refine ⟨_, _, hrun₂, ?_, ?_, ?_, ?_⟩
  · rw [emplaces_pop, emplaces_emplace]
  · rw [pops_pop, pops_emplace]
  · intro j hj
    refine (Function.update_of_ne (hheads ▸ hj) _ _).trans ?_
    exact Function.update_of_ne hj _ _
  · intro hturn hhead
    refine (hturn.emplace hsize hrun hhead (by omega)).pop hsize hrun₁ ?_ ?_
    · rwa [pops_emplace, ← hempty]
    · rw [pops_emplace, emplaces_emplace]
      omega

/-- The first lap: all tickets before the counters wrap. -/
theorem exists_lap
    (hsize : 0 < size.toNat)
    {k : Nat}
    (hk : k ≤ 2 ^ w) :
    ∃ tr s, (calls size).Run tr s ∧ emplaces tr = k ∧ pops tr = k ∧ InTurn size tr s := by
  induction k with
  | zero =>
      exact ⟨[], .empty, .start rfl, rfl, rfl, inTurn_empty⟩
  | succ k ih =>
      obtain ⟨tr, s, hrun, he, hp, hturn⟩ := ih (Nat.le_of_succ_le hk)
      obtain ⟨tr', s', hrun', he', hp', -, hnext⟩ :=
        exists_round hall hsize hrun (he.trans hp.symm)
      refine ⟨tr', s', hrun', by rw [he', he], by rw [hp', hp], hnext hturn ?_⟩
      exact Or.inr (he ▸ hk)

/-- The second lap does not reach the last slot before its ticket. -/
theorem exists_second_lap
    (hsize : 0 < size.toNat)
    {m : Nat}
    (hm : m < size.toNat) :
    ∃ tr s, (calls size).Run tr s ∧ emplaces tr = 2 ^ w + m ∧ pops tr = 2 ^ w + m ∧
      s.sequence (BitVec.ofNat w ((size.toNat - 1) % size.toNat)) =
        BitVec.ofNat w (2 * (2 ^ w / size.toNat)) := by
  induction m with
  | zero =>
      obtain ⟨tr, s, hrun, he, hp, hturn⟩ := exists_lap hall hsize (Nat.le_refl (2 ^ w))
      refine ⟨tr, s, hrun, he, hp, ?_⟩
      -- the last ticket of the slot has the number `size * (2 ^ w / size) + (size - 1)`
      have hdiv := Nat.div_add_mod (2 ^ w) size.toNat
      have hmod := Nat.mod_lt (2 ^ w) hsize
      have hlast : (size.toNat - 1) / size.toNat = 0 := Nat.div_eq_of_lt (by omega)
      have hfree := hturn.free (size.toNat * (2 ^ w / size.toNat) + (size.toNat - 1))
        (by omega) (by omega)
      rwa [Nat.mul_add_mod, Nat.mul_add_div hsize, hlast, Nat.add_zero] at hfree
  | succ m ih =>
      obtain ⟨tr, s, hrun, he, hp, hlast⟩ := ih (Nat.lt_of_succ_lt hm)
      obtain ⟨tr', s', hrun', he', hp', hkept, -⟩ :=
        exists_round hall hsize hrun (he.trans hp.symm)
      refine ⟨tr', s', hrun', by rw [he', he]; rfl, by rw [hp', hp]; rfl, ?_⟩
      have hhead : idx size s.head = BitVec.ofNat w (m % size.toNat) := by
        have hm : Unwrapped size m := Or.inr (by omega)
        rw [(counters_of_run hrun).1, he, ofNat_wrapped, idx_ofNat hsize hm]
      rw [hkept _ ?_, hlast]
      rw [hhead]
      exact slot_ne hsize (by omega) (by omega)

/-- With three slots or more, the last one is not taken over after the first lap. -/
theorem size_le_two_of_goesOn
    (hsize : 0 < size.toNat) :
    size.toNat ≤ 2 := by
  by_contra hlarge
  have hcap := size.isLt
  have hm : size.toNat - 1 < size.toNat := by omega
  obtain ⟨tr, s, hrun, he, hp, hlast⟩ := exists_second_lap hall hsize hm
  obtain ⟨hh, -⟩ := counters_of_run hrun
  -- the ticket waits for turn 0 in the slot of the last turn before the wrap
  have hguard := (hall _ _ hrun (he.trans hp.symm)).2
  have hunwrapped : Unwrapped size (size.toNat - 1) := Or.inr (by omega)
  rw [hh, he, ofNat_wrapped, acquireTurn_ofNat hsize hunwrapped, idx_ofNat hsize hunwrapped,
    hlast, Nat.div_eq_of_lt hm] at hguard
  have hpos : 0 < 2 ^ w / size.toNat := Nat.div_pos hcap.le hsize
  have hthree : 3 * (2 ^ w / size.toNat) ≤ 2 ^ w :=
    (Nat.mul_le_mul_right _ (by omega)).trans (Nat.mul_div_le (2 ^ w) size.toNat)
  have hzero := congrArg BitVec.toNat hguard
  rw [BitVec.toNat_ofNat, BitVec.toNat_ofNat, Nat.zero_mod, Nat.mod_eq_of_lt (by omega)] at hzero
  omega

end Laps

/-- With three slots or more, an empty queue is reached whose next `emplace` does not return. -/
theorem exists_stalled
    (hsize : 2 < size.toNat) :
    ∃ tr s, (calls size).Run tr s ∧ emplaces tr = pops tr ∧
      ¬ (calls size).guard s (.emplace s.head) := by
  by_contra hnone
  have hall : ∀ tr s, (calls size).Run tr s → emplaces tr = pops tr →
      (calls size).guard s (.emplace s.head) := by
    intro tr s hrun hempty
    by_contra hstuck
    exact hnone ⟨tr, s, hrun, hempty, hstuck⟩
  have hle := size_le_two_of_goesOn hall (Nat.zero_lt_of_lt hsize)
  omega

/-- Runs of any length go on exactly for the capacities 1 and 2. -/
theorem handsOn_forall_iff
    (hsize : 0 < size.toNat) :
    (∀ tr s, (calls size).Run tr s → HandsOn size tr s) ↔ size.toNat ≤ 2 := by
  constructor
  · intro hall
    by_contra hlarge
    obtain ⟨tr, s, hrun, hempty, hstuck⟩ := exists_stalled (Nat.lt_of_not_le hlarge)
    exact hstuck ((hall tr s hrun).emplace.mpr (by omega))
  · intro h tr s hrun
    exact handsOn_of_run hsize hrun (Or.inl h)

/--
Ticket `t + size` takes over the slot of ticket `t` exactly if the counter does not wrap in
between, or if the capacity is 1 or 2.  In the runs of any length every call that is due
returns exactly for these capacities; for the others it does until the counter wraps.
-/
theorem tickets_survive_wrap_iff
    (hsize : 0 < size.toNat) :
    (∀ t, idx size (t + size) = idx size t ∧
        acquireTurn size (t + size) = releaseTurn size t + 1 ↔
      size.toNat ≤ 2 ∨ t.toNat + size.toNat < 2 ^ w) ∧
    ((∀ tr s, (calls size).Run tr s → HandsOn size tr s) ↔ size.toNat ≤ 2) ∧
    ∀ tr s, (calls size).Run tr s → emplaces tr < 2 ^ w → HandsOn size tr s :=
  ⟨nextTicket_iff hsize, handsOn_forall_iff hsize,
    fun _ _ hrun hfew => handsOn_of_run hsize hrun (Or.inr hfew)⟩

/-- A ring of four slots in a 32-bit build. -/
theorem tickets_survive_wrap_four :
    0 < (4#32).toNat ∧
      ¬ (∀ tr s, (calls 4#32).Run tr s → HandsOn 4#32 tr s) ∧
      NextTicket 4#32 100#32 := by
  have hsize : 0 < (4#32).toNat := by decide
  obtain ⟨htickets, hruns, -⟩ := tickets_survive_wrap_iff hsize
  exact ⟨hsize, fun hall => absurd (hruns.mp hall) (by decide),
    (htickets 100#32).mpr (by decide)⟩

/--
Ticket 3 of the second lap has the slot of the last ticket of the first one, but waits for
turn 0 where that ticket's consumer stores `2 ^ 31`.
-/
theorem not_nextTicket_four :
    idx 4#32 (4294967295#32 + 4#32) = idx 4#32 4294967295#32 ∧
      acquireTurn 4#32 (4294967295#32 + 4#32) = 0#32 ∧
      releaseTurn 4#32 4294967295#32 + 1 = 2147483648#32 ∧
      ¬ NextTicket 4#32 4294967295#32 := by
  decide

end Calls

section Steps

variable {ι : Type u} {V : Type v} [DecidableEq ι]
variable {size : SizeT} {s : Counters 64} {c : Returned 64} {tr : List (Returned 64)}

/-- A slot between two calls, where every stored element is `v`. -/
def slotAt (v : V) (q : SizeT) : Slot V where
  sequence := q
  data := if q.toNat % 2 = 1 then .live v else .raw

/-- The queue between two calls. -/
def betweenCalls (v : V) (s : Counters 64) : Config ι (Pc V) (Queue V) where
  shared :=
    { slots := fun j => slotAt v (s.sequence j)
      head := s.head
      tail := s.tail }
  pc := fun _ => .idle

/-- The steps of thread `i` in a call that returns without waiting. -/
def Returned.steps (i : ι) (v : V) : Returned 64 → List (Event ι V)
  | .emplace t =>
      [.callEmplace i v, .emplaceTicket i t v, .emplaceAcquire i t v, .construct i t v,
        .emplaceRelease i t v]
  | .pop t =>
      [.callPop i, .popTicket i t, .popAcquire i t, .move i t (some v), .destruct i t,
        .popRelease i t]

theorem releaseTurn_odd (size t : SizeT) : (releaseTurn size t).toNat % 2 = 1 := by
  rw [releaseTurn, BitVec.toNat_add, BitVec.toNat_mul]
  change ((2 * _ % 2 ^ 64) + 1) % 2 ^ 64 % 2 = 1
  omega

theorem slotAt_release (v : V) (size t : SizeT) :
    slotAt v (releaseTurn size t) = { sequence := releaseTurn size t, data := .live v } := by
  rw [slotAt, if_pos (releaseTurn_odd size t)]

theorem slotAt_release_succ (v : V) (size t : SizeT) :
    slotAt v (releaseTurn size t + 1) =
      { sequence := releaseTurn size t + 1, data := .raw } := by
  have hodd := releaseTurn_odd size t
  rw [slotAt, if_neg]
  rw [BitVec.toNat_add]
  change ¬ (_ + 1) % 2 ^ 64 % 2 = 1
  omega

theorem enabled_steps
    (i : ι) (v : V)
    (hguard : (calls size).guard s c) :
    (queue size).Enabled (betweenCalls v s) (c.steps i v) := by
  cases c with
  | emplace t =>
      obtain ⟨hticket, hturn⟩ := hguard
      refine ⟨⟨rfl, trivial⟩, ⟨Function.update_self .., hticket⟩,
        ⟨Function.update_self .., hturn⟩, ⟨Function.update_self .., trivial⟩,
        ⟨Function.update_self .., trivial⟩, trivial⟩
  | pop t =>
      obtain ⟨hticket, hturn⟩ := hguard
      have hmove : some v = ((betweenCalls (ι := ι) v s).shared.slotOf size t).move.1 := by
        change some v = (slotAt v (s.sequence (idx size t))).move.1
        rw [← hturn, slotAt_release]
        rfl
      refine ⟨⟨rfl, trivial⟩, ⟨Function.update_self .., hticket⟩,
        ⟨Function.update_self .., hturn⟩, ⟨Function.update_self .., hmove⟩,
        ⟨Function.update_self .., trivial⟩, ⟨Function.update_self .., trivial⟩, trivial⟩

/-- One slot is turned over. -/
theorem slotAt_update (v : V) (f : SizeT → SizeT) (j q : SizeT) :
    (fun k => slotAt v (Function.update f j q k)) =
      Function.update (fun k => slotAt v (f k)) j (slotAt v q) :=
  Function.comp_update (slotAt v) f j q

theorem exec_steps
    (i : ι) (v : V)
    (hguard : (calls size).guard s c) :
    betweenCalls v ((calls size).next s c) =
      (queue size).exec (betweenCalls v s) (c.steps i v) := by
  have hidle : Function.update (fun _ => .idle) i .idle = fun _ : ι => (.idle : Pc V) :=
    Function.update_eq_self i _
  cases c with
  | emplace t =>
      obtain ⟨rfl, -⟩ := hguard
      simp only [Returned.steps, System.exec, queue, Program.system, program, Event.actor,
        Event.target, Event.effect, calls, betweenCalls, Queue.setSlot, Queue.slotOf,
        Function.update_self, Function.update_idem]
      rw [slotAt_update, slotAt_release, hidle]
      rfl
  | pop t =>
      obtain ⟨rfl, -⟩ := hguard
      simp only [Returned.steps, System.exec, queue, Program.system, program, Event.actor,
        Event.target, Event.effect, calls, betweenCalls, Queue.setSlot, Queue.slotOf,
        Function.update_self, Function.update_idem]
      rw [slotAt_update, slotAt_release_succ, hidle]
      rfl

/-- A run of whole calls is a run of the queue in which thread `i` makes them. -/
theorem calls_refines
    (i : ι) (v : V)
    (hrun : (calls size).Run tr s) :
    (queue size).Run (tr.flatMap (Returned.steps i v)) (betweenCalls v s) := by
  refine (hrun.refine (B := fun _ => True) (I := fun _ => True) (fun _ _ h => h)
    ?_ ?_ trivial).1
  · intro s hs
    obtain rfl : s = .empty := hs
    exact ⟨⟨rfl, fun _ => rfl⟩, trivial⟩
  · intro tr s c _ _ _ hguard
    exact ⟨enabled_steps i v hguard, exec_steps i v hguard, trivial⟩

omit [DecidableEq ι] in
/-- The calls draw one ticket each. -/
theorem tickets_steps (i : ι) (v : V) (tr : List (Returned 64)) :
    (emplaceTickets (tr.flatMap (Returned.steps i v))).length = emplaces tr ∧
      (popTickets (tr.flatMap (Returned.steps i v))).length = pops tr := by
  induction tr using List.reverseRecOn with
  | nil =>
      exact ⟨rfl, rfl⟩
  | append_singleton tr c ih =>
      obtain ⟨hemplace, hpop⟩ := ih
      rw [emplaceTickets] at hemplace ⊢
      rw [popTickets] at hpop ⊢
      rw [List.flatMap_append, List.flatMap_singleton, List.filterMap_append,
        List.filterMap_append, List.length_append, List.length_append, hemplace, hpop]
      cases c with
      | emplace t =>
          rw [emplaces_emplace, pops_emplace]
          exact ⟨rfl, rfl⟩
      | pop t =>
          rw [emplaces_pop, pops_pop]
          exact ⟨rfl, rfl⟩

/--
With three slots or more an `emplace` comes to wait for a turn that its slot does not have,
although no other call is in progress and every element has been popped.
-/
theorem queue_stalls
    (hsize : 2 < size.toNat)
    (i : ι) (v : V) :
    ∃ tr s t, (queue size).Run tr s ∧
      s.pc i = .emplaceSpin t v ∧ (∀ j, j ≠ i → s.pc j = .idle) ∧
      (emplaceTickets tr).length = (popTickets tr).length + 1 ∧
      acquireTurn size t ≠ (s.shared.slotOf size t).sequence := by
  obtain ⟨tr, s, hrun, hempty, hstuck⟩ := exists_stalled hsize
  obtain ⟨hemplaces, hpops⟩ := tickets_steps i v tr
  have henabled : (queue size).Enabled (betweenCalls v s)
      [.callEmplace i v, .emplaceTicket i s.head v] :=
    ⟨⟨rfl, trivial⟩, ⟨Function.update_self .., rfl⟩, trivial⟩
  have hqueue := (calls_refines i v hrun).extend henabled
  refine ⟨_, _, s.head, hqueue, Function.update_self .., ?_, ?_, ?_⟩
  · intro j hj
    exact (Function.update_of_ne hj _ _).trans (Function.update_of_ne hj _ _)
  · rw [emplaceTickets, List.filterMap_append, List.length_append, popTickets,
      List.filterMap_append, List.length_append]
    rw [emplaceTickets] at hemplaces
    rw [popTickets] at hpops
    rw [hemplaces, hpops, hempty]
    rfl
  · intro hturn
    exact hstuck ⟨rfl, hturn⟩

end Steps

end Mpmc
end Ptl

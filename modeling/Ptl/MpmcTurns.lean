import Mathlib.Data.BitVec

/-!
# Tickets, slots and turns of the MPMC queue

The arithmetic of `mpmc_queue.hpp`: a ticket drawn from `head_` or `tail_` is
mapped to a slot index by `idx` and to the round in which the slot is used by
`turn`.  The slot's sequence number is compared with `acquire_turn` by the
producer and with `release_turn` by the consumer of the ticket.

The functions are stated for every width of `size_t`.  As long as twice the
round does not overflow they agree with division and remainder of natural
numbers.
-/

namespace Ptl
namespace Mpmc

section Turns

variable {w : Nat}

/-- `idx(i)`: the slot of ticket `i`. -/
def idx (size i : BitVec w) : BitVec w :=
  i % size

/-- `turn(i)`: the round of ticket `i`. -/
def turn (size i : BitVec w) : BitVec w :=
  i / size

/-- `acquire_turn(i)`: the sequence number the producer of ticket `i` waits for. -/
def acquireTurn (size i : BitVec w) : BitVec w :=
  2 * turn size i

/-- `release_turn(i)`: the sequence number the consumer of ticket `i` waits for. -/
def releaseTurn (size i : BitVec w) : BitVec w :=
  2 * turn size i + 1

/-- The round of a ticket as a natural number. -/
def round (size i : BitVec w) : Nat :=
  i.toNat / size.toNat

theorem acquireTurn_toNat
    {size i : BitVec w}
    (hi : 2 * round size i < 2 ^ w) :
    (acquireTurn size i).toNat = 2 * round size i := by
  have h2 : (2 : BitVec w).toNat = 2 % 2 ^ w := by
    simp
  rw [acquireTurn, turn, BitVec.toNat_mul, h2,
    BitVec.toNat_udiv, Nat.mod_mul_mod]
  exact Nat.mod_eq_of_lt hi

theorem releaseTurn_toNat
    {size i : BitVec w}
    (hi : 2 * round size i + 1 < 2 ^ w) :
    (releaseTurn size i).toNat = 2 * round size i + 1 := by
  have hacq : (2 * turn size i).toNat = 2 * round size i :=
    acquireTurn_toNat (by omega)
  have h1 : (1 : BitVec w).toNat = 1 % 2 ^ w := by
    simp
  rw [releaseTurn, BitVec.toNat_add, hacq, h1, Nat.add_mod_mod]
  exact Nat.mod_eq_of_lt hi

/-- What the consumer stores: the sequence number of the next round. -/
theorem releaseTurn_succ_toNat
    {size i : BitVec w}
    (hi : 2 * round size i + 2 < 2 ^ w) :
    (releaseTurn size i + 1).toNat = 2 * round size i + 2 := by
  have hrel : (releaseTurn size i).toNat = 2 * round size i + 1 :=
    releaseTurn_toNat (by omega)
  have h1 : (1 : BitVec w).toNat = 1 % 2 ^ w := by
    simp
  rw [BitVec.toNat_add, hrel, h1, Nat.add_mod_mod]
  exact Nat.mod_eq_of_lt hi

/-- A ticket is determined by its slot and its round. -/
theorem ticket_eq_of_idx_of_round
    {size i j : BitVec w}
    (hidx : idx size i = idx size j)
    (hround : round size i = round size j) :
    i = j := by
  have hmod : i.toNat % size.toNat = j.toNat % size.toNat := by
    simpa [idx] using congrArg BitVec.toNat hidx
  have hi := Nat.div_add_mod i.toNat size.toNat
  have hj := Nat.div_add_mod j.toNat size.toNat
  simp only [round] at hround
  apply BitVec.eq_of_toNat_eq
  rw [← hi, ← hj, hround, hmod]

/-- The round of a ticket never exceeds the ticket. -/
theorem round_le
    (size i : BitVec w) :
    round size i ≤ i.toNat :=
  Nat.div_le_self _ _

end Turns

end Mpmc
end Ptl

import Mathlib.Data.Nat.Find
import Mathlib.Logic.Function.Basic

/-!
# Descriptor tables

A table assigns to each descriptor number the open object it refers to; from some
number on, all descriptors are closed.  A new descriptor gets the lowest number that
is closed.

**Rules.**
* `entry_lowest`, `ne_lowest`: the number of a new descriptor was closed.
* `entry_allocate_of_ne`, `entry_dup2`, `entry_close`: every operation changes one
  entry.
-/

namespace Ptl
namespace Descriptors

universe u v

/-- The open objects by their descriptors. -/
structure Table (α : Type u) where
  entry : Nat → Option α
  bound : Nat
  closed : ∀ fd, bound ≤ fd → entry fd = none

namespace Table

variable {α : Type u} {β : Type v}

/-- The same descriptors with other objects. -/
def map (f : α → β) (t : Table α) : Table β where
  entry := fun fd => (t.entry fd).map f
  bound := t.bound
  closed := fun fd h => by rw [t.closed fd h, Option.map_none]

/-- Replace one entry. -/
def set (t : Table α) (fd : Nat) (x : Option α) : Table α where
  entry := Function.update t.entry fd x
  bound := max t.bound (fd + 1)
  closed := fun k h => by
    rw [Function.update_of_ne (by omega)]
    exact t.closed k (by omega)

theorem exists_closed (t : Table α) :
    ∃ fd, (t.entry fd).isNone = true :=
  ⟨t.bound, by rw [t.closed t.bound (Nat.le_refl _), Option.isNone_none]⟩

/-- The lowest number that is closed. -/
def lowest (t : Table α) : Nat :=
  Nat.find t.exists_closed

/-- Open a new descriptor. -/
def allocate (t : Table α) (a : α) : Nat × Table α :=
  (t.lowest, t.set t.lowest (some a))

/-- `close`; closing a closed descriptor changes nothing. -/
def close (t : Table α) (fd : Nat) : Table α :=
  t.set fd none

/-- `dup2`, which fails if the old descriptor is closed. -/
def dup2 (t : Table α) (old new : Nat) : Table α :=
  match t.entry old with
  | some a => t.set new (some a)
  | none => t

variable {t : Table α} {fd k : Nat} {a : α} {x : Option α}

@[simp] theorem entry_map (f : α → β) (t : Table α) (fd : Nat) :
    (t.map f).entry fd = (t.entry fd).map f := by
  rfl

@[simp] theorem entry_set_self (t : Table α) (fd : Nat) (x : Option α) :
    (t.set fd x).entry fd = x :=
  Function.update_self ..

theorem entry_set_of_ne (h : k ≠ fd) :
    (t.set fd x).entry k = t.entry k :=
  Function.update_of_ne h ..

@[simp] theorem entry_lowest (t : Table α) :
    t.entry t.lowest = none :=
  Option.isNone_iff_eq_none.mp (Nat.find_spec t.exists_closed)

/-- Every number that is open differs from the lowest closed one. -/
theorem ne_lowest (h : t.entry fd = some a) :
    fd ≠ t.lowest := by
  rintro rfl
  rw [entry_lowest] at h
  exact absurd h (Option.some_ne_none a).symm

theorem lowest_eq_zero_iff :
    t.lowest = 0 ↔ t.entry 0 = none := by
  rw [lowest, Nat.find_eq_zero, Option.isNone_iff_eq_none]

@[simp] theorem entry_allocate_self (t : Table α) (a : α) :
    (t.allocate a).2.entry (t.allocate a).1 = some a :=
  entry_set_self ..

theorem entry_allocate_of_ne (h : k ≠ t.lowest) :
    (t.allocate a).2.entry k = t.entry k :=
  entry_set_of_ne h

theorem entry_close (t : Table α) (fd k : Nat) :
    (t.close fd).entry k = if k = fd then none else t.entry k :=
  Function.update_apply ..

theorem entry_close_of_ne (h : k ≠ fd) :
    (t.close fd).entry k = t.entry k :=
  entry_set_of_ne h

theorem entry_dup2
    {old : Nat}
    (h : t.entry old = some a)
    (new k : Nat) :
    (t.dup2 old new).entry k = if k = new then some a else t.entry k := by
  simp only [dup2, h]
  exact Function.update_apply ..

end Table

end Descriptors
end Ptl

import Mathlib.Data.Multiset.DershowitzManna
import Mathlib.Data.Multiset.Range
import Mathlib.SetTheory.Ordinal.Family

/-!
# Weights of a growing number of items

A measure for systems in which items are numbered in the order in which they
are created: every item has a weight, and the measure is the multiset of all
weights.  A step may make items lighter and create new ones that are lighter
than an item it has made lighter (`weights_lt`); such steps cannot go on
forever (`wellFounded_weights`).
-/

namespace Ptl
namespace Descent

universe u

variable {α : Type u} [Preorder α]

/-- The weights of the first `n` items. -/
def weights (n : Nat) (w : Nat → α) : Multiset α :=
  (Multiset.range n).map w

theorem wellFounded_weights [WellFoundedLT α] :
    WellFounded
      (Multiset.IsDershowitzMannaLT : Multiset α → Multiset α → Prop) :=
  Multiset.wellFounded_isDershowitzMannaLT

/-- Item `i` gets lighter, and the items that are created were lighter before. -/
theorem weights_lt
    {n m i : Nat} {w w' : Nat → α}
    (hi : i < n)
    (hnm : n ≤ m)
    (hold : ∀ j, j < n → w' j = w j ∨ w' j < w j)
    (hlight : w' i < w i)
    (hnew : ∀ j, n ≤ j → j < m → w' j < w i) :
    Multiset.IsDershowitzMannaLT (weights m w') (weights n w) := by
  classical
  obtain ⟨k, rfl⟩ := Nat.exists_eq_add_of_le hnm
  have hne : w' i ≠ w i := ne_of_lt hlight
  have hsplit : Multiset.range n =
      (Multiset.range n).filter (fun j => w' j = w j) +
        (Multiset.range n).filter (fun j => ¬ w' j = w j) :=
    (Multiset.filter_add_not _ _).symm
  have hkept : ((Multiset.range n).filter fun j => w' j = w j).map w' =
      ((Multiset.range n).filter fun j => w' j = w j).map w :=
    Multiset.map_congr rfl fun j hj => (Multiset.mem_filter.mp hj).2
  refine ⟨((Multiset.range n).filter fun j => w' j = w j).map w,
    ((Multiset.range n).filter fun j => ¬ w' j = w j).map w' +
      ((Multiset.range k).map (n + ·)).map w',
    ((Multiset.range n).filter fun j => ¬ w' j = w j).map w, ?_, ?_, ?_, ?_⟩
  · intro hempty
    have hmem : i ∈ (Multiset.range n).filter fun j => ¬ w' j = w j :=
      Multiset.mem_filter.mpr ⟨Multiset.mem_range.mpr hi, hne⟩
    rw [Multiset.map_eq_zero.mp hempty] at hmem
    exact Multiset.notMem_zero i hmem
  · have hrange := congrArg (Multiset.map w') hsplit
    rw [Multiset.map_add, hkept] at hrange
    rw [weights, Multiset.range_add, Multiset.map_add, hrange, add_assoc]
  · rw [weights, ← Multiset.map_add, ← hsplit]
  · have hwi : w i ∈ ((Multiset.range n).filter fun j => ¬ w' j = w j).map w :=
      Multiset.mem_map_of_mem w
        (Multiset.mem_filter.mpr ⟨Multiset.mem_range.mpr hi, hne⟩)
    intro y hy
    rcases Multiset.mem_add.mp hy with hy | hy
    · obtain ⟨j, hj, rfl⟩ := Multiset.mem_map.mp hy
      obtain ⟨hjn, hj'⟩ := Multiset.mem_filter.mp hj
      have hlt := (hold j (Multiset.mem_range.mp hjn)).resolve_left hj'
      exact ⟨w j, Multiset.mem_map_of_mem w hj, hlt⟩
    · obtain ⟨j, hj, rfl⟩ := Multiset.mem_map.mp hy
      obtain ⟨l, hl, rfl⟩ := Multiset.mem_map.mp hj
      refine ⟨w i, hwi, hnew _ (Nat.le_add_right n l) ?_⟩
      exact Nat.add_lt_add_left (Multiset.mem_range.mp hl) n

/-- Ordinals with finite increments. -/
theorem add_natCast_lt
    {a b : Ordinal.{u}} {m n : Nat}
    (hab : a ≤ b)
    (hmn : m < n) :
    a + (m : Ordinal.{u}) < b + (n : Ordinal.{u}) := by
  calc
    a + (m : Ordinal.{u}) ≤ b + (m : Ordinal.{u}) := by gcongr
    _ < b + (n : Ordinal.{u}) := by gcongr

end Descent
end Ptl

import Ptl.SList

/-!
# The destructor of `SList`

The loop takes the first entry out of `head_` and deletes it.  `curr` is a pointer to an
entry, so that `delete curr` destroys an entry and not the item it is part of; and the
entry that is destroyed still points to the next one, which the assertion in its
destructor does not allow.

The destructors that run are logged.  An assertion that fails, an access to an entry that
does not exist, and a loop that goes on for more than a given number of tests, leave the
program `stuck`.

**Results.**
* `destroy_nil`, `destroy_singleton`, `destroy_stuck`: the three lengths that matter.
* `destroy_clean_iff`: no list with an item has its items destroyed, and their entries are
  destroyed without a failed assertion exactly if there is at most one.
-/

namespace Ptl
namespace SList

open LinkedChain

universe u

/-- What has a destructor: an entry, the `head_` of the list included, or an item. -/
inductive Object (ι : Type u) where
  | entry (a : Slot ι)
  | item (x : ι)
deriving DecidableEq

/-- The list, the entries of items that exist, and the destructors that have run. -/
structure Heap (ι : Type u) where
  list : State ι
  alive : ι → Bool
  destroyed : List (Object ι)

namespace Heap

variable {ι : Type u}

def fail (h : Heap ι) : Heap ι :=
  { h with list := { h.list with stuck := true } }

/-- `~SListEntry`, with its assertion. -/
def destroyEntry (h : Heap ι) (a : Slot ι) : Heap ι :=
  let h := { h with destroyed := h.destroyed ++ [Object.entry a] }
  if h.list.inList a then h.fail else h

variable [DecidableEq ι]

/-- `delete curr`, where `curr` points to the entry of an item. -/
def deleteEntry (h : Heap ι) (x : ι) : Heap ι :=
  if h.alive x then
    { h.destroyEntry (.next x) with alive := Function.update h.alive x false }
  else h.fail

/-- The loop of `~SList`, in which `curr` is the variable of that name. -/
def destroyLoop : Nat → Heap ι → Option ι → Heap ι
  | 0, h, _ => h.fail
  | _ + 1, h, none => h
  | fuel + 1, h, some x =>
      if h.alive x then
        let cells := Function.update h.list.cells .head (h.list.cells (.next x))
        let h := { h with list := { h.list with cells := cells } }
        let h := h.deleteEntry x
        if h.list.stuck then h else destroyLoop fuel h (h.list.cells .head)
      else h.fail

/-- `~SList`: its body, and then the destructor of `head_`. -/
def destroy (fuel : Nat) (h : Heap ι) : Heap ι :=
  let h := h.destroyLoop fuel (h.list.cells .head)
  if h.list.stuck then h else h.destroyEntry .head

end Heap

variable {ι : Type u} [DecidableEq ι]

/-- The destructor has returned and destroyed each of the items once. -/
structure Clean (fuel : Nat) (h : Heap ι) (xs : List ι) : Prop where
  returned : (h.destroy fuel).list.stuck = false
  items : ∀ x ∈ xs, (h.destroy fuel).destroyed.count (.item x) = 1

/-- The destructor has returned and destroyed the entry of each of the items once. -/
structure EntriesClean (fuel : Nat) (h : Heap ι) (xs : List ι) : Prop where
  returned : (h.destroy fuel).list.stuck = false
  entries : ∀ x ∈ xs, (h.destroy fuel).destroyed.count (.entry (.next x)) = 1

/-- A list of items that exist, before its destructor has run. -/
structure Intact (h : Heap ι) (xs : List ι) : Prop where
  running : h.list.stuck = false
  chain : Chain h.list.cells .head xs
  alive : ∀ x ∈ xs, h.alive x = true
  destroyed : h.destroyed = []

section Destructor

variable {h : Heap ι} {xs : List ι} {x y : ι} {fuel : Nat}

omit [DecidableEq ι] in
theorem destroyEntry_of_empty
    {a : Slot ι}
    (hempty : h.list.cells a = none) :
    h.destroyEntry a = { h with destroyed := h.destroyed ++ [Object.entry a] } := by
  have hin : h.list.inList a = false := by
    rw [State.inList, hempty]
    rfl
  simp [Heap.destroyEntry, hin]

theorem deleteEntry_of_empty
    (halive : h.alive x = true)
    (hempty : h.list.cells (.next x) = none) :
    h.deleteEntry x =
      { list := h.list
        alive := Function.update h.alive x false
        destroyed := h.destroyed ++ [Object.entry (.next x)] } := by
  rw [Heap.deleteEntry, if_pos halive, destroyEntry_of_empty hempty]

theorem destroy_nil
    (hs : Intact h [])
    (hfuel : 0 < fuel) :
    h.destroy fuel = { h with destroyed := [.entry .head] } := by
  obtain ⟨n, rfl⟩ := Nat.exists_eq_succ_of_ne_zero (Nat.ne_of_gt hfuel)
  have hhead : h.list.cells .head = none := hs.chain
  have hentry := destroyEntry_of_empty hhead
  simpa [Heap.destroy, hhead, Heap.destroyLoop, hs.running, hs.destroyed] using hentry

/-- The first round of the loop, which deletes an entry that still points to the next one. -/
theorem destroyLoop_succ
    (halive : h.alive x = true) :
    h.destroyLoop (fuel + 1) (some x) =
      let cells := Function.update h.list.cells .head (h.list.cells (.next x))
      let h' := { h with list := { h.list with cells := cells } }.deleteEntry x
      if h'.list.stuck then h' else h'.destroyLoop fuel (h'.list.cells .head) := by
  rw [Heap.destroyLoop, if_pos halive]

/-- The only entry of a list points nowhere. -/
theorem destroy_singleton
    (hs : Intact h [x])
    (hfuel : 1 < fuel) :
    (h.destroy fuel).list.stuck = false ∧
      (h.destroy fuel).destroyed = [.entry (.next x), .entry .head] := by
  obtain ⟨n, rfl⟩ := Nat.exists_eq_add_of_lt hfuel
  obtain ⟨hhead, hnext⟩ := hs.chain
  have hempty : h.list.cells (.next x) = none := hnext
  have halive : h.alive x = true := hs.alive x (List.mem_singleton_self x)
  have hrunning := hs.running
  have hloop : h.destroyLoop (1 + n + 1) (some x) =
      { list := { h.list with cells := Function.update h.list.cells .head none }
        alive := Function.update h.alive x false
        destroyed := [.entry (.next x)] } := by
    simp only [destroyLoop_succ halive, hempty]
    rw [deleteEntry_of_empty (by exact halive) (by simpa using hempty), Nat.add_comm 1 n]
    simp [hrunning, hs.destroyed, Heap.destroyLoop]
  rw [Heap.destroy, hhead, hloop]
  simp only [hrunning, Bool.false_eq_true, if_false]
  rw [destroyEntry_of_empty (by simp)]
  exact ⟨rfl, rfl⟩

/-- With a second item, the assertion fails in the first round. -/
theorem destroy_stuck
    (hs : Intact h (x :: y :: xs)) :
    (h.destroy fuel).list.stuck = true := by
  obtain ⟨hhead, hnext, -⟩ := hs.chain
  have halive : h.alive x = true := hs.alive x List.mem_cons_self
  have hloop : (h.destroyLoop fuel (some x)).list.stuck = true := by
    cases fuel with
    | zero =>
        rfl
    | succ fuel =>
        rw [destroyLoop_succ halive]
        simp [Heap.deleteEntry, halive, Heap.destroyEntry, State.inList, hnext, Heap.fail]
  rw [Heap.destroy, hhead]
  simp [hloop]

/--
For loops that may go on for more tests than there are items: the items are destroyed only
if there are none, and their entries are destroyed without a failed assertion exactly if
there is at most one.
-/
theorem destroy_clean_iff
    (hs : Intact h xs)
    (hfuel : xs.length < fuel) :
    (Clean fuel h xs ↔ xs = []) ∧ (EntriesClean fuel h xs ↔ xs.length ≤ 1) := by
  match xs with
  | [] =>
      have hdestroy := destroy_nil hs hfuel
      have hreturned : (h.destroy fuel).list.stuck = false := by
        rw [hdestroy]
        exact hs.running
      exact ⟨iff_of_true ⟨hreturned, by simp⟩ rfl, iff_of_true ⟨hreturned, by simp⟩ (by simp)⟩
  | [x] =>
      obtain ⟨hreturned, hdestroyed⟩ := destroy_singleton hs hfuel
      constructor
      · refine iff_of_false (fun h => ?_) (by simp)
        have hitem := h.items x (List.mem_singleton_self x)
        rw [hdestroyed] at hitem
        simp at hitem
      · refine iff_of_true ⟨hreturned, ?_⟩ (by simp)
        simp [hdestroyed]
  | x :: y :: xs =>
      have hstuck : (h.destroy fuel).list.stuck = true := destroy_stuck hs
      constructor
      · refine iff_of_false (fun h => ?_) (by simp)
        rw [h.returned] at hstuck
        cases hstuck
      · refine iff_of_false (fun h => ?_) (by simp)
        rw [h.returned] at hstuck
        cases hstuck

/-- A list of the items of a chain of numbers from 1 on. -/
def counting (n : Nat) : Heap Nat where
  list :=
    { cells := fun
        | .head => if 0 < n then some 1 else none
        | .next x => if x < n then some (x + 1) else none
      stuck := false }
  alive := fun x => decide (x ≤ n)
  destroyed := []

theorem destroy_clean_counting :
    EntriesClean 2 (counting 1) [1] ∧ ¬Clean 2 (counting 1) [1] := by
  have hs : Intact (counting 1) [1] :=
    { running := rfl
      chain := ⟨rfl, rfl⟩
      alive := by decide
      destroyed := rfl }
  obtain ⟨hclean, hentries⟩ := destroy_clean_iff hs (by decide : 1 < 2)
  refine ⟨hentries.mpr (by decide), ?_⟩
  rw [hclean]
  decide

/-- Two items: the entry of the first one is destroyed while it points to the second. -/
theorem not_destroy_clean :
    Chain (counting 2).list.cells .head [1, 2] ∧
      ((counting 2).destroy 3).list.stuck = true ∧
      ((counting 2).destroy 3).destroyed = [.entry (.next 1)] ∧
      ¬EntriesClean 3 (counting 2) [1, 2] ∧ ¬Clean 3 (counting 2) [1, 2] := by
  refine ⟨⟨rfl, rfl, rfl⟩, by decide, by decide, fun h => ?_, fun h => ?_⟩
  · exact absurd h.returned (by decide)
  · exact absurd h.returned (by decide)

end Destructor

end SList
end Ptl

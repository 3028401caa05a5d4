import Mathlib.Data.List.Induction
import Mathlib.Data.List.Nodup
import Mathlib.Logic.Equiv.Basic
import Mathlib.Logic.Function.Basic

/-!
# Chains of nodes that are linked one way

A chain starts in a slot, the head of a list or the link inside a node; each slot is empty
or points to a node, whose own slot comes next.

**Rules.**
* `Chain.nodup`: a chain that ends visits no node twice.
* `Chain.frame`: slots outside a chain may change.
* `Linked.concat`: filling the empty slot at the end appends a node.
* `Linked.cons`: a node that takes over what the first slot held is prepended.
* `Chain.seek`: a loop that follows the slots ends at the empty one.
* `sequence_perm`: appending and prepending nodes one by one yields each of them once.
-/

namespace Ptl
namespace LinkedChain

universe u v

/-- A place that may point to a node. -/
inductive Slot (ι : Type u) where
  | head
  | next (node : ι)
deriving DecidableEq

/-- What the slots point to. -/
abbrev Cells (ι : Type u) :=
  Slot ι → Option ι

section Chains

variable {ι : Type u}

/-- From the slot on, the nodes are those of the list, and then the chain ends. -/
def Chain (cells : Cells ι) : Slot ι → List ι → Prop
  | s, [] => cells s = none
  | s, x :: xs => cells s = some x ∧ Chain cells (.next x) xs

/-- The slots of a chain. -/
def slots (s : Slot ι) (xs : List ι) : List (Slot ι) :=
  s :: xs.map .next

/-- The slot in which the chain ends. -/
def lastSlot (s : Slot ι) : List ι → Slot ι
  | [] => s
  | x :: xs => lastSlot (.next x) xs

/--
The loop `while (*curr) curr = &(*curr)->next`, if it ends within `fuel` tests of its
condition.
-/
def seek (cells : Cells ι) : Nat → Slot ι → Option (Slot ι)
  | 0, _ => none
  | fuel + 1, s =>
      match cells s with
      | none => some s
      | some x => seek cells fuel (.next x)

/-- The node is found by following the slots. -/
inductive Reaches (cells : Cells ι) : Slot ι → ι → Prop
  | here {s : Slot ι} {x : ι} (h : cells s = some x) :
      Reaches cells s x
  | later {s : Slot ι} {y x : ι} (h : cells s = some y) (hrest : Reaches cells (.next y) x) :
      Reaches cells s x

/-- No node is pointed to from two places. -/
def Unshared {π : Type v} (f : π → Option ι) : Prop :=
  ∀ a b x, f a = some x → f b = some x → a = b

variable {cells : Cells ι} {s a : Slot ι} {x y : ι} {xs ys : List ι}

theorem lastSlot_append_singleton (s : Slot ι) (xs : List ι) (x : ι) :
    lastSlot s (xs ++ [x]) = .next x := by
  induction xs generalizing s with
  | nil =>
      rfl
  | cons y xs ih =>
      exact ih (.next y)

theorem lastSlot_mem (s : Slot ι) (xs : List ι) :
    lastSlot s xs ∈ slots s xs := by
  induction xs generalizing s with
  | nil =>
      exact List.mem_singleton_self s
  | cons x xs ih =>
      exact List.mem_cons_of_mem s (ih (.next x))

theorem nodup_slots
    (hxs : xs.Nodup) :
    (slots .head xs).Nodup := by
  refine List.nodup_cons.mpr ⟨by simp, ?_⟩
  exact hxs.map fun _ _ h => Slot.next.inj h

theorem Chain.head_eq
    (h : Chain cells s xs) :
    cells s = xs.head? := by
  cases xs with
  | nil =>
      exact h
  | cons x xs =>
      exact h.1

theorem Chain.lastSlot_empty
    (h : Chain cells s xs) :
    cells (lastSlot s xs) = none := by
  induction xs generalizing s with
  | nil =>
      exact h
  | cons x xs ih =>
      exact ih h.2

/-- The loop ends at the empty slot, after one test for each node and one more. -/
theorem Chain.seek
    (h : Chain cells s xs)
    {fuel : Nat}
    (hfuel : xs.length < fuel) :
    seek cells fuel s = some (lastSlot s xs) := by
  induction fuel generalizing s xs with
  | zero =>
      omega
  | succ fuel ih =>
      cases xs with
      | nil =>
          have hempty : cells s = none := h
          simp only [LinkedChain.seek, hempty, lastSlot]
      | cons x xs =>
          obtain ⟨hfirst, hrest⟩ := h
          simp only [LinkedChain.seek, hfirst, lastSlot]
          exact ih hrest (by simpa using hfuel)

/-- A loop that ends has come to the empty slot. -/
theorem Chain.seek_eq
    (h : Chain cells s xs)
    {fuel : Nat}
    (hseek : LinkedChain.seek cells fuel s = some a) :
    a = lastSlot s xs := by
  induction fuel generalizing s xs with
  | zero =>
      cases hseek
  | succ fuel ih =>
      cases xs with
      | nil =>
          have hempty : cells s = none := h
          simp only [LinkedChain.seek, hempty, Option.some.injEq] at hseek
          exact hseek.symm
      | cons x xs =>
          obtain ⟨hfirst, hrest⟩ := h
          simp only [LinkedChain.seek, hfirst] at hseek
          change a = lastSlot (.next x) xs
          exact ih hrest hseek

theorem empty_of_seek
    {fuel : Nat}
    (hseek : seek cells fuel s = some a) :
    cells a = none := by
  induction fuel generalizing s with
  | zero =>
      cases hseek
  | succ fuel ih =>
      rw [seek] at hseek
      split at hseek
      · next hempty =>
          obtain rfl : s = a := Option.some.inj hseek
          exact hempty
      · exact ih hseek

theorem Chain.reaches_iff
    (h : Chain cells s xs) :
    Reaches cells s x ↔ x ∈ xs := by
  constructor
  · intro hreaches
    induction hreaches generalizing xs with
    | here hx =>
        rw [h.head_eq] at hx
        exact List.mem_of_mem_head? hx
    | later hy _ ih =>
        cases xs with
        | nil =>
            rw [h.head_eq] at hy
            cases hy
        | cons z xs =>
            obtain rfl : _ = z := Option.some.inj (hy.symm.trans h.1)
            exact List.mem_cons_of_mem _ (ih h.2)
  · intro hx
    induction xs generalizing s with
    | nil =>
        cases hx
    | cons z xs ih =>
        rcases List.mem_cons.mp hx with rfl | hx
        · exact .here h.1
        · exact .later h.1 (ih h.2 hx)

/-- The slots determine the nodes. -/
theorem Chain.unique
    (h : Chain cells s xs)
    (h' : Chain cells s ys) :
    xs = ys := by
  induction xs generalizing s ys with
  | nil =>
      have hempty : cells s = none := h
      rw [h'.head_eq] at hempty
      exact (List.head?_eq_none_iff.mp hempty).symm
  | cons x xs ih =>
      obtain ⟨hfirst, hrest⟩ := h
      cases ys with
      | nil =>
          have hempty : cells s = none := h'
          rw [hfirst] at hempty
          cases hempty
      | cons y ys =>
          obtain ⟨hfirst', hrest'⟩ := h'
          obtain rfl : x = y := Option.some.inj (hfirst.symm.trans hfirst')
          rw [ih hrest hrest']

/-- Every node of a chain starts a chain that is no longer. -/
theorem Chain.suffix
    (h : Chain cells s xs)
    (hx : x ∈ xs) :
    ∃ ys, Chain cells (.next x) ys ∧ ys.length < xs.length := by
  induction xs generalizing s with
  | nil =>
      cases hx
  | cons y xs ih =>
      rcases List.mem_cons.mp hx with rfl | hx
      · exact ⟨xs, h.2, Nat.lt_succ_self _⟩
      · obtain ⟨ys, hys, hless⟩ := ih h.2 hx
        exact ⟨ys, hys, Nat.lt_succ_of_lt hless⟩

/-- A node that points to itself is on no chain. -/
theorem not_chain_of_loop
    (hreaches : Reaches cells s x)
    (hloop : cells (.next x) = some x) :
    ¬Chain cells s xs := by
  intro h
  obtain ⟨ys, hys, -⟩ := h.suffix (h.reaches_iff.mp hreaches)
  obtain ⟨zs, hzs, hless⟩ := hys.suffix (hys.reaches_iff.mp (.here hloop))
  rw [hys.unique hzs] at hless
  exact Nat.lt_irrefl _ hless

/-- A chain that ends does not come back to a node. -/
theorem Chain.nodup
    (h : Chain cells s xs) :
    xs.Nodup := by
  induction xs generalizing s with
  | nil =>
      exact List.nodup_nil
  | cons x xs ih =>
      refine List.nodup_cons.mpr ⟨fun hx => ?_, ih h.2⟩
      obtain ⟨ys, hys, hless⟩ := h.2.suffix hx
      rw [h.2.unique hys] at hless
      exact Nat.lt_irrefl _ hless
section Update

variable [DecidableEq ι]

theorem Chain.frame
    (h : Chain cells s xs)
    (ha : a ∉ slots s xs)
    (v : Option ι) :
    Chain (Function.update cells a v) s xs := by
  induction xs generalizing s with
  | nil =>
      have hne : s ≠ a := fun heq => ha (heq ▸ List.mem_cons_self)
      change Function.update cells a v s = none
      rw [Function.update_of_ne hne]
      exact h
  | cons x xs ih =>
      have hne : s ≠ a := fun heq => ha (heq ▸ List.mem_cons_self)
      refine ⟨?_, ih h.2 fun hmem => ha (List.mem_cons_of_mem s hmem)⟩
      rw [Function.update_of_ne hne]
      exact h.1

/-- A node whose own slot is empty is put into the last slot. -/
theorem Chain.concat
    (h : Chain cells s xs)
    (hnodup : (slots s xs).Nodup)
    (hy : .next y ∉ slots s xs)
    (hempty : cells (.next y) = none) :
    Chain (Function.update cells (lastSlot s xs) (some y)) s (xs ++ [y]) := by
  induction xs generalizing s with
  | nil =>
      have hne : Slot.next y ≠ s := fun heq => hy (heq ▸ List.mem_cons_self)
      refine ⟨Function.update_self .., ?_⟩
      change Function.update cells s (some y) (.next y) = none
      rw [Function.update_of_ne hne]
      exact hempty
  | cons x xs ih =>
      obtain ⟨hs, hrest⟩ := List.nodup_cons.mp hnodup
      have hne : s ≠ lastSlot (.next x) xs := fun heq => hs (heq ▸ lastSlot_mem ..)
      refine ⟨?_, ih h.2 hrest fun hmem => hy (List.mem_cons_of_mem s hmem)⟩
      change Function.update cells (lastSlot (.next x) xs) (some y) s = some x
      rw [Function.update_of_ne hne]
      exact h.1

/-- A node takes over what the head pointed to, and the head points to it. -/
theorem Chain.cons
    (h : Chain cells .head xs)
    (hy : y ∉ xs) :
    Chain (Function.update (Function.update cells (.next y) (cells .head)) .head (some y))
      .head (y :: xs) := by
  have hnext : Function.update (Function.update cells (.next y) (cells .head)) .head (some y)
      (.next y) = xs.head? := by
    rw [Function.update_of_ne (by simp), Function.update_self, h.head_eq]
  refine ⟨Function.update_self .., ?_⟩
  cases xs with
  | nil =>
      exact hnext
  | cons x xs =>
      have hslot : Slot.next y ∉ slots (.next x) xs := by simpa [slots] using hy
      exact ⟨hnext, (h.2.frame hslot _).frame (by simp [slots]) _⟩

end Update

/-- The list holds the nodes, and no other node points to one. -/
structure Linked (cells : Cells ι) (xs : List ι) : Prop where
  chain : Chain cells .head xs
  fresh : ∀ y, y ∉ xs → cells (.next y) = none

/-- The slot at the end belongs to the list. -/
theorem next_ne_lastSlot
    (hy : y ∉ xs) :
    Slot.next y ≠ lastSlot .head xs := by
  intro heq
  have hmem := lastSlot_mem .head xs
  rw [← heq] at hmem
  simp [slots, hy] at hmem

theorem Linked.concat
    [DecidableEq ι]
    (h : Linked cells xs)
    (hy : y ∉ xs) :
    Linked (Function.update cells (lastSlot .head xs) (some y)) (xs ++ [y]) := by
  have hslot : Slot.next y ∉ slots .head xs := by simpa [slots] using hy
  refine ⟨h.chain.concat (nodup_slots h.chain.nodup) hslot (h.fresh y hy), ?_⟩
  intro z hz
  rw [List.mem_append, not_or] at hz
  rw [Function.update_of_ne (next_ne_lastSlot hz.1)]
  exact h.fresh z hz.1

theorem Linked.cons
    [DecidableEq ι]
    (h : Linked cells xs)
    (hy : y ∉ xs) :
    Linked (Function.update (Function.update cells (.next y) (cells .head)) .head (some y))
      (y :: xs) := by
  refine ⟨h.chain.cons hy, ?_⟩
  intro z hz
  rw [List.mem_cons, not_or] at hz
  rw [Function.update_of_ne (by simp), Function.update_of_ne (by simpa using hz.1)]
  exact h.fresh z hz.2

section Sharing

variable {π : Type v} {f g : π → Option ι} {b : π}

/-- Pointing to a node from an empty place. -/
theorem unshared_update_iff
    [DecidableEq π]
    (hb : f b = none) :
    Unshared (Function.update f b (some x)) ↔ Unshared f ∧ ∀ c, f c ≠ some x := by
  have hother {c : π} {z : ι} (hc : f c = some z) : Function.update f b (some x) c = some z := by
    have hne : c ≠ b := by
      rintro rfl
      rw [hb] at hc
      cases hc
    rw [Function.update_of_ne hne, hc]
  constructor
  · intro h
    refine ⟨fun c d z hc hd => h c d z (hother hc) (hother hd), fun c hc => ?_⟩
    obtain rfl : c = b := h c b x (hother hc) (Function.update_self ..)
    rw [hb] at hc
    cases hc
  · rintro ⟨h, hnew⟩ c d z hc hd
    rw [Function.update_apply] at hc hd
    split at hc
    · split at hd
      · simp_all
      · cases hc
        exact absurd hd (hnew d)
    · split at hd
      · cases hd
        exact absurd hc (hnew c)
      · exact h c d z hc hd

/-- Rearranging the places changes nothing. -/
theorem unshared_comp_iff
    (e : Equiv.Perm π)
    (hfg : ∀ c, g (e c) = f c) :
    Unshared g ↔ Unshared f := by
  constructor
  · intro h c d z hc hd
    exact e.injective (h _ _ z ((hfg c).trans hc) ((hfg d).trans hd))
  · intro h c d z hc hd
    have heq := h (e.symm c) (e.symm d) z (by rw [← hfg, e.apply_symm_apply, hc])
      (by rw [← hfg, e.apply_symm_apply, hd])
    exact e.symm.injective heq

end Sharing

end Chains

section Pushes

variable {ι : Type u}

/-- A node is appended or prepended. -/
inductive Push (ι : Type u) where
  | back (x : ι)
  | front (x : ι)

namespace Push

def node : Push ι → ι
  | back x => x
  | front x => x

def apply (xs : List ι) : Push ι → List ι
  | back x => xs ++ [x]
  | front x => x :: xs

end Push

/-- The nodes after a sequence of pushes. -/
def sequence (ps : List (Push ι)) : List ι :=
  ps.foldl Push.apply []

theorem sequence_append_singleton (ps : List (Push ι)) (p : Push ι) :
    sequence (ps ++ [p]) = p.apply (sequence ps) := by
  simp [sequence]

theorem sequence_perm (ps : List (Push ι)) :
    (sequence ps).Perm (ps.map Push.node) := by
  induction ps using List.reverseRecOn with
  | nil =>
      exact List.Perm.refl []
  | append_singleton ps p ih =>
      rw [sequence_append_singleton, List.map_append, List.map_singleton]
      cases p with
      | back x =>
          exact ih.append_right [x]
      | front x =>
          exact (ih.cons x).trans (List.perm_append_singleton x _).symm

end Pushes

end LinkedChain
end Ptl

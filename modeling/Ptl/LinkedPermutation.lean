import Ptl.LinkedRing
import Mathlib.Data.Fintype.Pigeonhole
import Mathlib.Logic.Equiv.Basic

/-!
# Doubly linked nodes and permutations

The nodes that are in use are linked in rings: each one is the predecessor of its
successor and the successor of its predecessor.  The rings are the cycles of a
permutation that leaves all other nodes alone.

Exchanging the successors of two nodes merges two rings or splits one.  The
permutation is then preceded by the swap of the two nodes.

**Rules.**
* `Matches.exchange`: what exchanging two successors does to the permutation.
* `Matches.returns`: following `next` comes back to where it started.
-/

namespace Ptl
namespace Links

open Equiv

universe u

variable {α : Type u}

/-- The nodes in use are linked among themselves, both ways. -/
structure Sound (L : Links α) (live : Finset α) : Prop where
  next_mem : ∀ a ∈ live, L.next a ∈ live
  prev_mem : ∀ a ∈ live, L.prev a ∈ live
  prev_next : ∀ a ∈ live, L.prev (L.next a) = a
  next_prev : ∀ a ∈ live, L.next (L.prev a) = a

/-- The links of the nodes in use are the permutation, which moves no other node. -/
structure Matches (L : Links α) (live : Finset α) (σ : Perm α) : Prop where
  next : ∀ a ∈ live, L.next a = σ a
  prev : ∀ a ∈ live, L.prev a = σ.symm a
  fixed : ∀ a ∉ live, σ a = a

namespace Matches

variable {L : Links α} {live : Finset α} {σ : Perm α} {a b p : α}

theorem apply_mem
    (h : Matches L live σ)
    (ha : a ∈ live) :
    σ a ∈ live := by
  by_contra hnot
  have hfixed : σ a = a := σ.injective (h.fixed (σ a) hnot)
  exact hnot (hfixed.symm ▸ ha)

theorem symm_mem
    (h : Matches L live σ)
    (ha : a ∈ live) :
    σ.symm a ∈ live := by
  by_contra hnot
  have hfixed : a = σ.symm a := (σ.apply_symm_apply a).symm.trans (h.fixed _ hnot)
  exact hnot (hfixed ▸ ha)

theorem sound
    (h : Matches L live σ) :
    Sound L live where
  next_mem := fun a ha => (h.next a ha).symm ▸ h.apply_mem ha
  prev_mem := fun a ha => (h.prev a ha).symm ▸ h.symm_mem ha
  prev_next := fun a ha => by
    rw [h.next a ha, h.prev _ (h.apply_mem ha), symm_apply_apply]
  next_prev := fun a ha => by
    rw [h.prev a ha, h.next _ (h.symm_mem ha), apply_symm_apply]

/-- Two nodes with one predecessor are the same. -/
theorem prev_inj
    (h : Matches L live σ)
    (ha : a ∈ live)
    (hb : b ∈ live)
    (hprev : L.prev a = L.prev b) :
    a = b := by
  rw [h.prev a ha, h.prev b hb] at hprev
  exact σ.symm.injective hprev

/-- Two nodes with one successor are the same. -/
theorem next_inj
    (h : Matches L live σ)
    (ha : a ∈ live)
    (hb : b ∈ live)
    (hnext : L.next a = L.next b) :
    a = b := by
  rw [h.next a ha, h.next b hb] at hnext
  exact σ.injective hnext

/-- Node `a` gets the successor of `p`, and `p` gets that of `a`. -/
theorem exchange
    [DecidableEq α]
    (h : Matches L live σ)
    (hp : p ∈ live)
    (ha : a ∈ live) :
    Matches ((L.join p (σ a)).join a (σ p)) live ((swap p a).trans σ) := by
  constructor
  · intro x hx
    rw [trans_apply]
    rcases eq_or_ne x a with rfl | hxa
    · rw [join_next_self, swap_apply_right]
    rw [join_next_of_ne hxa]
    rcases eq_or_ne x p with rfl | hxp
    · rw [join_next_self, swap_apply_left]
    rw [join_next_of_ne hxp, swap_apply_of_ne_of_ne hxp hxa, h.next x hx]
  · intro x hx
    rw [symm_trans_apply, symm_swap]
    rcases eq_or_ne x (σ p) with rfl | hxp
    · rw [join_prev_self, symm_apply_apply, swap_apply_left]
    rw [join_prev_of_ne hxp]
    rcases eq_or_ne x (σ a) with rfl | hxa
    · rw [join_prev_self, symm_apply_apply, swap_apply_right]
    have hnp : σ.symm x ≠ p := mt σ.symm_apply_eq.mp hxp
    have hna : σ.symm x ≠ a := mt σ.symm_apply_eq.mp hxa
    rw [join_prev_of_ne hxa, swap_apply_of_ne_of_ne hnp hna, h.prev x hx]
  · intro x hx
    have hxp : x ≠ p := fun hne => hx (hne ▸ hp)
    have hxa : x ≠ a := fun hne => hx (hne ▸ ha)
    rw [trans_apply, swap_apply_of_ne_of_ne hxp hxa, h.fixed x hx]

theorem iterate_mem
    (h : Matches L live σ)
    (ha : a ∈ live)
    (n : Nat) :
    L.next^[n] a ∈ live := by
  induction n with
  | zero =>
      exact ha
  | succ n ih =>
      rw [Function.iterate_succ_apply']
      exact h.sound.next_mem _ ih

/-- A node is reached from one node only, so two equal nodes on the way lead back. -/
theorem iterate_cancel
    (h : Matches L live σ)
    (ha : a ∈ live)
    (hb : b ∈ live)
    (n : Nat)
    (heq : L.next^[n] a = L.next^[n] b) :
    a = b := by
  induction n with
  | zero =>
      exact heq
  | succ n ih =>
      rw [Function.iterate_succ_apply', Function.iterate_succ_apply'] at heq
      exact ih (h.next_inj (h.iterate_mem ha n) (h.iterate_mem hb n) heq)

/-- There are finitely many nodes, so two of the nodes passed are the same. -/
theorem returns
    (h : Matches L live σ)
    (ha : a ∈ live) :
    ∃ n, 0 < n ∧ L.next^[n] a = a := by
  obtain ⟨m, n, hne, heq⟩ := Finite.exists_ne_map_eq_of_infinite
    fun n : Nat => (⟨L.next^[n] a, h.iterate_mem ha n⟩ : live)
  wlog hlt : m < n generalizing m n
  · exact this n m hne.symm heq.symm (by omega)
  have hsplit : L.next^[n] a = L.next^[m] (L.next^[n - m] a) := by
    rw [← Function.iterate_add_apply, Nat.add_sub_cancel' hlt.le]
  have hsame : L.next^[m] a = L.next^[m] (L.next^[n - m] a) :=
    (Subtype.mk.inj heq).trans hsplit
  exact ⟨n - m, Nat.sub_pos_of_lt hlt,
    (h.iterate_cancel ha (h.iterate_mem ha _) m hsame).symm⟩

end Matches

end Links
end Ptl

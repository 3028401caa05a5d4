import Ptl.IntrusiveList
import Ptl.LinkedPermutation

/-!
# `ListEntry` anywhere in a ring

`insert_before` and `insert_after` are public members: an entry can be put next to any
other entry, and not only at the ends of a list.  This module runs the members of
`ListEntry` on any number of entries that are constructed, inserted, removed and
destroyed; the `head_` of a list is one of them.  What the memory holds before an entry
is constructed is arbitrary.

The abstract state is a permutation of the entries, whose cycles are the rings.

**Results.**
* `entries_permute_iff`: the entries stay linked both ways throughout a run exactly if
  no entry is inserted while it is in a list; the links are then the permutation that
  the run builds, and following `next_` comes back to the entry it left.
-/

namespace Ptl
namespace ListEntry

open Transition Links Equiv
open IntrusiveList (construct remove inList insertBefore insertAfter remove_eq
  insertBefore_eq insertAfter_eq)

universe u

variable {α : Type u}

/-- The links in memory and the entries that exist. -/
structure State (α : Type u) where
  links : Links α
  live : Finset α

/-- The calls of the members; `destroy` is `~ListEntry`. -/
inductive Event (α : Type u) where
  | construct (this : α)
  | insertBefore (this other : α)
  | insertAfter (this other : α)
  | remove (this : α)
  | destroy (this : α)
deriving DecidableEq

/-- No entry exists yet. -/
def start (memory : Links α) : State α where
  links := memory
  live := ∅

variable [DecidableEq α]

namespace Event

/-- An entry is constructed where there is none, and used while it exists. -/
def guard (s : State α) : Event α → Prop
  | construct this => this ∉ s.live
  | insertBefore this other | insertAfter this other => this ∈ s.live ∧ other ∈ s.live
  | remove this | destroy this => this ∈ s.live

instance decidableGuard (s : State α) :
    ∀ e : Event α, Decidable (e.guard s)
  | construct this => inferInstanceAs (Decidable (this ∉ s.live))
  | insertBefore this other | insertAfter this other =>
      inferInstanceAs (Decidable (this ∈ s.live ∧ other ∈ s.live))
  | remove this | destroy this => inferInstanceAs (Decidable (this ∈ s.live))

def next (s : State α) : Event α → State α
  | construct this =>
      { links := IntrusiveList.construct s.links this, live := insert this s.live }
  | insertBefore this other =>
      { s with links := IntrusiveList.insertBefore s.links this other }
  | insertAfter this other =>
      { s with links := IntrusiveList.insertAfter s.links this other }
  | remove this => { s with links := IntrusiveList.remove s.links this }
  | destroy this =>
      { links := IntrusiveList.remove s.links this, live := s.live.erase this }

/-- What a call does to the rings: two entries exchange their successors. -/
def permute (σ : Perm α) : Event α → Perm α
  | construct _ => σ
  | insertBefore this other => (swap (σ.symm other) this).trans σ
  | insertAfter this other => (swap other this).trans σ
  | remove this | destroy this => (swap (σ.symm this) this).trans σ

end Event

/-- The system of the entries, in a memory with arbitrary contents. -/
def entries (memory : Links α) : System (State α) (Event α) where
  init := fun s => s = start memory
  guard := Event.guard
  next := Event.next

instance decidableEntriesGuard (memory : Links α) (s : State α) (e : Event α) :
    Decidable ((entries memory).guard s e) :=
  Event.decidableGuard s e

/-- The rings that the calls of a run build. -/
def permutation (tr : List (Event α)) : Perm α :=
  tr.foldl Event.permute (Equiv.refl α)

theorem permutation_append_singleton (tr : List (Event α)) (e : Event α) :
    permutation (tr ++ [e]) = e.permute (permutation tr) := by
  simp [permutation]

/-- An entry is inserted while `in_list()` is false. -/
def InsertsUnlinked (s : State α) : Event α → Prop
  | .insertBefore this _ | .insertAfter this _ => inList s.links this = false
  | _ => True

instance decidableInsertsUnlinked (s : State α) :
    ∀ e : Event α, Decidable (InsertsUnlinked s e)
  | .insertBefore this _ | .insertAfter this _ =>
      inferInstanceAs (Decidable (inList s.links this = false))
  | .construct _ | .remove _ | .destroy _ => isTrue trivial

section Members

variable {L : Links α} {live : Finset α} {σ : Perm α} {this other : α}

theorem inList_eq_false_iff :
    inList L this = false ↔ L.next this = this := by
  simp [inList]

theorem construct_matches
    (h : Matches L live σ)
    (hthis : this ∉ live) :
    Matches (construct L this) (insert this live) σ := by
  have hfixed : σ.symm this = this := σ.symm_apply_eq.mpr (h.fixed this hthis).symm
  constructor
  · intro a ha
    rcases eq_or_ne a this with rfl | hne
    · exact (Function.update_self ..).trans (h.fixed a hthis).symm
    · exact (Function.update_of_ne hne ..).trans
        (h.next a ((Finset.mem_insert.mp ha).resolve_left hne))
  · intro a ha
    rcases eq_or_ne a this with rfl | hne
    · exact (Function.update_self ..).trans hfixed.symm
    · exact (Function.update_of_ne hne ..).trans
        (h.prev a ((Finset.mem_insert.mp ha).resolve_left hne))
  · intro a ha
    exact h.fixed a fun hmem => ha (Finset.mem_insert_of_mem hmem)

theorem remove_matches
    (h : Matches L live σ)
    (hthis : this ∈ live) :
    Matches (remove L this) live ((swap (σ.symm this) this).trans σ) := by
  have hexchange := h.exchange (h.symm_mem hthis) hthis
  rw [apply_symm_apply] at hexchange
  rw [remove_eq, h.prev this hthis, h.next this hthis]
  exact hexchange

theorem insertBefore_self :
    insertBefore L this this = (L.join this this).join this this := by
  simp [insertBefore, IntrusiveList.setNext, IntrusiveList.setPrev, join]

theorem insertAfter_self :
    insertAfter L this this = (L.join this this).join this this := by
  simp [insertAfter, IntrusiveList.setNext, IntrusiveList.setPrev, join]

theorem insertBefore_matches
    (h : Matches L live σ)
    (hthis : this ∈ live)
    (hother : other ∈ live)
    (hunlinked : L.next this = this) :
    Matches (insertBefore L this other) live ((swap (σ.symm other) this).trans σ) := by
  have hfixed : σ this = this := (h.next this hthis).symm.trans hunlinked
  have hexchange := h.exchange (h.symm_mem hother) hthis
  rw [apply_symm_apply, hfixed] at hexchange
  rcases eq_or_ne this other with rfl | hne
  · rw [insertBefore_self]
    rwa [σ.symm_apply_eq.mpr hfixed.symm] at hexchange ⊢
  · have hprev : this ≠ L.prev other := by
      rw [h.prev other hother]
      exact fun heq => hne (hfixed.symm.trans ((σ.symm_apply_eq.mp heq.symm).symm))
    rw [insertBefore_eq hne hprev, h.prev other hother]
    exact hexchange

theorem insertAfter_matches
    (h : Matches L live σ)
    (hthis : this ∈ live)
    (hother : other ∈ live)
    (hunlinked : L.next this = this) :
    Matches (insertAfter L this other) live ((swap other this).trans σ) := by
  have hfixed : σ this = this := (h.next this hthis).symm.trans hunlinked
  have hexchange := h.exchange hother hthis
  rw [hfixed] at hexchange
  rcases eq_or_ne this other with rfl | hne
  · rw [insertAfter_self]
    rwa [hfixed] at hexchange
  · rw [insertAfter_eq hne, h.next other hother]
    exact hexchange

/-- The old predecessor of a linked entry still points to it. -/
theorem not_sound_insertBefore
    (h : Matches L live σ)
    (hthis : this ∈ live)
    (hother : other ∈ live)
    (hlinked : L.next this ≠ this) :
    ¬ Sound (insertBefore L this other) live := by
  intro hsound
  have hprev : L.prev this ≠ this := fun heq =>
    hlinked ((congrArg L.next heq.symm).trans (h.sound.next_prev this hthis))
  have hnext : (insertBefore L this other).next (L.prev this) = this := by
    simp only [insertBefore, IntrusiveList.setNext, IntrusiveList.setPrev, Function.update_self]
    rw [Function.update_apply, Function.update_of_ne hprev, h.sound.next_prev this hthis, ite_self]
  have hback := hsound.prev_next _ (h.sound.prev_mem this hthis)
  rw [hnext] at hback
  simp only [insertBefore, IntrusiveList.setNext, IntrusiveList.setPrev, Function.update_self]
    at hback
  rcases eq_or_ne this other with rfl | hne
  · rw [Function.update_self] at hback
    exact hprev hback.symm
  · rw [Function.update_of_ne hne, Function.update_self] at hback
    exact hne (h.prev_inj hthis hother hback.symm)

/-- The old successor of a linked entry still points back to it. -/
theorem not_sound_insertAfter
    (h : Matches L live σ)
    (hthis : this ∈ live)
    (hother : other ∈ live)
    (hlinked : L.next this ≠ this) :
    ¬ Sound (insertAfter L this other) live := by
  intro hsound
  have hprev : (insertAfter L this other).prev (L.next this) = this := by
    simp only [insertAfter, IntrusiveList.setNext, IntrusiveList.setPrev, Function.update_self]
    rw [Function.update_apply, Function.update_of_ne hlinked, h.sound.prev_next this hthis,
      ite_self]
  have hback := hsound.next_prev _ (h.sound.next_mem this hthis)
  rw [hprev] at hback
  simp only [insertAfter, IntrusiveList.setNext, IntrusiveList.setPrev, Function.update_self]
    at hback
  rcases eq_or_ne this other with rfl | hne
  · rw [Function.update_self] at hback
    exact hlinked hback.symm
  · rw [Function.update_of_ne hne, Function.update_self] at hback
    exact hne (h.next_inj hthis hother hback.symm)

end Members

section Runs

variable {memory : Links α} {tr : List (Event α)} {s : State α} {e : Event α} {σ : Perm α}

/-- A call on unlinked entries does to the links what it does to the permutation. -/
theorem matches_next
    (h : Matches s.links s.live σ)
    (hguard : (entries memory).guard s e)
    (hok : InsertsUnlinked s e) :
    Matches ((entries memory).next s e).links ((entries memory).next s e).live
      (e.permute σ) := by
  cases e with
  | construct this =>
      exact construct_matches h hguard
  | insertBefore this other =>
      exact insertBefore_matches h hguard.1 hguard.2 (inList_eq_false_iff.mp hok)
  | insertAfter this other =>
      exact insertAfter_matches h hguard.1 hguard.2 (inList_eq_false_iff.mp hok)
  | remove this =>
      exact remove_matches h hguard
  | destroy this =>
      obtain ⟨hnext, hprev, hfixed⟩ := remove_matches h hguard
      refine ⟨fun a ha => hnext a (Finset.mem_of_mem_erase ha),
        fun a ha => hprev a (Finset.mem_of_mem_erase ha), fun a ha => ?_⟩
      rcases eq_or_ne a this with rfl | hne
      · rw [Event.permute, trans_apply, swap_apply_right, apply_symm_apply]
      · exact hfixed a fun hmem => ha (Finset.mem_erase.mpr ⟨hne, hmem⟩)

/-- Only the insertion of a linked entry breaks the rings. -/
theorem sound_next_iff
    (h : Matches s.links s.live σ)
    (hguard : (entries memory).guard s e) :
    Sound ((entries memory).next s e).links ((entries memory).next s e).live ↔
      InsertsUnlinked s e := by
  constructor
  · intro hsound
    by_contra hlinked
    cases e with
    | insertBefore this other =>
        exact not_sound_insertBefore h hguard.1 hguard.2
          (mt inList_eq_false_iff.mpr hlinked) hsound
    | insertAfter this other =>
        exact not_sound_insertAfter h hguard.1 hguard.2
          (mt inList_eq_false_iff.mpr hlinked) hsound
    | construct | remove | destroy =>
        exact hlinked trivial
  · intro hok
    exact (matches_next h hguard hok).sound

theorem matches_start :
    Matches (start memory).links (start memory).live (permutation ([] : List (Event α))) where
  next := fun _ => nofun
  prev := fun _ => nofun
  fixed := fun _ _ => rfl

theorem matches_of_run
    (hrun : (entries memory).Run tr s)
    (hok : (entries memory).Along InsertsUnlinked (start memory) tr) :
    Matches s.links s.live (permutation tr) := by
  revert hok
  refine hrun.invariant (I := fun tr s =>
    (entries memory).Along InsertsUnlinked (start memory) tr →
      Matches s.links s.live (permutation tr)) ?_ ?_
  · rintro _ rfl -
    exact matches_start
  · intro tr s e hrun ih hguard hok
    obtain ⟨hpast, hlast, -⟩ := (System.along_append ..).mp hok
    rw [← hrun.eq_exec fun _ h => h] at hlast
    rw [permutation_append_singleton]
    exact matches_next (ih hpast) hguard hlast

/-- After every step, the entries that exist are linked among themselves, both ways. -/
def StaysSound (memory : Links α) (tr : List (Event α)) : Prop :=
  System.History (fun es e =>
    let s := (entries memory).exec (start memory) (es ++ [e])
    Sound s.links s.live) tr

/-- The links are the rings of the permutation, and each way round comes back. -/
structure Permutes (tr : List (Event α)) (s : State α) : Prop where
  rings : Matches s.links s.live (permutation tr)
  forward : ∀ a ∈ s.live, ∃ n, 0 < n ∧ s.links.next^[n] a = a
  linked : ∀ a ∈ s.live, inList s.links a = true ↔ permutation tr a ≠ a

/-- Exact condition for the rings, and what they are. -/
theorem entries_permute_iff
    (hrun : (entries memory).Run tr s) :
    (StaysSound memory tr ↔
        (entries memory).Along InsertsUnlinked (start memory) tr) ∧
      (StaysSound memory tr → Permutes tr s) := by
  have hiff : StaysSound memory tr ↔
      (entries memory).Along InsertsUnlinked (start memory) tr := by
    refine hrun.history_iff_along (I := fun tr s => Matches s.links s.live (permutation tr))
      (fun _ h => h) matches_start ?_ ?_
    · intro tr s e hrun hguard h
      rw [System.exec_append_singleton, ← hrun.eq_exec fun _ h => h]
      exact sound_next_iff h hguard
    · intro tr s e hrun hguard h hsound
      rw [System.exec_append_singleton, ← hrun.eq_exec fun _ h => h] at hsound
      rw [permutation_append_singleton]
      exact matches_next h hguard ((sound_next_iff h hguard).mp hsound)
  refine ⟨hiff, fun hsound => ?_⟩
  have hmatches := matches_of_run hrun (hiff.mp hsound)
  refine ⟨hmatches, fun a ha => hmatches.returns ha, fun a ha => ?_⟩
  rw [← hmatches.next a ha, ← Bool.not_eq_false, inList_eq_false_iff]

/-- Entry 1 is put before and entry 2 after the head 0, and 1 is moved behind 2. -/
def movedBehind : List (Event Nat) :=
  [.construct 0, .construct 1, .construct 2,
    .insertBefore 1 0, .insertAfter 2 0, .remove 1, .insertAfter 1 2, .destroy 2]

/-- The same without the call of `remove`. -/
def movedLinked : List (Event Nat) :=
  [.construct 0, .construct 1, .construct 2,
    .insertBefore 1 0, .insertAfter 2 0, .insertAfter 1 2]

theorem entries_permute_movedBehind :
    Permutes movedBehind ((entries ⟨id, id⟩).exec (start ⟨id, id⟩) movedBehind) ∧
      ¬ StaysSound ⟨id, id⟩ movedLinked := by
  have hmovedRun : (entries ⟨id, id⟩).Run movedBehind
      ((entries ⟨id, id⟩).exec (start ⟨id, id⟩) movedBehind) :=
    .of_enabled rfl (by decide +kernel)
  have hlinkedRun : (entries ⟨id, id⟩).Run movedLinked
      ((entries ⟨id, id⟩).exec (start ⟨id, id⟩) movedLinked) :=
    .of_enabled rfl (by decide +kernel)
  have hmoved := entries_permute_iff hmovedRun
  have hlinked := entries_permute_iff hlinkedRun
  exact ⟨hmoved.2 (hmoved.1.mpr (by decide +kernel)), hlinked.1.not.mpr (by decide +kernel)⟩

end Runs

end ListEntry
end Ptl

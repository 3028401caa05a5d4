import Ptl.MpmcInterference
import Mathlib.Data.List.Nodup
import Mathlib.Data.List.Perm.Basic

/-!
# Lifetimes of the elements of the MPMC queue

Placement new and the explicit destructor call of a slot have to alternate, and
`~slot` has to destroy exactly what is left.  The parity of the sequence number
is what `~slot` looks at.

**Invariant.**  `Parity` ties the sequence number to the last release of the
slot, `Occupied` the storage to the tickets that are between `construct` and
`destruct`, and `occupant` the last `construct` of a slot to its ticket.

**Result.**  `mpmc_lifetimes`: `construct` finds raw storage, `move` and
`destruct` find an element, and after `~slot` has run on all slots every
constructed element has been destroyed exactly once.
-/

namespace Ptl
namespace Mpmc

open Transition

universe u v

variable {ι : Type u} {V : Type v}
variable {size : SizeT}

namespace Slot

/-- The test of `~slot`. -/
def Destroys (slot : Slot V) : Prop :=
  slot.sequence &&& 1 ≠ 0

instance decidableDestroys (slot : Slot V) :
    Decidable slot.Destroys :=
  inferInstanceAs (Decidable (slot.sequence &&& 1 ≠ 0))

/-- `~slot`. -/
def destructor (slot : Slot V) : Slot V :=
  if slot.Destroys then slot.destruct else slot

theorem destroys_iff (slot : Slot V) :
    slot.Destroys ↔ slot.sequence.toNat % 2 = 1 := by
  have hbit : (slot.sequence &&& 1).toNat = slot.sequence.toNat % 2 := by
    rw [BitVec.toNat_and]
    exact Nat.and_one_is_mod _
  rw [Destroys, Ne, ← BitVec.toNat_inj, hbit]
  change ¬ slot.sequence.toNat % 2 = 0 ↔ _
  omega

end Slot

section Elements

/-- The element in each slot, and the elements destroyed, by their tickets. -/
structure Elements where
  occupant : SizeT → Option SizeT
  destroyed : List SizeT

/-- What an event does to the elements. -/
def Elements.step (size : SizeT) (x : Elements) : Event ι V → Elements
  | .construct _ t _ =>
      { x with occupant := Function.update x.occupant (idx size t) (some t) }
  | .destruct _ t =>
      { x with destroyed := x.destroyed ++ (x.occupant (idx size t)).toList }
  | _ => x

/-- The elements after a trace. -/
def elements (size : SizeT) (tr : List (Event ι V)) : Elements :=
  tr.foldl (Elements.step size)
    { occupant := fun _ => none
      destroyed := [] }

/-- The ticket of the element that an event constructs. -/
def Event.construct? : Event ι V → Option SizeT
  | .construct _ t _ => some t
  | _ => none

/-- The elements constructed so far. -/
def constructed (tr : List (Event ι V)) : List SizeT :=
  tr.filterMap Event.construct?

/-- The indices of `slots_`. -/
def indices (size : SizeT) : List SizeT :=
  (List.range size.toNat).map (BitVec.ofNat 64)

/-- The elements that `~slot` destroys when it runs on all slots. -/
def leftover (size : SizeT) (q : Queue V) (x : Elements) : List SizeT :=
  (indices size).filterMap fun k =>
    if (q.slots k).Destroys then x.occupant k else none

theorem elements_append_singleton
    (tr : List (Event ι V)) (e : Event ι V) :
    elements size (tr ++ [e]) = (elements size tr).step size e := by
  rw [elements, List.foldl_append]
  rfl

theorem constructed_append_singleton
    (tr : List (Event ι V)) (e : Event ι V) :
    constructed (tr ++ [e]) = constructed tr ++ e.construct?.toList :=
  filterMap_append_singleton Event.construct? tr e

end Elements

section Invariant

variable {tr : List (Event ι V)} {q : Queue V}

/-- Who stored the sequence number of a slot. -/
inductive StoredBy (size : SizeT) (tr : List (Event ι V)) (k q : SizeT) : Prop
  | nobody (hq : q = 0)
  | producer (j : ι) (t : SizeT) (v : V)
      (he : .emplaceRelease j t v ∈ tr)
      (hk : idx size t = k)
      (hq : q = releaseTurn size t)
  | consumer (j : ι) (t : SizeT)
      (he : .popRelease j t ∈ tr)
      (hk : idx size t = k)
      (hq : q = releaseTurn size t + 1)

/-- How the slots and the elements in them follow the tickets. -/
structure Lifetimes
    (size : SizeT) (tr : List (Event ι V)) (q : Queue V) : Prop where
  parity : ∀ k, StoredBy size tr k (q.slots k).sequence
  occupied : ∀ k, (q.slots k).data ≠ .raw →
    ∃ t, idx size t = k ∧ 1 ≤ stage tr t ∧ stage tr t ≤ 3
  occupant : ∀ t, 1 ≤ stage tr t → stage tr t ≤ 3 →
    (elements size tr).occupant (idx size t) = some t
  inSlot : ∀ k t, (elements size tr).occupant k = some t → idx size t = k
  constructed : ∀ t, t ∈ constructed tr ↔ 1 ≤ stage tr t
  constructedNodup : (Mpmc.constructed tr).Nodup
  destroyed : ∀ t, t ∈ (elements size tr).destroyed ↔ 4 ≤ stage tr t
  destroyedNodup : (elements size tr).destroyed.Nodup

theorem StoredBy.append
    {k n : SizeT}
    (h : StoredBy size tr k n)
    (e : Event ι V) :
    StoredBy size (tr ++ [e]) k n := by
  cases h with
  | nobody hq =>
      exact .nobody hq
  | producer j t v he hk hq =>
      exact .producer j t v (List.mem_append_left _ he) hk hq
  | consumer j t he hk hq =>
      exact .consumer j t (List.mem_append_left _ he) hk hq

theorem setSlot_slots
    (q : Queue V) (t k : SizeT) (slot : Slot V) :
    (q.setSlot size t slot).slots k =
      if k = idx size t then slot else q.slots k := by
  by_cases hk : k = idx size t
  · simp [Queue.setSlot, hk]
  · simp [Queue.setSlot, hk]

/-- The sequence numbers after an event. -/
theorem parity_step
    {e : Event ι V}
    (h : ∀ k, StoredBy size tr k (q.slots k).sequence)
    (k : SizeT) :
    StoredBy size (tr ++ [e]) k ((e.effect size q).slots k).sequence := by
  have hold := (h k).append e
  cases e with
  | construct i t v =>
      rw [Event.effect, setSlot_slots]
      split
      next hk =>
        rw [Slot.construct_sequence, Queue.slotOf, ← hk]
        exact hold
      next =>
        exact hold
  | move i t x =>
      rw [Event.effect, setSlot_slots]
      split
      next hk =>
        rw [Slot.move_sequence, Queue.slotOf, ← hk]
        exact hold
      next =>
        exact hold
  | destruct i t =>
      rw [Event.effect, setSlot_slots]
      split
      next hk =>
        rw [Slot.destruct_sequence, Queue.slotOf, ← hk]
        exact hold
      next =>
        exact hold
  | emplaceRelease i t v =>
      rw [Event.effect, setSlot_slots]
      split
      next hk =>
        rw [Slot.store_sequence]
        exact .producer i t v (by simp) hk.symm rfl
      next =>
        exact hold
  | popRelease i t =>
      rw [Event.effect, setSlot_slots]
      split
      next hk =>
        rw [Slot.store_sequence]
        exact .consumer i t (by simp) hk.symm rfl
      next =>
        exact hold
  | _ =>
      exact hold

/-- A thread that works on the slot of a ticket is at the ticket's next operation. -/
theorem rank_of_local
    {e : Event ι V} {t : SizeT}
    (hlocal : Local size tr q e.actor e.source)
    (ht : e.slotTicket? = some t) :
    e.rank = stage tr t + 1 := by
  cases e with
  | construct i t' v =>
      obtain rfl : t' = t := Option.some.inj ht
      exact congrArg Nat.succ hlocal.2.1.symm
  | emplaceRelease i t' v =>
      obtain rfl : t' = t := Option.some.inj ht
      exact congrArg Nat.succ hlocal.2.symm
  | move i t' x =>
      obtain rfl : t' = t := Option.some.inj ht
      exact congrArg Nat.succ hlocal.2.symm
  | destruct i t' =>
      obtain rfl : t' = t := Option.some.inj ht
      exact congrArg Nat.succ hlocal.2.symm
  | popRelease i t' =>
      obtain rfl : t' = t := Option.some.inj ht
      exact congrArg Nat.succ hlocal.2.symm
  | _ =>
      cases ht

/-- The stage of a ticket after an event, by the rank of the event. -/
theorem stage_step
    {e : Event ι V}
    (hlocal : Local size tr q e.actor e.source)
    (t : SizeT) :
    e.slotTicket? = some t ∧ stage (tr ++ [e]) t = e.rank ∧
        stage tr t + 1 = e.rank ∨
      e.slotTicket? ≠ some t ∧ stage (tr ++ [e]) t = stage tr t := by
  by_cases ht : e.slotTicket? = some t
  · have hrank := rank_of_local hlocal ht
    exact Or.inl ⟨ht, (stage_append_of_slotTicket tr ht).trans hrank.symm,
      hrank.symm⟩
  · exact Or.inr ⟨ht, stage_append_of_ne tr ht⟩

theorem occupied_step
    {e : Event ι V}
    (hlocal : Local size tr q e.actor e.source)
    (h : ∀ k, (q.slots k).data ≠ .raw →
      ∃ t, idx size t = k ∧ 1 ≤ stage tr t ∧ stage tr t ≤ 3)
    (k : SizeT)
    (hk : ((e.effect size q).slots k).data ≠ .raw) :
    ∃ t, idx size t = k ∧ 1 ≤ stage (tr ++ [e]) t ∧
      stage (tr ++ [e]) t ≤ 3 := by
  -- An old ticket is still there unless the event takes it past its destruct.
  have hkeep : (q.slots k).data ≠ .raw →
      (∀ t, e.slotTicket? = some t → idx size t = k → e.rank ≤ 3 ∨ 5 ≤ e.rank) →
      ∃ t, idx size t = k ∧ 1 ≤ stage (tr ++ [e]) t ∧
        stage (tr ++ [e]) t ≤ 3 := by
    intro hold hrank
    obtain ⟨t, ht, hlow, hhigh⟩ := h k hold
    refine ⟨t, ht, ?_⟩
    rcases stage_step hlocal t with ⟨hslot, hnew, hbefore⟩ | ⟨-, hsame⟩
    · have := hrank t hslot ht
      omega
    · rw [hsame]
      exact ⟨hlow, hhigh⟩
  cases e with
  | construct i t v =>
      rw [Event.effect, setSlot_slots] at hk
      by_cases hidx : k = idx size t
      · refine ⟨t, hidx.symm, ?_⟩
        have hstage : stage tr t = 0 := hlocal.2.1
        rw [stage_append_of_slotTicket tr rfl, hstage]
        exact ⟨Nat.le_refl 1, by decide⟩
      · rw [if_neg hidx] at hk
        exact hkeep hk fun _ _ _ => Or.inl (by simp [Event.rank])
  | emplaceRelease i t v =>
      refine hkeep ?_ fun _ _ _ => Or.inl (by simp [Event.rank])
      rw [Event.effect, setSlot_slots] at hk
      split at hk
      next hidx => rwa [Slot.store_data, Queue.slotOf, ← hidx] at hk
      next => exact hk
  | move i t x =>
      refine hkeep ?_ fun _ _ _ => Or.inl (by simp [Event.rank])
      rw [Event.effect, setSlot_slots] at hk
      split at hk
      next hidx =>
        rw [Queue.slotOf, ← hidx] at hk
        intro hraw
        exact hk (by simp [Slot.move, hraw])
      next => exact hk
  | destruct i t =>
      rw [Event.effect, setSlot_slots] at hk
      by_cases hidx : k = idx size t
      · rw [if_pos hidx] at hk
        exact absurd rfl hk
      · rw [if_neg hidx] at hk
        refine hkeep hk fun t' ht' hk' => ?_
        obtain rfl : t = t' := Option.some.inj ht'
        exact absurd hk'.symm hidx
  | popRelease i t =>
      refine hkeep ?_ fun _ _ _ => Or.inr (by simp [Event.rank])
      rw [Event.effect, setSlot_slots] at hk
      split at hk
      next hidx => rwa [Slot.store_data, Queue.slotOf, ← hidx] at hk
      next => exact hk
  | _ =>
      exact hkeep hk fun _ ht _ => by cases ht

/-- Two tickets of one slot are not both between `construct` and `popRelease`. -/
theorem Global.notMem_slot
    (h : Global size tr q)
    {t t' : SizeT}
    (hturn : sequenceOf q size t = 2 * round size t)
    (hne : t' ≠ t)
    (hlow : 1 ≤ stage tr t')
    (hhigh : stage tr t' ≤ 4) :
    idx size t' ≠ idx size t := by
  intro hidx
  have hphase := (h.slot t').phase
  rw [sequenceOf_eq_of_idx q hidx, hturn] at hphase
  have hround : round size t' ≠ round size t :=
    fun hr => hne (ticket_eq_of_idx_of_round hidx hr)
  rcases hphase with hp | hp | hp | hp <;> omega

theorem lifetimes_construct
    {i : ι} {t : SizeT} {v : V}
    (hglobal : Global size tr q)
    (hlocal : Local size tr q i (.emplaceConstruct t v))
    (h : Lifetimes size tr q) :
    Lifetimes size (tr ++ [.construct i t v])
      (Event.effect size q (.construct i t v)) := by
  obtain ⟨howner, hstage, hturn⟩ := hlocal
  have hother : ∀ t', t' ≠ t →
      stage (tr ++ [.construct i t v]) t' = stage tr t' := by
    intro t' ht'
    refine stage_append_of_ne tr fun hslot => ht' ?_
    exact (Option.some.inj hslot).symm
  have hself : stage (tr ++ [.construct i t v]) t = 1 := by
    rw [stage_append_of_slotTicket tr rfl, hstage]
  have helements : elements size (tr ++ [.construct i t v]) =
      { elements size tr with
        occupant := Function.update (elements size tr).occupant
          (idx size t) (some t) } := by
    rw [elements_append_singleton]
    rfl
  have hconstructed : constructed (tr ++ [.construct i t v]) =
      constructed tr ++ [t] := by
    rw [constructed_append_singleton]
    rfl
  constructor
  · exact parity_step h.parity
  · exact occupied_step (e := .construct i t v) ⟨howner, hstage, hturn⟩ h.occupied
  · intro t' hlow hhigh
    rw [helements]
    by_cases ht' : t' = t
    · subst ht'
      exact Function.update_self ..
    · rw [hother t' ht'] at hlow hhigh
      have hidx := hglobal.notMem_slot hturn ht' hlow (Nat.le_succ_of_le hhigh)
      exact (Function.update_of_ne hidx _ _).trans (h.occupant t' hlow hhigh)
  · intro k t' hk
    rw [helements] at hk
    by_cases hidx : k = idx size t
    · subst hidx
      simp only [Function.update_self, Option.some.injEq] at hk
      rw [hk]
    · simp only [Function.update_of_ne hidx] at hk
      exact h.inSlot k t' hk
  · intro t'
    rw [hconstructed, List.mem_append, List.mem_singleton, h.constructed]
    by_cases ht' : t' = t
    · subst ht'
      simp [hself]
    · simp [hother t' ht', ht']
  · rw [hconstructed, List.nodup_append]
    refine ⟨h.constructedNodup, by simp, ?_⟩
    intro a ha b hb hab
    obtain rfl := List.mem_singleton.mp hb
    have hpos := (h.constructed a).mp ha
    rw [hab, hstage] at hpos
    exact absurd hpos (by decide)
  · intro t'
    rw [helements]
    refine (h.destroyed t').trans ?_
    by_cases ht' : t' = t
    · subst ht'
      omega
    · rw [hother t' ht']
  · rw [helements]
    exact h.destroyedNodup

theorem lifetimes_destruct
    {i : ι} {t : SizeT}
    (hlocal : Local size tr q i (.popDestruct t))
    (h : Lifetimes size tr q) :
    Lifetimes size (tr ++ [.destruct i t])
      (Event.effect size q (.destruct i t)) := by
  obtain ⟨howner, hstage⟩ := hlocal
  have hother : ∀ t', t' ≠ t →
      stage (tr ++ [.destruct i t]) t' = stage tr t' := by
    intro t' ht'
    refine stage_append_of_ne tr fun hslot => ht' ?_
    exact (Option.some.inj hslot).symm
  have hself : stage (tr ++ [.destruct i t]) t = 4 := by
    rw [stage_append_of_slotTicket tr rfl, hstage]
  have helements : elements size (tr ++ [.destruct i t]) =
      { elements size tr with
        destroyed := (elements size tr).destroyed ++ [t] } := by
    rw [elements_append_singleton, Elements.step,
      h.occupant t (by omega) (by omega)]
    rfl
  have hconstructed : constructed (tr ++ [.destruct i t]) = constructed tr := by
    rw [constructed_append_singleton]
    exact List.append_nil _
  constructor
  · exact parity_step h.parity
  · exact occupied_step (e := .destruct i t) ⟨howner, hstage⟩ h.occupied
  · intro t' hlow hhigh
    rw [helements]
    have ht' : t' ≠ t := by
      intro heq
      subst heq
      omega
    rw [hother t' ht'] at hlow hhigh
    exact h.occupant t' hlow hhigh
  · intro k t' hk
    rw [helements] at hk
    exact h.inSlot k t' hk
  · intro t'
    rw [hconstructed, h.constructed]
    by_cases ht' : t' = t
    · subst ht'
      omega
    · rw [hother t' ht']
  · rw [hconstructed]
    exact h.constructedNodup
  · intro t'
    rw [helements, List.mem_append, List.mem_singleton, h.destroyed]
    by_cases ht' : t' = t
    · subst ht'
      simp [hself]
    · simp [hother t' ht', ht']
  · rw [helements, List.nodup_append]
    refine ⟨h.destroyedNodup, by simp, ?_⟩
    intro a ha b hb hab
    obtain rfl := List.mem_singleton.mp hb
    have hpos := (h.destroyed a).mp ha
    rw [hab, hstage] at hpos
    exact absurd hpos (by decide)

/-- The other events neither construct nor destroy an element. -/
theorem lifetimes_other
    {e : Event ι V}
    (hlocal : Local size tr q e.actor e.source)
    (helements : elements size (tr ++ [e]) = elements size tr)
    (hconstructed : constructed (tr ++ [e]) = constructed tr)
    (hrank : ∀ t, e.slotTicket? = some t →
      e.rank = 2 ∨ e.rank = 3 ∨ e.rank = 5)
    (h : Lifetimes size tr q) :
    Lifetimes size (tr ++ [e]) (e.effect size q) := by
  have hstage := stage_step (e := e) hlocal
  constructor
  · exact parity_step h.parity
  · exact occupied_step hlocal h.occupied
  · intro t hlow hhigh
    rw [helements]
    rcases hstage t with ⟨hslot, hnew, hold⟩ | ⟨-, hsame⟩
    · have := hrank t hslot
      exact h.occupant t (by omega) (by omega)
    · rw [hsame] at hlow hhigh
      exact h.occupant t hlow hhigh
  · rw [helements]
    exact h.inSlot
  · intro t
    rw [hconstructed, h.constructed]
    rcases hstage t with ⟨hslot, hnew, hold⟩ | ⟨-, hsame⟩
    · have := hrank t hslot
      omega
    · rw [hsame]
  · rw [hconstructed]
    exact h.constructedNodup
  · intro t
    rw [helements, h.destroyed]
    rcases hstage t with ⟨hslot, hnew, hold⟩ | ⟨-, hsame⟩
    · have := hrank t hslot
      omega
    · rw [hsame]
  · rw [helements]
    exact h.destroyedNodup

theorem Lifetimes.step
    {e : Event ι V}
    (hglobal : Global size tr q)
    (hlocal : Local size tr q e.actor e.source)
    (h : Lifetimes size tr q) :
    Lifetimes size (tr ++ [e]) (e.effect size q) := by
  cases e with
  | construct i t v =>
      exact lifetimes_construct hglobal hlocal h
  | destruct i t =>
      exact lifetimes_destruct hlocal h
  | _ =>
      refine lifetimes_other hlocal ?_ ?_ ?_ h
      · rw [elements_append_singleton]
        rfl
      · rw [constructed_append_singleton]
        exact List.append_nil _
      · intro t ht
        cases ht <;> simp [Event.rank]

theorem lifetimes_of_run
    [DecidableEq ι]
    {s : Config ι (Pc V) (Queue V)}
    (hrun : (Mpmc.queue size).Run tr s)
    (hfew : FewTickets tr) :
    Lifetimes size tr s.shared := by
  refine hrun.invariant
    (I := fun tr s => FewTickets tr → Lifetimes size tr s.shared) ?_ ?_ hfew
  · intro s hinit _
    obtain ⟨hshared, -⟩ := hinit
    rw [hshared]
    constructor
    · intro k
      exact .nobody rfl
    · intro k hk
      exact absurd rfl hk
    · intro t hlow _
      exact absurd hlow (by simp)
    · intro k t hk
      cases hk
    · intro t
      simp [constructed]
    · exact List.nodup_nil
    · intro t
      simp [elements]
    · exact List.nodup_nil
  · intro tr s e hrun ih hguard hfew
    obtain ⟨hglobal, hlocal⟩ := outline_of_run hrun hfew.of_append
    have hactor := (hlocal e.actor).1
    rw [show s.pc e.actor = e.source from hguard.1] at hactor
    exact (ih hfew.of_append).step hglobal hactor

end Invariant

section Idle

variable {tr : List (Event ι V)} {q : Queue V}

/-- No call is in progress. -/
structure Idle (size : SizeT) (tr : List (Event ι V)) (q : Queue V) : Prop where
  few : FewTickets tr
  outline : Global size tr q
  lifetimes : Lifetimes size tr q
  accounted : ∀ i, Accounted tr i (.idle : Pc V)

/-- Every ticket is untouched, holds an element, or is finished. -/
theorem Idle.stage_cases
    (h : Idle size tr q) (t : SizeT) :
    stage tr t = 0 ∨ stage tr t = 2 ∨ stage tr t = 5 := by
  have hphase := (h.outline.slot t).phase
  simp only [InPhase] at hphase
  have hproduced : 1 ≤ stage tr t → 2 ≤ stage tr t := by
    intro hpos
    obtain ⟨i, v, howner⟩ := (mem_emplaceTickets_iff tr t).mp
      ((h.outline.slot t).issued hpos)
    exact ((h.accounted i).1 t v howner).resolve_right (by simp [Pc.emplaceHeld?])
  have hconsumed : 3 ≤ stage tr t → 5 ≤ stage tr t := by
    intro hpos
    obtain ⟨i, howner⟩ := (mem_popTickets_iff tr t).mp
      ((h.outline.slot t).drawn hpos)
    exact ((h.accounted i).2 t howner).resolve_right (by simp [Pc.popHeld?])
  omega

/-- The tickets of finished operations are small. -/
theorem Idle.round_lt
    (h : Idle size tr q)
    {t : SizeT}
    (ht : 1 ≤ stage tr t) :
    2 * round size t + 2 < 2 ^ 64 := by
  obtain ⟨i, v, howner⟩ := (mem_emplaceTickets_iff tr t).mp
    ((h.outline.slot t).issued ht)
  have hsmall := h.outline.tickets.emplaceTicket_lt h.few howner
  have hle := round_le size t
  omega

theorem Idle.destroys_of_stage
    (h : Idle size tr q)
    {t : SizeT}
    (ht : stage tr t = 2) :
    (q.slots (idx size t)).Destroys := by
  have hsequence := h.outline.sequence_of_stage_two_to_four (t := t)
    (by omega) (by omega)
  rw [Slot.destroys_iff]
  change sequenceOf q size t % 2 = 1
  omega

theorem Idle.stage_of_destroys
    (h : Idle size tr q)
    {k : SizeT}
    (hk : (q.slots k).Destroys) :
    ∃ t, idx size t = k ∧ stage tr t = 2 := by
  rw [Slot.destroys_iff] at hk
  cases h.lifetimes.parity k with
  | nobody hq =>
      rw [hq] at hk
      simp at hk
  | producer j t v he hidx hq =>
      have hrank : 2 ≤ stage tr t := (h.outline.slot t).rank_le_stage he rfl
      have hround := h.round_lt (t := t) (by omega)
      have hrelease : (releaseTurn size t).toNat = 2 * round size t + 1 :=
        releaseTurn_toNat (by omega)
      have hsequence : sequenceOf q size t = 2 * round size t + 1 := by
        rw [sequenceOf, Queue.slotOf, hidx, hq, hrelease]
      have hphase := (h.outline.slot t).phase
      simp only [InPhase] at hphase
      have := h.stage_cases t
      exact ⟨t, hidx, by omega⟩
  | consumer j t he hidx hq =>
      have hrank : 5 ≤ stage tr t := (h.outline.slot t).rank_le_stage he rfl
      have hround := h.round_lt (t := t) (by omega)
      have hrelease : (releaseTurn size t + 1).toNat = 2 * round size t + 2 :=
        releaseTurn_succ_toNat (by omega)
      rw [hq, hrelease] at hk
      omega

theorem Idle.raw_of_not_destroys
    (h : Idle size tr q)
    {k : SizeT}
    (hk : ¬ (q.slots k).Destroys) :
    (q.slots k).data = .raw := by
  by_contra hdata
  obtain ⟨t, rfl, hlow, hhigh⟩ := h.lifetimes.occupied k hdata
  have := h.stage_cases t
  exact hk (h.destroys_of_stage (by omega))

theorem Idle.live_of_stage
    (h : Idle size tr q)
    {t : SizeT}
    (ht : stage tr t = 2) :
    ∃ v, (q.slots (idx size t)).data = .live v := by
  obtain ⟨-, v, -, -, hdata⟩ := (h.outline.slot t).filled (Or.inr ht)
  exact ⟨v, hdata⟩

theorem idx_mem_indices
    (hsize : 0 < size.toNat) (t : SizeT) :
    idx size t ∈ indices size := by
  refine List.mem_map.mpr ⟨(idx size t).toNat, ?_, by simp⟩
  rw [List.mem_range, idx, BitVec.toNat_umod]
  exact Nat.mod_lt _ hsize

theorem indices_nodup (size : SizeT) :
    (indices size).Nodup := by
  refine List.Nodup.map_on ?_ List.nodup_range
  intro a ha b hb hab
  have hsize := size.isLt
  rw [List.mem_range] at ha hb
  have htoNat := congrArg BitVec.toNat hab
  simp only [BitVec.toNat_ofNat] at htoNat
  rwa [Nat.mod_eq_of_lt (by omega), Nat.mod_eq_of_lt (by omega)] at htoNat

/-- `~slot` destroys the elements whose tickets were released and not drawn. -/
theorem Idle.mem_leftover
    (hsize : 0 < size.toNat)
    (h : Idle size tr q) (t : SizeT) :
    t ∈ leftover size q (elements size tr) ↔ stage tr t = 2 := by
  rw [leftover, List.mem_filterMap]
  constructor
  · intro hmem
    obtain ⟨k, -, hk⟩ := hmem
    by_cases hdestroys : (q.slots k).Destroys
    · rw [if_pos hdestroys] at hk
      obtain ⟨t', hidx, hstage⟩ := h.stage_of_destroys hdestroys
      have hoccupant := h.lifetimes.occupant t' (by omega) (by omega)
      rw [hidx, hk] at hoccupant
      rwa [Option.some.inj hoccupant]
    · rw [if_neg hdestroys] at hk
      cases hk
  · intro hstage
    refine ⟨idx size t, idx_mem_indices hsize t, ?_⟩
    rw [if_pos (h.destroys_of_stage hstage)]
    exact h.lifetimes.occupant t (by omega) (by omega)

theorem Idle.leftover_nodup
    (h : Idle size tr q) :
    (leftover size q (elements size tr)).Nodup := by
  refine (indices_nodup size).filterMap ?_
  intro a b t ha hb
  rw [Option.mem_def] at ha hb
  split at ha
  · split at hb
    · rw [← h.lifetimes.inSlot a t ha]
      exact h.lifetimes.inSlot b t hb
    · cases hb
  · cases ha

/-- A ticket whose element was constructed and not moved out holds it. -/
theorem Idle.stage_eq_two_iff
    (h : Idle size tr q) (t : SizeT) :
    stage tr t = 2 ↔ t ∈ constructed tr ∧ ∀ i x, .move i t x ∉ tr := by
  rw [h.lifetimes.constructed]
  constructor
  · intro hstage
    refine ⟨by omega, fun i x hmem => ?_⟩
    have hrank : 3 ≤ stage tr t := (h.outline.slot t).rank_le_stage hmem rfl
    omega
  · intro hheld
    obtain ⟨hpos, hmove⟩ := hheld
    rcases h.stage_cases t with hstage | hstage | hstage
    · omega
    · exact hstage
    · obtain ⟨e, he, hslot, hrank⟩ :=
        (h.outline.slot t).exists_of_le_stage (k := 3) (by omega) (by omega)
      cases e <;> simp [Event.rank] at hrank
      case move i t' x =>
        obtain rfl : t' = t := Option.some.inj hslot
        exact absurd he (hmove i x)

end Idle

section Balance

variable [DecidableEq ι] {tr : List (Event ι V)}

/-- The slot of a ticket after a trace. -/
def slotAfter (size : SizeT) (es : List (Event ι V)) (t : SizeT) : Slot V :=
  ((queue size).exec start es).shared.slotOf size t

/-- Placement new and destructor calls alternate on every slot. -/
structure Alternates (size : SizeT) (tr : List (Event ι V)) : Prop where
  constructs : ∀ es fs j t v, tr = es ++ Event.construct j t v :: fs →
    (slotAfter size es t).data = .raw
  moves : ∀ es fs i t x, tr = es ++ Event.move i t x :: fs →
    ∃ v, (slotAfter size es t).data = .live v
  destructs : ∀ es fs i t, tr = es ++ Event.destruct i t :: fs →
    (slotAfter size es t).data = .movedFrom

omit [DecidableEq ι] in
/-- What the destruction of the queue does to the elements. -/
structure Balances (size : SizeT) (tr : List (Event ι V)) (q : Queue V) :
    Prop where
  destroys : ∀ k ∈ indices size,
    (q.slots k).Destroys ↔ ∃ v, (q.slots k).data = .live v
  raw : ∀ k ∈ indices size, (q.slots k).destructor.data = .raw
  nodup : (constructed tr).Nodup
  once : (constructed tr).Perm
    ((elements size tr).destroyed ++ leftover size q (elements size tr))
  leftover : ∀ t, t ∈ leftover size q (elements size tr) ↔
    t ∈ constructed tr ∧ ∀ i x, .move i t x ∉ tr

/--
`construct` finds raw storage, `move` and `destruct` find an element, and when
no call is in progress `~slot` destroys exactly the elements that were pushed
and not popped, so that every element is destroyed once.
-/
theorem mpmc_lifetimes
    (hsize : 0 < size.toNat)
    {s : Config ι (Pc V) (Queue V)}
    (hrun : (queue size).Run tr s)
    (hfew : FewTickets tr) :
    Alternates size tr ∧
      ((∀ i, s.pc i = .idle) → Balances size tr s.shared) := by
  constructor
  · constructor
    · rintro es fs j t v rfl
      obtain ⟨hglobal, ⟨-, hstage, hturn⟩, -⟩ := outline_before hrun hfew
      exact (hglobal.slot t).empty hturn hstage
    · rintro es fs i t x rfl
      obtain ⟨hglobal, ⟨-, hstage⟩, -⟩ := outline_before hrun hfew
      obtain ⟨-, v, -, -, hdata⟩ := (hglobal.slot t).filled (Or.inr hstage)
      exact ⟨v, hdata⟩
    · rintro es fs i t rfl
      obtain ⟨hglobal, ⟨-, hstage⟩, -⟩ := outline_before hrun hfew
      exact (hglobal.slot t).moved hstage
  · intro hidle
    obtain ⟨hglobal, hlocal⟩ := outline_of_run hrun hfew
    have h : Idle size tr s.shared :=
      { few := hfew
        outline := hglobal
        lifetimes := lifetimes_of_run hrun hfew
        accounted := fun i => hidle i ▸ (hlocal i).2 }
    constructor
    · intro k _
      constructor
      · intro hk
        obtain ⟨t, rfl, hstage⟩ := h.stage_of_destroys hk
        exact h.live_of_stage hstage
      · intro hk
        obtain ⟨v, hdata⟩ := hk
        by_contra hnot
        rw [h.raw_of_not_destroys hnot] at hdata
        cases hdata
    · intro k _
      by_cases hk : (s.shared.slots k).Destroys
      · rw [Slot.destructor, if_pos hk]
        rfl
      · rw [Slot.destructor, if_neg hk]
        exact h.raw_of_not_destroys hk
    · exact h.lifetimes.constructedNodup
    · have hnodup : ((elements size tr).destroyed ++
          Mpmc.leftover size s.shared (elements size tr)).Nodup := by
        rw [List.nodup_append]
        refine ⟨h.lifetimes.destroyedNodup, h.leftover_nodup, ?_⟩
        intro a ha b hb hab
        rw [h.lifetimes.destroyed] at ha
        rw [h.mem_leftover hsize, ← hab] at hb
        omega
      refine (List.perm_ext_iff_of_nodup h.lifetimes.constructedNodup hnodup).mpr ?_
      intro t
      rw [List.mem_append, h.lifetimes.constructed, h.lifetimes.destroyed,
        h.mem_leftover hsize]
      have := h.stage_cases t
      omega
    · intro t
      rw [h.mem_leftover hsize]
      exact h.stage_eq_two_iff t

/-- Two elements are pushed and one is popped. -/
def leaveOne : List (Event Bool Nat) :=
  [.callEmplace false 7, .emplaceTicket false 0 7, .emplaceAcquire false 0 7,
    .construct false 0 7, .callEmplace true 8, .emplaceTicket true 1 8,
    .emplaceAcquire true 1 8, .emplaceRelease false 0 7, .construct true 1 8,
    .callTryPop false, .emplaceRelease true 1 8, .tryPopLoad false 0,
    .tryPopSeen false 0, .tryPopCas false 0, .move false 0 (some 7),
    .destruct false 0, .popRelease false 0]

theorem mpmc_lifetimes_leaveOne :
    Alternates 2 leaveOne ∧
      Balances 2 leaveOne ((queue 2).exec start leaveOne).shared := by
  have hrun : (queue 2).Run leaveOne ((queue 2).exec start leaveOne) :=
    System.Run.of_enabled initial_start (by decide +kernel)
  obtain ⟨halternates, hbalances⟩ :=
    mpmc_lifetimes (by decide) hrun (by decide)
  exact ⟨halternates, hbalances (by decide +kernel)⟩

end Balance

end Mpmc
end Ptl

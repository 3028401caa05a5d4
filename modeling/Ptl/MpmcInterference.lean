import Ptl.MpmcOutline

/-!
# The MPMC queue keeps its proof outline

The three obligations of the outline rule for the assertions of `MpmcOutline`:
every step keeps the global assertion, establishes the assertion at its target
and does not interfere with the assertions of other threads.  A slot operation
on another ticket of the same slot cannot disturb a ticket whose turn it is,
because two rounds of one slot never share a sequence number.

`outline_of_run` is the resulting invariant of every run with fewer than
`2 ^ 63` tickets.
-/

namespace Ptl
namespace Mpmc

open Transition

universe u v

variable {ι : Type u} {V : Type v}
variable {size : SizeT}

section GlobalAssertion

/-- A step that neither draws a ticket nor changes a slot. -/
theorem Global.silent
    {tr : List (Event ι V)} {q : Queue V} {e : Event ι V}
    (h : Global size tr q)
    (hemplace : e.emplaceTicket? = none)
    (hpop : e.popTicket? = none)
    (hslot : e.slotTicket? = none) :
    Global size (tr ++ [e]) q where
  tickets := h.tickets.keep hemplace hpop rfl rfl
  slot := fun t => (h.slot t).frame (by simp [hslot]) rfl

/-- A step that draws a ticket. -/
theorem Global.draw
    {tr : List (Event ι V)} {q q' : Queue V} {e : Event ι V}
    (h : Global size tr q)
    (htickets : TicketFacts (tr ++ [e]) q')
    (hslot : e.slotTicket? = none)
    (hslots : q'.slots = q.slots) :
    Global size (tr ++ [e]) q' where
  tickets := htickets
  slot := fun t => (h.slot t).frame (by simp [hslot])
    (by simp [Queue.slotOf, hslots])

/-- A slot operation on the ticket whose turn it is. -/
theorem Global.slotOperation
    {tr : List (Event ι V)} {q : Queue V} {e : Event ι V}
    {t₀ : SizeT} {slot : Slot V}
    (h : Global size tr q)
    (hemplace : e.emplaceTicket? = none)
    (hpop : e.popTicket? = none)
    (he : e.slotTicket? = some t₀)
    (hcurrent : sequenceOf q size t₀ / 2 = round size t₀)
    (hseq : slot.sequence.toNat = sequenceOf q size t₀ ∨
      slot.sequence.toNat = sequenceOf q size t₀ + 1)
    (hraw : slot.sequence.toNat = 2 * round size t₀ + 2 →
      slot.data = .raw)
    (hslot : TicketSlot size (tr ++ [e]) (q.setSlot size t₀ slot) t₀) :
    Global size (tr ++ [e]) (q.setSlot size t₀ slot) where
  tickets := h.tickets.keep hemplace hpop rfl rfl
  slot := by
    intro t
    by_cases ht : t = t₀
    · rw [ht]
      exact hslot
    · by_cases hidx : idx size t = idx size t₀
      · exact (h.slot t).sameSlot he ht hidx hcurrent hseq hraw
      · have hne : e.slotTicket? ≠ some t := by
          rw [he]
          intro h'
          exact ht (Option.some.inj h').symm
        exact (h.slot t).frame hne
          (Queue.slotOf_setSlot_of_idx_ne q slot hidx)

/-- The sequence number at which the producer of a ticket works. -/
theorem Global.sequence_of_stage_one
    {tr : List (Event ι V)} {q : Queue V} {t : SizeT}
    (h : Global size tr q)
    (hstage : stage tr t = 1) :
    sequenceOf q size t = 2 * round size t := by
  have hphase := (h.slot t).phase
  simp only [InPhase] at hphase
  omega

/-- The sequence number at which the consumer of a ticket works. -/
theorem Global.sequence_of_stage_two_to_four
    {tr : List (Event ι V)} {q : Queue V} {t : SizeT}
    (h : Global size tr q)
    (hlow : 2 ≤ stage tr t)
    (hhigh : stage tr t ≤ 4) :
    sequenceOf q size t = 2 * round size t + 1 := by
  have hphase := (h.slot t).phase
  simp only [InPhase] at hphase
  omega

/-- Tickets not yet drawn from `head_` have no slot operation behind them. -/
theorem Global.stage_eq_zero_of_head_le
    {tr : List (Event ι V)} {q : Queue V} {t : SizeT}
    (h : Global size tr q)
    (ht : q.head.toNat ≤ t.toNat) :
    stage tr t = 0 := by
  by_contra hne
  have hlt := (h.tickets.emplaceIssued t).1
    ((h.slot t).issued (by omega))
  omega

/-- Tickets not yet drawn from `tail_` have not been moved out. -/
theorem Global.stage_le_two_of_tail_le
    {tr : List (Event ι V)} {q : Queue V} {t : SizeT}
    (h : Global size tr q)
    (ht : q.tail.toNat ≤ t.toNat) :
    stage tr t ≤ 2 := by
  by_contra hne
  have hlt := (h.tickets.popIssued t).1
    ((h.slot t).drawn (by omega))
  omega

/-- First obligation: every step keeps the global assertion. -/
theorem global_step
    {tr : List (Event ι V)} {q : Queue V} {e : Event ι V}
    (hfew : FewTickets (tr ++ [e]))
    (h : Global size tr q)
    (hlocal : Local size tr q e.actor e.source)
    (hcheck : e.check size q) :
    Global size (tr ++ [e]) (e.effect size q) := by
  have hfew₀ : FewTickets tr := hfew.of_append
  cases e with
  | emplaceTicket i t v =>
      obtain rfl : t = q.head := hcheck
      exact h.draw (h.tickets.drawHead i v (h.tickets.head_lt hfew₀)) rfl rfl
  | popTicket i t =>
      obtain rfl : t = q.tail := hcheck
      exact h.draw
        (h.tickets.drawTail rfl rfl (h.tickets.tail_lt hfew₀)) rfl rfl
  | tryPopCas i t =>
      obtain rfl : t = q.tail := hcheck
      exact h.draw
        (h.tickets.drawTail rfl rfl (h.tickets.tail_lt hfew₀)) rfl rfl
  | construct i t v =>
      obtain ⟨howner, hstage, hturn⟩ := hlocal
      refine h.slotOperation rfl rfl rfl (by omega) (Or.inl rfl) ?_
        ((h.slot t).construct howner hstage hturn)
      intro hs
      have hsame : sequenceOf q size t = 2 * round size t + 2 := hs
      omega
  | emplaceRelease i t v =>
      obtain ⟨howner, hstage⟩ := hlocal
      have hsmall := h.tickets.emplaceTicket_lt hfew₀ howner
      have hturn := h.sequence_of_stage_one hstage
      have hle := round_le size t
      have hrelease : (releaseTurn size t).toNat = 2 * round size t + 1 :=
        releaseTurn_toNat (by omega)
      refine h.slotOperation rfl rfl rfl (by omega) (Or.inr ?_) ?_
        ((h.slot t).emplaceRelease hsmall hstage)
      · rw [Slot.store_sequence, hrelease, hturn]
      · intro hs
        rw [Slot.store_sequence, hrelease] at hs
        omega
  | move i t x =>
      obtain ⟨howner, hstage⟩ := hlocal
      have hturn := h.sequence_of_stage_two_to_four
        (t := t) (by omega) (by omega)
      refine h.slotOperation rfl rfl rfl (by omega) (Or.inl ?_) ?_
        ((h.slot t).move howner hstage)
      · rw [Slot.move_sequence, sequenceOf]
      · intro hs
        rw [Slot.move_sequence] at hs
        change sequenceOf q size t = 2 * round size t + 2 at hs
        omega
  | destruct i t =>
      obtain ⟨howner, hstage⟩ := hlocal
      have hturn := h.sequence_of_stage_two_to_four
        (t := t) (by omega) (by omega)
      exact h.slotOperation rfl rfl rfl (by omega) (Or.inl rfl)
        (fun _ => rfl) ((h.slot t).destruct hstage)
  | popRelease i t =>
      obtain ⟨howner, hstage⟩ := hlocal
      have hsmall := h.tickets.popTicket_lt hfew₀ howner
      have hturn := h.sequence_of_stage_two_to_four
        (t := t) (by omega) (by omega)
      have hle := round_le size t
      have hrelease :
          (releaseTurn size t + 1).toNat = 2 * round size t + 2 :=
        releaseTurn_succ_toNat (by omega)
      refine h.slotOperation rfl rfl rfl (by omega) (Or.inr ?_) ?_
        ((h.slot t).popRelease hsmall hstage)
      · rw [Slot.store_sequence, hrelease, hturn]
      · intro _
        rw [Slot.store_data]
        exact (h.slot t).destructed hstage
  | callEmplace i v =>
      exact h.silent rfl rfl rfl
  | emplaceWait i t v =>
      exact h.silent rfl rfl rfl
  | emplaceAcquire i t v =>
      exact h.silent rfl rfl rfl
  | callPop i =>
      exact h.silent rfl rfl rfl
  | popWait i t =>
      exact h.silent rfl rfl rfl
  | popAcquire i t =>
      exact h.silent rfl rfl rfl
  | callTryPop i =>
      exact h.silent rfl rfl rfl
  | tryPopLoad i t =>
      exact h.silent rfl rfl rfl
  | tryPopSeen i t =>
      exact h.silent rfl rfl rfl
  | tryPopMissed i t =>
      exact h.silent rfl rfl rfl
  | tryPopCasFail i t loaded =>
      exact h.silent rfl rfl rfl
  | tryPopRetry i prev loaded =>
      exact h.silent rfl rfl rfl
  | tryPopFalse i prev =>
      exact h.silent rfl rfl rfl

end GlobalAssertion

section LocalAssertion

/-- A passed producer check means that it is the producer's turn. -/
theorem sequence_of_acquired
    {q : Queue V} {t : SizeT}
    (hsmall : t.toNat < 2 ^ 63)
    (hcheck : acquireTurn size t = (q.slotOf size t).sequence) :
    sequenceOf q size t = 2 * round size t := by
  have hle := round_le size t
  rw [sequenceOf, ← hcheck]
  exact acquireTurn_toNat (by omega)

/-- A passed consumer check means that it is the consumer's turn. -/
theorem sequence_of_released
    {q : Queue V} {t : SizeT}
    (hsmall : t.toNat < 2 ^ 63)
    (hcheck : releaseTurn size t = (q.slotOf size t).sequence) :
    sequenceOf q size t = 2 * round size t + 1 := by
  have hle := round_le size t
  rw [sequenceOf, ← hcheck]
  exact releaseTurn_toNat (by omega)

/-- At the consumer's turn a ticket that is not moved out is ready for it. -/
theorem Global.stage_eq_two
    {tr : List (Event ι V)} {q : Queue V} {t : SizeT}
    (h : Global size tr q)
    (hturn : sequenceOf q size t = 2 * round size t + 1)
    (hle : stage tr t ≤ 2) :
    stage tr t = 2 := by
  have hphase := (h.slot t).phase
  simp only [InPhase] at hphase
  omega

/-- Second obligation: every step establishes the assertion at its target. -/
theorem local_step
    {tr : List (Event ι V)} {q : Queue V} {e : Event ι V}
    (hfew : FewTickets (tr ++ [e]))
    (h : Global size tr q)
    (hlocal : Local size tr q e.actor e.source)
    (hcheck : e.check size q) :
    Local size (tr ++ [e]) (e.effect size q) e.actor e.target := by
  have hfew₀ : FewTickets tr := hfew.of_append
  cases e with
  | callEmplace i v =>
      trivial
  | emplaceTicket i t v =>
      obtain rfl : t = q.head := hcheck
      refine ⟨List.mem_append_right _ (List.mem_singleton_self _), ?_⟩
      rw [stage_append_of_ne tr (by simp [Event.slotTicket?])]
      exact h.stage_eq_zero_of_head_le (le_refl _)
  | emplaceWait i t v =>
      obtain ⟨howner, hstage⟩ := hlocal
      refine ⟨List.mem_append_left _ howner, ?_⟩
      rw [stage_append_of_ne tr (by simp [Event.slotTicket?])]
      exact hstage
  | emplaceAcquire i t v =>
      obtain ⟨howner, hstage⟩ := hlocal
      refine ⟨List.mem_append_left _ howner, ?_, ?_⟩
      · rw [stage_append_of_ne tr (by simp [Event.slotTicket?])]
        exact hstage
      · exact sequence_of_acquired
          (Nat.lt_of_succ_lt (h.tickets.emplaceTicket_lt hfew₀ howner)) hcheck
  | construct i t v =>
      obtain ⟨howner, hstage, -⟩ := hlocal
      refine ⟨List.mem_append_left _ howner, ?_⟩
      rw [stage_append_of_slotTicket tr rfl, hstage]
  | emplaceRelease i t v =>
      trivial
  | callPop i =>
      trivial
  | popTicket i t =>
      obtain rfl : t = q.tail := hcheck
      refine ⟨Or.inl (List.mem_append_right _ (List.mem_singleton_self _)), ?_⟩
      rw [stage_append_of_ne tr (by simp [Event.slotTicket?])]
      exact h.stage_le_two_of_tail_le (le_refl _)
  | popWait i t =>
      obtain ⟨howner, hstage⟩ := hlocal
      refine ⟨howner.append _, ?_⟩
      rw [stage_append_of_ne tr (by simp [Event.slotTicket?])]
      exact hstage
  | popAcquire i t =>
      obtain ⟨howner, hstage⟩ := hlocal
      have hsmall := h.tickets.popTicket_lt hfew₀ howner
      have hturn : sequenceOf q size t = 2 * round size t + 1 :=
        sequence_of_released (by omega) hcheck
      refine ⟨howner.append _, ?_⟩
      rw [stage_append_of_ne tr (by simp [Event.slotTicket?])]
      exact h.stage_eq_two hturn hstage
  | move i t x =>
      obtain ⟨howner, hstage⟩ := hlocal
      refine ⟨howner.append _, ?_⟩
      rw [stage_append_of_slotTicket tr rfl, hstage]
  | destruct i t =>
      obtain ⟨howner, hstage⟩ := hlocal
      refine ⟨howner.append _, ?_⟩
      rw [stage_append_of_slotTicket tr rfl, hstage]
  | popRelease i t =>
      trivial
  | callTryPop i =>
      trivial
  | tryPopLoad i t =>
      obtain rfl : t = q.tail := hcheck
      exact le_refl _
  | tryPopSeen i t =>
      have hle : t.toNat ≤ q.tail.toNat := hlocal
      have htail := h.tickets.tail_lt hfew₀
      exact ⟨hle, fun _ => sequence_of_released (by omega) hcheck⟩
  | tryPopMissed i t =>
      exact hlocal
  | tryPopCas i t =>
      obtain rfl : t = q.tail := hcheck
      obtain ⟨-, hturn⟩ := hlocal
      refine ⟨Or.inr (List.mem_append_right _ (List.mem_singleton_self _)), ?_⟩
      rw [stage_append_of_ne tr (by simp [Event.slotTicket?])]
      exact h.stage_eq_two (hturn rfl)
        (h.stage_le_two_of_tail_le (le_refl _))
  | tryPopCasFail i t loaded =>
      obtain ⟨rfl, -⟩ := hcheck
      exact le_refl _
  | tryPopRetry i prev loaded =>
      obtain ⟨rfl, -⟩ := hcheck
      exact le_refl _
  | tryPopFalse i prev =>
      trivial

/-- What a step does to the tickets held by its own thread. -/
theorem Accounted.advance
    {tr : List (Event ι V)} {e : Event ι V} {p p' : Pc V} {i : ι}
    (h : Accounted tr i p)
    (hemplace : ∀ t, p.emplaceHeld? = some t →
      2 ≤ stage (tr ++ [e]) t ∨ p'.emplaceHeld? = some t)
    (hpop : ∀ t, p.popHeld? = some t →
      5 ≤ stage (tr ++ [e]) t ∨ p'.popHeld? = some t)
    (hnewEmplace : ∀ t v, e = .emplaceTicket i t v →
      p'.emplaceHeld? = some t)
    (hnewPop : ∀ t, e.popTicket? = some t → e.actor = i →
      p'.popHeld? = some t) :
    Accounted (tr ++ [e]) i p' := by
  constructor
  · intro t v ht
    rcases (emplaceTicket_mem_append_iff tr e i t v).1 ht with ht | he
    · rcases h.1 t v ht with hdone | hheld
      · exact Or.inl (le_trans hdone (stage_le_append tr e t))
      · exact hemplace t hheld
    · exact Or.inr (hnewEmplace t v he)
  · intro t ht
    rcases (ownsPop_append_iff tr e i t).1 ht with ht | ⟨he, hi⟩
    · rcases h.2 t ht with hdone | hheld
      · exact Or.inl (le_trans hdone (stage_le_append tr e t))
      · exact hpop t hheld
    · exact Or.inr (hnewPop t he hi)

/-- Steps of other threads do not change what a thread accounts for. -/
theorem Accounted.other
    {tr : List (Event ι V)} {e : Event ι V} {p : Pc V} {j : ι}
    (h : Accounted tr j p)
    (hj : j ≠ e.actor) :
    Accounted (tr ++ [e]) j p := by
  refine h.advance (fun t ht => Or.inr ht) (fun t ht => Or.inr ht) ?_ ?_
  · rintro t v rfl
    exact absurd rfl hj
  · intro t _ hactor
    exact absurd hactor.symm hj

theorem accounted_step
    {tr : List (Event ι V)} {q : Queue V} {e : Event ι V}
    (hlocal : Local size tr q e.actor e.source)
    (h : Accounted tr e.actor e.source) :
    Accounted (tr ++ [e]) e.actor e.target := by
  cases e with
  | emplaceRelease i t v =>
      obtain ⟨-, hstage⟩ := hlocal
      refine h.advance ?_ ?_ ?_ ?_
      · intro t' ht'
        obtain rfl : t = t' := Option.some.inj ht'
        left
        rw [stage_append_of_slotTicket tr rfl, hstage]
      · intro t' ht'
        simp [Event.source, Pc.popHeld?] at ht'
      · intro t' v' he
        simp at he
      · intro t' he
        simp [Event.popTicket?] at he
  | popRelease i t =>
      obtain ⟨-, hstage⟩ := hlocal
      refine h.advance ?_ ?_ ?_ ?_
      · intro t' ht'
        simp [Event.source, Pc.emplaceHeld?] at ht'
      · intro t' ht'
        obtain rfl : t = t' := Option.some.inj ht'
        left
        rw [stage_append_of_slotTicket tr rfl, hstage]
      · intro t' v' he
        simp at he
      · intro t' he
        simp [Event.popTicket?] at he
  | _ =>
      refine h.advance ?_ ?_ ?_ ?_ <;>
        simp [Event.source, Event.target, Event.popTicket?,
          Pc.emplaceHeld?, Pc.popHeld?]

end LocalAssertion

section Interference

/--
When a step changes the sequence number of a slot, it is a release store by
the thread whose turn it is.
-/
theorem sequence_changed
    {tr : List (Event ι V)} {q : Queue V} {e : Event ι V} {t : SizeT}
    (h : Global size tr q)
    (hlocal : Local size tr q e.actor e.source)
    (hne : sequenceOf (e.effect size q) size t ≠ sequenceOf q size t) :
    (∃ i t₀ v, e = .emplaceRelease i t₀ v ∧
      sequenceOf q size t = 2 * round size t₀ ∧
      (round size t = round size t₀ → t = t₀)) ∨
    (∃ i t₀, e = .popRelease i t₀ ∧
      sequenceOf q size t = 2 * round size t₀ + 1 ∧
      (round size t = round size t₀ → t = t₀)) := by
  have hset : ∀ (t₀ : SizeT) (slot : Slot V),
      slot.sequence = (q.slotOf size t₀).sequence →
      sequenceOf (q.setSlot size t₀ slot) size t =
        sequenceOf q size t := by
    intro t₀ slot hs
    by_cases hidx : idx size t = idx size t₀
    · rw [sequenceOf_eq_of_idx q hidx, sequenceOf,
        Queue.slotOf_setSlot_of_idx_eq q slot hidx, hs, sequenceOf]
    · rw [sequenceOf, Queue.slotOf_setSlot_of_idx_ne q slot hidx, sequenceOf]
  have hidx_of_ne : ∀ (t₀ : SizeT) (slot : Slot V),
      sequenceOf (q.setSlot size t₀ slot) size t ≠ sequenceOf q size t →
      idx size t = idx size t₀ := by
    intro t₀ slot hs
    by_contra hidx
    exact hs (by
      rw [sequenceOf, Queue.slotOf_setSlot_of_idx_ne q slot hidx, sequenceOf])
  cases e with
  | emplaceRelease i t₀ v =>
      obtain ⟨-, hstage⟩ := hlocal
      have hidx := hidx_of_ne t₀ _ hne
      refine Or.inl ⟨i, t₀, v, rfl, ?_, ?_⟩
      · rw [sequenceOf_eq_of_idx q hidx]
        exact h.sequence_of_stage_one hstage
      · intro hround
        exact ticket_eq_of_idx_of_round hidx hround
  | popRelease i t₀ =>
      obtain ⟨-, hstage⟩ := hlocal
      have hidx := hidx_of_ne t₀ _ hne
      refine Or.inr ⟨i, t₀, rfl, ?_, ?_⟩
      · rw [sequenceOf_eq_of_idx q hidx]
        exact h.sequence_of_stage_two_to_four (by omega) (by omega)
      · intro hround
        exact ticket_eq_of_idx_of_round hidx hround
  | construct i t₀ v =>
      exact absurd (hset t₀ _ (Slot.construct_sequence _ v)) hne
  | move i t₀ x =>
      exact absurd (hset t₀ _ (Slot.move_sequence _)) hne
  | destruct i t₀ =>
      exact absurd (hset t₀ _ (Slot.destruct_sequence _)) hne
  | _ =>
      exact absurd rfl hne

/-- No other thread operates on the slot for a ticket held by a producer. -/
theorem slotTicket_ne_of_emplaceHeld
    {tr : List (Event ι V)} {q : Queue V} {e : Event ι V}
    {j : ι} {t : SizeT} {v : V}
    (h : Global size tr q)
    (hlocal : Local size tr q e.actor e.source)
    (hj : j ≠ e.actor)
    (howner : Event.emplaceTicket j t v ∈ tr)
    (hstage : stage tr t ≤ 1) :
    e.slotTicket? ≠ some t := by
  intro he
  cases e <;> simp [Event.slotTicket?] at he
  case construct i t₀ u =>
    subst he
    exact hj (h.tickets.emplaceOwner _ _ _ _ _ howner hlocal.1).1
  case emplaceRelease i t₀ u =>
    subst he
    exact hj (h.tickets.emplaceOwner _ _ _ _ _ howner hlocal.1).1
  case move i t₀ x =>
    subst he
    have hk : stage tr t₀ = 2 := hlocal.2
    omega
  case destruct i t₀ =>
    subst he
    have hk : stage tr t₀ = 3 := hlocal.2
    omega
  case popRelease i t₀ =>
    subst he
    have hk : stage tr t₀ = 4 := hlocal.2
    omega

/--
Another thread that operates on the slot for a ticket held by a consumer is
the producer of that ticket, which has not released it yet.
-/
theorem slotTicket_of_popHeld
    {tr : List (Event ι V)} {q : Queue V} {e : Event ι V}
    {j : ι} {t : SizeT}
    (h : Global size tr q)
    (hlocal : Local size tr q e.actor e.source)
    (hj : j ≠ e.actor)
    (howner : OwnsPop tr j t)
    (he : e.slotTicket? = some t) :
    stage tr t ≤ 1 := by
  cases e <;> simp [Event.slotTicket?] at he
  case construct i t₀ u =>
    subst he
    have hk : stage tr t₀ = 0 := hlocal.2.1
    omega
  case emplaceRelease i t₀ u =>
    subst he
    have hk : stage tr t₀ = 1 := hlocal.2
    omega
  case move i t₀ x =>
    subst he
    exact absurd (h.tickets.popOwner _ _ _ howner hlocal.1) hj
  case destruct i t₀ =>
    subst he
    exact absurd (h.tickets.popOwner _ _ _ howner hlocal.1) hj
  case popRelease i t₀ =>
    subst he
    exact absurd (h.tickets.popOwner _ _ _ howner hlocal.1) hj

/-- The stage of a ticket held by another producer does not move. -/
theorem stage_keep_of_emplaceHeld
    {tr : List (Event ι V)} {q : Queue V} {e : Event ι V}
    {j : ι} {t : SizeT} {v : V}
    (h : Global size tr q)
    (hlocal : Local size tr q e.actor e.source)
    (hj : j ≠ e.actor)
    (howner : Event.emplaceTicket j t v ∈ tr)
    (hstage : stage tr t ≤ 1) :
    stage (tr ++ [e]) t = stage tr t :=
  stage_append_of_ne tr
    (slotTicket_ne_of_emplaceHeld h hlocal hj howner hstage)

/-- Nor does the stage of a ticket that another consumer is taking. -/
theorem stage_keep_of_popHeld
    {tr : List (Event ι V)} {q : Queue V} {e : Event ι V}
    {j : ι} {t : SizeT}
    (h : Global size tr q)
    (hlocal : Local size tr q e.actor e.source)
    (hj : j ≠ e.actor)
    (howner : OwnsPop tr j t)
    (hstage : 2 ≤ stage tr t) :
    stage (tr ++ [e]) t = stage tr t := by
  refine stage_append_of_ne tr ?_
  intro he
  have hle := slotTicket_of_popHeld h hlocal hj howner he
  omega

theorem tail_le_effect
    {tr : List (Event ι V)} {q : Queue V} {e : Event ι V}
    (h : Global size tr q)
    (hfew : FewTickets tr)
    (hcheck : e.check size q) :
    (e.effect size q).tail = q.tail ∨
      (e.effect size q).tail.toNat = q.tail.toNat + 1 := by
  have htail := succ_toNat_of_lt (h.tickets.tail_lt hfew)
  cases e with
  | popTicket i t =>
      exact Or.inr htail
  | tryPopCas i t =>
      obtain rfl : t = q.tail := hcheck
      exact Or.inr htail
  | _ =>
      exact Or.inl rfl

theorem head_le_effect
    {tr : List (Event ι V)} {q : Queue V} {e : Event ι V}
    (h : Global size tr q)
    (hfew : FewTickets tr) :
    (e.effect size q).head = q.head ∨
      (e.effect size q).head.toNat = q.head.toNat + 1 := by
  cases e with
  | emplaceTicket i t v =>
      exact Or.inr (succ_toNat_of_lt (h.tickets.head_lt hfew))
  | _ =>
      exact Or.inl rfl

/-- Third obligation: no step disturbs the assertion of another thread. -/
theorem local_other
    {tr : List (Event ι V)} {q : Queue V} {e : Event ι V}
    (hfew : FewTickets (tr ++ [e]))
    (h : Global size tr q)
    (hlocal : Local size tr q e.actor e.source)
    (hcheck : e.check size q)
    {j : ι} {p : Pc V}
    (hj : j ≠ e.actor)
    (hp : Local size tr q j p) :
    Local size (tr ++ [e]) (e.effect size q) j p := by
  have htail := tail_le_effect h hfew.of_append hcheck
  have hmono : ∀ t : SizeT, t.toNat ≤ q.tail.toNat →
      t.toNat ≤ (e.effect size q).tail.toNat := by
    intro t ht
    rcases htail with htail | htail
    · rw [htail]
      exact ht
    · omega
  cases p with
  | idle =>
      trivial
  | emplaceBegin v =>
      trivial
  | emplaceSpin t v =>
      obtain ⟨howner, hstage⟩ := hp
      refine ⟨List.mem_append_left _ howner, ?_⟩
      rw [stage_keep_of_emplaceHeld h hlocal hj howner (by omega)]
      exact hstage
  | emplaceConstruct t v =>
      obtain ⟨howner, hstage, hturn⟩ := hp
      refine ⟨List.mem_append_left _ howner, ?_, ?_⟩
      · rw [stage_keep_of_emplaceHeld h hlocal hj howner (by omega)]
        exact hstage
      · by_contra hne
        rcases sequence_changed h hlocal (by rw [hturn]; exact hne) with
          ⟨i, t₀, u, rfl, hs, heq⟩ | ⟨i, t₀, rfl, hs, -⟩
        · exact slotTicket_ne_of_emplaceHeld h hlocal hj howner
            (by omega) (by rw [heq (by omega)]; rfl)
        · omega
  | emplaceRelease t v =>
      obtain ⟨howner, hstage⟩ := hp
      refine ⟨List.mem_append_left _ howner, ?_⟩
      rw [stage_keep_of_emplaceHeld h hlocal hj howner (by omega)]
      exact hstage
  | popBegin =>
      trivial
  | popSpin t =>
      obtain ⟨howner, hstage⟩ := hp
      refine ⟨howner.append e, ?_⟩
      by_cases he : e.slotTicket? = some t
      · have hle := slotTicket_of_popHeld h hlocal hj howner he
        rw [stage_append_of_slotTicket tr he]
        omega
      · rw [stage_append_of_ne tr he]
        exact hstage
  | popMove t =>
      obtain ⟨howner, hstage⟩ := hp
      refine ⟨howner.append e, ?_⟩
      rw [stage_keep_of_popHeld h hlocal hj howner (by omega)]
      exact hstage
  | popDestruct t =>
      obtain ⟨howner, hstage⟩ := hp
      refine ⟨howner.append e, ?_⟩
      rw [stage_keep_of_popHeld h hlocal hj howner (by omega)]
      exact hstage
  | popRelease t =>
      obtain ⟨howner, hstage⟩ := hp
      refine ⟨howner.append e, ?_⟩
      rw [stage_keep_of_popHeld h hlocal hj howner (by omega)]
      exact hstage
  | tryPopBegin =>
      trivial
  | tryPopCheck t =>
      exact hmono t hp
  | tryPopCas t =>
      obtain ⟨hle, hturn⟩ := hp
      refine ⟨hmono t hle, ?_⟩
      intro htail'
      -- `tail_` still equals the ticket, so nobody owns it yet
      obtain rfl : t = q.tail := by
        rcases htail with htail | htail
        · rw [htail', htail]
        · rw [← htail'] at htail
          omega
      by_contra hne
      rcases sequence_changed h hlocal (by rw [hturn rfl]; exact hne) with
        ⟨i, t₀, u, -, hs, -⟩ | ⟨i, t₀, rfl, hs, heq⟩
      · have := hturn rfl
        omega
      · have hround : round size q.tail = round size t₀ := by
          have := hturn rfl
          omega
        obtain ⟨howner, -⟩ := hlocal
        rw [← heq hround] at howner
        have hlt := (h.tickets.popIssued q.tail).1
          ((mem_popTickets_iff tr q.tail).2 ⟨i, howner⟩)
        exact lt_irrefl _ hlt
  | tryPopReload t =>
      exact hmono t hp

end Interference

section Runs

/-- The assertions of the outline hold at the start. -/
theorem outline_initial
    {s : Config ι (Pc V) (Queue V)}
    (hinit : Initial s) :
    Global size ([] : List (Event ι V)) s.shared ∧
      ∀ i, Local size [] s.shared i (s.pc i) ∧
        Accounted ([] : List (Event ι V)) i (s.pc i) := by
  obtain ⟨hshared, hpc⟩ := hinit
  rw [hshared]
  refine ⟨⟨?_, ?_⟩, ?_⟩
  · constructor <;>
      simp [Queue.empty, emplaceTickets, popTickets, OwnsPop]
  · intro t
    have hseq : sequenceOf (Queue.empty : Queue V) size t = 0 := by
      rfl
    constructor
    · rw [hseq, stage_nil]
      unfold InPhase
      omega
    all_goals
      simp [slotOps, Queue.empty, Queue.slotOf]
  · intro i
    rw [hpc i]
    exact ⟨trivial, by simp [Accounted, OwnsPop]⟩

/-- The outline as an invariant of all runs with few tickets. -/
theorem outline_of_run
    [DecidableEq ι]
    {tr : List (Event ι V)} {s : Config ι (Pc V) (Queue V)}
    (hrun : (queue size).Run tr s)
    (hfew : FewTickets tr) :
    Global size tr s.shared ∧
      ∀ i, Local size tr s.shared i (s.pc i) ∧
        Accounted tr i (s.pc i) := by
  refine Program.outline
    (P := program size)
    (A := fun tr q i p => Local size tr q i p ∧ Accounted tr i p)
    (fun tr e => FewTickets.of_append)
    (fun s hs => outline_initial hs)
    ?_ ?_ ?_ hrun hfew
  · intro tr q e hfew h hactor hcheck
    exact global_step hfew h hactor.1 hcheck
  · intro tr q e hfew h hactor hcheck
    exact ⟨local_step hfew h hactor.1 hcheck,
      accounted_step hactor.1 hactor.2⟩
  · intro tr q e hfew h hactor hcheck j p hj hp
    exact ⟨local_other hfew h hactor.1 hcheck hj hp.1,
      hp.2.other hj⟩

/-- A run starts with an empty queue and idle threads. -/
theorem run_eq_exec
    [DecidableEq ι]
    {tr : List (Event ι V)} {s : Config ι (Pc V) (Queue V)}
    (hrun : (queue size).Run tr s) :
    s = (queue size).exec start tr := by
  refine hrun.eq_exec fun s hs => ?_
  obtain ⟨hshared, hpc⟩ := hs
  cases s with
  | mk shared pc =>
      obtain rfl : shared = Queue.empty := hshared
      obtain rfl : pc = fun _ => .idle := funext hpc
      rfl

/-- The outline at the moment of an event, with the slots of that moment. -/
theorem outline_before
    [DecidableEq ι]
    {es fs : List (Event ι V)} {e : Event ι V}
    {s : Config ι (Pc V) (Queue V)}
    (hrun : (queue size).Run (es ++ e :: fs) s)
    (hfew : FewTickets (es ++ e :: fs)) :
    Global size es ((queue size).exec start es).shared ∧
      Local size es ((queue size).exec start es).shared e.actor e.source ∧
      e.check size ((queue size).exec start es).shared := by
  obtain ⟨s₀, hrun₀, henabled, -⟩ := hrun.split
  obtain ⟨hglobal, hlocal⟩ := outline_of_run hrun₀ (fewTickets_of_append hfew)
  obtain ⟨⟨hpc, hcheck⟩, -⟩ := henabled
  have hactor := (hlocal e.actor).1
  rw [show s₀.pc e.actor = e.source from hpc] at hactor
  rw [← run_eq_exec hrun₀]
  exact ⟨hglobal, hactor, hcheck⟩

end Runs

end Mpmc
end Ptl

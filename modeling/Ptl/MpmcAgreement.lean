import Ptl.MpmcInterference

/-!
# Agreement of the MPMC queue

Main results about the history of one queue, for any capacity, any number of
threads and any interleaving with fewer than `2 ^ 63` tickets.

* `mpmc_agreement`: the thread that owns ticket `t` of `tail_` is delivered
  exactly the value that the owner of ticket `t` of `head_` constructed, each
  value at most once, and no slot is constructed again before its value has
  been taken.
* `mpmc_blocked`: when nobody can move, only consumers wait, all beyond
  `head_`, or only producers wait, all a full ring beyond `tail_`.
-/

namespace Ptl
namespace Mpmc

open Transition

universe u v

variable {ι : Type u} {V : Type v}
variable {size : SizeT}

section Agreement

/-- What the history of a queue has to look like. -/
structure Agreement
    (size : SizeT) (tr : List (Event ι V)) : Prop where
  emplaceTicketsNodup : (emplaceTickets tr).Nodup
  popTicketsNodup : (popTickets tr).Nodup
  constructs : ∀ es fs j t v,
    tr = es ++ Event.construct j t v :: fs →
    Event.emplaceTicket j t v ∈ es ∧
      ∀ j' v', Event.construct j' t v' ∉ es
  delivers : ∀ es fs i t x,
    tr = es ++ Event.move i t x :: fs →
    OwnsPop es i t ∧
      ∃ j v, x = some v ∧
        Event.emplaceTicket j t v ∈ es ∧ Event.construct j t v ∈ es
  deliveredOnce : ∀ es fs i t x,
    tr = es ++ Event.move i t x :: fs →
    ∀ i' x', Event.move i' t x' ∉ es
  notOverwritten : ∀ es fs j t v,
    tr = es ++ Event.construct j t v :: fs →
    ∀ j' t' v', Event.construct j' t' v' ∈ es →
      idx size t' = idx size t →
      ∃ i x, Event.move i t' x ∈ es

/-- A constructed value has been moved out once its slot is used again. -/
theorem moved_of_reused
    {tr : List (Event ι V)} {q : Queue V} {t t' : SizeT}
    (h : Global size tr q)
    (hturn : sequenceOf q size t = 2 * round size t)
    (hstage : stage tr t = 0)
    (hidx : idx size t' = idx size t)
    (hbegun : 1 ≤ stage tr t') :
    ∃ i x, Event.move i t' x ∈ tr := by
  have hphase := (h.slot t').phase
  rw [sequenceOf_eq_of_idx q hidx, hturn] at hphase
  have hround : round size t' ≠ round size t := by
    intro hr
    rw [ticket_eq_of_idx_of_round hidx hr] at hbegun
    omega
  have hdone : 3 ≤ stage tr t' := by
    rcases hphase with hp | hp | hp | hp <;> omega
  obtain ⟨e, he, hslot, hrank⟩ :=
    (h.slot t').exists_of_le_stage (k := 3) (by omega) hdone
  cases e <;> simp [Event.rank] at hrank
  case move i t₀ x =>
    obtain rfl : t₀ = t' := Option.some.inj hslot
    exact ⟨i, x, he⟩

theorem mpmc_agreement
    [DecidableEq ι]
    {tr : List (Event ι V)} {s : Config ι (Pc V) (Queue V)}
    (hrun : (queue size).Run tr s)
    (hfew : FewTickets tr) :
    Agreement size tr := by
  obtain ⟨hglobal, -⟩ := outline_of_run hrun hfew
  refine
    { emplaceTicketsNodup := hglobal.tickets.emplaceNodup
      popTicketsNodup := hglobal.tickets.popNodup
      constructs := ?_
      delivers := ?_
      deliveredOnce := ?_
      notOverwritten := ?_ }
  · rintro es fs j t v rfl
    obtain ⟨h, ⟨howner, hstage, -⟩, -⟩ := outline_before hrun hfew
    refine ⟨howner, ?_⟩
    intro j' v' hmem
    have hrank : 1 ≤ stage es t := (h.slot t).rank_le_stage hmem rfl
    omega
  · rintro es fs i t x rfl
    obtain ⟨h, ⟨howner, hstage⟩, hcheck⟩ := outline_before hrun hfew
    obtain ⟨j, v, hticket, hconstruct, hdata⟩ :=
      (h.slot t).filled (Or.inr hstage)
    refine ⟨howner, j, v, ?_, hticket, hconstruct⟩
    rw [show x = _ from hcheck, Slot.move_of_live hdata]
  · rintro es fs i t x rfl i' x' hmem
    obtain ⟨h, ⟨-, hstage⟩, -⟩ := outline_before hrun hfew
    have hrank : 3 ≤ stage es t := (h.slot t).rank_le_stage hmem rfl
    omega
  · rintro es fs j t v rfl j' t' v' hmem hidx
    obtain ⟨h, ⟨-, hstage, hturn⟩, -⟩ := outline_before hrun hfew
    exact moved_of_reused h hturn hstage hidx
      ((h.slot t').rank_le_stage hmem rfl)

/-- One producer hands one value to one consumer over a ring of one slot. -/
def handOver : List (Event Bool Nat) :=
  [.callEmplace false 7, .callPop true, .popTicket true 0,
    .popWait true 0, .emplaceTicket false 0 7, .emplaceAcquire false 0 7,
    .construct false 0 7, .emplaceRelease false 0 7, .popAcquire true 0,
    .move true 0 (some 7), .destruct true 0, .popRelease true 0]

theorem mpmc_agreement_handOver :
    Agreement 1 handOver :=
  mpmc_agreement
    (System.Run.of_enabled (M := queue 1) initial_start (by decide))
    (by decide)

end Agreement

section Blocked

/-- A call that spins because its turn check fails. -/
def Spinning (size : SizeT) (q : Queue V) : Pc V → Prop
  | .emplaceSpin t _ => acquireTurn size t ≠ (q.slotOf size t).sequence
  | .popSpin t => releaseTurn size t ≠ (q.slotOf size t).sequence
  | _ => False

instance decidableSpinning
    (size : SizeT) (q : Queue V) (p : Pc V) :
    Decidable (Spinning size q p) := by
  cases p <;> unfold Spinning <;> infer_instance

/-- A `try_pop` that has not won a ticket. -/
def Probing : Pc V → Prop
  | .tryPopBegin => True
  | .tryPopCheck _ => True
  | .tryPopCas _ => True
  | .tryPopReload _ => True
  | _ => False

/--
Every call in progress that owns a ticket or will wait for one is spinning on
a failing turn check.  A `try_pop` counts from the moment it wins its ticket.
-/
def Blocked
    (size : SizeT) (s : Config ι (Pc V) (Queue V)) : Prop :=
  ∀ i, s.pc i = .idle ∨ Probing (s.pc i) ∨
    Spinning size s.shared (s.pc i)

/-- In a blocked state the owner of an unfinished `head_` ticket spins on it. -/
theorem Blocked.emplaceSpin_of_held
    {s : Config ι (Pc V) (Queue V)}
    (hblocked : Blocked size s)
    {i : ι} {t : SizeT}
    (hheld : (s.pc i).emplaceHeld? = some t) :
    ∃ v, s.pc i = .emplaceSpin t v ∧
      acquireTurn size t ≠ (s.shared.slotOf size t).sequence := by
  have hi := hblocked i
  cases hpc : s.pc i <;>
    simp [hpc, Pc.emplaceHeld?, Probing, Spinning] at hheld hi
  subst hheld
  exact ⟨_, rfl, hi⟩

/-- In a blocked state the owner of an unfinished `tail_` ticket spins on it. -/
theorem Blocked.popSpin_of_held
    {s : Config ι (Pc V) (Queue V)}
    (hblocked : Blocked size s)
    {i : ι} {t : SizeT}
    (hheld : (s.pc i).popHeld? = some t) :
    s.pc i = .popSpin t ∧
      releaseTurn size t ≠ (s.shared.slotOf size t).sequence := by
  have hi := hblocked i
  cases hpc : s.pc i <;>
    simp [hpc, Pc.popHeld?, Probing, Spinning] at hheld hi
  subst hheld
  exact ⟨rfl, hi⟩

variable {tr : List (Event ι V)} {q : Queue V}

/-- A ticket whose producer check fails is in a later round than its slot. -/
theorem Global.sequence_lt_of_unready
    {t : SizeT}
    (h : Global size tr q)
    (hsmall : t.toNat < 2 ^ 63)
    (hstage : stage tr t = 0)
    (hfail : acquireTurn size t ≠ (q.slotOf size t).sequence) :
    sequenceOf q size t < 2 * round size t := by
  have hle := round_le size t
  have hacquire : (acquireTurn size t).toNat = 2 * round size t :=
    acquireTurn_toNat (by omega)
  have hphase := (h.slot t).phase
  rcases hphase with hp | hp | hp | hp
  · exact hp.1
  · exact absurd (BitVec.eq_of_toNat_eq (hacquire.trans hp.1.symm)) hfail
  · omega
  · omega

/-- A producer whose check fails is in a later round than its slot. -/
theorem Global.sequence_lt_of_emplaceSpin
    {i : ι} {t : SizeT} {v : V}
    (h : Global size tr q)
    (hfew : FewTickets tr)
    (hlocal : Local size tr q i (.emplaceSpin t v))
    (hfail : acquireTurn size t ≠ (q.slotOf size t).sequence) :
    sequenceOf q size t < 2 * round size t := by
  obtain ⟨howner, hstage⟩ := hlocal
  have hsmall := h.tickets.emplaceTicket_lt hfew howner
  exact h.sequence_lt_of_unready (Nat.lt_of_succ_lt hsmall) hstage hfail

/-- The ticket whose consumer makes room for the producer of ticket `t`. -/
theorem round_sub_size
    {t : SizeT}
    (hround : 1 ≤ round size t) :
    size.toNat ≤ t.toNat ∧
      (t - size).toNat = t.toNat - size.toNat ∧
      idx size (t - size) = idx size t ∧
      round size (t - size) + 1 = round size t := by
  have hpos : 0 < size.toNat := by
    rcases Nat.eq_zero_or_pos size.toNat with hz | hpos
    · simp [round, hz] at hround
    · exact hpos
  have hle : size.toNat ≤ t.toNat := by
    by_contra hlt
    have hzero : round size t = 0 := Nat.div_eq_of_lt (by omega)
    omega
  have hsub : (t - size).toNat = t.toNat - size.toNat :=
    BitVec.toNat_sub_of_le (BitVec.le_def.mpr hle)
  refine ⟨hle, hsub, ?_, ?_⟩
  · apply BitVec.eq_of_toNat_eq
    simp only [idx, BitVec.toNat_umod, hsub]
    exact (Nat.mod_eq_sub_mod hle).symm
  · simp only [round, hsub]
    exact (Nat.div_eq_sub_div hpos hle).symm

/-- A slot behind the round of a ticket: the consumer a ring earlier is not done. -/
theorem Global.stage_lt_of_sequence_lt
    {t : SizeT}
    (h : Global size tr q)
    (hlt : sequenceOf q size t < 2 * round size t) :
    size.toNat ≤ t.toNat ∧
      (t - size).toNat = t.toNat - size.toNat ∧
      stage tr (t - size) < 5 := by
  obtain ⟨hle, hsub, hidx, hround⟩ :=
    @round_sub_size size t (by omega)
  refine ⟨hle, hsub, ?_⟩
  have hphase := (h.slot (t - size)).phase
  rw [sequenceOf_eq_of_idx q hidx] at hphase
  rcases hphase with hp | hp | hp | hp <;> omega

/-- A failing producer check means that the consumer a ring earlier is not done. -/
theorem Global.stage_lt_of_emplaceSpin
    {i : ι} {t : SizeT} {v : V}
    (h : Global size tr q)
    (hfew : FewTickets tr)
    (hlocal : Local size tr q i (.emplaceSpin t v))
    (hfail : acquireTurn size t ≠ (q.slotOf size t).sequence) :
    size.toNat ≤ t.toNat ∧
      (t - size).toNat = t.toNat - size.toNat ∧
      stage tr (t - size) < 5 :=
  h.stage_lt_of_sequence_lt (h.sequence_lt_of_emplaceSpin hfew hlocal hfail)

/-- A failing consumer check means that the producer of the ticket is not done. -/
theorem Global.stage_lt_of_popSpin
    {i : ι} {t : SizeT}
    (h : Global size tr q)
    (hfew : FewTickets tr)
    (hlocal : Local size tr q i (.popSpin t))
    (hfail : releaseTurn size t ≠ (q.slotOf size t).sequence) :
    stage tr t < 2 := by
  obtain ⟨howner, hstage⟩ := hlocal
  have hsmall := h.tickets.popTicket_lt hfew howner
  have hle := round_le size t
  have hrelease : (releaseTurn size t).toNat = 2 * round size t + 1 :=
    releaseTurn_toNat (by omega)
  have hphase := (h.slot t).phase
  rcases hphase with hp | hp | hp | hp
  · omega
  · omega
  · exact absurd (BitVec.eq_of_toNat_eq (hrelease.trans hp.1.symm)) hfail
  · omega

variable [DecidableEq ι]
variable {s : Config ι (Pc V) (Queue V)}

/--
In a blocked state every producer waits for a consumer that does not exist
yet: following the chain "ticket `t` waits for the consumer of `t - n`, who
waits for its producer" downwards never ends otherwise.
-/
theorem Blocked.tail_add_size_le
    (hrun : (queue size).Run tr s)
    (hfew : FewTickets tr)
    (hblocked : Blocked size s) :
    ∀ (k : Nat) (i : ι) (t : SizeT) (v : V),
      t.toNat = k →
      s.pc i = .emplaceSpin t v →
      acquireTurn size t ≠ (s.shared.slotOf size t).sequence →
      s.shared.tail.toNat + size.toNat ≤ t.toNat := by
  obtain ⟨h, hall⟩ := outline_of_run hrun hfew
  intro k
  induction k using Nat.strong_induction_on with
  | _ k ih =>
      intro i t v hk hpc hfail
      have hlocal : Local size tr s.shared i (.emplaceSpin t v) := by
        rw [← hpc]
        exact (hall i).1
      obtain ⟨hle, hsub, hstage⟩ :=
        h.stage_lt_of_emplaceSpin hfew hlocal hfail
      have hissued := (h.tickets.emplaceIssued t).1
        ((mem_emplaceTickets_iff tr t).2 ⟨i, v, hlocal.1⟩)
      by_contra hlt
      -- the consumer a ring earlier has drawn its ticket and still holds it
      obtain ⟨j, hj⟩ := (mem_popTickets_iff tr (t - size)).1
        ((h.tickets.popIssued (t - size)).2 (by omega))
      have hheld : (s.pc j).popHeld? = some (t - size) := by
        rcases (hall j).2.2 _ hj with hdone | hheld
        · omega
        · exact hheld
      obtain ⟨hpcj, hfailj⟩ := hblocked.popSpin_of_held hheld
      have hlocalj : Local size tr s.shared j (.popSpin (t - size)) := by
        rw [← hpcj]
        exact (hall j).1
      have hwait := h.stage_lt_of_popSpin hfew hlocalj hfailj
      -- and so does the producer of that ticket, which is a smaller one
      obtain ⟨l, w, hl⟩ := (mem_emplaceTickets_iff tr (t - size)).1
        ((h.tickets.emplaceIssued (t - size)).2 (by omega))
      have hheldl : (s.pc l).emplaceHeld? = some (t - size) := by
        rcases (hall l).2.1 _ _ hl with hdone | hheld
        · omega
        · exact hheld
      obtain ⟨w', hpcl, hfaill⟩ := hblocked.emplaceSpin_of_held hheldl
      have hpos : 0 < size.toNat := by
        rcases Nat.eq_zero_or_pos size.toNat with hz | hpos
        · have hlow := h.sequence_lt_of_emplaceSpin hfew hlocal hfail
          simp [round, hz] at hlow
        · exact hpos
      have hdown := ih (t - size).toNat (by omega) l (t - size) w' rfl
        hpcl hfaill
      have hpopped := (h.tickets.popIssued (t - size)).1
        ((mem_popTickets_iff tr (t - size)).2 ⟨j, hj⟩)
      omega

/-- In a blocked state every consumer waits for a producer that does not exist yet. -/
theorem Blocked.head_le
    (hrun : (queue size).Run tr s)
    (hfew : FewTickets tr)
    (hblocked : Blocked size s)
    {i : ι} {t : SizeT}
    (hpc : s.pc i = .popSpin t)
    (hfail : releaseTurn size t ≠ (s.shared.slotOf size t).sequence) :
    s.shared.head.toNat ≤ t.toNat := by
  obtain ⟨h, hall⟩ := outline_of_run hrun hfew
  have hlocal : Local size tr s.shared i (.popSpin t) := by
    rw [← hpc]
    exact (hall i).1
  have hwait := h.stage_lt_of_popSpin hfew hlocal hfail
  by_contra hlt
  obtain ⟨l, w, hl⟩ := (mem_emplaceTickets_iff tr t).1
    ((h.tickets.emplaceIssued t).2 (by omega))
  have hheld : (s.pc l).emplaceHeld? = some t := by
    rcases (hall l).2.1 _ _ hl with hdone | hheld
    · omega
    · exact hheld
  obtain ⟨w', hpcl, hfaill⟩ := hblocked.emplaceSpin_of_held hheld
  have hfull := hblocked.tail_add_size_le hrun hfew _ l t w' rfl hpcl hfaill
  have hpopped := (h.tickets.popIssued t).1
    ((mem_popTickets_iff tr t).2 ⟨i, hlocal.1⟩)
  omega

/-- Blocked calls are all consumers beyond `head_` or all producers beyond a full ring. -/
structure BlockedShape
    (size : SizeT) (tr : List (Event ι V))
    (s : Config ι (Pc V) (Queue V)) : Prop where
  oneSided : Blocked size s →
    (∀ i, Spinning size s.shared (s.pc i) →
      ∃ t, s.pc i = .popSpin t ∧ s.shared.head.toNat ≤ t.toNat) ∨
    (∀ i, Spinning size s.shared (s.pc i) →
      ∃ t v, s.pc i = .emplaceSpin t v ∧
        s.shared.tail.toNat + size.toNat ≤ t.toNat)
  emplaceNotReady : ∀ i t v, s.pc i = .emplaceSpin t v →
    acquireTurn size t ≠ (s.shared.slotOf size t).sequence →
    size.toNat ≤ t.toNat ∧ ∀ j, Event.popRelease j (t - size) ∉ tr
  popNotReady : ∀ i t, s.pc i = .popSpin t →
    releaseTurn size t ≠ (s.shared.slotOf size t).sequence →
    ∀ j v, Event.emplaceRelease j t v ∉ tr

theorem mpmc_blocked
    (hrun : (queue size).Run tr s)
    (hfew : FewTickets tr) :
    BlockedShape size tr s := by
  obtain ⟨h, hall⟩ := outline_of_run hrun hfew
  refine
    { oneSided := ?_
      emplaceNotReady := ?_
      popNotReady := ?_ }
  · intro hblocked
    by_cases hproducer : ∃ i t v, s.pc i = .emplaceSpin t v ∧
        acquireTurn size t ≠ (s.shared.slotOf size t).sequence
    · right
      obtain ⟨i₀, t₀, v₀, hpc₀, hfail₀⟩ := hproducer
      have hfull := hblocked.tail_add_size_le hrun hfew _ i₀ t₀ v₀ rfl
        hpc₀ hfail₀
      have hissued := (h.tickets.emplaceIssued t₀).1
        ((mem_emplaceTickets_iff tr t₀).2 ⟨i₀, v₀, by
          have hlocal := (hall i₀).1
          rw [hpc₀] at hlocal
          exact hlocal.1⟩)
      intro i hspin
      cases hpc : s.pc i <;> simp [hpc, Spinning] at hspin
      case emplaceSpin t v =>
        exact ⟨t, v, rfl,
          hblocked.tail_add_size_le hrun hfew _ i t v rfl hpc hspin⟩
      case popSpin t =>
        have hhead := hblocked.head_le hrun hfew hpc hspin
        have hlocal := (hall i).1
        rw [hpc] at hlocal
        have hpopped := (h.tickets.popIssued t).1
          ((mem_popTickets_iff tr t).2 ⟨i, hlocal.1⟩)
        omega
    · left
      intro i hspin
      cases hpc : s.pc i <;> simp [hpc, Spinning] at hspin
      case emplaceSpin t v =>
        exact absurd ⟨i, t, v, hpc, hspin⟩ hproducer
      case popSpin t =>
        exact ⟨t, rfl, hblocked.head_le hrun hfew hpc hspin⟩
  · intro i t v hpc hfail
    have hlocal := (hall i).1
    rw [hpc] at hlocal
    obtain ⟨hle, -, hstage⟩ := h.stage_lt_of_emplaceSpin hfew hlocal hfail
    refine ⟨hle, ?_⟩
    intro j hmem
    have hrank : 5 ≤ stage tr (t - size) :=
      (h.slot (t - size)).rank_le_stage hmem rfl
    omega
  · intro i t hpc hfail j v hmem
    have hlocal := (hall i).1
    rw [hpc] at hlocal
    have hstage := h.stage_lt_of_popSpin hfew hlocal hfail
    have hrank : 2 ≤ stage tr t := (h.slot t).rank_le_stage hmem rfl
    omega

/-- Two consumers wait on an empty queue of two slots. -/
def waitingConsumers : List (Event Bool Nat) :=
  [.callPop true, .popTicket true 0, .callPop false, .popTicket false 1,
    .popWait true 0]

theorem mpmc_blocked_waitingConsumers :
    let s := (queue 2).exec start waitingConsumers
    Blocked 2 s ∧
      ((∀ i, Spinning 2 s.shared (s.pc i) →
        ∃ t, s.pc i = .popSpin t ∧ s.shared.head.toNat ≤ t.toNat) ∨
      (∀ i, Spinning 2 s.shared (s.pc i) →
        ∃ t v, s.pc i = .emplaceSpin t v ∧
          s.shared.tail.toNat + 2 ≤ t.toNat)) := by
  have hblocked :
      Blocked 2 ((queue 2).exec start waitingConsumers) := by
    intro i
    cases i
    · exact Or.inr (Or.inr (by decide))
    · exact Or.inr (Or.inr (by decide))
  exact ⟨hblocked,
    (mpmc_blocked
      (System.Run.of_enabled (M := queue 2) initial_start (by decide))
      (by decide)).oneSided hblocked⟩

end Blocked

end Mpmc
end Ptl

import Ptl.FairExecution
import Ptl.MpmcAgreement

/-!
# Progress of the MPMC queue

Infinite executions of the queue in which every thread that is inside a call sooner or
later takes a step; a look at a sequence number that does not fit is such a step.  A
producer waits for the consumer a ring earlier, and a consumer for its producer.

**Results.**
* `returns_of_not_spinning`: a call that does not have to wait comes to its end.
* `finished_of_drawn`: what both a producer and a consumer have drawn a ticket for is
  handed over, by induction on the ticket.
* `mpmc_progress`: a call with a ticket returns exactly if the other side draws the
  ticket that it waits for.
-/

namespace Ptl
namespace Mpmc

open Transition

universe u v

variable {ι : Type u} {V : Type v} [DecidableEq ι]
variable {size : SizeT}

/-- The steps that thread `i` takes if it is given time; it need not call anything. -/
def Event.InCall (i : ι) (e : Event ι V) : Prop :=
  e.actor = i ∧ e.source ≠ .idle

def Event.Own (i : ι) (e : Event ι V) : Prop :=
  e.actor = i

/-- The number of steps to the end of a call that does not have to wait. -/
def Pc.stepsLeft : Pc V → Nat
  | emplaceSpin _ _ => 3
  | emplaceConstruct _ _ => 2
  | emplaceRelease _ _ => 1
  | popSpin _ => 4
  | popMove _ => 3
  | popDestruct _ => 2
  | popRelease _ => 1
  | _ => 0

/-- The side of the queue on which a call draws its ticket. -/
inductive Side where
  | emplace
  | pop

def Pc.held? (p : Pc V) : Side → Option SizeT
  | .emplace => p.emplaceHeld?
  | .pop => p.popHeld?

section Steps

variable {s : Config ι (Pc V) (Queue V)} {e : Event ι V} {i : ι} {t : SizeT} {x : Side}

theorem next_pc_own :
    ((queue size).next s e).pc e.actor = e.target :=
  Program.system_next_pc_actor (P := program size) s e

theorem next_pc_of_ne (hne : e.actor ≠ i) :
    ((queue size).next s e).pc i = s.pc i :=
  Program.system_next_pc_of_ne (P := program size) s e hne.symm

/-- A call that holds a ticket and does not spin can go on. -/
theorem exists_step
    (hheld : (s.pc i).held? x = some t)
    (hspin : ¬ Spinning size s.shared (s.pc i)) :
    ∃ e, Event.InCall i e ∧ (queue size).guard s e := by
  cases hpc : s.pc i with
  | emplaceSpin t' v =>
      rw [hpc] at hspin
      exact ⟨.emplaceAcquire i t' v, ⟨rfl, nofun⟩, hpc, not_not.mp hspin⟩
  | emplaceConstruct t' v =>
      exact ⟨.construct i t' v, ⟨rfl, nofun⟩, hpc, trivial⟩
  | emplaceRelease t' v =>
      exact ⟨.emplaceRelease i t' v, ⟨rfl, nofun⟩, hpc, trivial⟩
  | popSpin t' =>
      rw [hpc] at hspin
      exact ⟨.popAcquire i t', ⟨rfl, nofun⟩, hpc, not_not.mp hspin⟩
  | popMove t' =>
      exact ⟨.move i t' (s.shared.slotOf size t').move.1, ⟨rfl, nofun⟩, hpc, rfl⟩
  | popDestruct t' =>
      exact ⟨.destruct i t', ⟨rfl, nofun⟩, hpc, trivial⟩
  | popRelease t' =>
      exact ⟨.popRelease i t', ⟨rfl, nofun⟩, hpc, trivial⟩
  | _ =>
      rw [hpc] at hheld
      cases x <;> cases hheld

/-- A call keeps its ticket to its end. -/
theorem held_next
    (hguard : (queue size).guard s e)
    (hheld : (s.pc i).held? x = some t) :
    ((queue size).next s e).pc i = .idle ∨
      (((queue size).next s e).pc i).held? x = some t := by
  by_cases hactor : e.actor = i
  · subst hactor
    have hpc : s.pc e.actor = e.source := hguard.1
    rw [next_pc_own]
    rw [hpc] at hheld
    cases x <;> cases e <;> first
      | exact .inl rfl
      | exact .inr hheld
      | cases hheld
  · rw [next_pc_of_ne hactor]
    exact .inr hheld

/-- Unless it spins, each of its steps brings it closer to its end. -/
theorem stepsLeft_lt
    (hguard : (queue size).guard s e)
    (hheld : (s.pc e.actor).held? x = some t)
    (hspin : ¬ Spinning size s.shared (s.pc e.actor)) :
    (((queue size).next s e).pc e.actor).stepsLeft < (s.pc e.actor).stepsLeft := by
  obtain ⟨hpc, hcheck⟩ := hguard
  change s.pc e.actor = e.source at hpc
  rw [next_pc_own]
  rw [hpc] at hheld hspin ⊢
  cases e with
  | emplaceWait i t' v | popWait i t' =>
      exact absurd hcheck hspin
  | emplaceAcquire i t' v | construct i t' v | emplaceRelease i t' v =>
      exact Nat.lt_succ_self _
  | popAcquire i t' | move i t' y | destruct i t' | popRelease i t' =>
      exact Nat.lt_succ_self _
  | _ =>
      cases x <;> cases hheld

end Steps

section Executions

variable {X : Execution (queue size : System (Config ι (Pc V) (Queue V)) (Event ι V))}
variable {n m : Nat} {i : ι} {t : SizeT} {x : Side}

theorem stage_mono (h : n ≤ m) (t : SizeT) :
    stage (X.trace n) t ≤ stage (X.trace m) t :=
  (X.trace_prefix h).sublist.countP_le

theorem emplaceTickets_mono (h : n ≤ m) (ht : t ∈ emplaceTickets (X.trace n)) :
    t ∈ emplaceTickets (X.trace m) :=
  ((X.trace_prefix h).sublist.filterMap _).subset ht

theorem popTickets_mono (h : n ≤ m) (ht : t ∈ popTickets (X.trace n)) :
    t ∈ popTickets (X.trace m) :=
  ((X.trace_prefix h).sublist.filterMap _).subset ht

/-- A call that has given up its ticket has returned. -/
theorem returned_or_held
    (hm : n ≤ m)
    (hheld : ((X.state n).pc i).held? x = some t) :
    (∃ k, n ≤ k ∧ (X.state k).pc i = .idle) ∨ ((X.state m).pc i).held? x = some t := by
  by_cases hend : ((X.state m).pc i).held? x = some t
  · exact .inr hend
  · obtain ⟨k, e, hk, hheld, hguard, hnext, hnot⟩ :=
      X.exists_leave (P := fun s => (s.pc i).held? x = some t) hm hheld hend
    refine .inl ⟨k + 1, Nat.le_succ_of_le hk, ?_⟩
    rw [hnext] at hnot ⊢
    exact (held_next hguard hheld).resolve_right hnot

/-- A call that does not have to wait any more comes to its end. -/
theorem returns_of_not_spinning
    (hfair : X.Fair (Event.InCall i) (Event.Own i))
    (hheld : ((X.state n).pc i).held? x = some t)
    (hspin : ∀ m, n ≤ m → ((X.state m).pc i).held? x = some t →
      ¬ Spinning size (X.state m).shared ((X.state m).pc i)) :
    ∃ m, n ≤ m ∧ (X.state m).pc i = .idle := by
  have hleft : ∃ m, n ≤ m ∧ ¬ ((X.state m).pc i).held? x = some t := by
    refine hfair.eventually (G := fun s => ¬ (s.pc i).held? x = some t)
      (r := fun s => (s.pc i).stepsLeft) ?_ ?_ ?_
    · intro m hm hG
      have hheld := not_not.mp hG
      exact exists_step hheld (hspin m hm hheld)
    · intro m e _ _ _ hother
      rw [next_pc_of_ne hother]
    · intro m e hm hG hguard hown
      have hheld := not_not.mp hG
      obtain rfl : e.actor = i := hown
      exact .inr (stepsLeft_lt hguard hheld (hspin m hm hheld))
  obtain ⟨m, hm, hnot⟩ := hleft
  exact (returned_or_held hm hheld).resolve_right hnot

section Fair

variable
  (hfew : ∀ n, FewTickets (X.trace n))
  (hfair : ∀ i, X.Fair (Event.InCall i) (Event.Own i))

include hfew

theorem global_at (n : Nat) :
    Global size (X.trace n) (X.state n).shared :=
  (outline_of_run (X.run n) (hfew n)).1

theorem local_at (n : Nat) (i : ι) :
    Local size (X.trace n) (X.state n).shared i ((X.state n).pc i) :=
  ((outline_of_run (X.run n) (hfew n)).2 i).1

theorem accounted_at (n : Nat) (i : ι) :
    Accounted (X.trace n) i ((X.state n).pc i) :=
  ((outline_of_run (X.run n) (hfew n)).2 i).2

/-- A producer does not wait once the consumer a ring earlier has finished. -/
theorem emplace_not_spinning
    (hready : t.toNat < size.toNat ∨ 5 ≤ stage (X.trace n) (t - size))
    (hheld : ((X.state n).pc i).emplaceHeld? = some t) :
    ¬ Spinning size (X.state n).shared ((X.state n).pc i) := by
  have hlocal := local_at hfew n i
  cases hpc : (X.state n).pc i with
  | emplaceSpin t' v =>
      rw [hpc] at hheld hlocal
      obtain rfl : t' = t := Option.some.inj hheld
      intro hfail
      obtain ⟨hle, -, hstage⟩ :=
        (global_at hfew n).stage_lt_of_emplaceSpin (hfew n) hlocal hfail
      omega
  | popSpin t' =>
      rw [hpc] at hheld
      cases hheld
  | _ =>
      exact not_false

/-- A consumer does not wait once the producer of its ticket has finished. -/
theorem pop_not_spinning
    (hready : 2 ≤ stage (X.trace n) t)
    (hheld : ((X.state n).pc i).popHeld? = some t) :
    ¬ Spinning size (X.state n).shared ((X.state n).pc i) := by
  have hlocal := local_at hfew n i
  cases hpc : (X.state n).pc i with
  | popSpin t' =>
      rw [hpc] at hheld hlocal
      obtain rfl : t' = t := Option.some.inj hheld
      intro hfail
      have hstage := (global_at hfew n).stage_lt_of_popSpin (hfew n) hlocal hfail
      omega
  | emplaceSpin t' v =>
      rw [hpc] at hheld
      cases hheld
  | _ =>
      exact not_false

include hfair

theorem emplace_returns
    (hready : t.toNat < size.toNat ∨ 5 ≤ stage (X.trace n) (t - size))
    (hheld : ((X.state n).pc i).emplaceHeld? = some t) :
    ∃ m, n ≤ m ∧ (X.state m).pc i = .idle :=
  returns_of_not_spinning (x := .emplace) (hfair i) hheld fun _ hm =>
    emplace_not_spinning hfew (hready.imp_right fun h => Nat.le_trans h (stage_mono hm _))

theorem pop_returns
    (hready : 2 ≤ stage (X.trace n) t)
    (hheld : ((X.state n).pc i).popHeld? = some t) :
    ∃ m, n ≤ m ∧ (X.state m).pc i = .idle :=
  returns_of_not_spinning (x := .pop) (hfair i) hheld fun _ hm =>
    pop_not_spinning hfew (Nat.le_trans hready (stage_mono hm t))

/-- The producer of a ticket finishes once the consumer a ring earlier has. -/
theorem produced_of_ready
    (hready : t.toNat < size.toNat ∨ 5 ≤ stage (X.trace n) (t - size))
    (ht : t ∈ emplaceTickets (X.trace n)) :
    ∃ m, n ≤ m ∧ 2 ≤ stage (X.trace m) t := by
  obtain ⟨i, v, hi⟩ := (mem_emplaceTickets_iff _ t).mp ht
  rcases (accounted_at hfew n i).1 t v hi with hstage | hheld
  · exact ⟨n, Nat.le_refl n, hstage⟩
  · obtain ⟨m, hm, hidle⟩ := emplace_returns hfew hfair hready hheld
    refine ⟨m, hm, ((accounted_at hfew m i).1 t v ?_).resolve_right ?_⟩
    · exact (X.trace_prefix hm).subset hi
    · rw [hidle]
      exact nofun

/-- The consumer of a ticket finishes once its producer has. -/
theorem consumed_of_ready
    (hready : 2 ≤ stage (X.trace n) t)
    (ht : t ∈ popTickets (X.trace n)) :
    ∃ m, n ≤ m ∧ 5 ≤ stage (X.trace m) t := by
  obtain ⟨i, hi⟩ := (mem_popTickets_iff _ t).mp ht
  rcases (accounted_at hfew n i).2 t hi with hstage | hheld
  · exact ⟨n, Nat.le_refl n, hstage⟩
  · obtain ⟨m, hm, hidle⟩ := pop_returns hfew hfair hready hheld
    have hprefix := X.trace_prefix hm
    refine ⟨m, hm, ((accounted_at hfew m i).2 t ?_).resolve_right ?_⟩
    · exact hi.imp (fun h => hprefix.subset h) fun h => hprefix.subset h
    · rw [hidle]
      exact nofun

/-- A ticket that both sides have drawn is handed over; induction on the ticket. -/
theorem finished_of_drawn
    (hsize : 0 < size.toNat)
    (hemplace : t ∈ emplaceTickets (X.trace n))
    (hpop : t ∈ popTickets (X.trace n)) :
    ∃ m, n ≤ m ∧ 5 ≤ stage (X.trace m) t := by
  generalize hk : t.toNat = k
  induction k using Nat.strongRecOn generalizing t n with
  | _ k ih =>
      subst hk
      -- The consumer a ring earlier finishes first, if there is one.
      have hready : ∃ m, n ≤ m ∧
          (t.toNat < size.toNat ∨ 5 ≤ stage (X.trace m) (t - size)) := by
        rcases Nat.lt_or_ge t.toNat size.toNat with hlt | hle
        · exact ⟨n, Nat.le_refl n, .inl hlt⟩
        · have h := (global_at hfew n).tickets
          have hsub := BitVec.toNat_sub_of_le (BitVec.le_def.mpr hle)
          have hhead := (h.emplaceIssued t).mp hemplace
          have htail := (h.popIssued t).mp hpop
          obtain ⟨m, hm, hstage⟩ := ih (t - size).toNat (by omega)
            ((h.emplaceIssued (t - size)).mpr (by omega))
            ((h.popIssued (t - size)).mpr (by omega)) rfl
          exact ⟨m, hm, .inr hstage⟩
      obtain ⟨m, hm, hready⟩ := hready
      obtain ⟨k, hk, hstage⟩ :=
        produced_of_ready hfew hfair hready (emplaceTickets_mono hm hemplace)
      obtain ⟨l, hl, hdone⟩ :=
        consumed_of_ready hfew hfair hstage (popTickets_mono (Nat.le_trans hm hk) hpop)
      exact ⟨l, Nat.le_trans hm (Nat.le_trans hk hl), hdone⟩

end Fair

section Needed

variable (hfew : ∀ n, FewTickets (X.trace n))
include hfew

theorem emplaceTicket_of_held
    (hheld : ((X.state n).pc i).emplaceHeld? = some t) :
    ∃ v, .emplaceTicket i t v ∈ X.trace n := by
  have hlocal := local_at hfew n i
  cases hpc : (X.state n).pc i with
  | emplaceSpin t' v | emplaceConstruct t' v | emplaceRelease t' v =>
      rw [hpc] at hheld hlocal
      obtain rfl : t' = t := Option.some.inj hheld
      exact ⟨v, hlocal.1⟩
  | _ =>
      rw [hpc] at hheld
      cases hheld

theorem ownsPop_of_held
    (hheld : ((X.state n).pc i).popHeld? = some t) :
    OwnsPop (X.trace n) i t := by
  have hlocal := local_at hfew n i
  cases hpc : (X.state n).pc i with
  | popSpin t' | popMove t' | popDestruct t' | popRelease t' =>
      rw [hpc] at hheld hlocal
      obtain rfl : t' = t := Option.some.inj hheld
      exact hlocal.1
  | _ =>
      rw [hpc] at hheld
      cases hheld

/-- A producer has returned: the consumer a ring earlier has drawn its ticket. -/
theorem tail_of_emplace_returned
    (hsize : 0 < size.toNat)
    (hheld : ((X.state n).pc i).emplaceHeld? = some t)
    (hm : n ≤ m)
    (hidle : (X.state m).pc i = .idle) :
    t.toNat < (X.state m).shared.tail.toNat + size.toNat := by
  obtain ⟨v, hdrawn⟩ := emplaceTicket_of_held hfew hheld
  have hstage : 2 ≤ stage (X.trace m) t := by
    refine ((accounted_at hfew m i).1 t v ((X.trace_prefix hm).subset hdrawn)).resolve_right ?_
    rw [hidle]
    exact nofun
  rcases Nat.lt_or_ge t.toNat size.toNat with hlt | hle
  · exact Nat.lt_add_left _ hlt
  · have h := global_at hfew m
    have hround : 1 ≤ round size t := Nat.div_pos hle hsize
    obtain ⟨-, hsub, hidx, hprevious⟩ := round_sub_size hround
    have hphase := (h.slot t).phase
    have hphase' := (h.slot (t - size)).phase
    rw [sequenceOf_eq_of_idx _ hidx] at hphase'
    have hfinished : stage (X.trace m) (t - size) = 5 := by
      rcases hphase with hp | hp | hp | hp <;> rcases hphase' with hp' | hp' | hp' | hp' <;> omega
    have htail := (h.tickets.popIssued (t - size)).mp
      ((h.slot (t - size)).drawn (by omega))
    omega

/-- A consumer has returned: the producer has drawn the same ticket. -/
theorem head_of_pop_returned
    (hheld : ((X.state n).pc i).popHeld? = some t)
    (hm : n ≤ m)
    (hidle : (X.state m).pc i = .idle) :
    t.toNat < (X.state m).shared.head.toNat := by
  have hprefix := X.trace_prefix hm
  have hdrawn : OwnsPop (X.trace m) i t :=
    (ownsPop_of_held hfew hheld).imp (fun h => hprefix.subset h) fun h => hprefix.subset h
  have hstage : 5 ≤ stage (X.trace m) t := by
    refine ((accounted_at hfew m i).2 t hdrawn).resolve_right ?_
    rw [hidle]
    exact nofun
  have h := global_at hfew m
  exact (h.tickets.emplaceIssued t).mp ((h.slot t).issued (by omega))

end Needed

/-- Which calls come to their end. -/
structure Progress
    (X : Execution (queue size : System (Config ι (Pc V) (Queue V)) (Event ι V))) : Prop where
  emplace : ∀ n i t, ((X.state n).pc i).emplaceHeld? = some t →
    ((∃ m, n ≤ m ∧ (X.state m).pc i = .idle) ↔
      ∃ m, t.toNat < (X.state m).shared.tail.toNat + size.toNat)
  pop : ∀ n i t, ((X.state n).pc i).popHeld? = some t →
    ((∃ m, n ≤ m ∧ (X.state m).pc i = .idle) ↔
      ∃ m, t.toNat < (X.state m).shared.head.toNat)

/--
A producer returns exactly if `tail_` comes within a ring of its ticket, and a consumer
exactly if `head_` comes beyond its ticket: nobody waits for anything else.
-/
theorem mpmc_progress
    (hsize : 0 < size.toNat)
    (hfew : ∀ n, FewTickets (X.trace n))
    (hfair : ∀ i, X.Fair (Event.InCall i) (Event.Own i)) :
    Progress X := by
  constructor
  · intro n i t hheld
    constructor
    · rintro ⟨m, hm, hidle⟩
      exact ⟨m, tail_of_emplace_returned hfew hsize hheld hm hidle⟩
    · rintro ⟨m, hm⟩
      rcases Nat.lt_or_ge t.toNat size.toNat with hlt | hle
      · exact emplace_returns hfew hfair (.inl hlt) hheld
      · have hsub := BitVec.toNat_sub_of_le (BitVec.le_def.mpr hle)
        obtain ⟨v, hdrawn⟩ := emplaceTicket_of_held hfew hheld
        have hn := (global_at hfew n).tickets
        have hhead := (hn.emplaceIssued t).mp ((mem_emplaceTickets_iff _ t).mpr ⟨i, v, hdrawn⟩)
        have hemplace := (hn.emplaceIssued (t - size)).mpr (by omega)
        have hpop := ((global_at hfew m).tickets.popIssued (t - size)).mpr (by omega)
        obtain ⟨k, hk, hstage⟩ := finished_of_drawn hfew hfair hsize (n := Nat.max n m)
          (emplaceTickets_mono (Nat.le_max_left n m) hemplace)
          (popTickets_mono (Nat.le_max_right n m) hpop)
        have hnk : n ≤ k := Nat.le_trans (Nat.le_max_left n m) hk
        rcases returned_or_held (x := .emplace) hnk hheld with hreturned | hheld
        · exact hreturned
        · obtain ⟨l, hl, hidle⟩ := emplace_returns hfew hfair (.inr hstage) hheld
          exact ⟨l, Nat.le_trans hnk hl, hidle⟩
  · intro n i t hheld
    constructor
    · rintro ⟨m, hm, hidle⟩
      exact ⟨m, head_of_pop_returned hfew hheld hm hidle⟩
    · rintro ⟨m, hm⟩
      have hpop := (mem_popTickets_iff _ t).mpr ⟨i, ownsPop_of_held hfew hheld⟩
      have hemplace := ((global_at hfew m).tickets.emplaceIssued t).mpr hm
      obtain ⟨k, hk, hstage⟩ := finished_of_drawn hfew hfair hsize (n := Nat.max n m)
        (emplaceTickets_mono (Nat.le_max_right n m) hemplace)
        (popTickets_mono (Nat.le_max_left n m) hpop)
      have hnk : n ≤ k := Nat.le_trans (Nat.le_max_left n m) hk
      rcases returned_or_held (x := .pop) hnk hheld with hreturned | hheld
      · exact hreturned
      · obtain ⟨l, hl, hidle⟩ := pop_returns hfew hfair (by omega) hheld
        exact ⟨l, Nat.le_trans hnk hl, hidle⟩

/-- The hand-over of one value, after which nothing happens any more. -/
def waitedFor : Execution (queue 1 : System (Config Bool (Pc Nat) (Queue Nat)) (Event Bool Nat)) :=
  .ofEnabled (queue 1) start handOver initial_start (by decide)

theorem mpmc_progress_waitedFor :
    Progress waitedFor := by
  have hidle : ∀ i, ((queue 1).exec start handOver).pc i = .idle := by
    decide
  refine mpmc_progress (by decide) ?_ ?_
  · intro n
    have htrace : waitedFor.trace n = handOver.take n := Execution.trace_ofEnabled n
    have hall : FewTickets (handOver.take n ++ handOver.drop n) := by
      rw [List.take_append_drop]
      decide
    rw [htrace]
    exact fewTickets_of_append hall
  · intro i
    exact Execution.fair_ofEnabled fun e he hguard =>
      he.2 (hguard.1.symm.trans (hidle e.actor))

end Executions

end Mpmc
end Ptl

import Ptl.MpmcQueue

/-!
# Proof outline of the MPMC queue

The invariant behind the queue, as a proof outline in the sense of
`ThreadProgram`.

**Global assertion.**
* `TicketFacts`: `head_` and `tail_` count the tickets drawn so far, and every
  ticket has one owner.
* `TicketSlot`: for a ticket `t` with round `r` the sequence number `q` of its
  slot tells how far the ticket has come.  Before its turn `q < 2 r`; from
  `q = 2 r` on its producer may construct; from `q = 2 r + 1` on its consumer
  may take; after that `q` is at least `2 r + 2`.  The storage holds the value
  of `t` exactly between the two.

**Local assertion.**  `Local` says how far the ticket held at a control point
has come, and `Accounted` that a ticket drawn by a thread is either finished or
still held by it.

The tickets are bounded by `2 ^ 63` so that twice a round fits into `size_t`.
-/

namespace Ptl
namespace Mpmc

open Transition

universe u v

variable {ι : Type u} {V : Type v}

/-- Fewer than `2 ^ 63` tickets have been issued. -/
def FewTickets (tr : List (Event ι V)) : Prop :=
  ticketsIssued tr < 2 ^ 63

instance decidableFewTickets
    (tr : List (Event ι V)) :
    Decidable (FewTickets tr) :=
  inferInstanceAs (Decidable (ticketsIssued tr < 2 ^ 63))

/-- The place of a slot operation among the five operations on a ticket. -/
def Event.rank : Event ι V → Nat
  | .construct _ _ _ => 1
  | .emplaceRelease _ _ _ => 2
  | .move _ _ _ => 3
  | .destruct _ _ => 4
  | .popRelease _ _ => 5
  | _ => 0

/-- The ranks of the slot operations on a ticket, in the order they happened. -/
def slotOps (tr : List (Event ι V)) (t : SizeT) : List Nat :=
  (tr.filter fun e => e.slotTicket? = some t).map Event.rank

/-- Sequence number `q`, round `r` and stage `k` of one ticket fit together. -/
def InPhase (q r k : Nat) : Prop :=
  (q < 2 * r ∧ k = 0) ∨
  (q = 2 * r ∧ k ≤ 1) ∨
  (q = 2 * r + 1 ∧ 2 ≤ k ∧ k ≤ 4) ∨
  (2 * r + 2 ≤ q ∧ k = 5)

/-- The sequence number of the slot of a ticket. -/
def sequenceOf (q : Queue V) (size t : SizeT) : Nat :=
  (q.slotOf size t).sequence.toNat

/-- `head_` and `tail_` count the issued tickets, each of which has one owner. -/
structure TicketFacts
    (tr : List (Event ι V)) (q : Queue V) : Prop where
  head : q.head.toNat = (emplaceTickets tr).length
  tail : q.tail.toNat = (popTickets tr).length
  emplaceIssued : ∀ t, t ∈ emplaceTickets tr ↔ t.toNat < q.head.toNat
  popIssued : ∀ t, t ∈ popTickets tr ↔ t.toNat < q.tail.toNat
  emplaceNodup : (emplaceTickets tr).Nodup
  popNodup : (popTickets tr).Nodup
  emplaceOwner : ∀ i j t v u,
    Event.emplaceTicket i t v ∈ tr →
    Event.emplaceTicket j t u ∈ tr →
    i = j ∧ v = u
  popOwner : ∀ i j t, OwnsPop tr i t → OwnsPop tr j t → i = j

/-- What the slot of ticket `t` holds, by the stage of the ticket. -/
structure TicketSlot
    (size : SizeT) (tr : List (Event ι V)) (q : Queue V)
    (t : SizeT) : Prop where
  phase : InPhase (sequenceOf q size t) (round size t) (stage tr t)
  ordered : slotOps tr t = List.range' 1 (stage tr t)
  empty : sequenceOf q size t = 2 * round size t →
    stage tr t = 0 → (q.slotOf size t).data = .raw
  filled : stage tr t = 1 ∨ stage tr t = 2 →
    ∃ j v, Event.emplaceTicket j t v ∈ tr ∧
      Event.construct j t v ∈ tr ∧
      (q.slotOf size t).data = .live v
  moved : stage tr t = 3 → (q.slotOf size t).data = .movedFrom
  destructed : stage tr t = 4 → (q.slotOf size t).data = .raw
  issued : 1 ≤ stage tr t → t ∈ emplaceTickets tr
  drawn : 3 ≤ stage tr t → t ∈ popTickets tr

/-- The global assertion. -/
structure Global
    (size : SizeT) (tr : List (Event ι V)) (q : Queue V) : Prop where
  tickets : TicketFacts tr q
  slot : ∀ t, TicketSlot size tr q t

/-- The assertion at each control point. -/
def Local
    (size : SizeT) (tr : List (Event ι V)) (q : Queue V) (i : ι) :
    Pc V → Prop
  | .idle => True
  | .emplaceBegin _ => True
  | .emplaceSpin t v =>
      .emplaceTicket i t v ∈ tr ∧ stage tr t = 0
  | .emplaceConstruct t v =>
      .emplaceTicket i t v ∈ tr ∧ stage tr t = 0 ∧
        sequenceOf q size t = 2 * round size t
  | .emplaceRelease t v =>
      .emplaceTicket i t v ∈ tr ∧ stage tr t = 1
  | .popBegin => True
  | .popSpin t => OwnsPop tr i t ∧ stage tr t ≤ 2
  | .popMove t => OwnsPop tr i t ∧ stage tr t = 2
  | .popDestruct t => OwnsPop tr i t ∧ stage tr t = 3
  | .popRelease t => OwnsPop tr i t ∧ stage tr t = 4
  | .tryPopBegin => True
  | .tryPopCheck t => t.toNat ≤ q.tail.toNat
  | .tryPopCas t =>
      t.toNat ≤ q.tail.toNat ∧
        (t = q.tail → sequenceOf q size t = 2 * round size t + 1)
  | .tryPopReload t => t.toNat ≤ q.tail.toNat

/-- The ticket from `head_` that a control point holds. -/
def Pc.emplaceHeld? : Pc V → Option SizeT
  | .emplaceSpin t _ => some t
  | .emplaceConstruct t _ => some t
  | .emplaceRelease t _ => some t
  | _ => none

/-- The ticket from `tail_` that a control point holds. -/
def Pc.popHeld? : Pc V → Option SizeT
  | .popSpin t => some t
  | .popMove t => some t
  | .popDestruct t => some t
  | .popRelease t => some t
  | _ => none

/-- Every ticket drawn by thread `i` is finished or still held by it. -/
def Accounted
    (tr : List (Event ι V)) (i : ι) (p : Pc V) : Prop :=
  (∀ t v, .emplaceTicket i t v ∈ tr →
    2 ≤ stage tr t ∨ p.emplaceHeld? = some t) ∧
  (∀ t, OwnsPop tr i t →
    5 ≤ stage tr t ∨ p.popHeld? = some t)

section Stages

theorem slotOps_append_of_slotTicket
    (tr : List (Event ι V)) {e : Event ι V} {t : SizeT}
    (he : e.slotTicket? = some t) :
    slotOps (tr ++ [e]) t = slotOps tr t ++ [e.rank] := by
  simp [slotOps, List.filter_append, he]

theorem slotOps_append_of_ne
    (tr : List (Event ι V)) {e : Event ι V} {t : SizeT}
    (he : e.slotTicket? ≠ some t) :
    slotOps (tr ++ [e]) t = slotOps tr t := by
  simp [slotOps, List.filter_append, he]

theorem stage_append_of_slotTicket
    (tr : List (Event ι V)) {e : Event ι V} {t : SizeT}
    (he : e.slotTicket? = some t) :
    stage (tr ++ [e]) t = stage tr t + 1 := by
  simp [stage_append_singleton, he]

theorem stage_append_of_ne
    (tr : List (Event ι V)) {e : Event ι V} {t : SizeT}
    (he : e.slotTicket? ≠ some t) :
    stage (tr ++ [e]) t = stage tr t := by
  simp [stage_append_singleton, he]

theorem stage_le_append
    (tr : List (Event ι V)) (e : Event ι V) (t : SizeT) :
    stage tr t ≤ stage (tr ++ [e]) t := by
  rw [stage_append_singleton]
  omega

/-- An operation in the trace has been passed by the stage of its ticket. -/
theorem TicketSlot.rank_le_stage
    {size : SizeT} {tr : List (Event ι V)} {q : Queue V} {t : SizeT}
    (h : TicketSlot size tr q t)
    {e : Event ι V}
    (he : e ∈ tr)
    (ht : e.slotTicket? = some t) :
    e.rank ≤ stage tr t := by
  have hmem : e.rank ∈ slotOps tr t :=
    List.mem_map.mpr ⟨e, List.mem_filter.mpr ⟨he, by simpa using ht⟩, rfl⟩
  rw [h.ordered, List.mem_range'_1] at hmem
  omega

/-- Every operation up to the stage of a ticket is in the trace. -/
theorem TicketSlot.exists_of_le_stage
    {size : SizeT} {tr : List (Event ι V)} {q : Queue V} {t : SizeT}
    (h : TicketSlot size tr q t)
    {k : Nat}
    (hpos : 1 ≤ k)
    (hk : k ≤ stage tr t) :
    ∃ e ∈ tr, e.slotTicket? = some t ∧ e.rank = k := by
  have hmem : k ∈ slotOps tr t := by
    rw [h.ordered, List.mem_range'_1]
    omega
  obtain ⟨e, he, hrank⟩ := List.mem_map.mp hmem
  obtain ⟨hetr, het⟩ := List.mem_filter.mp he
  exact ⟨e, hetr, by simpa using het, hrank⟩

end Stages

section DrawingTickets

theorem emplaceTickets_append
    (tr : List (Event ι V)) (e : Event ι V) :
    emplaceTickets (tr ++ [e]) =
      emplaceTickets tr ++ e.emplaceTicket?.toList := by
  cases h : e.emplaceTicket? <;>
    simp [emplaceTickets, List.filterMap_append, h]

theorem popTickets_append
    (tr : List (Event ι V)) (e : Event ι V) :
    popTickets (tr ++ [e]) =
      popTickets tr ++ e.popTicket?.toList := by
  cases h : e.popTicket? <;>
    simp [popTickets, List.filterMap_append, h]

/-- A prefix of a trace with few tickets has few tickets. -/
theorem fewTickets_of_append
    {es fs : List (Event ι V)}
    (h : FewTickets (es ++ fs)) :
    FewTickets es := by
  simp only [FewTickets, ticketsIssued, emplaceTickets, popTickets,
    List.filterMap_append, List.length_append] at h ⊢
  omega

theorem FewTickets.of_append
    {tr : List (Event ι V)} {e : Event ι V}
    (h : FewTickets (tr ++ [e])) :
    FewTickets tr :=
  fewTickets_of_append h

theorem ownsPop_append_iff
    (tr : List (Event ι V)) (e : Event ι V) (i : ι) (t : SizeT) :
    OwnsPop (tr ++ [e]) i t
      ↔
    OwnsPop tr i t ∨ (e.popTicket? = some t ∧ e.actor = i) := by
  simp only [OwnsPop, List.mem_append, List.mem_singleton]
  cases e <;> simp [Event.popTicket?, Event.actor] <;> grind

theorem OwnsPop.append
    {tr : List (Event ι V)} {i : ι} {t : SizeT}
    (h : OwnsPop tr i t)
    (e : Event ι V) :
    OwnsPop (tr ++ [e]) i t :=
  (ownsPop_append_iff tr e i t).2 (Or.inl h)

theorem emplaceTicket_mem_append_iff
    (tr : List (Event ι V)) (e : Event ι V)
    (i : ι) (t : SizeT) (v : V) :
    Event.emplaceTicket i t v ∈ tr ++ [e]
      ↔
    Event.emplaceTicket i t v ∈ tr ∨ e = .emplaceTicket i t v := by
  simp [eq_comm]

/-- A step that draws no ticket from `head_` adds none to the past. -/
theorem emplaceTicket_mem_of_append
    {tr : List (Event ι V)} {e : Event ι V}
    (hemplace : e.emplaceTicket? = none)
    {i : ι} {t : SizeT} {v : V}
    (h : Event.emplaceTicket i t v ∈ tr ++ [e]) :
    Event.emplaceTicket i t v ∈ tr := by
  rcases (emplaceTicket_mem_append_iff tr e i t v).1 h with h | rfl
  · exact h
  · simp [Event.emplaceTicket?] at hemplace

/-- A step that draws no ticket. -/
theorem TicketFacts.keep
    {tr : List (Event ι V)} {q q' : Queue V} {e : Event ι V}
    (h : TicketFacts tr q)
    (hemplace : e.emplaceTicket? = none)
    (hpop : e.popTicket? = none)
    (hhead : q'.head = q.head)
    (htail : q'.tail = q.tail) :
    TicketFacts (tr ++ [e]) q' := by
  have hE : emplaceTickets (tr ++ [e]) = emplaceTickets tr := by
    simp [emplaceTickets_append, hemplace]
  have hP : popTickets (tr ++ [e]) = popTickets tr := by
    simp [popTickets_append, hpop]
  have hown : ∀ i t, OwnsPop (tr ++ [e]) i t ↔ OwnsPop tr i t := by
    intro i t
    simp [ownsPop_append_iff, hpop]
  exact
    { head := by rw [hhead, hE, h.head]
      tail := by rw [htail, hP, h.tail]
      emplaceIssued := by
        intro t
        rw [hE, hhead, h.emplaceIssued]
      popIssued := by
        intro t
        rw [hP, htail, h.popIssued]
      emplaceNodup := by
        rw [hE]
        exact h.emplaceNodup
      popNodup := by
        rw [hP]
        exact h.popNodup
      emplaceOwner := by
        intro i j t v u hi hj
        exact h.emplaceOwner i j t v u (emplaceTicket_mem_of_append hemplace hi)
          (emplaceTicket_mem_of_append hemplace hj)
      popOwner := by
        intro i j t hi hj
        exact h.popOwner i j t ((hown i t).1 hi) ((hown j t).1 hj) }

/-- `fetch_add` on a counter that is far from wrapping. -/
theorem succ_toNat_of_lt
    {x : SizeT}
    (h : x.toNat < 2 ^ 63) :
    (x + 1).toNat = x.toNat + 1 := by
  have h1 : (1 : SizeT).toNat = 1 := by
    rfl
  rw [BitVec.toNat_add, h1]
  omega

/-- Appending the ticket `x` to the tickets below `x`. -/
theorem mem_append_ticket_iff
    {ts : List SizeT} {x : SizeT}
    (hx : x.toNat < 2 ^ 63)
    (hts : ∀ t, t ∈ ts ↔ t.toNat < x.toNat)
    (t : SizeT) :
    t ∈ ts ++ [x] ↔ t.toNat < (x + 1).toNat := by
  rw [List.mem_append, List.mem_singleton, hts,
    succ_toNat_of_lt hx, ← BitVec.toNat_inj]
  omega

theorem nodup_append_ticket
    {ts : List SizeT} {x : SizeT}
    (hnodup : ts.Nodup)
    (hts : ∀ t, t ∈ ts ↔ t.toNat < x.toNat) :
    (ts ++ [x]).Nodup := by
  rw [List.nodup_append]
  refine ⟨hnodup, List.nodup_singleton x, ?_⟩
  rintro t ht u hu rfl
  rw [List.mem_singleton] at hu
  subst hu
  exact lt_irrefl _ ((hts t).1 ht)

/-- `head_.fetch_add(1)` in `emplace`. -/
theorem TicketFacts.drawHead
    {tr : List (Event ι V)} {q : Queue V}
    (h : TicketFacts tr q)
    (i : ι) (v : V)
    (hfew : q.head.toNat < 2 ^ 63) :
    TicketFacts (tr ++ [.emplaceTicket i q.head v])
      { q with head := q.head + 1 } := by
  have hE : emplaceTickets (tr ++ [.emplaceTicket i q.head v]) =
      emplaceTickets tr ++ [q.head] := by
    simp [emplaceTickets_append, Event.emplaceTicket?]
  have hP : popTickets (tr ++ [.emplaceTicket i q.head v]) =
      popTickets tr := by
    simp [popTickets_append, Event.popTicket?]
  have hown : ∀ j t,
      OwnsPop (tr ++ [.emplaceTicket i q.head v]) j t ↔
        OwnsPop tr j t := by
    intro j t
    simp [ownsPop_append_iff, Event.popTicket?]
  have hfresh : ∀ j u, Event.emplaceTicket j q.head u ∉ tr := by
    intro j u hm
    have hlt := (h.emplaceIssued q.head).1
      ((mem_emplaceTickets_iff tr q.head).2 ⟨j, u, hm⟩)
    exact lt_irrefl _ hlt
  exact
    { head := by
        rw [hE, List.length_append, List.length_singleton, ← h.head]
        exact succ_toNat_of_lt hfew
      tail := by rw [hP, h.tail]
      emplaceIssued := by
        intro t
        rw [hE]
        exact mem_append_ticket_iff hfew h.emplaceIssued t
      popIssued := by
        intro t
        rw [hP, h.popIssued]
      emplaceNodup := by
        rw [hE]
        exact nodup_append_ticket h.emplaceNodup h.emplaceIssued
      popNodup := by
        rw [hP]
        exact h.popNodup
      emplaceOwner := by
        intro j k t w u hj hk
        rw [emplaceTicket_mem_append_iff] at hj hk
        rcases hj with hj | hj
        · rcases hk with hk | hk
          · exact h.emplaceOwner j k t w u hj hk
          · injection hk with _ ht _
            rw [← ht] at hj
            exact absurd hj (hfresh j w)
        · injection hj with hij ht hv
          rcases hk with hk | hk
          · rw [← ht] at hk
            exact absurd hk (hfresh k u)
          · injection hk with hik _ hu
            exact ⟨hij.symm.trans hik, hv.symm.trans hu⟩
      popOwner := by
        intro j k t hj hk
        exact h.popOwner j k t ((hown j t).1 hj) ((hown k t).1 hk) }

/-- `tail_.fetch_add(1)` in `pop` and the successful exchange in `try_pop`. -/
theorem TicketFacts.drawTail
    {tr : List (Event ι V)} {q : Queue V} {e : Event ι V}
    (h : TicketFacts tr q)
    (hemplace : e.emplaceTicket? = none)
    (hpop : e.popTicket? = some q.tail)
    (hfew : q.tail.toNat < 2 ^ 63) :
    TicketFacts (tr ++ [e]) { q with tail := q.tail + 1 } := by
  have hE : emplaceTickets (tr ++ [e]) = emplaceTickets tr := by
    simp [emplaceTickets_append, hemplace]
  have hP : popTickets (tr ++ [e]) = popTickets tr ++ [q.tail] := by
    simp [popTickets_append, hpop]
  have hfresh : ∀ j, ¬ OwnsPop tr j q.tail := by
    intro j hj
    have hlt := (h.popIssued q.tail).1
      ((mem_popTickets_iff tr q.tail).2 ⟨j, hj⟩)
    exact lt_irrefl _ hlt
  exact
    { head := by rw [hE, h.head]
      tail := by
        rw [hP, List.length_append, List.length_singleton, ← h.tail]
        exact succ_toNat_of_lt hfew
      emplaceIssued := by
        intro t
        rw [hE, h.emplaceIssued]
      popIssued := by
        intro t
        rw [hP]
        exact mem_append_ticket_iff hfew h.popIssued t
      emplaceNodup := by
        rw [hE]
        exact h.emplaceNodup
      popNodup := by
        rw [hP]
        exact nodup_append_ticket h.popNodup h.popIssued
      emplaceOwner := by
        intro i j t v u hi hj
        exact h.emplaceOwner i j t v u (emplaceTicket_mem_of_append hemplace hi)
          (emplaceTicket_mem_of_append hemplace hj)
      popOwner := by
        intro j k t hj hk
        rw [ownsPop_append_iff, hpop] at hj hk
        rcases hj with hj | ⟨hj, hej⟩
        · rcases hk with hk | ⟨hk, -⟩
          · exact h.popOwner j k t hj hk
          · injection hk with ht
            rw [← ht] at hj
            exact absurd hj (hfresh j)
        · rcases hk with hk | ⟨-, hek⟩
          · injection hj with ht
            rw [← ht] at hk
            exact absurd hk (hfresh k)
          · exact hej.symm.trans hek }

/-- With few tickets issued the next ticket of `head_` is small. -/
theorem TicketFacts.head_lt
    {tr : List (Event ι V)} {q : Queue V}
    (h : TicketFacts tr q)
    (hfew : FewTickets tr) :
    q.head.toNat < 2 ^ 63 := by
  rw [h.head]
  simp only [FewTickets, ticketsIssued] at hfew
  omega

theorem TicketFacts.tail_lt
    {tr : List (Event ι V)} {q : Queue V}
    (h : TicketFacts tr q)
    (hfew : FewTickets tr) :
    q.tail.toNat < 2 ^ 63 := by
  rw [h.tail]
  simp only [FewTickets, ticketsIssued] at hfew
  omega

/-- Tickets issued by `head_` are small. -/
theorem TicketFacts.emplaceTicket_lt
    {tr : List (Event ι V)} {q : Queue V}
    (h : TicketFacts tr q)
    (hfew : FewTickets tr)
    {i : ι} {t : SizeT} {v : V}
    (ht : Event.emplaceTicket i t v ∈ tr) :
    t.toNat + 1 < 2 ^ 63 := by
  have hlt := (h.emplaceIssued t).1
    ((mem_emplaceTickets_iff tr t).2 ⟨i, v, ht⟩)
  exact lt_of_le_of_lt hlt (h.head_lt hfew)

/-- Tickets issued by `tail_` are small. -/
theorem TicketFacts.popTicket_lt
    {tr : List (Event ι V)} {q : Queue V}
    (h : TicketFacts tr q)
    (hfew : FewTickets tr)
    {i : ι} {t : SizeT}
    (ht : OwnsPop tr i t) :
    t.toNat + 1 < 2 ^ 63 := by
  have hlt := (h.popIssued t).1
    ((mem_popTickets_iff tr t).2 ⟨i, ht⟩)
  exact lt_of_le_of_lt hlt (h.tail_lt hfew)

end DrawingTickets

section SlotOperations

variable {size : SizeT}

/-- Tickets of one slot see one sequence number. -/
theorem sequenceOf_eq_of_idx
    (q : Queue V) {t t' : SizeT}
    (h : idx size t = idx size t') :
    sequenceOf q size t = sequenceOf q size t' := by
  simp [sequenceOf, Queue.slotOf, h]

/-- A slot operation appends its rank to the operations on its ticket. -/
theorem slotOps_ordered_append
    {tr : List (Event ι V)} {e : Event ι V} {t : SizeT}
    (hordered : slotOps tr t = List.range' 1 (stage tr t))
    (he : e.slotTicket? = some t)
    (hrank : e.rank = stage tr t + 1) :
    slotOps (tr ++ [e]) t = List.range' 1 (stage (tr ++ [e]) t) := by
  rw [slotOps_append_of_slotTicket tr he,
    stage_append_of_slotTicket tr he, List.range'_1_concat,
    hordered, hrank, Nat.add_comm]

/-- A step that leaves the slot and the ticket alone. -/
theorem TicketSlot.frame
    {tr : List (Event ι V)} {q q' : Queue V} {e : Event ι V} {t : SizeT}
    (h : TicketSlot size tr q t)
    (he : e.slotTicket? ≠ some t)
    (hslot : q'.slotOf size t = q.slotOf size t) :
    TicketSlot size (tr ++ [e]) q' t := by
  have hstage := stage_append_of_ne tr he
  have hseq : sequenceOf q' size t = sequenceOf q size t := by
    simp [sequenceOf, hslot]
  exact
    { phase := by
        rw [hstage, hseq]
        exact h.phase
      ordered := by
        rw [hstage, slotOps_append_of_ne tr he]
        exact h.ordered
      empty := by
        rw [hstage, hseq, hslot]
        exact h.empty
      filled := by
        intro hk
        rw [hstage] at hk
        obtain ⟨j, v, hticket, hconstruct, hdata⟩ := h.filled hk
        exact ⟨j, v, List.mem_append_left _ hticket,
          List.mem_append_left _ hconstruct, by rw [hslot, hdata]⟩
      moved := by
        rw [hstage, hslot]
        exact h.moved
      destructed := by
        rw [hstage, hslot]
        exact h.destructed
      issued := by
        intro hk
        rw [hstage] at hk
        rw [emplaceTickets_append]
        exact List.mem_append_left _ (h.issued hk)
      drawn := by
        intro hk
        rw [hstage] at hk
        rw [popTickets_append]
        exact List.mem_append_left _ (h.drawn hk) }

/--
A slot operation on the ticket whose turn it is, seen by another ticket of the
same slot.
-/
theorem TicketSlot.sameSlot
    {tr : List (Event ι V)} {q : Queue V} {e : Event ι V}
    {t t₀ : SizeT} {slot : Slot V}
    (h : TicketSlot size tr q t)
    (he : e.slotTicket? = some t₀)
    (hne : t ≠ t₀)
    (hidx : idx size t = idx size t₀)
    (hcurrent : sequenceOf q size t₀ / 2 = round size t₀)
    (hseq : slot.sequence.toNat = sequenceOf q size t₀ ∨
      slot.sequence.toNat = sequenceOf q size t₀ + 1)
    (hraw : slot.sequence.toNat = 2 * round size t₀ + 2 →
      slot.data = .raw) :
    TicketSlot size (tr ++ [e]) (q.setSlot size t₀ slot) t := by
  have hround : round size t ≠ round size t₀ := by
    intro hr
    exact hne (ticket_eq_of_idx_of_round hidx hr)
  have het : e.slotTicket? ≠ some t := by
    rw [he]
    intro h'
    exact hne (Option.some.inj h').symm
  have hstage := stage_append_of_ne tr het
  have hslot := Queue.slotOf_setSlot_of_idx_eq q slot hidx
  have hseq' :
      sequenceOf (q.setSlot size t₀ slot) size t =
        slot.sequence.toNat := by
    simp [sequenceOf, hslot]
  have hold : sequenceOf q size t = sequenceOf q size t₀ :=
    sequenceOf_eq_of_idx q hidx
  have hphase := h.phase
  rw [hold] at hphase
  -- another round of the slot is either not yet begun or completely over
  have hdone : stage tr t = 0 ∨ stage tr t = 5 := by
    rcases hphase with hp | hp | hp | hp <;> omega
  exact
    { phase := by
        rw [hstage, hseq']
        rcases hphase with hp | hp | hp | hp
        · rcases hseq with hs | hs
          · exact Or.inl (by omega)
          · by_cases hlt : slot.sequence.toNat < 2 * round size t
            · exact Or.inl ⟨hlt, hp.2⟩
            · exact Or.inr (Or.inl (by omega))
        · omega
        · omega
        · exact Or.inr (Or.inr (Or.inr (by omega)))
      ordered := by
        rw [hstage, slotOps_append_of_ne tr het]
        exact h.ordered
      empty := by
        intro hs hk
        rw [hseq'] at hs
        rw [hslot]
        exact hraw (by omega)
      filled := by
        intro hk
        omega
      moved := by
        intro hk
        omega
      destructed := by
        intro hk
        omega
      issued := by
        intro hk
        rw [hstage] at hk
        rw [emplaceTickets_append]
        exact List.mem_append_left _ (h.issued hk)
      drawn := by
        intro hk
        rw [hstage] at hk
        rw [popTickets_append]
        exact List.mem_append_left _ (h.drawn hk) }

/-- `slot.construct(...)` by the producer whose turn it is. -/
theorem TicketSlot.construct
    {tr : List (Event ι V)} {q : Queue V} {i : ι} {t : SizeT} {v : V}
    (h : TicketSlot size tr q t)
    (howner : Event.emplaceTicket i t v ∈ tr)
    (hstage : stage tr t = 0)
    (hturn : sequenceOf q size t = 2 * round size t) :
    TicketSlot size (tr ++ [.construct i t v])
      (q.setSlot size t ((q.slotOf size t).construct v)) t := by
  have he : (Event.construct i t v).slotTicket? = some t := rfl
  have hstage' :
      stage (tr ++ [.construct i t v]) t = 1 := by
    rw [stage_append_of_slotTicket tr he, hstage]
  have hslot := Queue.slotOf_setSlot_of_idx_eq q
    ((q.slotOf size t).construct v) (rfl : idx size t = idx size t)
  exact
    { phase := by
        rw [hstage', sequenceOf, hslot, Slot.construct_sequence]
        exact Or.inr (Or.inl ⟨hturn, le_refl 1⟩)
      ordered := by
        exact slotOps_ordered_append h.ordered he
          (by simp [Event.rank, hstage])
      empty := by
        intro _ hk
        omega
      filled := by
        intro _
        exact ⟨i, v, List.mem_append_left _ howner,
          List.mem_append_right _ (List.mem_singleton_self _),
          by rw [hslot]; rfl⟩
      moved := by
        intro hk
        omega
      destructed := by
        intro hk
        omega
      issued := by
        intro _
        rw [emplaceTickets_append]
        exact List.mem_append_left _
          ((mem_emplaceTickets_iff tr t).2 ⟨i, v, howner⟩)
      drawn := by
        intro hk
        omega }

/-- The release store of `emplace`. -/
theorem TicketSlot.emplaceRelease
    {tr : List (Event ι V)} {q : Queue V} {i : ι} {t : SizeT} {v : V}
    (h : TicketSlot size tr q t)
    (hsmall : t.toNat + 1 < 2 ^ 63)
    (hstage : stage tr t = 1) :
    TicketSlot size (tr ++ [.emplaceRelease i t v])
      (q.setSlot size t
        ((q.slotOf size t).store (releaseTurn size t))) t := by
  have he : (Event.emplaceRelease i t v).slotTicket? = some t := rfl
  have hstage' :
      stage (tr ++ [.emplaceRelease i t v]) t = 2 := by
    rw [stage_append_of_slotTicket tr he, hstage]
  have hslot := Queue.slotOf_setSlot_of_idx_eq q
    ((q.slotOf size t).store (releaseTurn size t))
    (rfl : idx size t = idx size t)
  have hrelease :
      (releaseTurn size t).toNat = 2 * round size t + 1 := by
    have hle := round_le size t
    exact releaseTurn_toNat (by omega)
  exact
    { phase := by
        rw [hstage', sequenceOf, hslot, Slot.store_sequence, hrelease]
        exact Or.inr (Or.inr (Or.inl (by omega)))
      ordered := by
        exact slotOps_ordered_append h.ordered he
          (by simp [Event.rank, hstage])
      empty := by
        intro _ hk
        omega
      filled := by
        intro _
        obtain ⟨j, u, hticket, hconstruct, hdata⟩ :=
          h.filled (Or.inl hstage)
        exact ⟨j, u, List.mem_append_left _ hticket,
          List.mem_append_left _ hconstruct,
          by rw [hslot, Slot.store_data, hdata]⟩
      moved := by
        intro hk
        omega
      destructed := by
        intro hk
        omega
      issued := by
        intro _
        rw [emplaceTickets_append]
        exact List.mem_append_left _ (h.issued (by omega))
      drawn := by
        intro hk
        omega }

/-- `v = slot.move()` by the consumer whose turn it is. -/
theorem TicketSlot.move
    {tr : List (Event ι V)} {q : Queue V} {i : ι} {t : SizeT}
    {x : Option V}
    (h : TicketSlot size tr q t)
    (howner : OwnsPop tr i t)
    (hstage : stage tr t = 2) :
    TicketSlot size (tr ++ [.move i t x])
      (q.setSlot size t (q.slotOf size t).move.2) t := by
  have he : (Event.move i t x).slotTicket? = some t := rfl
  have hstage' : stage (tr ++ [.move i t x]) t = 3 := by
    rw [stage_append_of_slotTicket tr he, hstage]
  have hslot := Queue.slotOf_setSlot_of_idx_eq q
    (q.slotOf size t).move.2 (rfl : idx size t = idx size t)
  obtain ⟨j, v, -, -, hdata⟩ := h.filled (Or.inr hstage)
  have hphase := h.phase
  exact
    { phase := by
        rw [hstage', sequenceOf, hslot, Slot.move_sequence]
        rw [hstage, sequenceOf] at hphase
        simp only [InPhase] at hphase ⊢
        omega
      ordered := by
        exact slotOps_ordered_append h.ordered he
          (by simp [Event.rank, hstage])
      empty := by
        intro _ hk
        omega
      filled := by
        intro hk
        omega
      moved := by
        intro _
        rw [hslot, Slot.move_of_live hdata]
      destructed := by
        intro hk
        omega
      issued := by
        intro _
        rw [emplaceTickets_append]
        exact List.mem_append_left _ (h.issued (by omega))
      drawn := by
        intro _
        rw [popTickets_append]
        exact List.mem_append_left _
          ((mem_popTickets_iff tr t).2 ⟨i, howner⟩) }

/-- `slot.destruct()` after the move. -/
theorem TicketSlot.destruct
    {tr : List (Event ι V)} {q : Queue V} {i : ι} {t : SizeT}
    (h : TicketSlot size tr q t)
    (hstage : stage tr t = 3) :
    TicketSlot size (tr ++ [.destruct i t])
      (q.setSlot size t (q.slotOf size t).destruct) t := by
  have he : (Event.destruct i t : Event ι V).slotTicket? = some t := rfl
  have hstage' : stage (tr ++ [.destruct i t]) t = 4 := by
    rw [stage_append_of_slotTicket tr he, hstage]
  have hslot := Queue.slotOf_setSlot_of_idx_eq q
    (q.slotOf size t).destruct (rfl : idx size t = idx size t)
  have hphase := h.phase
  exact
    { phase := by
        rw [hstage', sequenceOf, hslot, Slot.destruct_sequence]
        rw [hstage, sequenceOf] at hphase
        simp only [InPhase] at hphase ⊢
        omega
      ordered := by
        exact slotOps_ordered_append h.ordered he
          (by simp [Event.rank, hstage])
      empty := by
        intro _ hk
        omega
      filled := by
        intro hk
        omega
      moved := by
        intro hk
        omega
      destructed := by
        intro _
        rw [hslot]
        rfl
      issued := by
        intro _
        rw [emplaceTickets_append]
        exact List.mem_append_left _ (h.issued (by omega))
      drawn := by
        intro _
        rw [popTickets_append]
        exact List.mem_append_left _ (h.drawn (by omega)) }

/-- The release store of `pop` and `try_pop`, which opens the next round. -/
theorem TicketSlot.popRelease
    {tr : List (Event ι V)} {q : Queue V} {i : ι} {t : SizeT}
    (h : TicketSlot size tr q t)
    (hsmall : t.toNat + 1 < 2 ^ 63)
    (hstage : stage tr t = 4) :
    TicketSlot size (tr ++ [.popRelease i t])
      (q.setSlot size t
        ((q.slotOf size t).store (releaseTurn size t + 1))) t := by
  have he : (Event.popRelease i t : Event ι V).slotTicket? = some t := rfl
  have hstage' : stage (tr ++ [.popRelease i t]) t = 5 := by
    rw [stage_append_of_slotTicket tr he, hstage]
  have hslot := Queue.slotOf_setSlot_of_idx_eq q
    ((q.slotOf size t).store (releaseTurn size t + 1))
    (rfl : idx size t = idx size t)
  have hrelease :
      (releaseTurn size t + 1).toNat = 2 * round size t + 2 := by
    have hle := round_le size t
    exact releaseTurn_succ_toNat (by omega)
  exact
    { phase := by
        rw [hstage', sequenceOf, hslot, Slot.store_sequence, hrelease]
        exact Or.inr (Or.inr (Or.inr (by omega)))
      ordered := by
        exact slotOps_ordered_append h.ordered he
          (by simp [Event.rank, hstage])
      empty := by
        intro _ hk
        omega
      filled := by
        intro hk
        omega
      moved := by
        intro hk
        omega
      destructed := by
        intro hk
        omega
      issued := by
        intro _
        rw [emplaceTickets_append]
        exact List.mem_append_left _ (h.issued (by omega))
      drawn := by
        intro _
        rw [popTickets_append]
        exact List.mem_append_left _ (h.drawn (by omega)) }

end SlotOperations

end Mpmc
end Ptl

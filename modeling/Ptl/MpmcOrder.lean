import Ptl.MpmcInterference
import Mathlib.Data.List.Sort

/-!
# The order in which the MPMC queue hands its values on

The tickets of `head_` and of `tail_` are drawn in increasing order, and a
consumer takes what the producer with the same ticket has constructed.  So the
queue is first-in first-out between any two threads: what a consumer takes from
one producer, it takes in the order in which that producer called `emplace`.

**Results.**
* `pushedBy_eq`, `drawnBy_eq`: a thread sends its values, and takes its tickets,
  in the order of its calls.
* `mpmc_fifo`: the order of the tickets, of the values and between two threads.
-/

namespace Ptl
namespace Mpmc

open Transition

universe u v w

variable {ι : Type u} {V : Type v}

section Sequences

/-- A projection that keeps more keeps a longer list. -/
theorem filterMap_sublist_filterMap
    {α : Type u} {β : Type v} {γ : Type w}
    {f : α → Option β} {g : α → Option γ} {h : β → γ}
    (hfg : ∀ a b, f a = some b → g a = some (h b))
    (l : List α) :
    List.Sublist ((l.filterMap f).map h) (l.filterMap g) := by
  induction l with
  | nil =>
      exact List.Sublist.refl []
  | cons a l ih =>
      cases hf : f a with
      | none =>
          rw [List.filterMap_cons_none hf]
          exact ih.trans ((List.sublist_cons_self a l).filterMap g)
      | some b =>
          rw [List.filterMap_cons_some hf, List.filterMap_cons_some (hfg a b hf)]
          exact ih.cons_cons (h b)

/-- Tickets drawn one after the other, from zero on. -/
def InSequence (ts : List SizeT) : Prop :=
  ts.map BitVec.toNat = List.range ts.length

theorem InSequence.draw
    {ts : List SizeT} {t : SizeT}
    (h : InSequence ts)
    (ht : t.toNat = ts.length) :
    InSequence (ts ++ [t]) := by
  rw [InSequence, List.map_append, h, List.map_singleton, ht, List.length_append,
    List.length_singleton, List.range_succ]

theorem InSequence.pairwise
    {ts : List SizeT}
    (h : InSequence ts) :
    ts.Pairwise fun t u => t.toNat < u.toNat := by
  have hrange := List.pairwise_lt_range (n := ts.length)
  rwa [← h, List.pairwise_map] at hrange

/-- The position of a ticket is its number. -/
theorem InSequence.toNat_getElem
    {ts : List SizeT}
    (h : InSequence ts)
    {k : Nat} (hk : k < ts.length) :
    ts[k].toNat = k := by
  have hmap : (ts.map BitVec.toNat)[k]? = (List.range ts.length)[k]? := by
    rw [h]
  simpa [hk] using hmap

end Sequences

section Threads

variable [DecidableEq ι]

/-- The value that thread `j` passes to a call of `emplace`. -/
def Event.pushed? (j : ι) : Event ι V → Option V
  | .callEmplace i v => if i = j then some v else none
  | _ => none

/-- The ticket of `head_` that thread `j` draws, with its value. -/
def Event.sent? (j : ι) : Event ι V → Option (SizeT × V)
  | .emplaceTicket i t v => if i = j then some (t, v) else none
  | _ => none

/-- The ticket of `tail_` that thread `i` draws. -/
def Event.drawn? (i : ι) : Event ι V → Option SizeT
  | .popTicket j t => if j = i then some t else none
  | .tryPopCas j t => if j = i then some t else none
  | _ => none

/-- What thread `i` moves out of the slot of its ticket. -/
def Event.taken? (i : ι) : Event ι V → Option (SizeT × Option V)
  | .move j t x => if j = i then some (t, x) else none
  | _ => none

def pushedBy (j : ι) (tr : List (Event ι V)) : List V :=
  tr.filterMap (Event.pushed? j)

def sentBy (j : ι) (tr : List (Event ι V)) : List (SizeT × V) :=
  tr.filterMap (Event.sent? j)

def drawnBy (i : ι) (tr : List (Event ι V)) : List SizeT :=
  tr.filterMap (Event.drawn? i)

def takenBy (i : ι) (tr : List (Event ι V)) : List (SizeT × Option V) :=
  tr.filterMap (Event.taken? i)

/-- What thread `i` has taken from thread `j`, in the order in which it took it. -/
def handedOver (j i : ι) (tr : List (Event ι V)) : List (Option V) :=
  ((takenBy i tr).filter fun x => x.1 ∈ (sentBy j tr).map Prod.fst).map Prod.snd

/-- The value of a call of `emplace` that has no ticket yet. -/
def Pc.unsent : Pc V → List V
  | .emplaceBegin v => [v]
  | _ => []

/-- The ticket of `tail_` whose value has not been moved yet. -/
def Pc.untaken : Pc V → List SizeT
  | .popSpin t => [t]
  | .popMove t => [t]
  | _ => []

theorem mem_sentBy_iff
    (j : ι) (tr : List (Event ι V)) (t : SizeT) (v : V) :
    (t, v) ∈ sentBy j tr ↔ Event.emplaceTicket j t v ∈ tr := by
  constructor
  · intro h
    obtain ⟨e, he, hsent⟩ := List.mem_filterMap.mp h
    cases e <;> simp [Event.sent?] at hsent
    obtain ⟨rfl, rfl, rfl⟩ := hsent
    exact he
  · intro h
    exact List.mem_filterMap.mpr ⟨_, h, by simp [Event.sent?]⟩

theorem mem_takenBy_iff
    (i : ι) (tr : List (Event ι V)) (t : SizeT) (x : Option V) :
    (t, x) ∈ takenBy i tr ↔ Event.move i t x ∈ tr := by
  constructor
  · intro h
    obtain ⟨e, he, htaken⟩ := List.mem_filterMap.mp h
    cases e <;> simp [Event.taken?] at htaken
    obtain ⟨rfl, rfl, rfl⟩ := htaken
    exact he
  · intro h
    exact List.mem_filterMap.mpr ⟨_, h, by simp [Event.taken?]⟩

variable {size : SizeT} {tr : List (Event ι V)} {s : Config ι (Pc V) (Queue V)}

/-- A thread draws its tickets of `head_` in the order of its calls of `emplace`. -/
theorem pushedBy_eq
    (hrun : (queue size).Run tr s)
    (j : ι) :
    pushedBy j tr = (sentBy j tr).map Prod.snd ++ (s.pc j).unsent := by
  refine hrun.invariant
    (I := fun tr s => pushedBy j tr = (sentBy j tr).map Prod.snd ++ (s.pc j).unsent)
    ?_ ?_
  · rintro s ⟨-, hpc⟩
    simp [pushedBy, sentBy, hpc, Pc.unsent]
  · rintro tr s e hrun ih ⟨hpc, -⟩
    change s.pc e.actor = e.source at hpc
    change pushedBy j (tr ++ [e]) = (sentBy j (tr ++ [e])).map Prod.snd ++
      (Function.update s.pc e.actor e.target j).unsent
    rw [pushedBy, sentBy, filterMap_append_singleton, filterMap_append_singleton,
      List.map_append, ← pushedBy, ← sentBy, ih]
    by_cases hj : j = e.actor
    · subst hj
      rw [Function.update_self, hpc]
      cases e <;> simp [Event.pushed?, Event.sent?, Event.actor, Event.source,
        Event.target, Pc.unsent]
    · rw [Function.update_of_ne hj]
      cases e <;> simp [Event.actor] at hj <;>
        simp [Event.pushed?, Event.sent?, Ne.symm hj]

/-- A thread takes its values in the order in which it drew its tickets of `tail_`. -/
theorem drawnBy_eq
    (hrun : (queue size).Run tr s)
    (i : ι) :
    drawnBy i tr = (takenBy i tr).map Prod.fst ++ (s.pc i).untaken := by
  refine hrun.invariant
    (I := fun tr s => drawnBy i tr = (takenBy i tr).map Prod.fst ++ (s.pc i).untaken)
    ?_ ?_
  · rintro s ⟨-, hpc⟩
    simp [drawnBy, takenBy, hpc, Pc.untaken]
  · rintro tr s e hrun ih ⟨hpc, -⟩
    change s.pc e.actor = e.source at hpc
    change drawnBy i (tr ++ [e]) = (takenBy i (tr ++ [e])).map Prod.fst ++
      (Function.update s.pc e.actor e.target i).untaken
    rw [drawnBy, takenBy, filterMap_append_singleton, filterMap_append_singleton,
      List.map_append, ← drawnBy, ← takenBy, ih]
    by_cases hi : i = e.actor
    · subst hi
      rw [Function.update_self, hpc]
      cases e <;> simp [Event.drawn?, Event.taken?, Event.actor, Event.source,
        Event.target, Pc.untaken]
    · rw [Function.update_of_ne hi]
      cases e <;> simp [Event.actor] at hi <;>
        simp [Event.drawn?, Event.taken?, Ne.symm hi]

/-- The tickets of `head_` are drawn one after the other. -/
theorem emplaceTickets_inSequence
    (hrun : (queue size).Run tr s)
    (hfew : FewTickets tr) :
    InSequence (emplaceTickets tr) := by
  refine hrun.invariant
    (I := fun tr _ => FewTickets tr → InSequence (emplaceTickets tr)) ?_ ?_ hfew
  · intro _ _ _
    rfl
  · rintro tr s e hrun ih ⟨-, hcheck⟩ hfew
    have hpast := ih hfew.of_append
    have htickets := (outline_of_run hrun hfew.of_append).1.tickets
    rw [emplaceTickets_append]
    cases e with
    | emplaceTicket i t v =>
        obtain rfl : t = s.shared.head := hcheck
        exact hpast.draw htickets.head
    | _ =>
        simpa [Event.emplaceTicket?] using hpast

/-- The tickets of `tail_` are drawn one after the other. -/
theorem popTickets_inSequence
    (hrun : (queue size).Run tr s)
    (hfew : FewTickets tr) :
    InSequence (popTickets tr) := by
  refine hrun.invariant
    (I := fun tr _ => FewTickets tr → InSequence (popTickets tr)) ?_ ?_ hfew
  · intro _ _ _
    rfl
  · rintro tr s e hrun ih ⟨-, hcheck⟩ hfew
    have hpast := ih hfew.of_append
    have htickets := (outline_of_run hrun hfew.of_append).1.tickets
    rw [popTickets_append]
    cases e with
    | popTicket i t =>
        obtain rfl : t = s.shared.tail := hcheck
        exact hpast.draw htickets.tail
    | tryPopCas i t =>
        obtain rfl : t = s.shared.tail := hcheck
        exact hpast.draw htickets.tail
    | _ =>
        simpa [Event.popTicket?] using hpast

/-- A consumer takes what the producer with its ticket has sent. -/
theorem taken_eq
    (hrun : (queue size).Run tr s)
    (hfew : FewTickets tr)
    {i j : ι} {t : SizeT} {x : Option V} {v : V}
    (htaken : Event.move i t x ∈ tr)
    (hsent : Event.emplaceTicket j t v ∈ tr) :
    x = some v := by
  obtain ⟨es, fs, rfl⟩ := List.append_of_mem htaken
  obtain ⟨h, ⟨-, hstage⟩, hcheck⟩ := outline_before hrun hfew
  obtain ⟨j', v', hticket, -, hdata⟩ := (h.slot t).filled (Or.inr hstage)
  have howner := (outline_of_run hrun hfew).1.tickets.emplaceOwner j j' t v v' hsent
    (List.mem_append_left _ hticket)
  rw [show x = _ from hcheck, Slot.move_of_live hdata, howner.2]

/-- The consumer of a ticket comes after its producer. -/
theorem exists_sent
    (hrun : (queue size).Run tr s)
    (hfew : FewTickets tr)
    {i : ι} {t : SizeT} {x : Option V}
    (htaken : Event.move i t x ∈ tr) :
    ∃ j v, Event.emplaceTicket j t v ∈ tr := by
  obtain ⟨es, fs, rfl⟩ := List.append_of_mem htaken
  obtain ⟨h, ⟨-, hstage⟩, -⟩ := outline_before hrun hfew
  obtain ⟨j, v, hticket, -, -⟩ := (h.slot t).filled (Or.inr hstage)
  exact ⟨j, v, List.mem_append_left _ hticket⟩

end Threads

section Fifo

/-- One ticket is smaller than another one. -/
def Earlier (a b : SizeT × Option V) : Prop :=
  a.1.toNat < b.1.toNat

instance antisymm_earlier : Std.Antisymm (Earlier (V := V)) where
  antisymm _ _ hab hba := absurd hab (Nat.lt_asymm hba)

instance irrefl_earlier : Std.Irrefl (Earlier (V := V)) where
  irrefl a := Nat.lt_irrefl a.1.toNat

/-- The values of all calls of `emplace` that have a ticket, in the order of the tickets. -/
def sentValues (tr : List (Event ι V)) : List V :=
  tr.filterMap fun
    | .emplaceTicket _ _ v => some v
    | _ => none

/-- The value with a ticket stands at the position that the ticket names. -/
theorem sentValues_getElem?
    {tr : List (Event ι V)}
    (hseq : InSequence (emplaceTickets tr))
    {j : ι} {t : SizeT} {v : V}
    (hsent : Event.emplaceTicket j t v ∈ tr) :
    (sentValues tr)[t.toNat]? = some v := by
  obtain ⟨es, fs, rfl⟩ := List.append_of_mem hsent
  have htickets : emplaceTickets (es ++ Event.emplaceTicket j t v :: fs) =
      emplaceTickets es ++ t :: emplaceTickets fs := by
    simp [emplaceTickets, Event.emplaceTicket?]
  have hvalues : sentValues (es ++ Event.emplaceTicket j t v :: fs) =
      sentValues es ++ v :: sentValues fs := by
    simp [sentValues]
  have hlength : (sentValues es).length = (emplaceTickets es).length := by
    simp only [sentValues, emplaceTickets, List.length_filterMap_eq_countP]
    congr 1
    funext e
    cases e <;> rfl
  rw [htickets] at hseq
  have hk : (emplaceTickets es).length <
      (emplaceTickets es ++ t :: emplaceTickets fs).length := by
    simp
  have hnat : t.toNat = (emplaceTickets es).length := by
    simpa using hseq.toNat_getElem hk
  rw [hvalues, hnat, ← hlength]
  simp

variable [DecidableEq ι]
variable {size : SizeT} {tr : List (Event ι V)} {s : Config ι (Pc V) (Queue V)}

theorem takenBy_pairwise
    (hrun : (queue size).Run tr s)
    (hfew : FewTickets tr)
    (i : ι) :
    (takenBy i tr).Pairwise Earlier := by
  have hdrawn : List.Sublist (drawnBy i tr) (popTickets tr) := by
    have hsub := filterMap_sublist_filterMap
      (f := Event.drawn? i) (g := Event.popTicket?) (h := id) (fun e t he => ?_) tr
    · rwa [List.map_id] at hsub
    · cases e <;> simp_all [Event.drawn?, Event.popTicket?]
  have htaken : List.Sublist ((takenBy i tr).map Prod.fst) (drawnBy i tr) := by
    rw [drawnBy_eq hrun i]
    exact List.sublist_append_left _ _
  have hpairwise := (popTickets_inSequence hrun hfew).pairwise.sublist
    (htaken.trans hdrawn)
  rwa [List.pairwise_map] at hpairwise

theorem sentBy_pairwise
    (hrun : (queue size).Run tr s)
    (hfew : FewTickets tr)
    (j : ι) :
    ((sentBy j tr).map fun x => (x.1, some x.2)).Pairwise Earlier := by
  have hsent : List.Sublist ((sentBy j tr).map Prod.fst) (emplaceTickets tr) := by
    refine filterMap_sublist_filterMap (fun e x he => ?_) tr
    cases e <;> simp [Event.sent?] at he
    obtain ⟨-, rfl⟩ := he
    rfl
  have hpairwise := (emplaceTickets_inSequence hrun hfew).pairwise.sublist hsent
  rw [List.pairwise_map] at hpairwise ⊢
  exact hpairwise

/-- Between two threads the queue is first-in first-out. -/
theorem handedOver_sublist
    (hrun : (queue size).Run tr s)
    (hfew : FewTickets tr)
    (j i : ι) :
    List.Sublist (handedOver j i tr) ((pushedBy j tr).map some) := by
  have htaken : ((takenBy i tr).filter
      fun x => x.1 ∈ (sentBy j tr).map Prod.fst).Pairwise Earlier :=
    (takenBy_pairwise hrun hfew i).filter _
  -- a ticket of `i` that `j` has drawn from `head_` comes with the value of `j`
  have hsubset : ((takenBy i tr).filter fun x => x.1 ∈ (sentBy j tr).map Prod.fst) ⊆
      (sentBy j tr).map fun x => (x.1, some x.2) := by
    rintro ⟨t, x⟩ hx
    obtain ⟨hmove, hticket⟩ := List.mem_filter.mp hx
    obtain ⟨⟨t', v⟩, hsent, htt⟩ := List.mem_map.mp (of_decide_eq_true hticket)
    obtain rfl : t' = t := htt
    rw [taken_eq hrun hfew ((mem_takenBy_iff i tr t' x).mp hmove)
      ((mem_sentBy_iff j tr t' v).mp hsent)]
    exact List.mem_map.mpr ⟨(t', v), hsent, rfl⟩
  have hsub := List.sublist_of_subperm_of_pairwise
    (List.subperm_of_subset htaken.nodup hsubset) htaken (sentBy_pairwise hrun hfew j)
  have hvalues := hsub.map Prod.snd
  rw [List.map_map] at hvalues
  refine hvalues.trans ?_
  rw [pushedBy_eq hrun j, List.map_append, List.map_map]
  exact List.sublist_append_left _ _

/--
The order of a history: tickets are drawn one after the other on both sides, the
`k`-th ticket of `tail_` takes the `k`-th value of `head_`, and what a thread `i`
takes from a thread `j` it takes in the order in which `j` passed it to `emplace`.
-/
structure Fifo (tr : List (Event ι V)) : Prop where
  headOrder : InSequence (emplaceTickets tr)
  tailOrder : InSequence (popTickets tr)
  delivered : ∀ i t x, Event.move i t x ∈ tr →
    ∃ v, x = some v ∧ (sentValues tr)[t.toNat]? = some v
  between : ∀ j i, List.Sublist (handedOver j i tr) ((pushedBy j tr).map some)

-- With the capacity `0`, `idx` and `turn` divide by zero.
theorem mpmc_fifo
    (_hsize : 0 < size.toNat)
    (hrun : (queue size).Run tr s)
    (hfew : FewTickets tr) :
    Fifo tr where
  headOrder := emplaceTickets_inSequence hrun hfew
  tailOrder := popTickets_inSequence hrun hfew
  delivered := by
    intro i t x htaken
    obtain ⟨j, v, hsent⟩ := exists_sent hrun hfew htaken
    exact ⟨v, taken_eq hrun hfew htaken hsent,
      sentValues_getElem? (emplaceTickets_inSequence hrun hfew) hsent⟩
  between := handedOver_sublist hrun hfew

/-- Two producers, of which the slower one constructs last, and one consumer. -/
def overtaken : List (Event Nat Char) :=
  [.callEmplace 0 'a', .emplaceTicket 0 0 'a', .emplaceAcquire 0 0 'a',
    .callEmplace 1 'b', .emplaceTicket 1 1 'b', .emplaceAcquire 1 1 'b',
    .construct 1 1 'b', .emplaceRelease 1 1 'b', .construct 0 0 'a',
    .emplaceRelease 0 0 'a', .callPop 2, .popTicket 2 0, .popAcquire 2 0,
    .move 2 0 (some 'a'), .destruct 2 0, .popRelease 2 0, .callPop 2,
    .popTicket 2 1, .popAcquire 2 1, .move 2 1 (some 'b')]

theorem mpmc_fifo_overtaken :
    Fifo overtaken ∧ takenBy 2 overtaken = [(0, some 'a'), (1, some 'b')] :=
  ⟨mpmc_fifo
    (by decide)
    (System.Run.of_enabled (M := queue 2) initial_start (by decide))
    (by decide), by decide⟩

end Fifo

end Mpmc
end Ptl

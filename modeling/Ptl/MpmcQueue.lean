import Ptl.ThreadProgram
import Ptl.MpmcTurns

/-!
# The MPMC queue of `mpmc_queue.hpp`

This module embeds `ptl::queue<T, Lockless::MPMC>` as a program over a shared
memory.  Every atomic access and every `construct`, `move` and `destruct` of an
element is one step, and the steps of any number of threads interleave freely.

* `emplace` (and both overloads of `push`, which only forward to it) draws a
  ticket from `head_`, spins until the slot's sequence number equals
  `acquire_turn(ticket)`, constructs the element and stores
  `release_turn(ticket)`.
* `pop` draws a ticket from `tail_`, spins on `release_turn(ticket)`, moves the
  element out, destructs it and stores `release_turn(ticket) + 1`.
* `try_pop` first looks at the sequence number and only then competes for the
  ticket with a compare-exchange on `tail_`; from there on it runs the same
  three steps as `pop` and returns true.

The loop of `try_emplace` and the two `try_push` overloads that call it are added
to this program in `MpmcTryPush`.
-/

namespace Ptl
namespace Mpmc

open Transition

universe u v

/-- `size_t` and `std::atomic_size_t` of the 64-bit build. -/
abbrev SizeT := BitVec 64

/-- The aligned storage of a slot, as raw memory or as an element of `T`. -/
inductive Storage (V : Type v) where
  | raw
  | live (v : V)
  | movedFrom
deriving DecidableEq

structure Slot (V : Type v) where
  sequence : SizeT
  data : Storage V

namespace Slot

variable {V : Type v}

/-- Placement new in the slot's storage. -/
def construct (slot : Slot V) (v : V) : Slot V :=
  { slot with data := .live v }

/-- The explicit destructor call. -/
def destruct (slot : Slot V) : Slot V :=
  { slot with data := .raw }

/--
`v = slot.move()`: the value that the assignment reads and the slot it leaves.
Reading storage without a live element has no defined value.
-/
def move (slot : Slot V) : Option V × Slot V :=
  match slot.data with
  | .live v => (some v, { slot with data := .movedFrom })
  | .raw => (none, slot)
  | .movedFrom => (none, slot)

/-- `sequence_.store(q)`. -/
def store (slot : Slot V) (q : SizeT) : Slot V :=
  { slot with sequence := q }

@[simp] theorem construct_sequence
    (slot : Slot V) (v : V) :
    (slot.construct v).sequence = slot.sequence := by
  rfl

@[simp] theorem destruct_sequence
    (slot : Slot V) :
    slot.destruct.sequence = slot.sequence := by
  rfl

@[simp] theorem move_sequence
    (slot : Slot V) :
    slot.move.2.sequence = slot.sequence := by
  cases h : slot.data <;> simp [move, h]

@[simp] theorem store_sequence
    (slot : Slot V) (q : SizeT) :
    (slot.store q).sequence = q := by
  rfl

@[simp] theorem store_data
    (slot : Slot V) (q : SizeT) :
    (slot.store q).data = slot.data := by
  rfl

/-- Moving out of a slot that holds a live element. -/
theorem move_of_live
    {slot : Slot V} {v : V}
    (h : slot.data = .live v) :
    slot.move = (some v, { slot with data := .movedFrom }) := by
  simp [move, h]

end Slot

/-- The members of the queue: `slots_`, `head_` and `tail_`. -/
structure Queue (V : Type v) where
  slots : SizeT → Slot V
  head : SizeT
  tail : SizeT

namespace Queue

variable {V : Type v}

/-- A freshly constructed queue. -/
def empty : Queue V where
  slots := fun _ => { sequence := 0, data := .raw }
  head := 0
  tail := 0

/-- The slot of a ticket, `slots_[idx(ticket)]`. -/
def slotOf (q : Queue V) (size ticket : SizeT) : Slot V :=
  q.slots (idx size ticket)

/-- Replace the slot of a ticket. -/
def setSlot (q : Queue V) (size ticket : SizeT) (slot : Slot V) : Queue V :=
  { q with slots := Function.update q.slots (idx size ticket) slot }

/-- Tickets of one slot see the replaced slot. -/
theorem slotOf_setSlot_of_idx_eq
    (q : Queue V) {size ticket t : SizeT} (slot : Slot V)
    (h : idx size t = idx size ticket) :
    (q.setSlot size ticket slot).slotOf size t = slot := by
  simp [slotOf, setSlot, h]

/-- Tickets of other slots see no change. -/
theorem slotOf_setSlot_of_idx_ne
    (q : Queue V) {size ticket t : SizeT} (slot : Slot V)
    (h : idx size t ≠ idx size ticket) :
    (q.setSlot size ticket slot).slotOf size t = q.slotOf size t := by
  simp [slotOf, setSlot, h]

end Queue

/-- Control points of a thread that uses the queue. -/
inductive Pc (V : Type v) where
  | idle
  | emplaceBegin (v : V)
  | emplaceSpin (ticket : SizeT) (v : V)
  | emplaceConstruct (ticket : SizeT) (v : V)
  | emplaceRelease (ticket : SizeT) (v : V)
  | popBegin
  | popSpin (ticket : SizeT)
  | popMove (ticket : SizeT)
  | popDestruct (ticket : SizeT)
  | popRelease (ticket : SizeT)
  | tryPopBegin
  | tryPopCheck (ticket : SizeT)
  | tryPopCas (ticket : SizeT)
  | tryPopReload (prevTicket : SizeT)
deriving DecidableEq

/-- The atomic steps, each with the thread that takes it. -/
inductive Event (ι : Type u) (V : Type v) where
  | callEmplace (i : ι) (v : V)
  | emplaceTicket (i : ι) (ticket : SizeT) (v : V)
  | emplaceWait (i : ι) (ticket : SizeT) (v : V)
  | emplaceAcquire (i : ι) (ticket : SizeT) (v : V)
  | construct (i : ι) (ticket : SizeT) (v : V)
  | emplaceRelease (i : ι) (ticket : SizeT) (v : V)
  | callPop (i : ι)
  | popTicket (i : ι) (ticket : SizeT)
  | popWait (i : ι) (ticket : SizeT)
  | popAcquire (i : ι) (ticket : SizeT)
  | move (i : ι) (ticket : SizeT) (x : Option V)
  | destruct (i : ι) (ticket : SizeT)
  | popRelease (i : ι) (ticket : SizeT)
  | callTryPop (i : ι)
  | tryPopLoad (i : ι) (ticket : SizeT)
  | tryPopSeen (i : ι) (ticket : SizeT)
  | tryPopMissed (i : ι) (ticket : SizeT)
  | tryPopCas (i : ι) (ticket : SizeT)
  | tryPopCasFail (i : ι) (ticket loaded : SizeT)
  | tryPopRetry (i : ι) (prevTicket loaded : SizeT)
  | tryPopFalse (i : ι) (prevTicket : SizeT)
deriving DecidableEq

namespace Event

variable {ι : Type u} {V : Type v}

def actor : Event ι V → ι
  | callEmplace i _ => i
  | emplaceTicket i _ _ => i
  | emplaceWait i _ _ => i
  | emplaceAcquire i _ _ => i
  | construct i _ _ => i
  | emplaceRelease i _ _ => i
  | callPop i => i
  | popTicket i _ => i
  | popWait i _ => i
  | popAcquire i _ => i
  | move i _ _ => i
  | destruct i _ => i
  | popRelease i _ => i
  | callTryPop i => i
  | tryPopLoad i _ => i
  | tryPopSeen i _ => i
  | tryPopMissed i _ => i
  | tryPopCas i _ => i
  | tryPopCasFail i _ _ => i
  | tryPopRetry i _ _ => i
  | tryPopFalse i _ => i

def source : Event ι V → Pc V
  | callEmplace _ _ => .idle
  | emplaceTicket _ _ v => .emplaceBegin v
  | emplaceWait _ t v => .emplaceSpin t v
  | emplaceAcquire _ t v => .emplaceSpin t v
  | construct _ t v => .emplaceConstruct t v
  | emplaceRelease _ t v => .emplaceRelease t v
  | callPop _ => .idle
  | popTicket _ _ => .popBegin
  | popWait _ t => .popSpin t
  | popAcquire _ t => .popSpin t
  | move _ t _ => .popMove t
  | destruct _ t => .popDestruct t
  | popRelease _ t => .popRelease t
  | callTryPop _ => .idle
  | tryPopLoad _ _ => .tryPopBegin
  | tryPopSeen _ t => .tryPopCheck t
  | tryPopMissed _ t => .tryPopCheck t
  | tryPopCas _ t => .tryPopCas t
  | tryPopCasFail _ t _ => .tryPopCas t
  | tryPopRetry _ prev _ => .tryPopReload prev
  | tryPopFalse _ prev => .tryPopReload prev

def target : Event ι V → Pc V
  | callEmplace _ v => .emplaceBegin v
  | emplaceTicket _ t v => .emplaceSpin t v
  | emplaceWait _ t v => .emplaceSpin t v
  | emplaceAcquire _ t v => .emplaceConstruct t v
  | construct _ t v => .emplaceRelease t v
  | emplaceRelease _ _ _ => .idle
  | callPop _ => .popBegin
  | popTicket _ t => .popSpin t
  | popWait _ t => .popSpin t
  | popAcquire _ t => .popMove t
  | move _ t _ => .popDestruct t
  | destruct _ t => .popRelease t
  | popRelease _ _ => .idle
  | callTryPop _ => .tryPopBegin
  | tryPopLoad _ t => .tryPopCheck t
  | tryPopSeen _ t => .tryPopCas t
  | tryPopMissed _ t => .tryPopReload t
  | tryPopCas _ t => .popMove t
  | tryPopCasFail _ _ loaded => .tryPopCheck loaded
  | tryPopRetry _ _ loaded => .tryPopCheck loaded
  | tryPopFalse _ _ => .idle

/-- What a step reads from the shared memory, compared with the memory. -/
def check (size : SizeT) (q : Queue V) : Event ι V → Prop
  | callEmplace _ _ => True
  | emplaceTicket _ t _ => t = q.head
  | emplaceWait _ t _ => acquireTurn size t ≠ (q.slotOf size t).sequence
  | emplaceAcquire _ t _ => acquireTurn size t = (q.slotOf size t).sequence
  | construct _ _ _ => True
  | emplaceRelease _ _ _ => True
  | callPop _ => True
  | popTicket _ t => t = q.tail
  | popWait _ t => releaseTurn size t ≠ (q.slotOf size t).sequence
  | popAcquire _ t => releaseTurn size t = (q.slotOf size t).sequence
  | move _ t x => x = (q.slotOf size t).move.1
  | destruct _ _ => True
  | popRelease _ _ => True
  | callTryPop _ => True
  | tryPopLoad _ t => t = q.tail
  | tryPopSeen _ t => releaseTurn size t = (q.slotOf size t).sequence
  | tryPopMissed _ t => releaseTurn size t ≠ (q.slotOf size t).sequence
  | tryPopCas _ t => t = q.tail
  | tryPopCasFail _ t loaded => loaded = q.tail ∧ t ≠ q.tail
  | tryPopRetry _ prev loaded => loaded = q.tail ∧ loaded ≠ prev
  | tryPopFalse _ prev => prev = q.tail

/-- What a step changes in the shared memory. -/
def effect (size : SizeT) (q : Queue V) : Event ι V → Queue V
  | emplaceTicket _ _ _ => { q with head := q.head + 1 }
  | construct _ t v => q.setSlot size t ((q.slotOf size t).construct v)
  | emplaceRelease _ t _ =>
      q.setSlot size t ((q.slotOf size t).store (releaseTurn size t))
  | popTicket _ _ => { q with tail := q.tail + 1 }
  | tryPopCas _ t => { q with tail := t + 1 }
  | move _ t _ => q.setSlot size t (q.slotOf size t).move.2
  | destruct _ t => q.setSlot size t (q.slotOf size t).destruct
  | popRelease _ t =>
      q.setSlot size t ((q.slotOf size t).store (releaseTurn size t + 1))
  | _ => q

instance decidableCheck
    [DecidableEq V]
    (size : SizeT) (q : Queue V) (e : Event ι V) :
    Decidable (e.check size q) := by
  cases e <;> unfold check <;> infer_instance

end Event

variable {ι : Type u} {V : Type v}

/-- The steps of all threads on a queue of the given capacity. -/
def program (size : SizeT) : Program ι (Pc V) (Queue V) (Event ι V) where
  actor := Event.actor
  source := Event.source
  target := Event.target
  check := Event.check size
  effect := Event.effect size

/-- An empty queue and no call in progress. -/
def Initial (s : Config ι (Pc V) (Queue V)) : Prop :=
  s.shared = Queue.empty ∧ ∀ i, s.pc i = .idle

/-- All interleavings of calls on one queue. -/
def queue (size : SizeT) [DecidableEq ι] :
    System (Config ι (Pc V) (Queue V)) (Event ι V) :=
  (program size).system Initial

instance decidableProgramCheck
    [DecidableEq V]
    (size : SizeT) (q : Queue V) (e : Event ι V) :
    Decidable
      ((program size : Program ι (Pc V) (Queue V) (Event ι V)).check q e) :=
  inferInstanceAs (Decidable (e.check size q))

instance decidableQueueGuard
    [DecidableEq ι] [DecidableEq V]
    (size : SizeT) (s : Config ι (Pc V) (Queue V)) (e : Event ι V) :
    Decidable ((queue size).guard s e) :=
  inferInstanceAs (Decidable (((program size).system Initial).guard s e))

/-- The configuration in which every run starts. -/
def start : Config ι (Pc V) (Queue V) where
  shared := Queue.empty
  pc := fun _ => .idle

theorem initial_start :
    Initial (start : Config ι (Pc V) (Queue V)) :=
  ⟨rfl, fun _ => rfl⟩

section Tickets

/-- The ticket an event draws from `head_`. -/
def Event.emplaceTicket? : Event ι V → Option SizeT
  | .emplaceTicket _ t _ => some t
  | _ => none

/-- The ticket an event draws from `tail_`. -/
def Event.popTicket? : Event ι V → Option SizeT
  | .popTicket _ t => some t
  | .tryPopCas _ t => some t
  | _ => none

def emplaceTickets (tr : List (Event ι V)) : List SizeT :=
  tr.filterMap Event.emplaceTicket?

def popTickets (tr : List (Event ι V)) : List SizeT :=
  tr.filterMap Event.popTicket?

/-- Number of tickets issued so far, by `emplace`, `pop` and `try_pop` together. -/
def ticketsIssued (tr : List (Event ι V)) : Nat :=
  (emplaceTickets tr).length + (popTickets tr).length

/-- Thread `i` drew ticket `t` from `tail_`, in `pop` or in `try_pop`. -/
def OwnsPop (tr : List (Event ι V)) (i : ι) (t : SizeT) : Prop :=
  .popTicket i t ∈ tr ∨ .tryPopCas i t ∈ tr

/-- The ticket whose slot an event changes. -/
def Event.slotTicket? : Event ι V → Option SizeT
  | .construct _ t _ => some t
  | .emplaceRelease _ t _ => some t
  | .move _ t _ => some t
  | .destruct _ t => some t
  | .popRelease _ t => some t
  | _ => none

/--
How far a ticket has come: its slot operations `construct`, release, `move`,
`destruct`, release that have happened, so 0 to 5.
-/
def stage (tr : List (Event ι V)) (t : SizeT) : Nat :=
  tr.countP fun e => e.slotTicket? = some t

@[simp] theorem stage_nil (t : SizeT) :
    stage ([] : List (Event ι V)) t = 0 := by
  rfl

theorem stage_append_singleton
    (tr : List (Event ι V)) (e : Event ι V) (t : SizeT) :
    stage (tr ++ [e]) t =
      stage tr t + if e.slotTicket? = some t then 1 else 0 := by
  simp [stage, List.countP_append, List.countP_singleton]

theorem mem_emplaceTickets_iff
    (tr : List (Event ι V)) (t : SizeT) :
    t ∈ emplaceTickets tr ↔ ∃ i v, .emplaceTicket i t v ∈ tr := by
  constructor
  · intro h
    obtain ⟨e, he, het⟩ := List.mem_filterMap.mp h
    cases e <;> simp [Event.emplaceTicket?] at het
    subst het
    exact ⟨_, _, he⟩
  · rintro ⟨i, v, h⟩
    exact List.mem_filterMap.mpr ⟨_, h, rfl⟩

theorem mem_popTickets_iff
    (tr : List (Event ι V)) (t : SizeT) :
    t ∈ popTickets tr ↔ ∃ i, OwnsPop tr i t := by
  constructor
  · intro h
    obtain ⟨e, he, het⟩ := List.mem_filterMap.mp h
    cases e <;> simp [Event.popTicket?] at het
    · subst het
      exact ⟨_, Or.inl he⟩
    · subst het
      exact ⟨_, Or.inr he⟩
  · rintro ⟨i, h | h⟩
    · exact List.mem_filterMap.mpr ⟨_, h, rfl⟩
    · exact List.mem_filterMap.mpr ⟨_, h, rfl⟩

end Tickets

end Mpmc
end Ptl

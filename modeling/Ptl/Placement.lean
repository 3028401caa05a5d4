import Mathlib.Data.List.Nodup
import Mathlib.Logic.Function.Basic

/-!
# Items on threads and in queues

The library for schedulers whose state is one slot a thread, for the item the
thread is working on, and one FIFO queue for each of several workers.  The
abstract view gives every item one place.  `Placed` connects the two: an item
is in a slot or a queue exactly when its place says so, and no queue lists an
item twice.

**Rules.**  `Placed.vacate`, `enter`, `replace`, `push`, `pop`, `requeue` and
`take`: the operations of a scheduler move the items they touch and no others.
-/

namespace Ptl
namespace Placement

universe u v w

/-- Where an item is. -/
inductive Place (θ : Type u) (ε : Type v) where
  | away
  | thread (t : θ)
  | queue (x : ε)
deriving DecidableEq

/-- The slots of the threads and the queues. -/
structure Slots (θ : Type u) (ε : Type v) (κ : Type w) where
  running : θ → Option κ
  queue : ε → List κ

variable {θ : Type u} {ε : Type v} {κ : Type w}

namespace Slots

section Threads

variable [DecidableEq θ]

/-- Put an item, or nothing, into the slot of a thread. -/
def run (s : Slots θ ε κ) (t : θ) (a : Option κ) : Slots θ ε κ :=
  { s with running := Function.update s.running t a }

@[simp] theorem run_queue (s : Slots θ ε κ) (t : θ) (a : Option κ) :
    (s.run t a).queue = s.queue := by
  rfl

end Threads

section Queues

variable [DecidableEq ε]

/-- Add an item at the end of a queue. -/
def push (s : Slots θ ε κ) (x : ε) (a : κ) : Slots θ ε κ :=
  { s with queue := Function.update s.queue x (s.queue x ++ [a]) }

/-- Remove the first item of a queue. -/
def pop (s : Slots θ ε κ) (x : ε) : Slots θ ε κ :=
  { s with queue := Function.update s.queue x (s.queue x).tail }

@[simp] theorem push_running (s : Slots θ ε κ) (x : ε) (a : κ) :
    (s.push x a).running = s.running := by
  rfl

@[simp] theorem pop_running (s : Slots θ ε κ) (x : ε) :
    (s.pop x).running = s.running := by
  rfl

end Queues

end Slots

/-- Every item is where `place` says, and in no other slot or queue. -/
structure Placed
    (s : Slots θ ε κ) (place : κ → Place θ ε) : Prop where
  running : ∀ t a, s.running t = some a ↔ place a = .thread t
  queued : ∀ x a, a ∈ s.queue x ↔ place a = .queue x
  nodup : ∀ x, (s.queue x).Nodup

namespace Placed

variable [DecidableEq θ] [DecidableEq ε] [DecidableEq κ]
variable {s : Slots θ ε κ} {place : κ → Place θ ε}
variable {t : θ} {x : ε} {a b : κ}

omit [DecidableEq ε] in
/-- A thread is done with its item. -/
theorem vacate
    (h : Placed s place)
    (ha : place a = .thread t) :
    Placed (s.run t none) (Function.update place a .away) := by
  have hslot := (h.running t a).mpr ha
  constructor
  · intro t' c
    by_cases hc : c = a
    · by_cases ht : t' = t
      · simp [Slots.run, hc, ht]
      · have hnot : s.running t' ≠ some a := by
          rw [ne_eq, h.running, ha]
          simpa using Ne.symm ht
        simp [Slots.run, hc, ht, hnot]
    · by_cases ht : t' = t
      · have hnot : place c ≠ .thread t := by
          rw [ne_eq, ← h.running, hslot]
          simpa using Ne.symm hc
        simp [Slots.run, hc, ht, hnot]
      · simpa [Slots.run, hc, ht] using h.running t' c
  · intro x c
    by_cases hc : c = a
    · have hnot : a ∉ s.queue x := by
        rw [h.queued, ha]
        simp
      simp [hc, hnot]
    · simpa [hc] using h.queued x c
  · exact h.nodup

omit [DecidableEq ε] in
/-- An idle thread takes up an item. -/
theorem enter
    (h : Placed s place)
    (ht : s.running t = none)
    (hb : place b = .away) :
    Placed (s.run t (some b)) (Function.update place b (.thread t)) := by
  constructor
  · intro t' c
    by_cases hc : c = b
    · by_cases ht' : t' = t
      · simp [Slots.run, hc, ht']
      · have hnot : s.running t' ≠ some b := by
          rw [ne_eq, h.running, hb]
          simp
        simp [Slots.run, hc, ht', hnot, Ne.symm ht']
    · by_cases ht' : t' = t
      · have hnot : place c ≠ .thread t := by
          rw [ne_eq, ← h.running, ht]
          simp
        simp [Slots.run, hc, ht', hnot, Ne.symm hc]
      · simpa [Slots.run, hc, ht'] using h.running t' c
  · intro x c
    by_cases hc : c = b
    · have hnot : b ∉ s.queue x := by
        rw [h.queued, hb]
        simp
      simp [hc, hnot]
    · simpa [hc] using h.queued x c
  · exact h.nodup

omit [DecidableEq ε] in
/-- A thread goes from one item to another. -/
theorem replace
    (h : Placed s place)
    (ha : place a = .thread t)
    (hb : place b = .away) :
    Placed (s.run t (some b))
      (Function.update (Function.update place a .away) b (.thread t)) := by
  have hba : b ≠ a := by
    rintro rfl
    rw [ha] at hb
    cases hb
  have hslots : s.run t (some b) = (s.run t none).run t (some b) := by
    simp [Slots.run]
  rw [hslots]
  refine (h.vacate ha).enter ?_ ?_
  · simp [Slots.run]
  · rwa [Function.update_of_ne hba]

omit [DecidableEq θ] in
/-- An item is added to a queue. -/
theorem push
    (h : Placed s place)
    (hb : place b = .away) :
    Placed (s.push x b) (Function.update place b (.queue x)) := by
  constructor
  · intro t c
    by_cases hc : c = b
    · have hnot : s.running t ≠ some b := by
        rw [ne_eq, h.running, hb]
        simp
      simp [hc, hnot]
    · simpa [hc] using h.running t c
  · intro y c
    by_cases hc : c = b
    · have hnot : b ∉ s.queue y := by
        rw [h.queued, hb]
        simp
      by_cases hy : y = x
      · simp [Slots.push, hc, hy]
      · simp [Slots.push, hc, hy, hnot, Ne.symm hy]
    · by_cases hy : y = x
      · subst hy
        simpa [Slots.push, hc] using h.queued y c
      · simpa [Slots.push, hc, hy] using h.queued y c
  · intro y
    by_cases hy : y = x
    · subst hy
      have hnot : b ∉ s.queue y := by
        rw [h.queued, hb]
        simp
      simp only [Slots.push, Function.update_self]
      refine List.nodup_append.mpr ⟨h.nodup y, by simp, ?_⟩
      intro c hc d hd
      rw [List.mem_singleton] at hd
      subst hd
      rintro rfl
      exact hnot hc
    · simpa [Slots.push, hy] using h.nodup y

omit [DecidableEq θ] in
/-- The first item of a queue is removed. -/
theorem pop
    (h : Placed s place)
    (ha : (s.queue x).head? = some a) :
    Placed (s.pop x) (Function.update place a .away) := by
  obtain ⟨rest, hqueue⟩ : ∃ rest, s.queue x = a :: rest := by
    cases hq : s.queue x with
    | nil =>
        simp [hq] at ha
    | cons c rest =>
        obtain rfl : c = a := by simpa [hq] using ha
        exact ⟨rest, rfl⟩
  have hplace : place a = .queue x := by
    rw [← h.queued, hqueue]
    exact List.mem_cons_self
  have hnodup := h.nodup x
  rw [hqueue, List.nodup_cons] at hnodup
  constructor
  · intro t c
    by_cases hc : c = a
    · have hnot : s.running t ≠ some a := by
        rw [ne_eq, h.running, hplace]
        simp
      simp [hc, hnot]
    · simpa [hc] using h.running t c
  · intro y c
    by_cases hy : y = x
    · subst hy
      by_cases hc : c = a
      · simp [Slots.pop, hqueue, hc, hnodup.1]
      · have hmem := h.queued y c
        rw [hqueue] at hmem
        simpa [Slots.pop, hqueue, hc] using hmem
    · by_cases hc : c = a
      · have hnot : a ∉ s.queue y := by
          rw [h.queued, hplace]
          simpa using Ne.symm hy
        simp [Slots.pop, hy, hc, hnot]
      · simpa [Slots.pop, hy, hc] using h.queued y c
  · intro y
    by_cases hy : y = x
    · subst hy
      simpa [Slots.pop, hqueue] using hnodup.2
    · simpa [Slots.pop, hy] using h.nodup y

/-- The item of a thread is added to a queue. -/
theorem requeue
    (h : Placed s place)
    (ha : place a = .thread t) :
    Placed ((s.run t none).push x a) (Function.update place a (.queue x)) := by
  have hpush := (h.vacate ha).push (x := x) (b := a) (Function.update_self ..)
  simpa using hpush

/-- An idle thread takes the first item of a queue. -/
theorem take
    (h : Placed s place)
    (ht : s.running t = none)
    (ha : (s.queue x).head? = some a) :
    Placed ((s.pop x).run t (some a)) (Function.update place a (.thread t)) := by
  have henter := (h.pop ha).enter (t := t) (b := a) ht
    (Function.update_self ..)
  simpa using henter

end Placed

end Placement
end Ptl

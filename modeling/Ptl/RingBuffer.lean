import Ptl.TransitionSystem
import Mathlib.Data.Nat.Basic
import Mathlib.Algebra.Group.Nat.Defs

/-!
# `bounded_ring_buffer`

This module embeds `push`, `pop` and `count` of `bounded_ring_buffer<T, N>`.
Each member runs a lambda under the lock.  `synchronize` returns `void`, and
`pop` and `count` have no `return` statement of their own, so what their lambdas
compute does not reach the caller.  The lambda of `pop` is read as one that
returns `std::optional<T>`; as written, its two `return` statements do not have
one type.

`locked` is what the lambda computes, `returned` is what the caller gets.  Both
are compared with a queue of capacity `N - 1`.

**Results.**
* `lockedFifo_iff`: the lambdas compute the answers of the queue exactly in the
  runs that never fill the buffer and never count a wrapped range.
* `isFifo_iff`: the buffer behaves as the queue exactly in the runs that consist
  of fewer than `N - 1` calls of `push` and nothing else.
-/

namespace Ptl
namespace RingBuffer

open Transition

universe u

/-- The number of values of `size_t`. -/
def sizeRange : Nat := 2 ^ 64

/-- `head_`, `tail_` and `buffer_`. -/
structure Buffer (T : Type u) (N : Nat) where
  head : Nat
  tail : Nat
  buffer : Vector T N
deriving DecidableEq

inductive Call (T : Type u) where
  | push (item : T)
  | pop
  | count
deriving DecidableEq

/-- The value of a call. -/
inductive Answer (T : Type u) where
  | void
  | item (x : Option T)
  | size (n : Nat)
deriving DecidableEq

namespace Buffer

variable {T : Type u} {N : Nat}

/-- The constructor; the array keeps what `T`'s default initialisation left. -/
def fresh (buffer : Vector T N) : Buffer T N where
  head := 0
  tail := 0
  buffer := buffer

/-- `total_size_`, one less than the size of the array. -/
def totalSize (_ : Buffer T N) : Nat :=
  N - 1

def available (b : Buffer T N) : Nat :=
  if b.tail < b.head then (b.totalSize + b.head - b.tail) % sizeRange
  else b.tail - b.head

/-- The subtraction of `size_t` wraps. -/
def free (b : Buffer T N) : Nat :=
  (sizeRange + b.totalSize - b.available) % sizeRange

/-- What the `SCOPE_EXIT` does to an index that was incremented. -/
def wrap (b : Buffer T N) (i : Nat) : Nat :=
  if i = b.totalSize then 0 else i

def push (b : Buffer T N) (item : T) : Buffer T N :=
  { b with
    tail := b.wrap (b.tail + 1)
    buffer := b.buffer.setIfInBounds b.tail item }

variable [Inhabited T]

def pop (b : Buffer T N) : Buffer T N × Option T :=
  if 0 < b.available then
    ({ b with
        head := b.wrap (b.head + 1)
        buffer := b.buffer.setIfInBounds b.head default },
      some (b.buffer[b.head]?.getD default))
  else
    (b, none)

/-- The buffer after a call. -/
def next (b : Buffer T N) : Call T → Buffer T N
  | .push item => b.push item
  | .pop => b.pop.1
  | .count => b

/-- What the lambda of a call computes under the lock. -/
def locked (b : Buffer T N) : Call T → Answer T
  | .push _ => .void
  | .pop => .item b.pop.2
  | .count => .size b.available

/-- What a call returns; `none` when control flows off the end of the function. -/
def returned (_ : Buffer T N) : Call T → Option (Answer T)
  | .push _ => some .void
  | .pop => none
  | .count => none

end Buffer

section Queue

variable {T : Type u}

/-- The elements of a queue after a call. -/
def queued (q : List T) : Call T → List T
  | .push item => q ++ [item]
  | .pop => q.tail
  | .count => q

/-- The answer of a queue. -/
def answer (q : List T) : Call T → Answer T
  | .push _ => .void
  | .pop => .item q.head?
  | .count => .size q.length

/-- The elements stored and not yet popped. -/
def stored (tr : List (Call T)) : List T :=
  tr.foldl queued []

theorem stored_append_singleton (tr : List (Call T)) (c : Call T) :
    stored (tr ++ [c]) = queued (stored tr) c := by
  rw [stored, List.foldl_append]
  rfl

end Queue

variable {T : Type u} {N : Nat} [Inhabited T]

/-- The runs in which `push` is issued only when its assertion holds. -/
def ring (buffer : Vector T N) : System (Buffer T N) (Call T) where
  init := fun b => b = .fresh buffer
  guard := fun b c =>
    match c with
    | .push _ => 0 < b.free
    | _ => True
  next := Buffer.next

/--
The buffer stores the elements of the queue from `head_` on, and the assertion
of `push` holds exactly if fewer than `N - 1` elements are stored.
-/
structure Agrees (b : Buffer T N) (q : List T) : Prop where
  stores : ∀ i x, q[i]? = some x →
    b.buffer[(b.head + i) % b.totalSize]? = some x
  asserts : 0 < b.free ↔ q.length < N - 1

/-- The buffer behaves as a queue whose answers are given by `out`. -/
def IsFifo (buffer : Vector T N)
    (out : Buffer T N → Call T → Option (Answer T))
    (tr : List (Call T)) : Prop :=
  Agrees (.fresh buffer) [] ∧
    System.History
      (fun es c =>
        out ((ring buffer).exec (.fresh buffer) es) c =
          some (answer (stored es) c) ∧
        Agrees ((ring buffer).exec (.fresh buffer) (es ++ [c]))
          (stored (es ++ [c])))
      tr

section Slots

/-- Slot `i` of a ring of `n` slots, counted from the slot `head`. -/
theorem slot_cases {n head i : Nat} (hhead : head < n) (hi : i < n) :
    head + i < n ∧ (head + i) % n = head + i ∨
      n ≤ head + i ∧ (head + i) % n = head + i - n := by
  rcases Nat.lt_or_ge (head + i) n with h | h
  · exact Or.inl ⟨h, Nat.mod_eq_of_lt h⟩
  · refine Or.inr ⟨h, ?_⟩
    rw [Nat.mod_eq_sub_mod h, Nat.mod_eq_of_lt (by omega)]

theorem slot_injective {n head i j : Nat}
    (hhead : head < n) (hi : i < n) (hj : j < n)
    (h : (head + i) % n = (head + j) % n) :
    i = j := by
  rcases slot_cases hhead hi with ⟨hi', hi''⟩ | ⟨hi', hi''⟩ <;>
    rcases slot_cases hhead hj with ⟨hj', hj''⟩ | ⟨hj', hj''⟩ <;> omega

theorem slot_succ (n head i : Nat) :
    ((if head + 1 = n then 0 else head + 1) + i) % n = (head + (i + 1)) % n := by
  split
  next h =>
    rw [show head + (i + 1) = n + i by omega, Nat.add_mod_left, Nat.zero_add]
  next h =>
    rw [show head + 1 + i = head + (i + 1) by omega]

theorem succ_slot {n head i : Nat} (hhead : head < n) (hi : i + 1 < n) :
    (if (head + i) % n + 1 = n then 0 else (head + i) % n + 1) =
      (head + (i + 1)) % n := by
  rcases slot_cases hhead (Nat.lt_of_succ_lt hi) with ⟨hi', hi''⟩ | ⟨hi', hi''⟩ <;>
    rcases slot_cases hhead hi with ⟨hj', hj''⟩ | ⟨hj', hj''⟩ <;>
    rw [hi'', hj''] <;> split <;> omega

end Slots

/-- The elements of `q` are between `head_` and `tail_`, with a slot to spare. -/
structure Holds (b : Buffer T N) (q : List T) : Prop where
  head : b.head < b.totalSize
  tail : b.tail = (b.head + q.length) % b.totalSize
  room : q.length < b.totalSize
  stores : ∀ i x, q[i]? = some x →
    b.buffer[(b.head + i) % b.totalSize]? = some x

section Holds

variable {b : Buffer T N} {q : List T}

omit [Inhabited T] in
theorem Buffer.totalSize_eq (b : Buffer T N) :
    b.totalSize = N - 1 := by
  rfl

omit [Inhabited T] in
theorem holds_fresh (hN : 2 ≤ N) (buffer : Vector T N) :
    Holds (.fresh buffer) [] := by
  constructor
  · simp [Buffer.fresh, Buffer.totalSize_eq]
    omega
  · simp [Buffer.fresh]
  · simp [Buffer.totalSize_eq]
    omega
  · intro i x h
    simp at h

omit [Inhabited T] in
/-- Where the range ends if it does not wrap, and if it does. -/
theorem Holds.cases_tail
    (h : Holds b q) :
    b.head ≤ b.tail ∧ b.tail = b.head + q.length ∨
      b.tail < b.head ∧ b.tail + b.totalSize = b.head + q.length := by
  rcases slot_cases h.head h.room with ⟨hlt, hmod⟩ | ⟨hge, hmod⟩
  · left
    rw [h.tail, hmod]
    omega
  · right
    have := h.head
    have := h.room
    rw [h.tail, hmod]
    omega

omit [Inhabited T] in
theorem available_of_le
    (h : b.head ≤ b.tail) :
    b.available = b.tail - b.head := by
  rw [Buffer.available, if_neg (Nat.not_lt.mpr h)]

omit [Inhabited T] in
theorem available_of_lt
    (hsize : N ≤ 2 ^ 63)
    (h : Holds b q)
    (hlt : b.tail < b.head) :
    b.available = b.totalSize + b.head - b.tail := by
  have := h.head
  have := b.totalSize_eq
  rw [Buffer.available, if_pos hlt, Nat.mod_eq_of_lt]
  unfold sizeRange
  omega

omit [Inhabited T] in
/-- A buffer with a slot to spare passes the assertion, wrapped or not. -/
theorem Holds.free_pos
    (hsize : N < 2 ^ 64)
    (h : Holds b q) :
    0 < b.free := by
  have := h.head
  have := h.room
  have := b.totalSize_eq
  unfold Buffer.free
  rcases h.cases_tail with ⟨hle, htail⟩ | ⟨hlt, htail⟩
  · rw [available_of_le hle]
    unfold sizeRange
    omega
  · rw [Buffer.available, if_pos hlt]
    unfold sizeRange
    omega

omit [Inhabited T] in
theorem Holds.agrees
    (hsize : N < 2 ^ 64)
    (h : Holds b q) :
    Agrees b q where
  stores := h.stores
  asserts := by
    have := h.room
    rw [b.totalSize_eq] at this
    exact ⟨fun _ => this, fun _ => h.free_pos hsize⟩

omit [Inhabited T] in
theorem Holds.tail_lt
    (h : Holds b q) :
    b.tail < b.totalSize := by
  rw [h.tail]
  exact Nat.mod_lt _ (Nat.zero_lt_of_lt h.room)

omit [Inhabited T] in
/-- `push` fills the slot after the last element and no other. -/
theorem Holds.push
    (h : Holds b q)
    (item : T)
    (hroom : q.length + 1 < b.totalSize) :
    Holds (b.push item) (q ++ [item]) where
  head := h.head
  tail := by
    rw [List.length_append, List.length_singleton]
    change b.wrap (b.tail + 1) = _
    rw [Buffer.wrap, h.tail]
    exact succ_slot h.head hroom
  room := by
    rw [List.length_append, List.length_singleton]
    exact hroom
  stores := by
    intro i x hx
    change (b.buffer.setIfInBounds b.tail item)[(b.head + i) % b.totalSize]? = _
    rcases Nat.lt_trichotomy i q.length with hi | rfl | hi
    · rw [List.getElem?_append_left hi] at hx
      have hne : b.tail ≠ (b.head + i) % b.totalSize := by
        rw [h.tail]
        intro heq
        exact absurd (slot_injective h.head h.room (Nat.lt_trans hi h.room) heq)
          (Nat.ne_of_gt hi)
      rw [Vector.getElem?_setIfInBounds_ne hne]
      exact h.stores i x hx
    · have hlt : b.tail < N :=
        Nat.lt_of_lt_of_le h.tail_lt (Nat.sub_le N 1)
      rw [List.getElem?_concat_length] at hx
      rw [← h.tail, Vector.getElem?_setIfInBounds_self_of_lt hlt, hx]
    · rw [List.getElem?_eq_none (by simp; omega)] at hx
      cases hx

omit [Inhabited T] in
/-- The range is empty exactly if no element is stored. -/
theorem Holds.available_pos
    (hsize : N ≤ 2 ^ 63)
    (h : Holds b q) :
    0 < b.available ↔ q ≠ [] := by
  have hlength := List.length_pos_iff (l := q)
  have := h.head
  have := h.room
  rcases h.cases_tail with ⟨hle, htail⟩ | ⟨hlt, htail⟩
  · rw [available_of_le hle, ← hlength]
    omega
  · rw [available_of_lt hsize h hlt, ← hlength]
    omega

/-- The lambda of `pop` answers as the queue. -/
theorem Holds.pop_answer
    (hsize : N ≤ 2 ^ 63)
    (h : Holds b q) :
    b.pop.2 = q.head? := by
  have hpos := h.available_pos hsize
  cases q with
  | nil =>
      have hnot : ¬ 0 < b.available := by simp [hpos]
      rw [Buffer.pop, if_neg hnot]
      rfl
  | cons x q =>
      have hfirst := h.stores 0 x rfl
      rw [Nat.add_zero, Nat.mod_eq_of_lt h.head] at hfirst
      rw [Buffer.pop, if_pos (hpos.mpr (List.cons_ne_nil x q)), hfirst]
      rfl

/-- `pop` gives up the first slot and keeps the others. -/
theorem Holds.pop
    (hsize : N ≤ 2 ^ 63)
    (h : Holds b q) :
    Holds b.pop.1 q.tail := by
  have hpos := h.available_pos hsize
  cases q with
  | nil =>
      have hnot : ¬ 0 < b.available := by simp [hpos]
      rw [Buffer.pop, if_neg hnot]
      exact h
  | cons x q =>
      have hroom : q.length + 1 < b.totalSize := h.room
      rw [Buffer.pop, if_pos (hpos.mpr (List.cons_ne_nil x q))]
      have hslot := slot_succ b.totalSize b.head
      constructor
      · change b.wrap (b.head + 1) < b.totalSize
        have := h.head
        unfold Buffer.wrap
        split <;> omega
      · exact h.tail.trans (hslot q.length).symm
      · exact Nat.lt_of_succ_lt hroom
      · intro i y hy
        have hi : i < q.length := (List.getElem?_eq_some_iff.mp hy).1
        change (b.buffer.setIfInBounds b.head default)[
          (b.wrap (b.head + 1) + i) % b.totalSize]? = _
        have hne : b.head ≠ (b.head + (i + 1)) % b.totalSize := by
          intro heq
          have hzero := slot_injective (i := 0) h.head
            (Nat.zero_lt_of_lt h.head) (j := i + 1) (by omega)
            ((Nat.mod_eq_of_lt h.head).trans heq)
          cases hzero
        rw [Buffer.wrap, hslot, Vector.getElem?_setIfInBounds_ne hne]
        exact h.stores (i + 1) y hy

end Holds

section Runs

variable {b : Buffer T N} {q : List T}

/-- The call leaves a slot to spare, and a count finds a range that does not wrap. -/
def Spares (b : Buffer T N) (q : List T) : Call T → Prop
  | .push _ => q.length + 1 < N - 1
  | .pop => True
  | .count => b.head ≤ b.tail

theorem Holds.next
    (hsize : N ≤ 2 ^ 63)
    {c : Call T}
    (h : Holds b q)
    (hc : Spares b q c) :
    Holds (b.next c) (queued q c) := by
  cases c with
  | push item =>
      exact h.push item hc
  | pop =>
      exact h.pop hsize
  | count =>
      exact h

omit [Inhabited T] in
/-- Filling the last slot makes the buffer look empty. -/
theorem Holds.agrees_push_iff
    (hsize : N < 2 ^ 64)
    (h : Holds b q)
    (item : T) :
    Agrees (b.push item) (q ++ [item]) ↔ q.length + 1 < N - 1 := by
  constructor
  · intro hagrees
    by_contra hfull
    have hroom := h.room
    have hlength : q.length + 1 = b.totalSize := by
      rw [b.totalSize_eq] at hroom ⊢
      omega
    have htail : (b.push item).tail = b.head := by
      change b.wrap (b.tail + 1) = b.head
      have := h.head
      have := h.tail_lt
      unfold Buffer.wrap
      rcases h.cases_tail with ⟨hle, htail⟩ | ⟨hlt, htail⟩ <;> split <;> omega
    have havailable : (b.push item).available = 0 := by
      have hhead : (b.push item).head = b.head := rfl
      rw [available_of_le (by omega), htail, hhead, Nat.sub_self]
    have hfree : 0 < (b.push item).free := by
      have htotal : (b.push item).totalSize = N - 1 := rfl
      rw [Buffer.free, havailable, htotal]
      rw [b.totalSize_eq] at hlength
      unfold sizeRange
      omega
    have hless := hagrees.asserts.mp hfree
    rw [List.length_append, List.length_singleton] at hless
    exact hfull hless
  · intro hroom
    exact (h.push item hroom).agrees hsize

omit [Inhabited T] in
/-- The lambda of `count` is right unless the range wraps. -/
theorem Holds.available_eq_iff
    (hsize : N ≤ 2 ^ 63)
    (h : Holds b q) :
    b.available = q.length ↔ b.head ≤ b.tail := by
  have := h.head
  rcases h.cases_tail with ⟨hle, htail⟩ | ⟨hlt, htail⟩
  · rw [available_of_le hle]
    omega
  · rw [available_of_lt hsize h hlt]
    omega

/-- One call is as that of a queue exactly if it spares a slot. -/
theorem Holds.lockedFifo_iff
    (hsize : N ≤ 2 ^ 63)
    (h : Holds b q)
    (c : Call T) :
    b.locked c = answer q c ∧ Agrees (b.next c) (queued q c) ↔
      Spares b q c := by
  have hlarge : N < 2 ^ 64 := by omega
  cases c with
  | push item =>
      exact (and_iff_right rfl).trans (h.agrees_push_iff hlarge item)
  | pop =>
      refine iff_of_true ⟨congrArg _ (h.pop_answer hsize), ?_⟩ trivial
      exact (h.pop hsize).agrees hlarge
  | count =>
      refine Iff.trans ?_ (h.available_eq_iff hsize)
      constructor
      · intro hcount
        exact Answer.size.inj hcount.1
      · intro hcount
        exact ⟨congrArg _ hcount, h.agrees hlarge⟩

variable {buffer : Vector T N} {tr : List (Call T)}

/-- The steps of a run that spare a slot. -/
def SparesAt (buffer : Vector T N) (es : List (Call T)) (c : Call T) : Prop :=
  Spares ((ring buffer).exec (.fresh buffer) es) (stored es) c

theorem run_eq_exec
    (hrun : (ring buffer).Run tr b) :
    b = (ring buffer).exec (.fresh buffer) tr :=
  hrun.eq_exec fun _ h => h

theorem holds_of_run
    (hN : 2 ≤ N) (hsize : N ≤ 2 ^ 63)
    (hrun : (ring buffer).Run tr b)
    (hspares : System.History (SparesAt buffer) tr) :
    Holds b (stored tr) := by
  refine hrun.invariant
    (I := fun tr b => System.History (SparesAt buffer) tr → Holds b (stored tr))
    ?_ ?_ hspares
  · intro b hb _
    obtain rfl : b = .fresh buffer := hb
    exact holds_fresh hN buffer
  · intro tr b c hrun ih _ hspares
    obtain ⟨hpast, hlast⟩ := (System.history_append_singleton tr c).mp hspares
    rw [SparesAt, ← run_eq_exec hrun] at hlast
    rw [stored_append_singleton]
    exact (ih hpast).next hsize hlast

/-- Extending a run by one call. -/
theorem isFifo_append_singleton
    {out : Buffer T N → Call T → Option (Answer T)}
    {c : Call T}
    (hrun : (ring buffer).Run tr b) :
    IsFifo buffer out (tr ++ [c]) ↔
      IsFifo buffer out tr ∧
        out b c = some (answer (stored tr) c) ∧
        Agrees (b.next c) (queued (stored tr) c) := by
  have hnext : (ring buffer).exec (.fresh buffer) (tr ++ [c]) = b.next c := by
    rw [System.exec_append, ← run_eq_exec hrun]
    rfl
  rw [IsFifo, IsFifo, System.history_append_singleton, ← run_eq_exec hrun, hnext,
    stored_append_singleton, and_assoc]

/--
The lambdas compute what a queue answers, and the assertion of `push` is that of
a queue, exactly in the runs in which every `push` leaves a slot to spare and
every `count` finds a range that does not wrap.
-/
theorem lockedFifo_iff
    (hN : 2 ≤ N) (hsize : N ≤ 2 ^ 63)
    (hrun : (ring buffer).Run tr b) :
    IsFifo buffer (fun b c => some (b.locked c)) tr ↔
      System.History (SparesAt buffer) tr := by
  refine hrun.invariant
    (I := fun tr _ =>
      IsFifo buffer (fun b c => some (b.locked c)) tr ↔
        System.History (SparesAt buffer) tr) ?_ ?_
  · intro b _
    exact iff_of_true
      ⟨(holds_fresh hN buffer).agrees (by omega), System.history_nil⟩
      System.history_nil
  · intro tr b c hrun ih _
    rw [isFifo_append_singleton hrun, System.history_append_singleton, ih,
      SparesAt, ← run_eq_exec hrun, Option.some.injEq]
    exact and_congr_right fun hspares =>
      (holds_of_run hN hsize hrun hspares).lockedFifo_iff hsize c

/-- A run of `push` that leaves a slot to spare. -/
theorem holds_of_pushes
    (hN : 2 ≤ N)
    (hrun : (ring buffer).Run tr b)
    (hpush : ∀ c ∈ tr, ∃ item, c = .push item)
    (hlength : tr.length < N - 1) :
    Holds b (stored tr) ∧ (stored tr).length = tr.length := by
  refine hrun.invariant
    (I := fun tr b => (∀ c ∈ tr, ∃ item, c = .push item) → tr.length < N - 1 →
      Holds b (stored tr) ∧ (stored tr).length = tr.length) ?_ ?_ hpush hlength
  · intro b hb _ _
    obtain rfl : b = .fresh buffer := hb
    exact ⟨holds_fresh hN buffer, rfl⟩
  · intro tr b c _ ih _ hpush hlength
    rw [List.length_append, List.length_singleton] at hlength
    obtain ⟨item, rfl⟩ := hpush c (by simp)
    obtain ⟨hholds, hstored⟩ := ih
      (fun c hc => hpush c (List.mem_append_left _ hc))
      (Nat.lt_of_succ_lt hlength)
    rw [stored_append_singleton]
    refine ⟨hholds.push item (by rwa [hstored]), ?_⟩
    rw [queued, List.length_append, List.length_append, hstored]
    rfl

/-- Only a call of `push` returns to its caller, if it leaves a slot to spare. -/
theorem Holds.answers_iff
    (hsize : N < 2 ^ 64)
    (h : Holds b q)
    (c : Call T) :
    b.returned c = some (answer q c) ∧ Agrees (b.next c) (queued q c) ↔
      (∃ item, c = .push item) ∧ q.length + 1 < N - 1 := by
  cases c with
  | push item =>
      refine Iff.trans (and_iff_right rfl) ((h.agrees_push_iff hsize item).trans ?_)
      exact (and_iff_right ⟨item, rfl⟩).symm
  | pop =>
      constructor
      · intro hreturned
        cases hreturned.1
      · intro hpush
        obtain ⟨⟨item, hitem⟩, -⟩ := hpush
        cases hitem
  | count =>
      constructor
      · intro hreturned
        cases hreturned.1
      · intro hpush
        obtain ⟨⟨item, hitem⟩, -⟩ := hpush
        cases hitem

/--
`bounded_ring_buffer` behaves as a queue of capacity `N - 1` exactly in the runs
of fewer than `N - 1` calls of `push` and no other call.
-/
theorem isFifo_iff
    (hN : 2 ≤ N) (hsize : N < 2 ^ 64)
    (hrun : (ring buffer).Run tr b) :
    IsFifo buffer Buffer.returned tr ↔
      (∀ c ∈ tr, ∃ item, c = .push item) ∧ tr.length < N - 1 := by
  refine hrun.invariant
    (I := fun tr _ => IsFifo buffer Buffer.returned tr ↔
      (∀ c ∈ tr, ∃ item, c = .push item) ∧ tr.length < N - 1) ?_ ?_
  · intro b _
    refine iff_of_true
      ⟨(holds_fresh hN buffer).agrees hsize, System.history_nil⟩ ⟨by simp, ?_⟩
    rw [List.length_nil]
    omega
  · intro tr b c hrun ih _
    rw [isFifo_append_singleton hrun, ih, List.length_append,
      List.length_singleton]
    constructor
    · intro h
      obtain ⟨⟨hpush, hlength⟩, hlast⟩ := h
      obtain ⟨hholds, hstored⟩ := holds_of_pushes hN hrun hpush hlength
      obtain ⟨hc, hroom⟩ := (hholds.answers_iff hsize c).mp hlast
      rw [hstored] at hroom
      refine ⟨?_, hroom⟩
      intro c' hc'
      rcases List.mem_append.mp hc' with hold | hnew
      · exact hpush c' hold
      · exact List.mem_singleton.mp hnew ▸ hc
    · intro h
      obtain ⟨hpush, hlength⟩ := h
      have hpast : ∀ c ∈ tr, ∃ item, c = .push item :=
        fun c hc => hpush c (List.mem_append_left _ hc)
      have hshort := Nat.lt_of_succ_lt hlength
      obtain ⟨hholds, hstored⟩ := holds_of_pushes hN hrun hpast hshort
      refine ⟨⟨hpast, hshort⟩, (hholds.answers_iff hsize c).mpr ⟨?_, ?_⟩⟩
      · exact hpush c (by simp)
      · rwa [hstored]

end Runs

instance decidableRingGuard (buffer : Vector T N) (b : Buffer T N) (c : Call T) :
    Decidable ((ring buffer).guard b c) := by
  cases c <;> simp only [ring] <;> infer_instance

/-- The second element overwrites the first one. -/
def pushTwice : List (Call Nat) :=
  [.push 7, .push 8]

theorem not_isFifo_pushTwice :
    (ring #v[0, 0]).Run pushTwice
        ((ring #v[0, 0]).exec (.fresh #v[0, 0]) pushTwice) ∧
      ¬ IsFifo #v[0, 0] Buffer.returned pushTwice := by
  refine ⟨.of_enabled rfl (by decide +kernel), fun hfifo => ?_⟩
  have hagrees := (hfifo.2 [.push 7] (.push 8) [] rfl).2
  exact absurd (hagrees.asserts.mp (by decide +kernel)) (by decide)

/-- Two of three slots are filled. -/
theorem isFifo_pushTwice :
    IsFifo #v[0, 0, 0, 0] Buffer.returned pushTwice := by
  have hrun : (ring #v[0, 0, 0, 0]).Run pushTwice
      ((ring #v[0, 0, 0, 0]).exec (.fresh #v[0, 0, 0, 0]) pushTwice) :=
    .of_enabled rfl (by decide +kernel)
  refine (isFifo_iff (by decide) (by decide) hrun).mpr ⟨?_, by decide⟩
  intro c hc
  simp only [pushTwice, List.mem_cons, List.not_mem_nil, or_false] at hc
  rcases hc with rfl | rfl
  · exact ⟨7, rfl⟩
  · exact ⟨8, rfl⟩

end RingBuffer
end Ptl

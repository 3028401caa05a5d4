import Ptl.RingBuffer

/-!
# `OrderedScheduler`

A coroutine that awaits the scheduler is exchanged for the one that awaited it before.
This module embeds `exchange_next` and the member `exchange` of `bounded_ring_buffer` it
rests on.  As for `pop`, `exchange` has no `return` statement of its own and
`synchronize` returns `void`, so that what the lambda computes does not reach
`exchange_next`; the lambda is read as one that returns `std::optional<T>`, and the
argument `handle` as one that binds to `T&&`.

**Results.**
* `outputs_eq`: with at least three slots the lambdas hand every coroutine to the next
  call.
* `outputs_two`: with two slots `head_` and `tail_` always meet, and every coroutine is
  overwritten.
* `hands_on_iff`: what the caller gets is right exactly if there is no call, and what the
  lambdas compute exactly if there are three slots or nothing is lost in two.
-/

namespace Ptl
namespace RingBuffer

universe u

variable {T : Type u} {N : Nat} [Inhabited T]

/-- What the lambda of `exchange` does under the lock. -/
def Buffer.exchange (b : Buffer T N) (item : T) : Buffer T N × Option T :=
  if 0 < b.available then
    if b.head = b.tail then
      (b, some item)
    else
      let buffer := b.buffer.setIfInBounds b.tail item
      ({ head := b.wrap (b.head + 1)
         tail := b.wrap (b.tail + 1)
         buffer := buffer.setIfInBounds b.head default },
        some (buffer[b.head]?.getD default))
  else
    ({ b with
        tail := b.wrap (b.tail + 1)
        buffer := b.buffer.setIfInBounds b.tail item },
      none)

/-- What `exchange` returns; control flows off the end of the function. -/
def Buffer.exchangeReturned (_ : Buffer T N) (_ : T) : Option (Option T) :=
  none

/-- The rest of `exchange_next`, given the answer of `exchange`. -/
def exchangeNext (noop : T) (answer : Option T) : T :=
  match answer with
  | some h => h
  | none => noop

/-- The answers of `exchange_next` if it gets what the lambdas compute. -/
def outputs (noop : T) : Buffer T N → List T → List T
  | _, [] => []
  | b, h :: hs => exchangeNext noop (b.exchange h).2 :: outputs noop (b.exchange h).1 hs

/-- The answers of `exchange_next` as it is; `none` where it has no answer to go on. -/
def returnedOutputs (noop : T) : Buffer T N → List T → List (Option T)
  | _, [] => []
  | b, h :: hs =>
      (b.exchangeReturned h).map (exchangeNext noop) ::
        returnedOutputs noop (b.exchange h).1 hs

/-- Every call returns the handle of the call before it, and the first one `noop`. -/
def handedOn (noop : T) : List T → List T
  | [] => []
  | h :: hs => noop :: handedOn h hs

section Carries

variable {b : Buffer T N} {h : T}

/-- The buffer holds the one handle that the next call returns. -/
structure Carries (b : Buffer T N) (h : T) : Prop where
  head : b.head < b.totalSize
  tail : b.tail = b.wrap (b.head + 1)
  stores : b.buffer[b.head]? = some h

omit [Inhabited T] in
theorem Carries.tail_lt
    (hc : Carries b h) :
    b.tail < b.totalSize := by
  have hhead := hc.head
  rw [hc.tail, Buffer.wrap]
  split
  · exact Nat.zero_lt_of_lt hhead
  · omega

omit [Inhabited T] in
/-- With two positions or more the range never looks empty. -/
theorem Carries.head_ne_tail
    (hN : 3 ≤ N)
    (hc : Carries b h) :
    b.head ≠ b.tail := by
  have htotal := b.totalSize_eq
  have hhead := hc.head
  rw [hc.tail, Buffer.wrap]
  split <;> omega

omit [Inhabited T] in
/-- The size of a wrapped range is computed as an odd number, also where it overflows. -/
theorem Carries.available_pos
    (hN : 3 ≤ N)
    (hc : Carries b h) :
    0 < b.available := by
  have hne := hc.head_ne_tail hN
  have hhead := hc.head
  have htail := hc.tail
  rw [Buffer.available]
  split
  · next hlt =>
      rw [Buffer.wrap] at htail
      split at htail
      · unfold sizeRange
        omega
      · omega
  · omega

/-- The handle is returned, and the new one takes its place. -/
theorem Carries.exchange
    (hN : 3 ≤ N)
    (hc : Carries b h)
    (item : T) :
    (b.exchange item).2 = some h ∧ Carries (b.exchange item).1 item := by
  have hne := hc.head_ne_tail hN
  have hlast : b.tail < N := Nat.lt_of_lt_of_le hc.tail_lt (Nat.sub_le N 1)
  have hstep : b.exchange item =
      ({ head := b.wrap (b.head + 1)
         tail := b.wrap (b.tail + 1)
         buffer := (b.buffer.setIfInBounds b.tail item).setIfInBounds b.head default },
        some ((b.buffer.setIfInBounds b.tail item)[b.head]?.getD default)) := by
    rw [Buffer.exchange, if_pos (hc.available_pos hN), if_neg hne]
  rw [hstep]
  constructor
  · rw [Vector.getElem?_setIfInBounds_ne (Ne.symm hne), hc.stores]
    rfl
  · constructor
    · exact hc.tail ▸ hc.tail_lt
    · rw [hc.tail]
      rfl
    · change ((b.buffer.setIfInBounds b.tail item).setIfInBounds b.head default)[
        b.wrap (b.head + 1)]? = some item
      rw [← hc.tail, Vector.getElem?_setIfInBounds_ne hne,
        Vector.getElem?_setIfInBounds_self_of_lt hlast]

/-- From then on every call returns the handle of the call before it. -/
theorem Carries.outputs
    (hN : 3 ≤ N)
    (hc : Carries b h)
    (noop : T)
    (hs : List T) :
    outputs noop b hs = handedOn h hs := by
  induction hs generalizing b h with
  | nil =>
      rfl
  | cons item hs ih =>
      obtain ⟨hanswer, hnext⟩ := hc.exchange hN item
      rw [RingBuffer.outputs, handedOn, hanswer, ih hnext]
      rfl

end Carries

section Fresh

variable (noop : T) (buffer : Vector T N)

/-- The first call finds nothing. -/
theorem exchange_fresh (item : T) :
    (Buffer.fresh buffer).exchange item =
      ({ head := 0
         tail := (Buffer.fresh buffer).wrap 1
         buffer := buffer.setIfInBounds 0 item },
        none) := by
  rfl

theorem carries_first
    (hN : 3 ≤ N)
    (item : T) :
    Carries ((Buffer.fresh buffer).exchange item).1 item := by
  have hpos : 0 < N := by omega
  rw [exchange_fresh]
  constructor
  · change 0 < N - 1
    omega
  · rfl
  · exact Vector.getElem?_setIfInBounds_self_of_lt hpos

/-- With at least three slots every handle is returned once, by the next call. -/
theorem outputs_eq
    (hN : 3 ≤ N)
    (hs : List T) :
    outputs noop (.fresh buffer) hs = handedOn noop hs := by
  cases hs with
  | nil =>
      rfl
  | cons item hs =>
      have hnext := (carries_first buffer hN item).outputs hN noop hs
      rw [outputs, handedOn, hnext, exchange_fresh]
      rfl

end Fresh

section TwoSlots

variable {b : Buffer T N}

/-- With two slots `tail_` returns to `head_` at once. -/
theorem exchange_two
    (hN : N = 2)
    (hhead : b.head = 0)
    (htail : b.tail = 0)
    (item : T) :
    (b.exchange item).2 = none ∧
      (b.exchange item).1.head = 0 ∧ (b.exchange item).1.tail = 0 := by
  have hempty : ¬0 < b.available := by
    rw [available_of_le (by omega), htail, hhead]
    exact Nat.lt_irrefl 0
  have hwrap : b.wrap 1 = 0 := by
    rw [Buffer.wrap, b.totalSize_eq, hN]
    rfl
  rw [Buffer.exchange, if_neg hempty]
  refine ⟨rfl, hhead, ?_⟩
  change b.wrap (b.tail + 1) = 0
  rw [htail, hwrap]

theorem outputs_two
    (hN : N = 2)
    (hhead : b.head = 0)
    (htail : b.tail = 0)
    (noop : T)
    (hs : List T) :
    outputs noop b hs = List.replicate hs.length noop := by
  induction hs generalizing b with
  | nil =>
      rfl
  | cons item hs ih =>
      obtain ⟨hanswer, hhead', htail'⟩ := exchange_two hN hhead htail item
      rw [outputs, hanswer, ih hhead' htail']
      rfl

omit [Inhabited T] in
theorem replicate_eq_handedOn_iff
    (noop h : T)
    (hs : List T) :
    List.replicate hs.length noop = handedOn h hs ↔ ∀ x ∈ (h :: hs).dropLast, x = noop := by
  induction hs generalizing h with
  | nil =>
      simp [handedOn]
  | cons item hs ih =>
      rw [List.length_cons, List.replicate_succ, handedOn, List.cons_eq_cons, ih item,
        List.dropLast_cons_cons, List.forall_mem_cons]
      exact and_congr_left' eq_comm

omit [Inhabited T] in
/-- Answering `noop` to every call loses nothing but handles that are `noop` anyway. -/
theorem replicate_eq_iff
    (noop : T)
    (hs : List T) :
    List.replicate hs.length noop = handedOn noop hs ↔ ∀ x ∈ hs.dropLast, x = noop := by
  rw [replicate_eq_handedOn_iff]
  cases hs with
  | nil =>
      simp
  | cons item hs =>
      rw [List.dropLast_cons_cons, List.forall_mem_cons, and_iff_right rfl]

end TwoSlots

/-- Nothing that `exchange_next` has to return reaches it. -/
theorem returnedOutputs_eq_iff
    (noop : T)
    (b : Buffer T N)
    (hs : List T) :
    returnedOutputs noop b hs = (handedOn noop hs).map some ↔ hs = [] := by
  cases hs with
  | nil =>
      exact iff_of_true rfl rfl
  | cons item hs =>
      refine iff_of_false ?_ (List.cons_ne_nil item hs)
      intro heq
      have hfirst := (List.cons_eq_cons.mp heq).1
      cases hfirst

/--
For every ring of at least two slots and every sequence of handles: what the calls return
is right exactly if there is no call, and what the lambdas compute is right exactly if
there are at least three slots, or if only `noop` is overwritten in two.
-/
theorem hands_on_iff
    (hN : 2 ≤ N)
    (noop : T)
    (buffer : Vector T N)
    (hs : List T) :
    (returnedOutputs noop (.fresh buffer) hs = (handedOn noop hs).map some ↔ hs = []) ∧
    (outputs noop (.fresh buffer) hs = handedOn noop hs ↔
      3 ≤ N ∨ ∀ h ∈ hs.dropLast, h = noop) := by
  refine ⟨returnedOutputs_eq_iff noop _ hs, ?_⟩
  rcases Nat.lt_or_ge N 3 with hlt | hge
  · have htwo : N = 2 := by omega
    rw [outputs_two htwo rfl rfl, replicate_eq_iff]
    constructor
    · exact .inr
    · rintro (hge | hnoop)
      · omega
      · exact hnoop
  · exact iff_of_true (outputs_eq noop buffer hge hs) (.inl hge)

theorem hands_on_iff_two :
    outputs 0 (.fresh (Vector.replicate 2 0)) [1, 2] = [0, 0] ∧
      ¬outputs 0 (.fresh (Vector.replicate 2 0)) [1, 2] = handedOn 0 [1, 2] := by
  refine ⟨rfl, ?_⟩
  rw [(hands_on_iff (Nat.le_refl 2) 0 (Vector.replicate 2 0) [1, 2]).2]
  decide

/-- One call on a ring of three slots. -/
theorem not_hands_on :
    returnedOutputs 0 (.fresh (Vector.replicate 3 0)) [1] = [none] ∧
      returnedOutputs 0 (.fresh (Vector.replicate 3 0)) [1] ≠ (handedOn 0 [1]).map some ∧
      outputs 0 (.fresh (Vector.replicate 2 0)) [1, 2] ≠ handedOn 0 [1, 2] := by
  decide

end RingBuffer
end Ptl

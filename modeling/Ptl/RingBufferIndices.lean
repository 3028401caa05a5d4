import Ptl.OrderedScheduler

/-!
# The indices of `bounded_ring_buffer`

The members increment an index after the access and reset it in a `SCOPE_EXIT` when it
equals `total_size_ = N - 1`.  This module collects the accesses `buffer_[i]` of `push`,
`pop` and `exchange`.

**Results.**
* `getElem_after`: a call changes no slot that it does not access.
* `accesses_in_range_iff`: all accesses of a run are inside the array exactly if there are
  two slots, or at most one call that stores.  With one slot `total_size_` is zero, which no
  incremented index equals.
-/

namespace Ptl
namespace RingBuffer

open Transition

universe u

/-- The members that access the array. -/
inductive Member (T : Type u) where
  | push (item : T)
  | pop
  | exchange (item : T)
deriving DecidableEq

variable {T : Type u} {N : Nat}

namespace Buffer

/-- The indices of the accesses `buffer_[i]`, in their order. -/
def accesses (b : Buffer T N) : Member T → List Nat
  | .push _ => [b.tail]
  | .pop => if 0 < b.available then [b.head] else []
  | .exchange _ =>
      if 0 < b.available then
        if b.head = b.tail then [] else [b.tail, b.head]
      else [b.tail]

/-- The buffer after a call. -/
def after [Inhabited T] (b : Buffer T N) : Member T → Buffer T N
  | .push item => b.push item
  | .pop => b.pop.1
  | .exchange item => (b.exchange item).1

/-- All accesses of the call are inside the array. -/
def InRange (b : Buffer T N) (m : Member T) : Prop :=
  ∀ i ∈ b.accesses m, i < N

end Buffer

section Indices

variable {b : Buffer T N} {tr : List (Member T)}

/-- With two slots both indices stay below `total_size_`. -/
structure Below (b : Buffer T N) : Prop where
  head : b.head < b.totalSize
  tail : b.tail < b.totalSize

theorem wrap_lt
    {i : Nat}
    (hi : i < b.totalSize) :
    b.wrap (i + 1) < b.totalSize := by
  rw [Buffer.wrap]
  split <;> omega

theorem Below.inRange
    (h : Below b)
    (m : Member T) :
    b.InRange m := by
  have hle : b.totalSize ≤ N := Nat.sub_le N 1
  have hhead : b.head < N := h.head.trans_le hle
  have htail : b.tail < N := h.tail.trans_le hle
  intro i hi
  cases m with
  | push item =>
      obtain rfl := List.mem_singleton.mp hi
      exact htail
  | pop =>
      rw [Buffer.accesses] at hi
      split at hi
      · obtain rfl := List.mem_singleton.mp hi
        exact hhead
      · cases hi
  | exchange item =>
      rw [Buffer.accesses] at hi
      split at hi
      · split at hi
        · cases hi
        · rcases List.mem_cons.mp hi with rfl | hi
          · exact htail
          · obtain rfl := List.mem_singleton.mp hi
            exact hhead
      · obtain rfl := List.mem_singleton.mp hi
        exact htail

theorem available_eq_zero
    (h : b.head = b.tail) :
    b.available = 0 := by
  rw [available_of_le h.le, h, Nat.sub_self]

/-- An empty buffer of one slot does not pass the assertion of `push`. -/
theorem free_eq_zero
    (hN : N = 1)
    (h : b.head = b.tail) :
    b.free = 0 := by
  have htotal : b.totalSize = 0 := by rw [b.totalSize_eq, hN]
  rw [Buffer.free, available_eq_zero h, htotal, Nat.add_zero, Nat.sub_zero, Nat.mod_self]

/-- `push` and `exchange` access the slot of `tail_`. -/
theorem tail_mem_accesses (item : T) :
    b.tail ∈ b.accesses (.push item) ∧ b.tail ∈ b.accesses (.exchange item) := by
  refine ⟨List.mem_singleton.mpr rfl, ?_⟩
  rw [Buffer.accesses]
  split
  · next hpos =>
      have hne : b.head ≠ b.tail := fun h => hpos.ne' (available_eq_zero h)
      rw [if_neg hne]
      exact List.mem_cons_self
  · exact List.mem_singleton.mpr rfl

/-- The calls that store an element. -/
def stores (tr : List (Member T)) : Nat :=
  tr.countP fun m => match m with
    | .pop => false
    | _ => true

@[simp] theorem stores_push (item : T) :
    stores (tr ++ [.push item]) = stores tr + 1 := by
  simp [stores]

@[simp] theorem stores_pop :
    stores (tr ++ [.pop]) = stores tr := by
  simp [stores]

@[simp] theorem stores_exchange (item : T) :
    stores (tr ++ [.exchange item]) = stores tr + 1 := by
  simp [stores]

end Indices

variable [Inhabited T]

/-- Runs of the members, `push` only when its assertion holds. -/
def members (buffer : Vector T N) : System (Buffer T N) (Member T) where
  init := fun b => b = .fresh buffer
  guard := fun b m =>
    match m with
    | .push _ => 0 < b.free
    | _ => True
  next := Buffer.after

instance decidableMembersGuard (buffer : Vector T N) (b : Buffer T N) (m : Member T) :
    Decidable ((members buffer).guard b m) := by
  cases m <;> simp only [members] <;> infer_instance

section Accesses

variable {b : Buffer T N} {buffer : Vector T N} {tr : List (Member T)} {m : Member T}

/-- A call changes no slot that it does not access. -/
theorem getElem_after
    {i : Nat}
    (hi : i ∉ b.accesses m) :
    (b.after m).buffer[i]? = b.buffer[i]? := by
  cases m with
  | push item =>
      have hne : b.tail ≠ i := fun h => hi (by simp [Buffer.accesses, h])
      exact Vector.getElem?_setIfInBounds_ne hne
  | pop =>
      rw [Buffer.after, Buffer.pop]
      rw [Buffer.accesses] at hi
      split
      · next hpos =>
          rw [if_pos hpos, List.mem_singleton] at hi
          exact Vector.getElem?_setIfInBounds_ne (Ne.symm hi)
      · rfl
  | exchange item =>
      rw [Buffer.after, Buffer.exchange]
      rw [Buffer.accesses] at hi
      split
      · next hpos =>
          rw [if_pos hpos] at hi
          split
          · rfl
          · next hne =>
              rw [if_neg hne] at hi
              have htail : b.tail ≠ i := fun h => hi (by simp [h])
              have hhead : b.head ≠ i := fun h => hi (by simp [h])
              exact (Vector.getElem?_setIfInBounds_ne hhead).trans
                (Vector.getElem?_setIfInBounds_ne htail)
      · next hnot =>
          rw [if_neg hnot, List.mem_singleton] at hi
          exact Vector.getElem?_setIfInBounds_ne (Ne.symm hi)

theorem Below.after
    (h : Below b)
    (m : Member T) :
    Below (b.after m) := by
  cases m with
  | push item =>
      exact ⟨h.head, wrap_lt h.tail⟩
  | pop =>
      rw [Buffer.after, Buffer.pop]
      split
      · exact ⟨wrap_lt h.head, h.tail⟩
      · exact h
  | exchange item =>
      rw [Buffer.after, Buffer.exchange]
      split
      · split
        · exact h
        · exact ⟨wrap_lt h.head, wrap_lt h.tail⟩
      · exact ⟨h.head, wrap_lt h.tail⟩

theorem below_of_run
    (hN : 2 ≤ N)
    (hrun : (members buffer).Run tr b) :
    Below b := by
  refine hrun.invariant (I := fun _ b => Below b) ?_ ?_
  · intro b hb
    obtain rfl : b = .fresh buffer := hb
    exact ⟨Nat.sub_pos_of_lt hN, Nat.sub_pos_of_lt hN⟩
  · intro _ b m _ h _
    exact h.after m

/-- With one slot: before the first call that stores, before the second one, and later. -/
def OneSlot (tr : List (Member T)) (b : Buffer T N) : Prop :=
  stores tr = 0 ∧ b.head = 0 ∧ b.tail = 0 ∨
    stores tr = 1 ∧ b.head ≤ 1 ∧ b.tail = 1 ∨
      2 ≤ stores tr

/-- Before the first call that stores, only `exchange` accesses the array. -/
theorem oneSlot_first
    (hN : N = 1)
    (hstores : stores tr = 0) (hhead : b.head = 0) (htail : b.tail = 0)
    (hguard : (members buffer).guard b m) :
    b.InRange m ∧ OneSlot (tr ++ [m]) (b.after m) := by
  have havailable : ¬ 0 < b.available := by
    rw [available_eq_zero (hhead.trans htail.symm)]
    exact Nat.lt_irrefl 0
  cases m with
  | push item =>
      have hfree : 0 < b.free := hguard
      rw [free_eq_zero hN (hhead.trans htail.symm)] at hfree
      exact absurd hfree (Nat.lt_irrefl 0)
  | pop =>
      rw [Buffer.InRange, Buffer.accesses, Buffer.after, Buffer.pop, if_neg havailable,
        if_neg havailable]
      refine ⟨fun i hi => absurd hi List.not_mem_nil, Or.inl ⟨?_, hhead, htail⟩⟩
      rw [stores_pop, hstores]
  | exchange item =>
      rw [Buffer.InRange, Buffer.accesses, Buffer.after, Buffer.exchange, if_neg havailable,
        if_neg havailable]
      constructor
      · intro i hi
        rw [List.mem_singleton.mp hi, htail, hN]
        exact Nat.one_pos
      · refine Or.inr (Or.inl ⟨by rw [stores_exchange, hstores],
          hhead.le.trans (Nat.zero_le 1), ?_⟩)
        -- `tail_` is incremented and compared with `total_size_`, which is zero
        change b.wrap (b.tail + 1) = 1
        rw [Buffer.wrap, htail, b.totalSize_eq, hN]
        rfl

/-- The second call that stores goes beyond the slot. -/
theorem oneSlot_second
    (hN : N = 1)
    (hstores : stores tr = 1) (hhead : b.head ≤ 1) (htail : b.tail = 1) :
    (b.InRange m ↔ stores (tr ++ [m]) ≤ 1) ∧ OneSlot (tr ++ [m]) (b.after m) := by
  have hbeyond : b.tail ∈ b.accesses m → ¬ b.InRange m := by
    intro hmem hin
    have hlt := hin b.tail hmem
    omega
  cases m with
  | push item =>
      rw [OneSlot, stores_push, hstores]
      refine ⟨iff_of_false (hbeyond (tail_mem_accesses item).1) (by omega), ?_⟩
      exact Or.inr (Or.inr (Nat.le_refl 2))
  | exchange item =>
      rw [OneSlot, stores_exchange, hstores]
      refine ⟨iff_of_false (hbeyond (tail_mem_accesses item).2) (by omega), ?_⟩
      exact Or.inr (Or.inr (Nat.le_refl 2))
  | pop =>
      rw [stores_pop, hstores]
      rw [OneSlot, stores_pop, Buffer.InRange, Buffer.accesses, Buffer.after, Buffer.pop]
      split
      · next hpos =>
          have hne : b.head ≠ b.tail := fun h => hpos.ne' (available_eq_zero h)
          have hzero : b.head = 0 := by omega
          refine ⟨iff_of_true ?_ (Nat.le_refl 1), Or.inr (Or.inl ⟨hstores, ?_, htail⟩)⟩
          · intro i hi
            rw [List.mem_singleton.mp hi, hzero, hN]
            exact Nat.one_pos
          · change b.wrap (b.head + 1) ≤ 1
            rw [Buffer.wrap]
            split <;> omega
      · refine ⟨iff_of_true ?_ (Nat.le_refl 1), Or.inr (Or.inl ⟨hstores, hhead, htail⟩)⟩
        exact fun i hi => absurd hi List.not_mem_nil

theorem OneSlot.step
    (hN : N = 1)
    (h : OneSlot tr b)
    (hguard : (members buffer).guard b m) :
    (stores (tr ++ [m]) ≤ 1 ↔ stores tr ≤ 1 ∧ b.InRange m) ∧
      OneSlot (tr ++ [m]) (b.after m) := by
  have hadd : stores tr ≤ stores (tr ++ [m]) ∧ stores (tr ++ [m]) ≤ stores tr + 1 := by
    cases m <;> simp
  rcases h with ⟨hstores, hhead, htail⟩ | ⟨hstores, hhead, htail⟩ | hstores
  · obtain ⟨hin, hnext⟩ := oneSlot_first hN hstores hhead htail hguard
    exact ⟨iff_of_true (by omega) ⟨by omega, hin⟩, hnext⟩
  · obtain ⟨hin, hnext⟩ := oneSlot_second hN hstores hhead htail
    exact ⟨by rw [hin]; omega, hnext⟩
  · exact ⟨by omega, Or.inr (Or.inr (by omega))⟩

theorem oneSlot_of_run
    (hN : N = 1)
    (hrun : (members buffer).Run tr b) :
    OneSlot tr b := by
  refine hrun.invariant (I := OneSlot) ?_ ?_
  · intro b hb
    obtain rfl : b = .fresh buffer := hb
    exact Or.inl ⟨rfl, rfl, rfl⟩
  · intro tr b m _ h hguard
    exact (h.step hN hguard).2

/--
All accesses of a run are inside the array exactly if the array has at least two slots, or
if at most one call of the run stores an element.
-/
theorem accesses_in_range_iff
    (hN : 1 ≤ N)
    (hrun : (members buffer).Run tr b) :
    (members buffer).Along (fun b m => ∀ i ∈ b.accesses m, i < N) (.fresh buffer) tr ↔
      2 ≤ N ∨ stores tr ≤ 1 := by
  symm
  refine hrun.along_iff (A := fun tr => 2 ≤ N ∨ stores tr ≤ 1) (fun _ h => h)
    (Or.inr (Nat.zero_le 1)) ?_
  intro tr b m hrun hguard
  rcases hN.lt_or_eq with hlarge | hone
  · exact iff_of_true (Or.inl hlarge) ⟨Or.inl hlarge, (below_of_run hlarge hrun).inRange m⟩
  · have hsmall : ¬ 2 ≤ N := by omega
    rw [or_iff_right hsmall, or_iff_right hsmall]
    exact ((oneSlot_of_run hone.symm hrun).step hone.symm hguard).1

/-- Two slots, of which the indices use one. -/
theorem accesses_in_range_two :
    (members #v[0, 0]).Along (fun b m => ∀ i ∈ b.accesses m, i < 2) (.fresh #v[0, 0])
      [.push 7, .exchange 8, .pop] :=
  (accesses_in_range_iff (by decide) (.of_enabled rfl (by decide +kernel))).mpr
    (Or.inl (Nat.le_refl 2))

end Accesses

/-- With one slot `tail_` is 1 after the first `exchange`, and the second one uses it. -/
theorem not_accesses_in_range :
    (members #v[0]).Run [.exchange 7, .exchange 8]
        ((members #v[0]).exec (.fresh #v[0]) [.exchange 7, .exchange 8]) ∧
      ((members #v[0]).exec (.fresh #v[0]) [.exchange 7]).accesses (.exchange 8) = [1, 0] ∧
      ¬ (members #v[0]).Along (fun b m => ∀ i ∈ b.accesses m, i < 1) (.fresh #v[0])
        [.exchange 7, .exchange 8] :=
  ⟨.of_enabled rfl (by decide +kernel), by decide +kernel, by decide +kernel⟩

end RingBuffer
end Ptl

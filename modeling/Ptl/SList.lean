import Ptl.LinkedChain
import Ptl.TransitionSystem

/-!
# `SList`

This module embeds `push_back`, `push_front`, `front` and `back` of `SList`.  The members
call `in_list` and `next_` on items and convert between items, entries and lists where
only entries fit; they are read as calls on the entries.  An assertion that fails, and a
loop that goes on for more than a given number of tests, leave the program `stuck`.

The loop of `back` sets `curr = head_.next_` where it ought to set `curr = curr->next_`.

**Results.**
* `back_eq_none`: on a list that is not empty `back` never returns.
* `slist_refines_iff`: the list behaves as a sequence exactly if every call of `back` is
  made before the first push.
-/

namespace Ptl
namespace SList

open LinkedChain Transition

universe u

/-- `head_` and the entries of the items. -/
structure State (ι : Type u) where
  cells : Cells ι
  stuck : Bool

inductive Call (ι : Type u) where
  | pushBack (item : ι)
  | pushFront (item : ι)
  | front
  | back
deriving DecidableEq

namespace State

variable {ι : Type u}

/-- An empty list, and items that were never linked. -/
def start : State ι where
  cells := fun _ => none
  stuck := false

def inList (s : State ι) (a : Slot ι) : Bool :=
  (s.cells a).isSome

def empty (s : State ι) : Bool :=
  !s.inList .head

/-- `none` is the null pointer. -/
def front (s : State ι) : Option ι :=
  if s.empty then none else s.cells .head

/-- The loop of `back`, if it ends within `fuel` tests of its condition. -/
def backLoop (s : State ι) : Nat → Option ι → Option ι → Option (Option ι)
  | 0, _, _ => none
  | _ + 1, prev, none => some prev
  | fuel + 1, _, some x => backLoop s fuel (some x) (s.cells .head)

def back (s : State ι) (fuel : Nat) : Option (Option ι) :=
  if s.empty then some none else s.backLoop fuel none (s.cells .head)

variable [DecidableEq ι]

def pushBack (s : State ι) (fuel : Nat) (item : ι) : State ι :=
  if s.inList (.next item) then { s with stuck := true }
  else
    match seek s.cells fuel .head with
    | some a => { s with cells := Function.update s.cells a (some item) }
    | none => { s with stuck := true }

def pushFront (s : State ι) (item : ι) : State ι :=
  if s.inList (.next item) then { s with stuck := true }
  else
    let cells := Function.update s.cells (.next item) (s.cells .head)
    { s with cells := Function.update cells .head (some item) }

/-- The state after a call that is made. -/
def call (fuel : Nat) (s : State ι) : Call ι → State ι
  | .pushBack item => s.pushBack fuel item
  | .pushFront item => s.pushFront item
  | .front => s
  | .back =>
      match s.back fuel with
      | some _ => s
      | none => { s with stuck := true }

/-- A program that is stuck makes no further calls. -/
def next (fuel : Nat) (s : State ι) (c : Call ι) : State ι :=
  if s.stuck = true then s else s.call fuel c

/-- The state after a sequence of calls. -/
def after (fuel : Nat) (tr : List (Call ι)) : State ι :=
  tr.foldl (next fuel) start

end State

variable {ι : Type u}

/-- The push that a call makes. -/
def Call.push : Call ι → Option (Push ι)
  | pushBack item => some (.back item)
  | pushFront item => some (.front item)
  | front => none
  | back => none

/-- The sequence that the calls stand for. -/
def contents (tr : List (Call ι)) : List ι :=
  sequence (tr.filterMap Call.push)

/-- The items that are pushed. -/
def pushedItems (tr : List (Call ι)) : List ι :=
  (tr.filterMap Call.push).map Push.node

variable [DecidableEq ι]

/--
The calls have all returned, the traversal goes through the sequence, and the answers of
`front` and `back` were its first and its last item.
-/
structure Refines (fuel : Nat) (tr : List (Call ι)) : Prop where
  returned : (State.after fuel tr).stuck = false
  traversal : Chain (State.after fuel tr).cells .head (contents tr)
  front : System.History
    (fun es c => c = .front → (State.after fuel es).front = (contents es).head?) tr
  back : System.History
    (fun es c => c = .back → (State.after fuel es).back fuel = some (contents es).getLast?) tr

/-- The call is not one of `back` on a list with an item. -/
def BackOnEmpty (es : List (Call ι)) (c : Call ι) : Prop :=
  c = .back → contents es = []

instance decidableBackOnEmpty (es : List (Call ι)) (c : Call ι) :
    Decidable (BackOnEmpty es c) :=
  inferInstanceAs (Decidable (c = .back → contents es = []))

section Calls

variable {s : State ι} {xs : List ι} {item x : ι} {fuel : Nat}

/-- The program runs, the list holds the items, and no other item is linked. -/
structure Listed (s : State ι) (xs : List ι) : Prop extends Linked s.cells xs where
  running : s.stuck = false

omit [DecidableEq ι] in
theorem listed_start : Listed (.start : State ι) [] where
  running := rfl
  chain := rfl
  fresh := fun _ _ => rfl

omit [DecidableEq ι] in
theorem Listed.inList_eq_false
    (hs : Listed s xs)
    (hitem : item ∉ xs) :
    s.inList (.next item) = false := by
  rw [State.inList, hs.fresh item hitem]
  rfl

omit [DecidableEq ι] in
theorem Listed.empty_iff
    (hs : Listed s xs) :
    s.empty = true ↔ xs = [] := by
  rw [State.empty, State.inList, hs.chain.head_eq]
  cases xs <;> simp

omit [DecidableEq ι] in
theorem Listed.front_eq
    (hs : Listed s xs) :
    s.front = xs.head? := by
  rw [State.front]
  split
  · next hempty =>
      rw [hs.empty_iff.mp hempty]
      rfl
  · exact hs.chain.head_eq

omit [DecidableEq ι] in
/-- The loop reads `head_.next_` again and again. -/
theorem backLoop_eq_none
    (hhead : s.cells .head = some x)
    (prev : Option ι) (y : ι) :
    s.backLoop fuel prev (some y) = none := by
  induction fuel generalizing prev y with
  | zero =>
      rfl
  | succ fuel ih =>
      rw [State.backLoop, hhead]
      exact ih (some y) x

omit [DecidableEq ι] in
/-- On a list that is not empty `back` does not return. -/
theorem back_eq_none
    (hs : Listed s xs)
    (hne : xs ≠ []) :
    s.back fuel = none := by
  have hempty : ¬s.empty = true := fun h => hne (hs.empty_iff.mp h)
  obtain ⟨x, ys, rfl⟩ := List.exists_cons_of_ne_nil hne
  have hhead : s.cells .head = some x := hs.chain.1
  rw [State.back, if_neg hempty, hhead]
  exact backLoop_eq_none hhead none x

/-- The item is put into the slot at the end. -/
theorem Listed.pushBack
    (hs : Listed s xs)
    (hitem : item ∉ xs)
    (hfuel : xs.length < fuel) :
    Listed (s.pushBack fuel item) (xs ++ [item]) := by
  have hstep : s.pushBack fuel item =
      { s with cells := Function.update s.cells (lastSlot .head xs) (some item) } := by
    simp [State.pushBack, hs.inList_eq_false hitem, hs.chain.seek hfuel]
  rw [hstep]
  exact ⟨hs.toLinked.concat hitem, hs.running⟩

theorem Listed.pushFront
    (hs : Listed s xs)
    (hitem : item ∉ xs) :
    Listed (s.pushFront item) (item :: xs) := by
  have hstep : s.pushFront item =
      { s with
        cells := Function.update (Function.update s.cells (.next item) (s.cells .head)) .head
          (some item) } := by
    simp [State.pushFront, hs.inList_eq_false hitem]
  rw [hstep]
  exact ⟨hs.toLinked.cons hitem, hs.running⟩

end Calls

section Runs

variable {tr : List (Call ι)} {c : Call ι} {fuel : Nat}

theorem after_append_singleton (fuel : Nat) (tr : List (Call ι)) (c : Call ι) :
    State.after fuel (tr ++ [c]) = (State.after fuel tr).next fuel c := by
  simp [State.after]

omit [DecidableEq ι] in
theorem contents_append_singleton (tr : List (Call ι)) (c : Call ι) :
    contents (tr ++ [c]) =
      match c.push with
      | some p => p.apply (contents tr)
      | none => contents tr := by
  rw [contents, filterMap_append_singleton]
  cases hpush : c.push with
  | none =>
      simp [contents]
  | some p =>
      simp [contents, sequence_append_singleton]

omit [DecidableEq ι] in
theorem length_contents_le (tr : List (Call ι)) :
    (contents tr).length ≤ tr.length := by
  rw [contents, (sequence_perm _).length_eq, List.length_map]
  exact List.length_filterMap_le ..

omit [DecidableEq ι] in
/-- An item that is pushed now was not pushed before. -/
theorem notMem_contents
    {p : Push ι}
    (hdistinct : (pushedItems (tr ++ [c])).Nodup)
    (hpush : c.push = some p) :
    p.node ∉ contents tr := by
  rw [pushedItems, filterMap_append_singleton, hpush, List.map_append] at hdistinct
  rw [contents, (sequence_perm _).mem_iff]
  exact fun hmem => (List.nodup_append.mp hdistinct).2.2 _ hmem _ (by simp) rfl

omit [DecidableEq ι] in
theorem distinct_of_append
    (hdistinct : (pushedItems (tr ++ [c])).Nodup) :
    (pushedItems tr).Nodup := by
  rw [pushedItems, List.filterMap_append, List.map_append] at hdistinct
  exact (List.nodup_append.mp hdistinct).1

/-- The calls so far have left the list as it ought to be. -/
structure Good (fuel : Nat) (tr : List (Call ι)) : Prop where
  listed : Listed (State.after fuel tr) (contents tr)
  refines : Refines fuel tr

theorem good_nil (fuel : Nat) : Good fuel ([] : List (Call ι)) where
  listed := listed_start
  refines :=
    { returned := rfl
      traversal := rfl
      front := System.history_nil
      back := System.history_nil }

/-- One more call whose answer is right. -/
theorem Good.append
    (h : Good fuel tr)
    (hlisted : Listed (State.after fuel (tr ++ [c])) (contents (tr ++ [c])))
    (hfront : c = .front → (State.after fuel tr).front = (contents tr).head?)
    (hback : c = .back → (State.after fuel tr).back fuel = some (contents tr).getLast?) :
    Good fuel (tr ++ [c]) where
  listed := hlisted
  refines :=
    { returned := hlisted.running
      traversal := hlisted.chain
      front := (System.history_append_singleton tr c).mpr ⟨h.refines.front, hfront⟩
      back := (System.history_append_singleton tr c).mpr ⟨h.refines.back, hback⟩ }

theorem Good.call
    (h : Good fuel tr)
    (hdistinct : (pushedItems (tr ++ [c])).Nodup)
    (hfuel : tr.length < fuel)
    (hempty : BackOnEmpty tr c) :
    Good fuel (tr ++ [c]) := by
  have hs := h.listed
  have hless : (contents tr).length < fuel := Nat.lt_of_le_of_lt (length_contents_le tr) hfuel
  have hnext : State.after fuel (tr ++ [c]) = (State.after fuel tr).call fuel c := by
    rw [after_append_singleton, State.next, if_neg (by simp [hs.running])]
  have hcontents := contents_append_singleton tr c
  cases c with
  | pushBack item =>
      refine h.append ?_ (fun hc => by cases hc) (fun hc => by cases hc)
      rw [hnext, hcontents]
      exact hs.pushBack (notMem_contents hdistinct rfl) hless
  | pushFront item =>
      refine h.append ?_ (fun hc => by cases hc) (fun hc => by cases hc)
      rw [hnext, hcontents]
      exact hs.pushFront (notMem_contents hdistinct rfl)
  | front =>
      refine h.append ?_ (fun _ => hs.front_eq) (fun hc => by cases hc)
      rw [hnext, hcontents]
      exact hs
  | back =>
      have hnil : contents tr = [] := hempty rfl
      have hreturns : (State.after fuel tr).back fuel = some none :=
        if_pos (hs.empty_iff.mpr hnil)
      refine h.append ?_ (fun hc => by cases hc) fun _ => ?_
      · rw [hnext, hcontents]
        simpa [State.call, hreturns, Call.push] using hs
      · rw [hreturns, hnil]
        rfl

/-- The calls of `back` decide between a good list and a program that is stuck. -/
theorem good_or_stuck
    (hdistinct : (pushedItems tr).Nodup)
    (hfuel : tr.length ≤ fuel) :
    System.History BackOnEmpty tr ∧ Good fuel tr ∨
      ¬System.History BackOnEmpty tr ∧ (State.after fuel tr).stuck = true := by
  induction tr using List.reverseRecOn with
  | nil =>
      exact .inl ⟨System.history_nil, good_nil fuel⟩
  | append_singleton tr c ih =>
      rw [List.length_append, List.length_singleton] at hfuel
      rw [System.history_append_singleton]
      rcases ih (distinct_of_append hdistinct) (by omega) with ⟨hpast, hgood⟩ | ⟨hpast, hstuck⟩
      · by_cases hempty : BackOnEmpty tr c
        · exact .inl ⟨⟨hpast, hempty⟩, hgood.call hdistinct hfuel hempty⟩
        · refine .inr ⟨fun h => hempty h.2, ?_⟩
          obtain ⟨rfl, hne⟩ : c = .back ∧ contents tr ≠ [] := by
            simpa [BackOnEmpty] using hempty
          rw [after_append_singleton, State.next, if_neg (by simp [hgood.listed.running])]
          simp only [State.call, back_eq_none hgood.listed hne]
      · refine .inr ⟨fun h => hpast h.1, ?_⟩
        rw [after_append_singleton, State.next, if_pos hstuck]
        exact hstuck

/--
For distinct items and loops that may go on for more tests than there are calls: the list
behaves as the sequence of its items exactly if `back` is called on an empty list only.
-/
theorem slist_refines_iff
    (hdistinct : (pushedItems tr).Nodup)
    (hfuel : tr.length ≤ fuel) :
    Refines fuel tr ↔ System.History BackOnEmpty tr := by
  rcases good_or_stuck hdistinct hfuel with ⟨hpast, hgood⟩ | ⟨hpast, hstuck⟩
  · exact iff_of_true hgood.refines hpast
  · refine iff_of_false (fun h => ?_) hpast
    rw [h.returned] at hstuck
    cases hstuck

/-- Calls that never ask for the last item. -/
def fourPushes : List (Call Nat) :=
  [.back, .pushBack 1, .pushFront 2, .front, .pushBack 3, .pushFront 4]

theorem slist_refines_fourPushes :
    Refines 6 fourPushes ∧ contents fourPushes = [4, 2, 1, 3] := by
  refine ⟨?_, by decide⟩
  rw [slist_refines_iff (by decide) (by decide)]
  decide

/-- One item, and then `back`, which does not return however long its loop goes on. -/
theorem not_slist_refines :
    contents [Call.pushBack 1, .back] = [1] ∧
      ∀ fuel, 2 ≤ fuel →
        (State.after fuel [.pushBack 1]).back fuel = none ∧
          ¬Refines fuel [Call.pushBack 1, .back] := by
  refine ⟨rfl, fun fuel hfuel => ?_⟩
  have hfirst : Good fuel [Call.pushBack 1] :=
    (good_nil fuel).call (c := .pushBack 1) (by decide) (by simp; omega) (by decide)
  have hback : (State.after fuel [.pushBack 1]).back fuel = none :=
    back_eq_none hfirst.listed (by decide)
  refine ⟨hback, fun h => ?_⟩
  have hanswer := h.back [.pushBack 1] .back [] rfl rfl
  rw [hback] at hanswer
  cases hanswer

end Runs

end SList
end Ptl

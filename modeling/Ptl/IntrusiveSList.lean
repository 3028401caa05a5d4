import Ptl.LinkedChain
import Ptl.TransitionSystem

/-!
# `IntrusiveSList`

A list that owns its items: `head_` and the `next_` of every item are of type
`intrusive_ptr`.  This module embeds the three insertions, `front` and `back` on items
that count their references; a release that leaves no reference deletes the item, and with
it the `next_` inside.  The arguments `(entry, true)` are read as those of the constructor
that adds a reference.

An access through a null pointer or to a deleted item sets `fault`, and so does a loop that
goes on for more than a given number of tests.

`push_back` starts at `&head_->next_` and so needs a list that is not empty.  The local
names of `back` are references to `head_` and to the `next_` of the first item; assigning
to them assigns to the list.

**Results.**
* `insertions_refine_iff`: the insertions build the sequence, with one reference to each
  item, exactly if the first call is not `push_back`.
* `back_pure_iff`: `back` leaves the list as it was exactly if it has one item, or none and
  the offset of the binding is zero.
-/

namespace Ptl
namespace IntrusiveSList

open LinkedChain Transition

universe u

/-- `head_` and the `next_` of the items, and the items with their reference counts. -/
structure State (ι : Type u) where
  cells : Cells ι
  refs : ι → Nat
  alive : ι → Bool
  fault : Bool

namespace State

variable {ι : Type u}

/-- The slot is a member of the list, or of an item that exists. -/
def valid (s : State ι) : Slot ι → Bool
  | .head => true
  | .next x => s.alive x

def fail (s : State ι) : State ι :=
  { s with fault := true }

variable [DecidableEq ι]

/-- `intrusive_ptr_add_ref` of an item. -/
def addRef (s : State ι) (p : ι) : State ι :=
  if s.alive p then { s with refs := Function.update s.refs p (s.refs p + 1) } else s.fail

/-- `intrusive_ptr_release`; deleting an item releases what its `next_` points to. -/
def release : Nat → State ι → ι → State ι
  | 0, s, _ => s.fail
  | fuel + 1, s, p =>
      if s.alive p then
        if s.refs p = 1 then
          let deleted : State ι :=
            { s with
              cells := Function.update s.cells (.next p) none
              refs := Function.update s.refs p 0
              alive := Function.update s.alive p false }
          match s.cells (.next p) with
          | none => deleted
          | some q => release fuel deleted q
        else { s with refs := Function.update s.refs p (s.refs p - 1) }
      else s.fail

/-- The destructor of an `intrusive_ptr` that holds `q`. -/
def drop (fuel : Nat) (s : State ι) (q : Option ι) : State ι :=
  match q with
  | none => s
  | some p => s.release fuel p

/-- The move assignment of a temporary that holds `q`. -/
def assign (fuel : Nat) (s : State ι) (a : Slot ι) (q : Option ι) : State ι :=
  if s.valid a then
    { s with cells := Function.update s.cells a q }.drop fuel (s.cells a)
  else s.fail

/-- The copy assignment `a = b`: a copy is made and swapped with `a`. -/
def copyAssign (fuel : Nat) (s : State ι) (a b : Slot ι) : State ι :=
  if s.valid b then
    match s.cells b with
    | none => s.assign fuel a none
    | some q => (s.addRef q).assign fuel a (some q)
  else s.fail

/-- The argument is a copy of a pointer of the caller. -/
def pushBack (fuel : Nat) (s : State ι) (item : ι) : State ι :=
  let s := (s.addRef item).addRef item
  let s :=
    match s.cells .head with
    | none => s.fail
    | some first =>
        match seek s.cells fuel (.next first) with
        | none => s.fail
        | some curr => s.assign fuel curr (some item)
  s.release fuel item

/-- `item` is the address of the new object; its constructor counts one reference. -/
def emplaceBack (fuel : Nat) (s : State ι) (item : ι) : State ι :=
  let s : State ι :=
    { s with
      cells := Function.update s.cells (.next item) none
      refs := Function.update s.refs item 1
      alive := Function.update s.alive item true }
  match seek s.cells fuel .head with
  | none => s.fail
  | some curr => s.assign fuel curr (some item)

/-- Both calls of `std::exchange` move the old pointer out before they assign. -/
def pushFront (fuel : Nat) (s : State ι) (item : ι) : State ι :=
  let s := (s.addRef item).addRef item
  let old := s.cells .head
  let s := { s with cells := Function.update s.cells .head none }
  let s := (s.addRef item).assign fuel .head (some item)
  let former := s.cells (.next item)
  let s := { s with cells := Function.update s.cells (.next item) none }
  let s := (s.assign fuel (.next item) old).drop fuel former
  (s.release fuel item).release fuel item

/-- The result holds a reference. -/
def front (s : State ι) : State ι × Option ι :=
  match s.cells .head with
  | none => (s, none)
  | some x => (s.addRef x, some x)

/-- The loop of `back`, in which `last` is `head_` and `curr` is the slot `curr`. -/
def backLoop : Nat → State ι → Slot ι → State ι
  | 0, s, _ => s.fail
  | fuel + 1, s, curr =>
      if s.valid curr then
        match s.cells curr with
        | none => s
        | some _ =>
            let s := s.copyAssign (fuel + 1) .head curr
            -- `curr` may have gone with the item that was released
            if s.valid curr then
              match s.cells curr with
              | none => s.fail
              | some x => backLoop fuel (s.copyAssign (fuel + 1) curr (.next x)) curr
            else s.fail
      else s.fail

/-- `from_entry` of a null pointer is a null pointer only if the offset is zero. -/
def back (offset fuel : Nat) (s : State ι) : State ι × Option ι :=
  let s :=
    match s.cells .head with
    | none => s
    | some first => backLoop fuel s (.next first)
  match s.cells .head with
  | none => (if offset = 0 then s else s.fail, none)
  | some x => (s.addRef x, some x)

end State

/-- The insertions. -/
inductive Call (ι : Type u) where
  | pushBack (item : ι)
  | emplaceBack (item : ι)
  | pushFront (item : ι)
deriving DecidableEq

namespace Call

variable {ι : Type u}

def push : Call ι → Push ι
  | pushBack item => .back item
  | emplaceBack item => .back item
  | pushFront item => .front item

def item (c : Call ι) : ι :=
  c.push.node

/-- An item that is passed exists, and an object that is constructed does not exist yet. -/
def Valid (s₀ : State ι) : Call ι → Prop
  | pushBack item => s₀.alive item = true
  | emplaceBack item => s₀.alive item = false
  | pushFront item => s₀.alive item = true

instance decidableValid (s₀ : State ι) (c : Call ι) : Decidable (c.Valid s₀) :=
  match c with
  | pushBack item => inferInstanceAs (Decidable (s₀.alive item = true))
  | emplaceBack item => inferInstanceAs (Decidable (s₀.alive item = false))
  | pushFront item => inferInstanceAs (Decidable (s₀.alive item = true))

variable [DecidableEq ι]

/-- The references that are not the list's: none to an object it has constructed. -/
def external (refs : ι → Nat) : Call ι → ι → Nat
  | pushBack _ => refs
  | emplaceBack item => Function.update refs item 0
  | pushFront _ => refs

def apply (fuel : Nat) (s : State ι) : Call ι → State ι
  | pushBack item => s.pushBack fuel item
  | emplaceBack item => s.emplaceBack fuel item
  | pushFront item => s.pushFront fuel item

/-- After a fault nothing is known about the program. -/
def next (fuel : Nat) (s : State ι) (c : Call ι) : State ι :=
  if s.fault = true then s else c.apply fuel s

end Call

section Pointers

variable {ι : Type u} [DecidableEq ι]
variable {s : State ι} {p : ι} {a : Slot ι} {q : Option ι} {fuel : Nat}

@[simp]
theorem addRef_cells (s : State ι) (p : ι) :
    (s.addRef p).cells = s.cells := by
  rw [State.addRef]
  split <;> rfl

theorem addRef_of_alive
    (h : s.alive p = true) :
    s.addRef p = { s with refs := Function.update s.refs p (s.refs p + 1) } :=
  if_pos h

/-- The argument and the entry of an insertion. -/
theorem addRef_addRef
    (h : s.alive p = true) :
    (s.addRef p).addRef p = { s with refs := Function.update s.refs p (s.refs p + 2) } := by
  rw [addRef_of_alive h, addRef_of_alive (by exact h)]
  simp

/-- A release that is not the last one. -/
theorem release_of_shared
    (halive : s.alive p = true)
    (hrefs : 1 < s.refs p)
    (hfuel : 0 < fuel) :
    s.release fuel p = { s with refs := Function.update s.refs p (s.refs p - 1) } := by
  obtain ⟨n, rfl⟩ := Nat.exists_eq_succ_of_ne_zero (Nat.ne_of_gt hfuel)
  rw [State.release, if_pos halive, if_neg (Nat.ne_of_gt hrefs)]

/-- Two releases with at least one reference left. -/
theorem release_release
    (halive : s.alive p = true)
    (hrefs : 2 < s.refs p)
    (hfuel : 0 < fuel) :
    (s.release fuel p).release fuel p =
      { s with refs := Function.update s.refs p (s.refs p - 2) } := by
  have hshared : 1 < s.refs p := Nat.lt_of_succ_lt hrefs
  rw [release_of_shared halive hshared hfuel,
    release_of_shared (by exact halive) (by simp; omega) hfuel]
  simp [Nat.sub_sub]

/-- An assignment to a pointer that is null releases nothing. -/
theorem assign_of_empty
    (hvalid : s.valid a = true)
    (hempty : s.cells a = none) :
    s.assign fuel a q = { s with cells := Function.update s.cells a q } := by
  rw [State.assign, if_pos hvalid, hempty]
  rfl

/-- Nothing repairs a fault. -/
theorem release_fault
    (h : s.fault = true) :
    (s.release fuel p).fault = true := by
  induction fuel generalizing s p with
  | zero =>
      rfl
  | succ fuel ih =>
      rw [State.release]
      split
      · split
        · split
          · exact h
          · exact ih h
        · exact h
      · rfl

end Pointers

section Insertions

variable {ι : Type u} [DecidableEq ι]
variable {s : State ι} {xs : List ι} {alive₀ : ι → Bool} {external : ι → Nat}
variable {item : ι} {fuel : Nat}

/-- The list holds one reference to each of its items, and no other item is linked. -/
structure Owns
    (s : State ι) (xs : List ι) (alive₀ : ι → Bool) (external : ι → Nat) : Prop
    extends Linked s.cells xs where
  sound : s.fault = false
  alive : ∀ item, s.alive item = true ↔ alive₀ item = true ∨ item ∈ xs
  counts : ∀ item, s.refs item = external item + if item ∈ xs then 1 else 0

omit [DecidableEq ι] in
theorem valid_of_mem
    {a : Slot ι}
    (halive : ∀ x ∈ xs, s.alive x = true)
    (ha : a ∈ slots .head xs) :
    s.valid a = true := by
  cases a with
  | head =>
      rfl
  | next x =>
      exact halive x (by simpa [slots] using ha)

/-- What is to show of an insertion: the new chain, and who exists. -/
theorem Owns.insert
    (hs : Owns s xs alive₀ external)
    {ys : List ι} {cells : Cells ι} {alive : ι → Bool} {external' : ι → Nat}
    (hitem : item ∉ xs)
    (hperm : ys.Perm (item :: xs))
    (hlinked : Linked cells ys)
    (halive : ∀ x, alive x = true ↔ alive₀ x = true ∨ x ∈ ys)
    (hexternal : ∀ x, x ≠ item → external' x = external x) :
    Owns
      { s with
        cells := cells
        refs := Function.update s.refs item (external' item + 1)
        alive := alive }
      ys alive₀ external' where
  toLinked := hlinked
  sound := hs.sound
  alive := halive
  counts := by
    intro x
    rcases eq_or_ne x item with rfl | hne
    · have hmem : x ∈ ys := hperm.mem_iff.mpr List.mem_cons_self
      simp [hmem]
    · have hmem : x ∈ ys ↔ x ∈ xs := by simp [hperm.mem_iff, hne]
      simp [hne, hs.counts x, hexternal x hne, hmem]

/-- An item that existed before is one of the list's from now on. -/
theorem Owns.alive_of_perm
    (hs : Owns s xs alive₀ external)
    {ys : List ι}
    (hperm : ys.Perm (item :: xs))
    (halive : alive₀ item = true)
    (x : ι) :
    s.alive x = true ↔ alive₀ x = true ∨ x ∈ ys := by
  rw [hs.alive x, hperm.mem_iff, List.mem_cons, or_left_comm]
  refine (or_iff_right_of_imp ?_).symm
  rintro rfl
  exact .inl halive

/-- With an item in front, `push_back` walks to the end. -/
theorem Owns.pushBack
    (hs : Owns s xs alive₀ external)
    (hne : xs ≠ [])
    (hitem : item ∉ xs)
    (halive : alive₀ item = true)
    (hfuel : xs.length < fuel) :
    Owns (s.pushBack fuel item) (xs ++ [item]) alive₀ external := by
  obtain ⟨first, rest, rfl⟩ := List.exists_cons_of_ne_nil hne
  have hlive : s.alive item = true := (hs.alive item).mpr (.inl halive)
  have hcount : s.refs item = external item := by simp [hs.counts item, hitem]
  have hseek : seek s.cells fuel (.next first) = some (lastSlot .head (first :: rest)) :=
    hs.chain.2.seek (Nat.lt_trans (Nat.lt_succ_self rest.length) hfuel)
  have hempty := hs.chain.lastSlot_empty
  have hvalid : s.valid (lastSlot .head (first :: rest)) = true :=
    valid_of_mem (fun x hx => (hs.alive x).mpr (.inr hx)) (lastSlot_mem ..)
  have hstep : s.pushBack fuel item =
      { s with
        cells := Function.update s.cells (lastSlot .head (first :: rest)) (some item)
        refs := Function.update s.refs item (external item + 1) } := by
    have hpos : 0 < fuel := Nat.zero_lt_of_lt hfuel
    simp only [State.pushBack, addRef_addRef hlive, hs.chain.1, hseek]
    rw [assign_of_empty (by exact hvalid) (by exact hempty),
      release_of_shared (by exact hlive) (by simp) hpos]
    simp [hcount]
  have hperm : (first :: rest ++ [item]).Perm (item :: first :: rest) :=
    List.perm_append_singleton ..
  rw [hstep]
  exact hs.insert hitem hperm (hs.toLinked.concat hitem) (hs.alive_of_perm hperm halive)
    fun _ _ => rfl

/-- The reference of the constructor becomes the list's. -/
theorem Owns.emplaceBack
    (hs : Owns s xs alive₀ external)
    (hitem : item ∉ xs)
    (hfuel : xs.length < fuel) :
    Owns (s.emplaceBack fuel item) (xs ++ [item]) alive₀ (Function.update external item 0) := by
  have hcells : Function.update s.cells (.next item) none = s.cells :=
    Function.update_eq_self_iff.mpr (hs.fresh item hitem).symm
  have hvalid (alive : ι → Bool) (h : ∀ x ∈ xs, alive x = true) :
      State.valid { s with refs := Function.update s.refs item 1, alive := alive }
        (lastSlot .head xs) = true :=
    valid_of_mem h (lastSlot_mem ..)
  have hlive : ∀ x ∈ xs, Function.update s.alive item true x = true := by
    intro x hx
    have hne : x ≠ item := fun heq => hitem (heq ▸ hx)
    rw [Function.update_of_ne hne]
    exact (hs.alive x).mpr (.inr hx)
  have hstep : s.emplaceBack fuel item =
      { s with
        cells := Function.update s.cells (lastSlot .head xs) (some item)
        refs := Function.update s.refs item (Function.update external item 0 item + 1)
        alive := Function.update s.alive item true } := by
    simp only [State.emplaceBack, hcells, hs.chain.seek hfuel]
    rw [assign_of_empty (hvalid _ hlive) hs.chain.lastSlot_empty]
    simp
  rw [hstep]
  refine hs.insert hitem (List.perm_append_singleton ..) (hs.toLinked.concat hitem) ?_
    fun x hx => Function.update_of_ne hx ..
  intro x
  rcases eq_or_ne x item with rfl | hne
  · simp
  · simp [hne, hs.alive x]

/-- The old first item is handed over, and the list takes one reference of two. -/
theorem Owns.pushFront
    (hs : Owns s xs alive₀ external)
    (hitem : item ∉ xs)
    (halive : alive₀ item = true)
    (hfuel : 0 < fuel) :
    Owns (s.pushFront fuel item) (item :: xs) alive₀ external := by
  have hlive : s.alive item = true := (hs.alive item).mpr (.inl halive)
  have hcount : s.refs item = external item := by simp [hs.counts item, hitem]
  have hstep : s.pushFront fuel item =
      { s with
        cells := Function.update (Function.update s.cells (.next item) (s.cells .head)) .head
          (some item)
        refs := Function.update s.refs item (external item + 1) } := by
    have hempty : s.cells (.next item) = none := hs.fresh item hitem
    simp only [State.pushFront, addRef_addRef hlive]
    have hhead :
        ({ s with
            cells := Function.update s.cells .head none
            refs := Function.update s.refs item (s.refs item + 2) }.addRef item).assign fuel
              .head (some item) =
          { s with
            cells := Function.update s.cells .head (some item)
            refs := Function.update s.refs item (s.refs item + 3) } := by
      rw [addRef_of_alive (by exact hlive), assign_of_empty (by rfl) (by simp)]
      simp
    have hnext :
        State.assign fuel
            { s with
              cells := Function.update s.cells .head (some item)
              refs := Function.update s.refs item (s.refs item + 3) }
            (.next item) (s.cells .head) =
          { s with
            cells := Function.update (Function.update s.cells .head (some item)) (.next item)
              (s.cells .head)
            refs := Function.update s.refs item (s.refs item + 3) } :=
      assign_of_empty hlive (by simp [hempty])
    have hsame :
        Function.update (Function.update s.cells .head (some item)) (.next item) none =
          Function.update s.cells .head (some item) :=
      Function.update_eq_self_iff.mpr (by simp [hempty])
    have hformer : Function.update s.cells .head (some item) (.next item) = none := by
      simp [hempty]
    rw [hhead]
    simp only [hsame, hformer]
    rw [hnext, State.drop, release_release (by exact hlive) (by simp) hfuel]
    simp [hcount, Function.update_comm]
  have hperm : (item :: xs).Perm (item :: xs) := List.Perm.refl _
  rw [hstep]
  exact hs.insert hitem hperm (hs.toLinked.cons hitem) (hs.alive_of_perm hperm halive)
    fun _ _ => rfl

/-- On an empty list `push_back` accesses `next_` through the null pointer `head_`. -/
theorem pushBack_fault
    (hhead : s.cells .head = none) :
    (s.pushBack fuel item).fault = true := by
  simp only [State.pushBack, addRef_cells, hhead]
  exact release_fault rfl

/-- The first item is read, and the result counts as a reference. -/
theorem Owns.front
    (hs : Owns s xs alive₀ external) :
    s.front.2 = xs.head? ∧ s.front.1.fault = false := by
  have hhead := hs.chain.head_eq
  cases xs with
  | nil =>
      rw [State.front, hhead]
      exact ⟨rfl, hs.sound⟩
  | cons x xs =>
      have hlive : s.alive x = true := (hs.alive x).mpr (.inr List.mem_cons_self)
      rw [State.front, hhead, List.head?_cons]
      simpa [addRef_of_alive hlive] using hs.sound

end Insertions

section Runs

variable {ι : Type u}

/-- The list is empty, and no item is linked. -/
structure Unlinked (s₀ : State ι) : Prop where
  sound : s₀.fault = false
  empty : ∀ a, s₀.cells a = none

/-- The sequence that the calls stand for. -/
def contents (tr : List (Call ι)) : List ι :=
  sequence (tr.map Call.push)

variable [DecidableEq ι]

/-- The state after a sequence of calls. -/
def after (fuel : Nat) (s₀ : State ι) (tr : List (Call ι)) : State ι :=
  tr.foldl (Call.next fuel) s₀

/-- The references that are not the list's, after a sequence of calls. -/
def external (s₀ : State ι) (tr : List (Call ι)) : ι → Nat :=
  tr.foldl Call.external s₀.refs

/--
No access was wrong, the traversal goes through the sequence, `front` is its first item, and
the list holds one reference to each of its items and none to any other.
-/
structure Refines (fuel : Nat) (s₀ : State ι) (tr : List (Call ι)) : Prop where
  sound : (after fuel s₀ tr).fault = false
  traversal : Chain (after fuel s₀ tr).cells .head (contents tr)
  front : (after fuel s₀ tr).front.2 = (contents tr).head? ∧
    (after fuel s₀ tr).front.1.fault = false
  references : ∀ item,
    (after fuel s₀ tr).refs item = external s₀ tr item + if item ∈ contents tr then 1 else 0
  alive : ∀ item ∈ contents tr, (after fuel s₀ tr).alive item = true

variable {s s₀ : State ι} {tr : List (Call ι)} {c : Call ι} {fuel : Nat}

omit [DecidableEq ι] in
theorem contents_append_singleton (tr : List (Call ι)) (c : Call ι) :
    contents (tr ++ [c]) = c.push.apply (contents tr) := by
  rw [contents, List.map_append, List.map_singleton, sequence_append_singleton]
  rfl

omit [DecidableEq ι] in
theorem length_contents (tr : List (Call ι)) :
    (contents tr).length = tr.length := by
  rw [contents, (sequence_perm _).length_eq, List.length_map, List.length_map]

omit [DecidableEq ι] in
theorem mem_contents_iff {item : ι} :
    item ∈ contents tr ↔ item ∈ tr.map Call.item := by
  rw [contents, (sequence_perm _).mem_iff, List.map_map]
  rfl

theorem owns_nil
    (hstart : Unlinked s₀) :
    Owns s₀ [] s₀.alive s₀.refs where
  sound := hstart.sound
  chain := hstart.empty .head
  fresh := fun item _ => hstart.empty (.next item)
  alive := by simp
  counts := by simp

/-- Every insertion but a first `push_back` keeps the list. -/
theorem Owns.next
    {xs : List ι} {alive₀ : ι → Bool} {external : ι → Nat}
    (hs : Owns s xs alive₀ external)
    (hitem : c.item ∉ xs)
    (halive : ∀ item, c = .pushBack item ∨ c = .pushFront item → alive₀ item = true)
    (hempty : ∀ item, c = .pushBack item → xs ≠ [])
    (hfuel : xs.length < fuel) :
    Owns (c.next fuel s) (c.push.apply xs) alive₀ (c.external external) := by
  rw [Call.next, if_neg (by simp [hs.sound])]
  cases c with
  | pushBack item =>
      exact hs.pushBack (hempty item rfl) hitem (halive item (.inl rfl)) hfuel
  | emplaceBack item =>
      exact hs.emplaceBack hitem hfuel
  | pushFront item =>
      exact hs.pushFront hitem (halive item (.inr rfl)) (Nat.zero_lt_of_lt hfuel)

theorem owns_after
    (hstart : Unlinked s₀)
    (hdistinct : (tr.map Call.item).Nodup)
    (hvalid : ∀ c ∈ tr, c.Valid s₀)
    (hfuel : tr.length ≤ fuel)
    (hfirst : ∀ item, tr.head? ≠ some (.pushBack item)) :
    Owns (after fuel s₀ tr) (contents tr) s₀.alive (external s₀ tr) := by
  induction tr using List.reverseRecOn with
  | nil =>
      exact owns_nil hstart
  | append_singleton tr c ih =>
      rw [List.length_append, List.length_singleton] at hfuel
      rw [List.map_append, List.map_singleton] at hdistinct
      obtain ⟨hdistinct, -, hnew⟩ := List.nodup_append.mp hdistinct
      have hpast : Owns (after fuel s₀ tr) (contents tr) s₀.alive (external s₀ tr) := by
        refine ih hdistinct (fun c hc => hvalid c (List.mem_append_left _ hc)) (by omega) ?_
        intro item hhead
        exact hfirst item (by simp [hhead])
      have hitem : c.item ∉ contents tr := by
        rw [mem_contents_iff]
        exact fun hmem => hnew _ hmem _ (List.mem_singleton_self _) rfl
      have hc : c.Valid s₀ := hvalid c (by simp)
      rw [contents_append_singleton, after, external, List.foldl_append, List.foldl_append]
      refine hpast.next hitem ?_ ?_ (by rw [length_contents]; omega)
      · rintro item (rfl | rfl)
        · exact hc
        · exact hc
      · rintro item rfl hnil
        rw [← List.length_eq_zero_iff, length_contents, List.length_eq_zero_iff] at hnil
        exact hfirst item (by simp [hnil])

theorem foldl_next_fault
    (h : s.fault = true) :
    (tr.foldl (Call.next fuel) s).fault = true := by
  induction tr with
  | nil =>
      exact h
  | cons c tr ih =>
      rw [List.foldl_cons, Call.next, if_pos h]
      exact ih

/--
For distinct items and loops that may go on for more tests than there are calls: the list
is the sequence of its items, with one reference to each, exactly if the first call is not
`push_back`.
-/
theorem insertions_refine_iff
    (hstart : Unlinked s₀)
    (hdistinct : (tr.map Call.item).Nodup)
    (hvalid : ∀ c ∈ tr, c.Valid s₀)
    (hfuel : tr.length ≤ fuel) :
    Refines fuel s₀ tr ↔ ∀ item, tr.head? ≠ some (.pushBack item) := by
  constructor
  · rintro h item hhead
    obtain ⟨rest, rfl⟩ := List.head?_eq_some_iff.mp hhead
    have hnext : (Call.pushBack item).next fuel s₀ = s₀.pushBack fuel item :=
      if_neg (by simp [hstart.sound])
    have hfault : (after fuel s₀ (.pushBack item :: rest)).fault = true := by
      rw [after, List.foldl_cons, hnext]
      exact foldl_next_fault (pushBack_fault (hstart.empty .head))
    rw [h.sound] at hfault
    cases hfault
  · intro hfirst
    have hs := owns_after hstart hdistinct hvalid hfuel hfirst
    exact
      { sound := hs.sound
        traversal := hs.chain
        front := hs.front
        references := hs.counts
        alive := fun item hitem => (hs.alive item).mpr (.inr hitem) }

/-- Three items that the caller holds; the others do not exist. -/
def threeItems : State Nat where
  cells := fun _ => none
  refs := fun x => if x < 3 then 1 else 0
  alive := fun x => decide (x < 3)
  fault := false

theorem unlinked_threeItems : Unlinked threeItems where
  sound := rfl
  empty := fun _ => rfl

/-- All three insertions. -/
def fourInsertions : List (Call Nat) :=
  [.pushFront 1, .emplaceBack 3, .pushBack 2, .pushFront 0]

theorem insertions_refine_fourInsertions :
    Refines 4 threeItems fourInsertions ∧ contents fourInsertions = [0, 1, 3, 2] := by
  refine ⟨?_, by decide⟩
  rw [insertions_refine_iff unlinked_threeItems (by decide) (by decide) (by decide)]
  simp [fourInsertions]

/-- The first item of a list, appended, however long the loops may go on. -/
theorem not_insertions_refine :
    contents [Call.pushBack 1] = [1] ∧
      ∀ fuel, (after fuel threeItems [.pushBack 1]).fault = true ∧
        ¬Refines fuel threeItems [.pushBack 1] := by
  refine ⟨rfl, fun fuel => ?_⟩
  have hfault : (after fuel threeItems [.pushBack 1]).fault = true := by
    change (threeItems.pushBack fuel 1).fault = true
    exact pushBack_fault rfl
  refine ⟨hfault, fun h => ?_⟩
  rw [h.sound] at hfault
  cases hfault

end Runs

section Back

variable {ι : Type u} [DecidableEq ι]
variable {s : State ι} {xs ys : List ι} {ts : List (Slot ι)} {a b curr : Slot ι} {p : ι}
variable {q : Option ι} {offset fuel : Nat}

/-- A list whose items exist. -/
structure Listed (s : State ι) (xs : List ι) : Prop where
  sound : s.fault = false
  chain : Chain s.cells .head xs
  alive : ∀ x ∈ xs, s.alive x = true

/-- The result is the last item, and all that has changed is its count. -/
structure Pure (offset fuel : Nat) (s : State ι) (xs : List ι) : Prop where
  result : (s.back offset fuel).2 = xs.getLast?
  sound : (s.back offset fuel).1.fault = false
  cells : (s.back offset fuel).1.cells = s.cells
  alive : (s.back offset fuel).1.alive = s.alive
  references : ∀ item,
    (s.back offset fuel).1.refs item =
      s.refs item + if xs.getLast? = some item then 1 else 0

theorem addRef_fault
    (h : s.fault = true) :
    (s.addRef p).fault = true := by
  rw [State.addRef]
  split
  · exact h
  · rfl

theorem drop_fault
    (h : s.fault = true) :
    (s.drop fuel q).fault = true := by
  cases q with
  | none =>
      exact h
  | some p =>
      exact release_fault h

theorem assign_fault
    (h : s.fault = true) :
    (s.assign fuel a q).fault = true := by
  rw [State.assign]
  split
  · exact drop_fault h
  · rfl

theorem copyAssign_fault
    (h : s.fault = true) :
    (s.copyAssign fuel a b).fault = true := by
  rw [State.copyAssign]
  split
  · split
    · exact assign_fault h
    · exact assign_fault (addRef_fault h)
  · rfl

theorem backLoop_fault
    (h : s.fault = true) :
    (s.backLoop fuel curr).fault = true := by
  induction fuel generalizing s with
  | zero =>
      rfl
  | succ fuel ih =>
      rw [State.backLoop]
      split
      · split
        · exact h
        · have hlast : (s.copyAssign (fuel + 1) .head curr).fault = true := copyAssign_fault h
          simp only
          split
          · split
            · rfl
            · exact ih (copyAssign_fault hlast)
          · rfl
      · rfl

/-- A release puts nothing into a slot. -/
theorem release_cells
    {t : Slot ι} {y : ι}
    (h : (s.release fuel p).cells t = some y) :
    s.cells t = some y := by
  induction fuel generalizing s p with
  | zero =>
      exact h
  | succ fuel ih =>
      have hdelete :
          Function.update s.cells (.next p) none t = some y → s.cells t = some y := by
        rw [Function.update_apply]
        split
        · exact fun h => by cases h
        · exact id
      rw [State.release] at h
      split at h
      · split at h
        · split at h
          · exact hdelete h
          · exact hdelete (ih h)
        · exact h
      · exact h

theorem drop_cells
    {t : Slot ι} {y : ι}
    (h : (s.drop fuel q).cells t = some y) :
    s.cells t = some y := by
  cases q with
  | none =>
      exact h
  | some p =>
      exact release_cells h

/-- The slots point to these items only, unless an access was wrong. -/
def Within (ts : List (Slot ι)) (ys : List ι) (s : State ι) : Prop :=
  s.fault = true ∨ ∀ t ∈ ts, ∀ y, s.cells t = some y → y ∈ ys

theorem assign_within
    (hothers : ∀ t ∈ ts, t ≠ a → ∀ y, s.cells t = some y → y ∈ ys)
    (hq : ∀ y, q = some y → y ∈ ys) :
    Within ts ys (s.assign fuel a q) := by
  rw [State.assign]
  split
  · refine .inr fun t ht y hy => ?_
    have hcell : Function.update s.cells a q t = some y := drop_cells hy
    rw [Function.update_apply] at hcell
    split at hcell
    · exact hq y hcell
    · next hne => exact hothers t ht hne y hcell
  · exact .inl rfl

theorem copyAssign_within
    (hothers : ∀ t ∈ ts, t ≠ a → ∀ y, s.cells t = some y → y ∈ ys)
    (hb : ∀ y, s.cells b = some y → y ∈ ys) :
    Within ts ys (s.copyAssign fuel a b) := by
  rw [State.copyAssign]
  split
  · split
    · exact assign_within hothers fun y hy => by cases hy
    · next q hcell =>
        refine assign_within (by simpa using hothers) ?_
        rintro y ⟨⟩
        exact hb q hcell
  · exact .inl rfl

/--
One round assigns to `head_` and to `curr`.  What `head_` pointed to before does not matter.
-/
theorem backLoop_succ_within
    (hnext : ∀ y ∈ ys, .next y ∈ ts)
    (hcurr : curr ∈ ts)
    (hhead : curr ≠ .head)
    (hothers : ∀ t ∈ ts, t ≠ .head → ∀ y, s.cells t = some y → y ∈ ys)
    (hsome : s.cells curr ≠ none)
    (hrest : ∀ s', Within ts ys s' → Within ts ys (s'.backLoop fuel curr)) :
    Within ts ys (s.backLoop (fuel + 1) curr) := by
  have hlast : Within ts ys (s.copyAssign (fuel + 1) .head curr) :=
    copyAssign_within hothers (hothers curr hcurr hhead)
  rw [State.backLoop]
  split
  · split
    · next hnone => exact absurd hnone hsome
    · generalize s.copyAssign (fuel + 1) .head curr = s₁ at hlast
      simp only
      split
      · split
        · exact .inl rfl
        · next x hx =>
            refine hrest _ ?_
            rcases hlast with hfault | hcells
            · exact .inl (copyAssign_fault hfault)
            · have hslot : Slot.next x ∈ ts := hnext x (hcells curr hcurr x hx)
              exact copyAssign_within (fun t ht _ => hcells t ht) (hcells _ hslot)
      · exact .inl rfl
  · exact .inl rfl

theorem backLoop_within
    (hnext : ∀ y ∈ ys, .next y ∈ ts)
    (hcurr : curr ∈ ts)
    (hhead : curr ≠ .head)
    (h : Within ts ys s) :
    Within ts ys (s.backLoop fuel curr) := by
  induction fuel generalizing s with
  | zero =>
      exact .inl rfl
  | succ fuel ih =>
      rcases h with hfault | hcells
      · exact .inl (backLoop_fault hfault)
      · by_cases hnone : s.cells curr = none
        · rw [State.backLoop, hnone]
          split
          · exact .inr hcells
          · exact .inl rfl
        · exact backLoop_succ_within hnext hcurr hhead (fun t ht _ => hcells t ht) hnone
            fun s' => ih

omit [DecidableEq ι] in
/-- The slots of a chain point to its items. -/
theorem mem_of_slot
    {cells : Cells ι} {a t : Slot ι} {y : ι}
    (h : Chain cells a ys)
    (ht : t ∈ slots a ys)
    (hy : cells t = some y) :
    y ∈ ys := by
  induction ys generalizing a with
  | nil =>
      obtain rfl : t = a := by simpa [slots] using ht
      have hempty : cells t = none := h
      rw [hy] at hempty
      cases hempty
  | cons x ys ih =>
      rcases List.mem_cons.mp ht with rfl | ht
      · obtain rfl : y = x := Option.some.inj (hy.symm.trans h.1)
        exact List.mem_cons_self
      · exact List.mem_cons_of_mem x (ih h.2 ht)

/-- With a second item, the loop takes the first one out of the list. -/
theorem Listed.backLoop_within
    {first second : ι} {rest : List ι}
    (hs : Listed s (first :: second :: rest)) :
    Within (slots .head (first :: second :: rest)) (second :: rest)
      (s.backLoop fuel (.next first)) := by
  cases fuel with
  | zero =>
      exact .inl rfl
  | succ fuel =>
      have hnext : ∀ y ∈ second :: rest, Slot.next y ∈ slots .head (first :: second :: rest) := by
        intro y hy
        simpa [slots] using Or.inr (List.mem_cons.mp hy)
      have hcurr : Slot.next first ∈ slots .head (first :: second :: rest) := by simp [slots]
      refine backLoop_succ_within hnext hcurr (by simp) ?_ (by simp [hs.chain.2.1])
        fun s' => IntrusiveSList.backLoop_within hnext hcurr (by simp)
      intro t ht hne y hy
      exact mem_of_slot hs.chain.2 ((List.mem_cons.mp ht).resolve_left hne) hy

/-- The loop ends at once if the list has no second item. -/
theorem Listed.back_singleton
    {x : ι}
    (hs : Listed s [x])
    (hfuel : 0 < fuel) :
    s.back offset fuel =
      ({ s with refs := Function.update s.refs x (s.refs x + 1) }, some x) := by
  obtain ⟨n, rfl⟩ := Nat.exists_eq_succ_of_ne_zero (Nat.ne_of_gt hfuel)
  have hlive : s.alive x = true := hs.alive x (List.mem_singleton_self x)
  have hhead : s.cells .head = some x := hs.chain.1
  have hend : s.cells (.next x) = none := hs.chain.2
  have hloop : s.backLoop (n + 1) (.next x) = s := by
    rw [State.backLoop, if_pos (by exact hlive), hend]
  simp only [State.back, hhead, hloop, addRef_of_alive hlive]

theorem Listed.back_nil
    (hs : Listed s []) :
    s.back offset fuel = (if offset = 0 then s else s.fail, none) := by
  have hhead : s.cells .head = none := hs.chain
  simp only [State.back, hhead]

/-- With a second item, `head_` has changed at the end. -/
theorem Listed.not_pure
    {first second : ι} {rest : List ι}
    (hs : Listed s (first :: second :: rest)) :
    ¬Pure offset fuel s (first :: second :: rest) := by
  intro h
  have hhead : s.cells .head = some first := hs.chain.1
  have hsound := h.sound
  have hsame := congrFun h.cells .head
  have hloop :
      Within (slots .head (first :: second :: rest)) (second :: rest)
        (s.backLoop fuel (.next first)) :=
    hs.backLoop_within
  simp only [State.back, hhead] at hsound hsame
  generalize s.backLoop fuel (.next first) = s' at hsound hsame hloop
  cases hcell : s'.cells .head with
  | none =>
      simp only [hcell] at hsame
      have hgone : s'.cells .head = some first := by
        split at hsame
        · exact hsame
        · exact hsame
      rw [hcell] at hgone
      cases hgone
  | some x =>
      simp only [hcell, addRef_cells] at hsound hsame
      rcases hloop with hfault | hcells
      · rw [addRef_fault hfault] at hsound
        cases hsound
      · have hmem := hcells .head (by simp [slots]) first (hcell.trans hsame)
        exact (List.nodup_cons.mp hs.chain.nodup).1 hmem

/--
For loops that may go on for at least one test: `back` leaves the list as it was exactly if
it has one item, or none and the offset of the binding is zero.
-/
theorem back_pure_iff
    (hs : Listed s xs)
    (hfuel : 0 < fuel) :
    Pure offset fuel s xs ↔ xs.length = 1 ∨ xs = [] ∧ offset = 0 := by
  match xs with
  | [] =>
      have hback : s.back offset fuel = (if offset = 0 then s else s.fail, none) := hs.back_nil
      by_cases hzero : offset = 0
      · rw [if_pos hzero] at hback
        refine iff_of_true ?_ (.inr ⟨rfl, hzero⟩)
        constructor <;> simp [hback, hs.sound]
      · rw [if_neg hzero] at hback
        refine iff_of_false (fun h => ?_) (by simp [hzero])
        have hsound := h.sound
        rw [hback] at hsound
        cases hsound
  | [x] =>
      have hback :
          s.back offset fuel =
            ({ s with refs := Function.update s.refs x (s.refs x + 1) }, some x) :=
        hs.back_singleton hfuel
      refine iff_of_true ?_ (.inl rfl)
      constructor
      · rw [hback]
        rfl
      · rw [hback]
        exact hs.sound
      · rw [hback]
      · rw [hback]
      · intro item
        rw [hback]
        rcases eq_or_ne item x with rfl | hne
        · simp
        · simp [hne, hne.symm]
  | first :: second :: rest =>
      exact iff_of_false hs.not_pure (by simp)

/-- One item that someone else holds too. -/
def oneItem : State Nat where
  cells := fun a => if a = .head then some 7 else none
  refs := fun _ => 2
  alive := fun _ => true
  fault := false

theorem back_pure_oneItem :
    Pure 8 1 oneItem [7] := by
  have hs : Listed oneItem [7] :=
    { sound := rfl
      chain := ⟨rfl, rfl⟩
      alive := fun _ _ => rfl }
  exact (back_pure_iff hs Nat.one_pos).mpr (.inl rfl)

/-- Two items, each with a reference besides the list's. -/
def twoItems : State Nat where
  cells := fun a => if a = .head then some 1 else if a = .next 1 then some 2 else none
  refs := fun _ => 2
  alive := fun _ => true
  fault := false

/-- `back` returns the second item, and makes it the first one of the list. -/
theorem not_back_pure :
    (twoItems.back 8 3).2 = some 2 ∧
      (twoItems.back 8 3).1.fault = false ∧
      (twoItems.back 8 3).1.cells .head = some 2 ∧
      (twoItems.back 8 3).1.refs 1 = 1 ∧
      ∀ fuel, ¬Pure 8 fuel twoItems [1, 2] := by
  have hs : Listed twoItems [1, 2] :=
    { sound := rfl
      chain := ⟨rfl, rfl, rfl⟩
      alive := fun _ _ => rfl }
  exact ⟨by decide, by decide, by decide, by decide, fun _ => hs.not_pure⟩

end Back

end IntrusiveSList
end Ptl

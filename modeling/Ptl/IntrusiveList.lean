import Ptl.LinkedRing
import Ptl.TransitionSystem

/-!
# The intrusive list of `containers/list.hpp`

This module embeds `ListEntry` and `List` over one binding.  A node is either
the entry inside an item or the `head_` of a list; `to_entry` and `from_entry`
add and subtract the offset of the binding, so they go back and forth between an
item and its node.

Each member of `ListEntry` is the sequence of its assignments.  Items are created
and deleted at any time, and any number of lists share the nodes.

**Result.**  `represents_of_run`: in every run the rings of the lists hold the
sequences that appending, prepending and deleting produce.
-/

namespace Ptl
namespace IntrusiveList

open Transition Links

universe u v

/-- Where a `ListEntry` is. -/
inductive Node (ι : Type u) (κ : Type v) where
  | entry (item : ι)
  | head (list : κ)
deriving DecidableEq

section ListEntry

variable {α : Type u} [DecidableEq α]

/-- `a->next_ = b`. -/
def setNext (L : Links α) (a b : α) : Links α :=
  { L with next := Function.update L.next a b }

/-- `a->prev_ = b`. -/
def setPrev (L : Links α) (a b : α) : Links α :=
  { L with prev := Function.update L.prev a b }

/-- The constructor of `ListEntry`. -/
def construct (L : Links α) (this : α) : Links α :=
  setPrev (setNext L this this) this this

def remove (L : Links α) (this : α) : Links α :=
  let prev := L.prev this
  let next := L.next this
  let L := setPrev L (L.next this) prev
  let L := setNext L (L.prev this) next
  let L := setPrev L this this
  setNext L this this

def inList (L : Links α) (this : α) : Bool :=
  L.next this ≠ this

def insertBefore (L : Links α) (this other : α) : Links α :=
  let L := setNext L this other
  let L := setPrev L this (L.prev other)
  let L := setPrev L (L.next this) this
  setNext L (L.prev this) this

def insertAfter (L : Links α) (this other : α) : Links α :=
  let L := setPrev L this other
  let L := setNext L this (L.next other)
  let L := setNext L (L.prev this) this
  setPrev L (L.next this) this

variable {L : Links α} {this other : α}

/-- The neighbours are linked to each other and the entry to itself. -/
theorem remove_eq :
    remove L this = (L.join (L.prev this) (L.next this)).join this this := by
  by_cases h : this = L.next this
  · simp [remove, setNext, setPrev, join, ← h]
  · simp [remove, setNext, setPrev, join, h]

theorem insertBefore_eq
    (hother : this ≠ other)
    (hprev : this ≠ L.prev other) :
    insertBefore L this other = (L.join (L.prev other) this).join this other := by
  simp [insertBefore, setNext, setPrev, join, hother,
    Function.update_comm hprev]

theorem insertAfter_eq
    (hother : this ≠ other) :
    insertAfter L this other = (L.join other this).join this (L.next other) := by
  simp [insertAfter, setNext, setPrev, join, Function.update_comm hother]

end ListEntry

/-- The nodes of all items and lists, and the items that exist. -/
structure Heap (ι : Type u) (κ : Type v) where
  links : Links (Node ι κ)
  live : ι → Bool

namespace Heap

variable {ι : Type u} {κ : Type v} [DecidableEq ι] [DecidableEq κ]

/-- `from_entry`; no item lies around the `head_` of a list. -/
def fromEntry : Node ι κ → Option ι
  | .entry item => some item
  | .head _ => none

def empty (h : Heap ι κ) (list : κ) : Bool :=
  !inList h.links (.head list)

/-- `none` is the null pointer. -/
def front (h : Heap ι κ) (list : κ) : Option ι :=
  if h.empty list then none
  else fromEntry (h.links.next (.head list))

def back (h : Heap ι κ) (list : κ) : Option ι :=
  if h.empty list then none
  else fromEntry (h.links.prev (.head list))

/-- A new item with an unlinked entry. -/
def create (h : Heap ι κ) (item : ι) : Heap ι κ where
  links := construct h.links (.entry item)
  live := Function.update h.live item true

def pushBack (h : Heap ι κ) (list : κ) (item : ι) : Heap ι κ :=
  { h with links := insertBefore h.links (.entry item) (.head list) }

def pushFront (h : Heap ι κ) (list : κ) (item : ι) : Heap ι κ :=
  { h with links := insertAfter h.links (.entry item) (.head list) }

def removeEntry (h : Heap ι κ) (item : ι) : Heap ι κ :=
  { h with links := remove h.links (.entry item) }

/-- `delete` of an item runs `~ListEntry`. -/
def delete (h : Heap ι κ) (item : ι) : Heap ι κ where
  links := remove h.links (.entry item)
  live := Function.update h.live item false

end Heap

/-- An operation on the items and lists. -/
inductive Event (ι : Type u) (κ : Type v) where
  | create (item : ι)
  | pushBack (list : κ) (item : ι)
  | pushFront (list : κ) (item : ι)
  | remove (item : ι)
  | delete (item : ι)
deriving DecidableEq

namespace Event

variable {ι : Type u} {κ : Type v} [DecidableEq ι] [DecidableEq κ]

/-- Items exist where they are used, and only unlinked ones are pushed. -/
def guard (h : Heap ι κ) : Event ι κ → Prop
  | create item => h.live item = false
  | pushBack _ item =>
      h.live item = true ∧ inList h.links (.entry item) = false
  | pushFront _ item =>
      h.live item = true ∧ inList h.links (.entry item) = false
  | remove item => h.live item = true
  | delete item => h.live item = true

def next (h : Heap ι κ) : Event ι κ → Heap ι κ
  | create item => h.create item
  | pushBack list item => h.pushBack list item
  | pushFront list item => h.pushFront list item
  | remove item => h.removeEntry item
  | delete item => h.delete item

end Event

variable {ι : Type u} {κ : Type v} [DecidableEq ι] [DecidableEq κ]

/-- All runs on any number of lists; at first there is no item. -/
def lists : System (Heap ι κ) (Event ι κ) where
  init := fun h =>
    (∀ list, h.links.Alone (.head list)) ∧ ∀ item, h.live item = false
  guard := Event.guard
  next := Event.next

section Sequences

/-- What an operation does to the sequences the lists stand for. -/
def sequenceStep (seq : κ → List ι) : Event ι κ → κ → List ι
  | .create _, l => seq l
  | .pushBack list item, l => if l = list then seq l ++ [item] else seq l
  | .pushFront list item, l => if l = list then item :: seq l else seq l
  | .remove item, l => (seq l).filter (· ≠ item)
  | .delete item, l => (seq l).filter (· ≠ item)

/-- The sequences after the operations of a trace. -/
def sequences (tr : List (Event ι κ)) : κ → List ι :=
  tr.foldl sequenceStep fun _ => []

theorem sequences_append_singleton
    (tr : List (Event ι κ)) (e : Event ι κ) :
    sequences (tr ++ [e]) = sequenceStep (sequences tr) e := by
  rw [sequences, List.foldl_append]
  rfl

end Sequences

/-- The nodes of a sequence of items. -/
def nodes (xs : List ι) : List (Node ι κ) :=
  xs.map .entry

/-- The rings hold the sequences, and everything else is unlinked. -/
structure Represents (h : Heap ι κ) (seq : κ → List ι) : Prop where
  ring : ∀ l, h.links.Ring (.head l) (nodes (seq l))
  nodup : ∀ l, (seq l).Nodup
  disjoint : ∀ l m item, item ∈ seq l → item ∈ seq m → l = m
  live : ∀ l item, item ∈ seq l → h.live item = true
  alone : ∀ item, h.live item = true → (∀ l, item ∉ seq l) →
    h.links.Alone (.entry item)

section Nodes

variable {l m : κ} {item : ι} {xs : List ι}

omit [DecidableEq ι] [DecidableEq κ]

theorem entry_mem_ring :
    (.entry item : Node ι κ) ∈ .head l :: nodes xs ↔ item ∈ xs := by
  simp [nodes]

theorem head_mem_ring :
    (.head m : Node ι κ) ∈ .head l :: nodes xs ↔ m = l := by
  simp [nodes]

theorem nodup_ring
    (hxs : xs.Nodup) :
    (.head l :: nodes xs : List (Node ι κ)).Nodup := by
  refine List.nodup_cons.mpr ⟨by simp [nodes], ?_⟩
  exact hxs.map fun a b hab => Node.entry.inj hab

end Nodes

section Steps

variable {h : Heap ι κ} {seq : κ → List ι} {l m : κ} {item : ι} {x : Node ι κ}

omit [DecidableEq ι] [DecidableEq κ] in
/-- No node is on two rings. -/
theorem Represents.eq_of_mem
    (hs : Represents h seq)
    (hl : x ∈ .head l :: nodes (seq l))
    (hm : x ∈ .head m :: nodes (seq m)) :
    l = m := by
  cases x with
  | entry item =>
      exact hs.disjoint l m item (entry_mem_ring.mp hl) (entry_mem_ring.mp hm)
  | head k =>
      exact (head_mem_ring.mp hl).symm.trans (head_mem_ring.mp hm)

omit [DecidableEq ι] [DecidableEq κ] in
/-- An unlinked entry is on no ring. -/
theorem notMem_ring
    (hitem : ∀ l, item ∉ seq l) (l : κ) :
    (.entry item : Node ι κ) ∉ .head l :: nodes (seq l) :=
  fun hmem => hitem l (entry_mem_ring.mp hmem)

/-- `in_list` tells the linked entries of items from the others. -/
theorem Represents.inList_iff
    (hs : Represents h seq)
    (hlive : h.live item = true) :
    inList h.links (.entry item) = true ↔ ∃ l, item ∈ seq l := by
  constructor
  · intro hlinked
    by_contra hnone
    rw [not_exists] at hnone
    have halone := (hs.alone item hlive hnone).1
    simp [inList, halone] at hlinked
  · intro hlinked
    obtain ⟨l, hl⟩ := hlinked
    have hne := (hs.ring l).next_ne (nodup_ring (hs.nodup l))
      (e := .entry item) (List.mem_map_of_mem hl)
    simpa [inList] using hne

theorem Represents.unlinked
    (hs : Represents h seq)
    (hlive : h.live item = true)
    (hitem : inList h.links (.entry item) = false)
    (l : κ) :
    item ∉ seq l := by
  intro hmem
  have hlinked := (hs.inList_iff hlive).mpr ⟨l, hmem⟩
  rw [hitem] at hlinked
  cases hlinked

/-- Setting a link on one ring leaves the other rings alone. -/
theorem Represents.ring_of_ne
    (hs : Represents h seq)
    {L : Links (Node ι κ)} {a b : Node ι κ}
    (hne : m ≠ l)
    (hring : L.Ring (.head m) (nodes (seq m)))
    (ha : a ∈ .head l :: nodes (seq l) ∨
      a ∉ .head m :: nodes (seq m))
    (hb : b ∈ .head l :: nodes (seq l) ∨
      b ∉ .head m :: nodes (seq m)) :
    (L.join a b).Ring (.head m) (nodes (seq m)) := by
  refine hring.frame (fun hmem => ?_) (fun hmem => ?_)
  · exact ha.elim (fun h => hne (hs.eq_of_mem hmem h)) (fun h => h hmem)
  · exact hb.elim (fun h => hne (hs.eq_of_mem hmem h)) (fun h => h hmem)

theorem Represents.create
    (hs : Represents h seq)
    (hdead : h.live item = false) :
    Represents (h.create item) seq := by
  have hitem : ∀ l, item ∉ seq l := by
    intro l hmem
    rw [hs.live l item hmem] at hdead
    cases hdead
  constructor
  · intro l
    exact (hs.ring l).frame (notMem_ring hitem l) (notMem_ring hitem l)
  · exact hs.nodup
  · exact hs.disjoint
  · intro l other hother
    have hne : other ≠ item := by
      intro h
      subst h
      exact hitem l hother
    simpa [Heap.create, hne] using hs.live l other hother
  · intro other hlive hother
    by_cases hne : other = item
    · subst hne
      exact alone_join_self
    · have hentry : (.entry other : Node ι κ) ≠ .entry item :=
        fun h => hne (Node.entry.inj h)
      exact (hs.alone other (by simpa [Heap.create, hne] using hlive)
        hother).frame hentry hentry

/-- An item that was unlinked is now on the ring of `l`. -/
theorem Represents.insert
    (hs : Represents h seq)
    (hlive : h.live item = true)
    (hitem : ∀ l, item ∉ seq l)
    {xs ys : List ι} {a b : Node ι κ}
    (hseq : seq l = xs ++ ys)
    (ha : (Node.head l :: nodes xs).getLast? = some a)
    (hb : (nodes ys ++ [Node.head l]).head? = some b) :
    Represents
      { h with
        links := (h.links.join a (.entry item)).join (.entry item) b }
      (Function.update seq l (xs ++ item :: ys)) := by
  have hnodes : (nodes (seq l) : List (Node ι κ)) = nodes xs ++ nodes ys := by
    rw [hseq, nodes, List.map_append]
    rfl
  have ha' : a ∈ Node.head l :: nodes (seq l) := by
    rw [hnodes, ← List.cons_append]
    exact List.mem_append_left _ (List.mem_of_getLast? ha)
  have hb' : b ∈ Node.head l :: nodes (seq l) := by
    rw [hnodes]
    rcases List.mem_append.mp (List.mem_of_head? hb) with hmem | hmem
    · exact List.mem_cons_of_mem _ (List.mem_append_right _ hmem)
    · rw [List.mem_singleton.mp hmem]
      exact List.mem_cons_self
  have hmem : ∀ m other, other ∈ Function.update seq l (xs ++ item :: ys) m →
      other = item ∧ m = l ∨ other ∈ seq m := by
    intro m other hother
    by_cases hm : m = l
    · subst hm
      rw [Function.update_self, List.mem_append, List.mem_cons] at hother
      rw [hseq, List.mem_append]
      rcases hother with hother | rfl | hother
      · exact Or.inr (Or.inl hother)
      · exact Or.inl ⟨rfl, rfl⟩
      · exact Or.inr (Or.inr hother)
    · rw [Function.update_of_ne hm] at hother
      exact Or.inr hother
  constructor
  · intro m
    by_cases hm : m = l
    · subst hm
      have hring := hs.ring m
      rw [hnodes] at hring
      have hnodup := nodup_ring (l := m) (hs.nodup m)
      rw [hnodes] at hnodup
      have hnew := notMem_ring hitem m
      rw [hnodes] at hnew
      rw [Function.update_self, nodes, List.map_append, List.map_cons]
      exact hring.insert hnodup hnew ha hb
    · rw [Function.update_of_ne hm]
      refine hs.ring_of_ne hm (hs.ring_of_ne hm (hs.ring m) ?_ ?_) ?_ ?_
      · exact Or.inl ha'
      · exact Or.inr (notMem_ring hitem m)
      · exact Or.inr (notMem_ring hitem m)
      · exact Or.inl hb'
  · intro m
    by_cases hm : m = l
    · subst hm
      have hnodup := hs.nodup m
      have hnot := hitem m
      rw [hseq] at hnodup hnot
      rw [Function.update_self]
      exact List.nodup_middle.mpr (List.nodup_cons.mpr ⟨hnot, hnodup⟩)
    · rw [Function.update_of_ne hm]
      exact hs.nodup m
  · intro m k other hm hk
    rcases hmem m other hm with ⟨rfl, rfl⟩ | hm'
    · rcases hmem k other hk with ⟨-, rfl⟩ | hk'
      · rfl
      · exact absurd hk' (hitem k)
    · rcases hmem k other hk with ⟨rfl, rfl⟩ | hk'
      · exact absurd hm' (hitem m)
      · exact hs.disjoint m k other hm' hk'
  · intro m other hm
    rcases hmem m other hm with ⟨rfl, -⟩ | hm'
    · exact hlive
    · exact hs.live m other hm'
  · intro other hlive' hother
    have hne : (.entry other : Node ι κ) ≠ .entry item := by
      intro h
      obtain rfl := Node.entry.inj h
      exact hother l (by simp)
    have hother' : ∀ m, other ∉ seq m := by
      intro m hm
      refine hother m ?_
      by_cases hml : m = l
      · subst hml
        rw [hseq, List.mem_append] at hm
        rw [Function.update_self, List.mem_append, List.mem_cons]
        exact hm.imp_right Or.inr
      · rwa [Function.update_of_ne hml]
    have hnot := notMem_ring hother' l
    refine ((hs.alone other hlive' hother').frame ?_ hne).frame hne ?_
    · exact fun h => hnot (h ▸ ha')
    · exact fun h => hnot (h ▸ hb')

theorem Represents.pushBack
    (hs : Represents h seq)
    (hlive : h.live item = true)
    (hitem : ∀ l, item ∉ seq l) :
    Represents (h.pushBack l item)
      (Function.update seq l (seq l ++ [item])) := by
  have hlast := (hs.ring l).prev_head
  have hne : (.entry item : Node ι κ) ≠ h.links.prev (.head l) := by
    intro heq
    exact notMem_ring hitem l (heq ▸ (hs.ring l).prev_head_mem)
  rw [Heap.pushBack, insertBefore_eq (by simp) hne]
  exact hs.insert hlive hitem (List.append_nil _).symm hlast rfl

theorem Represents.pushFront
    (hs : Represents h seq)
    (hlive : h.live item = true)
    (hitem : ∀ l, item ∉ seq l) :
    Represents (h.pushFront l item)
      (Function.update seq l (item :: seq l)) := by
  rw [Heap.pushFront, insertAfter_eq (by simp)]
  have hseq : seq l = [] ++ seq l := rfl
  exact hs.insert hlive hitem hseq rfl (hs.ring l).next_head

/-- The sequences without an item. -/
def without (seq : κ → List ι) (item : ι) (l : κ) : List ι :=
  (seq l).filter (· ≠ item)

omit [DecidableEq κ] in
theorem mem_without {other : ι} :
    other ∈ without seq item l ↔ other ∈ seq l ∧ other ≠ item := by
  simp [without]

omit [DecidableEq κ] in
theorem without_of_notMem
    (hitem : item ∉ seq l) :
    without seq item l = seq l := by
  refine List.filter_eq_self.mpr fun other hother => ?_
  have hne : other ≠ item := fun heq => hitem (heq ▸ hother)
  simpa using hne

omit [DecidableEq κ] in
theorem without_middle
    {xs ys : List ι}
    (hseq : seq l = xs ++ item :: ys)
    (hnodup : (seq l).Nodup) :
    without seq item l = xs ++ ys := by
  rw [hseq] at hnodup
  have hnot := (List.nodup_cons.mp (List.nodup_middle.mp hnodup)).1
  have hkept : (xs ++ ys).filter (· ≠ item) = xs ++ ys := by
    refine List.filter_eq_self.mpr fun other hother => ?_
    have hne : other ≠ item := fun heq => hnot (heq ▸ hother)
    simpa using hne
  have hdropped : (item :: ys).filter (· ≠ item) = ys.filter (· ≠ item) :=
    List.filter_cons_of_neg (by simp)
  rw [without, hseq, List.filter_append, hdropped, ← List.filter_append]
  exact hkept

/-- The rings after `remove`. -/
theorem Represents.remove_ring
    (hs : Represents h seq)
    (hlive : h.live item = true)
    (m : κ) :
    (remove h.links (.entry item)).Ring (.head m)
      (nodes (without seq item m)) := by
  rw [remove_eq]
  by_cases hlinked : ∃ l, item ∈ seq l
  · obtain ⟨l, hl⟩ := hlinked
    obtain ⟨hprev, hnext⟩ := (hs.ring l).neighbours_mem
      (e := .entry item) (List.mem_map_of_mem hl)
    by_cases hm : m = l
    · subst hm
      obtain ⟨xs, ys, hseq⟩ := List.append_of_mem hl
      have hnodes : (nodes (seq m) : List (Node ι κ)) =
          nodes xs ++ .entry item :: nodes ys := by
        rw [hseq, nodes, List.map_append, List.map_cons]
        rfl
      have hring := hs.ring m
      have hnodup := nodup_ring (l := m) (hs.nodup m)
      rw [hnodes] at hring hnodup
      rw [without_middle hseq (hs.nodup m), nodes, List.map_append]
      exact hring.unlink hnodup
    · have hself : (.entry item : Node ι κ) ∈ .head l :: nodes (seq l) :=
        entry_mem_ring.mpr hl
      have hnot : item ∉ seq m := fun hmem => hm (hs.disjoint m l item hmem hl)
      rw [without_of_notMem hnot]
      exact hs.ring_of_ne hm
        (hs.ring_of_ne hm (hs.ring m) (Or.inl hprev) (Or.inl hnext))
        (Or.inl hself) (Or.inl hself)
  · rw [not_exists] at hlinked
    obtain ⟨hnext, hprev⟩ := hs.alone item hlive hlinked
    have hnot := notMem_ring hlinked m
    rw [without_of_notMem (hlinked m), hnext, hprev]
    exact ((hs.ring m).frame hnot hnot).frame hnot hnot

/-- An entry that is unlinked stays so, and the removed one is. -/
theorem Represents.remove_alone
    (hs : Represents h seq)
    (hlive : h.live item = true)
    {other : ι}
    (hlive' : h.live other = true)
    (hother : ∀ l, other ∉ without seq item l) :
    (remove h.links (.entry item)).Alone (.entry other) := by
  rw [remove_eq]
  by_cases hne : other = item
  · subst hne
    exact alone_join_self
  · have hentry : (.entry other : Node ι κ) ≠ .entry item :=
      fun heq => hne (Node.entry.inj heq)
    have hother' : ∀ l, other ∉ seq l :=
      fun l hmem => hother l (mem_without.mpr ⟨hmem, hne⟩)
    have hold := hs.alone other hlive' hother'
    by_cases hlinked : ∃ l, item ∈ seq l
    · obtain ⟨l, hl⟩ := hlinked
      obtain ⟨hprev, hnext⟩ := (hs.ring l).neighbours_mem
        (e := .entry item) (List.mem_map_of_mem hl)
      have hnot := notMem_ring hother' l
      exact (hold.frame (fun heq => hnot (heq ▸ hprev))
        (fun heq => hnot (heq ▸ hnext))).frame hentry hentry
    · rw [not_exists] at hlinked
      obtain ⟨hnext, hprev⟩ := hs.alone item hlive hlinked
      rw [hnext, hprev]
      exact (hold.frame hentry hentry).frame hentry hentry

theorem Represents.remove
    (hs : Represents h seq)
    (hlive : h.live item = true) :
    Represents (h.removeEntry item) (without seq item) where
  ring := hs.remove_ring hlive
  nodup := fun l => (hs.nodup l).filter _
  disjoint := fun l m other hl hm =>
    hs.disjoint l m other (mem_without.mp hl).1 (mem_without.mp hm).1
  live := fun l other hl => hs.live l other (mem_without.mp hl).1
  alone := fun _ hlive' hother => hs.remove_alone hlive hlive' hother

theorem Represents.delete
    (hs : Represents h seq)
    (hlive : h.live item = true) :
    Represents (h.delete item) (without seq item) where
  ring := hs.remove_ring hlive
  nodup := (hs.remove hlive).nodup
  disjoint := (hs.remove hlive).disjoint
  live := by
    intro l other hl
    obtain ⟨hmem, hne⟩ := mem_without.mp hl
    simpa [Heap.delete, hne] using hs.live l other hmem
  alone := by
    intro other hlive' hother
    have hne : other ≠ item := by
      intro heq
      subst heq
      simp [Heap.delete] at hlive'
    exact hs.remove_alone hlive (by simpa [Heap.delete, hne] using hlive') hother

theorem Represents.step
    {e : Event ι κ}
    (hs : Represents h seq)
    (hguard : lists.guard h e) :
    Represents (lists.next h e) (sequenceStep seq e) := by
  cases e with
  | create item =>
      exact hs.create hguard
  | pushBack l item =>
      have hstep : sequenceStep seq (.pushBack l item) =
          Function.update seq l (seq l ++ [item]) := by
        funext m
        by_cases hm : m = l
        · simp [sequenceStep, hm]
        · simp [sequenceStep, hm]
      rw [hstep]
      exact hs.pushBack hguard.1 (hs.unlinked hguard.1 hguard.2)
  | pushFront l item =>
      have hstep : sequenceStep seq (.pushFront l item) =
          Function.update seq l (item :: seq l) := by
        funext m
        by_cases hm : m = l
        · simp [sequenceStep, hm]
        · simp [sequenceStep, hm]
      rw [hstep]
      exact hs.pushFront hguard.1 (hs.unlinked hguard.1 hguard.2)
  | remove item =>
      exact hs.remove hguard
  | delete item =>
      exact hs.delete hguard

end Steps

section Runs

variable {h : Heap ι κ} {seq : κ → List ι}

/-- The rings hold the sequences of the trace. -/
theorem represents_of_run
    {tr : List (Event ι κ)}
    (hrun : lists.Run tr h) :
    Represents h (sequences tr) := by
  refine hrun.invariant (I := fun tr h => Represents h (sequences tr)) ?_ ?_
  · intro h hinit
    obtain ⟨halone, hdead⟩ := hinit
    constructor
    · intro l
      exact ring_nil_iff.mpr (halone l)
    · intro l
      exact List.nodup_nil
    · intro l m item hl
      cases hl
    · intro l item hl
      cases hl
    · intro item hlive
      rw [hdead item] at hlive
      cases hlive
  · intro tr h e _ hs hguard
    rw [sequences_append_singleton]
    exact hs.step hguard

/-- The lists are well formed and show the sequences through their members. -/
structure Refines (h : Heap ι κ) (seq : κ → List ι) : Prop where
  /-- From `head_`, `next_` leads through the items and back to `head_`. -/
  traversal : ∀ l, h.links.walk ((seq l).length + 1) (.head l) =
    nodes (seq l) ++ [.head l]
  inverse : ∀ l, ∀ x ∈ Node.head l :: nodes (seq l),
    h.links.prev (h.links.next x) = x ∧ h.links.next (h.links.prev x) = x
  nodup : ∀ l, (seq l).Nodup
  disjoint : ∀ l m item, item ∈ seq l → item ∈ seq m → l = m
  live : ∀ l item, item ∈ seq l → h.live item = true
  unlinked : ∀ item, h.live item = true → (∀ l, item ∉ seq l) →
    h.links.next (.entry item) = .entry item ∧
      h.links.prev (.entry item) = .entry item
  inList : ∀ item, h.live item = true →
    (inList h.links (.entry item) = true ↔ ∃ l, item ∈ seq l)
  front : ∀ l, h.front l = (seq l).head?
  back : ∀ l, h.back l = (seq l).getLast?

theorem Represents.empty_iff
    (hs : Represents h seq) (l : κ) :
    h.empty l = true ↔ seq l = [] := by
  have hfirst := (hs.ring l).next_head
  cases hseq : seq l with
  | nil =>
      rw [hseq] at hfirst
      have hnext : h.links.next (.head l) = .head l :=
        (Option.some.inj hfirst).symm
      simp [Heap.empty, inList, hnext]
  | cons item xs =>
      rw [hseq] at hfirst
      have hnext : h.links.next (.head l) = .entry item :=
        (Option.some.inj hfirst).symm
      simp [Heap.empty, inList, hnext]

theorem Represents.front_eq
    (hs : Represents h seq) (l : κ) :
    h.front l = (seq l).head? := by
  have hempty := hs.empty_iff l
  have hfirst := (hs.ring l).next_head
  cases hseq : seq l with
  | nil =>
      simp [Heap.front, hempty.mpr hseq]
  | cons item xs =>
      have hnot : h.empty l = false := by simpa [hseq] using hempty
      rw [hseq] at hfirst
      have hnext : h.links.next (.head l) = .entry item :=
        (Option.some.inj hfirst).symm
      simp [Heap.front, hnot, hnext, Heap.fromEntry]

theorem Represents.back_eq
    (hs : Represents h seq) (l : κ) :
    h.back l = (seq l).getLast? := by
  have hempty := hs.empty_iff l
  have hlast := (hs.ring l).prev_head
  rcases List.eq_nil_or_concat (seq l) with hseq | ⟨xs, item, hseq⟩
  · simp [Heap.back, hempty.mpr hseq, hseq]
  · rw [List.concat_eq_append] at hseq
    have hnot : h.empty l = false := by simpa [hseq] using hempty
    rw [hseq, nodes, List.map_append, ← List.cons_append, List.map_singleton,
      List.getLast?_concat] at hlast
    have hprev : h.links.prev (.head l) = .entry item :=
      (Option.some.inj hlast).symm
    rw [hseq, List.getLast?_concat]
    simp [Heap.back, hnot, hprev, Heap.fromEntry]

/--
Any operations on any number of lists leave all rings well formed, and the lists
show the sequences obtained by appending, prepending and deleting.
-/
theorem lists_refine
    {tr : List (Event ι κ)}
    (hrun : lists.Run tr h) :
    Refines h (sequences tr) := by
  have hs := represents_of_run hrun
  constructor
  · intro l
    have hwalk := (hs.ring l).walk
    rwa [nodes, List.length_map] at hwalk
  · intro l x hx
    exact (hs.ring l).inverse hx
  · exact hs.nodup
  · exact hs.disjoint
  · exact hs.live
  · exact hs.alone
  · intro item hlive
    exact hs.inList_iff hlive
  · exact hs.front_eq
  · exact hs.back_eq

end Runs

instance decidableListsGuard (h : Heap ι κ) (e : Event ι κ) :
    Decidable (lists.guard h e) := by
  cases e <;> simp only [lists, Event.guard] <;> infer_instance

/-- Two lists that exchange an item. -/
def moveItem : List (Event Nat Bool) :=
  [.create 1, .create 2, .create 3,
    .pushBack false 1, .pushFront false 2, .pushBack true 3,
    .remove 1, .pushFront true 1, .delete 3]

theorem lists_refine_moveItem :
    Refines
      (lists.exec
        { links := { next := id, prev := id }, live := fun _ => false }
        moveItem)
      (sequences moveItem) :=
  lists_refine (.of_enabled
    ⟨fun _ => ⟨rfl, rfl⟩, fun _ => rfl⟩ (by decide +kernel))

end IntrusiveList
end Ptl

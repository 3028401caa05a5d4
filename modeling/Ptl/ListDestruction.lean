import Ptl.IntrusiveList

/-!
# The destructor of `List`

An item carries one `ListEntry` for each binding and may be linked in one list for each of
them.  `~List` deletes the front item until the list is empty; the destructor of the item
destroys its entries, the last one declared first, and each entry takes itself out of the
ring it is in.  Then `head_` is destroyed.

The heap is that of `Ptl.IntrusiveList`, where a node is now an entry of an item.

**Results.**
* `deleteItem_represents`: deleting an item takes it out of all lists at once.
* `loop_eq`: the loop ends after deleting each item of the list once.
* `destroy_two_lists`: the second list loses exactly the items deleted with the first, and
  its own destructor deletes the rest.
-/

namespace Ptl
namespace IntrusiveList

open Links

universe u v w

/-- The entries of an item type, in the order of their declarations. -/
structure Declared (φ : Type w) where
  fields : List φ
  nodup : fields.Nodup
  complete : ∀ f, f ∈ fields

section Destructors

variable {ω : Type u} {φ : Type w} {κ : Type v}
variable [DecidableEq ω] [DecidableEq φ] [DecidableEq κ]

namespace Heap

/-- `~ListEntry` of the given entries of an item, one after the other. -/
def destroyEntries (h : Heap (ω × φ) κ) (item : ω) (fs : List φ) : Heap (ω × φ) κ :=
  fs.foldl (fun h f => h.delete (item, f)) h

/-- `delete item`; an item that does not exist must not be deleted. -/
def deleteItem (D : Declared φ) (h : Heap (ω × φ) κ) (item : ω) : Option (Heap (ω × φ) κ) :=
  if ∀ f ∈ D.fields, h.live (item, f) = true then
    some (h.destroyEntries item D.fields.reverse)
  else none

/--
`while (!empty()) delete front();` with the items it deletes, if it ends within `fuel`
tests of its condition.
-/
def loop (D : Declared φ) : Nat → Heap (ω × φ) κ → κ → Option (Heap (ω × φ) κ × List ω)
  | 0, _, _ => none
  | fuel + 1, h, l =>
      if h.empty l then some (h, [])
      else
        match h.front l with
        | none => none
        | some e =>
            match h.deleteItem D e.1 with
            | none => none
            | some h =>
                match loop D fuel h l with
                | none => none
                | some (h, items) => some (h, e.1 :: items)

/-- `~List`: the loop, and then `~ListEntry` of `head_`. -/
def destroyList (D : Declared φ) (fuel : Nat) (h : Heap (ω × φ) κ) (l : κ) :
    Option (Heap (ω × φ) κ × List ω) :=
  match h.loop D fuel l with
  | none => none
  | some (h, items) => some ({ h with links := remove h.links (.head l) }, items)

end Heap

/-- The items of a sequence of entries. -/
def items (es : List (ω × φ)) : List ω :=
  es.map Prod.fst

/-- The sequences without the entries of some items. -/
def dropItems (seq : κ → List (ω × φ)) (xs : List ω) (l : κ) : List (ω × φ) :=
  (seq l).filter fun e => e.1 ∉ xs

/--
The rings hold the sequences, a list links the entries of its binding, and an item exists
with all its entries.
-/
structure WellFormed
    (binding : κ → φ) (h : Heap (ω × φ) κ) (seq : κ → List (ω × φ)) : Prop where
  represents : Represents h seq
  bound : ∀ l, ∀ e ∈ seq l, e.2 = binding l
  whole : ∀ item f g, h.live (item, f) = h.live (item, g)

section Items

variable {D : Declared φ} {binding : κ → φ}
variable {h : Heap (ω × φ) κ} {seq : κ → List (ω × φ)} {l m : κ} {item : ω}
variable {fs : List φ}

omit [DecidableEq κ] [DecidableEq φ] in
theorem dropItems_dropItems
    (xs ys : List ω)
    (l : κ) :
    dropItems (dropItems seq xs) ys l = dropItems seq (xs ++ ys) l := by
  rw [dropItems, dropItems, List.filter_filter, dropItems]
  refine List.filter_congr fun e _ => ?_
  simp [Bool.and_comm]

theorem live_destroyEntries_of_ne
    {e : ω × φ}
    (he : e.1 ≠ item) :
    (h.destroyEntries item fs).live e = h.live e := by
  induction fs generalizing h with
  | nil =>
      rfl
  | cons f fs ih =>
      have hne : e ≠ (item, f) := fun heq => he (congrArg Prod.fst heq)
      refine ih.trans ?_
      simp [Heap.delete, hne]

theorem live_destroyEntries
    {f : φ}
    (hf : f ∈ fs) :
    (h.destroyEntries item fs).live (item, f) = false := by
  induction fs using List.reverseRecOn with
  | nil =>
      cases hf
  | append_singleton fs g ih =>
      rw [Heap.destroyEntries, List.foldl_append]
      rcases List.mem_append.mp hf with hmem | hlast
      · have hold := ih hmem
        simp only [List.foldl_cons, List.foldl_nil, Heap.delete]
        rw [Function.update_apply]
        split
        · rfl
        · exact hold
      · obtain rfl := List.mem_singleton.mp hlast
        simp [Heap.delete]

/-- Each entry that is destroyed leaves the list it is in. -/
theorem Represents.destroyEntries
    (hs : Represents h seq)
    (hnodup : fs.Nodup)
    (hlive : ∀ f ∈ fs, h.live (item, f) = true) :
    Represents (h.destroyEntries item fs)
      fun l => (seq l).filter fun e => ¬(e.1 = item ∧ e.2 ∈ fs) := by
  induction fs generalizing h seq with
  | nil =>
      simpa [Heap.destroyEntries] using hs
  | cons f fs ih =>
      obtain ⟨hf, hrest⟩ := List.nodup_cons.mp hnodup
      have hfirst : Represents (h.delete (item, f)) (without seq (item, f)) :=
        hs.delete (hlive f List.mem_cons_self)
      have hothers : ∀ g ∈ fs, (h.delete (item, f)).live (item, g) = true := by
        intro g hg
        have hne : g ≠ f := fun heq => hf (heq ▸ hg)
        simpa [Heap.delete, hne] using hlive g (List.mem_cons_of_mem f hg)
      have hseq : (fun l => (without seq (item, f) l).filter
          fun e => ¬(e.1 = item ∧ e.2 ∈ fs)) =
          fun l => (seq l).filter fun e => ¬(e.1 = item ∧ e.2 ∈ f :: fs) := by
        funext l
        rw [without, List.filter_filter]
        refine List.filter_congr fun e _ => ?_
        obtain ⟨x, g⟩ := e
        by_cases hx : x = item
        · simp [hx, Bool.and_comm]
        · simp [hx]
      rw [← hseq]
      exact ih hfirst hrest hothers

/-- Deleting an item takes it out of all lists. -/
theorem WellFormed.deleteItem
    (hs : WellFormed binding h seq)
    (D : Declared φ)
    (hlive : ∀ f, h.live (item, f) = true) :
    ∃ h', h.deleteItem D item = some h' ∧
      WellFormed binding h' (dropItems seq [item]) ∧
      (∀ f, h'.live (item, f) = false) ∧
      ∀ e : ω × φ, e.1 ≠ item → h'.live e = h.live e := by
  have hmem (f : φ) : f ∈ D.fields.reverse := List.mem_reverse.mpr (D.complete f)
  have hdead (f : φ) : (h.destroyEntries item D.fields.reverse).live (item, f) = false :=
    live_destroyEntries (hmem f)
  have hothers (e : ω × φ) (he : e.1 ≠ item) :
      (h.destroyEntries item D.fields.reverse).live e = h.live e :=
    live_destroyEntries_of_ne he
  refine ⟨_, if_pos fun f _ => hlive f, ⟨?_, ?_, ?_⟩, hdead, hothers⟩
  · have hrepresents := hs.represents.destroyEntries
      (List.nodup_reverse.mpr D.nodup) fun f _ => hlive f
    have hseq : dropItems seq [item] =
        fun l => (seq l).filter fun e => ¬(e.1 = item ∧ e.2 ∈ D.fields.reverse) := by
      funext l
      refine List.filter_congr fun e _ => ?_
      simp [D.complete e.2]
    rw [hseq]
    exact hrepresents
  · intro l e he
    exact hs.bound l e (List.mem_filter.mp he).1
  · intro x f g
    rcases eq_or_ne x item with rfl | hne
    · rw [hdead f, hdead g]
    · rw [hothers (x, f) hne, hothers (x, g) hne]
      exact hs.whole x f g

omit [DecidableEq κ] [DecidableEq φ] [DecidableEq ω] in
/-- No item is linked twice in one list. -/
theorem WellFormed.nodup_items
    (hs : WellFormed binding h seq)
    (l : κ) :
    (items (seq l)).Nodup := by
  refine List.Nodup.map_on ?_ (hs.represents.nodup l)
  rintro ⟨x, f⟩ he ⟨y, g⟩ he' heq
  have hf : f = binding l := hs.bound l _ he
  have hg : g = binding l := hs.bound l _ he'
  rw [hf, hg]
  exact congrArg (·, binding l) heq

omit [DecidableEq κ] [DecidableEq φ] in
/-- The rest of a list keeps its items when the first one is dropped. -/
theorem WellFormed.dropItems_cons
    (hs : WellFormed binding h seq)
    {e : ω × φ} {es : List (ω × φ)}
    (hseq : seq l = e :: es) :
    dropItems seq [e.1] l = es := by
  have hnodup := hs.nodup_items l
  rw [hseq] at hnodup
  have hnot : e.1 ∉ items es := (List.nodup_cons.mp hnodup).1
  rw [dropItems, hseq, List.filter_cons_of_neg (by simp)]
  refine List.filter_eq_self.mpr fun f hf => ?_
  have hne : f.1 ≠ e.1 := fun heq => hnot (heq ▸ List.mem_map_of_mem hf)
  simpa using hne

/--
The loop ends within one test for each item and one more.  It deletes the items of the
list in their order, each once, and takes them out of the other lists.
-/
theorem loop_eq
    (hs : WellFormed binding h seq)
    (D : Declared φ)
    {fuel : Nat}
    (hfuel : (seq l).length < fuel) :
    ∃ h', h.loop D fuel l = some (h', items (seq l)) ∧
      WellFormed binding h' (dropItems seq (items (seq l))) ∧
      (∀ e : ω × φ, e.1 ∈ items (seq l) → h'.live e = false) ∧
      ∀ e : ω × φ, e.1 ∉ items (seq l) → h'.live e = h.live e := by
  induction fuel generalizing h seq with
  | zero =>
      omega
  | succ fuel ih =>
      rw [Heap.loop]
      cases hseq : seq l with
      | nil =>
          have hempty : h.empty l = true := (hs.represents.empty_iff l).mpr hseq
          have hdrop : dropItems seq (items ([] : List (ω × φ))) = seq := by
            funext m
            exact List.filter_eq_self.mpr fun e _ => by simp [items]
          rw [if_pos hempty, hdrop]
          exact ⟨h, rfl, hs, fun e he => absurd he List.not_mem_nil, fun _ _ => rfl⟩
      | cons e es =>
          have hempty : h.empty l = false := by
            have hiff := hs.represents.empty_iff l
            rw [hseq] at hiff
            simpa using hiff
          have hfront : h.front l = some e := by
            rw [hs.represents.front_eq l, hseq]
            rfl
          have hlive (f : φ) : h.live (e.1, f) = true := by
            rw [hs.whole e.1 f e.2]
            exact hs.represents.live l e (by rw [hseq]; exact List.mem_cons_self)
          obtain ⟨h₁, hdelete, hs₁, hdead₁, hothers₁⟩ := hs.deleteItem D hlive
          have hrest : dropItems seq [e.1] l = es := hs.dropItems_cons hseq
          have hless : (dropItems seq [e.1] l).length < fuel := by
            rw [hrest]
            rw [hseq, List.length_cons] at hfuel
            omega
          obtain ⟨h₂, hloop, hs₂, hdead₂, hothers₂⟩ := ih hs₁ hless
          rw [hrest] at hloop hs₂ hdead₂ hothers₂
          refine ⟨h₂, ?_, ?_, ?_, ?_⟩
          · simp only [hempty, hfront, hdelete, hloop]
            rfl
          · have hdrop : dropItems (dropItems seq [e.1]) (items es) =
                dropItems seq (items (e :: es)) := by
              funext m
              exact dropItems_dropItems [e.1] (items es) m
            rw [← hdrop]
            exact hs₂
          · intro f hf
            by_cases hmem : f.1 ∈ items es
            · exact hdead₂ f hmem
            · obtain ⟨x, g⟩ := f
              rw [hothers₂ (x, g) hmem]
              rcases List.mem_cons.mp hf with heq | hmem'
              · obtain rfl : x = e.1 := heq
                exact hdead₁ g
              · exact absurd hmem' hmem
          · intro f hf
            have hf' : f.1 ≠ e.1 ∧ f.1 ∉ items es := by
              constructor
              · exact fun heq => hf (heq ▸ List.mem_cons_self)
              · exact fun hmem => hf (List.mem_cons_of_mem e.1 hmem)
            rw [hothers₂ f hf'.2, hothers₁ f hf'.1]

omit [DecidableEq φ] [DecidableEq ω] [DecidableEq κ] in
/-- Taking out an entry that is a ring of its own changes nothing. -/
theorem remove_of_alone
    {α : Type u} [DecidableEq α] {L : Links α} {this : α}
    (h : L.Alone this) :
    remove L this = L := by
  obtain ⟨hnext, hprev⟩ := h
  obtain ⟨next, prev⟩ := L
  have hnext' : Function.update next this this = next :=
    Function.update_eq_self_iff.mpr hnext.symm
  have hprev' : Function.update prev this this = prev :=
    Function.update_eq_self_iff.mpr hprev.symm
  rw [remove_eq, hnext, hprev]
  simp only [join, hnext', hprev']

/-- The destructor of a list: its loop, and a `head_` that is a ring of its own by then. -/
theorem destroyList_eq
    (hs : WellFormed binding h seq)
    (D : Declared φ)
    {fuel : Nat}
    (hfuel : (seq l).length < fuel) :
    ∃ h', h.destroyList D fuel l = some (h', items (seq l)) ∧
      WellFormed binding h' (dropItems seq (items (seq l))) ∧
      (∀ e : ω × φ, e.1 ∈ items (seq l) → h'.live e = false) ∧
      ∀ e : ω × φ, e.1 ∉ items (seq l) → h'.live e = h.live e := by
  obtain ⟨h', hloop, hs', hlive⟩ := loop_eq hs D hfuel
  refine ⟨h', ?_, hs', hlive⟩
  have hnone : dropItems seq (items (seq l)) l = [] := by
    refine List.filter_eq_nil_iff.mpr fun e he => ?_
    have hmem : e.1 ∈ items (seq l) := List.mem_map_of_mem he
    simpa using hmem
  have halone : h'.links.Alone (.head l) := by
    have hring := hs'.represents.ring l
    rw [hnone] at hring
    exact ring_nil_iff.mp hring
  simp only [Heap.destroyList, hloop, remove_of_alone halone]

end Items

section Lists

variable {D : Declared φ} {binding : κ → φ}
variable {h : Heap (ω × φ) κ} {seq : κ → List (ω × φ)}

omit [DecidableEq φ] [DecidableEq κ] in
theorem items_dropItems
    (xs : List ω)
    (l : κ) :
    items (dropItems seq xs l) = (items (seq l)).filter (· ∉ xs) := by
  rw [items, items, dropItems, List.filter_map]
  rfl

/--
Two lists of a heap in which items are linked in any way are destroyed one after the
other.  The first destructor deletes each item of the first list once and leaves the
second list without exactly these items; the second one deletes each remaining item once.
-/
theorem destroy_two_lists
    (hs : WellFormed binding h seq)
    (D : Declared φ)
    (l₁ l₂ : κ) :
    ∃ h₁ h₂,
      h.destroyList D ((seq l₁).length + 1) l₁ = some (h₁, items (seq l₁)) ∧
      WellFormed binding h₁ (dropItems seq (items (seq l₁))) ∧
      h₁.destroyList D ((seq l₂).length + 1) l₂ =
        some (h₂, (items (seq l₂)).filter (· ∉ items (seq l₁))) ∧
      (items (seq l₁) ++ (items (seq l₂)).filter (· ∉ items (seq l₁))).Nodup ∧
      ∀ item f, h₂.live (item, f) =
        (h.live (item, f) && decide (item ∉ items (seq l₁) ∧ item ∉ items (seq l₂))) := by
  obtain ⟨h₁, hfirst, hs₁, hdead₁, hothers₁⟩ :=
    destroyList_eq hs D (Nat.lt_succ_self (seq l₁).length)
  have hfuel : (dropItems seq (items (seq l₁)) l₂).length < (seq l₂).length + 1 :=
    Nat.lt_succ_of_le (List.length_filter_le ..)
  obtain ⟨h₂, hsecond, -, hdead₂, hothers₂⟩ := destroyList_eq hs₁ D hfuel
  rw [items_dropItems] at hsecond hdead₂ hothers₂
  refine ⟨h₁, h₂, hfirst, hs₁, hsecond, ?_, ?_⟩
  · refine List.nodup_append.mpr ⟨hs.nodup_items l₁, (hs.nodup_items l₂).filter _, ?_⟩
    rintro x hx y hy rfl
    simpa [hx] using (List.mem_filter.mp hy).2
  · intro item f
    by_cases hmem₂ : item ∈ (items (seq l₂)).filter (· ∉ items (seq l₁))
    · rw [hdead₂ (item, f) hmem₂]
      simp [(List.mem_filter.mp hmem₂).1]
    · rw [hothers₂ (item, f) hmem₂]
      by_cases hmem₁ : item ∈ items (seq l₁)
      · rw [hdead₁ (item, f) hmem₁]
        simp [hmem₁]
      · have hnot : item ∉ items (seq l₂) := by
          simpa [List.mem_filter, hmem₁] using hmem₂
        rw [hothers₁ (item, f) hmem₁]
        simp [hmem₁, hnot]

end Lists

end Destructors

section Examples

/-- The entries of `in_list`; `list1` and `list2` of `the_list` are named by theirs. -/
inductive Entry where
  | entry1
  | entry2
deriving DecidableEq

def inListEntries : Declared Entry where
  fields := [.entry1, .entry2]
  nodup := by decide
  complete := by
    intro f
    cases f <;> decide

/-- Item 1 is in both lists, 0 in the first, 2 in the second and 3 in neither. -/
def overlapping : List (Event (Fin 4 × Entry) Entry) :=
  [.create (0, .entry1), .create (0, .entry2), .create (1, .entry1), .create (1, .entry2),
    .create (2, .entry1), .create (2, .entry2), .create (3, .entry1), .create (3, .entry2),
    .pushBack .entry1 (0, .entry1), .pushFront .entry1 (1, .entry1),
    .pushBack .entry2 (1, .entry2), .pushBack .entry2 (2, .entry2)]

theorem destroy_two_lists_overlapping :
    ∃ h h₁ h₂ : Heap (Fin 4 × Entry) Entry,
      h.destroyList inListEntries 3 .entry1 = some (h₁, [1, 0]) ∧
        h₁.destroyList inListEntries 3 .entry2 = some (h₂, [2]) := by
  have hrun : (lists (ι := Fin 4 × Entry) (κ := Entry)).Run overlapping
      (lists.exec { links := { next := id, prev := id }, live := fun _ => false } overlapping) :=
    .of_enabled ⟨fun _ => ⟨rfl, rfl⟩, fun _ => rfl⟩ (by decide +kernel)
  have hs : WellFormed id
      (lists.exec { links := { next := id, prev := id }, live := fun _ => false } overlapping)
      (sequences overlapping) := by
    refine ⟨represents_of_run hrun, ?_, ?_⟩
    · intro l
      cases l <;> decide
    · intro item f g
      revert item
      cases f <;> cases g <;> decide +kernel
  obtain ⟨h₁, h₂, hfirst, -, hsecond, -⟩ :=
    destroy_two_lists hs inListEntries .entry1 .entry2
  exact ⟨_, h₁, h₂, hfirst, hsecond⟩

end Examples

end IntrusiveList
end Ptl

import Ptl.SList

/-!
# `SListEntry::in_list`

An entry counts as linked if its `next_` is not null, which is not so for the last entry of
a list.  The assertions of the pushes of `SList` rest on this.  Here any number of lists
share the entries of their items; a push runs on one of them.

**Results.**
* `holds_of_run`: as long as no item is pushed twice, every list is the sequence of its
  pushes.
* `unshared_iff`: an item that is pushed again is linked twice from then on, although the
  assertion has let it pass.
* `guard_protects_iff`: the guard does what it is for exactly before the first push, and it
  keeps the chains apart and finite exactly if no item is pushed twice.
-/

namespace Ptl
namespace SList

open LinkedChain Transition

universe u v

/-- The `next_` of the `head_` of a list, or of the entry of an item. -/
inductive Place (κ : Type v) (ι : Type u) where
  | head (l : κ)
  | next (item : ι)
deriving DecidableEq

/-- What the entries of the lists and of the items point to. -/
abbrev Lists (κ : Type v) (ι : Type u) :=
  Place κ ι → Option ι

/-- A push onto one of the lists. -/
structure ListPush (κ : Type v) (ι : Type u) where
  list : κ
  push : Push ι

def ListPush.item {κ : Type v} {ι : Type u} (e : ListPush κ ι) : ι :=
  e.push.node

namespace Lists

variable {κ : Type v} {ι : Type u}

def place (l : κ) : Slot ι → Place κ ι
  | .head => .head l
  | .next x => .next x

/-- One of the lists, with the entries of the items. -/
def view (s : Lists κ ι) (l : κ) : State ι where
  cells := fun a => s (place l a)
  stuck := false

variable [DecidableEq κ] [DecidableEq ι]

/-- The lists after one of them has changed. -/
def restore (s : Lists κ ι) (l : κ) (t : State ι) : Lists κ ι
  | .head m => if m = l then t.cells .head else s (.head m)
  | .next x => t.cells (.next x)

/-- The list of a push, after it. -/
def run (fuel : Nat) (s : Lists κ ι) (e : ListPush κ ι) : State ι :=
  match e.push with
  | .back item => (s.view e.list).pushBack fuel item
  | .front item => (s.view e.list).pushFront item

end Lists

variable {κ : Type v} {ι : Type u} [DecidableEq κ] [DecidableEq ι]

/-- All sequences of pushes that pass their assertions and return. -/
def lists (fuel : Nat) : System (Lists κ ι) (ListPush κ ι) where
  init := fun s => s = fun _ => none
  guard := fun s e => (s.run fuel e).stuck = false
  next := fun s e => s.restore e.list (s.run fuel e)

/-- The sequence that the pushes onto one list stand for. -/
def contentsOf (tr : List (ListPush κ ι)) (l : κ) : List ι :=
  sequence ((tr.filter fun e => e.list = l).map ListPush.push)

/-- `in_list` is true exactly for the entries that are linked in some list. -/
def InListExact (s : Lists κ ι) : Prop :=
  ∀ l x, (s.view l).inList (.next x) = true ↔ ∃ m, Reaches (s.view m).cells .head x

/-- Every chain comes to an end. -/
def Finite (s : Lists κ ι) : Prop :=
  ∀ l, ∃ xs, Chain (s.view l).cells .head xs ∧ xs.Nodup

/-- What the guard is for. -/
structure Protected (s : Lists κ ι) : Prop where
  inList : InListExact s
  unshared : Unshared s
  finite : Finite s

section Steps

variable {s : Lists κ ι} {e : ListPush κ ι} {l m : κ} {item x : ι} {v : Option ι} {fuel : Nat}

theorem restore_update
    (s : Lists κ ι) (l : κ) (a : Slot ι) (v : Option ι) (b : Bool) :
    s.restore l { cells := Function.update (s.view l).cells a v, stuck := b } =
      Function.update s (Lists.place l a) v := by
  funext p
  cases p with
  | head m =>
      rcases eq_or_ne m l with rfl | hne
      · cases a <;> simp [Lists.restore, Lists.view, Lists.place]
      · cases a <;> simp [Lists.restore, Lists.place, hne]
  | next y =>
      cases a <;> simp [Lists.restore, Lists.view, Lists.place, Function.update_apply]

theorem view_update_self (s : Lists κ ι) (l : κ) (a : Slot ι) (v : Option ι) :
    (Lists.view (Function.update s (Lists.place l a) v) l).cells =
      Function.update (s.view l).cells a v := by
  funext b
  cases a <;> cases b <;> simp [Lists.view, Lists.place, Function.update_apply]

theorem view_update_head (s : Lists κ ι) (l m : κ) (v : Option ι) :
    (Lists.view (Function.update s (.head l) v) m).cells =
      if m = l then Function.update (s.view m).cells .head v else (s.view m).cells := by
  funext a
  rcases eq_or_ne m l with rfl | hne
  · cases a <;> simp [Lists.view, Lists.place]
  · cases a <;> simp [Lists.view, Lists.place, hne]

theorem view_update_next (s : Lists κ ι) (x : ι) (m : κ) (v : Option ι) :
    (Lists.view (Function.update s (.next x) v) m).cells =
      Function.update (s.view m).cells (.next x) v := by
  funext a
  cases a <;> simp [Lists.view, Lists.place, Function.update_apply]

/-- What `push_back` does if its assertion holds and its loop ends. -/
theorem next_pushBack
    (hguard : (lists fuel).guard s ⟨l, .back item⟩) :
    s (.next item) = none ∧
      ∃ a, seek (s.view l).cells fuel .head = some a ∧
        (lists fuel).next s ⟨l, .back item⟩ =
          Function.update s (Lists.place l a) (some item) := by
  change ((s.view l).pushBack fuel item).stuck = false at hguard
  change _ ∧ ∃ a, _ ∧ s.restore l ((s.view l).pushBack fuel item) = _
  rw [State.pushBack] at hguard ⊢
  split at hguard
  · cases hguard
  · next hin =>
      refine ⟨by simpa [State.inList, Lists.view, Lists.place] using hin, ?_⟩
      rw [if_neg hin]
      split at hguard
      · next a ha =>
          simp only [ha]
          exact ⟨a, rfl, restore_update ..⟩
      · cases hguard

/-- What `push_front` does if its assertion holds. -/
theorem next_pushFront
    (hguard : (lists fuel).guard s ⟨l, .front item⟩) :
    s (.next item) = none ∧
      (lists fuel).next s ⟨l, .front item⟩ =
        Function.update (Function.update s (.next item) (s (.head l))) (.head l)
          (some item) := by
  change ((s.view l).pushFront item).stuck = false at hguard
  change _ ∧ s.restore l ((s.view l).pushFront item) = _
  rw [State.pushFront] at hguard ⊢
  split at hguard
  · cases hguard
  · next hin =>
      refine ⟨by simpa [State.inList, Lists.view, Lists.place] using hin, ?_⟩
      rw [if_neg hin]
      funext p
      cases p with
      | head m =>
          rcases eq_or_ne m l with rfl | hne
          · simp [Lists.restore]
          · simp [Lists.restore, hne]
      | next y =>
          simp [Lists.restore, Lists.view, Lists.place, Function.update_apply]

/-- Up to the order of the places, a push makes an empty place point to its item. -/
theorem fills_place
    (hguard : (lists fuel).guard s e) :
    ∃ (f : Equiv.Perm (Place κ ι)) (b : Place κ ι),
      s b = none ∧
        ∀ c, (lists fuel).next s e (f c) = Function.update s b (some e.item) c := by
  obtain ⟨l, push⟩ := e
  cases push with
  | back item =>
      obtain ⟨-, a, ha, hnext⟩ := next_pushBack hguard
      refine ⟨Equiv.refl _, Lists.place l a, empty_of_seek ha, fun c => ?_⟩
      rw [hnext]
      rfl
  | front item =>
      obtain ⟨hempty, hnext⟩ := next_pushFront hguard
      refine ⟨Equiv.swap (.head l) (.next item), .next item, hempty, fun c => ?_⟩
      rw [hnext]
      rcases eq_or_ne c (.head l) with rfl | hhead
      · simp
      · rcases eq_or_ne c (.next item) with rfl | hitem
        · simp [ListPush.item, Push.node]
        · simp [Equiv.swap_apply_of_ne_of_ne hhead hitem, hhead, hitem]

end Steps

section Runs

variable {tr : List (ListPush κ ι)} {s : Lists κ ι} {e : ListPush κ ι} {l : κ} {x : ι}
variable {fuel : Nat}

/-- Links are never taken back: an item is pointed to once it was pushed. -/
theorem pointed_iff
    (hrun : (lists fuel).Run tr s) :
    (∃ p, s p = some x) ↔ x ∈ tr.map ListPush.item := by
  induction hrun with
  | start hs =>
      cases hs
      simp
  | @step tr s e hrun hguard ih =>
      obtain ⟨f, b, hb, hnext⟩ := fills_place hguard
      rw [List.map_append, List.mem_append, ← ih, List.map_singleton, List.mem_singleton]
      constructor
      · rintro ⟨p, hp⟩
        rw [← f.apply_symm_apply p, hnext, Function.update_apply] at hp
        split at hp
        · exact .inr (Option.some.inj hp).symm
        · exact .inl ⟨_, hp⟩
      · rintro (⟨c, hc⟩ | rfl)
        · have hne : c ≠ b := by
            rintro rfl
            rw [hb] at hc
            cases hc
          exact ⟨f c, by rw [hnext, Function.update_of_ne hne, hc]⟩
        · exact ⟨f b, by rw [hnext, Function.update_self]⟩

/-- An entry is linked twice exactly if its item was pushed twice. -/
theorem unshared_iff
    (hrun : (lists fuel).Run tr s) :
    Unshared s ↔ (tr.map ListPush.item).Nodup := by
  induction hrun with
  | start hs =>
      cases hs
      exact iff_of_true (fun _ _ _ h => by cases h) List.nodup_nil
  | @step tr s e hrun hguard ih =>
      obtain ⟨f, b, hb, hnext⟩ := fills_place hguard
      rw [unshared_comp_iff f hnext, unshared_update_iff hb, ih, List.map_append,
        List.map_singleton, ← List.concat_eq_append, List.nodup_concat]
      have hnew : (∀ c, s c ≠ some e.item) ↔ e.item ∉ tr.map ListPush.item := by
        rw [← pointed_iff hrun]
        simp
      rw [hnew, and_comm]

omit [DecidableEq ι] in
theorem contentsOf_append_singleton (tr : List (ListPush κ ι)) (e : ListPush κ ι) (m : κ) :
    contentsOf (tr ++ [e]) m =
      if e.list = m then e.push.apply (contentsOf tr m) else contentsOf tr m := by
  rw [contentsOf, List.filter_append]
  split
  · next heq =>
      simp [heq, contentsOf, sequence_append_singleton]
  · next hne =>
      simp [hne, contentsOf]

omit [DecidableEq ι] in
theorem mem_contentsOf :
    x ∈ contentsOf tr l ↔ ∃ e ∈ tr, e.list = l ∧ e.item = x := by
  rw [contentsOf, (sequence_perm _).mem_iff]
  simp [ListPush.item, and_assoc]

omit [DecidableEq ι] in
theorem mem_items_of_contentsOf
    (hx : x ∈ contentsOf tr l) :
    x ∈ tr.map ListPush.item := by
  obtain ⟨e, he, -, rfl⟩ := mem_contentsOf.mp hx
  exact List.mem_map_of_mem he

omit [DecidableEq ι] in
/-- Items that are pushed once are in one list. -/
theorem list_eq_of_mem
    {m : κ}
    (hdistinct : (tr.map ListPush.item).Nodup)
    (hl : x ∈ contentsOf tr l)
    (hm : x ∈ contentsOf tr m) :
    l = m := by
  obtain ⟨e, he, rfl, rfl⟩ := mem_contentsOf.mp hl
  obtain ⟨f, hf, rfl, hfe⟩ := mem_contentsOf.mp hm
  rw [List.inj_on_of_nodup_map hdistinct he hf hfe.symm]

/-- Every list is the sequence of its pushes, and no other item points anywhere. -/
structure Holds (tr : List (ListPush κ ι)) (s : Lists κ ι) : Prop where
  chain : ∀ l, Chain (s.view l).cells .head (contentsOf tr l)
  fresh : ∀ x, x ∉ tr.map ListPush.item → s (.next x) = none

/-- A push onto another list changes nothing that this one goes through. -/
theorem Holds.chain_of_ne
    {m : κ} {a : Slot ι}
    (h : Holds tr s)
    (hdistinct : (tr.map ListPush.item).Nodup)
    (hne : m ≠ l)
    (ha : a ∈ slots .head (contentsOf tr l))
    (v : Option ι) :
    Chain (Lists.view (Function.update s (Lists.place l a) v) m).cells .head
      (contentsOf tr m) := by
  cases a with
  | head =>
      rw [Lists.place, view_update_head, if_neg hne]
      exact h.chain m
  | next x =>
      rw [Lists.place, view_update_next]
      refine (h.chain m).frame ?_ v
      intro hmem
      have hl : x ∈ contentsOf tr l := by simpa [slots] using ha
      have hm : x ∈ contentsOf tr m := by simpa [slots] using hmem
      exact hne (list_eq_of_mem hdistinct hm hl)

theorem Holds.pushBack
    {item : ι}
    (h : Holds tr s)
    (hdistinct : (tr.map ListPush.item).Nodup)
    (hitem : item ∉ tr.map ListPush.item)
    (hguard : (lists fuel).guard s ⟨l, .back item⟩) :
    Holds (tr ++ [⟨l, .back item⟩]) ((lists fuel).next s ⟨l, .back item⟩) := by
  obtain ⟨hempty, a, ha, hnext⟩ := next_pushBack hguard
  obtain rfl : a = lastSlot .head (contentsOf tr l) := (h.chain l).seek_eq ha
  have hlast := lastSlot_mem .head (contentsOf tr l)
  have hout : item ∉ contentsOf tr l := fun hmem => hitem (mem_items_of_contentsOf hmem)
  rw [hnext]
  constructor
  · intro m
    rw [contentsOf_append_singleton]
    rcases eq_or_ne m l with rfl | hne
    · rw [if_pos rfl, view_update_self]
      refine (h.chain m).concat (nodup_slots (h.chain m).nodup) ?_ hempty
      simpa [slots] using hout
    · rw [if_neg hne.symm]
      exact h.chain_of_ne hdistinct hne hlast _
  · intro x hx
    rw [List.map_append, List.mem_append, not_or] at hx
    have hplace : Place.next x ≠ Lists.place l (lastSlot .head (contentsOf tr l)) := by
      intro heq
      generalize lastSlot .head (contentsOf tr l) = a at hlast heq
      cases a with
      | head =>
          cases heq
      | next y =>
          cases heq
          exact hx.1 (mem_items_of_contentsOf (by simpa [slots] using hlast))
    rw [Function.update_of_ne hplace]
    exact h.fresh x hx.1

theorem Holds.pushFront
    {item : ι}
    (h : Holds tr s)
    (hitem : item ∉ tr.map ListPush.item)
    (hguard : (lists fuel).guard s ⟨l, .front item⟩) :
    Holds (tr ++ [⟨l, .front item⟩]) ((lists fuel).next s ⟨l, .front item⟩) := by
  obtain ⟨-, hnext⟩ := next_pushFront hguard
  have hout (m : κ) : item ∉ contentsOf tr m := fun hmem => hitem (mem_items_of_contentsOf hmem)
  rw [hnext]
  constructor
  · intro m
    rw [contentsOf_append_singleton, view_update_head, view_update_next]
    rcases eq_or_ne m l with rfl | hne
    · rw [if_pos rfl, if_pos rfl]
      exact (h.chain m).cons (hout m)
    · rw [if_neg hne.symm, if_neg hne]
      refine (h.chain m).frame ?_ _
      simpa [slots] using hout m
  · intro x hx
    rw [List.map_append, List.mem_append, not_or] at hx
    have hne : x ≠ item := by simpa [ListPush.item, Push.node] using hx.2
    rw [Function.update_of_ne (by simp), Function.update_of_ne (by simpa using hne)]
    exact h.fresh x hx.1

/-- Without repetition every list is what its pushes say. -/
theorem holds_of_run
    (hrun : (lists fuel).Run tr s)
    (hdistinct : (tr.map ListPush.item).Nodup) :
    Holds tr s := by
  induction hrun with
  | start hs =>
      cases hs
      exact ⟨fun _ => rfl, fun _ _ => rfl⟩
  | @step tr s e hrun hguard ih =>
      rw [List.map_append, List.map_singleton, ← List.concat_eq_append,
        List.nodup_concat] at hdistinct
      obtain ⟨hitem, hpast⟩ := hdistinct
      obtain ⟨l, push⟩ := e
      cases push with
      | back item =>
          exact (ih hpast).pushBack hpast hitem hguard
      | front item =>
          exact (ih hpast).pushFront hitem hguard

/-- A list that has seen a push is not empty. -/
theorem exists_nonempty
    (hrun : (lists fuel).Run tr s)
    (hne : tr ≠ []) :
    ∃ l, s (.head l) ≠ none := by
  cases hrun with
  | start hs =>
      exact absurd rfl hne
  | @step tr s e hrun hguard =>
      obtain ⟨l, push⟩ := e
      refine ⟨l, ?_⟩
      cases push with
      | back item =>
          obtain ⟨-, a, ha, hnext⟩ := next_pushBack hguard
          rw [hnext]
          cases a with
          | head =>
              simp [Lists.place]
          | next x =>
              intro hhead
              have hstart : (s.view l).cells .head = none := by
                change s (.head l) = none
                simpa [Lists.place] using hhead
              cases fuel with
              | zero =>
                  cases ha
              | succ fuel =>
                  simp [seek, hstart] at ha
      | front item =>
          obtain ⟨-, hnext⟩ := next_pushFront hguard
          rw [hnext]
          simp

omit [DecidableEq κ] [DecidableEq ι] in
/-- The last entry of a list is linked, but it does not count as such. -/
theorem not_inListExact
    (hhead : s (.head l) ≠ none)
    (hfinite : Finite s) :
    ¬InListExact s := by
  intro hexact
  obtain ⟨xs, hchain, -⟩ := hfinite l
  have hstart : (s.view l).cells .head = s (.head l) := rfl
  rcases List.eq_nil_or_concat xs with rfl | ⟨ys, x, rfl⟩
  · exact hhead (hstart.symm.trans hchain)
  · rw [List.concat_eq_append] at hchain
    have hlast : (s.view l).cells (.next x) = none := by
      have hempty := hchain.lastSlot_empty
      rwa [lastSlot_append_singleton] at hempty
    have hlinked : ∃ m, Reaches (s.view m).cells .head x :=
      ⟨l, hchain.reaches_iff.mpr (by simp)⟩
    have hin := (hexact l x).mpr hlinked
    rw [State.inList, hlast] at hin
    cases hin

/--
In every state that pushes reach which have all passed their assertions: the guard is
exact, no entry is linked twice and all chains are finite only if there was no push; the
last two hold exactly if no item was pushed twice.
-/
theorem guard_protects_iff
    (hrun : (lists fuel).Run tr s) :
    (Protected s ↔ tr = []) ∧
      (Unshared s ∧ Finite s ↔ (tr.map ListPush.item).Nodup) := by
  constructor
  · constructor
    · intro h
      by_contra hne
      obtain ⟨l, hhead⟩ := exists_nonempty hrun hne
      exact not_inListExact hhead h.finite h.inList
    · rintro rfl
      have hstart := holds_of_run hrun List.nodup_nil
      refine ⟨fun l x => ?_, (unshared_iff hrun).mpr List.nodup_nil, fun l => ?_⟩
      · refine iff_of_false ?_ ?_
        · have hempty : (s.view l).cells (.next x) = none := hstart.fresh x List.not_mem_nil
          simp [State.inList, hempty]
        · rintro ⟨m, hm⟩
          cases (hstart.chain m).reaches_iff.mp hm
      · exact ⟨[], hstart.chain l, List.nodup_nil⟩
  · constructor
    · exact fun h => (unshared_iff hrun).mp h.1
    · intro hdistinct
      refine ⟨(unshared_iff hrun).mpr hdistinct, fun l => ?_⟩
      have hchain := (holds_of_run hrun hdistinct).chain l
      exact ⟨_, hchain, hchain.nodup⟩

instance decidableListsGuard (fuel : Nat) (s : Lists κ ι) (e : ListPush κ ι) :
    Decidable ((lists fuel).guard s e) :=
  inferInstanceAs (Decidable ((s.run fuel e).stuck = false))

/-- Three items on two lists. -/
def threePushes : List (ListPush Bool Nat) :=
  [⟨false, .back 1⟩, ⟨true, .front 2⟩, ⟨false, .back 3⟩]

theorem guard_protects_threePushes :
    ∃ s, (lists 3).Run threePushes s ∧ Unshared s ∧ Finite s ∧ ¬Protected s ∧
      contentsOf threePushes false = [1, 3] := by
  have hrun : (lists 3).Run threePushes _ := .of_enabled rfl (by decide)
  obtain ⟨hnever, hdistinct⟩ := guard_protects_iff hrun
  obtain ⟨hunshared, hfinite⟩ := hdistinct.mpr (by decide)
  refine ⟨_, hrun, hunshared, hfinite, ?_, rfl⟩
  rw [hnever]
  decide

/-- One item, pushed twice: after the first push it does not count as linked. -/
theorem not_guard_protects :
    ∃ s s' : Lists Unit Nat,
      (lists 2).Run [⟨(), .back 1⟩] s ∧ s (.head ()) = some 1 ∧
        (s.view ()).inList (.next 1) = false ∧ ¬InListExact s ∧
      (lists 2).Run [⟨(), .back 1⟩, ⟨(), .back 1⟩] s' ∧ s' (.next 1) = some 1 ∧
        ¬Unshared s' ∧ ¬Finite s' := by
  have hfirst : (lists 2).Run [(⟨(), .back 1⟩ : ListPush Unit Nat)] _ :=
    .of_enabled rfl (by decide)
  have hsecond : (lists 2).Run [(⟨(), .back 1⟩ : ListPush Unit Nat), ⟨(), .back 1⟩] _ :=
    .of_enabled rfl (by decide)
  refine ⟨_, _, hfirst, rfl, rfl, ?_, hsecond, rfl, ?_, ?_⟩
  · have hchain := (holds_of_run hfirst (by decide)).chain ()
    refine not_inListExact (l := ()) (by decide) fun l => ?_
    exact ⟨_, hchain, hchain.nodup⟩
  · rw [unshared_iff hsecond]
    decide
  · intro hfinite
    obtain ⟨xs, hchain, -⟩ := hfinite ()
    exact not_chain_of_loop (x := 1) (.here rfl) rfl hchain

end Runs

end SList
end Ptl

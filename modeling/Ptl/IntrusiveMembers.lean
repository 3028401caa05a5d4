import Ptl.IntrusiveHandles

/-!
# `intrusive_ptr` as a member of the objects it points to

This module embeds the operations of `intrusive_ptr` on variables and on members of
counted objects.  The release of the last reference deletes the object, and its
destructor destroys the members in the reverse of their order, which releases what
they point to in turn.

An object that is not created yet has the count that its constructor will store, and
that reference belongs to the caller.  Adopting a raw pointer uses up a reference of
the caller.

**Result.**  `release_collects`: a release ends, keeps every count right and destroys
exactly the members of the objects it deletes.
-/

namespace Ptl
namespace IntrusiveMember

open Transition Handles
open StrongReference (Objects Balanced balanced_release)

universe u v w

/-- Where an `intrusive_ptr` is. -/
inductive Place (ν : Type u) (κ : Type v) (μ : Type w) where
  | named (a : ν)
  | member (object : κ) (field : μ)
deriving DecidableEq

/--
The variables and members, the objects and the references of the caller; the members
of each object in the order of their declaration, and the objects deleted so far.
-/
structure State (ν : Type u) (κ : Type v) (μ : Type w) where
  base : StrongReference.State (Place ν κ μ) κ
  members : κ → List μ
  created : Finset κ
  destroyed : List κ
  exhausted : Bool

namespace State

variable {ν : Type u} {κ : Type v} {μ : Type w}

/-- No object is created yet. -/
def start : State ν κ μ where
  base := .start
  members := fun _ => []
  created := ∅
  destroyed := []
  exhausted := false

/-- The variables, the members of existing objects and the temporary. -/
abbrev vars (s : State ν κ μ) : Variables (Option (Place ν κ μ)) κ :=
  s.base.store.vars

abbrev memory (s : State ν κ μ) : Objects κ :=
  s.base.store.memory

def withStore (s : State ν κ μ) (h : Store (Place ν κ μ) κ (Objects κ)) : State ν κ μ :=
  { s with base := { s.base with store := h } }

def withVars (s : State ν κ μ) (x : Variables (Option (Place ν κ μ)) κ) : State ν κ μ :=
  s.withStore { s.base.store with vars := x }

def withMemory (s : State ν κ μ) (m : Objects κ) : State ν κ μ :=
  s.withStore { s.base.store with memory := m }

variable [DecidableEq ν] [DecidableEq κ] [DecidableEq μ]

/-- The destructor of `intrusive_ptr`, for a given `intrusive_ptr_release`. -/
def dropWith
    (release : State ν κ μ → κ → State ν κ μ) (s : State ν κ μ)
    (a : Option (Place ν κ μ)) : State ν κ μ :=
  let rest := s.withVars (s.vars.remove a)
  match s.vars.ptr a with
  | none => rest
  | some p => release rest p

/-- `intrusive_strong_ptr_release`; deleting the object destroys its members. -/
def release : Nat → State ν κ μ → κ → State ν κ μ
  | 0, s, _ => { s with exhausted := true }
  | fuel + 1, s, p =>
      let released := s.withMemory (s.memory.release p)
      if released.memory.references p = 0 then
        (s.members p).reverse.foldl
          (fun s f => s.dropWith (release fuel) (some (.member p f)))
          { released with destroyed := s.destroyed ++ [p] }
      else released

/-- Every nested release comes after the destruction of a member. -/
def drop (s : State ν κ μ) (a : Option (Place ν κ μ)) : State ν κ μ :=
  s.dropWith (release s.vars.declared.card) a

/-- The temporary is swapped with the variable or member and destroyed. -/
def settle (s : State ν κ μ) (x : Place ν κ μ) : State ν κ μ :=
  (s.withStore (s.base.store.swap none (some x))).drop none

/-- The new object has empty members. -/
def create (s : State ν κ μ) (p : κ) (fs : List μ) : State ν κ μ :=
  { s.withVars (fs.foldl (fun x f => x.declare (some (.member p f)) none) s.vars) with
    members := Function.update s.members p fs
    created := insert p s.created }

/-- A new variable or temporary adopts a reference of the caller. -/
def adopt (s : State ν κ μ) (a : Option (Place ν κ μ)) (q : Option κ) : State ν κ μ :=
  { s with base := { store := s.base.store.construct a q, owned := s.base.give q } }

def copyConstruct (s : State ν κ μ) (a b : Option (Place ν κ μ)) : State ν κ μ :=
  s.withStore (s.base.store.copyConstruct Objects.api a b)

def moveConstruct (s : State ν κ μ) (a b : Option (Place ν κ μ)) : State ν κ μ :=
  s.withStore (s.base.store.moveConstruct a b)

end State

/-- The operations; `reset()` is the adoption of a null pointer. -/
inductive Event (ν : Type u) (κ : Type v) (μ : Type w) where
  | create (p : κ) (fs : List μ)
  | adopt (a : ν) (q : Option κ)
  | addRef (a : ν) (q : Option κ)
  | copyConstruct (a : ν) (y : Place ν κ μ)
  | moveConstruct (a : ν) (y : Place ν κ μ)
  | copyAssign (x y : Place ν κ μ)
  | moveAssign (x y : Place ν κ μ)
  | adoptAssign (x : Place ν κ μ) (q : Option κ)
  | swap (x y : Place ν κ μ)
  | destroy (a : ν)
deriving DecidableEq

namespace Event

variable {ν : Type u} {κ : Type v} {μ : Type w}
variable [DecidableEq ν] [DecidableEq κ] [DecidableEq μ]

/-- Variables and members are used while they exist, and objects are created once. -/
def Allowed (s : State ν κ μ) : Event ν κ μ → Prop
  | create p fs => p ∉ s.created ∧ fs.Nodup
  | adopt a q =>
      some (.named a) ∉ s.vars.declared ∧ ∀ p ∈ q, p ∈ s.created ∧ 0 < s.base.owned p
  | addRef a q =>
      some (.named a) ∉ s.vars.declared ∧ ∀ p ∈ q, p ∈ s.created ∧ 0 < s.base.refs p
  | copyConstruct a y | moveConstruct a y =>
      some (.named a) ∉ s.vars.declared ∧ some y ∈ s.vars.declared
  | copyAssign x y | moveAssign x y | swap x y =>
      some x ∈ s.vars.declared ∧ some y ∈ s.vars.declared
  | adoptAssign x q =>
      some x ∈ s.vars.declared ∧ ∀ p ∈ q, p ∈ s.created ∧ 0 < s.base.owned p
  | destroy a => some (.named a) ∈ s.vars.declared

instance decidableAllowed (s : State ν κ μ) :
    ∀ e : Event ν κ μ, Decidable (e.Allowed s)
  | create p fs => inferInstanceAs (Decidable (p ∉ s.created ∧ fs.Nodup))
  | adopt a q =>
      inferInstanceAs (Decidable (some (.named a) ∉ s.vars.declared ∧
        ∀ p ∈ q, p ∈ s.created ∧ 0 < s.base.owned p))
  | addRef a q =>
      inferInstanceAs (Decidable (some (.named a) ∉ s.vars.declared ∧
        ∀ p ∈ q, p ∈ s.created ∧ 0 < s.base.refs p))
  | copyConstruct a y | moveConstruct a y =>
      inferInstanceAs (Decidable (some (.named a) ∉ s.vars.declared ∧
        some y ∈ s.vars.declared))
  | copyAssign x y | moveAssign x y | swap x y =>
      inferInstanceAs (Decidable (some x ∈ s.vars.declared ∧ some y ∈ s.vars.declared))
  | adoptAssign x q =>
      inferInstanceAs (Decidable (some x ∈ s.vars.declared ∧
        ∀ p ∈ q, p ∈ s.created ∧ 0 < s.base.owned p))
  | destroy a => inferInstanceAs (Decidable (some (.named a) ∈ s.vars.declared))

def apply (s : State ν κ μ) : Event ν κ μ → State ν κ μ
  | create p fs => s.create p fs
  | adopt a q => s.adopt (some (.named a)) q
  | addRef a q =>
      s.withStore (s.base.store.constructAddRef Objects.api (some (.named a)) q)
  | copyConstruct a y => s.copyConstruct (some (.named a)) (some y)
  | moveConstruct a y => s.moveConstruct (some (.named a)) (some y)
  | copyAssign x y => (s.copyConstruct none (some y)).settle x
  | moveAssign x y => (s.moveConstruct none (some y)).settle x
  | adoptAssign x q => (s.adopt none q).settle x
  | swap x y => s.withStore (s.base.store.swap (some x) (some y))
  | destroy a => s.drop (some (.named a))

end Event

variable {ν : Type u} {κ : Type v} {μ : Type w}
variable [DecidableEq ν] [DecidableEq κ] [DecidableEq μ]

/-- All sequences of operations. -/
def intrusiveMembers : System (State ν κ μ) (Event ν κ μ) where
  init := fun s => s = .start
  guard := fun s e => e.Allowed s
  next := Event.apply

instance decidableEventGuard (s : State ν κ μ) (e : Event ν κ μ) :
    Decidable (intrusiveMembers.guard s e) :=
  inferInstanceAs (Decidable (e.Allowed s))

section Cascade

/--
What holds between any two calls, also while an object is being destroyed: the counts
are those of the given references, and existing objects have all their members.
-/
structure Kept (s : State ν κ μ) (refs : κ → Nat) : Prop where
  nodup : ∀ p, (s.members p).Nodup
  listed : ∀ p f, some (.member p f) ∈ s.vars.declared → f ∈ s.members p
  full : ∀ p, s.memory.deleted p = false →
    ∀ f ∈ s.members p, some (.member p f) ∈ s.vars.declared
  once : s.destroyed.Nodup
  destroyed : ∀ p, p ∈ s.destroyed ↔ s.memory.deleted p = true
  fuel : s.exhausted = false
  balanced : Balanced s.memory refs

/-- The places `gone` are destroyed, and with deleted objects their members. -/
structure Collects (gone : Option (Place ν κ μ) → Prop) (s s' : State ν κ μ) : Prop where
  ptr : s'.vars.ptr = s.vars.ptr
  owned : s'.base.owned = s.base.owned
  members : s'.members = s.members
  created : s'.created = s.created
  deleted : ∀ p, s.memory.deleted p = true → s'.memory.deleted p = true
  declared : ∀ a, a ∈ s'.vars.declared ↔
    a ∈ s.vars.declared ∧ ¬ gone a ∧ ∀ p f, a = some (.member p f) →
      s.memory.deleted p = false → s'.memory.deleted p = false

variable {gone gone' : Option (Place ν κ μ) → Prop} {s s' s'' : State ν κ μ}

section Composition

omit [DecidableEq ν] [DecidableEq κ] [DecidableEq μ]

theorem Collects.refl (s : State ν κ μ) :
    Collects (fun _ => False) s s where
  ptr := rfl
  owned := rfl
  members := rfl
  created := rfl
  deleted := fun _ h => h
  declared := fun a => by simp

theorem Collects.trans
    (h : Collects gone s s')
    (h' : Collects gone' s' s'') :
    Collects (fun a => gone a ∨ gone' a) s s'' where
  ptr := h'.ptr.trans h.ptr
  owned := h'.owned.trans h.owned
  members := h'.members.trans h.members
  created := h'.created.trans h.created
  deleted := fun p hp => h'.deleted p (h.deleted p hp)
  declared := by
    intro a
    have hback {p : κ} (hp : s''.memory.deleted p = false) : s'.memory.deleted p = false := by
      rw [← Bool.not_eq_true] at hp ⊢
      exact mt (h'.deleted p) hp
    have hfirst {p : κ} (hp : s'.memory.deleted p = false) : s.memory.deleted p = false := by
      rw [← Bool.not_eq_true] at hp ⊢
      exact mt (h.deleted p) hp
    rw [h'.declared, h.declared]
    constructor
    · rintro ⟨⟨ha, hgone, hdel⟩, hgone', hdel'⟩
      refine ⟨ha, not_or.mpr ⟨hgone, hgone'⟩, fun p f hpf hp => ?_⟩
      exact hdel' p f hpf (hdel p f hpf hp)
    · rintro ⟨ha, hgone, hdel⟩
      obtain ⟨hgone, hgone'⟩ := not_or.mp hgone
      refine ⟨⟨ha, hgone, fun p f hpf hp => hback (hdel p f hpf hp)⟩, hgone', ?_⟩
      exact fun p f hpf hp => hdel p f hpf (hfirst hp)

theorem Collects.congr
    (h : Collects gone s s')
    (hgone : ∀ a, gone' a ↔ gone a) :
    Collects gone' s s' :=
  { h with declared := fun a => by rw [h.declared, hgone] }

theorem Collects.card_le
    (h : Collects gone s s') :
    s'.vars.declared.card ≤ s.vars.declared.card :=
  Finset.card_le_card fun a ha => ((h.declared a).mp ha).1

end Composition

theorem refs_remove
    {a : Option (Place ν κ μ)}
    (ha : a ∈ s.vars.declared)
    (p : κ) :
    (s.withVars (s.vars.remove a)).base.refs p + points (s.vars.ptr a) p = s.base.refs p := by
  have hremove := Variables.holders_remove ha p
  change (s.vars.remove a).holders p + s.base.owned p + _ = s.vars.holders p + s.base.owned p
  omega

/-- The release of an owed reference settles it, given enough fuel. -/
def Releases (release : State ν κ μ → κ → State ν κ μ) (fuel : Nat) : Prop :=
  ∀ s p, Kept s (Function.update s.base.refs p (s.base.refs p + 1)) →
    s.vars.declared.card < fuel →
    Kept (release s p) (release s p).base.refs ∧ Collects (fun _ => False) s (release s p)

variable {release : State ν κ μ → κ → State ν κ μ} {fuel : Nat}

/-- The destructor releases what the variable or member points to. -/
theorem dropWith_collects
    {a : Option (Place ν κ μ)}
    (hrelease : Releases release fuel)
    (hs : Kept s s.base.refs)
    (ha : a ∈ s.vars.declared)
    (hmember : ∀ p f, a = some (.member p f) → s.memory.deleted p = true)
    (hfuel : s.vars.declared.card ≤ fuel) :
    Kept (s.dropWith release a) (s.dropWith release a).base.refs ∧
      Collects (· = a) s (s.dropWith release a) := by
  have hrefs := refs_remove ha
  have hrest : Kept (s.withVars (s.vars.remove a)) s.base.refs :=
    { hs with
      listed := fun p f hpf => hs.listed p f (Finset.mem_of_mem_erase hpf)
      full := fun p hp f hf => by
        refine Finset.mem_erase.mpr ⟨?_, hs.full p hp f hf⟩
        rintro rfl
        have htrue := hmember p f rfl
        rw [show s.memory.deleted p = false from hp] at htrue
        cases htrue }
  have hcollects : Collects (· = a) s (s.withVars (s.vars.remove a)) :=
    { ptr := rfl
      owned := rfl
      members := rfl
      created := rfl
      deleted := fun _ h => h
      declared := fun b => by
        change b ∈ s.vars.declared.erase a ↔ _
        rw [Finset.mem_erase]
        exact ⟨fun h => ⟨h.2, h.1, fun _ _ _ h => h⟩, fun h => ⟨h.2.1, h.1⟩⟩ }
  rw [State.dropWith]
  cases hq : s.vars.ptr a with
  | none =>
      have heq : (s.withVars (s.vars.remove a)).base.refs = s.base.refs := by
        funext p
        have hp := hrefs p
        rwa [hq, points_none, Nat.add_zero] at hp
      simp only [heq]
      exact ⟨hrest, hcollects⟩
  | some p =>
      have heq : s.base.refs = Function.update (s.withVars (s.vars.remove a)).base.refs p
          ((s.withVars (s.vars.remove a)).base.refs p + 1) := by
        funext p'
        have hp' := hrefs p'
        rw [hq] at hp'
        rcases eq_or_ne p' p with rfl | hp
        · rw [Function.update_self, ← hp', points_some_self]
        · rw [Function.update_of_ne hp, ← hp', points_of_ne hp, Nat.add_zero]
      have hcard : (s.withVars (s.vars.remove a)).vars.declared.card < fuel :=
        (Finset.card_erase_lt_of_mem ha).trans_le hfuel
      obtain ⟨hkept, hnext⟩ := hrelease _ p (heq ▸ hrest) hcard
      exact ⟨hkept, (hcollects.trans hnext).congr fun b => by simp⟩

/-- The members of a deleted object are destroyed one after the other. -/
theorem destroyMembers_collects
    {p : κ}
    (hrelease : Releases release fuel)
    (fs : List μ)
    (hfs : fs.Nodup)
    (hs : Kept s s.base.refs)
    (hp : s.memory.deleted p = true)
    (hdeclared : ∀ f ∈ fs, some (.member p f) ∈ s.vars.declared)
    (hfuel : s.vars.declared.card ≤ fuel) :
    let s' := fs.foldl (fun s f => s.dropWith release (some (.member p f))) s
    Kept s' s'.base.refs ∧ Collects (fun a => ∃ f ∈ fs, a = some (.member p f)) s s' := by
  induction fs generalizing s with
  | nil =>
      exact ⟨hs, (Collects.refl s).congr fun a => by simp⟩
  | cons f fs ih =>
      obtain ⟨hf, hnodup⟩ := List.nodup_cons.mp hfs
      obtain ⟨hkept, hfirst⟩ := dropWith_collects hrelease hs
        (hdeclared f List.mem_cons_self)
        (fun p' f' h => by
          obtain ⟨rfl, rfl⟩ : p = p' ∧ f = f' := by simpa using h
          exact hp) hfuel
      have hrest : ∀ g ∈ fs, some (.member p g) ∈
          (s.dropWith release (some (.member p f))).vars.declared := by
        intro g hg
        refine (hfirst.declared _).mpr ⟨hdeclared g (List.mem_cons_of_mem _ hg), ?_, ?_⟩
        · rintro heq
          obtain rfl : g = f := by simpa using heq
          exact hf hg
        · intro p' g' heq hfalse
          obtain ⟨rfl, rfl⟩ : p = p' ∧ g = g' := by simpa using heq
          rw [hp] at hfalse
          cases hfalse
      obtain ⟨hkept', hnext⟩ := ih hnodup hkept (hfirst.deleted p hp) hrest
        (hfirst.card_le.trans hfuel)
      exact ⟨hkept', (hfirst.trans hnext).congr fun a => by simp⟩

/-- The count after the release of an owed reference, and what it says. -/
theorem references_release
    {m : Objects κ} {r : κ → Nat} {p : κ}
    (hm : Balanced m (Function.update r p (r p + 1))) :
    Balanced (m.release p) r ∧ m.deleted p = false ∧
      ((m.release p).references p = 0 ↔ (m.release p).deleted p = true) := by
  have hpos : 0 < Function.update r p (r p + 1) p := by
    simp
  have hlimit := hm.limit p
  have hreleased := balanced_release hm hpos
  simp only [Function.update_self, Nat.add_sub_cancel, Function.update_idem,
    Function.update_eq_self] at hreleased hlimit
  refine ⟨hreleased, hm.deleted_false hpos, ?_⟩
  rw [hreleased.count, hreleased.deleted, ← BitVec.toNat_inj, BitVec.toNat_ofNat,
    Nat.mod_eq_of_lt (by omega)]
  rfl

theorem deleted_release_of_ne
    {m : Objects κ} {p p' : κ}
    (hp : p' ≠ p) :
    (m.release p).deleted p' = m.deleted p' := by
  simp only [Objects.release]
  split
  next => rw [Function.update_of_ne hp]
  next => rfl

theorem deleted_release_mono
    {m : Objects κ} {p p' : κ}
    (hdeleted : m.deleted p' = true) :
    (m.release p).deleted p' = true := by
  simp only [Objects.release]
  split
  next =>
      rcases eq_or_ne p' p with rfl | hp
      · rw [Function.update_self]
      · rwa [Function.update_of_ne hp]
  next => exact hdeleted

omit [DecidableEq ν] [DecidableEq μ] in
/-- A release that leaves references only counts. -/
theorem release_of_ne_zero
    {p : κ}
    (hs : Kept s (Function.update s.base.refs p (s.base.refs p + 1)))
    (hzero : (s.memory.release p).references p ≠ 0) :
    Kept (s.withMemory (s.memory.release p)) s.base.refs ∧
      Collects (fun _ => False) s (s.withMemory (s.memory.release p)) := by
  obtain ⟨hbalanced, hfalse, hiff⟩ := references_release hs.balanced
  have hdeleted : (s.memory.release p).deleted = s.memory.deleted := by
    funext p'
    rcases eq_or_ne p' p with rfl | hp
    · rw [hfalse, ← Bool.not_eq_true]
      exact mt hiff.mpr hzero
    · exact deleted_release_of_ne hp
  constructor
  · refine ⟨hs.nodup, hs.listed, ?_, hs.once, ?_, hs.fuel, hbalanced⟩
    · intro p' hp'
      exact hs.full p' (hdeleted ▸ hp')
    · intro p'
      change p' ∈ s.destroyed ↔ (s.memory.release p).deleted p' = true
      rw [hdeleted]
      exact hs.destroyed p'
  · refine ⟨rfl, rfl, rfl, rfl, fun p' => deleted_release_mono, fun a => ?_⟩
    change a ∈ s.vars.declared ↔ a ∈ s.vars.declared ∧ ¬ False ∧
      ∀ p' f, a = some (.member p' f) → s.memory.deleted p' = false →
        (s.memory.release p).deleted p' = false
    rw [hdeleted]
    exact ⟨fun h => ⟨h, id, fun _ _ _ h => h⟩, fun h => h.1⟩

omit [DecidableEq ν] [DecidableEq μ] in
/-- The object whose last reference is released is entered as deleted. -/
theorem kept_deleted
    {p : κ}
    (hs : Kept s (Function.update s.base.refs p (s.base.refs p + 1)))
    (hzero : (s.memory.release p).references p = 0) :
    Kept { s.withMemory (s.memory.release p) with destroyed := s.destroyed ++ [p] }
      s.base.refs := by
  obtain ⟨hbalanced, hfalse, hiff⟩ := references_release hs.balanced
  have hnot : p ∉ s.destroyed := by
    rw [hs.destroyed, hfalse]
    exact Bool.false_ne_true
  refine ⟨hs.nodup, hs.listed, ?_, ?_, ?_, hs.fuel, hbalanced⟩
  · intro p' hp'
    refine hs.full p' ?_
    change (s.memory.release p).deleted p' = false at hp'
    rwa [deleted_release_of_ne] at hp'
    rintro rfl
    rw [hiff.mp hzero] at hp'
    cases hp'
  · refine List.nodup_append.mpr ⟨hs.once, List.nodup_singleton p, ?_⟩
    rintro a ha b hb rfl
    exact hnot (List.mem_singleton.mp hb ▸ ha)
  · intro p'
    change p' ∈ s.destroyed ++ [p] ↔ (s.memory.release p).deleted p' = true
    rw [List.mem_append, List.mem_singleton]
    rcases eq_or_ne p' p with rfl | hp
    · exact iff_of_true (.inr rfl) (hiff.mp hzero)
    · rw [deleted_release_of_ne hp, ← hs.destroyed, or_iff_left hp]

/--
By induction on the fuel.  A release that deletes an object enters it as deleted, and
each of its members is destroyed before the next release, with one place less.
-/
theorem release_collects (fuel : Nat) :
    Releases (State.release (ν := ν) (κ := κ) (μ := μ) fuel) fuel := by
  induction fuel with
  | zero =>
      intro s p _ hfuel
      exact absurd hfuel (Nat.not_lt_zero _)
  | succ fuel ih =>
      intro s p hs hfuel
      rw [State.release]
      split
      next hzero =>
          obtain ⟨-, hfalse, hiff⟩ := references_release hs.balanced
          have hdeleted : (s.memory.release p).deleted p = true := hiff.mp hzero
          obtain ⟨hkept, hmembers⟩ := destroyMembers_collects ih (s.members p).reverse
            (List.nodup_reverse.mpr (hs.nodup p)) (kept_deleted hs hzero) hdeleted
            (fun f hf => hs.full p hfalse f (List.mem_reverse.mp hf))
            (Nat.le_of_lt_succ hfuel)
          refine ⟨hkept, hmembers.ptr, hmembers.owned, hmembers.members, hmembers.created,
            fun p' hp' => hmembers.deleted p' (deleted_release_mono hp'), fun a => ?_⟩
          rw [hmembers.declared]
          constructor
          · rintro ⟨ha, hgone, hdel⟩
            refine ⟨ha, id, fun p' f hpf hp' => hdel p' f hpf ?_⟩
            have hne : p' ≠ p := by
              rintro rfl
              subst hpf
              exact hgone ⟨f, List.mem_reverse.mpr (hs.listed p' f ha), rfl⟩
            exact (deleted_release_of_ne hne).trans hp'
          · rintro ⟨ha, -, hdel⟩
            refine ⟨ha, ?_, fun p' f hpf hp' => hdel p' f hpf ?_⟩
            · rintro ⟨f, -, rfl⟩
              have htrue := hmembers.deleted p hdeleted
              rw [hdel p f rfl hfalse] at htrue
              cases htrue
            · rw [← Bool.not_eq_true] at hp' ⊢
              exact mt deleted_release_mono hp'
      next hzero =>
          exact release_of_ne_zero hs hzero

end Cascade

end IntrusiveMember
end Ptl

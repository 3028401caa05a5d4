import Ptl.IntrusiveMembers
import Ptl.Reachability
import Mathlib.Data.Finset.Option

/-!
# What reference counting collects

The runs of `IntrusiveMembers`: objects are created, variables and members of type
`intrusive_ptr` are constructed, assigned, swapped and destroyed, and releases cascade
through the members of deleted objects.  Assignments are made of a temporary and a
swap, so their target may be a member of an object that the assignment deletes.

**Results.**
* `members_collected`: with fewer than 2^32 references to each object, every count is
  the number of references, no deleted object is touched, no object is deleted twice,
  and an object is left alive exactly if it can be reached from a variable, from an
  object of the caller or from a cycle of members.
-/

namespace Ptl
namespace IntrusiveMember

open Transition Handles Reachability
open StrongReference (Objects Balanced accounting_api)

universe u v w

variable {ν : Type u} {κ : Type v} {μ : Type w}
variable [DecidableEq ν] [DecidableEq κ] [DecidableEq μ]

section Operations

/-- Members belong to existing objects; objects to be created belong to the caller. -/
structure Sound (s : State ν κ μ) : Prop where
  kept : Kept s s.base.refs
  alive : ∀ p f, some (.member p f) ∈ s.vars.declared → s.memory.deleted p = false
  fresh : ∀ p ∉ s.created, 0 < s.base.owned p ∧ s.members p = []

variable {s : State ν κ μ} {a b : Option (Place ν κ μ)} {x : Place ν κ μ}

omit [DecidableEq ν] [DecidableEq μ] in
/-- An operation that deletes nothing and leaves the members where they are. -/
theorem Sound.of_base
    {base : StrongReference.State (Place ν κ μ) κ}
    (hs : Sound s)
    (hdeclared : ∀ p f,
      some (.member p f) ∈ base.store.vars.declared ↔ some (.member p f) ∈ s.vars.declared)
    (hdeleted : base.store.memory.deleted = s.memory.deleted)
    (howned : ∀ p ∉ s.created, base.owned p = s.base.owned p)
    (hbalanced : Balanced base.store.memory base.refs) :
    Sound { s with base := base } where
  kept :=
    { nodup := hs.kept.nodup
      listed := fun p f h => hs.kept.listed p f ((hdeclared p f).mp h)
      full := fun p hp f hf => by
        change base.store.memory.deleted p = false at hp
        exact (hdeclared p f).mpr (hs.kept.full p (hdeleted ▸ hp) f hf)
      once := hs.kept.once
      destroyed := fun p => by
        change p ∈ s.destroyed ↔ base.store.memory.deleted p = true
        rw [hdeleted]
        exact hs.kept.destroyed p
      fuel := hs.kept.fuel
      balanced := hbalanced }
  alive := fun p f h => by
    change base.store.memory.deleted p = false
    rw [hdeleted]
    exact hs.alive p f ((hdeclared p f).mp h)
  fresh := fun p hp => by
    obtain ⟨hpos, hnil⟩ := hs.fresh p hp
    exact ⟨(howned p hp).symm ▸ hpos, hnil⟩

theorem mem_insert_member
    (hnot : ∀ p f, a ≠ some (.member p f))
    (p : κ) (f : μ) :
    some (.member p f) ∈ insert a s.vars.declared ↔ some (.member p f) ∈ s.vars.declared := by
  rw [Finset.mem_insert, or_iff_right (hnot p f).symm]

theorem Sound.adopt
    {q : Option κ}
    (hs : Sound s)
    (ha : a ∉ s.vars.declared)
    (hnot : ∀ p f, a ≠ some (.member p f))
    (hq : ∀ p ∈ q, p ∈ s.created ∧ 0 < s.base.owned p) :
    Sound (s.adopt a q) := by
  refine hs.of_base (mem_insert_member hnot) rfl (fun p hp => ?_)
    (Accounting.construct hs.kept.balanced ha (eq_giveUp_add_points fun p hp => (hq p hp).2))
  cases q with
  | none =>
      rfl
  | some p' =>
      have hne : p ≠ p' := by
        rintro rfl
        exact hp (hq p rfl).1
      exact Function.update_of_ne hne _ _

omit [DecidableEq ν] [DecidableEq μ] in
theorem deleted_retain
    (m : Objects κ) (q : Option κ) :
    (Api.retain Objects.api m q).deleted = m.deleted := by
  cases q <;> rfl

theorem Sound.copyConstruct
    (hs : Sound s)
    (hfew : ∀ p, s.base.refs p < 2 ^ 32)
    (ha : a ∉ s.vars.declared)
    (hnot : ∀ p f, a ≠ some (.member p f))
    (hb : b ∈ s.vars.declared) :
    Sound (s.copyConstruct a b) :=
  hs.of_base (mem_insert_member hnot) (deleted_retain _ _) (fun _ _ => rfl)
    (accounting_api.copyConstruct hs.kept.balanced hfew ha hb)

theorem Sound.moveConstruct
    (hs : Sound s)
    (ha : a ∉ s.vars.declared)
    (hnot : ∀ p f, a ≠ some (.member p f))
    (hb : b ∈ s.vars.declared) :
    Sound (s.moveConstruct a b) :=
  hs.of_base (mem_insert_member hnot) rfl (fun _ _ => rfl)
    (Accounting.moveConstruct hs.kept.balanced ha hb)

theorem Sound.swap
    (hs : Sound s)
    (ha : a ∈ s.vars.declared)
    (hb : b ∈ s.vars.declared) :
    Sound (s.withStore (s.base.store.swap a b)) :=
  hs.of_base (fun _ _ => Iff.rfl) rfl (fun _ _ => rfl)
    (Accounting.swap hs.kept.balanced ha hb)

/-- The destructor of a variable or temporary collects what it held alive alone. -/
theorem Sound.drop
    (hs : Sound s)
    (ha : a ∈ s.vars.declared)
    (hnot : ∀ p f, a ≠ some (.member p f)) :
    Sound (s.drop a) ∧ Collects (· = a) s (s.drop a) := by
  obtain ⟨hkept, hcollects⟩ := dropWith_collects (release_collects s.vars.declared.card)
    hs.kept ha (fun p f h => absurd h (hnot p f)) le_rfl
  refine ⟨⟨hkept, fun p f h => ?_, fun p hp => ?_⟩, hcollects⟩
  · obtain ⟨hdeclared, -, hdeleted⟩ := (hcollects.declared _).mp h
    exact hdeleted p f rfl (hs.alive p f hdeclared)
  · have hfresh := hs.fresh p (hcollects.created ▸ hp)
    rw [← hcollects.owned, ← hcollects.members] at hfresh
    exact hfresh

/-- The end of an assignment: the temporary is gone, with what the target held alive. -/
theorem Sound.settle
    (hs : Sound s)
    (hnone : none ∈ s.vars.declared)
    (hx : some x ∈ s.vars.declared) :
    Sound (s.settle x) ∧ none ∉ (s.settle x).vars.declared := by
  obtain ⟨hsound, hcollects⟩ := (hs.swap hnone hx).drop (a := none) hnone fun _ _ => nofun
  exact ⟨hsound, fun h => ((hcollects.declared none).mp h).2.1 rfl⟩

/-- The members of a new object are declared and empty. -/
theorem declareMembers
    (p : κ) (fs : List μ) (hfs : fs.Nodup)
    (y : Variables (Option (Place ν κ μ)) κ)
    (hy : ∀ f ∈ fs, some (.member p f) ∉ y.declared) :
    let y' := fs.foldl (fun y f => y.declare (some (.member p f)) none) y
    (∀ a, a ∈ y'.declared ↔ a ∈ y.declared ∨ ∃ f ∈ fs, a = some (.member p f)) ∧
      ∀ p', y'.holders p' = y.holders p' := by
  induction fs generalizing y with
  | nil =>
      exact ⟨fun a => by simp, fun _ => rfl⟩
  | cons f fs ih =>
      obtain ⟨hf, hnodup⟩ := List.nodup_cons.mp hfs
      have hrest : ∀ g ∈ fs,
          some (.member p g) ∉ (y.declare (some (.member p f)) none).declared := by
        intro g hg hmem
        rcases Finset.mem_insert.mp hmem with heq | hold
        · obtain rfl : g = f := by simpa using heq
          exact hf hg
        · exact hy g (List.mem_cons_of_mem _ hg) hold
      obtain ⟨hdeclared, hholders⟩ := ih hnodup _ hrest
      refine ⟨fun a => ?_, fun p' => ?_⟩
      · rw [List.foldl_cons, hdeclared, Variables.declare, Finset.mem_insert]
        simp only [List.mem_cons, exists_eq_or_imp]
        tauto
      · have hdeclare := Variables.holders_declare (hy f List.mem_cons_self) none p'
        rw [points_none, Nat.add_zero] at hdeclare
        exact (hholders p').trans hdeclare

theorem Sound.create
    {p : κ} {fs : List μ}
    (hs : Sound s)
    (hp : p ∉ s.created)
    (hfs : fs.Nodup) :
    Sound (s.create p fs) ∧ (none ∉ s.vars.declared → none ∉ (s.create p fs).vars.declared) ∧
      (s.create p fs).base.refs = s.base.refs := by
  obtain ⟨hpos, hnil⟩ := hs.fresh p hp
  have hnew : ∀ f, some (.member p f) ∉ s.vars.declared := by
    intro f hf
    have hmem := hs.kept.listed p f hf
    rw [hnil] at hmem
    cases hmem
  obtain ⟨hdeclared, hholders⟩ := declareMembers p fs hfs s.vars fun f _ => hnew f
  have hrefs : (s.create p fs).base.refs = s.base.refs := by
    funext p'
    exact congrArg (· + s.base.owned p') (hholders p')
  have hfalse : s.memory.deleted p = false :=
    hs.kept.balanced.deleted_false (Nat.add_pos_right _ hpos)
  have hother : ∀ p' f, p' ≠ p → (some (.member p' f) ∈ (s.create p fs).vars.declared ↔
      some (.member p' f) ∈ s.vars.declared) := by
    intro p' f hne
    refine (hdeclared _).trans (or_iff_left ?_)
    rintro ⟨g, -, heq⟩
    simp only [Option.some.injEq, Place.member.injEq] at heq
    exact hne heq.1
  have hself : ∀ f, some (.member p f) ∈ (s.create p fs).vars.declared ↔ f ∈ fs := by
    intro f
    refine (hdeclared _).trans ((or_iff_right (hnew f)).trans ?_)
    simp
  refine ⟨⟨⟨?_, ?_, ?_, hs.kept.once, hs.kept.destroyed, hs.kept.fuel, ?_⟩, ?_, ?_⟩, ?_, hrefs⟩
  · intro p'
    change (Function.update s.members p fs p').Nodup
    rcases eq_or_ne p' p with rfl | hne
    · rwa [Function.update_self]
    · rw [Function.update_of_ne hne]
      exact hs.kept.nodup p'
  · intro p' f hmem
    change f ∈ Function.update s.members p fs p'
    rcases eq_or_ne p' p with rfl | hne
    · rw [Function.update_self]
      exact (hself f).mp hmem
    · rw [Function.update_of_ne hne]
      exact hs.kept.listed p' f ((hother p' f hne).mp hmem)
  · intro p' hp' f hf
    change f ∈ Function.update s.members p fs p' at hf
    rcases eq_or_ne p' p with rfl | hne
    · rw [Function.update_self] at hf
      exact (hself f).mpr hf
    · rw [Function.update_of_ne hne] at hf
      exact (hother p' f hne).mpr (hs.kept.full p' hp' f hf)
  · rw [hrefs]
    exact hs.kept.balanced
  · intro p' f hmem
    rcases eq_or_ne p' p with rfl | hne
    · exact hfalse
    · exact hs.alive p' f ((hother p' f hne).mp hmem)
  · intro p' hp'
    obtain ⟨hne, hold⟩ := not_or.mp (mt Finset.mem_insert.mpr hp')
    obtain ⟨hpos', hnil'⟩ := hs.fresh p' hold
    exact ⟨hpos', (Function.update_of_ne hne _ _).trans hnil'⟩
  · intro hnone hmem
    rcases (hdeclared none).mp hmem with h | ⟨f, -, heq⟩
    · exact hnone h
    · cases heq

end Operations

section Runs

variable {tr : List (Event ν κ μ)} {s : State ν κ μ} {e : Event ν κ μ}

/-- The step leaves fewer than 2^32 references to each object. -/
def StaysFew (s : State ν κ μ) (e : Event ν κ μ) : Prop :=
  ∀ p, (intrusiveMembers.next s e).base.refs p < 2 ^ 32

instance decidableStaysFew [Fintype κ] (s : State ν κ μ) (e : Event ν κ μ) :
    Decidable (StaysFew s e) :=
  inferInstanceAs (Decidable (∀ p, (intrusiveMembers.next s e).base.refs p < 2 ^ 32))

/-- What holds between the operations. -/
structure Consistent (s : State ν κ μ) : Prop where
  sound : Sound s
  few : ∀ p, s.base.refs p < 2 ^ 32
  temporary : none ∉ s.vars.declared

theorem Consistent.next
    (hs : Consistent s)
    (hguard : intrusiveMembers.guard s e) :
    Sound (intrusiveMembers.next s e) ∧
      none ∉ (intrusiveMembers.next s e).vars.declared := by
  obtain ⟨hsound, hfew, hnone⟩ := hs
  have hinsert (a : ν) : none ∉ insert (some (.named a)) s.vars.declared := by
    simp [hnone]
  have htemporary : none ∈ insert none s.vars.declared :=
    Finset.mem_insert_self ..
  have hold {x : Place ν κ μ} (hx : some x ∈ s.vars.declared) :
      some x ∈ insert none s.vars.declared :=
    Finset.mem_insert_of_mem hx
  cases e with
  | create p fs =>
      obtain ⟨hcreate, hkeep, -⟩ := hsound.create hguard.1 hguard.2
      exact ⟨hcreate, hkeep hnone⟩
  | adopt a q =>
      exact ⟨hsound.adopt hguard.1 (fun _ _ => nofun) hguard.2, hinsert a⟩
  | addRef a q =>
      refine ⟨hsound.of_base (mem_insert_member fun _ _ => nofun) (deleted_retain _ _)
        (fun _ _ => rfl) ?_, hinsert a⟩
      exact accounting_api.constructAddRef hsound.kept.balanced hguard.1
        fun p hp => ⟨(hguard.2 p hp).2, hfew p⟩
  | copyConstruct a y =>
      exact ⟨hsound.copyConstruct hfew hguard.1 (fun _ _ => nofun) hguard.2, hinsert a⟩
  | moveConstruct a y =>
      exact ⟨hsound.moveConstruct hguard.1 (fun _ _ => nofun) hguard.2, hinsert a⟩
  | copyAssign x y =>
      exact (hsound.copyConstruct hfew hnone (fun _ _ => nofun) hguard.2).settle
        htemporary (hold hguard.1)
  | moveAssign x y =>
      exact (hsound.moveConstruct hnone (fun _ _ => nofun) hguard.2).settle
        htemporary (hold hguard.1)
  | adoptAssign x q =>
      exact (hsound.adopt hnone (fun _ _ => nofun) hguard.2).settle
        htemporary (hold hguard.1)
  | swap x y =>
      exact ⟨hsound.swap hguard.1 hguard.2, hnone⟩
  | destroy a =>
      obtain ⟨hdrop, hcollects⟩ := hsound.drop hguard fun _ _ => nofun
      exact ⟨hdrop, fun h => hnone ((hcollects.declared none).mp h).1⟩

omit [DecidableEq ν] [DecidableEq μ] in
theorem consistent_start :
    Consistent (State.start : State ν κ μ) := by
  obtain ⟨hfew, -, hbalanced⟩ :=
    StrongReference.consistent_start (ν := Place ν κ μ) (κ := κ)
  refine ⟨⟨⟨fun _ => List.nodup_nil, fun _ _ => nofun, fun _ _ _ => nofun, List.nodup_nil,
    fun _ => ?_, rfl, hbalanced⟩, fun _ _ => nofun, fun _ _ => ⟨Nat.one_pos, rfl⟩⟩, hfew, nofun⟩
  exact iff_of_false List.not_mem_nil Bool.false_ne_true

theorem consistent_of_run
    (hrun : (intrusiveMembers.restrict StaysFew).Run tr s) :
    Consistent s := by
  induction hrun with
  | start hinit =>
      obtain rfl := hinit
      exact consistent_start
  | step e _ hguard ih =>
      obtain ⟨hsound, htemporary⟩ := ih.next hguard.1
      exact ⟨hsound, hguard.2, htemporary⟩

/-- A variable points to the object, or the caller owns a reference to it. -/
def State.Root (s : State ν κ μ) (p : κ) : Prop :=
  0 < s.base.owned p ∨ ∃ a, some (.named a) ∈ s.vars.declared ∧
    s.vars.ptr (some (.named a)) = some p

/-- A member of the first object points to the second one. -/
def State.Edge (s : State ν κ μ) (p p' : κ) : Prop :=
  ∃ f, some (.member p f) ∈ s.vars.declared ∧ s.vars.ptr (some (.member p f)) = some p'

/-- The counts are right, and only objects that nothing holds are deleted, once. -/
structure Collected (s : State ν κ μ) : Prop where
  count : ∀ p, (s.memory.references p).toNat = s.base.refs p
  untouched : s.memory.touchedDeleted = false
  completed : s.exhausted = false
  once : s.destroyed.Nodup
  destroyed : ∀ p, p ∈ s.destroyed ↔ s.base.refs p = 0
  members : ∀ p f,
    some (.member p f) ∈ s.vars.declared ↔ p ∉ s.destroyed ∧ f ∈ s.members p
  survives : ∀ p, p ∉ s.destroyed ↔ Rooted s.Root s.Edge p ∨ Cyclic s.Edge p

omit [DecidableEq ν] [DecidableEq μ] in
theorem Consistent.notMem_destroyed_iff
    (hs : Consistent s)
    (p : κ) :
    p ∉ s.destroyed ↔ s.memory.deleted p = false := by
  rw [hs.sound.kept.destroyed, Bool.not_eq_true]

omit [DecidableEq ν] [DecidableEq μ] in
theorem Consistent.mem_destroyed_iff
    (hs : Consistent s)
    (p : κ) :
    p ∈ s.destroyed ↔ s.base.refs p = 0 :=
  (hs.sound.kept.destroyed p).trans (hs.sound.kept.balanced.deleted p)

omit [DecidableEq ν] [DecidableEq μ] in
/-- What points to an object is a variable or a member of an object that exists. -/
theorem Consistent.supported
    (hs : Consistent s) :
    Supported s.Root (· ∉ s.destroyed) s.Edge
      (s.vars.declared.image s.vars.ptr).eraseNone := by
  have hpointed {a : Option (Place ν κ μ)} {p : κ}
      (ha : a ∈ s.vars.declared) (hp : s.vars.ptr a = some p) : p ∉ s.destroyed := by
    rw [hs.mem_destroyed_iff]
    exact (Nat.add_pos_left (Variables.holders_pos ha hp) _).ne'
  constructor
  · rintro p (howned | ⟨a, ha, hp⟩)
    · rw [hs.mem_destroyed_iff]
      exact (Nat.add_pos_right _ howned).ne'
    · exact hpointed ha hp
  · rintro p p' ⟨f, hf, hp'⟩
    exact hpointed hf hp'
  · intro p hp
    rcases Nat.eq_zero_or_pos (s.base.owned p) with hzero | howned
    · have hholders : 0 < s.vars.holders p := by
        have hrefs := mt (hs.mem_destroyed_iff p).mpr hp
        change s.vars.holders p + s.base.owned p ≠ 0 at hrefs
        omega
      obtain ⟨a, ha⟩ := Finset.card_pos.mp hholders
      obtain ⟨hdeclared, hptr⟩ := Finset.mem_filter.mp ha
      rcases a with _ | a | ⟨q, f⟩
      · exact absurd hdeclared hs.temporary
      · exact .inl (.inr ⟨a, hdeclared, hptr⟩)
      · refine .inr ⟨?_, q, ?_, f, hdeclared, hptr⟩
        · exact Finset.mem_eraseNone.mpr (Finset.mem_image.mpr ⟨_, hdeclared, hptr⟩)
        · exact (hs.notMem_destroyed_iff q).mpr (hs.sound.alive q f hdeclared)
    · exact .inl (.inl howned)

/--
As long as each object has fewer than 2^32 references, reference counting is safe, and
what it leaves alive is what can be reached from outside or from a cycle.
-/
theorem members_collected
    (hrun : (intrusiveMembers.restrict StaysFew).Run tr s) :
    Collected s := by
  have hs := consistent_of_run hrun
  have hkept := hs.sound.kept
  refine ⟨fun p => ?_, hkept.balanced.untouched, hkept.fuel, hkept.once,
    hs.mem_destroyed_iff, fun p f => ?_, fun p => hs.supported.alive_iff⟩
  · rw [hkept.balanced.count, BitVec.toNat_ofNat, Nat.mod_eq_of_lt (hs.few p)]
  · rw [hs.notMem_destroyed_iff]
    exact ⟨fun h => ⟨hs.sound.alive p f h, hkept.listed p f h⟩,
      fun h => hkept.full p h.1 f h.2⟩

/--
A variable moves along a chain of two objects, which deletes the first one; the second
one is left with a member that points to itself.
-/
def movedAlong : List (Event Bool Bool Unit) :=
  [.create false [()], .create true [()],
    .adopt false (some false), .adopt true (some true),
    .copyAssign (.member false ()) (.named true), .destroy true,
    .moveAssign (.named false) (.member false ()),
    .copyAssign (.member true ()) (.named false), .destroy false]

theorem members_collected_movedAlong :
    Collected (intrusiveMembers.exec .start movedAlong) ∧
      (intrusiveMembers.exec .start movedAlong).destroyed = [false] := by
  have hrun : (intrusiveMembers.restrict StaysFew).Run movedAlong
      ((intrusiveMembers.restrict StaysFew).exec .start movedAlong) :=
    .of_enabled rfl (by decide +kernel)
  exact ⟨members_collected hrun, by decide +kernel⟩

end Runs

end IntrusiveMember
end Ptl

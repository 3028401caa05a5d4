import Ptl.Countdown
import Ptl.AsyncScope

/-!
# `join` continues once, after all work

The owner of an `async_scope` holds a token from the start, and so does all work
between `on_work_started` and `on_work_finished`.  Work that is being started is
covered by the token of its spawner, which cannot give it back before `spawn`
returns.  With the tokens still held as the abstract state, the scope refines
`Countdown`.

**Results.**
* `simulation`: the refinement.
* `asyncScope_joins`: the owner continues at most once and only after all
  spawned work has finished, it has continued once no step is left, and no
  assertion or decrement ever finds the counter zero.
-/

namespace Ptl
namespace AsyncScope

open Transition

universe u

variable {ι : Type u}

namespace Place

/-- The owner or work holds a token of the counter. -/
def Holding : Place ι → Prop
  | running => True
  | spawning => True
  | storing => True
  | subtracting => True
  | _ => False

/-- The owner has gone on after `join`. -/
def Continued : Place ι → Prop
  | continued => True
  | ready => True
  | _ => False

/-- Places that do not differ in what the countdown sees. -/
structure SameRole (p q : Place ι) : Prop where
  holding : p.Holding ↔ q.Holding
  resuming : p = .resuming ↔ q = .resuming
  continued : p.Continued ↔ q.Continued

theorem SameRole.trans
    {p q r : Place ι}
    (h : SameRole p q)
    (h' : SameRole q r) :
    SameRole p r where
  holding := h.holding.trans h'.holding
  resuming := h.resuming.trans h'.resuming
  continued := h.continued.trans h'.continued

end Place

/-- Work `b` is being started by `a`. -/
def Child (place : Option ι → Place ι) (a : Option ι) (b : ι) : Prop :=
  place (some b) = .starting a ∨ place (some b) = .adding a

/-- A spawner is inside the call of `spawn` that starts its only child. -/
structure Calls (place : Option ι → Place ι) : Prop where
  spawner : ∀ a b, Child place a b → place a = .spawning
  unique : ∀ a b c, Child place a b → Child place a c → b = c

section Calls

variable {place : Option ι → Place ι} {a : Option ι} {b : ι}

theorem Calls.no_child
    (h : Calls place)
    (ha : place a ≠ .spawning)
    (d : ι) :
    ¬ Child place a d :=
  fun hd => ha (h.spawner a d hd)

variable [DecidableEq ι]

/-- A move that starts nothing and leaves no child behind. -/
theorem Calls.update
    {p : Place ι}
    (h : Calls place)
    (hspawning : p = .spawning ∨ ∀ d, ¬ Child place a d)
    (hstarting : ∀ c, p = .starting c ∨ p = .adding c →
      place a = .starting c ∨ place a = .adding c) :
    Calls (Function.update place a p) := by
  have hchild : ∀ c d, Child (Function.update place a p) c d →
      Child place c d := by
    intro c d hd
    by_cases hda : some d = a
    · subst hda
      exact hstarting c (by simpa [Child] using hd)
    · simpa [Child, hda] using hd
  constructor
  · intro c d hd
    have hc := h.spawner c d (hchild c d hd)
    by_cases hca : c = a
    · subst hca
      rw [Function.update_self]
      rcases hspawning with hp | hnone
      · exact hp
      · exact absurd (hchild c d hd) (hnone d)
    · rwa [Function.update_of_ne hca]
  · intro c d d' hd hd'
    exact h.unique c d d' (hchild c d hd) (hchild c d' hd')

/-- Calling `spawn` for fresh work. -/
theorem Calls.spawn
    (h : Calls place)
    (ha : place a = .spawning)
    (hnone : ∀ d, ¬ Child place a d)
    (hb : place (some b) = .fresh) :
    Calls (Function.update place (some b) (.starting a)) := by
  have hchild : ∀ c d, Child (Function.update place (some b) (.starting a)) c d →
      c = a ∧ d = b ∨ Child place c d := by
    intro c d hd
    by_cases hdb : d = b
    · left
      subst hdb
      refine ⟨?_, rfl⟩
      simpa [Child, eq_comm] using hd
    · right
      simpa [Child, hdb] using hd
  have hfresh : ∀ c, place c = .spawning → c ≠ some b := by
    rintro c hc rfl
    rw [hb] at hc
    cases hc
  constructor
  · intro c d hd
    have hc : place c = .spawning := by
      rcases hchild c d hd with ⟨rfl, -⟩ | hold
      · exact ha
      · exact h.spawner c d hold
    rwa [Function.update_of_ne (hfresh c hc)]
  · intro c d d' hd hd'
    rcases hchild c d hd with ⟨rfl, rfl⟩ | hold
    · rcases hchild c d' hd' with ⟨-, rfl⟩ | hold'
      · rfl
      · exact absurd hold' (hnone d')
    · rcases hchild c d' hd' with ⟨rfl, rfl⟩ | hold'
      · exact absurd hold (hnone d)
      · exact h.unique c d d' hold hold'

end Calls

section Steps

variable [DecidableEq ι] {s : State ι}

/-- The calls of `spawn` nest as long as a spawning owner is not resumed. -/
theorem Calls.next
    {e : Event ι}
    (hs : Calls s.place)
    (hguard : e.guard s)
    (hresume : ∀ b, e = .resume b → s.place none ≠ .spawning) :
    Calls (e.next s).place := by
  cases e with
  | spawn a b =>
      obtain ⟨ha, hb⟩ := hguard
      have hnone := hs.no_child (a := a) (by simp [ha])
      have hab : some b ≠ a := by
        rintro rfl
        rw [ha] at hb
        cases hb
      have hmoved := hs.update (a := a) (p := .spawning) (Or.inl rfl)
        (by simp)
      refine hmoved.spawn (Function.update_self ..) ?_
        (by rw [Function.update_of_ne hab, hb])
      intro d hd
      refine hnone d ?_
      by_cases hda : some d = a
      · simp [Child, hda] at hd
      · simpa [Child, hda] using hd
  | assertStarted a b old =>
      have hb : s.place (some b) = .starting a := hguard.1
      refine hs.update (Or.inr (hs.no_child (by simp [hb]))) ?_
      simp [hb]
  | workStarted a b =>
      have hb : s.place (some b) = .adding a := hguard
      have hmoved := hs.update (a := some b) (p := .running)
        (Or.inr (hs.no_child (by simp [hb]))) (by simp)
      refine hmoved.update (Or.inr ?_) (by simp)
      intro d hd
      by_cases hdb : d = b
      · simp [Child, hdb] at hd
      · exact hdb (hs.unique a d b (by simpa [Child, hdb] using hd)
          (Or.inr hb))
  | workFinished b old =>
      have hb : s.place (some b) = .running := hguard.1
      refine hs.update (Or.inr (hs.no_child (by simp [hb]))) ?_
      by_cases hold : old = 1 <;> simp [hold]
  | resume b =>
      have hb : s.place (some b) = .resuming := hguard
      have hmoved := hs.update (a := some b) (p := .done)
        (Or.inr (hs.no_child (by simp [hb]))) (by simp)
      refine hmoved.update (Or.inr ?_) (by simp)
      refine hmoved.no_child ?_
      simpa using hresume b rfl
  | joinReady =>
      have hnone : s.place none = .running := hguard.1
      exact hs.update (Or.inr (hs.no_child (by simp [hnone]))) (by simp)
  | joinNotReady =>
      have hnone : s.place none = .running := hguard.1
      exact hs.update (Or.inr (hs.no_child (by simp [hnone]))) (by simp)
  | storeContinuation =>
      have hnone : s.place none = .storing := hguard
      exact hs.update (Or.inr (hs.no_child (by simp [hnone]))) (by simp)
  | joinSuspend old =>
      have hnone : s.place none = .subtracting := hguard.1
      refine hs.update (Or.inr (hs.no_child (by simp [hnone]))) ?_
      by_cases hold : old > 1 <;> simp [hold]

/-- The continuation is stored before the owner decrements the counter. -/
theorem stored_of_reachable
    (hs : asyncScope.Reachable s)
    (howner : s.place none = .subtracting ∨ s.place none = .suspended) :
    s.continuation = true := by
  refine hs.invariant
    (I := fun s => s.place none = .subtracting ∨ s.place none = .suspended →
      s.continuation = true) ?_ ?_ howner
  · rintro _ rfl
    simp [start]
  · intro s e ih hguard
    cases e with
    | spawn a b =>
        cases a with
        | none =>
            simp [Event.next, State.move]
        | some c =>
            simpa [Event.next, State.move] using ih
    | workStarted a b =>
        cases a with
        | none =>
            simp [Event.next, State.move]
        | some c =>
            simpa [Event.next, State.move] using ih
    | joinSuspend old =>
        have hco := ih (Or.inl hguard.1)
        exact fun _ => hco
    | storeContinuation =>
        exact fun _ => rfl
    | assertStarted a b old =>
        simpa [Event.next, State.move] using ih
    | workFinished b old =>
        simpa [Event.next, State.move] using ih
    | _ =>
        simp [Event.next, State.move]

/-- A move within a role changes nobody's role. -/
theorem move_sameRole
    {a : Option ι} {p : Place ι}
    (h : Place.SameRole p (s.place a))
    (c : Option ι) :
    Place.SameRole ((s.move a p).place c) (s.place c) := by
  by_cases hc : c = a
  · subst hc
    rwa [move_self]
  · rw [move_of_ne s p hc]
    exact ⟨Iff.rfl, Iff.rfl, Iff.rfl⟩

end Steps

section Refinement

/-- The event of the countdown that an event stands for. -/
def label : Event ι → Option (Countdown.Event (Option ι))
  | .workStarted a b => some (.acquire a (some b))
  | .workFinished b old =>
      some (if old = 1 then .releaseLast (some b) else .release (some b))
  | .resume b => some (.wake (some b))
  | .joinReady => some (.releaseLast none)
  | .joinSuspend old =>
      some (if old > 1 then .release none else .releaseLast none)
  | _ => none

variable [DecidableEq ι]

/-- The countdown that starts with the token of the owner. -/
def abstract (ι : Type u) [DecidableEq ι] :
    System (Countdown.State (Option ι)) (Countdown.Event (Option ι)) :=
  Countdown.countdown none {none}

/-- The tokens that are out are those somebody holds. -/
structure Refines
    (s : State ι) (t : Countdown.State (Option ι)) : Prop where
  calls : Calls s.place
  countdown : Countdown.Matches t (fun a => (s.place a).Holding) s.count
    (s.place none).Continued (fun a => s.place a = .resuming)

omit [DecidableEq ι] in
theorem singleton_ne_empty : ({none} : Finset (Option ι)) ≠ ∅ :=
  Finset.singleton_ne_empty none

variable {s : State ι} {t : Countdown.State (Option ι)}

omit [DecidableEq ι] in
/-- Steps that keep every role and the count. -/
theorem Refines.of_same
    {s' : State ι}
    (hR : Refines s t)
    (hcalls : Calls s'.place)
    (hcount : s'.count = s.count)
    (hrole : ∀ a, Place.SameRole (s'.place a) (s.place a)) :
    Refines s' t where
  calls := hcalls
  countdown := hR.countdown.congr (fun a => (hrole a).holding) hcount
    (hrole none).continued fun a => (hrole a).resuming

/-- A resumed owner is not inside `spawn`. -/
theorem Refines.next_calls
    {e : Event ι}
    (ht : (abstract ι).Reachable t)
    (hR : Refines s t)
    (hguard : e.guard s) :
    Calls (e.next s).place := by
  refine hR.calls.next hguard ?_
  rintro b rfl howner
  have hnot := hR.countdown.not_holding (a := none) singleton_ne_empty ht
    (Or.inr ⟨some b, hguard⟩)
  exact hnot (by simp [howner, Place.Holding])

theorem refines_silent
    {e : Event ι}
    (ht : (abstract ι).Reachable t)
    (hR : Refines s t)
    (hguard : e.guard s)
    (hlabel : label e = none) :
    Refines (e.next s) t := by
  have hcalls := hR.next_calls ht hguard
  cases e with
  | spawn a b =>
      obtain ⟨ha, hb⟩ := hguard
      have hab : some b ≠ a := by
        rintro rfl
        rw [ha] at hb
        cases hb
      refine hR.of_same hcalls rfl fun c => ?_
      refine (move_sameRole ?_ c).trans (move_sameRole ?_ c)
      · rw [move_of_ne s _ hab, hb]
        constructor <;> simp [Place.Holding, Place.Continued]
      · rw [ha]
        constructor <;> simp [Place.Holding, Place.Continued]
  | assertStarted a b old =>
      refine hR.of_same hcalls rfl (move_sameRole ?_)
      rw [hguard.1]
      constructor <;> simp [Place.Holding, Place.Continued]
  | joinNotReady =>
      refine hR.of_same hcalls rfl (move_sameRole ?_)
      rw [hguard.1]
      constructor <;> simp [Place.Holding, Place.Continued]
  | storeContinuation =>
      refine hR.of_same hcalls rfl (move_sameRole ?_)
      rw [show s.place none = .storing from hguard]
      constructor <;> simp [Place.Holding, Place.Continued]
  | _ =>
      simp [label] at hlabel

/-- A step that matches an event of the countdown. -/
def StepMatches
    (s : State ι) (t : Countdown.State (Option ι))
    (e : Event ι) (f : Countdown.Event (Option ι)) : Prop :=
  (abstract ι).guard t f ∧ Refines (e.next s) ((abstract ι).next t f)

/-- New work gets its token from its spawner. -/
theorem refines_workStarted
    {a : Option ι} {b : ι}
    (ht : (abstract ι).Reachable t)
    (hR : Refines s t)
    (hguard : (Event.workStarted a b).guard s) :
    StepMatches s t (.workStarted a b) (.acquire a (some b)) := by
  have hcalls := hR.next_calls ht hguard
  have hb : s.place (some b) = .adding a := hguard
  have ha : s.place a = .spawning := hR.calls.spawner a b (Or.inr hb)
  have hab : a ≠ some b := by
    rintro rfl
    rw [ha] at hb
    cases hb
  have hspawner : (s.place a).Holding := by
    rw [ha]
    trivial
  have hfree : ¬ (s.place (some b)).Holding := by
    simp [hb, Place.Holding]
  obtain ⟨hg, hnext⟩ := hR.countdown.acquire none hspawner hfree
  refine ⟨hg, hcalls, hnext.congr ?_ rfl ?_ ?_⟩
  · intro c
    by_cases hca : c = a
    · simp [Event.next, State.move, hca, Place.Holding, ha]
    · by_cases hcb : c = some b
      · simp [Event.next, State.move, hcb, hab.symm, Place.Holding]
      · simp [Event.next, State.move, hca, hcb]
  · by_cases hnone : none = a
    · simp [Event.next, State.move, hnone, ha, Place.Continued]
    · simp [Event.next, State.move, hnone]
  · intro c
    by_cases hca : c = a
    · simp [Event.next, State.move, hca, ha]
    · by_cases hcb : c = some b
      · simp [Event.next, State.move, hcb, hab.symm, hb]
      · simp [Event.next, State.move, hca, hcb]

theorem refines_workFinished
    {b : ι} {old : Nat}
    (ht : (abstract ι).Reachable t)
    (hR : Refines s t)
    (hguard : (Event.workFinished b old).guard s) :
    StepMatches s t (.workFinished b old)
      (if old = 1 then .releaseLast (some b) else .release (some b)) := by
  have hcalls := hR.next_calls ht hguard
  obtain ⟨hb, rfl⟩ := hguard
  have hholding : (s.place (some b)).Holding := by
    rw [hb]
    trivial
  obtain ⟨hpos, -, hawake, hwaking⟩ :=
    hR.countdown.counting singleton_ne_empty ht hholding
  by_cases hold : s.count = 1
  · rw [if_pos hold]
    obtain ⟨hg, hnext⟩ := hR.countdown.releaseLast none hholding (by omega)
    refine ⟨hg, hcalls, hnext.congr ?_ rfl ?_ ?_⟩
    · intro c
      by_cases hcb : c = some b <;>
        simp [Event.next, State.move, hcb, hold, Place.Holding]
    · simpa [Event.next, State.move] using hawake
    · intro c
      by_cases hcb : c = some b
      · simp [Event.next, State.move, hcb, hold]
      · simpa [Event.next, State.move, hcb] using hwaking c
  · rw [if_neg hold]
    obtain ⟨hg, hnext⟩ := hR.countdown.release none hholding (by omega)
    refine ⟨hg, hcalls, hnext.congr ?_ rfl Iff.rfl ?_⟩
    · intro c
      by_cases hcb : c = some b <;>
        simp [Event.next, State.move, hcb, hold, Place.Holding]
    · intro c
      by_cases hcb : c = some b <;>
        simp [Event.next, State.move, hcb, hold, hb]

theorem refines_joinSuspend
    {old : Nat}
    (ht : (abstract ι).Reachable t)
    (hR : Refines s t)
    (hguard : (Event.joinSuspend old).guard s) :
    StepMatches s t (.joinSuspend old)
      (if old > 1 then .release none else .releaseLast none) := by
  have hcalls := hR.next_calls ht hguard
  obtain ⟨hnone, rfl⟩ := hguard
  have hholding : (s.place none).Holding := by
    rw [hnone]
    trivial
  obtain ⟨-, -, hawake, hwaking⟩ :=
    hR.countdown.counting singleton_ne_empty ht hholding
  by_cases hold : s.count > 1
  · rw [if_pos hold]
    obtain ⟨hg, hnext⟩ := hR.countdown.release none hholding hold
    refine ⟨hg, hcalls, hnext.congr ?_ rfl ?_ ?_⟩
    · intro c
      by_cases hc : c = none <;>
        simp [Event.next, State.move, hc, hold, Place.Holding]
    · simp [Event.next, hold, hnone, Place.Continued]
    · intro c
      by_cases hc : c = none <;>
        simp [Event.next, State.move, hc, hold, hnone]
  · rw [if_neg hold]
    obtain ⟨hg, hnext⟩ := hR.countdown.releaseLast none hholding hold
    refine ⟨hg, hcalls, hnext.congr ?_ rfl ?_ ?_⟩
    · intro c
      by_cases hc : c = none <;>
        simp [Event.next, State.move, hc, hold, Place.Holding]
    · simp [Event.next, hold, Place.Continued]
    · intro c
      by_cases hc : c = none
      · simp [Event.next, hc, hold]
      · simpa [Event.next, State.move, hc] using hwaking c

theorem refines_resume
    {b : ι}
    (ht : (abstract ι).Reachable t)
    (hR : Refines s t)
    (hguard : (Event.resume b).guard s) :
    StepMatches s t (.resume b) (.wake (some b)) := by
  have hcalls := hR.next_calls ht hguard
  have hb : s.place (some b) = .resuming := hguard
  have hholding : ∀ a, ¬ (s.place a).Holding := fun _ =>
    hR.countdown.not_holding singleton_ne_empty ht (Or.inr ⟨some b, hb⟩)
  obtain ⟨hg, hnext⟩ := hR.countdown.wake none (a := some b) hb
  refine ⟨hg, hcalls, hnext.congr ?_ rfl ?_ ?_⟩
  · intro c
    by_cases hc : c = none
    · simpa [Event.next, hc, Place.Holding] using hholding none
    · by_cases hcb : c = some b
      · simp [Event.next, State.move, hcb, hb, Place.Holding]
      · simp [Event.next, State.move, hc, hcb]
  · simp [Event.next, Place.Continued]
  · intro c
    by_cases hc : c = none
    · simp [Event.next, hc]
    · by_cases hcb : c = some b
      · simp [Event.next, State.move, hcb]
      · have hne : s.place c ≠ .resuming := fun h =>
          hcb (hR.countdown.waking_unique h hb)
        simpa [Event.next, State.move, hc, hcb] using hne

/-- An owner that has not joined keeps the counter above zero. -/
theorem not_joinReady
    (ht : (abstract ι).Reachable t)
    (hR : Refines s t) :
    ¬ Event.joinReady.guard s := by
  rintro ⟨hnone, hcount⟩
  have hholding : (s.place none).Holding := by
    rw [hnone]
    trivial
  obtain ⟨hpos, -⟩ := hR.countdown.counting singleton_ne_empty ht hholding
  omega

/-- `async_scope` refines the countdown. -/
theorem simulation :
    System.Simulation (asyncScope (ι := ι)) (abstract ι) Refines label where
  init := by
    rintro _ rfl
    refine ⟨_, rfl, ?_, (Countdown.Matches.initial {none}).congr ?_ ?_ ?_ ?_⟩
    · constructor <;> simp [Child, start]
    · rintro (_ | b) <;> simp [start, Place.Holding]
    · simp [start]
    · simp [start, Place.Continued]
    · rintro (_ | b) <;> simp [start]
  silent := by
    intro s t e _ ht hR hguard hlabel
    exact refines_silent ht hR hguard hlabel
  step := by
    intro s t e f _ ht hR hguard hlabel
    cases e with
    | workStarted a b =>
        obtain rfl := Option.some.inj hlabel
        exact refines_workStarted ht hR hguard
    | workFinished b old =>
        obtain rfl := Option.some.inj hlabel
        exact refines_workFinished ht hR hguard
    | resume b =>
        obtain rfl := Option.some.inj hlabel
        exact refines_resume ht hR hguard
    | joinReady =>
        exact absurd hguard (not_joinReady ht hR)
    | joinSuspend old =>
        obtain rfl := Option.some.inj hlabel
        exact refines_joinSuspend ht hR hguard
    | _ =>
        simp [label] at hlabel

end Refinement

section Results

variable [DecidableEq ι] {s : State ι} {tr : List (Event ι)}

theorem refines_of_reachable
    (hs : asyncScope.Reachable s) :
    ∃ t, (abstract ι).Reachable t ∧ Refines s t := by
  obtain ⟨tr, hrun⟩ := hs
  obtain ⟨t, hR, hN⟩ := simulation.run hrun
  exact ⟨t, ⟨_, hN⟩, hR⟩

/-- Where the owner, and where work can be. -/
def Place.Allowed : Option ι → Place ι → Prop
  | none, p => p = .running ∨ p = .spawning ∨ p = .ready ∨ p = .storing ∨
      p = .subtracting ∨ p = .suspended ∨ p = .continued
  | some _, p => p = .fresh ∨ (∃ a, p = .starting a ∨ p = .adding a) ∨
      p = .running ∨ p = .spawning ∨ p = .resuming ∨ p = .done

/-- Everybody is at an allowed place, and who spawns has a child. -/
structure Shape (place : Option ι → Place ι) : Prop where
  allowed : ∀ a, (place a).Allowed a
  child : ∀ a, place a = .spawning → ∃ b, Child place a b

theorem Shape.allowed_update
    {place : Option ι → Place ι} {a : Option ι} {p : Place ι}
    (h : ∀ c, (place c).Allowed c)
    (hp : p.Allowed a)
    (c : Option ι) :
    (Function.update place a p c).Allowed c := by
  by_cases hc : c = a
  · subst hc
    rwa [Function.update_self]
  · rw [Function.update_of_ne hc]
    exact h c

/-- A move of somebody who is not being started keeps the children. -/
theorem Child.update
    {place : Option ι → Place ι} {a c : Option ι} {d : ι} {p : Place ι}
    (h : Child place c d)
    (ha : ∀ c, place a ≠ .starting c ∧ place a ≠ .adding c) :
    Child (Function.update place a p) c d := by
  have hda : some d ≠ a := by
    rintro rfl
    rcases h with h | h
    · exact (ha c).1 h
    · exact (ha c).2 h
  simpa [Child, hda] using h

theorem Shape.update
    {place : Option ι → Place ι} {a : Option ι} {p : Place ι}
    (h : Shape place)
    (ha : ∀ c, place a ≠ .starting c ∧ place a ≠ .adding c)
    (hp : p.Allowed a)
    (hspawning : p ≠ .spawning) :
    Shape (Function.update place a p) where
  allowed := Shape.allowed_update h.allowed hp
  child := by
    intro c hc
    have hca : c ≠ a := by
      rintro rfl
      exact hspawning (by simpa using hc)
    rw [Function.update_of_ne hca] at hc
    obtain ⟨d, hd⟩ := h.child c hc
    exact ⟨d, hd.update ha⟩

theorem Shape.next
    {e : Event ι}
    (h : Shape s.place)
    (hcalls : Calls s.place)
    (hguard : e.guard s) :
    Shape (e.next s).place := by
  cases e with
  | spawn a b =>
      obtain ⟨ha, hb⟩ := hguard
      have hab : a ≠ some b := by
        rintro rfl
        rw [ha] at hb
        cases hb
      constructor
      · refine Shape.allowed_update (Shape.allowed_update h.allowed ?_) ?_
        · cases a <;> simp [Place.Allowed]
        · simp [Place.Allowed]
      · intro c hc
        by_cases hca : c = a
        · subst hca
          exact ⟨b, by simp [Child, Event.next]⟩
        · have hcb : c ≠ some b := by
            rintro rfl
            simp [Event.next] at hc
          rw [Event.next, move_of_ne _ _ hcb, move_of_ne _ _ hca] at hc
          obtain ⟨d, hd⟩ := h.child c hc
          exact ⟨d, (hd.update (by simp [ha])).update
            (by simp [hab.symm, hb])⟩
  | assertStarted a b old =>
      have hb : s.place (some b) = .starting a := hguard.1
      constructor
      · refine Shape.allowed_update h.allowed ?_
        simp [Place.Allowed]
      · intro c hc
        have hcb : c ≠ some b := by
          rintro rfl
          simp [Event.next] at hc
        rw [Event.next, move_of_ne _ _ hcb] at hc
        obtain ⟨d, hd⟩ := h.child c hc
        refine ⟨d, ?_⟩
        by_cases hdb : d = b
        · subst hdb
          simpa [Child, Event.next, hb] using hd
        · simpa [Child, Event.next, State.move, hdb] using hd
  | workStarted a b =>
      have hb : s.place (some b) = .adding a := hguard
      have ha := hcalls.spawner a b (Or.inr hb)
      constructor
      · refine Shape.allowed_update (Shape.allowed_update h.allowed ?_) ?_
        · simp [Place.Allowed]
        · cases a <;> simp [Place.Allowed]
      · intro c hc
        have hca : c ≠ a := by
          rintro rfl
          simp [Event.next] at hc
        have hcb : c ≠ some b := by
          rintro rfl
          simp [Event.next, State.move, hca] at hc
        replace hc : s.place c = .spawning := by
          simpa [Event.next, State.move, hca, hcb] using hc
        obtain ⟨d, hd⟩ := h.child c hc
        have hda : some d ≠ a := by
          rintro rfl
          simp [Child, ha] at hd
        have hdb : d ≠ b := by
          rintro rfl
          simp [Child, hb, Ne.symm hca] at hd
        exact ⟨d, by simpa [Child, Event.next, State.move, hda, hdb] using hd⟩
  | workFinished b old =>
      have hb : s.place (some b) = .running := hguard.1
      by_cases hold : old = 1
      all_goals
        refine h.update (by simp [hb]) ?_ ?_ <;>
          simp [hold, Place.Allowed]
  | resume b =>
      have hb : s.place (some b) = .resuming := hguard
      have hmoved := h.update (a := some b) (p := .done) (by simp [hb])
        (by simp [Place.Allowed]) (by simp)
      refine hmoved.update ?_ (by simp [Place.Allowed]) (by simp)
      intro c
      have hnone := h.allowed none
      constructor <;>
        · intro hc
          simp only [ne_eq, reduceCtorEq, not_false_eq_true,
            Function.update_of_ne] at hc
          simp [hc, Place.Allowed] at hnone
  | joinReady =>
      have hnone : s.place none = .running := hguard.1
      exact h.update (by simp [hnone]) (by simp [Place.Allowed]) (by simp)
  | joinNotReady =>
      have hnone : s.place none = .running := hguard.1
      exact h.update (by simp [hnone]) (by simp [Place.Allowed]) (by simp)
  | storeContinuation =>
      have hnone : s.place none = .storing := hguard
      exact h.update (by simp [hnone]) (by simp [Place.Allowed]) (by simp)
  | joinSuspend old =>
      have hnone : s.place none = .subtracting := hguard.1
      by_cases hold : old > 1
      all_goals
        refine h.update (by simp [hnone]) ?_ ?_ <;>
          simp [hold, Place.Allowed]

theorem shape_of_reachable
    (hs : asyncScope.Reachable s) :
    Shape s.place := by
  obtain ⟨tr, hrun⟩ := hs
  refine hrun.invariant (I := fun _ s => Shape s.place) ?_ ?_
  · rintro _ rfl
    constructor
    · rintro (_ | b) <;> simp [start, Place.Allowed]
    · rintro (_ | b) <;> simp [start]
  · intro tr s e hrun h hguard
    obtain ⟨_, -, hR⟩ := refines_of_reachable ⟨tr, hrun⟩
    exact h.next hR.calls hguard

theorem move_ne_fresh
    {a c : Option ι} {p : Place ι}
    (hp : p ≠ .fresh)
    (hc : s.place c ≠ .fresh) :
    (s.move a p).place c ≠ .fresh := by
  by_cases hca : c = a
  · subst hca
    rwa [move_self]
  · rwa [move_of_ne s p hca]

/-- No step makes work fresh again. -/
theorem next_ne_fresh
    (e : Event ι) {c : Option ι}
    (hc : s.place c ≠ .fresh) :
    (e.next s).place c ≠ .fresh := by
  cases e with
  | spawn a b =>
      exact move_ne_fresh (by simp) (move_ne_fresh (by simp) hc)
  | workStarted a b =>
      exact move_ne_fresh (by simp) (move_ne_fresh (by simp) hc)
  | resume b =>
      exact move_ne_fresh (by simp) (move_ne_fresh (by simp) hc)
  | workFinished b old =>
      refine move_ne_fresh ?_ hc
      by_cases hold : old = 1 <;> simp [hold]
  | joinSuspend old =>
      refine move_ne_fresh ?_ hc
      by_cases hold : old > 1 <;> simp [hold]
  | assertStarted a b old =>
      exact move_ne_fresh (by simp) hc
  | joinReady =>
      exact move_ne_fresh (by simp) hc
  | joinNotReady =>
      exact move_ne_fresh (by simp) hc
  | storeContinuation =>
      exact move_ne_fresh (by simp) hc

/-- Work that has been spawned is not fresh. -/
theorem not_fresh_of_run
    (hrun : asyncScope.Run tr s)
    {a : Option ι} {b : ι}
    (hmem : .spawn a b ∈ tr) :
    s.place (some b) ≠ .fresh := by
  refine hrun.invariant
    (I := fun tr s => .spawn a b ∈ tr → s.place (some b) ≠ .fresh)
    ?_ ?_ hmem
  · simp
  · intro tr s e hrun ih hguard hmem
    rcases List.mem_append.mp hmem with hold | hnew
    · exact next_ne_fresh e (ih hold)
    · obtain rfl := List.mem_singleton.mp hnew
      simp [Event.next]

/-- Work that has given its token back has called `on_work_finished`. -/
theorem finished_of_run
    (hrun : asyncScope.Run tr s)
    {b : ι} :
    s.place (some b) = .resuming ∨ s.place (some b) = .done →
      ∃ old, .workFinished b old ∈ tr := by
  refine hrun.invariant
    (I := fun tr s =>
      s.place (some b) = .resuming ∨ s.place (some b) = .done →
        ∃ old, .workFinished b old ∈ tr) ?_ ?_
  · rintro _ rfl
    simp [start]
  · intro tr s e hrun ih hguard hb
    cases e with
    | workFinished c old =>
        by_cases hbc : b = c
        · exact ⟨old, by simp [hbc]⟩
        · obtain ⟨old', h⟩ := ih
            (by simpa [Event.next, State.move, hbc] using hb)
          exact ⟨old', by simp [h]⟩
    | spawn a c =>
        have hbc : b ≠ c := by
          rintro rfl
          simp [Event.next] at hb
        have hba : some b ≠ a := by
          rintro rfl
          simp [Event.next, State.move, hbc] at hb
        obtain ⟨old', h⟩ := ih
          (by simpa [Event.next, State.move, hbc, hba] using hb)
        exact ⟨old', by simp [h]⟩
    | assertStarted a c old =>
        have hbc : b ≠ c := by
          rintro rfl
          simp [Event.next] at hb
        obtain ⟨old', h⟩ := ih (by simpa [Event.next, State.move, hbc] using hb)
        exact ⟨old', by simp [h]⟩
    | workStarted a c =>
        have hba : some b ≠ a := by
          rintro rfl
          simp [Event.next] at hb
        have hbc : b ≠ c := by
          rintro rfl
          simp [Event.next, State.move, hba] at hb
        obtain ⟨old', h⟩ := ih
          (by simpa [Event.next, State.move, hba, hbc] using hb)
        exact ⟨old', by simp [h]⟩
    | resume c =>
        have hbefore : s.place (some b) = .resuming ∨
            s.place (some b) = .done := by
          by_cases hbc : b = c
          · left
            rw [hbc]
            exact hguard
          · simpa [Event.next, State.move, hbc] using hb
        obtain ⟨old', h⟩ := ih hbefore
        exact ⟨old', by simp [h]⟩
    | _ =>
        obtain ⟨old', h⟩ := ih (by simpa [Event.next, State.move] using hb)
        exact ⟨old', by simp [h]⟩

/-- Every continuation is one of the countdown. -/
theorem continuations_eq (tr : List (Event ι)) :
    Countdown.continuations none (tr.filterMap label) = continuations tr := by
  rw [Countdown.continuations, List.filterMap_filterMap, continuations]
  congr 1
  funext e
  cases e with
  | workFinished b old =>
      by_cases hold : old = 1 <;>
        simp [label, Event.continuer?, Countdown.Event.continuer?, hold]
  | joinSuspend old =>
      by_cases hold : old > 1 <;>
        simp [label, Event.continuer?, Countdown.Event.continuer?, hold]
  | _ =>
      simp [label, Event.continuer?, Countdown.Event.continuer?]

/-- The value of `count_` that an assertion or a decrement reads. -/
def Event.read? : Event ι → Option Nat
  | assertStarted _ _ old => some old
  | workFinished _ old => some old
  | joinSuspend old => some old
  | _ => none

/--
The owner continues at most once and only after all spawned work has called
`on_work_finished`; work that resumes it finds it suspended and its continuation
stored; no assertion or decrement reads a zero; and the owner has continued
once it has made its decrement and all spawned work has ended, in particular
when no step is left.
-/
structure JoinsOnce (tr : List (Event ι)) (s : State ι) : Prop where
  once : (continuations tr).length ≤ 1
  finished : continuations tr ≠ [] →
    ∀ a b, .spawn a b ∈ tr → ∃ old, .workFinished b old ∈ tr
  resumable : ∀ b, s.place (some b) = .resuming →
    s.place none = .suspended ∧ s.continuation = true
  counted : ∀ (e : Event ι) (old : Nat), e.guard s → e.read? = some old →
    0 < old
  continues : ¬ (s.place none).Holding →
    (∀ b, s.place (some b) = .fresh ∨ s.place (some b) = .done) →
    (continuations tr).length = 1
  complete : (∀ e, ¬ asyncScope.guard s e) → (continuations tr).length = 1

/-- Whoever reads the counter holds a token or is covered by one. -/
theorem read_pos
    {e : Event ι} {old : Nat}
    (hs : asyncScope.Reachable s)
    (hguard : e.guard s)
    (hread : e.read? = some old) :
    0 < old := by
  obtain ⟨t, ht, hR⟩ := refines_of_reachable hs
  have hpos : ∀ a, (s.place a).Holding → 0 < s.count := by
    intro a ha
    exact (hR.countdown.counting singleton_ne_empty ht ha).1
  cases e with
  | assertStarted a b c =>
      obtain rfl := Option.some.inj hread
      obtain ⟨hb, rfl⟩ := hguard
      have ha := hR.calls.spawner a b (Or.inl hb)
      exact hpos a (by simp [ha, Place.Holding])
  | workFinished b c =>
      obtain rfl := Option.some.inj hread
      obtain ⟨hb, rfl⟩ := hguard
      exact hpos (some b) (by simp [hb, Place.Holding])
  | joinSuspend c =>
      obtain rfl := Option.some.inj hread
      obtain ⟨hnone, rfl⟩ := hguard
      exact hpos none (by simp [hnone, Place.Holding])
  | _ =>
      simp [Event.read?] at hread

/-- When no step is left, nobody is inside a call. -/
theorem ended_of_stuck
    (hs : asyncScope.Reachable s)
    (hstuck : ∀ e, ¬ asyncScope.guard s e) :
    ¬ (s.place none).Holding ∧
      ∀ b, s.place (some b) = .fresh ∨ s.place (some b) = .done := by
  obtain ⟨hallowed, hchild⟩ := shape_of_reachable hs
  have hrunning : ∀ b, s.place (some b) ≠ .running := fun b hb =>
    hstuck (.workFinished b s.count) ⟨hb, rfl⟩
  have hstarting : ∀ a b, ¬ Child s.place a b := by
    rintro a b (hb | hb)
    · exact hstuck (.assertStarted a b s.count) ⟨hb, rfl⟩
    · exact hstuck (.workStarted a b) hb
  have hspawning : ∀ a, s.place a ≠ .spawning := by
    intro a ha
    obtain ⟨b, hb⟩ := hchild a ha
    exact hstarting a b hb
  constructor
  · rcases hallowed none with h | h | h | h | h | h | h
    · by_cases hcount : s.count = 0
      · exact absurd ⟨h, hcount⟩ (hstuck .joinReady)
      · exact absurd ⟨h, hcount⟩ (hstuck .joinNotReady)
    · exact absurd h (hspawning none)
    · simp [h, Place.Holding]
    · exact absurd h (hstuck .storeContinuation)
    · exact absurd ⟨h, rfl⟩ (hstuck (.joinSuspend s.count))
    · simp [h, Place.Holding]
    · simp [h, Place.Holding]
  · intro b
    rcases hallowed (some b) with h | ⟨a, h⟩ | h | h | h | h
    · exact Or.inl h
    · exact absurd h (hstarting a b)
    · exact absurd h (hrunning b)
    · exact absurd h (hspawning (some b))
    · exact absurd h (hstuck (.resume b))
    · exact Or.inr h

/-- `join` waits for all work and continues exactly once. -/
theorem asyncScope_joins
    (hrun : asyncScope.Run tr s) :
    JoinsOnce tr s := by
  have hs : asyncScope.Reachable s := ⟨tr, hrun⟩
  obtain ⟨t, hR, hN⟩ := simulation.run hrun
  have ht : (abstract ι).Reachable t := ⟨_, hN⟩
  have hallowed := (shape_of_reachable hs).allowed
  obtain ⟨honce, hawake⟩ := Countdown.continued_of_run singleton_ne_empty hN
  rw [continuations_eq] at honce hawake
  rw [hR.countdown.awake] at hawake
  have hcontinues : ¬ (s.place none).Holding →
      (∀ b, s.place (some b) = .fresh ∨ s.place (some b) = .done) →
      (continuations tr).length = 1 := by
    intro howner hdone
    have hnone : ∀ a, ¬ (s.place a).Holding := by
      rintro (_ | b)
      · exact howner
      · rcases hdone b with h | h <;> simp [h, Place.Holding]
    have hne : continuations tr ≠ [] := by
      rw [← hawake]
      rcases hR.countdown.continued singleton_ne_empty ht hnone with
        hcontinued | ⟨_ | b, hb⟩
      · exact hcontinued
      · have howner := hallowed none
        simp [hb, Place.Allowed] at howner
      · rcases hdone b with h | h <;> simp [h] at hb
    have hpos := List.length_pos_iff.mpr hne
    omega
  refine ⟨honce, ?_, ?_, fun _ _ => read_pos hs, hcontinues, ?_⟩
  · intro hne a b hspawn
    apply finished_of_run hrun
    have hholding : ∀ a, ¬ (s.place a).Holding := fun _ =>
      hR.countdown.not_holding singleton_ne_empty ht (Or.inl (hawake.mpr hne))
    rcases hallowed (some b) with h | ⟨c, h⟩ | h | h | h | h
    · exact absurd h (not_fresh_of_run hrun hspawn)
    · have hc := hR.calls.spawner c b h
      exact absurd (by simp [hc, Place.Holding]) (hholding c)
    · exact absurd (by simp [h, Place.Holding]) (hholding (some b))
    · exact absurd (by simp [h, Place.Holding]) (hholding (some b))
    · exact Or.inl h
    · exact Or.inr h
  · intro b hb
    have hholding : ¬ (s.place none).Holding :=
      hR.countdown.not_holding singleton_ne_empty ht (Or.inr ⟨some b, hb⟩)
    have hnot := hR.countdown.not_awake hb
    have hsuspended : s.place none = .suspended := by
      rcases hallowed none with h | h | h | h | h | h | h <;>
        simp_all [Place.Holding, Place.Continued]
    exact ⟨hsuspended, stored_of_reachable hs (Or.inr hsuspended)⟩
  · intro hstuck
    obtain ⟨howner, hdone⟩ := ended_of_stuck hs hstuck
    exact hcontinues howner hdone

/-- Work spawned by work while the owner is suspended in `join`. -/
def nestedSpawn : List (Event Nat) :=
  [.spawn none 0,
    .assertStarted none 0 1,
    .workStarted none 0,
    .joinNotReady,
    .storeContinuation,
    .joinSuspend 2,
    .spawn (some 0) 1,
    .assertStarted (some 0) 1 1,
    .workStarted (some 0) 1,
    .workFinished 0 2,
    .workFinished 1 1,
    .resume 1]

theorem asyncScope_joins_nestedSpawn :
    JoinsOnce nestedSpawn (asyncScope.exec start nestedSpawn) ∧
    continuations nestedSpawn = [some 1] :=
  ⟨asyncScope_joins (.of_enabled rfl (by decide +kernel)), by decide⟩

end Results

end AsyncScope
end Ptl

import Ptl.TransitionSystem
import Mathlib.Data.List.Count
import Mathlib.Logic.Function.Basic

/-!
# `scope_guard`

A guard executes its callback when it is destroyed, unless `dismissed_` is set.  While a
guard is under construction a failsafe guard holds a reference to the callback; it is
dismissed once the new guard is complete.  A guard that is moved from is dismissed.

This module embeds the constructors, `dismiss()` and the destructor on any number of guard
variables, for a callback type whose copy and move constructor may throw.  A callback may
throw as well, which ends the program if the guard is declared `noexcept` or an exception is
being handled.

**Results.**
* `Consistent.next`: at every throw point exactly one guard is left in charge.
* `fires_exactly_once`: a callback is executed once, when its construction fails or its owner
  leaves its scope, and never if its owner was dismissed.
-/

namespace Ptl
namespace ScopeGuard

open Transition

universe u v

/-- What the type traits tell about a callback type. -/
structure CallbackType where
  copyConstructible : Bool
  nothrowCopyConstructible : Bool
  nothrowMoveConstructible : Bool
deriving DecidableEq

/-- The constructors from `FT &`, from `const FT &` and from `FT &&`. -/
inductive Form where
  | lvalue
  | constLvalue
  | rvalue
deriving DecidableEq

namespace CallbackType

variable (F : CallbackType)

/-- The initialisation of `function_` by `std::move_if_noexcept(fn)` may throw. -/
def moveMayThrow : Bool :=
  if F.nothrowMoveConstructible then false
  else if F.copyConstructible then !F.nothrowCopyConstructible
  else true

/-- The initialisation of `function_` may throw. -/
def mayThrow : Form → Bool
  | .lvalue => !F.nothrowCopyConstructible
  | .constLvalue => !F.nothrowCopyConstructible
  | .rvalue => F.moveMayThrow

/-- The trait that selects the overload of `make_failsafe`. -/
def nothrow : Form → Bool
  | .lvalue => F.nothrowCopyConstructible
  | .constLvalue => F.nothrowCopyConstructible
  | .rvalue => F.nothrowMoveConstructible

/-- The constructor compiles. -/
def offers : Form → Bool
  | .lvalue => F.copyConstructible
  | .constLvalue => F.copyConstructible
  | .rvalue => true

end CallbackType

/-- `function_`, named by the callback it is or refers to, and `dismissed_`. -/
structure Guard (γ : Type v) where
  function : γ
  dismissed : Bool
deriving DecidableEq

/-- The guard variables and the callbacks that were executed. -/
structure State (ν : Type u) (γ : Type v) where
  guards : ν → Option (Guard γ)
  executed : List γ
  terminated : Bool

/--
The calls.  `throws` says that the initialisation of `function_` throws, and `callbackThrows`
that the callback does, if it is executed.  A scope may be left because of an exception.
-/
inductive Event (ν : Type u) (γ : Type v) where
  | construct (form : Form) (v : ν) (fn : γ) (throws callbackThrows : Bool)
  | move (v other : ν) (throws : Bool)
  | dismiss (v : ν)
  | destroy (v : ν) (unwinding callbackThrows : Bool)
deriving DecidableEq

/-- The base class alone, or a guard that holds a reference to the callback. -/
inductive Failsafe (γ : Type v) where
  | empty (dismissed : Bool)
  | guard (g : Guard γ)

namespace State

variable {ν : Type u} {γ : Type v}

/-- `execute()`, during the handling of an exception or not. -/
def execute (invokeNoexcept handling : Bool) (callbackThrows : Bool) (s : State ν γ) (fn : γ) :
    State ν γ :=
  { s with
    executed := s.executed ++ [fn]
    terminated := s.terminated || callbackThrows && (invokeNoexcept || handling) }

/-- `~scope_guard_impl`. -/
def destroyGuard (invokeNoexcept handling callbackThrows : Bool) (s : State ν γ) (g : Guard γ) :
    State ν γ :=
  if g.dismissed then s else s.execute invokeNoexcept handling callbackThrows g.function

def makeFailsafe (nothrow : Bool) (fn : γ) : Failsafe γ :=
  if nothrow then .empty false else .guard { function := fn, dismissed := false }

def dismissFailsafe : Failsafe γ → Failsafe γ
  | .empty _ => .empty true
  | .guard g => .guard { g with dismissed := true }

def destroyFailsafe (invokeNoexcept handling callbackThrows : Bool) (s : State ν γ) :
    Failsafe γ → State ν γ
  | .empty _ => s
  | .guard g => s.destroyGuard invokeNoexcept handling callbackThrows g

variable [DecidableEq ν]

/-- A public constructor, with the private one it delegates to. -/
def construct
    (F : CallbackType) (invokeNoexcept : Bool) (s : State ν γ)
    (form : Form) (v : ν) (fn : γ) (throws callbackThrows : Bool) :
    State ν γ :=
  let failsafe := makeFailsafe (F.nothrow form) fn
  if throws then s.destroyFailsafe invokeNoexcept true callbackThrows failsafe
  else
    let g : Guard γ := { function := fn, dismissed := false }
    let s := { s with guards := Function.update s.guards v (some g) }
    s.destroyFailsafe invokeNoexcept false callbackThrows (dismissFailsafe failsafe)

/-- The move constructor of a guard. -/
def moveConstruct (s : State ν γ) (v other : ν) (throws : Bool) : State ν γ :=
  match s.guards other with
  | none => s
  | some g =>
      if throws then s
      else
        -- `std::exchange(other.dismissed_, true)`
        let guards := Function.update s.guards other (some { g with dismissed := true })
        { s with guards := Function.update guards v (some g) }

def dismiss (s : State ν γ) (v : ν) : State ν γ :=
  match s.guards v with
  | none => s
  | some g => { s with guards := Function.update s.guards v (some { g with dismissed := true }) }

/-- The end of the scope of a guard variable. -/
def destroy (invokeNoexcept : Bool) (s : State ν γ) (v : ν) (unwinding callbackThrows : Bool) :
    State ν γ :=
  match s.guards v with
  | none => s
  | some g =>
      let s := { s with guards := Function.update s.guards v none }
      s.destroyGuard invokeNoexcept unwinding callbackThrows g

end State

variable {ν : Type u} {γ : Type v} [DecidableEq ν]

/-- A variable that is constructed holds no guard yet; the others have to. -/
def Event.guard (F : CallbackType) (s : State ν γ) : Event ν γ → Prop
  | construct form v _ throws _ =>
      s.guards v = none ∧ F.offers form = true ∧ (throws = true → F.mayThrow form = true)
  | move v other throws =>
      s.guards v = none ∧ (s.guards other).isSome = true ∧
        (throws = true → F.moveMayThrow = true)
  | dismiss v => (s.guards v).isSome = true
  | destroy v _ _ => (s.guards v).isSome = true

def Event.next (F : CallbackType) (invokeNoexcept : Bool) (s : State ν γ) :
    Event ν γ → State ν γ
  | construct form v fn throws callbackThrows =>
      s.construct F invokeNoexcept form v fn throws callbackThrows
  | move v other throws => s.moveConstruct v other throws
  | dismiss v => s.dismiss v
  | destroy v unwinding callbackThrows => s.destroy invokeNoexcept v unwinding callbackThrows

/-- All programs with guards; nothing happens after the program has terminated. -/
def guards (F : CallbackType) (invokeNoexcept : Bool) : System (State ν γ) (Event ν γ) where
  init := fun s => s = { guards := fun _ => none, executed := [], terminated := false }
  guard := fun s e => s.terminated = false ∧ e.guard F s
  next := fun s e => e.next F invokeNoexcept s

variable [DecidableEq γ]

/-- The callback of a construction. -/
def Event.constructs : Event ν γ → Option γ
  | construct _ _ fn _ _ => some fn
  | _ => none

/-- The variable whose guard is in charge of the callback after one more event. -/
def Event.owner (fn : γ) (o : Option ν) : Event ν γ → Option ν
  | construct _ v fn' throws _ => if fn' = fn ∧ throws = false then some v else o
  | move v other throws => if o = some other ∧ throws = false then some v else o
  | dismiss _ => o
  | destroy v _ _ => if o = some v then none else o

/-- The variable whose guard is in charge of the callback. -/
def owner (fn : γ) (tr : List (Event ν γ)) : Option ν :=
  tr.foldl (Event.owner fn) none

/-- The owner of the callback was dismissed at some time. -/
def Dismissed (fn : γ) (tr : List (Event ν γ)) : Prop :=
  ∃ es v fs, tr = es ++ .dismiss v :: fs ∧ owner fn es = some v

/-- The callbacks that guards were constructed for. -/
def constructed (tr : List (Event ν γ)) : List γ :=
  tr.filterMap Event.constructs

section Calls

variable {F : CallbackType} {invokeNoexcept : Bool} {s : State ν γ}
variable {form : Form} {v other : ν} {fn : γ} {g : Guard γ}
variable {unwinding throws callbackThrows : Bool}

/-- Where the initialisation may throw, there is a failsafe that executes the callback. -/
theorem nothrow_of_mayThrow
    (h : F.mayThrow form = true) :
    F.nothrow form = false := by
  cases form with
  | lvalue =>
      exact (Bool.not_eq_true' _).mp h
  | constLvalue =>
      exact (Bool.not_eq_true' _).mp h
  | rvalue =>
      rw [CallbackType.mayThrow, CallbackType.moveMayThrow] at h
      split at h
      · cases h
      · next hmove => simpa [CallbackType.nothrow] using hmove

omit [DecidableEq γ] in
theorem construct_of_throws
    (hmay : F.mayThrow form = true) :
    (s.construct F invokeNoexcept form v fn true callbackThrows).guards = s.guards ∧
      (s.construct F invokeNoexcept form v fn true callbackThrows).executed =
        s.executed ++ [fn] := by
  simp [State.construct, State.makeFailsafe, nothrow_of_mayThrow hmay, State.destroyFailsafe,
    State.destroyGuard, State.execute]

omit [DecidableEq γ] in
/-- On success the failsafe has been dismissed. -/
theorem construct_of_completes :
    (s.construct F invokeNoexcept form v fn false callbackThrows).guards =
        Function.update s.guards v (some { function := fn, dismissed := false }) ∧
      (s.construct F invokeNoexcept form v fn false callbackThrows).executed = s.executed := by
  cases hnothrow : F.nothrow form <;>
    simp [State.construct, State.makeFailsafe, hnothrow, State.dismissFailsafe,
      State.destroyFailsafe, State.destroyGuard]

omit [DecidableEq γ] in
theorem destroy_of_some
    (hg : s.guards v = some g) :
    (s.destroy invokeNoexcept v unwinding callbackThrows).guards = Function.update s.guards v none ∧
      (s.destroy invokeNoexcept v unwinding callbackThrows).executed =
        if g.dismissed then s.executed else s.executed ++ [g.function] := by
  simp only [State.destroy, hg, State.destroyGuard]
  split <;> exact ⟨rfl, rfl⟩

end Calls

section Traces

variable {tr : List (Event ν γ)} {e : Event ν γ} {fn : γ}

theorem owner_append_singleton (fn : γ) (tr : List (Event ν γ)) (e : Event ν γ) :
    owner fn (tr ++ [e]) = e.owner fn (owner fn tr) := by
  simp [owner]

theorem dismissed_append_singleton :
    Dismissed fn (tr ++ [e]) ↔
      Dismissed fn tr ∨ ∃ v, e = .dismiss v ∧ owner fn tr = some v := by
  constructor
  · rintro ⟨es, v, fs, heq, howner⟩
    rcases List.eq_nil_or_concat fs with rfl | ⟨gs, f, rfl⟩
    · obtain ⟨rfl, hlast⟩ := List.append_inj' heq rfl
      exact .inr ⟨v, by simpa using hlast, howner⟩
    · rw [List.concat_eq_append, ← List.cons_append, ← List.append_assoc] at heq
      exact .inl ⟨es, v, gs, (List.append_inj' heq rfl).1, howner⟩
  · rintro (⟨es, v, fs, rfl, howner⟩ | ⟨v, rfl, howner⟩)
    · exact ⟨es, v, fs ++ [e], by simp, howner⟩
    · exact ⟨tr, v, [], rfl, howner⟩

/-- Only a call of `dismiss` dismisses. -/
theorem dismissed_append_of_ne
    (he : ∀ v, e ≠ .dismiss v) :
    Dismissed fn (tr ++ [e]) ↔ Dismissed fn tr := by
  rw [dismissed_append_singleton, or_iff_left]
  rintro ⟨v, rfl, -⟩
  exact he v rfl

omit [DecidableEq ν] [DecidableEq γ] in
theorem mem_constructed_append :
    fn ∈ constructed (tr ++ [e]) ↔ fn ∈ constructed tr ∨ e.constructs = some fn := by
  rw [constructed, filterMap_append_singleton, List.mem_append, Option.mem_toList]
  rfl

omit [DecidableEq ν] [DecidableEq γ] in
/-- Only constructions construct. -/
theorem mem_constructed_append_of_none
    (he : e.constructs = none) :
    fn ∈ constructed (tr ++ [e]) ↔ fn ∈ constructed tr := by
  rw [mem_constructed_append, he, or_iff_left]
  rintro ⟨⟩

end Traces

/-- What the guards know about a callback agrees with its past. -/
structure Consistent (fn : γ) (tr : List (Event ν γ)) (s : State ν γ) : Prop where
  owned : ∀ v, owner fn tr = some v →
    ∃ g, s.guards v = some g ∧ g.function = fn ∧ (g.dismissed = true ↔ Dismissed fn tr)
  live : ∀ v g, s.guards v = some g → g.function = fn → g.dismissed = false →
    owner fn tr = some v
  fresh : fn ∉ constructed tr → owner fn tr = none ∧ ¬Dismissed fn tr
  executed : fn ∈ s.executed ↔ fn ∈ constructed tr ∧ ¬Dismissed fn tr ∧ owner fn tr = none
  once : s.executed.count fn ≤ 1

section Steps

variable {s s' : State ν γ} {tr : List (Event ν γ)} {form : Form} {v other : ν}
variable {fn fn' : γ} {g : Guard γ} {unwinding callbackThrows : Bool}

/-- One more execution of a callback that was not executed yet. -/
theorem count_append_le
    {l : List γ}
    (hnew : fn ∉ l) :
    (l ++ [fn]).count fn ≤ 1 := by
  simp [List.count_eq_zero_of_not_mem hnew]

/-- The guard of the owner. -/
theorem Consistent.owner_guard
    (h : Consistent fn tr s)
    (hv : owner fn tr = some v)
    (hg : s.guards v = some g) :
    g.function = fn ∧ (g.dismissed = true ↔ Dismissed fn tr) := by
  obtain ⟨g', hg', hrest⟩ := h.owned v hv
  rw [hg] at hg'
  cases hg'
  exact hrest

theorem Consistent.notMem_executed
    (h : Consistent fn tr s)
    (hnew : fn ∉ constructed tr) :
    fn ∉ s.executed := by
  rw [h.executed]
  exact fun hexecuted => hnew hexecuted.1

/-- The construction fails, and the failsafe has executed the callback. -/
theorem Consistent.constructFails
    (h : Consistent fn tr s)
    (hnew : fn' = fn → fn ∉ constructed tr)
    (hguards : s'.guards = s.guards)
    (hexecuted : s'.executed = s.executed ++ [fn']) :
    Consistent fn (tr ++ [.construct form v fn' true callbackThrows]) s' := by
  have howner : owner fn (tr ++ [.construct form v fn' true callbackThrows]) = owner fn tr := by
    rw [owner_append_singleton]
    simp [Event.owner]
  have hdismissed : Dismissed fn (tr ++ [.construct form v fn' true callbackThrows]) ↔
      Dismissed fn tr :=
    dismissed_append_of_ne (by simp)
  constructor
  · rw [howner, hguards, hdismissed]
    exact h.owned
  · rw [howner, hguards]
    exact h.live
  · intro hnot
    rw [mem_constructed_append, not_or] at hnot
    rw [howner, hdismissed]
    exact h.fresh hnot.1
  · rw [hexecuted, howner, hdismissed, List.mem_append, h.executed, mem_constructed_append]
    rcases eq_or_ne fn' fn with rfl | hne
    · obtain ⟨hnone, hnot⟩ := h.fresh (hnew rfl)
      simp [Event.constructs, hnone, hnot]
    · simp [Event.constructs, hne, hne.symm]
  · rw [hexecuted]
    rcases eq_or_ne fn' fn with rfl | hne
    · exact count_append_le (h.notMem_executed (hnew rfl))
    · simpa [List.count_append, hne] using h.once

/-- The construction succeeds, and the new guard is in charge. -/
theorem Consistent.constructs
    (h : Consistent fn tr s)
    (hempty : s.guards v = none)
    (hnew : fn' = fn → fn ∉ constructed tr)
    (hguards : s'.guards =
      Function.update s.guards v (some { function := fn', dismissed := false }))
    (hexecuted : s'.executed = s.executed) :
    Consistent fn (tr ++ [.construct form v fn' false callbackThrows]) s' := by
  have hdismissed : Dismissed fn (tr ++ [.construct form v fn' false callbackThrows]) ↔
      Dismissed fn tr :=
    dismissed_append_of_ne (by simp)
  rcases eq_or_ne fn' fn with rfl | hne
  · have howner : owner fn' (tr ++ [.construct form v fn' false callbackThrows]) = some v := by
      rw [owner_append_singleton]
      simp [Event.owner]
    obtain ⟨hnone, hnot⟩ := h.fresh (hnew rfl)
    constructor
    · rw [howner, hguards, hdismissed]
      rintro u ⟨⟩
      exact ⟨_, Function.update_self .., rfl, by simp [hnot]⟩
    · rw [howner, hguards]
      intro u g hu hfn hlive
      rcases eq_or_ne u v with rfl | huv
      · rfl
      · rw [Function.update_of_ne huv] at hu
        have howner' := h.live u g hu hfn hlive
        rw [hnone] at howner'
        cases howner'
    · intro hnot
      rw [mem_constructed_append, not_or] at hnot
      exact absurd rfl hnot.2
    · rw [hexecuted, howner]
      simp [h.notMem_executed (hnew rfl)]
    · rw [hexecuted]
      exact h.once
  · have howner : owner fn (tr ++ [.construct form v fn' false callbackThrows]) =
        owner fn tr := by
      rw [owner_append_singleton]
      simp [Event.owner, hne]
    constructor
    · rw [howner, hguards, hdismissed]
      intro u hu
      obtain ⟨g, hg, hrest⟩ := h.owned u hu
      have huv : u ≠ v := by
        rintro rfl
        rw [hempty] at hg
        cases hg
      exact ⟨g, by rw [Function.update_of_ne huv, hg], hrest⟩
    · rw [howner, hguards]
      intro u g hu hfn hlive
      rcases eq_or_ne u v with rfl | huv
      · rw [Function.update_self] at hu
        cases hu
        exact absurd hfn hne
      · rw [Function.update_of_ne huv] at hu
        exact h.live u g hu hfn hlive
    · intro hnot
      rw [mem_constructed_append, not_or] at hnot
      rw [howner, hdismissed]
      exact h.fresh hnot.1
    · rw [hexecuted, howner, hdismissed, h.executed, mem_constructed_append]
      simp [Event.constructs, hne]
    · rw [hexecuted]
      exact h.once

/-- A move that throws leaves the guard in charge that was in charge before. -/
theorem Consistent.moveFails
    (h : Consistent fn tr s)
    (hguards : s'.guards = s.guards)
    (hexecuted : s'.executed = s.executed) :
    Consistent fn (tr ++ [.move v other true]) s' := by
  have howner : owner fn (tr ++ [.move v other true]) = owner fn tr := by
    rw [owner_append_singleton]
    simp [Event.owner]
  have hdismissed : Dismissed fn (tr ++ [.move v other true]) ↔ Dismissed fn tr :=
    dismissed_append_of_ne (by simp)
  have hconstructed : fn ∈ constructed (tr ++ [.move v other true]) ↔ fn ∈ constructed tr :=
    mem_constructed_append_of_none rfl
  constructor
  · rw [howner, hguards, hdismissed]
    exact h.owned
  · rw [howner, hguards]
    exact h.live
  · rw [howner, hdismissed, hconstructed]
    exact h.fresh
  · rw [howner, hdismissed, hconstructed, hexecuted]
    exact h.executed
  · rw [hexecuted]
    exact h.once

/-- The guard that is moved from is dismissed, and the new one has its old flag. -/
theorem Consistent.moves
    (h : Consistent fn tr s)
    (hempty : s.guards v = none)
    (hg : s.guards other = some g)
    (hguards : s'.guards =
      Function.update (Function.update s.guards other (some { g with dismissed := true })) v
        (some g))
    (hexecuted : s'.executed = s.executed) :
    Consistent fn (tr ++ [.move v other false]) s' := by
  have hdismissed : Dismissed fn (tr ++ [.move v other false]) ↔ Dismissed fn tr :=
    dismissed_append_of_ne (by simp)
  have hconstructed : fn ∈ constructed (tr ++ [.move v other false]) ↔ fn ∈ constructed tr :=
    mem_constructed_append_of_none rfl
  have howner : owner fn (tr ++ [.move v other false]) =
      if owner fn tr = some other then some v else owner fn tr := by
    rw [owner_append_singleton]
    simp [Event.owner]
  constructor
  · intro u hu
    rw [howner] at hu
    rw [hguards, hdismissed]
    split at hu
    · next hother =>
        cases hu
        exact ⟨g, Function.update_self .., h.owner_guard hother hg⟩
    · next hother =>
        obtain ⟨g', hg', hrest⟩ := h.owned u hu
        have huv : u ≠ v := by
          rintro rfl
          rw [hempty] at hg'
          cases hg'
        have huo : u ≠ other := by
          rintro rfl
          exact hother hu
        exact ⟨g', by rw [Function.update_of_ne huv, Function.update_of_ne huo, hg'], hrest⟩
  · intro u g' hu hfn hlive
    rw [hguards] at hu
    rw [howner]
    rcases eq_or_ne u v with rfl | huv
    · rw [Function.update_self] at hu
      cases hu
      rw [if_pos (h.live other g hg hfn hlive)]
    · rw [Function.update_of_ne huv] at hu
      rcases eq_or_ne u other with rfl | huo
      · rw [Function.update_self] at hu
        cases hu
        cases hlive
      · rw [Function.update_of_ne huo] at hu
        have hcharge := h.live u g' hu hfn hlive
        rw [if_neg (by simp [hcharge, huo]), hcharge]
  · intro hnot
    rw [hconstructed] at hnot
    obtain ⟨hnone, hnever⟩ := h.fresh hnot
    simp [howner, hdismissed, hnone, hnever]
  · rw [hexecuted, hconstructed, hdismissed, howner, h.executed]
    split
    · next hother => simp [hother]
    · rfl
  · rw [hexecuted]
    exact h.once

/-- `dismiss` counts only for the guard in charge. -/
theorem Consistent.dismisses
    (h : Consistent fn tr s)
    (hg : s.guards v = some g)
    (hguards : s'.guards = Function.update s.guards v (some { g with dismissed := true }))
    (hexecuted : s'.executed = s.executed) :
    Consistent fn (tr ++ [.dismiss v]) s' := by
  have howner : owner fn (tr ++ [.dismiss v]) = owner fn tr := owner_append_singleton ..
  have hdismissed : Dismissed fn (tr ++ [.dismiss v]) ↔
      Dismissed fn tr ∨ owner fn tr = some v := by
    simp [dismissed_append_singleton]
  have hconstructed : fn ∈ constructed (tr ++ [.dismiss v]) ↔ fn ∈ constructed tr :=
    mem_constructed_append_of_none rfl
  constructor
  · intro u hu
    rw [howner] at hu
    rw [hguards, hdismissed]
    rcases eq_or_ne u v with rfl | huv
    · exact ⟨_, Function.update_self .., (h.owner_guard hu hg).1, by simp [hu]⟩
    · obtain ⟨g', hg', hfn, hflag⟩ := h.owned u hu
      refine ⟨g', by rw [Function.update_of_ne huv, hg'], hfn, ?_⟩
      rw [hflag, or_iff_left]
      simp [hu, huv]
  · intro u g' hu hfn hlive
    rw [hguards] at hu
    rw [howner]
    rcases eq_or_ne u v with rfl | huv
    · rw [Function.update_self] at hu
      cases hu
      cases hlive
    · rw [Function.update_of_ne huv] at hu
      exact h.live u g' hu hfn hlive
  · intro hnot
    rw [hconstructed] at hnot
    obtain ⟨hnone, hnever⟩ := h.fresh hnot
    simp [howner, hdismissed, hnone, hnever]
  · rw [hexecuted, hconstructed, hdismissed, howner, h.executed]
    cases owner fn tr <;> simp
  · rw [hexecuted]
    exact h.once

/-- The callback is executed with the guard in charge, unless that was dismissed. -/
theorem Consistent.destroys
    (h : Consistent fn tr s)
    (hg : s.guards v = some g)
    (hguards : s'.guards = Function.update s.guards v none)
    (hexecuted : s'.executed =
      if g.dismissed then s.executed else s.executed ++ [g.function]) :
    Consistent fn (tr ++ [.destroy v unwinding callbackThrows]) s' := by
  have hdismissed : Dismissed fn (tr ++ [.destroy v unwinding callbackThrows]) ↔ Dismissed fn tr :=
    dismissed_append_of_ne (by simp)
  have hconstructed : fn ∈ constructed (tr ++ [.destroy v unwinding callbackThrows]) ↔
      fn ∈ constructed tr :=
    mem_constructed_append_of_none rfl
  have howner : owner fn (tr ++ [.destroy v unwinding callbackThrows]) =
      if owner fn tr = some v then none else owner fn tr :=
    owner_append_singleton ..
  have hcalls : fn ∈ s'.executed ∧ s'.executed.count fn = 1 ∧ owner fn tr = some v ∧
        ¬Dismissed fn tr ∨
      (fn ∈ s'.executed ↔ fn ∈ s.executed) ∧ s'.executed.count fn = s.executed.count fn ∧
        (owner fn tr = some v → Dismissed fn tr) := by
    rw [hexecuted]
    split
    · next hflag =>
        exact .inr ⟨Iff.rfl, rfl, fun hv => (h.owner_guard hv hg).2.mp hflag⟩
    · next hflag =>
        rcases eq_or_ne g.function fn with hfn | hne
        · have hcharge := h.live v g hg hfn ((Bool.not_eq_true _).mp hflag)
          have hiff := (h.owner_guard hcharge hg).2
          have hnew : fn ∉ s.executed := by
            rw [h.executed, hcharge]
            rintro ⟨-, -, ⟨⟩⟩
          refine .inl ⟨by simp [hfn], ?_, hcharge, fun hd => hflag (hiff.mpr hd)⟩
          simp [hfn, List.count_eq_zero_of_not_mem hnew]
        · refine .inr ⟨by simp [hne.symm], by simp [List.count_append, hne], fun hv => ?_⟩
          exact absurd (h.owner_guard hv hg).1 hne
  constructor
  · intro u hu
    rw [howner] at hu
    split at hu
    · cases hu
    · next hv =>
        obtain ⟨g', hg', hrest⟩ := h.owned u hu
        have huv : u ≠ v := by
          rintro rfl
          exact hv hu
        exact ⟨g', by rw [hguards, Function.update_of_ne huv, hg'], by rwa [hdismissed]⟩
  · intro u g' hu hfn hlive
    rw [hguards] at hu
    rw [howner]
    rcases eq_or_ne u v with rfl | huv
    · rw [Function.update_self] at hu
      cases hu
    · rw [Function.update_of_ne huv] at hu
      have hcharge := h.live u g' hu hfn hlive
      rw [if_neg (by simp [hcharge, huv]), hcharge]
  · intro hnot
    rw [hconstructed] at hnot
    obtain ⟨hnone, hnever⟩ := h.fresh hnot
    simp [howner, hdismissed, hnone, hnever]
  · rw [hconstructed, hdismissed, howner]
    rcases hcalls with ⟨hmem, -, hcharge, hnever⟩ | ⟨hmem, -, hcharge⟩
    · have hold : fn ∈ constructed tr := by
        by_contra hnot
        rw [(h.fresh hnot).1] at hcharge
        cases hcharge
      simp [hmem, hold, hnever, hcharge]
    · rw [hmem, h.executed]
      split
      · next hv => simp [hcharge hv]
      · rfl
  · rcases hcalls with ⟨-, hcount, -⟩ | ⟨-, hcount, -⟩
    · exact Nat.le_of_eq hcount
    · rw [hcount]
      exact h.once

end Steps

section Runs

variable {F : CallbackType} {invokeNoexcept : Bool} {tr : List (Event ν γ)} {s : State ν γ}
variable {fn : γ} {e : Event ν γ}

/-- Every event hands the callback from one guard to the next, or executes it. -/
theorem Consistent.next
    (h : Consistent fn tr s)
    (hguard : (guards F invokeNoexcept).guard s e)
    (hnew : e.constructs = some fn → fn ∉ constructed tr) :
    Consistent fn (tr ++ [e]) ((guards F invokeNoexcept).next s e) := by
  obtain ⟨-, henabled⟩ := hguard
  cases e with
  | construct form v fn' throws callbackThrows =>
      obtain ⟨hempty, -, hmay⟩ := henabled
      replace hnew : fn' = fn → fn ∉ constructed tr := fun hfn => hnew (congrArg some hfn)
      cases throws with
      | true =>
          have hmay : F.mayThrow form = true := hmay rfl
          exact h.constructFails hnew (construct_of_throws (v := v) hmay).1
            (construct_of_throws (v := v) hmay).2
      | false =>
          exact h.constructs hempty hnew construct_of_completes.1 construct_of_completes.2
  | move v other throws =>
      obtain ⟨hempty, hother, -⟩ := henabled
      obtain ⟨g, hg⟩ := Option.isSome_iff_exists.mp hother
      cases throws with
      | true =>
          exact h.moveFails (by simp [guards, Event.next, State.moveConstruct, hg])
            (by simp [guards, Event.next, State.moveConstruct, hg])
      | false =>
          exact h.moves hempty hg (by simp [guards, Event.next, State.moveConstruct, hg])
            (by simp [guards, Event.next, State.moveConstruct, hg])
  | dismiss v =>
      obtain ⟨g, hg⟩ := Option.isSome_iff_exists.mp henabled
      exact h.dismisses hg (by simp [guards, Event.next, State.dismiss, hg])
        (by simp [guards, Event.next, State.dismiss, hg])
  | destroy v unwinding callbackThrows =>
      obtain ⟨g, hg⟩ := Option.isSome_iff_exists.mp henabled
      exact h.destroys hg (destroy_of_some hg).1 (destroy_of_some hg).2

/-- Along a run in which at most one guard is constructed for the callback. -/
theorem consistent_of_run
    (hrun : (guards F invokeNoexcept).Run tr s)
    (honce : (constructed tr).count fn ≤ 1) :
    Consistent fn tr s := by
  induction hrun with
  | start hinit =>
      cases hinit
      constructor <;> simp [owner, constructed, Dismissed]
  | @step tr s e hrun hguard ih =>
      rw [constructed, filterMap_append_singleton, List.count_append] at honce
      refine (ih (Nat.le_of_add_right_le honce)).next hguard fun hfn hmem => ?_
      have hpos := List.count_pos_iff.mpr hmem
      rw [hfn, Option.toList_some, List.count_singleton_self] at honce
      exact absurd hpos (Nat.not_lt.mpr (Nat.le_of_succ_le_succ honce))

/--
In every run, a callback is executed never if its owner was dismissed, and otherwise once, as
soon as no guard is in charge of it any more.  When all guards have left their scopes, none is.
-/
theorem fires_exactly_once
    (hrun : (guards F invokeNoexcept).Run tr s)
    (honce : (constructed tr).count fn ≤ 1) :
    (Dismissed fn tr → s.executed.count fn = 0) ∧
      (fn ∈ constructed tr → ¬Dismissed fn tr →
        s.executed.count fn = if (owner fn tr).isSome then 0 else 1) ∧
      ((∀ v, s.guards v = none) → owner fn tr = none) := by
  have h := consistent_of_run hrun honce
  refine ⟨fun hdismissed => ?_, fun hconstructed hnever => ?_, fun hempty => ?_⟩
  · rw [List.count_eq_zero, h.executed]
    exact fun hexecuted => hexecuted.2.1 hdismissed
  · cases howner : owner fn tr with
    | some v =>
        rw [Option.isSome_some, if_pos rfl, List.count_eq_zero, h.executed, howner]
        rintro ⟨-, -, ⟨⟩⟩
    | none =>
        have hmem : fn ∈ s.executed := h.executed.mpr ⟨hconstructed, hnever, howner⟩
        have hpos := List.count_pos_iff.mpr hmem
        simpa using Nat.le_antisymm h.once hpos
  · by_contra hsome
    obtain ⟨v, hv⟩ := Option.ne_none_iff_exists'.mp hsome
    obtain ⟨g, hg, -⟩ := h.owned v hv
    rw [hempty v] at hg
    cases hg

omit [DecidableEq ν] in
instance decidableEventGuard (F : CallbackType) (s : State ν γ) :
    ∀ e : Event ν γ, Decidable (e.guard F s)
  | .construct form _ _ throws _ =>
      inferInstanceAs (Decidable (_ = none ∧ _ ∧ (throws = true → F.mayThrow form = true)))
  | .move _ _ throws =>
      inferInstanceAs (Decidable (_ = none ∧ _ ∧ (throws = true → F.moveMayThrow = true)))
  | .dismiss v => inferInstanceAs (Decidable ((s.guards v).isSome = true))
  | .destroy v _ _ => inferInstanceAs (Decidable ((s.guards v).isSome = true))

instance decidableGuards (F : CallbackType) (invokeNoexcept : Bool) (s : State ν γ)
    (e : Event ν γ) :
    Decidable ((guards F invokeNoexcept).guard s e) :=
  inferInstanceAs (Decidable (s.terminated = false ∧ e.guard F s))

end Runs

/-- Copying and moving may throw. -/
def throwing : CallbackType where
  copyConstructible := true
  nothrowCopyConstructible := false
  nothrowMoveConstructible := false

/--
The construction for callback `0` throws.  The guard of callback `1` is moved, at the second
attempt, and the guard of callback `2` is dismissed.
-/
def throwPoints : List (Event ℕ ℕ) :=
  [.construct .lvalue 0 0 true false, .construct .rvalue 0 1 false false,
    .move 1 0 true, .move 1 0 false, .dismiss 0, .construct .constLvalue 2 2 false false,
    .dismiss 2, .destroy 2 true false, .destroy 1 true false, .destroy 0 true false]

theorem fires_exactly_once_throwPoints :
    ∃ s : State ℕ ℕ, (guards throwing false).Run throwPoints s ∧
      s.executed = [0, 1] ∧ s.executed.count 2 = 0 := by
  have hrun : (guards throwing false).Run throwPoints _ :=
    .of_enabled rfl (by decide)
  have hdismissed : Dismissed 2 throwPoints :=
    ⟨throwPoints.take 6, 2, throwPoints.drop 7, rfl, rfl⟩
  exact ⟨_, hrun, rfl, (fires_exactly_once hrun (by decide)).1 hdismissed⟩

end ScopeGuard
end Ptl

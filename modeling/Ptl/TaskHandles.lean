import Ptl.TransitionSystem
import Ptl.HandleVariables

/-!
# Variables of type `Task`

This module embeds the constructors, the move assignment and the destructor of
`Task`, `is_ready` and the part of `co_await` that goes through `coroutine_`,
over the coroutine frames the variables own.  The wait tasks have the same
constructors and the same destructor.

Any operation may be applied to any variable at any time, also while its coroutine runs,
waits in a `co_await` of its own or is being awaited.  The awaitable of `co_await` has its
own copy of the handle, and its `await_resume` may come at any time, also before the
coroutine ends.  It is undefined, and recorded, to destroy a frame that runs or does not
exist, to resume a coroutine that is not suspended, and to access through a handle a frame
that does not exist; `done()` asks only a coroutine that is suspended.

**Results.**
* `Owned.next`: every frame that exists has exactly one owner.
* `tasks_linear`: each frame is destroyed once, when its last owner gives it up,
  and which operations are undefined.
-/

namespace Ptl
namespace TaskHandle

open Transition Handles

universe u v

/--
A coroutine frame: before its creation, suspended at `initial_suspend`, running, suspended
in a `co_await` of its own, done or destroyed.
-/
inductive Frame where
  | fresh
  | suspended
  | running
  | waiting
  | done
  | destroyed
deriving DecidableEq

namespace Frame

/-- The number of variables that own the frame. -/
def owners : Frame → Nat
  | fresh => 0
  | destroyed => 0
  | _ => 1

/-- The frame is between its creation and its destruction. -/
def Exists : Frame → Prop
  | fresh => False
  | destroyed => False
  | _ => True

/-- The coroutine is at a suspension point. -/
def Suspended : Frame → Prop
  | suspended => True
  | waiting => True
  | done => True
  | _ => False

instance decidableExists : DecidablePred Exists := by
  intro f
  cases f <;> unfold Exists <;> infer_instance

instance decidableSuspended : DecidablePred Suspended := by
  intro f
  cases f <;> unfold Suspended <;> infer_instance

theorem exists_iff_owners (f : Frame) :
    f.Exists ↔ f.owners = 1 := by
  cases f <;> simp [Exists, owners]

/-- A frame that exists is suspended or runs. -/
theorem Exists.suspended_iff
    {f : Frame}
    (h : f.Exists) :
    f.Suspended ↔ f ≠ .running := by
  cases f <;> simp [Exists, Suspended] at h ⊢

end Frame

/--
The variables and their `coroutine_`, the frames and the calls of `destroy()`.
`awaitables` are the handles in the awaitables of `co_await`s, until their `await_resume`
has read the promise, and `pending` those with which coroutines that wait will be resumed.
-/
structure State (ν : Type u) (κ : Type v) where
  vars : Variables ν κ
  frame : κ → Frame
  awaitables : List κ
  pending : List κ
  destroyed : List κ
  undefined : Bool

namespace State

variable {ν : Type u} {κ : Type v} [DecidableEq ν] [DecidableEq κ]

/-- No variable and no frame yet. -/
def start : State ν κ where
  vars := .empty
  frame := fun _ => .fresh
  awaitables := []
  pending := []
  destroyed := []
  undefined := false

def setFrame (s : State ν κ) (p : κ) (f : Frame) : State ν κ :=
  { s with frame := Function.update s.frame p f }

/-- `coroutine_.destroy()`, which is only defined for a suspended coroutine. -/
def destroyFrame (s : State ν κ) (p : κ) : State ν κ :=
  { s.setFrame p .destroyed with
    destroyed := s.destroyed ++ [p]
    undefined := s.undefined || !(s.frame p).Suspended }

/-- `if (coroutine_) coroutine_.destroy()`. -/
def release (s : State ν κ) : Option κ → State ν κ
  | some p => s.destroyFrame p
  | none => s

def construct (s : State ν κ) (a : ν) : State ν κ :=
  { s with vars := s.vars.declare a none }

/-- The call of a coroutine, which stops at its initial suspend point. -/
def call (s : State ν κ) (a : ν) (p : κ) : State ν κ :=
  { s.setFrame p .suspended with vars := s.vars.declare a (some p) }

def moveConstruct (s : State ν κ) (a b : ν) : State ν κ :=
  { s with vars := s.vars.move a b }

/-- `operator=(Task&&)`, which does nothing if both are the same variable. -/
def moveAssign (s : State ν κ) (a b : ν) : State ν κ :=
  if a = b then s
  else
    { s.release (s.vars.ptr a) with
      vars := (s.vars.assign a (s.vars.ptr b)).assign b none }

def destroy (s : State ν κ) (a : ν) : State ν κ :=
  { s.release (s.vars.ptr a) with vars := s.vars.remove a }

/-- `is_ready`, which asks `done()` only if there is a coroutine. -/
def isReady (s : State ν κ) (a : ν) : State ν κ :=
  match s.vars.ptr a with
  | some p => { s with undefined := s.undefined || !(s.frame p).Suspended }
  | none => s

/--
`co_await` up to the suspension.  A `Task` without a coroutine is ready, and its
`await_resume` reads the promise of no frame.  `await_ready` asks `done()`; a coroutine
that is not done gets the continuation and is resumed, wherever it is suspended.
-/
def coAwait (s : State ν κ) (a : ν) : State ν κ :=
  match s.vars.ptr a with
  | none => { s with undefined := true }
  | some p =>
      if (s.frame p).Suspended then
        if s.frame p = .done then { s with awaitables := s.awaitables ++ [p] }
        else { s.setFrame p .running with awaitables := s.awaitables ++ [p] }
      else { s with undefined := true }

/-- The coroutine suspends in a `co_await` of its own. -/
def wait (s : State ν κ) (p : κ) : State ν κ :=
  { s.setFrame p .waiting with pending := s.pending ++ [p] }

/-- What the coroutine has waited for resumes it. -/
def wake (s : State ν κ) (p : κ) : State ν κ :=
  if s.frame p = .waiting then
    { s.setFrame p .running with pending := s.pending.erase p }
  else { s with pending := s.pending.erase p, undefined := true }

/-- The coroutine comes to its final suspend point. -/
def finish (s : State ν κ) (p : κ) : State ν κ :=
  s.setFrame p .done

/-- `await_resume` in the awaiting coroutine, which reads the promise. -/
def awaitResume (s : State ν κ) (p : κ) : State ν κ :=
  { s with
    awaitables := s.awaitables.erase p
    undefined := s.undefined || !(s.frame p).Exists }

end State

inductive Event (ν : Type u) (κ : Type v) where
  | construct (a : ν)
  | call (a : ν) (p : κ)
  | moveConstruct (a b : ν)
  | moveAssign (a b : ν)
  | destroy (a : ν)
  | isReady (a : ν)
  | coAwait (a : ν)
  | wait (p : κ)
  | wake (p : κ)
  | finish (p : κ)
  | awaitResume (p : κ)
deriving DecidableEq

namespace Event

variable {ν : Type u} {κ : Type v} [DecidableEq ν] [DecidableEq κ]

/-- What is used is declared, what is constructed is not, and coroutines take their steps. -/
def Allowed (s : State ν κ) : Event ν κ → Prop
  | construct a => a ∉ s.vars.declared
  | call a p => a ∉ s.vars.declared ∧ s.frame p = .fresh
  | moveConstruct a b => a ∉ s.vars.declared ∧ b ∈ s.vars.declared
  | moveAssign a b => a ∈ s.vars.declared ∧ b ∈ s.vars.declared
  | destroy a => a ∈ s.vars.declared
  | isReady a => a ∈ s.vars.declared
  | coAwait a => a ∈ s.vars.declared
  | wait p => s.frame p = .running
  | wake p => p ∈ s.pending
  | finish p => s.frame p = .running
  | awaitResume p => p ∈ s.awaitables

instance decidableAllowed (s : State ν κ) (e : Event ν κ) : Decidable (e.Allowed s) := by
  cases e <;> unfold Allowed <;> infer_instance

def apply (s : State ν κ) : Event ν κ → State ν κ
  | construct a => s.construct a
  | call a p => s.call a p
  | moveConstruct a b => s.moveConstruct a b
  | moveAssign a b => s.moveAssign a b
  | destroy a => s.destroy a
  | isReady a => s.isReady a
  | coAwait a => s.coAwait a
  | wait p => s.wait p
  | wake p => s.wake p
  | finish p => s.finish p
  | awaitResume p => s.awaitResume p

end Event

variable {ν : Type u} {κ : Type v} [DecidableEq ν] [DecidableEq κ]

/-- All sequences of operations on variables of type `Task` and steps of coroutines. -/
def taskVariables : System (State ν κ) (Event ν κ) where
  init := fun s => s = .start
  guard := fun s e => e.Allowed s
  next := Event.apply

instance decidableTaskGuard (s : State ν κ) (e : Event ν κ) :
    Decidable (taskVariables.guard s e) :=
  inferInstanceAs (Decidable (e.Allowed s))

section Owners

/--
Every frame that exists has one owner, apart from the frame `q` that has just lost it.
-/
structure Owned (s : State ν κ) (q : Option κ) : Prop where
  holders : ∀ p, s.vars.holders p + points q p = (s.frame p).owners
  mem : ∀ p, p ∈ s.destroyed ↔ s.frame p = .destroyed
  nodup : s.destroyed.Nodup
  created : ∀ p ∈ s.awaitables, s.frame p ≠ .fresh

variable {s : State ν κ} {a b : ν} {p : κ}

omit [DecidableEq ν] in
/-- The frame a declared variable points to exists. -/
theorem Owned.exists_frame
    {q : Option κ}
    (h : Owned s q)
    (ha : a ∈ s.vars.declared)
    (hp : s.vars.ptr a = some p) :
    (s.frame p).Exists := by
  have hpos := Variables.holders_pos ha hp
  have hp := h.holders p
  rw [Frame.exists_iff_owners]
  cases hf : s.frame p <;> simp [hf, Frame.owners] at hp ⊢ <;> omega

omit [DecidableEq ν] in
/-- Two declared variables do not point to one frame. -/
theorem Owned.ptr_inj
    (h : Owned s none)
    (ha : a ∈ s.vars.declared)
    (hb : b ∈ s.vars.declared)
    (hpa : s.vars.ptr a = some p)
    (hpb : s.vars.ptr b = some p) :
    a = b := by
  have hholders := h.holders p
  have hle : s.vars.holders p ≤ 1 := by
    cases hf : s.frame p <;> simp [hf, Frame.owners] at hholders <;> omega
  exact Finset.card_le_one.mp hle a (Finset.mem_filter.mpr ⟨ha, hpa⟩) b
    (Finset.mem_filter.mpr ⟨hb, hpb⟩)

omit [DecidableEq ν] in
/-- A frame that has lost its owner is destroyed. -/
theorem Owned.release
    {q : Option κ}
    (h : Owned s q)
    (hq : ∀ p, q = some p → (s.frame p).Exists) :
    Owned (s.release q) none := by
  cases q with
  | none =>
      exact h
  | some p =>
      have hp := hq p rfl
      refine ⟨?_, ?_, ?_, ?_⟩
      · intro p'
        have hholders := h.holders p'
        rcases eq_or_ne p' p with rfl | hne
        · rw [(Frame.exists_iff_owners _).mp hp] at hholders
          simpa [State.release, State.destroyFrame, State.setFrame, Frame.owners]
            using hholders
        · simpa [State.release, State.destroyFrame, State.setFrame, hne, points_of_ne hne]
            using hholders
      · intro p'
        have hmem := h.mem p'
        rcases eq_or_ne p' p with rfl | hne <;>
          simp_all [State.release, State.destroyFrame, State.setFrame]
      · have hnot : p ∉ s.destroyed := by
          rw [h.mem]
          intro hd
          rw [hd] at hp
          exact hp
        exact List.nodup_append.mpr ⟨h.nodup, List.nodup_singleton p, by
          rintro p' hp' p'' hp'' rfl
          obtain rfl := List.mem_singleton.mp hp''
          exact hnot hp'⟩
      · intro p' hp'
        rcases eq_or_ne p' p with rfl | hne
        · simp [State.release, State.destroyFrame, State.setFrame]
        · simpa [State.release, State.destroyFrame, State.setFrame, hne] using h.created p' hp'

omit [DecidableEq ν] in
theorem release_vars (q : Option κ) (x : Variables ν κ) :
    { s.release q with vars := x } = ({ s with vars := x } : State ν κ).release q := by
  cases q <;> rfl

omit [DecidableEq ν] in
/-- New variables that keep the frames' owners, but for the handle `q`. -/
theorem Owned.with_vars
    {x : Variables ν κ} {q : Option κ}
    (h : Owned s none)
    (hholders : ∀ p, x.holders p + points q p = s.vars.holders p) :
    Owned { s with vars := x } q where
  holders := by
    intro p
    have hp := h.holders p
    rw [points_none, Nat.add_zero] at hp
    exact (hholders p).trans hp
  mem := h.mem
  nodup := h.nodup
  created := h.created

theorem Owned.construct
    (h : Owned s none)
    (ha : a ∉ s.vars.declared) :
    Owned (s.construct a) none := by
  refine h.with_vars fun p => ?_
  rw [Variables.holders_declare ha none p]
  rfl

theorem Owned.moveConstruct
    (h : Owned s none)
    (ha : a ∉ s.vars.declared)
    (hb : b ∈ s.vars.declared) :
    Owned (s.moveConstruct a b) none := by
  refine h.with_vars fun p => ?_
  rw [Variables.holders_move ha hb p]
  rfl

theorem Owned.call
    (h : Owned s none)
    (ha : a ∉ s.vars.declared)
    (hp : s.frame p = .fresh) :
    Owned (s.call a p) none := by
  refine ⟨?_, ?_, h.nodup, ?_⟩
  · intro p'
    have hdeclare := Variables.holders_declare ha (some p) p'
    have hholders := h.holders p'
    rw [points_none, Nat.add_zero] at hholders ⊢
    change (s.vars.declare a (some p)).holders p' = _
    rw [hdeclare, hholders]
    rcases eq_or_ne p' p with rfl | hne
    · simp [State.call, State.setFrame, hp, Frame.owners]
    · simp [State.call, State.setFrame, hne, points_of_ne hne]
  · intro p'
    have hmem := h.mem p'
    rcases eq_or_ne p' p with rfl | hne
    · simpa [State.call, State.setFrame, hp] using hmem
    · simpa [State.call, State.setFrame, hne] using hmem
  · intro p' hp'
    rcases eq_or_ne p' p with rfl | hne
    · simp [State.call, State.setFrame]
    · simpa [State.call, State.setFrame, hne] using h.created p' hp'

/-- The assigned variable gives up its frame and takes over that of the other one. -/
theorem Owned.moveAssign
    (h : Owned s none)
    (ha : a ∈ s.vars.declared)
    (hb : b ∈ s.vars.declared) :
    Owned (s.moveAssign a b) none := by
  unfold State.moveAssign
  split
  next =>
      exact h
  next hne =>
      rw [release_vars]
      refine (h.with_vars (x := (s.vars.assign a (s.vars.ptr b)).assign b none)
        (q := s.vars.ptr a) fun p => ?_).release fun p hp => h.exists_frame ha hp
      have hfirst := Variables.holders_assign ha (s.vars.ptr b) p
      have hsecond := Variables.holders_assign (x := s.vars.assign a (s.vars.ptr b))
        (a := b) hb none p
      have hptr : (s.vars.assign a (s.vars.ptr b)).ptr b = s.vars.ptr b :=
        Function.update_of_ne (Ne.symm hne) _ _
      rw [hptr, points_none, Nat.add_zero] at hsecond
      omega

theorem Owned.destroy
    (h : Owned s none)
    (ha : a ∈ s.vars.declared) :
    Owned (s.destroy a) none := by
  unfold State.destroy
  rw [release_vars]
  exact (h.with_vars (Variables.holders_remove ha)).release fun p hp => h.exists_frame ha hp

omit [DecidableEq ν] in
/-- A coroutine goes on, or ends, while its owner stays what it was. -/
theorem Owned.setFrame
    {f : Frame} {w : List κ}
    (h : Owned s none)
    (howners : f.owners = 1)
    (hp : (s.frame p).Exists)
    (hw : ∀ p' ∈ w, p' = p ∨ p' ∈ s.awaitables) :
    Owned { s.setFrame p f with awaitables := w } none := by
  have hf : f.Exists := (Frame.exists_iff_owners f).mpr howners
  refine ⟨?_, ?_, h.nodup, ?_⟩
  · intro p'
    have hholders := h.holders p'
    rcases eq_or_ne p' p with rfl | hne
    · rw [(Frame.exists_iff_owners _).mp hp] at hholders
      simpa [State.setFrame, howners] using hholders
    · simpa [State.setFrame, hne] using hholders
  · intro p'
    have hmem := h.mem p'
    rcases eq_or_ne p' p with rfl | hne
    · have hnew : f ≠ .destroyed := by
        rintro rfl
        exact hf
      have hold : s.frame p' ≠ .destroyed := by
        intro hold
        simp [hold, Frame.Exists] at hp
      simpa [State.setFrame, hnew, hold] using hmem
    · simpa [State.setFrame, hne] using hmem
  · intro p' hp'
    rcases eq_or_ne p' p with rfl | hne
    · have hnew : f ≠ .fresh := by
        rintro rfl
        exact hf
      simpa [State.setFrame] using hnew
    · simpa [State.setFrame, hne] using h.created p' ((hw p' hp').resolve_left hne)

end Owners

section Results

/-- The variable is empty, or its coroutine does not run. -/
def Idle (s : State ν κ) (a : ν) : Prop :=
  ∀ p, s.vars.ptr a = some p → s.frame p ≠ .running

/--
No empty `Task` is awaited.  No `Task` is awaited, asked whether it is ready, destroyed or
assigned over while its coroutine runs.  What a coroutine has waited for resumes it only
while it waits, and `await_resume` reads no promise in a destroyed frame.
-/
def Safe (s : State ν κ) : Event ν κ → Prop
  | .coAwait a => s.vars.ptr a ≠ none ∧ Idle s a
  | .isReady a => Idle s a
  | .destroy a => Idle s a
  | .moveAssign a b => a ≠ b → Idle s a
  | .wake p => s.frame p = .waiting
  | .awaitResume p => p ∉ s.destroyed
  | _ => True

variable {s : State ν κ} {a b : ν} {p : κ} {e : Event ν κ} {tr : List (Event ν κ)}

omit [DecidableEq ν] [DecidableEq κ] in
theorem undefined_or_not_suspended
    (hp : (s.frame p).Exists) :
    (s.undefined || !decide (s.frame p).Suspended) = false ↔
      s.undefined = false ∧ s.frame p ≠ .running := by
  rw [Bool.or_eq_false_iff, Bool.not_eq_false', decide_eq_true_iff, hp.suspended_iff]

omit [DecidableEq ν] in
/-- The frame of a declared variable is destroyed. -/
theorem Owned.release_undefined
    (h : Owned s none)
    (ha : a ∈ s.vars.declared) :
    (s.release (s.vars.ptr a)).undefined = false ↔ s.undefined = false ∧ Idle s a := by
  unfold Idle
  cases hp : s.vars.ptr a with
  | none =>
      simp [State.release]
  | some p =>
      refine (undefined_or_not_suspended (h.exists_frame ha hp)).trans ?_
      simp

omit [DecidableEq ν] in
theorem Owned.isReady
    (h : Owned s none)
    (ha : a ∈ s.vars.declared) :
    Owned (s.isReady a) none ∧
      ((s.isReady a).undefined = false ↔ s.undefined = false ∧ Idle s a) := by
  unfold State.isReady Idle
  cases hp : s.vars.ptr a with
  | none =>
      exact ⟨h, by simp⟩
  | some p =>
      exact ⟨⟨h.holders, h.mem, h.nodup, h.created⟩,
        by simpa using undefined_or_not_suspended (h.exists_frame ha hp)⟩

omit [DecidableEq ν] in
/-- `co_await` of a variable, up to the suspension. -/
theorem Owned.coAwait
    (h : Owned s none)
    (ha : a ∈ s.vars.declared) :
    Owned (s.coAwait a) none ∧
      ((s.coAwait a).undefined = false ↔
        s.undefined = false ∧ s.vars.ptr a ≠ none ∧ Idle s a) := by
  unfold State.coAwait Idle
  cases hp : s.vars.ptr a with
  | none =>
      exact ⟨⟨h.holders, h.mem, h.nodup, h.created⟩, by simp⟩
  | some p =>
      have hexists := h.exists_frame ha hp
      by_cases hs : (s.frame p).Suspended
      · have hidle := hexists.suspended_iff.mp hs
        simp only [if_pos hs]
        have hlist : ∀ p' ∈ s.awaitables ++ [p], p' = p ∨ p' ∈ s.awaitables := by
          intro p' hp'
          rcases List.mem_append.mp hp' with hold | hnew
          · exact .inr hold
          · exact .inl (List.mem_singleton.mp hnew)
        by_cases hd : s.frame p = .done
        · simp only [if_pos hd]
          refine ⟨⟨h.holders, h.mem, h.nodup, fun p' hp' => ?_⟩, by simp [hidle]⟩
          rcases hlist p' hp' with rfl | hold
          · rw [hd]
            exact Frame.noConfusion
          · exact h.created p' hold
        · simp only [if_neg hd]
          have hnext := h.setFrame (f := .running) (w := s.awaitables ++ [p]) rfl hexists hlist
          exact ⟨⟨hnext.holders, hnext.mem, hnext.nodup, hnext.created⟩,
            by simp [hidle, State.setFrame]⟩
      · have hruns : s.frame p = .running := by
          by_contra hruns
          exact hs (hexists.suspended_iff.mpr hruns)
        simp only [if_neg hs]
        exact ⟨⟨h.holders, h.mem, h.nodup, h.created⟩, by simp [hruns]⟩

omit [DecidableEq ν] in
/-- A coroutine is resumed from what it waits for. -/
theorem Owned.wake
    (h : Owned s none) :
    Owned (s.wake p) none ∧
      ((s.wake p).undefined = false ↔ s.undefined = false ∧ s.frame p = .waiting) := by
  unfold State.wake
  by_cases hp : s.frame p = .waiting
  · have hnext := h.setFrame (p := p) (f := .running) (w := s.awaitables) rfl
      (by simp [hp, Frame.Exists]) fun p' hp' => .inr hp'
    simp only [if_pos hp]
    exact ⟨⟨hnext.holders, hnext.mem, hnext.nodup, hnext.created⟩,
      by simp [hp, State.setFrame]⟩
  · simp only [if_neg hp]
    exact ⟨⟨h.holders, h.mem, h.nodup, h.created⟩, by simp [hp]⟩

omit [DecidableEq ν] in
theorem Owned.awaitResume
    (h : Owned s none)
    (hp : p ∈ s.awaitables) :
    Owned (s.awaitResume p) none ∧
      ((s.awaitResume p).undefined = false ↔ s.undefined = false ∧ p ∉ s.destroyed) := by
  have hexists : (s.frame p).Exists ↔ p ∉ s.destroyed := by
    have hcreated := h.created p hp
    rw [h.mem]
    cases hf : s.frame p <;> simp [hf, Frame.Exists] at hcreated ⊢
  refine ⟨⟨h.holders, h.mem, h.nodup, ?_⟩, ?_⟩
  · exact fun p' hp' => h.created p' (List.mem_of_mem_erase hp')
  · change (s.undefined || !decide (s.frame p).Exists) = false ↔ _
    rw [Bool.or_eq_false_iff, Bool.not_eq_false', decide_eq_true_iff, hexists]

/-- Every operation keeps one owner for each frame that exists. -/
theorem Owned.next
    (h : Owned s none)
    (hguard : taskVariables.guard s e) :
    Owned (taskVariables.next s e) none ∧
      ((taskVariables.next s e).undefined = false ↔ s.undefined = false ∧ Safe s e) := by
  cases e with
  | construct a =>
      exact ⟨h.construct hguard, (and_iff_left trivial).symm⟩
  | call a p =>
      exact ⟨h.call hguard.1 hguard.2, (and_iff_left trivial).symm⟩
  | moveConstruct a b =>
      exact ⟨h.moveConstruct hguard.1 hguard.2, (and_iff_left trivial).symm⟩
  | moveAssign a b =>
      refine ⟨h.moveAssign hguard.1 hguard.2, ?_⟩
      change (s.moveAssign a b).undefined = false ↔ s.undefined = false ∧ (a ≠ b → Idle s a)
      by_cases hab : a = b
      · simp [State.moveAssign, hab]
      · have hrelease := h.release_undefined hguard.1
        simpa [State.moveAssign, hab] using hrelease
  | destroy a =>
      exact ⟨h.destroy hguard, h.release_undefined hguard⟩
  | isReady a =>
      exact h.isReady hguard
  | coAwait a =>
      exact h.coAwait hguard
  | wait p =>
      have hp : s.frame p = .running := hguard
      have hnext := h.setFrame (p := p) (f := .waiting) (w := s.awaitables) rfl
        (by simp [hp, Frame.Exists]) fun p' hp' => .inr hp'
      exact ⟨⟨hnext.holders, hnext.mem, hnext.nodup, hnext.created⟩,
        (and_iff_left trivial).symm⟩
  | wake p =>
      exact h.wake
  | finish p =>
      have hp : s.frame p = .running := hguard
      have hnext := h.setFrame (p := p) (f := .done) (w := s.awaitables) rfl
        (by simp [hp, Frame.Exists]) fun p' hp' => .inr hp'
      exact ⟨⟨hnext.holders, hnext.mem, hnext.nodup, hnext.created⟩,
        (and_iff_left trivial).symm⟩
  | awaitResume p =>
      exact h.awaitResume hguard

omit [DecidableEq ν] in
theorem owned_start :
    Owned (State.start : State ν κ) none := by
  refine ⟨fun _ => rfl, fun _ => ?_, List.nodup_nil, ?_⟩
  · simp [State.start]
  · simp [State.start]

theorem owned_of_run
    (hrun : taskVariables.Run tr s) :
    Owned s none := by
  induction hrun with
  | start hinit =>
      obtain rfl := hinit
      exact owned_start
  | step e _ hguard ih =>
      exact (ih.next hguard).1

/--
Every frame that exists is owned by one variable, a frame is destroyed once and
only after its owner has given it up, and without variables there are no frames.
-/
structure Linear (s : State ν κ) : Prop where
  owner : ∀ p, (s.frame p).Exists ↔ ∃ a ∈ s.vars.declared, s.vars.ptr a = some p
  unshared : ∀ a ∈ s.vars.declared, ∀ b ∈ s.vars.declared, ∀ p,
    s.vars.ptr a = some p → s.vars.ptr b = some p → a = b
  once : s.destroyed.Nodup
  destroyed : ∀ p, p ∈ s.destroyed ↔ s.frame p = .destroyed
  collected : s.vars.declared = ∅ → ∀ p, s.frame p = .fresh ∨ p ∈ s.destroyed

/-- Each frame has one owner, and a run is defined exactly if all its steps are safe. -/
theorem tasks_linear
    (hrun : taskVariables.Run tr s) :
    Linear s ∧ (s.undefined = false ↔ taskVariables.Along Safe .start tr) := by
  have hinit : ∀ s : State ν κ, taskVariables.init s → s = .start := fun _ h => h
  have h := owned_of_run hrun
  have howner : ∀ p, (s.frame p).Exists ↔ ∃ a ∈ s.vars.declared, s.vars.ptr a = some p := by
    intro p
    constructor
    · intro hp
      have hholders := h.holders p
      rw [points_none, Nat.add_zero, (Frame.exists_iff_owners _).mp hp] at hholders
      have hpos : 0 < s.vars.holders p := by
        omega
      obtain ⟨a, ha⟩ := Finset.card_pos.mp hpos
      exact ⟨a, Finset.mem_filter.mp ha⟩
    · rintro ⟨a, ha, hp⟩
      exact h.exists_frame ha hp
  refine ⟨⟨howner, fun a ha b hb p => h.ptr_inj ha hb, h.nodup, h.mem, ?_⟩, ?_⟩
  · intro hempty p
    have hnot : ¬ (s.frame p).Exists := by
      rw [howner, hempty]
      simp
    rw [h.mem]
    cases hf : s.frame p <;> simp [hf, Frame.Exists] at hnot ⊢
  · have hstep : ∀ tr (s : State ν κ) e, taskVariables.Run tr s → taskVariables.guard s e →
        ((taskVariables.exec .start (tr ++ [e])).undefined = false ↔
          (taskVariables.exec .start tr).undefined = false ∧ Safe s e) := by
      intro tr s e hrun hguard
      rw [System.exec_append_singleton, ← hrun.eq_exec hinit]
      exact ((owned_of_run hrun).next hguard).2
    have hdefined := hrun.along_iff
      (A := fun tr => (taskVariables.exec .start tr).undefined = false) hinit rfl hstep
    rwa [← hrun.eq_exec hinit] at hdefined

/--
A `Task` is moved and awaited; while its coroutine waits, the `Task` is moved again.  It
is assigned over another one and destroyed.
-/
def movedAndAwaited : List (Event Bool Nat) :=
  [.call false 0, .construct true, .moveAssign true false, .isReady false, .coAwait true,
    .wait 0, .isReady true, .moveAssign false true, .wake 0, .finish 0, .awaitResume 0,
    .coAwait false, .awaitResume 0, .destroy true, .call true 1, .moveAssign true false,
    .destroy true, .destroy false]

theorem tasks_linear_movedAndAwaited :
    (Linear (taskVariables.exec .start movedAndAwaited) ∧
      ((taskVariables.exec .start movedAndAwaited).undefined = false ↔
        taskVariables.Along Safe .start movedAndAwaited)) ∧
      (taskVariables.exec .start movedAndAwaited).destroyed = [1, 0] ∧
      (taskVariables.exec .start movedAndAwaited).undefined = false :=
  ⟨tasks_linear (.of_enabled rfl (by decide +kernel)), by decide +kernel, by decide +kernel⟩

end Results

end TaskHandle
end Ptl

import Ptl.TransitionSystem
import Mathlib.Logic.Function.Basic
import Mathlib.Data.List.Basic

/-!
# Child processes and their exit notifications

This module embeds `subprocess` and `process_terminate_operation` of
`process.hpp` with the functions of `io_service_impl` that work on
`process_service_data`, and the part of the operating system they use.

* `fork` returns a pid that no child has whose exit is still to be delivered.
* The loop delivers the exit of a child once, by `ev_process_change`, which looks
  up the first entry of `process_watchers_` with the pid of the child.
* `work()` resumes the coroutine that awaits the operation, which then takes the
  value of the operation from `rc`.  The call has no defined meaning if no
  coroutine is suspended on the operation; the system makes no step after that.

The members of `process_service_data` are not initialised by the constructor, so
their first values are parameters of the construction.  The pipes of a
subprocess have no influence on any of this and are left out.
-/

namespace Ptl
namespace Process

open Transition

universe u v

/-- `process_service_data`. -/
structure ServiceData (ω : Type v) where
  pid : Int
  rc : Int
  notification : Option ω
deriving DecidableEq

/-- The members of a `subprocess`, and the child it launched last. -/
structure Subprocess (ω : Type v) where
  psData : ServiceData ω
  terminated : Bool
  child : Option Nat
deriving DecidableEq

/-- A child of the program, until and after its exit is delivered. -/
inductive Child where
  | running (pid : Int)
  | exited (rstatus : Int)
deriving DecidableEq

/-- A `process_terminate_operation`. -/
inductive Operation (π : Type u) where
  | fresh
  | waiting (p : π)
  | completed (p : π) (value : Int)
deriving DecidableEq

/-- The subprocesses and operations of one `io_service`, and the children. -/
structure State (π : Type u) (ω : Type v) where
  constructed : π → Bool
  object : π → Option (Subprocess ω)
  watchers : List π
  op : ω → Operation π
  children : List Child
  undefined : Bool

namespace State

variable {π : Type u} {ω : Type v}

/-- A service that was not used yet. -/
def start : State π ω where
  constructed := fun _ => false
  object := fun _ => none
  watchers := []
  op := fun _ => .fresh
  children := []
  undefined := false

/-- The member `pid` of a living subprocess. -/
def pidOf (s : State π ω) (p : π) : Option Int :=
  (s.object p).map fun x => x.psData.pid

/-- The child that a living subprocess launched last. -/
def childOf (s : State π ω) (p : π) : Option Nat :=
  (s.object p).bind fun x => x.child

/-- The operation a living subprocess has registered last. -/
def registered (s : State π ω) (p : π) : Option ω :=
  (s.object p).bind fun x => x.psData.notification

variable [DecidableEq π] [DecidableEq ω]

/-- `subprocess::subprocess`, with what the memory holds. -/
def construct (s : State π ω) (p : π) (pid rc : Int) : State π ω :=
  { s with
    constructed := Function.update s.constructed p true
    object := Function.update s.object p (some
      { psData := { pid := pid, rc := rc, notification := none }
        terminated := false
        child := none }) }

/-- Writing members of a living subprocess. -/
def modify
    (s : State π ω) (p : π) (f : Subprocess ω → Subprocess ω) : State π ω :=
  { s with object := Function.update s.object p ((s.object p).map f) }

/-- `register_process_notification`, after `fork`. -/
def launch (s : State π ω) (p : π) (pid : Int) : State π ω :=
  let launched (x : Subprocess ω) : Subprocess ω :=
    { x with
      psData := { x.psData with pid := pid }
      child := some s.children.length }
  { s.modify p launched with children := s.children ++ [.running pid] }

/-- `start_notification`. -/
def startNotification (s : State π ω) (p : π) (o : ω) : State π ω :=
  let registering (x : Subprocess ω) : Subprocess ω :=
    { x with psData := { x.psData with notification := some o } }
  { s.modify p registering with watchers := s.watchers ++ [p] }

/-- `begin`, and the suspension of the coroutine if it returns `false`. -/
def wait (s : State π ω) (p : π) (o : ω) : State π ω :=
  match s.object p with
  | none => { s with undefined := true }
  | some x =>
      if x.terminated then
        { s with op := Function.update s.op o (.completed p x.psData.rc) }
      else
        { s.startNotification p o with op := Function.update s.op o (.waiting p) }

/-- `stop_notification`. -/
def stopNotification (s : State π ω) (p : π) : State π ω :=
  { s with watchers := s.watchers.filter fun q => q ≠ p }

/-- `subprocess::~subprocess`. -/
def destroy (s : State π ω) (p : π) : State π ω :=
  { s.stopNotification p with object := Function.update s.object p none }

/-- `work`, and the value the resumed coroutine takes from `get_return`. -/
def work (s : State π ω) (o : ω) : State π ω :=
  match s.op o with
  | .waiting p =>
      match s.object p with
      | some x => { s with op := Function.update s.op o (.completed p x.psData.rc) }
      | none => { s with undefined := true }
  | _ => { s with undefined := true }

/-- The entry of `process_watchers_` that the loop of `ev_process_change` stops at. -/
def entryFor (s : State π ω) (rpid : Int) : Option π :=
  s.watchers.find? fun p => s.pidOf p = some rpid

/-- `rc = child->rstatus`. -/
def store (s : State π ω) (p : π) (rstatus : Int) : State π ω :=
  s.modify p fun x => { x with psData := { x.psData with rc := rstatus } }

/-- `notification->work()`. -/
def notify (s : State π ω) (p : π) : State π ω :=
  match s.registered p with
  | some o => s.work o
  | none => { s with undefined := true }

/-- `ev_process_change`. -/
def evProcessChange (s : State π ω) (rpid rstatus : Int) : State π ω :=
  match s.entryFor rpid with
  | none => s
  | some p => (s.store p rstatus).notify p

/-- The loop delivers the exit of a child. -/
def exit (s : State π ω) (c : Nat) (rpid rstatus : Int) : State π ω :=
  { s with children := s.children.set c (.exited rstatus) }.evProcessChange rpid rstatus

end State

/-- What happens to the subprocesses of the service. -/
inductive Event (π : Type u) (ω : Type v) where
  | construct (p : π) (pid rc : Int)
  | launch (p : π) (pid : Int)
  | wait (p : π) (o : ω)
  | exit (c : Nat) (rpid rstatus : Int)
  | destroy (p : π)
deriving DecidableEq

namespace Event

variable {π : Type u} {ω : Type v}

/-- When an event can happen. -/
def Allowed (s : State π ω) : Event π ω → Prop
  | construct p _ _ => s.constructed p = false
  | launch p pid => (s.object p).isSome ∧ 0 < pid ∧ Child.running pid ∉ s.children
  | wait p o => (s.object p).isSome ∧ s.op o = .fresh
  | exit c rpid _ => s.children[c]? = some (.running rpid)
  | destroy p => (s.object p).isSome

variable [DecidableEq π] [DecidableEq ω]

instance decidableAllowed (s : State π ω) :
    ∀ e : Event π ω, Decidable (e.Allowed s)
  | construct p _ _ => inferInstanceAs (Decidable (s.constructed p = false))
  | launch p pid =>
      inferInstanceAs (Decidable
        ((s.object p).isSome ∧ 0 < pid ∧ Child.running pid ∉ s.children))
  | wait p o => inferInstanceAs (Decidable ((s.object p).isSome ∧ s.op o = .fresh))
  | exit c rpid _ => inferInstanceAs (Decidable (s.children[c]? = some (.running rpid)))
  | destroy p => inferInstanceAs (Decidable ((s.object p).isSome))

def apply (s : State π ω) : Event π ω → State π ω
  | construct p pid rc => s.construct p pid rc
  | launch p pid => s.launch p pid
  | wait p o => s.wait p o
  | exit c rpid rstatus => s.exit c rpid rstatus
  | destroy p => s.destroy p

end Event

variable {π : Type u} {ω : Type v} [DecidableEq π]

/-- All histories of the subprocesses of one `io_service`. -/
def processService [DecidableEq ω] : System (State π ω) (Event π ω) where
  init := fun s => s = .start
  guard := fun s e => s.undefined = false ∧ e.Allowed s
  next := Event.apply

instance decidableEventGuard [DecidableEq ω] (s : State π ω) (e : Event π ω) :
    Decidable (processService.guard s e) :=
  inferInstanceAs (Decidable (s.undefined = false ∧ e.Allowed s))

section Lookups

variable {s : State π ω} {p q : π} {f : Subprocess ω → Subprocess ω}

/-- A lookup that a write does not concern. -/
theorem bind_modify
    {β : Type*} {g : Subprocess ω → Option β}
    (hg : ∀ x, g (f x) = g x) :
    ((s.modify p f).object q).bind g = (s.object q).bind g := by
  rcases eq_or_ne q p with rfl | hq
  · cases hx : s.object q <;> simp [State.modify, hx, hg]
  · simp [State.modify, hq]

theorem pidOf_modify
    (hf : ∀ x, (f x).psData.pid = x.psData.pid) :
    (s.modify p f).pidOf q = s.pidOf q := by
  simp only [State.pidOf, Option.map_eq_bind]
  exact bind_modify fun x => congrArg some (hf x)

theorem isSome_modify :
    ((s.modify p f).object q).isSome = (s.object q).isSome := by
  rcases eq_or_ne q p with rfl | hq
  · simp [State.modify]
  · simp [State.modify, hq]

theorem pidOf_store
    {rstatus : Int} :
    (s.store p rstatus).pidOf q = s.pidOf q :=
  pidOf_modify fun _ => rfl

theorem childOf_store
    {rstatus : Int} :
    (s.store p rstatus).childOf q = s.childOf q :=
  bind_modify fun _ => rfl

theorem childOf_startNotification
    {o : ω} :
    (s.startNotification p o).childOf q = s.childOf q :=
  bind_modify fun _ => rfl

theorem pidOf_startNotification
    {o : ω} :
    (s.startNotification p o).pidOf q = s.pidOf q :=
  pidOf_modify fun _ => rfl

theorem registered_store
    {rstatus : Int} :
    (s.store p rstatus).registered q = s.registered q :=
  bind_modify fun _ => rfl

/-- The entry the callback finds is the first one with the pid. -/
theorem entryFor_eq_some_iff
    {rpid : Int} :
    s.entryFor rpid = some p
      ↔
    p ∈ s.watchers ∧ s.pidOf p = some rpid ∧
      ∀ q ∈ s.watchers, s.pidOf q = some rpid → s.watchers.idxOf p ≤ s.watchers.idxOf q := by
  have hfirst {p : π} (hp : s.entryFor rpid = some p) :
      p ∈ s.watchers ∧ s.pidOf p = some rpid ∧
        ∀ q ∈ s.watchers, s.pidOf q = some rpid →
          s.watchers.idxOf p ≤ s.watchers.idxOf q := by
    obtain ⟨hpid, before, after, hsplit, hbefore⟩ := List.find?_eq_some_iff_append.mp hp
    have hnot (q : π) (hq : s.pidOf q = some rpid) : q ∉ before := by
      intro hmem
      simpa [hq] using hbefore q hmem
    have hpid : s.pidOf p = some rpid := by simpa using hpid
    refine ⟨by simp [hsplit], hpid, fun q _ hq => ?_⟩
    rw [hsplit, List.idxOf_append_of_notMem (hnot p hpid),
      List.idxOf_append_of_notMem (hnot q hq), List.idxOf_cons_self]
    omega
  constructor
  · exact hfirst
  · rintro ⟨hmem, hpid, hmin⟩
    cases hentry : s.entryFor rpid with
    | none =>
        simpa [hpid] using List.find?_eq_none.mp hentry p hmem
    | some q =>
        obtain ⟨hq, hqpid, hqmin⟩ := hfirst hentry
        have hidx := Nat.le_antisymm (hqmin p hmem hpid) (hmin q hq hqpid)
        rw [(List.idxOf_inj hq).mp hidx]

end Lookups

section Consistent

/-- The operation was begun on this subprocess. -/
def BegunOn : Operation π → π → Prop
  | .fresh, _ => False
  | .waiting q, p => q = p
  | .completed q _, p => q = p

/-- What the members of the subprocesses and the list say about each other. -/
structure Consistent (s : State π ω) : Prop where
  /-- A subprocess in the list is alive and has registered an operation begun on it. -/
  entry : ∀ p ∈ s.watchers, ∃ o, s.registered p = some o ∧ BegunOn (s.op o) p
  /-- Nothing sets `terminated_`. -/
  terminated : ∀ p x, s.object p = some x → x.terminated = false
  waiting : ∀ o p, s.op o = .waiting p → (s.object p).isSome → p ∈ s.watchers
  pid : ∀ p c rpid, s.childOf p = some c → s.children[c]? = some (.running rpid) →
    s.pidOf p = some rpid
  owner : ∀ p q c, s.childOf p = some c → s.childOf q = some c → p = q
  launched : ∀ p c, s.childOf p = some c → c < s.children.length
  constructed : ∀ p, s.constructed p = false →
    s.object p = none ∧ ∀ o, ¬ BegunOn (s.op o) p

variable {s : State π ω} {p q : π} {o : ω}

omit [DecidableEq π] in
theorem consistent_start :
    Consistent (State.start : State π ω) := by
  constructor
  · exact fun p hp => absurd hp List.not_mem_nil
  · exact fun p x hx => absurd hx (Option.some_ne_none x).symm
  · exact fun o p ho => nomatch ho
  · exact fun p c rpid hc => absurd hc (Option.some_ne_none c).symm
  · exact fun p q c hc => absurd hc (Option.some_ne_none c).symm
  · exact fun p c hc => absurd hc (Option.some_ne_none c).symm
  · exact fun p _ => ⟨rfl, fun o => id⟩

theorem Consistent.construct
    (hs : Consistent s)
    (hp : s.constructed p = false)
    (pid rc : Int) :
    Consistent (s.construct p pid rc) := by
  obtain ⟨hobject, hop⟩ := hs.constructed p hp
  have hother (q : π) (hq : q ≠ p) : (s.construct p pid rc).object q = s.object q := by
    simp [State.construct, hq]
  have hself : (s.construct p pid rc).childOf p = none := by
    simp [State.construct, State.childOf]
  have hchild (q : π) (c : Nat) (hc : (s.construct p pid rc).childOf q = some c) :
      q ≠ p ∧ s.childOf q = some c := by
    have hq : q ≠ p := by
      rintro rfl
      simp [hself] at hc
    rw [State.childOf, hother q hq] at hc
    exact ⟨hq, hc⟩
  constructor
  · intro q hq
    obtain ⟨o, hreg, ho⟩ := hs.entry q hq
    have hne : q ≠ p := by
      rintro rfl
      exact hop o ho
    refine ⟨o, ?_, ho⟩
    rw [State.registered, hother q hne]
    exact hreg
  · intro q x hx
    rcases eq_or_ne q p with rfl | hq
    · simp only [State.construct, Function.update_self, Option.some.injEq] at hx
      rw [← hx]
    · rw [hother q hq] at hx
      exact hs.terminated q x hx
  · intro o q ho hq
    have hne : q ≠ p := by
      rintro rfl
      exact hop o (by rw [show s.op o = .waiting q from ho]; rfl)
    rw [hother q hne] at hq
    exact hs.waiting o q ho hq
  · intro q c rpid hc hrun
    obtain ⟨hq, hc⟩ := hchild q c hc
    rw [State.pidOf, hother q hq]
    exact hs.pid q c rpid hc hrun
  · intro q q' c hc hc'
    exact hs.owner q q' c (hchild q c hc).2 (hchild q' c hc').2
  · intro q c hc
    exact hs.launched q c (hchild q c hc).2
  · intro q hq
    rcases eq_or_ne q p with rfl | hne
    · simp [State.construct] at hq
    · rw [hother q hne]
      exact hs.constructed q (by simpa [State.construct, hne] using hq)

theorem childOf_launch
    (hp : (s.object p).isSome)
    (pid : Int) :
    (s.launch p pid).childOf q
      =
    if q = p then some s.children.length else s.childOf q := by
  obtain ⟨x, hx⟩ := Option.isSome_iff_exists.mp hp
  rcases eq_or_ne q p with rfl | hq
  · simp [State.launch, State.modify, State.childOf, hx]
  · simp [State.launch, State.modify, State.childOf, hq]

theorem pidOf_launch
    (hp : (s.object p).isSome)
    (pid : Int) :
    (s.launch p pid).pidOf q = if q = p then some pid else s.pidOf q := by
  obtain ⟨x, hx⟩ := Option.isSome_iff_exists.mp hp
  rcases eq_or_ne q p with rfl | hq
  · simp [State.launch, State.modify, State.pidOf, hx]
  · simp [State.launch, State.modify, State.pidOf, hq]

theorem Consistent.launch
    (hs : Consistent s)
    (hp : (s.object p).isSome)
    (pid : Int) :
    Consistent (s.launch p pid) := by
  have hreg (q : π) : (s.launch p pid).registered q = s.registered q :=
    bind_modify fun _ => rfl
  have hsome (q : π) : ((s.launch p pid).object q).isSome = (s.object q).isSome :=
    isSome_modify
  constructor
  · intro q hq
    rw [hreg]
    exact hs.entry q hq
  · intro q x hx
    rcases eq_or_ne q p with rfl | hq
    · obtain ⟨y, hy⟩ := Option.isSome_iff_exists.mp hp
      simp only [State.launch, State.modify, hy, Function.update_self, Option.map_some,
        Option.some.injEq] at hx
      rw [← hx]
      exact hs.terminated q y hy
    · exact hs.terminated q x (by simpa [State.launch, State.modify, hq] using hx)
  · intro o q ho hq
    rw [hsome] at hq
    exact hs.waiting o q ho hq
  · intro q c rpid hc hrun
    rw [childOf_launch hp] at hc
    rw [pidOf_launch hp]
    by_cases hq : q = p
    · obtain rfl : s.children.length = c := by simpa [hq] using hc
      simpa [State.launch, hq] using hrun
    · rw [if_neg hq] at hc ⊢
      have hlt := hs.launched q c hc
      refine hs.pid q c rpid hc ?_
      rwa [State.launch, List.getElem?_append_left hlt] at hrun
  · intro q q' c hc hc'
    rw [childOf_launch hp] at hc hc'
    split at hc <;> split at hc' <;> rename_i hq hq'
    · exact hq.trans hq'.symm
    · have hlt := hs.launched q' c hc'
      have hlen : s.children.length = c := Option.some.inj hc
      omega
    · have hlt := hs.launched q c hc
      have hlen : s.children.length = c := Option.some.inj hc'
      omega
    · exact hs.owner q q' c hc hc'
  · intro q c hc
    rw [childOf_launch hp] at hc
    have hlen : (s.launch p pid).children.length = s.children.length + 1 := by
      simp [State.launch]
    rw [hlen]
    split at hc
    · have hlen : s.children.length = c := Option.some.inj hc
      omega
    · have hlt := hs.launched q c hc
      omega
  · intro q hq
    have hborn := hs.constructed q hq
    refine ⟨?_, hborn.2⟩
    have hnone : ((s.launch p pid).object q).isSome = false := by
      rw [hsome, hborn.1]
      rfl
    simpa using hnone

theorem Consistent.destroy
    (hs : Consistent s)
    (hp : s.constructed p = true) :
    Consistent (s.destroy p) := by
  have hother (q : π) (hq : q ≠ p) : (s.destroy p).object q = s.object q := by
    simp [State.destroy, State.stopNotification, hq]
  have hself : (s.destroy p).object p = none := by
    simp [State.destroy, State.stopNotification]
  have hchild (q : π) (c : Nat) (hc : (s.destroy p).childOf q = some c) :
      q ≠ p ∧ s.childOf q = some c := by
    have hq : q ≠ p := by
      rintro rfl
      simp [State.childOf, hself] at hc
    rw [State.childOf, hother q hq] at hc
    exact ⟨hq, hc⟩
  have hwatchers (q : π) : q ∈ (s.destroy p).watchers ↔ q ∈ s.watchers ∧ q ≠ p := by
    simp [State.destroy, State.stopNotification]
  constructor
  · intro q hq
    obtain ⟨hmem, hne⟩ := (hwatchers q).mp hq
    rw [State.registered, hother q hne]
    exact hs.entry q hmem
  · intro q x hx
    have hne : q ≠ p := by
      rintro rfl
      simp [hself] at hx
    rw [hother q hne] at hx
    exact hs.terminated q x hx
  · intro o q ho hq
    have hne : q ≠ p := by
      rintro rfl
      simp [hself] at hq
    rw [hother q hne] at hq
    exact (hwatchers q).mpr ⟨hs.waiting o q ho hq, hne⟩
  · intro q c rpid hc hrun
    obtain ⟨hq, hc⟩ := hchild q c hc
    rw [State.pidOf, hother q hq]
    exact hs.pid q c rpid hc hrun
  · intro q q' c hc hc'
    exact hs.owner q q' c (hchild q c hc).2 (hchild q' c hc').2
  · intro q c hc
    exact hs.launched q c (hchild q c hc).2
  · intro q hq
    have hne : q ≠ p := by
      rintro rfl
      exact absurd (hp.symm.trans hq) (by decide)
    rw [hother q hne]
    exact hs.constructed q hq

theorem Consistent.store
    (hs : Consistent s)
    (p : π) (rstatus : Int) :
    Consistent (s.store p rstatus) := by
  have hreg (q : π) : (s.store p rstatus).registered q = s.registered q := registered_store
  have hchild (q : π) : (s.store p rstatus).childOf q = s.childOf q := childOf_store
  have hsome (q : π) : ((s.store p rstatus).object q).isSome = (s.object q).isSome :=
    isSome_modify
  constructor
  · intro q hq
    rw [hreg]
    exact hs.entry q hq
  · intro q x hx
    rcases eq_or_ne q p with rfl | hq
    · cases hy : s.object q with
      | none =>
          simp [State.store, State.modify, hy] at hx
      | some y =>
          simp only [State.store, State.modify, hy, Function.update_self, Option.map_some,
            Option.some.injEq] at hx
          rw [← hx]
          exact hs.terminated q y hy
    · exact hs.terminated q x (by simpa [State.store, State.modify, hq] using hx)
  · intro o q ho hq
    rw [hsome] at hq
    exact hs.waiting o q ho hq
  · intro q c rpid hc hrun
    rw [pidOf_store]
    exact hs.pid q c rpid ((hchild q).symm.trans hc) hrun
  · intro q q' c hc hc'
    exact hs.owner q q' c ((hchild q).symm.trans hc) ((hchild q').symm.trans hc')
  · intro q c hc
    exact hs.launched q c ((hchild q).symm.trans hc)
  · intro q hq
    obtain ⟨hobject, hop⟩ := hs.constructed q hq
    refine ⟨?_, hop⟩
    have hnone : ((s.store p rstatus).object q).isSome = false := by
      rw [hsome, hobject]
      rfl
    simpa using hnone

variable [DecidableEq ω]

/-- With `terminated_` never set, `begin` always registers the operation. -/
theorem wait_eq
    (hs : Consistent s)
    (hp : (s.object p).isSome)
    (o : ω) :
    s.wait p o =
      { s.startNotification p o with op := Function.update s.op o (.waiting p) } := by
  obtain ⟨x, hx⟩ := Option.isSome_iff_exists.mp hp
  simp [State.wait, hx, hs.terminated p x hx]

omit [DecidableEq ω] in
theorem registered_startNotification
    (hp : (s.object p).isSome)
    (o : ω) :
    (s.startNotification p o).registered q = if q = p then some o else s.registered q := by
  obtain ⟨x, hx⟩ := Option.isSome_iff_exists.mp hp
  rcases eq_or_ne q p with rfl | hq
  · simp [State.startNotification, State.modify, State.registered, hx]
  · simp [State.startNotification, State.modify, State.registered, hq]

theorem Consistent.wait
    (hs : Consistent s)
    (hp : (s.object p).isSome)
    (ho : s.op o = .fresh) :
    Consistent (s.wait p o) := by
  rw [wait_eq hs hp]
  have hchild (q : π) : (s.startNotification p o).childOf q = s.childOf q :=
    childOf_startNotification
  have hpid (q : π) : (s.startNotification p o).pidOf q = s.pidOf q :=
    pidOf_startNotification
  have hsome (q : π) :
      ((s.startNotification p o).object q).isSome = (s.object q).isSome :=
    isSome_modify
  have hbegun (o' : ω) (q : π) (hq : BegunOn (s.op o') q) :
      Function.update s.op o (.waiting p) o' = s.op o' := by
    refine Function.update_of_ne ?_ _ _
    rintro rfl
    rw [ho] at hq
    exact hq
  constructor
  · intro q hq
    change ∃ o', (s.startNotification p o).registered q = some o' ∧ _
    rw [registered_startNotification hp]
    rcases eq_or_ne q p with rfl | hne
    · exact ⟨o, if_pos rfl, by simp [BegunOn]⟩
    · have hmem : q ∈ s.watchers := by
        simpa [State.startNotification, State.modify, hne] using hq
      obtain ⟨o', hreg, hbegin⟩ := hs.entry q hmem
      refine ⟨o', by rw [if_neg hne, hreg], ?_⟩
      change BegunOn (Function.update s.op o (.waiting p) o') q
      rwa [hbegun o' q hbegin]
  · intro q x hx
    rcases eq_or_ne q p with rfl | hq
    · obtain ⟨y, hy⟩ := Option.isSome_iff_exists.mp hp
      simp only [State.startNotification, State.modify, hy, Function.update_self,
        Option.map_some, Option.some.injEq] at hx
      rw [← hx]
      exact hs.terminated q y hy
    · exact hs.terminated q x
        (by simpa [State.startNotification, State.modify, hq] using hx)
  · intro o' q ho' hq
    change ((s.startNotification p o).object q).isSome at hq
    rw [hsome] at hq
    change q ∈ s.watchers ++ [p]
    rcases eq_or_ne o' o with rfl | hne
    · obtain rfl : p = q := by simpa using ho'
      simp
    · refine List.mem_append_left _ (hs.waiting o' q ?_ hq)
      simpa [hne] using ho'
  · intro q c rpid hc hrun
    exact (hpid q).trans (hs.pid q c rpid ((hchild q).symm.trans hc) hrun)
  · intro q q' c hc hc'
    exact hs.owner q q' c ((hchild q).symm.trans hc) ((hchild q').symm.trans hc')
  · intro q c hc
    exact hs.launched q c ((hchild q).symm.trans hc)
  · intro q hq
    obtain ⟨hobject, hop⟩ := hs.constructed q hq
    refine ⟨?_, ?_⟩
    · have hnone : ((s.startNotification p o).object q).isSome = false := by
        rw [hsome, hobject]
        rfl
      simpa using hnone
    · intro o' hbegin
      rcases eq_or_ne o' o with rfl | hne
      · obtain rfl : p = q := by simpa [BegunOn] using hbegin
        simp [hobject] at hp
      · exact hop o' (by simpa [hne] using hbegin)

/-- The callback has resumed operation `o` of `p`. -/
def resumed (s : State π ω) (c : Nat) (rstatus : Int) (p : π) (o : ω) : State π ω :=
  { s.store p rstatus with
    children := s.children.set c (.exited rstatus)
    op := Function.update s.op o (.completed p rstatus) }

/-- The callback has called `work()` of an operation that is not pending. -/
def misled (s : State π ω) (c : Nat) (rstatus : Int) (p : π) : State π ω :=
  { s.store p rstatus with
    children := s.children.set c (.exited rstatus)
    undefined := true }

/-- What the callback can do, by the entry it finds and the state of its operation. -/
theorem exit_cases
    (hs : Consistent s)
    (c : Nat) (rpid rstatus : Int) :
    (s.entryFor rpid = none ∧
      s.exit c rpid rstatus = { s with children := s.children.set c (.exited rstatus) }) ∨
    ∃ p o, s.entryFor rpid = some p ∧ s.registered p = some o ∧
      ((s.op o = .waiting p ∧ s.exit c rpid rstatus = resumed s c rstatus p o) ∨
        ((∀ q, s.op o ≠ .waiting q) ∧ s.exit c rpid rstatus = misled s c rstatus p)) := by
  let s₁ : State π ω := { s with children := s.children.set c (.exited rstatus) }
  have hexit : s.exit c rpid rstatus = s₁.evProcessChange rpid rstatus := rfl
  have hentry : s₁.entryFor rpid = s.entryFor rpid := rfl
  rw [hexit, State.evProcessChange, hentry]
  cases hfind : s.entryFor rpid with
  | none =>
      exact Or.inl ⟨rfl, rfl⟩
  | some p =>
      obtain ⟨o, hreg, hbegin⟩ := hs.entry p (entryFor_eq_some_iff.mp hfind).1
      have hreg₁ : (s₁.store p rstatus).registered p = some o := by
        rw [registered_store]
        exact hreg
      have hop : (s₁.store p rstatus).op o = s.op o := rfl
      refine Or.inr ⟨p, o, rfl, hreg, ?_⟩
      simp only [State.notify, hreg₁, State.work, hop]
      cases ho : s.op o with
      | fresh =>
          rw [ho] at hbegin
          exact hbegin.elim
      | waiting q =>
          rw [ho] at hbegin
          obtain rfl : q = p := hbegin
          obtain ⟨x, hx, -⟩ := Option.bind_eq_some_iff.mp hreg
          have hx₁ : (s₁.store q rstatus).object q =
              some { x with psData := { x.psData with rc := rstatus } } := by
            simp [s₁, State.store, State.modify, hx]
          refine Or.inl ⟨rfl, ?_⟩
          simp only [hx₁]
          rfl
      | completed q v =>
          exact Or.inr ⟨fun _ h => (by simp at h), rfl⟩

omit [DecidableEq π] [DecidableEq ω] in
/-- An exit changes a child, and it may end a wait. -/
theorem Consistent.exited
    (hs : Consistent s)
    {c : Nat} {rstatus : Int} {op : ω → Operation π} {undefined : Bool}
    (hbegun : ∀ o p, BegunOn (op o) p ↔ BegunOn (s.op o) p)
    (hwaiting : ∀ o p, op o = .waiting p → s.op o = .waiting p) :
    Consistent
      { s with
        children := s.children.set c (.exited rstatus)
        op := op
        undefined := undefined } where
  entry := fun p hp => by
    obtain ⟨o, hreg, ho⟩ := hs.entry p hp
    exact ⟨o, hreg, (hbegun o p).mpr ho⟩
  terminated := hs.terminated
  waiting := fun o p ho hp => hs.waiting o p (hwaiting o p ho) hp
  pid := fun p d rpid hd hrun => by
    refine hs.pid p d rpid hd ?_
    rcases eq_or_ne c d with rfl | hdc
    · simp [List.getElem?_set] at hrun
    · simpa [List.getElem?_set, hdc] using hrun
  owner := hs.owner
  launched := fun p d hd => by
    rw [List.length_set]
    exact hs.launched p d hd
  constructed := fun p hp =>
    ⟨(hs.constructed p hp).1, fun o ho => (hs.constructed p hp).2 o ((hbegun o p).mp ho)⟩

theorem Consistent.exit
    (hs : Consistent s)
    (c : Nat) (rpid rstatus : Int) :
    Consistent (s.exit c rpid rstatus) := by
  rcases exit_cases hs c rpid rstatus with
    ⟨-, hexit⟩ | ⟨p, o, -, -, ⟨ho, hexit⟩ | ⟨-, hexit⟩⟩
  · rw [hexit]
    exact hs.exited (fun _ _ => Iff.rfl) (fun _ _ => id)
  · rw [hexit]
    refine (hs.store p rstatus).exited ?_ ?_
    · intro o' q
      rcases eq_or_ne o' o with rfl | hne
      · simp [State.store, State.modify, ho, BegunOn]
      · simp [State.store, State.modify, hne]
    · intro o' q h
      rcases eq_or_ne o' o with rfl | hne
      · simp at h
      · change Function.update s.op o (.completed p rstatus) o' = .waiting q at h
        rwa [Function.update_of_ne hne] at h
  · rw [hexit]
    exact (hs.store p rstatus).exited (fun _ _ => Iff.rfl) (fun _ _ => id)

theorem Consistent.next
    {e : Event π ω}
    (hs : Consistent s)
    (hguard : processService.guard s e) :
    Consistent (processService.next s e) := by
  obtain ⟨-, hallowed⟩ := hguard
  cases e with
  | construct p pid rc =>
      exact hs.construct hallowed pid rc
  | launch p pid =>
      exact hs.launch hallowed.1 pid
  | wait p o =>
      exact hs.wait hallowed.1 hallowed.2
  | exit c rpid rstatus =>
      exact hs.exit c rpid rstatus
  | destroy p =>
      refine hs.destroy ?_
      cases hp : s.constructed p with
      | true =>
          rfl
      | false =>
          have hobject : (s.object p).isSome = true := hallowed
          rw [(hs.constructed p hp).1] at hobject
          exact hobject

theorem consistent_of_run
    {tr : List (Event π ω)}
    (hrun : processService.Run tr s) :
    Consistent s := by
  induction hrun with
  | start hinit =>
      obtain rfl := hinit
      exact consistent_start
  | step e _ hguard ih =>
      exact ih.next hguard

end Consistent

end Process
end Ptl

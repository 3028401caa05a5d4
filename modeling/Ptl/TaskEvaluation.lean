import Ptl.TaskProgram

/-!
# `sync_wait` of nested tasks is evaluation

The steps of `syncWait` are deterministic.  From any coroutine that is about to go on
with a body they lead to the coroutine having ended with what `Program.evalIn` says, or
come to a `co_return` whose operand is not stored (`outcome_evalIn`).  The induction is
on the body; of the `Task`s that it holds it knows what their `co_await` will lead to.

**Result.**  `outcome_root`: `sync_wait` comes to an end with what direct evaluation of
the root `Task` returns or throws, and with the same store, or comes to such a `co_return`.
-/

namespace Ptl
namespace SyncWait

open Transition

universe u v w

variable {σ : Type u} {V : Type v} {E : Type w}

/-- `return_value` copies the operand and moves the copy into `value_`. -/
def Operand.Stored (o : Operand V E) : Prop :=
  o.storing = .stored

theorem stored_nil :
    ∀ o ∈ ([] : List (Operand V E)), o.Stored :=
  fun _ ho => absurd ho List.not_mem_nil

section Frames

variable (s : State σ V E) (c : Nat) (f : Frame σ V E) (p : Point σ V E)

@[simp] theorem setFrame_self :
    (s.setFrame c f).frame c = f := by
  simp [State.setFrame]

theorem setFrame_of_ne {g : Nat} (h : g ≠ c) :
    (s.setFrame c f).frame g = s.frame g := by
  simp [State.setFrame, h]

@[simp] theorem setPoint_self :
    (s.setPoint c p).frame c = { s.frame c with point := p } := by
  simp [State.setPoint]

theorem setPoint_of_ne {g : Nat} (h : g ≠ c) :
    (s.setPoint c p).frame g = s.frame g := by
  simp [State.setPoint, State.setFrame, h]

@[simp] theorem setFrame_allocated :
    (s.setFrame c f).allocated = s.allocated := by
  rfl

@[simp] theorem setPoint_allocated :
    (s.setPoint c p).allocated = s.allocated := by
  rfl

@[simp] theorem setFrame_store :
    (s.setFrame c f).store = s.store := by
  rfl

@[simp] theorem setPoint_store :
    (s.setPoint c p).store = s.store := by
  rfl

@[simp] theorem setFrame_waiter :
    (s.setFrame c f).waiter = s.waiter := by
  rfl

@[simp] theorem setPoint_waiter :
    (s.setPoint c p).waiter = s.waiter := by
  rfl

@[simp] theorem setFrame_stop :
    (s.setFrame c f).stop = s.stop := by
  rfl

@[simp] theorem setPoint_stop :
    (s.setPoint c p).stop = s.stop := by
  rfl

theorem event?_task
    (hstop : s.stop = none)
    (hcurrent : s.current = some (.task c)) :
    s.event? = some (s.eventOf c) := by
  rw [State.event?, hstop, hcurrent]

end Frames

section Points

variable {s : State σ V E} {c n : Nat} {tasks : Fin n → Nat}

theorem begin_of_point
    {p : Program σ V E 0}
    (h : (s.frame c).point = .initial p) :
    s.begin c = s.setPoint c (.body p Fin.elim0) := by
  simp only [State.begin, h]

theorem act_of_point
    {f : σ → V × σ} {k : V → Program σ V E n}
    (h : (s.frame c).point = .body (.act f k) tasks) :
    s.act c =
      { s.setPoint c (.body (k (f s.store).1) tasks) with store := (f s.store).2 } := by
  simp only [State.act, h]

theorem leave_of_point
    {p : Program σ V E n} {tasks : Fin (n + 1) → Nat}
    (h : (s.frame c).point = .body (.leave p) tasks) :
    s.leave c = s.setPoint c (.body p (Fin.tail tasks)) := by
  simp only [State.leave, h]

theorem create_of_point
    {kind : Kind} {child : Program σ V E 0} {p : Program σ V E (n + 1)}
    (h : (s.frame c).point = .body (.create kind child p) tasks) :
    s.create c =
      { (s.setPoint c (.body p (Fin.cons s.allocated tasks))).setFrame s.allocated
          (.new kind child) with
        allocated := s.allocated + 1 } := by
  simp only [State.create, h]

theorem suspend_of_point
    {x : Fin n} {k : V → Program σ V E n} {h' : Thrown E → Program σ V E n}
    (h : (s.frame c).point = .body (.await x k h') tasks) :
    s.suspend (.task c) = s.setPoint c (.awaiting x k h' tasks) := by
  simp only [State.suspend, h]

theorem finish_of_throw
    {e : Thrown E}
    (h : (s.frame c).point = .body (.throw e) tasks) :
    s.finish c = s.setFrame c ((s.frame c).unhandledException e) := by
  simp only [State.finish, h]

theorem finish_of_coReturn
    {o : Operand V E} {f : Frame σ V E}
    (h : (s.frame c).point = .body (.coReturn o) tasks)
    (hf : (s.frame c).coReturn o = .ok f) :
    s.finish c = s.setFrame c f := by
  simp only [State.finish, h, hf]

theorem finish_of_stop
    {o : Operand V E} {e : Stop}
    (h : (s.frame c).point = .body (.coReturn o) tasks)
    (he : (s.frame c).coReturn o = .error e) :
    s.finish c = { s with stop := some e } := by
  simp only [State.finish, h, he]

/-- What follows a `co_await` of a `Task` with the outcome `o`. -/
def afterAwait (k : V → Program σ V E n) (h : Thrown E → Program σ V E n) :
    Except (Thrown E) V → Program σ V E n
  | .ok v => k v
  | .error e => h e

theorem resume_of_point
    [Inhabited V]
    {d : Nat} {x : Fin n} {k : V → Program σ V E n} {h' : Thrown E → Program σ V E n}
    (h : (s.frame c).point = .awaiting x k h' tasks) :
    s.resume (.task c) d = s.setPoint c (.body (afterAwait k h' (s.frame d).result) tasks) := by
  cases hr : (s.frame d).result <;> simp only [State.resume, h, hr, afterAwait]

end Points

/-- The operand that a step is about to store. -/
def State.operands (s : State σ V E) : Event → List (Operand V E)
  | .finish c =>
      match (s.frame c).point with
      | .body (.coReturn o) _ => (s.frame c).kind.operands o
      | _ => []
  | _ => []

variable [Inhabited V]
variable {kind : Kind} {root : Program σ V E 0} {st : σ}

@[simp] theorem syncWait_guard (s : State σ V E) (e : Event) :
    (syncWait kind root st).guard s e ↔ s.event? = some e := by
  rfl

section Steps

variable {s s₁ s₂ : State σ V E} {c d n m l : Nat} {r : Evaluation σ V E}
variable {tasks : Fin n → Nat} {tasks₁ : Fin m → Nat} {tasks₂ : Fin l → Nat}

/-- A list of steps that store all operands leads from `s` to `s'`. -/
inductive Leads : State σ V E → List Event → State σ V E → Prop
  | nil (s : State σ V E) :
      Leads s [] s
  | cons {s s' : State σ V E} {e : Event} {es : List Event}
      (he : s.event? = some e)
      (hstored : ∀ o ∈ s.operands e, o.Stored)
      (h : Leads (s.next e) es s') :
      Leads s (e :: es) s'

theorem Leads.append
    {es fs : List Event}
    (h : Leads s es s₁)
    (h' : Leads s₁ fs s₂) :
    Leads s (es ++ fs) s₂ := by
  induction h with
  | nil s =>
      exact h'
  | cons he hstored _ ih =>
      exact Leads.cons he hstored (ih h')

theorem Leads.run
    {es tr : List Event}
    (h : Leads s es s₁)
    (hrun : (syncWait kind root st).Run tr s) :
    (syncWait kind root st).Run (tr ++ es) s₁ := by
  induction h generalizing tr with
  | nil s =>
      rwa [List.append_nil]
  | cons he _ _ ih =>
      have hnext := ih (System.Run.step _ hrun he)
      rwa [List.append_assoc] at hnext

/-- A coroutine that existed before those that the body of `c` holds, and is not `c`. -/
structure Other (c : Nat) (tasks : Fin n → Nat) (s : State σ V E) (g : Nat) : Prop where
  lt : g < s.allocated
  ne : g ≠ c
  tasks : ∀ x, g ≠ tasks x

/-- The coroutine `c` goes on; what it has recorded and the others stay. -/
structure GoesOn (c : Nat) (tasks : Fin n → Nat) (tasks' : Fin m → Nat)
    (s s' : State σ V E) : Prop where
  waiter : s'.waiter = s.waiter
  allocated : s.allocated ≤ s'.allocated
  kind : (s'.frame c).kind = (s.frame c).kind
  continuation : (s'.frame c).continuation = (s.frame c).continuation
  others : ∀ g, Other c tasks s g → Other c tasks' s' g ∧ s'.frame g = s.frame g

/-- The coroutine `c` has ended with `r` and control is with its continuation. -/
structure Ended (c : Nat) (tasks : Fin n → Nat) (r : Evaluation σ V E)
    (s s' : State σ V E) : Prop where
  stop : s'.stop = none
  current : s'.current = (s.frame c).continuation
  store : s'.store = r.store
  waiter : s'.waiter = s.waiter
  allocated : s.allocated ≤ s'.allocated
  point : (s'.frame c).point = .final
  result : (s'.frame c).result = r.outcome
  kind : (s'.frame c).kind = (s.frame c).kind
  others : ∀ g, Other c tasks s g → s'.frame g = s.frame g

omit [Inhabited V] in
theorem GoesOn.trans
    (h : GoesOn c tasks tasks₁ s s₁)
    (h' : GoesOn c tasks₁ tasks₂ s₁ s₂) :
    GoesOn c tasks tasks₂ s s₂ where
  waiter := h'.waiter.trans h.waiter
  allocated := Nat.le_trans h.allocated h'.allocated
  kind := h'.kind.trans h.kind
  continuation := h'.continuation.trans h.continuation
  others := by
    intro g hg
    obtain ⟨hg₁, hframe⟩ := h.others g hg
    obtain ⟨hg₂, hframe'⟩ := h'.others g hg₁
    exact ⟨hg₂, hframe'.trans hframe⟩

theorem Ended.after
    (h : GoesOn c tasks tasks₁ s s₁)
    (h' : Ended c tasks₁ r s₁ s₂)
    (os : List (Operand V E)) :
    Ended c tasks (r.after os) s s₂ where
  stop := h'.stop
  current := h'.current.trans h.continuation
  store := h'.store
  waiter := h'.waiter.trans h.waiter
  allocated := Nat.le_trans h.allocated h'.allocated
  point := h'.point
  result := h'.result
  kind := h'.kind.trans h.kind
  others := by
    intro g hg
    obtain ⟨hg₁, hframe⟩ := h.others g hg
    exact (h'.others g hg₁).trans hframe

/-- The coroutine `c` runs, and is at the point `p`. -/
structure AtPoint (c : Nat) (tasks : Fin n → Nat) (p : Point σ V E)
    (s : State σ V E) : Prop where
  stop : s.stop = none
  current : s.current = some (.task c)
  point : (s.frame c).point = p
  value : (s.frame c).value = .nothing
  lt : c < s.allocated
  tasks_lt : ∀ x, tasks x < s.allocated
  tasks_ne : ∀ x, tasks x ≠ c
  tasks_inj : Function.Injective tasks

/-- A coroutine that is about to go on with the body `p`. -/
abbrev AtBody (c : Nat) (p : Program σ V E n) (tasks : Fin n → Nat) (s : State σ V E) : Prop :=
  AtPoint c tasks (.body p tasks) s

omit [Inhabited V] in
theorem AtPoint.event?
    {p : Point σ V E}
    (h : AtPoint c tasks p s) :
    s.event? = some (s.eventOf c) :=
  event?_task s c h.stop h.current

/-- A coroutine that control has been transferred to for the first time. -/
structure AtStart (c : Nat) (p : Program σ V E 0) (s : State σ V E) : Prop where
  stop : s.stop = none
  current : s.current = some (.task c)
  point : (s.frame c).point = .initial p
  value : (s.frame c).value = .nothing
  lt : c < s.allocated

theorem runs_begin
    {p : Program σ V E 0}
    (h : AtStart c p s) :
    s.event? = some (.begin c) ∧
      AtBody c p Fin.elim0 (s.next (.begin c)) ∧
      GoesOn c Fin.elim0 Fin.elim0 s (s.next (.begin c)) ∧
      (s.next (.begin c)).store = s.store := by
  have hnext : s.next (.begin c) = s.setPoint c (.body p Fin.elim0) :=
    begin_of_point h.point
  refine ⟨?_, ?_, ?_, by rw [hnext, setPoint_store]⟩
  · rw [event?_task s c h.stop h.current, State.eventOf, h.point]
  · rw [hnext]
    exact ⟨h.stop, h.current, by simp, by simp [h.value], h.lt, fun x => x.elim0,
      fun x => x.elim0, fun x => x.elim0⟩
  · rw [hnext]
    refine ⟨rfl, Nat.le_refl _, by simp, by simp, fun g hg => ?_⟩
    exact ⟨⟨hg.lt, hg.ne, fun x => x.elim0⟩, setPoint_of_ne s c _ hg.ne⟩

omit [Inhabited V] in
/-- The coroutine `c` goes on at another point, and may have changed the store. -/
theorem AtPoint.setPoint
    {p : Point σ V E}
    (h : AtPoint c tasks p s)
    (q : Point σ V E) (tasks' : Fin m → Nat) (x : σ)
    (hlt : ∀ y, tasks' y < s.allocated)
    (hne : ∀ y, tasks' y ≠ c)
    (hinj : Function.Injective tasks')
    (hothers : ∀ g, (∀ y, g ≠ tasks y) → ∀ y, g ≠ tasks' y) :
    AtPoint c tasks' q { s.setPoint c q with store := x } ∧
      GoesOn c tasks tasks' s { s.setPoint c q with store := x } := by
  constructor
  · exact ⟨h.stop, h.current, by simp, by simp [h.value], h.lt, hlt, hne, hinj⟩
  · refine ⟨rfl, Nat.le_refl _, by simp, by simp, fun g hg => ?_⟩
    exact ⟨⟨hg.lt, hg.ne, hothers g hg.tasks⟩, setPoint_of_ne s c _ hg.ne⟩

theorem runs_act
    {f : σ → V × σ} {k : V → Program σ V E n}
    (h : AtBody c (.act f k) tasks s) :
    s.event? = some (.act c) ∧
      AtBody c (k (f s.store).1) tasks (s.next (.act c)) ∧
      GoesOn c tasks tasks s (s.next (.act c)) ∧
      (s.next (.act c)).store = (f s.store).2 ∧
      ∀ x, (s.next (.act c)).frame (tasks x) = s.frame (tasks x) := by
  have hnext : s.next (.act c) =
      { s.setPoint c (.body (k (f s.store).1) tasks) with store := (f s.store).2 } :=
    act_of_point h.point
  obtain ⟨hbody, hgoes⟩ := h.setPoint (.body (k (f s.store).1) tasks) tasks (f s.store).2
    h.tasks_lt h.tasks_ne h.tasks_inj fun _ hg => hg
  refine ⟨by rw [h.event?, State.eventOf, h.point], ?_⟩
  rw [hnext]
  exact ⟨hbody, hgoes, rfl, fun x => setPoint_of_ne s c _ (h.tasks_ne x)⟩

theorem runs_leave
    {p : Program σ V E n} {tasks : Fin (n + 1) → Nat}
    (h : AtBody c (.leave p) tasks s) :
    s.event? = some (.leave c (tasks 0)) ∧
      AtBody c p (Fin.tail tasks) (s.next (.leave c (tasks 0))) ∧
      GoesOn c tasks (Fin.tail tasks) s (s.next (.leave c (tasks 0))) ∧
      (s.next (.leave c (tasks 0))).store = s.store ∧
      ∀ x, (s.next (.leave c (tasks 0))).frame (tasks x) = s.frame (tasks x) := by
  have hnext : s.next (.leave c (tasks 0)) = s.setPoint c (.body p (Fin.tail tasks)) :=
    leave_of_point h.point
  obtain ⟨hbody, hgoes⟩ := h.setPoint (.body p (Fin.tail tasks)) (Fin.tail tasks) s.store
    (fun y => h.tasks_lt _) (fun y => h.tasks_ne _)
    (h.tasks_inj.comp (Fin.succ_injective n)) fun g hg y => hg _
  refine ⟨by rw [h.event?, State.eventOf, h.point], ?_⟩
  rw [hnext]
  exact ⟨hbody, hgoes, rfl, fun x => setPoint_of_ne s c _ (h.tasks_ne x)⟩

/-- The new coroutine is suspended at `initial_suspend`. -/
theorem runs_create
    {childKind : Kind} {child : Program σ V E 0} {p : Program σ V E (n + 1)}
    (h : AtBody c (.create childKind child p) tasks s) :
    s.event? = some (.create c s.allocated) ∧
      AtBody c p (Fin.cons s.allocated tasks) (s.next (.create c s.allocated)) ∧
      GoesOn c tasks (Fin.cons s.allocated tasks : Fin (n + 1) → Nat) s
        (s.next (.create c s.allocated)) ∧
      (s.next (.create c s.allocated)).store = s.store ∧
      (s.next (.create c s.allocated)).frame s.allocated = .new childKind child ∧
      ∀ x, (s.next (.create c s.allocated)).frame (tasks x) = s.frame (tasks x) := by
  have hnext : s.next (.create c s.allocated) =
      { (s.setPoint c (.body p (Fin.cons s.allocated tasks))).setFrame s.allocated
          (.new childKind child) with
        allocated := s.allocated + 1 } :=
    create_of_point h.point
  have hc : c ≠ s.allocated := Nat.ne_of_lt h.lt
  have hself : (s.next (.create c s.allocated)).frame c =
      { s.frame c with point := .body p (Fin.cons s.allocated tasks) } := by
    rw [hnext]
    exact (setFrame_of_ne _ _ _ hc).trans (setPoint_self s c _)
  have hother : ∀ g, g ≠ c → g ≠ s.allocated →
      (s.next (.create c s.allocated)).frame g = s.frame g := by
    intro g hgc hg
    rw [hnext]
    exact (setFrame_of_ne _ _ _ hg).trans (setPoint_of_ne s c _ hgc)
  have hallocated : (s.next (.create c s.allocated)).allocated = s.allocated + 1 := by
    rw [hnext]
  refine ⟨by rw [h.event?, State.eventOf, h.point], ?_, ?_, by rw [hnext]; rfl,
    by rw [hnext]; exact setFrame_self _ _ _,
    fun x => hother _ (h.tasks_ne x) (Nat.ne_of_lt (h.tasks_lt x))⟩
  · constructor
    · rw [hnext]
      exact h.stop
    · rw [hnext]
      exact h.current
    · rw [hself]
    · rw [hself]
      exact h.value
    · rw [hallocated]
      exact Nat.lt_succ_of_lt h.lt
    · rw [hallocated]
      exact Fin.cases (Nat.lt_succ_self _) fun x => Nat.lt_succ_of_lt (h.tasks_lt x)
    · exact Fin.cases hc.symm h.tasks_ne
    · refine Fin.cons_injective_iff.mpr ⟨?_, h.tasks_inj⟩
      rintro ⟨x, hx⟩
      exact absurd hx (Nat.ne_of_lt (h.tasks_lt x))
  · constructor
    · rw [hnext]
      rfl
    · rw [hallocated]
      exact Nat.le_succ _
    · rw [hself]
    · rw [hself]
    · intro g hg
      have hne := Nat.ne_of_lt hg.lt
      refine ⟨⟨?_, hg.ne, Fin.cases hne hg.tasks⟩, hother g hg.ne hne⟩
      rw [hallocated]
      exact Nat.lt_succ_of_lt hg.lt

/-- The end of a body: `final_suspend` transfers control to the continuation. -/
theorem leads_final
    {p : Program σ V E n} {f : Frame σ V E}
    (h : AtBody c p tasks s)
    (he : s.eventOf c = .finish c)
    (hstored : ∀ o ∈ s.operands (.finish c), o.Stored)
    (hnext : s.next (.finish c) = s.setFrame c f)
    (hpoint : f.point = .final)
    (hkind : f.kind = (s.frame c).kind)
    (hcontinuation : f.continuation = (s.frame c).continuation)
    (hresult : f.result = r.outcome)
    (hstore : s.store = r.store) :
    ∃ s', Leads s [.finish c, .finalSuspend c] s' ∧ Ended c tasks r s s' := by
  have he' : (s.setFrame c f).event? = some (.finalSuspend c) := by
    rw [event?_task (s.setFrame c f) c h.stop h.current, State.eventOf, setFrame_self, hpoint]
  refine ⟨(s.setFrame c f).next (.finalSuspend c), ?_, ?_⟩
  · refine .cons (by rw [h.event?, he]) hstored ?_
    rw [hnext]
    exact .cons he' stored_nil (.nil _)
  · constructor
    · exact h.stop
    · change ((s.setFrame c f).frame c).continuation = _
      rw [setFrame_self, hcontinuation]
    · exact hstore
    · rfl
    · exact Nat.le_refl _
    · change ((s.setFrame c f).frame c).point = _
      rw [setFrame_self, hpoint]
    · change ((s.setFrame c f).frame c).result = _
      rw [setFrame_self, hresult]
    · change ((s.setFrame c f).frame c).kind = _
      rw [setFrame_self, hkind]
    · exact fun g hg => setFrame_of_ne s c f hg.ne

theorem leads_throw
    {e : Thrown E}
    (h : AtBody c (.throw e : Program σ V E n) tasks s) :
    ∃ s', Leads s [.finish c, .finalSuspend c] s' ∧
      Ended c tasks { outcome := .error e, store := s.store, operands := [] } s s' := by
  refine leads_final (f := (s.frame c).unhandledException e) h ?_ ?_ ?_ rfl rfl rfl ?_ rfl
  · rw [State.eventOf, h.point]
  · rw [State.operands, h.point]
    exact stored_nil
  · exact finish_of_throw h.point
  · cases hkind : (s.frame c).kind <;>
      simp [Frame.unhandledException, Frame.result, hkind, Expected.value,
        Expected.valueVoid, Except.map]

/-- `co_return` of an operand that is stored, or without one. -/
theorem leads_coReturn
    {o : Operand V E}
    (h : AtBody c (.coReturn o : Program σ V E n) tasks s)
    (hstored : ∀ o' ∈ (s.frame c).kind.operands o, o'.Stored) :
    ∃ s', Leads s [.finish c, .finalSuspend c] s' ∧
      Ended c tasks
        { outcome := .ok ((s.frame c).kind.returned o.value)
          store := s.store
          operands := (s.frame c).kind.operands o } s s' := by
  have he : s.eventOf c = .finish c := by
    rw [State.eventOf, h.point]
  have hoperands : s.operands (.finish c) = (s.frame c).kind.operands o := by
    rw [State.operands, h.point]
  cases hkind : (s.frame c).kind with
  | value =>
      have ho : o.storing = .stored := by
        rw [hkind] at hstored
        exact hstored o (List.mem_singleton_self o)
      refine leads_final
        (f := { s.frame c with point := .final, value := .expected o.value })
        h he ?_ ?_ rfl rfl rfl ?_ rfl
      · rwa [hoperands]
      · refine finish_of_coReturn h.point ?_
        simp only [Frame.coReturn, hkind, Frame.returnValue, ho]
      · simp only [Frame.result, hkind, Expected.value, Kind.returned]
  | void =>
      refine leads_final (f := (s.frame c).returnVoid) h he ?_ ?_ rfl rfl rfl ?_ rfl
      · rwa [hoperands]
      · exact finish_of_coReturn h.point (by simp only [Frame.coReturn, hkind])
      · simp only [Frame.result, Frame.returnVoid, hkind, h.value, Expected.valueVoid,
          Except.map, Kind.returned]

theorem evalIn_await
    (x : Fin n) (k : V → Program σ V E n) (h : Thrown E → Program σ V E n)
    (kind : Kind) (held : Fin n → Held σ V E) (st : σ) :
    (Program.await x k h).evalIn kind held st =
      ((afterAwait k h ((held x).call st).outcome).evalIn kind
        (Function.update held x (.ended ((held x).call st).outcome))
        ((held x).call st).store).after ((held x).call st).operands := by
  rw [Program.evalIn]
  cases hcall : ((held x).call st).outcome <;> simp [afterAwait]

/-- The coroutine `c` awaits for the first time the `Task` that it holds as `x`. -/
structure Called (c : Nat) (tasks : Fin n → Nat) (x : Fin n) (p : Point σ V E)
    (q : Program σ V E 0) (s s' : State σ V E) : Prop where
  start : AtStart (tasks x) q s'
  store : s'.store = s.store
  waiter : s'.waiter = s.waiter
  allocated : s'.allocated = s.allocated
  self : s'.frame c = { s.frame c with point := p }
  child : s'.frame (tasks x) = { s.frame (tasks x) with continuation := some (.task c) }
  others : ∀ g, g ≠ c → g ≠ tasks x → s'.frame g = s.frame g

theorem runs_call
    {x : Fin n} {k : V → Program σ V E n} {h : Thrown E → Program σ V E n}
    {q : Program σ V E 0}
    (hs : AtBody c (.await x k h) tasks s)
    (hpoint : (s.frame (tasks x)).point = .initial q)
    (hvalue : (s.frame (tasks x)).value = .nothing) :
    s.event? = some (.await (.task c) (tasks x)) ∧
      Called c tasks x (.awaiting x k h tasks) q s
        (s.next (.await (.task c) (tasks x))) := by
  have hne := hs.tasks_ne x
  have hsuspend : s.suspend (.task c) = s.setPoint c (.awaiting x k h tasks) :=
    suspend_of_point hs.point
  have hnext : s.next (.await (.task c) (tasks x)) =
      { (s.setPoint c (.awaiting x k h tasks)).setFrame (tasks x)
          { s.frame (tasks x) with continuation := some (.task c) } with
        current := some (.task (tasks x)) } := by
    simp [State.next, State.await, Frame.done, hpoint, hsuspend, setPoint_of_ne _ _ _ hne]
  have hchild : (s.next (.await (.task c) (tasks x))).frame (tasks x) =
      { s.frame (tasks x) with continuation := some (.task c) } := by
    rw [hnext]
    exact setFrame_self _ _ _
  refine ⟨by rw [hs.event?, State.eventOf, hs.point], ?_, ?_, ?_, ?_, ?_, hchild, ?_⟩
  · refine ⟨?_, ?_, ?_, ?_, ?_⟩
    · rw [hnext]
      exact hs.stop
    · rw [hnext]
    · rw [hchild]
      exact hpoint
    · rw [hchild]
      exact hvalue
    · rw [hnext]
      exact hs.tasks_lt x
  · rw [hnext]
    rfl
  · rw [hnext]
    rfl
  · rw [hnext]
    rfl
  · rw [hnext]
    exact (setFrame_of_ne _ _ _ hne.symm).trans (setPoint_self s c _)
  · intro g hgc hg
    rw [hnext]
    exact (setFrame_of_ne _ _ _ hg).trans (setPoint_of_ne s c _ hgc)

/--
The `Task` that `c` holds as `x` has the outcome `o`, and `c`, which has control again,
is about to get it from `await_resume`.
-/
structure Awaited (c : Nat) (tasks : Fin n → Nat) (x : Fin n) (p : Point σ V E)
    (o : Except (Thrown E) V) (s s' : State σ V E) : Prop where
  point : AtPoint c tasks p s'
  goesOn : GoesOn c tasks tasks s s'
  done : (s'.frame (tasks x)).point = .final
  result : (s'.frame (tasks x)).result = o
  others : ∀ y, y ≠ x → s'.frame (tasks y) = s.frame (tasks y)

/-- A `Task` that is done is ready. -/
theorem runs_ready
    {x : Fin n} {k : V → Program σ V E n} {h : Thrown E → Program σ V E n}
    {o : Except (Thrown E) V}
    (hs : AtBody c (.await x k h) tasks s)
    (hpoint : (s.frame (tasks x)).point = .final)
    (hresult : (s.frame (tasks x)).result = o) :
    s.event? = some (.await (.task c) (tasks x)) ∧
      Awaited c tasks x (.awaiting x k h tasks) o s
        (s.next (.await (.task c) (tasks x))) ∧
      (s.next (.await (.task c) (tasks x))).store = s.store := by
  have hnext : s.next (.await (.task c) (tasks x)) =
      s.setPoint c (.awaiting x k h tasks) := by
    simp [State.next, State.await, Frame.done, hpoint, suspend_of_point hs.point]
  obtain ⟨hat, hgoes⟩ := hs.setPoint (.awaiting x k h tasks) tasks s.store
    hs.tasks_lt hs.tasks_ne hs.tasks_inj fun _ hg => hg
  have hframe : ∀ y, (s.setPoint c (.awaiting x k h tasks)).frame (tasks y) =
      s.frame (tasks y) :=
    fun y => setPoint_of_ne s c _ (hs.tasks_ne y)
  refine ⟨by rw [hs.event?, State.eventOf, hs.point], ?_⟩
  rw [hnext]
  exact ⟨⟨hat, hgoes, by rw [hframe, hpoint], by rw [hframe, hresult], fun y _ => hframe y⟩,
    rfl⟩

/-- The child has left the frames of its caller alone. -/
theorem Called.awaited
    {x : Fin n} {p p' : Point σ V E} {q : Program σ V E 0}
    (h : Called c tasks x p' q s s₁)
    (hs : AtPoint c tasks p s)
    (hended : Ended (tasks x) Fin.elim0 r s₁ s₂) :
    Awaited c tasks x p' r.outcome s s₂ := by
  have hne := hs.tasks_ne x
  have hother : ∀ g, g < s.allocated → g ≠ tasks x → s₂.frame g = s₁.frame g :=
    fun g hg hgx => hended.others g ⟨h.allocated ▸ hg, hgx, fun y => y.elim0⟩
  have hself : s₂.frame c = { s.frame c with point := p' } :=
    (hother c hs.lt hne.symm).trans h.self
  have hallocated : s.allocated ≤ s₂.allocated := h.allocated ▸ hended.allocated
  constructor
  · refine ⟨hended.stop, ?_, ?_, ?_, Nat.lt_of_lt_of_le hs.lt hallocated,
      fun y => Nat.lt_of_lt_of_le (hs.tasks_lt y) hallocated, hs.tasks_ne, hs.tasks_inj⟩
    · rw [hended.current, h.child]
    · rw [hself]
    · rw [hself]
      exact hs.value
  · refine ⟨hended.waiter.trans h.waiter, hallocated, by rw [hself], by rw [hself], ?_⟩
    intro g hg
    exact ⟨⟨Nat.lt_of_lt_of_le hg.lt hallocated, hg.ne, hg.tasks⟩,
      (hother g hg.lt (hg.tasks x)).trans (h.others g hg.ne (hg.tasks x))⟩
  · exact hended.point
  · exact hended.result
  · intro y hy
    have hyx : tasks y ≠ tasks x := fun h => hy (hs.tasks_inj h)
    exact (hother _ (hs.tasks_lt y) hyx).trans (h.others _ (hs.tasks_ne y) hyx)

theorem runs_resume
    {x : Fin n} {k : V → Program σ V E n} {h : Thrown E → Program σ V E n}
    {o : Except (Thrown E) V}
    (hs : AtPoint c tasks (.awaiting x k h tasks) s)
    (hresult : (s.frame (tasks x)).result = o) :
    s.event? = some (.resume (.task c) (tasks x)) ∧
      AtBody c (afterAwait k h o) tasks (s.next (.resume (.task c) (tasks x))) ∧
      GoesOn c tasks tasks s (s.next (.resume (.task c) (tasks x))) ∧
      (s.next (.resume (.task c) (tasks x))).store = s.store ∧
      ∀ y, (s.next (.resume (.task c) (tasks x))).frame (tasks y) = s.frame (tasks y) := by
  have hnext : s.next (.resume (.task c) (tasks x)) =
      s.setPoint c (.body (afterAwait k h o) tasks) :=
    hresult ▸ resume_of_point hs.point
  obtain ⟨hbody, hgoes⟩ := hs.setPoint (.body (afterAwait k h o) tasks) tasks s.store
    hs.tasks_lt hs.tasks_ne hs.tasks_inj fun _ hg => hg
  refine ⟨by rw [hs.event?, State.eventOf, hs.point], ?_⟩
  rw [hnext]
  exact ⟨hbody, hgoes, rfl, fun y => setPoint_of_ne s c _ (hs.tasks_ne y)⟩

/-- The coroutine `c` is about to return the operand `o`, which will not be stored. -/
structure Fails (c : Nat) (o : Operand V E) (s : State σ V E) : Prop where
  stop : s.stop = none
  current : s.current = some (.task c)
  point : ∃ n, ∃ tasks : Fin n → Nat, (s.frame c).point = .body (.coReturn o) tasks
  kind : (s.frame c).kind = .value
  stored : ¬ o.Stored

/--
The steps from `s` on come to a `co_return` whose operand, one of `os`, is not stored.
It stands in a body that has started after `s` and that returns the operand when it is
called as a function.
-/
inductive Breaks (s : State σ V E) (os : List (Operand V E)) : Prop
  | intro {s₁ s₂ : State σ V E} {es fs : List Event} {c : Nat} {p : Program σ V E 0}
      {o : Operand V E}
      (hleads : Leads s es s₁)
      (hstart : AtStart c p s₁)
      (hbody : Leads s₁ (.begin c :: fs) s₂)
      (houtcome : (p.eval (s₁.frame c).kind s₁.store).outcome = .ok o.value)
      (hfails : Fails c o s₂)
      (hmem : o ∈ os)

/-- How the steps of `c`, whose body evaluates to `r` from here, can go on. -/
inductive Outcome (c : Nat) (tasks : Fin n → Nat) (r : Evaluation σ V E) (s : State σ V E) :
    Prop
  | ends (es : List Event) {s' : State σ V E}
      (hleads : Leads s (es ++ [.finalSuspend c]) s')
      (hended : Ended c tasks r s s')
      (hstored : ∀ o ∈ r.operands, o.Stored)
  | fails {es : List Event} {s' : State σ V E} {o : Operand V E}
      (hleads : Leads s es s')
      (houtcome : r.outcome = .ok o.value)
      (hfails : Fails c o s')
      (hmem : o ∈ r.operands)
  | breaks (h : Breaks s r.operands)

/-- How the steps of a coroutine that starts can go on. -/
inductive Started (c : Nat) (r : Evaluation σ V E) (s : State σ V E) : Prop
  | ends (es : List Event) {s' : State σ V E}
      (hleads : Leads s (.begin c :: (es ++ [.finalSuspend c])) s')
      (hended : Ended c Fin.elim0 r s s')
      (hstored : ∀ o ∈ r.operands, o.Stored)
  | breaks (h : Breaks s r.operands)

/-- What a body leads to wherever it starts. -/
def Sound (p : Program σ V E 0) : Prop :=
  ∀ s c, AtStart c p s → Started c (p.eval (s.frame c).kind s.store) s

/-- The coroutine of a `Task` that a body holds is as direct evaluation knows it. -/
def Represents (f : Frame σ V E) : Held σ V E → Prop
  | .pending call =>
      ∃ p, f.point = .initial p ∧ f.value = .nothing ∧ call = p.eval f.kind ∧ Sound p
  | .ended o => f.point = .final ∧ f.result = o

theorem Breaks.of_leads
    {es : List Event} {os os' : List (Operand V E)}
    (hleads : Leads s es s₁)
    (hsub : ∀ o ∈ os, o ∈ os')
    (h : Breaks s₁ os) :
    Breaks s os' := by
  obtain ⟨hleads', hstart, hbody, houtcome, hfails, hmem⟩ := h
  exact ⟨hleads.append hleads', hstart, hbody, houtcome, hfails, hsub _ hmem⟩

/-- What follows after steps that have come to the operands `os` and stored them. -/
theorem Outcome.after
    {es : List Event} {os : List (Operand V E)}
    (hleads : Leads s es s₁)
    (hgoes : GoesOn c tasks tasks₁ s s₁)
    (hos : ∀ o ∈ os, o.Stored)
    (h : Outcome c tasks₁ r s₁) :
    Outcome c tasks (r.after os) s := by
  cases h with
  | ends fs hleads' hended hstored =>
      refine .ends (es ++ fs) ?_ (hended.after hgoes os) ?_
      · rw [List.append_assoc]
        exact hleads.append hleads'
      · intro o ho
        rcases List.mem_append.mp ho with ho | ho
        · exact hos o ho
        · exact hstored o ho
  | fails hleads' houtcome hfails hmem =>
      exact .fails (hleads.append hleads') houtcome hfails (List.mem_append_right _ hmem)
  | breaks h =>
      exact .breaks (h.of_leads hleads fun _ ho => List.mem_append_right _ ho)

omit [Inhabited V] in
theorem after_nil (r : Evaluation σ V E) :
    r.after [] = r := by
  rfl

/-- A step that stores nothing, and what follows. -/
theorem Outcome.step
    {e : Event}
    (he : s.event? = some e)
    (hoperands : s.operands e = [])
    (hgoes : GoesOn c tasks tasks₁ s (s.next e))
    (h : Outcome c tasks₁ r (s.next e)) :
    Outcome c tasks r s := by
  have hstored : ∀ o ∈ s.operands e, o.Stored := hoperands ▸ stored_nil
  have hnext := h.after (.cons he hstored (.nil _)) hgoes stored_nil
  rwa [after_nil] at hnext

/-- A coroutine starts with the body `p`, of which the outcome is known. -/
theorem Started.of_outcome
    {p : Program σ V E 0}
    (hs : AtStart c p s)
    (h : Outcome c Fin.elim0 (p.eval (s.frame c).kind s.store) (s.next (.begin c))) :
    Started c (p.eval (s.frame c).kind s.store) s := by
  obtain ⟨he, hbody, hgoes, hstore⟩ := runs_begin hs
  have hstored : ∀ o ∈ s.operands (.begin c), o.Stored := stored_nil
  cases h with
  | ends es hleads hended hstored' =>
      exact .ends es (.cons he hstored hleads) (hended.after hgoes []) hstored'
  | fails hleads houtcome hfails hmem =>
      exact .breaks ⟨.nil s, hs, .cons he hstored hleads, houtcome, hfails, hmem⟩
  | breaks h =>
      exact .breaks (h.of_leads (.cons he hstored (.nil _)) fun _ ho => ho)

theorem sound_of_outcome
    {p : Program σ V E 0}
    (h : ∀ s c, AtBody c p Fin.elim0 s →
      Outcome c Fin.elim0 (p.eval (s.frame c).kind s.store) s) :
    Sound p := by
  intro s c hs
  obtain ⟨-, hbody, hgoes, hstore⟩ := runs_begin hs
  have hnext := h _ c hbody
  rw [hgoes.kind, hstore] at hnext
  exact .of_outcome hs hnext

/-- `await_resume` hands over the outcome of the `Task`, and the body goes on. -/
theorem Outcome.resume
    {x : Fin n} {k : V → Program σ V E n} {h : Thrown E → Program σ V E n}
    {o : Except (Thrown E) V} {os : List (Operand V E)} {es : List Event}
    (hleads : Leads s es s₁)
    (hos : ∀ o ∈ os, o.Stored)
    (hs : Awaited c tasks x (.awaiting x k h tasks) o s s₁)
    (hrest : AtBody c (afterAwait k h o) tasks (s₁.next (.resume (.task c) (tasks x))) →
      (∀ y, (s₁.next (.resume (.task c) (tasks x))).frame (tasks y) = s₁.frame (tasks y)) →
      (s₁.next (.resume (.task c) (tasks x))).store = s₁.store →
      ((s₁.next (.resume (.task c) (tasks x))).frame c).kind = (s.frame c).kind →
      Outcome c tasks r (s₁.next (.resume (.task c) (tasks x)))) :
    Outcome c tasks (r.after os) s := by
  obtain ⟨he, hbody, hgoes, hstore, hframe⟩ := runs_resume hs.point hs.result
  have hnext := Outcome.step he rfl hgoes
    (hrest hbody hframe hstore (hgoes.kind.trans hs.goesOn.kind))
  exact hnext.after hleads hs.goesOn hos

/-- The steps from any point of a body on: it ends as evaluated, or is not stored. -/
theorem outcome_evalIn
    (p : Program σ V E n) :
    ∀ (s : State σ V E) (c : Nat) (tasks : Fin n → Nat) (kind : Kind)
      (held : Fin n → Held σ V E) (st : σ),
      AtBody c p tasks s → (s.frame c).kind = kind → s.store = st →
        (∀ x, Represents (s.frame (tasks x)) (held x)) →
          Outcome c tasks (p.evalIn kind held st) s := by
  induction p with
  | coReturn o =>
      rintro s c tasks kind held st hs rfl rfl -
      by_cases hstored : ∀ o' ∈ (s.frame c).kind.operands o, o'.Stored
      · obtain ⟨s', hleads, hended⟩ := leads_coReturn hs hstored
        exact .ends [.finish c] hleads hended hstored
      · cases hkind : (s.frame c).kind with
        | void =>
            refine absurd ?_ hstored
            rw [hkind]
            exact stored_nil
        | value =>
            have ho : ¬ o.Stored := by
              intro ho
              refine hstored fun o' ho' => ?_
              rw [hkind] at ho'
              rwa [List.mem_singleton.mp ho']
            exact .fails (.nil s) rfl ⟨hs.stop, hs.current, ⟨_, tasks, hs.point⟩, hkind, ho⟩
              (List.mem_singleton_self o)
  | throw e =>
      rintro s c tasks kind held st hs rfl rfl -
      obtain ⟨s', hleads, hended⟩ := leads_throw hs
      exact .ends [.finish c] hleads hended stored_nil
  | act f k ih =>
      rintro s c tasks kind held st hs rfl rfl hheld
      obtain ⟨he, hbody, hgoes, hstore, hframe⟩ := runs_act hs
      refine .step he rfl hgoes (ih _ _ c tasks _ held _ hbody hgoes.kind hstore fun x => ?_)
      rw [hframe]
      exact hheld x
  | @create n childKind child p ihChild ih =>
      rintro s c tasks kind held st hs rfl rfl hheld
      obtain ⟨he, hbody, hgoes, hstore, hnew, hframe⟩ := runs_create hs
      -- The child is sound by induction, wherever it will be awaited.
      have hsound : Sound child :=
        sound_of_outcome fun s c hs => ihChild s c _ _ _ _ hs rfl rfl fun x => x.elim0
      refine .step he rfl hgoes (ih _ c _ _ _ _ hbody hgoes.kind hstore ?_)
      refine Fin.cases ?_ fun x => ?_
      · rw [Fin.cons_zero, Fin.cons_zero, hnew]
        exact ⟨child, rfl, rfl, rfl, hsound⟩
      · rw [Fin.cons_succ, Fin.cons_succ, hframe]
        exact hheld x
  | @await n x k h ihK ihH =>
      rintro s c tasks kind held st hs rfl rfl hheld
      rw [evalIn_await]
      have hrest : ∀ {s₁ : State σ V E} {o : Except (Thrown E) V},
          Awaited c tasks x (.awaiting x k h tasks) o s s₁ →
          AtBody c (afterAwait k h o) tasks (s₁.next (.resume (.task c) (tasks x))) →
          (∀ y, (s₁.next (.resume (.task c) (tasks x))).frame (tasks y) =
            s₁.frame (tasks y)) →
          (s₁.next (.resume (.task c) (tasks x))).store = s₁.store →
          ((s₁.next (.resume (.task c) (tasks x))).frame c).kind = (s.frame c).kind →
          Outcome c tasks
            ((afterAwait k h o).evalIn (s.frame c).kind
              (Function.update held x (.ended o)) s₁.store)
            (s₁.next (.resume (.task c) (tasks x))) := by
        intro s₁ o hawaited hbody hframe hstore hkind
        have hheld' : ∀ y, Represents
            ((s₁.next (.resume (.task c) (tasks x))).frame (tasks y))
            (Function.update held x (.ended o) y) := by
          intro y
          rw [hframe]
          by_cases hy : y = x
          · subst hy
            rw [Function.update_self]
            exact ⟨hawaited.done, hawaited.result⟩
          · rw [Function.update_of_ne hy, hawaited.others y hy]
            exact hheld y
        cases o with
        | ok v =>
            exact ihK v _ c tasks _ _ _ hbody hkind hstore hheld'
        | error e =>
            exact ihH e _ c tasks _ _ _ hbody hkind hstore hheld'
      have hx := hheld x
      cases hcall : held x with
      | pending call =>
          rw [hcall] at hx
          obtain ⟨q, hpoint, hvalue, rfl, hsound⟩ := hx
          obtain ⟨he, hcalled⟩ := runs_call hs hpoint hvalue
          have hfirst : Leads s [.await (.task c) (tasks x)] _ :=
            .cons he stored_nil (.nil _)
          have hstarted := hsound _ _ hcalled.start
          rw [hcalled.child, hcalled.store] at hstarted
          change Outcome c tasks (Evaluation.after _ (q.eval _ s.store).operands) s
          cases hstarted with
          | ends es hleads hended hstored =>
              refine .resume (hfirst.append hleads) hstored (hcalled.awaited hs hended) ?_
              intro hbody hframe hstore hkind
              have h := hrest (hcalled.awaited hs hended) hbody hframe hstore hkind
              rw [hended.store] at h
              exact h
          | breaks hbreaks =>
              exact .breaks (hbreaks.of_leads hfirst fun _ ho => List.mem_append_left _ ho)
      | ended o =>
          rw [hcall] at hx
          obtain ⟨he, hawaited, hstore⟩ := runs_ready hs hx.1 hx.2
          refine .resume (.cons he stored_nil (.nil _)) stored_nil hawaited ?_
          intro hbody hframe hstore' hkind
          have h := hrest hawaited hbody hframe hstore' hkind
          rw [hstore] at h
          exact h
  | @leave n p ih =>
      rintro s c tasks kind held st hs rfl rfl hheld
      obtain ⟨he, hbody, hgoes, hstore, hframe⟩ := runs_leave hs
      refine .step he rfl hgoes (ih _ c _ _ _ _ hbody hgoes.kind hstore fun x => ?_)
      change Represents (State.frame _ (tasks x.succ)) (held x.succ)
      rw [hframe]
      exact hheld x.succ

end Steps

section Root

/-- `sync_wait` starts its coroutine, which awaits the root `Task`. -/
theorem leads_start (kind : Kind) (root : Program σ V E 0) (st : σ) :
    ∃ s,
      Leads (start kind root st) [.start, .await .syncWait 0] s ∧
      AtStart 0 root s ∧
      s.store = st ∧
      (s.frame 0).kind = kind ∧
      (s.frame 0).continuation = some .syncWait ∧
      s.waiter = { point := .awaiting, result := none, exception := none } := by
  have hleads : Leads (start kind root st) [.start, .await .syncWait 0]
      (((start kind root st).next .start).next (.await .syncWait 0)) :=
    .cons rfl stored_nil (.cons rfl stored_nil (.nil _))
  refine ⟨_, hleads, ⟨rfl, rfl, rfl, rfl, Nat.one_pos⟩, rfl, rfl, rfl, rfl⟩

/-- `sync_wait` has come to its end, and returns or throws `o`. -/
structure State.Returns (s : State σ V E) (kind : Kind) (o : Except (Thrown E) V) : Prop where
  stop : s.stop = none
  current : s.current = none
  point : s.waiter.point = .yielded ∨ s.waiter.point = .final
  result : s.syncWaitResult kind = some o

theorem State.Returns.stuck
    {s : State σ V E} {o : Except (Thrown E) V}
    (h : s.Returns kind o)
    (e : Event) :
    s.event? ≠ some e := by
  rw [State.event?, h.stop, h.current]
  rcases h.point with hpoint | hpoint <;> simp [hpoint]

/-- `await_resume` in the coroutine of `sync_wait`, which suspends for good. -/
theorem returns_resume
    {s : State σ V E} {o : Except (Thrown E) V}
    (hstop : s.stop = none)
    (hcurrent : s.current = some .syncWait)
    (hwaiter : s.waiter = { point := .awaiting, result := none, exception := none })
    (hkind : (s.frame 0).kind = kind)
    (hresult : (s.frame 0).result = o)
    (hvoid : kind = .void → ∀ v, o = .ok v → v = default) :
    s.event? = some (.resume .syncWait 0) ∧
      (s.next (.resume .syncWait 0)).Returns kind o ∧
      (s.next (.resume .syncWait 0)).store = s.store := by
  have hevent : s.event? = some (.resume .syncWait 0) := by
    rw [State.event?, hstop, hcurrent, State.waiterEvent?, hwaiter]
  have hnext : s.next (.resume .syncWait 0) = s.outcome kind o := by
    rw [← hkind, ← hresult]
    rfl
  refine ⟨hevent, ?_⟩
  rw [hnext]
  cases o with
  | error e =>
      exact ⟨⟨hstop, rfl, .inr rfl, rfl⟩, rfl⟩
  | ok v =>
      cases kind with
      | value =>
          exact ⟨⟨hstop, rfl, .inl rfl, by simp [State.outcome, State.syncWaitResult, hwaiter]⟩,
            rfl⟩
      | void =>
          obtain rfl := hvoid rfl v rfl
          exact ⟨⟨hstop, rfl, .inr rfl, by simp [State.outcome, State.syncWaitResult, hwaiter]⟩,
            rfl⟩

/-- A call of a `void` function returns no value. -/
theorem evalIn_void
    {n : Nat}
    (p : Program σ V E n) :
    ∀ (held : Fin n → Held σ V E) (st : σ) (v : V),
      (p.evalIn .void held st).outcome = .ok v → v = default := by
  induction p with
  | coReturn o =>
      intro held st v h
      exact (Except.ok.inj h).symm
  | throw e =>
      intro held st v h
      cases h
  | act f k ih =>
      intro held st v h
      exact ih _ held _ v h
  | create childKind child p _ ih =>
      intro held st v h
      exact ih _ st v h
  | await x k h ihK ihH =>
      intro held st v hv
      rw [evalIn_await] at hv
      cases ho : ((held x).call st).outcome with
      | ok a =>
          rw [ho] at hv
          exact ihK a _ _ v hv
      | error e =>
          rw [ho] at hv
          exact ihH e _ _ v hv
  | leave p ih =>
      intro held st v h
      exact ih _ st v h

theorem sound (p : Program σ V E 0) :
    Sound p :=
  sound_of_outcome fun s c hs => outcome_evalIn p s c _ _ _ _ hs rfl rfl fun x => x.elim0

/-- `sync_wait` returns what direct evaluation does, or an operand is not stored. -/
theorem outcome_root (kind : Kind) (root : Program σ V E 0) (st : σ) :
    (∃ es s,
      Leads (start kind root st) es s ∧
      s.Returns kind (root.eval kind st).outcome ∧
      s.store = (root.eval kind st).store ∧
      ∀ o ∈ (root.eval kind st).operands, o.Stored) ∨
      Breaks (start kind root st) (root.eval kind st).operands := by
  obtain ⟨s, hleads, hs, hstore, hkind, hcontinuation, hwaiter⟩ := leads_start kind root st
  have hstarted := sound root s 0 hs
  rw [hkind, hstore] at hstarted
  cases hstarted with
  | breaks h =>
      exact .inr (h.of_leads hleads fun _ ho => ho)
  | @ends es s' hleads' hended hstored =>
      obtain ⟨he, hreturns, hstore'⟩ := returns_resume hended.stop
        (hended.current.trans hcontinuation) (hended.waiter.trans hwaiter)
        (hended.kind.trans hkind) hended.result
        fun h v hv => evalIn_void root Fin.elim0 st v (h ▸ hv)
      have hlast : Leads s' [.resume .syncWait 0] _ :=
        .cons he stored_nil (.nil _)
      exact .inl ⟨_, _, (hleads.append hleads').append hlast, hreturns,
        hstore'.trans hended.store, hstored⟩

end Root

end SyncWait
end Ptl

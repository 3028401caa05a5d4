import Ptl.TaskCalls

/-!
# The coroutine frames of nested tasks

A call of a coroutine allocates its frame with `task_promise_base::operator new`.  The
frame of a child that a `CallProgram` awaits belongs to the temporary `Task` of the
`co_await` expression, whose destructor destroys it after `await_resume`, whether that
returns or throws.  The frame of the root belongs to the caller of `sync_wait`.

**Result.**  `syncWait_frames`: the frames form a stack, as those of function calls do.
The running coroutine has the newest one, no step touches a frame that is gone, a frame
is destroyed only after `final_suspend`, and no more frames exist at a time than the
calls of direct evaluation are deep.
-/

namespace Ptl
namespace SyncWait

open Transition

universe u v w

variable {σ : Type u} {V : Type v} {E : Type w} [Inhabited V]

/-- How deep the calls of direct evaluation nest below the body. -/
def CallProgram.depth : CallProgram σ V E → σ → Nat
  | coReturn _, _ => 0
  | throw _, _ => 0
  | act f k, st => (k (f st).1).depth (f st).2
  | await kind child k h, st =>
      max (child.depth st + 1)
        (match child.eval st with
        | (.ok v, st') => (k (kind.returned v)).depth st'
        | (.error e, st') => (h e).depth st')

/-- What a step does to the frames that exist; the newest one comes first. -/
def Event.frames (l : List Nat) : Event → List Nat
  | .create _ n => n :: l
  | .leave _ d => l.erase d
  | _ => l

def framesAfter (l : List Nat) (es : List Event) : List Nat :=
  es.foldl Event.frames l

/-- The largest number of frames that exist at a time. -/
def peak (l : List Nat) : List Event → Nat
  | [] => l.length
  | e :: es => max l.length (peak (e.frames l) es)

/-- The coroutine of `sync_wait` does not count. -/
def Handle.stack : Handle → List Nat
  | .syncWait => []
  | .task c => [c]

/-- The frames a step touches: that of the running coroutine and that of its child. -/
def Event.stack : Event → List Nat
  | .start => []
  | .create c _ => [c]
  | .await h d => d :: h.stack
  | .begin c => [c]
  | .act c => [c]
  | .leave c d => [d, c]
  | .finish c => [c]
  | .finalSuspend c => [c]
  | .resume h d => d :: h.stack

/-- The child whose result the step reads, or whose frame it destroys. -/
def Event.child? : Event → Option Nat
  | .resume _ d => some d
  | .leave _ d => some d
  | _ => none

/-- The newest frames are those a step touches, and a child that is left has ended. -/
structure Stacked (past : List Event) (e : Event) : Prop where
  top : e.stack <+: framesAfter [0] past
  new : ∀ c n, e = .create c n → n ∉ framesAfter [0] past
  ended : ∀ d, e.child? = some d → .finalSuspend d ∈ past

section Lists

variable {e : Event} {es fs past : List Event} {l : List Nat}

theorem framesAfter_append :
    framesAfter l (es ++ fs) = framesAfter (framesAfter l es) fs :=
  List.foldl_append

theorem length_le_peak :
    l.length ≤ peak l es := by
  cases es with
  | nil =>
      exact Nat.le_refl _
  | cons e es =>
      exact Nat.le_max_left ..

theorem peak_append :
    peak l (es ++ fs) = max (peak l es) (peak (framesAfter l es) fs) := by
  induction es generalizing l with
  | nil =>
      exact (Nat.max_eq_right length_le_peak).symm
  | cons e es ih =>
      rw [List.cons_append, peak, peak, ih, Nat.max_assoc]
      rfl

theorem peak_cons_of_frames
    (h : e.frames l = l) :
    peak l (e :: es) = peak l es := by
  rw [peak, h, Nat.max_eq_right length_le_peak]

theorem stacked_of_frames
    (hpast : framesAfter [0] past = e.stack ++ l)
    (hnew : ∀ c n, e = .create c n → n ∉ e.stack ++ l)
    (hended : ∀ d, e.child? = some d → .finalSuspend d ∈ past) :
    Stacked past e where
  top := by rw [hpast]; exact List.prefix_append ..
  new := by rwa [hpast]
  ended := hended

/-- The steps `es`, taken after `past`, respect the stack. -/
def StackedFrom (past es : List Event) : Prop :=
  System.History (fun fs => Stacked (past ++ fs)) es

theorem stackedFrom_nil :
    StackedFrom past [] :=
  System.history_nil

theorem stackedFrom_append :
    StackedFrom past (es ++ fs) ↔ StackedFrom past es ∧ StackedFrom (past ++ es) fs := by
  rw [StackedFrom, System.history_append, StackedFrom, StackedFrom]
  simp only [List.append_assoc]

theorem stackedFrom_cons :
    StackedFrom past (e :: es) ↔ Stacked past e ∧ StackedFrom (past ++ [e]) es := by
  rw [StackedFrom, System.history_cons, StackedFrom, List.append_nil]
  simp only [List.append_assoc, List.singleton_append]

end Lists

section Bodies

variable {c n : Nat} {l : List Nat} {p : CallProgram σ V E} {x : σ} {past es : List Event}

/--
The events of the coroutine `c` from a body on, with those of the coroutines it awaits;
new coroutines get numbers from `n` on.
-/
inductive Traced :
    Nat → Nat → CallProgram σ V E → σ → List Event → Prop
  | coReturn (c n : Nat) (v : V) (x : σ) :
      Traced c n (.coReturn v) x [.finish c, .finalSuspend c]
  | throw (c n : Nat) (e : Thrown E) (x : σ) :
      Traced c n (.throw e) x [.finish c, .finalSuspend c]
  | act {c n : Nat} {f : σ → V × σ} {k : V → CallProgram σ V E} {x : σ} {es : List Event}
      (h : Traced c n (k (f x).1) (f x).2 es) :
      Traced c n (.act f k) x (.act c :: es)
  | await {c n d : Nat} {kind : Kind} {child : CallProgram σ V E}
      {k : V → CallProgram σ V E} {h : Thrown E → CallProgram σ V E} {x : σ}
      {es fs : List Event}
      (hd : n ≤ d)
      (hchild : Traced d (d + 1) child x es)
      (hrest : Traced c n (afterCall kind k h (child.eval x).1) (child.eval x).2 fs) :
      Traced c n (.await kind child k h) x
        ([.create c d, .await (.task c) d, .begin d] ++
          (es ++ ([.resume (.task c) d, .leave c d] ++ fs)))

/--
A child is called, awaited and started.  When it has ended, its caller gets the outcome,
the temporary `Task` is destroyed, and the body of the caller goes on.
-/
theorem leads_call
    {s : State σ V E} {tasks : Fin 0 → Nat} {childKind : Kind} {child : CallProgram σ V E}
    {k : V → CallProgram σ V E} {h : Thrown E → CallProgram σ V E}
    (hs : AtBody c (CallProgram.await childKind child k h).program tasks s) :
    ∃ s₁,
      Leads s [.create c s.allocated, .await (.task c) s.allocated, .begin s.allocated] s₁ ∧
      AtBody s.allocated child.program Fin.elim0 s₁ ∧
      s₁.store = s.store ∧
      (s₁.frame s.allocated).kind = childKind ∧
      s.allocated + 1 ≤ s₁.allocated ∧
      ∀ s₂ r o, Ended s.allocated Fin.elim0 r s₁ s₂ → r.outcome = childKind.outcome o →
        ∃ s' tasks',
          Leads s₂ [.resume (.task c) s.allocated, .leave c s.allocated] s' ∧
          AtBody c (afterCall childKind k h o).program tasks' s' ∧
          GoesOn c tasks tasks' s s' ∧
          s'.store = r.store := by
  obtain ⟨he₁, hbody₁, hgoes₁, hstore₁, hnew, -⟩ := runs_create hs
  obtain ⟨he₂, hcalled⟩ := runs_call (x := 0) hbody₁ (congrArg Frame.point hnew)
    (congrArg Frame.value hnew)
  obtain ⟨he₃, hbody₃, hgoes₃, hstore₃⟩ := runs_begin hcalled.start
  refine ⟨_, .cons he₁ stored_nil (.cons he₂ stored_nil (.cons he₃ stored_nil (.nil _))), hbody₃,
    hstore₃.trans (hcalled.store.trans hstore₁), ?_, ?_, ?_⟩
  · refine hgoes₃.kind.trans ?_
    rw [hcalled.child, Fin.cons_zero, hnew]
    rfl
  · refine Nat.le_trans (Nat.le_of_eq ?_) hgoes₃.allocated
    rw [hcalled.allocated, State.next, create_of_point hs.point]
  · intro s₂ r o hended hr
    have hawaited := hcalled.awaited hbody₁ (hended.after hgoes₃ [])
    obtain ⟨he₄, hbody₄, hgoes₄, hstore₄, -⟩ := runs_resume hawaited.point hawaited.result
    change AtBody c (afterAwait _ _ r.outcome) _ _ at hbody₄
    rw [hr, afterAwait_outcome] at hbody₄
    obtain ⟨he₅, hbody₅, hgoes₅, hstore₅, -⟩ := runs_leave hbody₄
    exact ⟨_, _, .cons he₄ stored_nil (.cons he₅ stored_nil (.nil _)), hbody₅,
      ((hgoes₁.trans hawaited.goesOn).trans hgoes₄).trans hgoes₅,
      hstore₅.trans (hstore₄.trans hended.store)⟩

theorem depth_await
    (kind : Kind) (child : CallProgram σ V E)
    (k : V → CallProgram σ V E) (h : Thrown E → CallProgram σ V E) (x : σ) :
    (CallProgram.await kind child k h).depth x =
      max (child.depth x + 1)
        ((afterCall kind k h (child.eval x).1).depth (child.eval x).2) := by
  rw [CallProgram.depth]
  cases hchild : child.eval x with
  | mk o y =>
      cases o <;> rfl

/-- What a body does to the frames, of which `l` are those below its own. -/
structure Balanced
    (past : List Event) (c : Nat) (l : List Nat) (depth : Nat) (es : List Event) : Prop where
  frames : framesAfter (c :: l) es = c :: l
  peak : peak (c :: l) es = l.length + 1 + depth
  stacked : StackedFrom past es
  ended : .finalSuspend c ∈ es

/-- A body returns or throws without having called another one. -/
theorem balanced_finish
    (hpast : framesAfter [0] past = c :: l) :
    Balanced past c l 0 [.finish c, .finalSuspend c] where
  frames := rfl
  peak := by
    rw [peak_cons_of_frames rfl, peak_cons_of_frames rfl]
    rfl
  stacked := by
    rw [stackedFrom_cons, stackedFrom_cons]
    have hfinish : framesAfter [0] (past ++ [.finish c]) = c :: l := by
      rw [framesAfter_append, hpast]
      rfl
    exact ⟨stacked_of_frames hpast (by simp) (by simp [Event.child?]),
      stacked_of_frames hfinish (by simp) (by simp [Event.child?]), stackedFrom_nil⟩
  ended := by simp

/-- The child has the frame `d` on top of those of its callers. -/
theorem Balanced.await
    {d m k : Nat} {fs : List Event}
    (hpast : framesAfter [0] past = c :: l)
    (hd : d ∉ c :: l)
    (hchild : Balanced (past ++ [.create c d, .await (.task c) d, .begin d])
      d (c :: l) m es)
    (hrest : Balanced (past ++ [.create c d, .await (.task c) d, .begin d] ++
      (es ++ [.resume (.task c) d, .leave c d])) c l k fs) :
    Balanced past c l (max (m + 1) k)
      ([.create c d, .await (.task c) d, .begin d] ++
        (es ++ ([.resume (.task c) d, .leave c d] ++ fs))) := by
  have hcall : framesAfter (c :: l)
      [.create c d, .await (.task c) d, .begin d] = d :: c :: l := rfl
  have hleave : framesAfter (d :: c :: l) [.resume (.task c) d, .leave c d] = c :: l :=
    List.erase_cons_head ..
  have hcalled : framesAfter [0]
      (past ++ [.create c d, .await (.task c) d, .begin d]) = d :: c :: l := by
    rw [framesAfter_append, hpast, hcall]
  have hreturned : framesAfter [0]
      (past ++ [.create c d, .await (.task c) d, .begin d] ++ es) = d :: c :: l := by
    rw [framesAfter_append, hcalled, hchild.frames]
  rw [← List.append_assoc es]
  constructor
  · rw [framesAfter_append, hcall, framesAfter_append, framesAfter_append, hchild.frames,
      hleave, hrest.frames]
  · rw [peak_append, hcall, peak_append, peak_append, framesAfter_append, hchild.frames,
      hleave, hchild.peak, hrest.peak]
    simp only [SyncWait.peak, Event.frames, List.erase_cons_head, List.length_cons]
    omega
  · have hended : ∀ gs, .finalSuspend d ∈
        past ++ [.create c d, .await (.task c) d, .begin d] ++ es ++ gs :=
      fun gs => List.mem_append_left _ (List.mem_append_right _ hchild.ended)
    rw [stackedFrom_append, stackedFrom_append, stackedFrom_append, stackedFrom_cons,
      stackedFrom_cons, stackedFrom_cons, stackedFrom_cons, stackedFrom_cons]
    refine ⟨⟨?_, ?_, ?_, stackedFrom_nil⟩, ⟨hchild.stacked, ?_, ?_, stackedFrom_nil⟩,
      hrest.stacked⟩
    · refine stacked_of_frames (l := l) hpast ?_ (by simp [Event.child?])
      rintro c n he
      cases he
      exact hd
    · refine stacked_of_frames (l := l) ?_ (by simp) (by simp [Event.child?])
      rw [framesAfter_append, hpast]
      rfl
    · refine stacked_of_frames (l := c :: l) ?_ (by simp) (by simp [Event.child?])
      rw [List.append_assoc, framesAfter_append, hpast]
      rfl
    · refine stacked_of_frames (l := l) hreturned (by simp) ?_
      rintro d he
      cases he
      simpa using hended []
    · refine stacked_of_frames (l := l) ?_ (by simp) ?_
      · rw [framesAfter_append, hreturned]
        rfl
      · rintro d he
        cases he
        exact hended _
  · exact List.mem_append_right _ (List.mem_append_right _ hrest.ended)

/-- The frames during the body of the coroutine `c`, by induction on its events. -/
theorem Traced.balanced
    (h : Traced c n p x es)
    (hpast : framesAfter [0] past = c :: l)
    (hn : ∀ g ∈ c :: l, g < n) :
    Balanced past c l (p.depth x) es := by
  induction h generalizing past l with
  | coReturn c n v x =>
      exact balanced_finish hpast
  | throw c n e x =>
      exact balanced_finish hpast
  | @act c n f k x es h ih =>
      have hact : framesAfter [0] (past ++ [.act c]) = c :: l := by
        rw [framesAfter_append, hpast]
        rfl
      obtain ⟨hframes, hpeak, hstacked, hended⟩ := ih hact hn
      refine ⟨hframes, ?_, ?_, List.mem_cons_of_mem _ hended⟩
      · rw [peak_cons_of_frames rfl, hpeak, CallProgram.depth]
      · rw [stackedFrom_cons]
        exact ⟨stacked_of_frames hpast (by simp) (by simp [Event.child?]), hstacked⟩
  | @await c n d kind child k h x es fs hd hchild hrest ihChild ihRest =>
      have hcalled : framesAfter [0]
          (past ++ [.create c d, .await (.task c) d, .begin d]) = d :: c :: l := by
        rw [framesAfter_append, hpast]
        rfl
      have hbalanced := ihChild hcalled fun g hg => by
        rcases List.mem_cons.mp hg with rfl | hg
        · exact Nat.lt_succ_self _
        · exact Nat.lt_succ_of_lt (Nat.lt_of_lt_of_le (hn g hg) hd)
      have hleft : framesAfter [0]
          (past ++ [.create c d, .await (.task c) d, .begin d] ++
            (es ++ [.resume (.task c) d, .leave c d])) = c :: l := by
        rw [framesAfter_append, hcalled, framesAfter_append, hbalanced.frames]
        exact List.erase_cons_head ..
      rw [depth_await]
      exact hbalanced.await hpast (fun hg => absurd (hn d hg) (Nat.not_lt_of_le hd))
        (ihRest hleft hn)

end Bodies

section Runs

variable {kind : Kind} {root : CallProgram σ V E} {st : σ}

/-- The steps of `sync_wait` around those of the body of the root `Task`. -/
def complete (es : List Event) : List Event :=
  [.start, .await .syncWait 0, .begin 0] ++ (es ++ [.resume .syncWait 0])

/-- The whole run of `sync_wait` leaves the frame of the root to the caller. -/
theorem Traced.complete
    {es : List Event}
    (h : Traced 0 1 root st es) :
    framesAfter [0] (complete es) = [0] ∧
      peak [0] (complete es) = root.depth st + 1 ∧
      System.History Stacked (complete es) := by
  have hstart : framesAfter [0] [.start, .await .syncWait 0, .begin 0] = [0] := rfl
  obtain ⟨hframes, hpeak, hstacked, hended⟩ := h.balanced hstart (by simp)
  have hlast : framesAfter [0] [.resume .syncWait 0] = [0] := rfl
  refine ⟨?_, ?_, ?_⟩
  · rw [SyncWait.complete, framesAfter_append, hstart, framesAfter_append, hframes, hlast]
  · rw [SyncWait.complete, peak_append, hstart, peak_append, hframes, hpeak]
    simp only [peak, Event.frames, List.length_cons, List.length_nil]
    omega
  · have hall : StackedFrom [] (SyncWait.complete es) := by
      rw [SyncWait.complete, stackedFrom_append, stackedFrom_append, stackedFrom_cons,
        stackedFrom_cons, stackedFrom_cons, stackedFrom_cons]
      refine ⟨⟨?_, ?_, ?_, stackedFrom_nil⟩, hstacked, ?_, stackedFrom_nil⟩
      · exact stacked_of_frames (l := [0]) rfl (by simp) (by simp [Event.child?])
      · exact stacked_of_frames (l := []) rfl (by simp) (by simp [Event.child?])
      · exact stacked_of_frames (l := []) rfl (by simp) (by simp [Event.child?])
      · refine stacked_of_frames (l := []) ?_ (by simp) ?_
        · rw [framesAfter_append, List.nil_append, hstart, hframes]
          rfl
        · rintro d he
          cases he
          exact List.mem_append_right _ hended
    exact hall

end Runs

end SyncWait
end Ptl

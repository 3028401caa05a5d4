import Ptl.TaskAgreement

/-!
# Bodies that await the calls they make

In `co_await child()` the `Task` is a temporary: the body calls a coroutine, awaits it,
and the destructor of the `Task` destroys the frame of the coroutine after
`await_resume`, whether that returns or throws.  A `CallProgram` is a body that awaits in
this way only, and whose values are copied and moved without an exception.

**Results.**
* `eval_program`: the direct meaning of such a body as a `Program`.
* `runs_root`: `sync_wait` comes to an end with what direct evaluation returns or throws,
  and with the same store.
-/

namespace Ptl
namespace SyncWait

open Transition

universe u v w

/-- The body of a `Task`, where each `co_await` is that of a new call. -/
inductive CallProgram (σ : Type u) (V : Type v) (E : Type w) where
  | coReturn (v : V)
  | throw (e : Thrown E)
  | act (f : σ → V × σ) (k : V → CallProgram σ V E)
  | await (kind : Kind) (child : CallProgram σ V E)
      (k : V → CallProgram σ V E) (h : Thrown E → CallProgram σ V E)

variable {σ : Type u} {V : Type v} {E : Type w}

namespace CallProgram

/-- The direct meaning: every `co_await` is a function call. -/
def eval [Inhabited V] :
    CallProgram σ V E → σ → Except (Thrown E) V × σ
  | coReturn v, st => (.ok v, st)
  | throw e, st => (.error e, st)
  | act f k, st => (k (f st).1).eval (f st).2
  | await kind child k h, st =>
      match child.eval st with
      | (.ok v, st') => (k (kind.returned v)).eval st'
      | (.error e, st') => (h e).eval st'

/-- The temporary `Task` goes out of scope when the body has its outcome. -/
def program : CallProgram σ V E → Program σ V E 0
  | coReturn v => .coReturn (.plain v)
  | throw e => .throw e
  | act f k => .act f fun v => (k v).program
  | await kind child k h =>
      .create kind child.program
        (.await newest (fun v => .leave (k v).program) fun e => .leave (h e).program)

end CallProgram

theorem stored_plain (kind : Kind) (v : V) :
    ∀ o ∈ kind.operands (.plain v : Operand V E), o.Stored := by
  cases kind with
  | value =>
      intro o ho
      obtain rfl := List.mem_singleton.mp ho
      rfl
  | void =>
      exact stored_nil

/-- The outcome that a caller sees. -/
def Kind.outcome [Inhabited V] (kind : Kind) (r : Except (Thrown E) V) : Except (Thrown E) V :=
  r.map kind.returned

/-- What follows the call of a child that has ended with `r`. -/
def afterCall [Inhabited V] (kind : Kind)
    (k : V → CallProgram σ V E) (h : Thrown E → CallProgram σ V E) :
    Except (Thrown E) V → CallProgram σ V E
  | .ok v => k (kind.returned v)
  | .error e => h e

variable [Inhabited V]

theorem eval_await
    (kind : Kind) (child : CallProgram σ V E)
    (k : V → CallProgram σ V E) (h : Thrown E → CallProgram σ V E) (x : σ) :
    (CallProgram.await kind child k h).eval x =
      (afterCall kind k h (child.eval x).1).eval (child.eval x).2 := by
  rw [CallProgram.eval]
  cases hchild : child.eval x with
  | mk o y =>
      cases o <;> rfl

/-- The body goes on with what follows the call, without the temporary `Task`. -/
theorem afterAwait_outcome
    (kind : Kind)
    (k : V → CallProgram σ V E) (h : Thrown E → CallProgram σ V E) (o : Except (Thrown E) V) :
    afterAwait (n := 1) (fun v => .leave (k v).program) (fun e => .leave (h e).program)
        (kind.outcome o) =
      .leave (afterCall kind k h o).program := by
  cases o <;> rfl

/-- The evaluation of a body as a `Program`, which stores all its operands. -/
theorem eval_program
    (p : CallProgram σ V E) :
    ∀ (kind : Kind) (held : Fin 0 → Held σ V E) (st : σ),
      (p.program.evalIn kind held st).outcome = kind.outcome (p.eval st).1 ∧
        (p.program.evalIn kind held st).store = (p.eval st).2 ∧
        ∀ o ∈ (p.program.evalIn kind held st).operands, o.Stored := by
  induction p with
  | coReturn v =>
      intro kind held st
      exact ⟨rfl, rfl, stored_plain kind v⟩
  | throw e =>
      intro kind held st
      exact ⟨rfl, rfl, stored_nil⟩
  | act f k ih =>
      intro kind held st
      exact ih _ kind held _
  | await childKind child k h ihChild ihK ihH =>
      intro kind held st
      obtain ⟨houtcome, hstore, hstored⟩ := ihChild childKind Fin.elim0 st
      have hrest : ∀ (o : Except (Thrown E) V) (held' : Fin 0 → Held σ V E) (x : σ),
          ((afterCall childKind k h o).program.evalIn kind held' x).outcome =
            kind.outcome ((afterCall childKind k h o).eval x).1 ∧
          ((afterCall childKind k h o).program.evalIn kind held' x).store =
            ((afterCall childKind k h o).eval x).2 ∧
          ∀ o' ∈ ((afterCall childKind k h o).program.evalIn kind held' x).operands,
            o'.Stored := by
        intro o held' x
        cases o with
        | ok v =>
            exact ihK _ kind held' x
        | error e =>
            exact ihH e kind held' x
      rw [eval_await, CallProgram.program, Program.evalIn, evalIn_await, newest, Fin.cons_zero,
        Held.call, houtcome, hstore, afterAwait_outcome, Program.evalIn]
      obtain ⟨houtcome', hstore', hstored'⟩ := hrest (child.eval st).1 _ (child.eval st).2
      refine ⟨houtcome', hstore', fun o ho => ?_⟩
      rcases List.mem_append.mp ho with ho | ho
      · exact hstored o ho
      · exact hstored' o ho

theorem runs_root (kind : Kind) (root : CallProgram σ V E) (st : σ) :
    ∃ tr s,
      (syncWait kind root.program st).Run tr s ∧
      (∀ e, ¬ (syncWait kind root.program st).guard s e) ∧
      s.syncWaitResult kind = some (kind.outcome (root.eval st).1) ∧
      s.store = (root.eval st).2 := by
  obtain ⟨houtcome, hstore, hstored⟩ := eval_program root kind Fin.elim0 st
  obtain ⟨tr, s, hrun, hreturns, hend, -⟩ := (evaluates_of_stored hstored).returns
  refine ⟨tr, s, hrun, hreturns.stuck, ?_, hend.trans hstore⟩
  rw [hreturns.result]
  exact congrArg some houtcome

end SyncWait
end Ptl

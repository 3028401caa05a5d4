import Ptl.TaskStarts

/-!
# When `sync_wait` agrees with direct evaluation

`return_value` copies its operand, which `return` in a function does not do, and takes an
`std::exception_ptr` for the error.  So a `Task` hands on what the call of its body
returns exactly as long as every operand is stored.

**Results.**
* `Fails.diverges`: what becomes of a `co_return` whose operand is not stored.
* `syncWait_evaluates_iff`: every `Task` of a program evaluates like a function call, and
  `sync_wait` returns or rethrows what direct evaluation of the root does, exactly if
  every operand that direct evaluation comes to is stored.
-/

namespace Ptl
namespace SyncWait

open Transition

universe u v w

variable {σ : Type u} {V : Type v} {E : Type w} [Inhabited V]

section Agreement

variable (kind : Kind) (root : Program σ V E 0) (st : σ)

/--
Wherever a body starts, its coroutine ends with the outcome and the store of a call of
the body.
-/
def HandsOn : Prop :=
  ∀ tr (s : State σ V E) c p,
    (syncWait kind root st).Run tr s →
    s.event? = some (.begin c) →
    (s.frame c).point = .initial p →
    ∃ es s',
      (syncWait kind root st).Run (tr ++ .begin c :: (es ++ [.finalSuspend c])) s' ∧
      (s'.frame c).result = (p.eval (s.frame c).kind s.store).outcome ∧
      s'.store = (p.eval (s.frame c).kind s.store).store

/--
Evaluation of the `Task`s is direct evaluation: `sync_wait` of the root comes to an end,
with the outcome and the effects of evaluating the bodies as nested function calls, and
there is no other way to run it.  Every body starts at most once, after its `Task` was
awaited, and the `Task` hands on what the body returns or throws.
-/
structure Evaluates : Prop where
  returns : ∃ tr s,
    (syncWait kind root st).Run tr s ∧
    s.Returns kind (root.eval kind st).outcome ∧
    s.store = (root.eval kind st).store ∧
    ∀ tr' s', (syncWait kind root st).Run tr' s' → tr' <+: tr
  starts : ∀ tr s, (syncWait kind root st).Run tr s →
    (tr.filterMap Event.begin?).Nodup ∧ System.History AwaitedBefore tr
  handsOn : HandsOn kind root st

end Agreement

variable {kind : Kind} {root : Program σ V E 0} {st : σ}
variable {s s' s₁ s₂ : State σ V E} {tr tr' : List Event} {c : Nat} {o : Operand V E}

theorem guard_unique
    {e f : Event}
    (he : (syncWait kind root st).guard s e)
    (hf : (syncWait kind root st).guard s f) :
    e = f :=
  Option.some.inj (he.symm.trans hf)

/-- All runs of `sync_wait` are parts of one that has come to an end. -/
theorem prefix_of_stuck
    (hrun : (syncWait kind root st).Run tr s)
    (hstuck : ∀ e, s.event? ≠ some e)
    (hrun' : (syncWait kind root st).Run tr' s') :
    tr' <+: tr :=
  hrun.prefix_of_stuck (fun _ hs => hs) (fun _ _ _ => guard_unique) hstuck hrun'

theorem state_unique
    (hrun : (syncWait kind root st).Run tr s)
    (hrun' : (syncWait kind root st).Run tr s') :
    s = s' :=
  (hrun.eq_exec fun _ hs => hs).trans (hrun'.eq_exec fun _ hs => hs).symm

theorem Leads.split
    {es fs : List Event}
    (h : Leads s (es ++ fs) s') :
    ∃ s₁, Leads s es s₁ ∧ Leads s₁ fs s' := by
  induction es generalizing s with
  | nil =>
      exact ⟨s, .nil s, h⟩
  | cons e es ih =>
      cases h with
      | cons he hstored h =>
          obtain ⟨s₁, hes, hfs⟩ := ih h
          exact ⟨s₁, .cons he hstored hes, hfs⟩

section Failing

omit [Inhabited V] in
theorem Fails.event?
    (h : Fails c o s) :
    s.event? = some (.finish c) := by
  obtain ⟨n, tasks, hpoint⟩ := h.point
  rw [event?_task s c h.stop h.current, State.eventOf, hpoint]

omit [Inhabited V] in
theorem Fails.operands
    (h : Fails c o s) :
    s.operands (.finish c) = [o] := by
  obtain ⟨n, tasks, hpoint⟩ := h.point
  rw [State.operands, hpoint]
  exact congrArg (fun k => Kind.operands k o) h.kind

/-- The program stops, or the coroutine ends with an exception. -/
theorem Fails.diverges
    (h : Fails c o s) :
    (s.next (.finish c)).stop ≠ none ∨
      (((s.next (.finish c)).frame c).point = .final ∧
        ∃ e, ((s.next (.finish c)).frame c).result = .error e) := by
  obtain ⟨n, tasks, hpoint⟩ := h.point
  have hcoReturn : (s.frame c).coReturn o = (s.frame c).returnValue o := by
    rw [Frame.coReturn, h.kind]
  have hstops : ∀ e, (s.frame c).returnValue o = .error e →
      (s.next (.finish c)).stop ≠ none := by
    intro e he
    change (s.finish c).stop ≠ none
    rw [finish_of_stop hpoint (hcoReturn.trans he)]
    exact Option.some_ne_none e
  have hends : ∀ f e, (s.frame c).returnValue o = .ok f → f.point = .final →
      f.kind = .value → f.value = .unexpected e →
        ((s.next (.finish c)).frame c).point = .final ∧
          ∃ e, ((s.next (.finish c)).frame c).result = .error e := by
    intro f e hf hfinal hkind hvalue
    change ((s.finish c).frame c).point = .final ∧ ∃ e, ((s.finish c).frame c).result = .error e
    rw [finish_of_coReturn hpoint (hcoReturn.trans hf), setFrame_self]
    exact ⟨hfinal, e, by simp only [Frame.result, hkind, hvalue, Expected.value]⟩
  cases ho : o.storing with
  | stored =>
      exact absurd ho h.stored
  | exceptionPtr e =>
      cases e with
      | none =>
          exact .inl (hstops .undefined (by simp only [Frame.returnValue, ho]))
      | some e =>
          exact .inr (hends { s.frame c with point := .final, value := .unexpected e } e
            (by simp only [Frame.returnValue, ho]) rfl h.kind rfl)
  | copyThrows e =>
      cases hn : o.noexcept with
      | true =>
          exact .inl (hstops .terminate (by simp only [Frame.returnValue, ho, hn, if_true]))
      | false =>
          exact .inr (hends ((s.frame c).unhandledException e) e
            (by simp only [Frame.returnValue, ho, hn, Bool.false_eq_true, if_false]) rfl
            h.kind rfl)
  | moveThrows e =>
      exact .inl (hstops _ (by simp only [Frame.returnValue, ho]; rfl))

/-- Steps that store all operands do not come to one that is not stored. -/
theorem not_fails_of_leads
    {es : List Event}
    (hleads : Leads (start kind root st) es s₁)
    (hrun : (syncWait kind root st).Run tr s)
    (hpart : tr ++ [.finish c] <+: es) :
    ¬ Fails c o s := by
  intro h
  obtain ⟨fs, rfl⟩ := hpart
  rw [List.append_assoc] at hleads
  obtain ⟨s₂, hfirst, hrest⟩ := hleads.split
  obtain rfl : s = s₂ := state_unique hrun (hfirst.run (.start rfl))
  cases hrest with
  | cons _ hstored _ =>
      refine h.stored (hstored o ?_)
      rw [h.operands]
      exact List.mem_singleton_self o

end Failing

section Storing

/-- A body that is about to start does so as it was created. -/
theorem atStart_of_run
    {p : Program σ V E 0}
    (hrun : (syncWait kind root st).Run tr s)
    (he : s.event? = some (.begin c))
    (hpoint : (s.frame c).point = .initial p) :
    AtStart c p s := by
  obtain ⟨hstop, hcurrent, hfresh⟩ := enabled_of_event he
  have hordered := ordered_of_run hrun
  exact ⟨hstop, hcurrent, hpoint, hordered.empty c hfresh, (hordered.running c hcurrent).1⟩

/-- If all operands are stored, every `Task` hands on what its body returns or throws. -/
theorem evaluates_of_stored
    (hstored : ∀ o ∈ (root.eval kind st).operands, o.Stored) :
    Evaluates kind root st := by
  rcases outcome_root kind root st with ⟨es, s, hleads, hreturns, hstore, -⟩ | hbreaks
  · have hrun : (syncWait kind root st).Run es s := hleads.run (.start rfl)
    have hall : ∀ tr' s', (syncWait kind root st).Run tr' s' → tr' <+: es :=
      fun tr' s' hrun' => prefix_of_stuck hrun hreturns.stuck hrun'
    refine ⟨⟨es, s, hrun, hreturns, hstore, hall⟩,
      fun tr s hrun => ⟨begin_nodup_of_run hrun, awaitedBefore_of_run hrun⟩, ?_⟩
    intro tr s₁ c p hrun₁ he hpoint
    cases sound p s₁ c (atStart_of_run hrun₁ he hpoint) with
    | ends fs hleads' hended _ =>
        exact ⟨fs, _, hleads'.run hrun₁, hended.result, hended.store⟩
    | breaks hbreaks =>
        obtain ⟨hleads', _, hbody, _, hfails, _⟩ := hbreaks
        have hrun₂ := hbody.run (hleads'.run hrun₁)
        have hpart := hall _ _ (System.Run.step _ hrun₂ hfails.event?)
        exact absurd hfails (not_fails_of_leads hleads hrun₂ hpart)
  · obtain ⟨_, _, _, _, hfails, hmem⟩ := hbreaks
    exact absurd (hstored _ hmem) hfails.stored

/-- If every `Task` hands on what its body returns or throws, all operands are stored. -/
theorem stored_of_evaluates
    (h : Evaluates kind root st) :
    ∀ o ∈ (root.eval kind st).operands, o.Stored := by
  rcases outcome_root kind root st with ⟨_, _, _, _, _, hstored⟩ | hbreaks
  · exact hstored
  · obtain ⟨tr, s, hrun, hreturns, -, hall⟩ := h.returns
    obtain @⟨s₁, s₂, es, fs, c, p, o, hleads, hstart, hbody, houtcome, hfails, -⟩ := hbreaks
    have hrun₁ : (syncWait kind root st).Run es s₁ := hleads.run (.start rfl)
    obtain ⟨es', s', hrun', hresult, -⟩ :=
      h.handsOn es s₁ c p hrun₁ (runs_begin hstart).1 hstart.point
    rw [houtcome] at hresult
    have hrun₃ := System.Run.step _ (hbody.run hrun₁) hfails.event?
    exfalso
    rcases hfails.diverges with hstop | ⟨hfinal, e, herror⟩
    · -- The program has stopped in the only complete run, which has returned.
      have hstuck : ∀ e, (s₂.next (.finish c)).event? ≠ some e := by
        intro e he
        exact hstop (enabled_of_event he).1
      have heq := (hall _ _ hrun₃).eq_of_length_le (prefix_of_stuck hrun₃ hstuck hrun).length_le
      rw [heq] at hrun₃
      exact hstop ((congrArg State.stop (state_unique hrun₃ hrun)).trans hreturns.stop)
    · -- The coroutine has ended once, with an exception and with a value.
      have hlt : c < (s₂.next (.finish c)).allocated :=
        ((ordered_of_run hrun₃).begun c (by simp)).2
      have hlt' : c < s'.allocated := ((ordered_of_run hrun').begun c (by simp)).2
      have hfinal' : (s'.frame c).point = .final := by
        rw [← List.cons_append, ← List.append_assoc] at hrun'
        obtain ⟨s₀, -, ⟨he, -⟩, rfl⟩ := hrun'.split
        exact (enabled_of_event he).2.2
      have hframe : s'.frame c = (s₂.next (.finish c)).frame c := by
        rcases List.prefix_or_prefix_of_prefix (hall _ _ hrun') (hall _ _ hrun₃) with
          ⟨gs, hgs⟩ | ⟨gs, hgs⟩
        · exact (frame_of_final hrun' (hgs ▸ hrun₃) hfinal' hlt').symm
        · exact frame_of_final hrun₃ (hgs ▸ hrun') hfinal hlt
      rw [hframe, herror] at hresult
      cases hresult

/--
The `Task`s of a program evaluate like function calls exactly if every operand of a
`co_return` that direct evaluation comes to is stored: its copy and the move of the copy
throw nothing, and it is no `exception_ptr`.
-/
theorem syncWait_evaluates_iff
    (kind : Kind) (root : Program σ V E 0) (st : σ) :
    Evaluates kind root st ↔ ∀ o ∈ (root.eval kind st).operands, o.Stored :=
  ⟨stored_of_evaluates, evaluates_of_stored⟩

/-- `co_return T{}` for a `T` that is moved without an exception, but whose copy throws. -/
def returnsTemporary : Program Unit Nat Unit 0 :=
  .coReturn { value := 1, storing := .copyThrows (.user ()), noexcept := true }

theorem not_syncWait_evaluates :
    (returnsTemporary.eval .value ()).outcome = .ok 1 ∧
      (∃ s, (syncWait .value returnsTemporary ()).Run
        [.start, .await .syncWait 0, .begin 0, .finish 0] s ∧ s.stop = some .terminate) ∧
      ¬ Evaluates .value returnsTemporary () := by
  refine ⟨rfl, ⟨_, .of_enabled rfl ⟨rfl, rfl, rfl, rfl, trivial⟩, rfl⟩, fun h => ?_⟩
  have hstored := stored_of_evaluates h _ (List.mem_singleton_self _)
  cases hstored

/-- `auto f = func(); auto i = co_await f; co_return i;`, where `func` sets a flag. -/
def keptTask : Program Bool Nat Empty 0 :=
  .create .value (.act (fun _ => (0, true)) fun _ => .coReturn (.plain 1))
    (.await newest (fun i => .coReturn (.plain i)) .throw)

-- The call of `func` does not set the flag, but the `co_await` of its `Task` does.
example :
    (keptTask.eval .value false).outcome = .ok 1 ∧
      (keptTask.eval .value false).store = true ∧
      Evaluates .value keptTask false := by
  have heval : keptTask.eval .value false =
      { outcome := .ok 1, store := true, operands := [.plain 1, .plain 1] } := by
    simp [keptTask, newest, Program.eval, Program.evalIn, Held.call, Evaluation.after,
      Kind.returned, Kind.operands, Operand.plain]
  refine ⟨congrArg _ heval, congrArg _ heval, evaluates_of_stored fun o ho => ?_⟩
  rw [heval] at ho
  rcases List.mem_cons.mp ho with rfl | ho
  · rfl
  · obtain rfl := List.mem_singleton.mp ho
    rfl

end Storing

end SyncWait
end Ptl

import Ptl.TransitionSystem

/-!
# Infinite executions and weak fairness

An execution goes on forever, in a moment at which nothing happens the state stays.  It
is fair to a party of the system if that party, as long as it can take a step of the
kind `A`, sooner or later takes one of the kind `B`.

**Rules.**
* `Execution.run`: what happened before a moment is a run.
* `Execution.ofEnabled`: a finite schedule, after which nothing happens any more.
* `Execution.Fair.acts`: a step of a fair party that can go on as long as a condition holds.
* `Execution.Fair.eventually`: a goal is reached if a fair party can always take a step,
  its steps lower a rank and no other step raises it.
* `Execution.stable`: what the steps keep holds from some moment on.
* `Execution.exists_leave`: what does not hold any more has been ended by a step.
* `Execution.project`: the execution of a component.
-/

namespace Ptl
namespace Transition

universe u v

variable {σ : Type u} {ε : Type v}

/-- The states at all moments, and what happens at each of them. -/
structure Execution (M : System σ ε) where
  state : Nat → σ
  event : Nat → Option ε
  init : M.init (state 0)
  rest : ∀ n, event n = none → state (n + 1) = state n
  step : ∀ n e, event n = some e →
    M.guard (state n) e ∧ state (n + 1) = M.next (state n) e

namespace Execution

variable {M : System σ ε}

/-- What has happened before the moment `n`. -/
def trace (X : Execution M) : Nat → List ε
  | 0 => []
  | n + 1 => X.trace n ++ (X.event n).toList

variable (X : Execution M)

theorem trace_of_none {n : Nat} (h : X.event n = none) :
    X.trace (n + 1) = X.trace n := by
  rw [trace, h, Option.toList_none, List.append_nil]

theorem trace_of_some {n : Nat} {e : ε} (h : X.event n = some e) :
    X.trace (n + 1) = X.trace n ++ [e] := by
  rw [trace, h, Option.toList_some]

theorem run (n : Nat) :
    M.Run (X.trace n) (X.state n) := by
  induction n with
  | zero =>
      exact .start X.init
  | succ n ih =>
      cases he : X.event n with
      | none =>
          rw [X.trace_of_none he, X.rest n he]
          exact ih
      | some e =>
          obtain ⟨hguard, hnext⟩ := X.step n e he
          rw [X.trace_of_some he, hnext]
          exact .step e ih hguard

theorem reachable (n : Nat) :
    M.Reachable (X.state n) :=
  ⟨X.trace n, X.run n⟩

theorem trace_prefix {m n : Nat} (h : m ≤ n) :
    X.trace m <+: X.trace n := by
  induction h with
  | refl =>
      exact List.prefix_rfl
  | step _ ih =>
      exact ih.trans (List.prefix_append ..)

/-- What happens at a moment, if anything does. -/
theorem step_cases (n : Nat) :
    X.state (n + 1) = X.state n ∨
      ∃ e, X.event n = some e ∧ M.guard (X.state n) e ∧
        X.state (n + 1) = M.next (X.state n) e := by
  cases he : X.event n with
  | none =>
      exact .inl (X.rest n he)
  | some e =>
      exact .inr ⟨e, rfl, X.step n e he⟩

variable {X}

/-- What holds at a moment and is kept by the steps from then on holds from then on. -/
theorem stable
    {P : σ → Prop} {n m : Nat}
    (hstart : P (X.state n))
    (hstep : ∀ m e, n ≤ m → P (X.state m) → X.event m = some e → M.guard (X.state m) e →
      P (M.next (X.state m) e))
    (hm : n ≤ m) :
    P (X.state m) := by
  induction hm with
  | refl =>
      exact hstart
  | @step m hm ih =>
      rcases X.step_cases m with hrest | ⟨e, he, hguard, hnext⟩
      · rwa [hrest]
      · rw [hnext]
        exact hstep m e hm ih he hguard

/-- What holds at a moment and later does not any more has been ended by some step. -/
theorem exists_leave
    {P : σ → Prop} {n m : Nat}
    (hm : n ≤ m)
    (hstart : P (X.state n))
    (hend : ¬ P (X.state m)) :
    ∃ k e, n ≤ k ∧ P (X.state k) ∧ M.guard (X.state k) e ∧
      X.state (k + 1) = M.next (X.state k) e ∧ ¬ P (X.state (k + 1)) := by
  induction hm with
  | refl =>
      exact absurd hstart hend
  | @step m hm ih =>
      by_cases hmid : P (X.state m)
      · rcases X.step_cases m with hrest | ⟨e, -, hguard, hnext⟩
        · rw [hrest] at hend
          exact absurd hmid hend
        · exact ⟨m, e, hm, hmid, hguard, hnext, hend⟩
      · exact ih hmid

/-- Weak fairness: who can always take a step of the kind `A` takes one of the kind `B`. -/
def Fair (X : Execution M) (A B : ε → Prop) : Prop :=
  ∀ n, (∀ m, n ≤ m → ∃ e, A e ∧ M.guard (X.state m) e) →
    ∃ m e, n ≤ m ∧ X.event m = some e ∧ B e

/-- A fair party that can go on as long as `P` holds takes a step while it holds. -/
theorem Fair.acts
    {A B : ε → Prop} {P : σ → Prop} {n : Nat}
    (hfair : X.Fair A B)
    (hstart : P (X.state n))
    (henabled : ∀ m, n ≤ m → P (X.state m) → ∃ e, A e ∧ M.guard (X.state m) e)
    (hother : ∀ m e, n ≤ m → P (X.state m) → M.guard (X.state m) e → ¬ B e →
      P (M.next (X.state m) e)) :
    ∃ m e, n ≤ m ∧ P (X.state m) ∧ X.event m = some e ∧ B e ∧
      M.guard (X.state m) e ∧ X.state (m + 1) = M.next (X.state m) e := by
  by_contra hnever
  have hstays : ∀ m, n ≤ m → P (X.state m) := by
    intro m
    refine Execution.stable hstart fun m e hm hP he hguard => ?_
    exact hother m e hm hP hguard fun hB => hnever ⟨m, e, hm, hP, he, hB, X.step m e he⟩
  obtain ⟨m, e, hm, he, hB⟩ := hfair n fun m hm => henabled m hm (hstays m hm)
  exact hnever ⟨m, e, hm, hstays m hm, he, hB, X.step m e he⟩

/-- The rule for what a fair party brings about: its steps lower the rank `r`. -/
theorem Fair.eventually
    {A B : ε → Prop} {G : σ → Prop} {r : σ → Nat} {n : Nat}
    (hfair : X.Fair A B)
    (henabled : ∀ m, n ≤ m → ¬ G (X.state m) → ∃ e, A e ∧ M.guard (X.state m) e)
    (hother : ∀ m e, n ≤ m → ¬ G (X.state m) → M.guard (X.state m) e → ¬ B e →
      r (M.next (X.state m) e) ≤ r (X.state m))
    (hown : ∀ m e, n ≤ m → ¬ G (X.state m) → M.guard (X.state m) e → B e →
      G (M.next (X.state m) e) ∨ r (M.next (X.state m) e) < r (X.state m)) :
    ∃ m, n ≤ m ∧ G (X.state m) := by
  generalize hk : r (X.state n) = k
  induction k using Nat.strongRecOn generalizing n with
  | _ k ih =>
      subst hk
      by_contra hnever
      push Not at hnever
      have hkeep : ∀ m, n ≤ m → r (X.state (m + 1)) ≤ r (X.state m) := by
        intro m hm
        rcases X.step_cases m with hrest | ⟨e, -, hguard, hnext⟩
        · exact Nat.le_of_eq (congrArg r hrest)
        · have hG := hnever (m + 1) (Nat.le_succ_of_le hm)
          rw [hnext] at hG ⊢
          by_cases hB : B e
          · exact Nat.le_of_lt ((hown m e hm (hnever m hm) hguard hB).resolve_left hG)
          · exact hother m e hm (hnever m hm) hguard hB
      have hrank : ∀ m, n ≤ m → r (X.state m) ≤ r (X.state n) := by
        intro m hm
        induction hm with
        | refl =>
            exact Nat.le_refl _
        | @step m hm ihm =>
            exact Nat.le_trans (hkeep m hm) ihm
      obtain ⟨m, e, hm, he, hB⟩ := hfair n fun m hm => henabled m hm (hnever m hm)
      obtain ⟨hguard, hnext⟩ := X.step m e he
      have hm' : n ≤ m + 1 := Nat.le_succ_of_le hm
      have hlt : r (X.state (m + 1)) < r (X.state n) := by
        refine Nat.lt_of_lt_of_le ?_ (hrank m hm)
        have hG := hnever (m + 1) hm'
        rw [hnext] at hG ⊢
        exact (hown m e hm (hnever m hm) hguard hB).resolve_left hG
      obtain ⟨k, hk, hG⟩ := ih _ hlt (n := m + 1)
        (fun k hk => henabled k (Nat.le_trans hm' hk))
        (fun k f hk => hother k f (Nat.le_trans hm' hk))
        (fun k f hk => hown k f (Nat.le_trans hm' hk)) rfl
      exact hnever k (Nat.le_trans hm' hk) hG

end Execution

section Components

universe w x

variable {τ : Type w} {δ : Type x} {M : System σ ε} {N : System τ δ}

/-- What an execution does in a component of the system. -/
def Execution.project
    (X : Execution M) (f : σ → τ) (label : ε → Option δ)
    (hinit : ∀ s, M.init s → N.init (f s))
    (hnone : ∀ s e, M.guard s e → label e = none → f (M.next s e) = f s)
    (hsome : ∀ s e d, M.guard s e → label e = some d →
      N.guard (f s) d ∧ f (M.next s e) = N.next (f s) d) :
    Execution N where
  state := fun n => f (X.state n)
  event := fun n => (X.event n).bind label
  init := hinit _ X.init
  rest := by
    intro n hn
    cases he : X.event n with
    | none =>
        rw [X.rest n he]
    | some e =>
        rw [he, Option.bind_some] at hn
        obtain ⟨hguard, hnext⟩ := X.step n e he
        rw [hnext, hnone _ e hguard hn]
  step := by
    intro n d hd
    obtain ⟨e, he, hlabel⟩ := Option.bind_eq_some_iff.mp hd
    obtain ⟨hguard, hnext⟩ := X.step n e he
    rw [hnext]
    exact hsome _ e d hguard hlabel

end Components

section Schedules

variable (M : System σ ε)

/-- A finite schedule; after it nothing happens any more. -/
def Execution.ofEnabled
    (s : σ) (es : List ε)
    (hinit : M.init s)
    (hes : M.Enabled s es) :
    Execution M where
  state := fun n => M.exec s (es.take n)
  event := fun n => es[n]?
  init := hinit
  rest := by
    intro n hn
    have hlen := List.getElem?_eq_none_iff.mp hn
    rw [List.take_of_length_le hlen, List.take_of_length_le (Nat.le_succ_of_le hlen)]
  step := by
    intro n e he
    obtain ⟨hn, he⟩ := List.getElem?_eq_some_iff.mp he
    have htake : es.take (n + 1) = es.take n ++ [e] := by
      rw [← he]
      exact (List.take_append_getElem hn).symm
    have hall := List.take_append_drop (n + 1) es
    rw [← hall, System.enabled_append, htake, System.enabled_append] at hes
    exact ⟨hes.1.2.1, by rw [htake, System.exec_append_singleton]⟩

variable {M} {s : σ} {es : List ε} {hinit : M.init s} {hes : M.Enabled s es}

theorem Execution.state_ofEnabled_of_le {n : Nat} (hn : es.length ≤ n) :
    (Execution.ofEnabled M s es hinit hes).state n = M.exec s es := by
  change M.exec s (es.take n) = M.exec s es
  rw [List.take_of_length_le hn]

theorem Execution.trace_ofEnabled (n : Nat) :
    (Execution.ofEnabled M s es hinit hes).trace n = es.take n := by
  induction n with
  | zero =>
      rfl
  | succ n ih =>
      rw [Execution.trace, ih, List.take_add_one]
      rfl

/-- A schedule after which a party can take no step is fair to it. -/
theorem Execution.fair_ofEnabled
    {A B : ε → Prop}
    (hend : ∀ e, A e → ¬ M.guard (M.exec s es) e) :
    (Execution.ofEnabled M s es hinit hes).Fair A B := by
  intro n hn
  obtain ⟨e, hA, hguard⟩ := hn (n + es.length) (Nat.le_add_right ..)
  rw [Execution.state_ofEnabled_of_le (Nat.le_add_left ..)] at hguard
  exact absurd hguard (hend e hA)

end Schedules

end Transition
end Ptl

import Ptl.TransitionSystem
import Mathlib.Logic.Function.Basic

/-!
# Threads over a shared memory, and proof outlines

A program is given by its atomic steps.  Every step belongs to one thread,
leads that thread from a source to a target control point, may test the shared
memory and may change it; what a step reads from the memory is a parameter of
the step and is compared with the memory by its test.  Interleavings of any
number of threads are then the runs of one transition system.

**Rule.**  `Program.outline` is the method of Owicki and Gries.  A global
assertion `G` speaks about the past and the shared memory, and a local
assertion `A` is attached to every control point of every thread.  Three
obligations are enough: one step keeps `G`, it establishes `A` at its target
(local correctness), and it keeps the assertions of all other threads
(interference freedom).

**Calls.**  `Program.Call` cuts the part of a run out in which a thread executes one
call; other threads may take any steps in between.  `Call.run` is the rule for what
the call has done at its control points.  `Once`, `Program.Only` and `Program.Decided`
are the assertions of a call that looks around, sees something and then decides.
-/

namespace Ptl
namespace Transition

universe u v w x

/-- Shared memory together with the control point of every thread. -/
structure Config
    (ι : Type u) (κ : Type v) (μ : Type w) where
  shared : μ
  pc : ι → κ

/-- The condition `I` held at some instant of the part `m` of a trace. -/
def Once {ε : Type x} (I : List ε → Prop) (m : List ε) : Prop :=
  ∃ m₁, m₁ <+: m ∧ I m₁

theorem Once.now
    {ε : Type x} {I : List ε → Prop} {m : List ε}
    (h : I m) :
    Once I m :=
  ⟨m, List.prefix_rfl, h⟩

theorem Once.append
    {ε : Type x} {I : List ε → Prop} {m : List ε}
    (h : Once I m)
    (fs : List ε) :
    Once I (m ++ fs) := by
  obtain ⟨m₁, hprefix, hI⟩ := h
  exact ⟨m₁, hprefix.trans (List.prefix_append m fs), hI⟩

/-- Atomic steps of threads `ι` with control points `κ` over a memory `μ`. -/
structure Program
    (ι : Type u) (κ : Type v) (μ : Type w) (ε : Type x) where
  actor : ε → ι
  source : ε → κ
  target : ε → κ
  check : μ → ε → Prop
  effect : μ → ε → μ

namespace Program

variable {ι : Type u} {κ : Type v} {μ : Type w} {ε : Type x}
variable [DecidableEq ι]

/-- All interleavings of the threads from the initial configurations. -/
def system
    (P : Program ι κ μ ε)
    (init : Config ι κ μ → Prop) :
    System (Config ι κ μ) ε where
  init := init
  guard := fun s e =>
    s.pc (P.actor e) = P.source e ∧ P.check s.shared e
  next := fun s e =>
    { shared := P.effect s.shared e
      pc := Function.update s.pc (P.actor e) (P.target e) }

instance decidableSystemGuard
    (P : Program ι κ μ ε)
    (init : Config ι κ μ → Prop)
    [DecidableEq κ]
    [∀ m e, Decidable (P.check m e)]
    (s : Config ι κ μ) (e : ε) :
    Decidable ((P.system init).guard s e) :=
  inferInstanceAs
    (Decidable (s.pc (P.actor e) = P.source e ∧ P.check s.shared e))

/-- The steps of `P` that also meet the condition `ok` on the memory. -/
def restrict
    (P : Program ι κ μ ε) (ok : μ → ε → Prop) :
    Program ι κ μ ε where
  actor := P.actor
  source := P.source
  target := P.target
  check := fun m e => P.check m e ∧ ok m e
  effect := P.effect

variable {P : Program ι κ μ ε}
variable {init : Config ι κ μ → Prop}

@[simp] theorem system_next_shared
    (s : Config ι κ μ) (e : ε) :
    ((P.system init).next s e).shared = P.effect s.shared e := by
  rfl

@[simp] theorem system_next_pc_actor
    (s : Config ι κ μ) (e : ε) :
    ((P.system init).next s e).pc (P.actor e) = P.target e := by
  simp [system]

theorem system_next_pc_of_ne
    (s : Config ι κ μ) (e : ε)
    {j : ι}
    (hj : j ≠ P.actor e) :
    ((P.system init).next s e).pc j = s.pc j := by
  simp [system, hj]

section Outline

variable {B : List ε → Prop}
variable {G : List ε → μ → Prop}
variable {A : List ε → μ → ι → κ → Prop}

/--
The proof outline rule.  `B` is a condition on the trace that is inherited by
prefixes, such as a bound on the number of steps of some kind.
-/
theorem outline
    (hB : ∀ tr e, B (tr ++ [e]) → B tr)
    (hinit : ∀ s, init s →
      G [] s.shared ∧ ∀ i, A [] s.shared i (s.pc i))
    (hglobal : ∀ tr m e, B (tr ++ [e]) → G tr m →
      A tr m (P.actor e) (P.source e) → P.check m e →
      G (tr ++ [e]) (P.effect m e))
    (hlocal : ∀ tr m e, B (tr ++ [e]) → G tr m →
      A tr m (P.actor e) (P.source e) → P.check m e →
      A (tr ++ [e]) (P.effect m e) (P.actor e) (P.target e))
    (hother : ∀ tr m e, B (tr ++ [e]) → G tr m →
      A tr m (P.actor e) (P.source e) → P.check m e →
      ∀ j p, j ≠ P.actor e → A tr m j p →
        A (tr ++ [e]) (P.effect m e) j p)
    {tr : List ε} {s : Config ι κ μ}
    (hrun : (P.system init).Run tr s)
    (hbound : B tr) :
    G tr s.shared ∧ ∀ i, A tr s.shared i (s.pc i) := by
  induction hrun with
  | start hs =>
      exact hinit _ hs
  | @step tr s e hrun hg ih =>
      obtain ⟨hpc, hcheck⟩ := hg
      obtain ⟨hG, hA⟩ := ih (hB tr e hbound)
      have hactor : A tr s.shared (P.actor e) (P.source e) := by
        rw [← hpc]
        exact hA (P.actor e)
      refine ⟨hglobal tr s.shared e hbound hG hactor hcheck, ?_⟩
      intro j
      by_cases hj : j = P.actor e
      · rw [hj, system_next_pc_actor]
        exact hlocal tr s.shared e hbound hG hactor hcheck
      · rw [system_next_pc_of_ne s e hj]
        exact hother tr s.shared e hbound hG hactor hcheck
          j (s.pc j) hj (hA j)

end Outline

section Calls

omit [DecidableEq ι] in
/--
A completed call: it starts with the step `call` of a thread and ends with the first
step, `last`, after which the thread is at the control point `idle`.
-/
structure Call
    (P : Program ι κ μ ε) (idle : κ) (tr pre mid : List ε) (call last : ε) : Prop where
  trace : ∃ fs, tr = pre ++ [call] ++ mid ++ last :: fs
  actor : P.actor last = P.actor call
  returns : P.target last = idle
  within : ∀ e ∈ mid, P.actor e = P.actor call → P.target e ≠ idle

variable {B : List ε → Prop} {K : List ε → κ → Prop}
variable {idle : κ} {tr pre mid : List ε} {call last : ε} {s : Config ι κ μ}

/-- What a call has done so far: one step of another thread, and one of its own. -/
theorem during
    (hB : ∀ tr e, B (tr ++ [e]) → B tr)
    (hcall : K [] (P.target call))
    (hother : ∀ m e p, P.actor e ≠ P.actor call → K m p → K (m ++ [e]) p)
    (hown : ∀ m e s, (P.system init).Run (pre ++ [call] ++ m ++ [e]) s →
      B (pre ++ [call] ++ m ++ [e]) → P.actor e = P.actor call → P.target e ≠ idle →
      K m (P.source e) → K (m ++ [e]) (P.target e))
    (hrun : (P.system init).Run (pre ++ [call] ++ mid) s)
    (hbound : B (pre ++ [call] ++ mid))
    (hwithin : ∀ e ∈ mid, P.actor e = P.actor call → P.target e ≠ idle) :
    K mid (s.pc (P.actor call)) := by
  induction mid using List.reverseRecOn generalizing s with
  | nil =>
      rw [List.append_nil] at hrun
      obtain ⟨s₀, -, -, rfl⟩ := hrun.split
      have hpc : ((P.system init).next s₀ call).pc (P.actor call) = P.target call :=
        system_next_pc_actor s₀ call
      change K [] (((P.system init).next s₀ call).pc (P.actor call))
      rwa [hpc]
  | append_singleton m e ih =>
      rw [← List.append_assoc] at hrun hbound
      obtain ⟨s₀, hrun₀, ⟨⟨hpc, -⟩, -⟩, rfl⟩ := hrun.split
      have hpast := ih hrun₀ (hB _ e hbound) fun f hf =>
        hwithin f (List.mem_append_left _ hf)
      change K (m ++ [e]) (((P.system init).next s₀ e).pc (P.actor call))
      by_cases he : P.actor e = P.actor call
      · rw [← he] at hpast ⊢
        rw [system_next_pc_actor]
        rw [hpc] at hpast
        exact hown m e _ hrun hbound he (hwithin e (by simp) he) hpast
      · rw [system_next_pc_of_ne s₀ e (Ne.symm he)]
        exact hother m e _ he hpast

/-- The rule for a call that returns: what it has done when it takes its last step. -/
theorem Call.run
    (h : P.Call idle tr pre mid call last)
    (hB : ∀ tr e, B (tr ++ [e]) → B tr)
    (hcall : K [] (P.target call))
    (hother : ∀ m e p, P.actor e ≠ P.actor call → K m p → K (m ++ [e]) p)
    (hown : ∀ m e s, (P.system init).Run (pre ++ [call] ++ m ++ [e]) s →
      B (pre ++ [call] ++ m ++ [e]) → P.actor e = P.actor call → P.target e ≠ idle →
      K m (P.source e) → K (m ++ [e]) (P.target e))
    (hrun : (P.system init).Run tr s)
    (hbound : B tr) :
    K mid (P.source last) ∧
      ∃ s', (P.system init).Run (pre ++ [call] ++ mid ++ [last]) s' ∧
        B (pre ++ [call] ++ mid ++ [last]) := by
  obtain ⟨⟨fs, rfl⟩, hactor, -, hwithin⟩ := h
  rw [List.append_cons _ last fs] at hrun hbound
  have hprefix : B (pre ++ [call] ++ mid ++ [last]) :=
    inherited_of_append hB hbound
  obtain ⟨s₁, hrun₁, -, -⟩ := hrun.split
  obtain ⟨s₀, hrun₀, ⟨⟨hpc, -⟩, -⟩, -⟩ := hrun₁.split
  have hdone := during hB hcall hother hown hrun₀ (hB _ last hprefix) hwithin
  rw [← hactor, hpc] at hdone
  exact ⟨hdone, s₁, hrun₁, hprefix⟩

end Calls

section Decisions

variable {R : ε → Prop} {I : List ε → Prop}
variable {i : ι} {c e : ε} {ops m : List ε}

/-- The steps of thread `i`. -/
def actions (P : Program ι κ μ ε) (i : ι) (m : List ε) : List ε :=
  m.filter fun e => P.actor e = i

/-- The steps of thread `i` all meet `R`. -/
def Only (P : Program ι κ μ ε) (R : ε → Prop) (i : ι) (m : List ε) : Prop :=
  ∀ e ∈ m, P.actor e = i → R e

/--
Thread `i` has taken the step `c` at a moment that meets `I`, before it only steps
that meet `R`, and after it the steps `ops`.
-/
def Decided
    (P : Program ι κ μ ε) (R : ε → Prop) (I : List ε → Prop)
    (i : ι) (c : ε) (ops m : List ε) : Prop :=
  ∃ m₁ m₂, m = m₁ ++ c :: m₂ ∧ P.Only R i m₁ ∧ I m₁ ∧ P.actions i m₂ = ops

theorem actions_append (i : ι) (m : List ε) (e : ε) :
    P.actions i (m ++ [e]) =
      if P.actor e = i then P.actions i m ++ [e] else P.actions i m := by
  rw [actions, List.filter_append]
  split
  · next he =>
      simp [actions, he]
  · next he =>
      simp [actions, he]

omit [DecidableEq ι] in
theorem Only.append
    (h : P.Only R i m)
    (he : P.actor e = i → R e) :
    P.Only R i (m ++ [e]) := by
  intro f hf hactor
  rcases List.mem_append.mp hf with hmem | hlast
  · exact h f hmem hactor
  · obtain rfl := List.mem_singleton.mp hlast
    exact he hactor

/-- The moment of the deciding step. -/
theorem Only.decided
    (h : P.Only R i m)
    (hI : I m) :
    P.Decided R I i c [] (m ++ [c]) :=
  ⟨m, [], rfl, h, hI, rfl⟩

/-- The steps of the other threads are not part of the call. -/
theorem Decided.other
    (h : P.Decided R I i c ops m)
    (he : P.actor e ≠ i) :
    P.Decided R I i c ops (m ++ [e]) := by
  obtain ⟨m₁, m₂, rfl, honly, hI, hops⟩ := h
  refine ⟨m₁, m₂ ++ [e], by simp, honly, hI, ?_⟩
  rw [actions_append, if_neg he, hops]

/-- A step of the call itself. -/
theorem Decided.own
    (h : P.Decided R I i c ops m)
    (he : P.actor e = i) :
    P.Decided R I i c (ops ++ [e]) (m ++ [e]) := by
  obtain ⟨m₁, m₂, rfl, honly, hI, hops⟩ := h
  refine ⟨m₁, m₂ ++ [e], by simp, honly, hI, ?_⟩
  rw [actions_append, if_pos he, hops]

end Decisions

end Program

end Transition
end Ptl

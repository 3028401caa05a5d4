import Ptl.ThreadProgram

/-!
# Duties that are taken up and finished at most once

Some event of a run hands a thread a duty, and a later event of the same thread
finishes it.  In between the thread is at a control point that belongs to the
duty.  `Duty P C take finish` says so of a program `P`: a step leads into `C`
exactly when it takes the duty up, and it starts in `C` exactly when it finishes
the duty.

**Result.**  `Duty.run`: if the duty is taken up at most once in a run, then it
is finished at most once, and the thread that has taken it up is at a control
point in `C` until it finishes.  No assertion about other threads is needed.
-/

namespace Ptl
namespace Transition

universe u v w x

/-- `done` lists who finished the duty that `taken` lists who took up. -/
structure Exclusive {ι : Type u}
    (taken done : List ι) : Prop where
  length_le : taken.length ≤ 1
  done_eq : done = [] ∨ done = taken

/-- The thread `i` has taken the duty up and not finished it. -/
def Holds {ι : Type u}
    (taken done : List ι) (i : ι) : Prop :=
  taken = [i] ∧ done = []

namespace Exclusive

variable {ι : Type u} {taken done : List ι}

theorem done_length_le
    (h : Exclusive taken done) :
    done.length ≤ 1 := by
  rcases h.done_eq with hd | hd
  · simp [hd]
  · rw [hd]
    exact h.length_le

/-- A duty taken up is held by someone or finished. -/
theorem cases
    (h : Exclusive taken done) :
    taken = [] ∧ done = [] ∨
      (∃ i, Holds taken done i) ∨
      ∃ i, taken = [i] ∧ done = [i] := by
  obtain ⟨hlen, hdone⟩ := h
  match taken, hlen, hdone with
  | [], _, hdone =>
      left
      exact ⟨rfl, by simpa using hdone⟩
  | [i], _, hdone =>
      right
      rcases hdone with hd | hd
      · exact Or.inl ⟨i, rfl, hd⟩
      · exact Or.inr ⟨i, rfl, hd⟩

end Exclusive

variable {ι : Type u} {κ : Type v} {μ : Type w} {ε : Type x}

/-- The control points `C` belong to the duty of `take` and `finish`. -/
structure Duty
    (P : Program ι κ μ ε) (C : κ → Prop)
    (take finish : ε → Option ι) : Prop where
  take_actor : ∀ e i, take e = some i → i = P.actor e
  finish_actor : ∀ e i, finish e = some i → i = P.actor e
  target : ∀ e, C (P.target e) ↔ take e ≠ none
  source : ∀ e, C (P.source e) ↔ finish e ≠ none

namespace Duty

variable [DecidableEq ι]
variable {P : Program ι κ μ ε} {C : κ → Prop}
variable {take finish : ε → Option ι}
variable {init : Config ι κ μ → Prop}

/-- What one step of a thread does to a duty. -/
theorem step
    (hduty : Duty P C take finish)
    {tr : List ε} {e : ε} {p : ι → κ}
    (hexcl : Exclusive (tr.filterMap take) (tr.filterMap finish))
    (hholds : ∀ i, C (p i) ↔
      Holds (tr.filterMap take) (tr.filterMap finish) i)
    (hpc : p (P.actor e) = P.source e)
    (honce : ((tr ++ [e]).filterMap take).length ≤ 1) :
    Exclusive ((tr ++ [e]).filterMap take) ((tr ++ [e]).filterMap finish) ∧
    ∀ i, C (Function.update p (P.actor e) (P.target e) i) ↔
      Holds ((tr ++ [e]).filterMap take)
        ((tr ++ [e]).filterMap finish) i := by
  have hactor := hholds (P.actor e)
  rw [hpc, hduty.source] at hactor
  have htarget := hduty.target e
  simp only [filterMap_append_singleton] at honce ⊢
  generalize htaken : tr.filterMap take = taken at *
  generalize hdone : tr.filterMap finish = done at *
  cases ht : take e with
  | none =>
      rw [ht] at htarget honce
      have hleave : ¬ C (P.target e) := by
        simpa using htarget
      simp only [Option.toList_none, List.append_nil]
      cases hf : finish e with
      | none =>
          have hnot : ¬ Holds taken done (P.actor e) := by
            rw [← hactor, hf]
            simp
          simp only [Option.toList_none, List.append_nil]
          refine ⟨hexcl, ?_⟩
          intro i
          by_cases hi : i = P.actor e
          · simp [hi, hleave, hnot]
          · simpa [hi] using hholds i
      | some j =>
          obtain rfl := hduty.finish_actor e j hf
          have hheld : Holds taken done (P.actor e) := by
            rw [← hactor, hf]
            simp
          obtain ⟨rfl, rfl⟩ := hheld
          refine ⟨⟨hexcl.length_le, Or.inr rfl⟩, ?_⟩
          intro i
          by_cases hi : i = P.actor e
          · simp [hi, hleave, Holds]
          · have hother := hholds i
            simp only [Holds, List.cons.injEq, and_true] at hother
            simp [hi, Holds, hother, Ne.symm hi]
  | some j =>
      obtain rfl := hduty.take_actor e j ht
      rw [ht] at htarget honce
      have henter : C (P.target e) := by
        simpa using htarget
      obtain rfl : taken = [] := by
        simpa using honce
      obtain rfl : done = [] := by
        simpa using hexcl.done_eq
      have hf : finish e = none := by
        by_contra hne
        have hheld := hactor.mp hne
        simp [Holds] at hheld
      simp only [hf, Option.toList_none, Option.toList_some,
        List.nil_append, List.append_nil]
      refine ⟨⟨Nat.le_refl 1, Or.inl rfl⟩, ?_⟩
      intro i
      by_cases hi : i = P.actor e
      · simp [hi, henter, Holds]
      · have hother := hholds i
        simp only [Holds] at hother
        simpa [hi, Holds, Ne.symm hi] using hother

/-- A duty taken up at most once is finished at most once, by its holder. -/
theorem run
    (hduty : Duty P C take finish)
    (hinit : ∀ s, init s → ∀ i, ¬ C (s.pc i))
    {tr : List ε} {s : Config ι κ μ}
    (hrun : (P.system init).Run tr s)
    (honce : (tr.filterMap take).length ≤ 1) :
    Exclusive (tr.filterMap take) (tr.filterMap finish) ∧
    ∀ i, C (s.pc i) ↔
      Holds (tr.filterMap take) (tr.filterMap finish) i := by
  induction hrun with
  | start hs =>
      refine ⟨⟨Nat.zero_le 1, Or.inl rfl⟩, ?_⟩
      intro i
      simp [Holds, hinit _ hs i]
  | @step tr s e hrun hguard ih =>
      have hprefix : (tr.filterMap take).length ≤ 1 := by
        rw [filterMap_append_singleton, List.length_append] at honce
        omega
      obtain ⟨hexcl, hholds⟩ := ih hprefix
      exact hduty.step hexcl hholds hguard.1 honce

end Duty

end Transition
end Ptl

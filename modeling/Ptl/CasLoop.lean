import Ptl.ThreadProgram

/-!
# Compare-exchange loops on one atomic word

Any number of threads call operations on one atomic word.  An operation loads the word,
computes the desired word from it and tries to exchange; a failed exchange, which may be
spurious, loads the word again.  Other calls only load the word.

`Event.exchange` is the only step that changes the word.  `call_exchanges_once` says that
a completed call makes it exactly once, as its last step, and `word_eq_foldl` that the
word is the result of these operations in the order of their exchanges.
-/

namespace Ptl
namespace CasLoop

open Transition

universe u v w

section Loop

variable {ι : Type u} {ο : Type v} {μ : Type w}

/-- Where a thread is. -/
inductive Control (ο : Type v) (μ : Type w) where
  | idle
  | entered (op : ο)
  | loop (op : ο) (expected : μ)
deriving DecidableEq

/-- The atomic steps, each with the thread that takes it. -/
inductive Event (ι : Type u) (ο : Type v) (μ : Type w) where
  | call (i : ι) (op : ο)
  | load (i : ι) (op : ο) (seen : μ)
  | exchange (i : ι) (op : ο) (expected desired : μ)
  | retry (i : ι) (op : ο) (expected seen : μ)
  | read (i : ι) (seen : μ)
deriving DecidableEq

namespace Event

def actor : Event ι ο μ → ι
  | call i _ => i
  | load i _ _ => i
  | exchange i _ _ _ => i
  | retry i _ _ _ => i
  | read i _ => i

def source : Event ι ο μ → Control ο μ
  | call _ _ => .idle
  | load _ op _ => .entered op
  | exchange _ op expected _ => .loop op expected
  | retry _ op expected _ => .loop op expected
  | read _ _ => .idle

def target : Event ι ο μ → Control ο μ
  | call _ op => .entered op
  | load _ op seen => .loop op seen
  | exchange _ _ _ _ => .idle
  | retry _ op _ seen => .loop op seen
  | read _ _ => .idle

/-- The operation that a successful exchange carries out. -/
def applied : Event ι ο μ → Option ο
  | exchange _ op _ _ => some op
  | _ => none

end Event

/-- The operations of a trace in the order of their successful exchanges. -/
def applied (tr : List (Event ι ο μ)) : List ο :=
  tr.filterMap Event.applied

/-- The loops of operations that are described by `computes op expected desired`. -/
def loops (computes : ο → μ → μ → Prop) : Program ι (Control ο μ) μ (Event ι ο μ) where
  actor := Event.actor
  source := Event.source
  target := Event.target
  check
    | _, .call _ _ => True
    | word, .load _ _ seen => seen = word
    | word, .exchange _ op expected desired => word = expected ∧ computes op expected desired
    | word, .retry _ _ _ seen => seen = word
    | word, .read _ seen => seen = word
  effect
    | _, .exchange _ _ _ desired => desired
    | word, _ => word

variable [DecidableEq ι]

/-- The interleavings of all threads, from the given word and with no call under way. -/
def system (computes : ο → μ → μ → Prop) (word : μ) :
    System (Config ι (Control ο μ) μ) (Event ι ο μ) :=
  (loops computes).system fun s => s = ⟨word, fun _ => .idle⟩

instance decidableSystemGuard
    (computes : ο → μ → μ → Prop)
    (word : μ)
    [DecidableEq ο] [DecidableEq μ]
    [∀ op expected desired, Decidable (computes op expected desired)]
    (s : Config ι (Control ο μ) μ) (e : Event ι ο μ) :
    Decidable ((system computes word).guard s e) :=
  have : ∀ m e, Decidable ((loops (ι := ι) computes).check m e)
    | _, .call _ _ => inferInstanceAs (Decidable True)
    | word, .load _ _ seen => inferInstanceAs (Decidable (seen = word))
    | word, .exchange _ op expected desired =>
        inferInstanceAs (Decidable (word = expected ∧ computes op expected desired))
    | word, .retry _ _ _ seen => inferInstanceAs (Decidable (seen = word))
    | word, .read _ seen => inferInstanceAs (Decidable (seen = word))
  inferInstanceAs
    (Decidable (s.pc e.actor = e.source ∧ (loops (ι := ι) computes).check s.shared e))

variable {computes : ο → μ → μ → Prop} {word : μ}
variable {tr : List (Event ι ο μ)} {s : Config ι (Control ο μ) μ}

omit [DecidableEq ι] in
@[simp] theorem applied_append_singleton (tr : List (Event ι ο μ)) (e : Event ι ο μ) :
    applied (tr ++ [e]) = applied tr ++ e.applied.toList :=
  filterMap_append_singleton ..

/-- The word is the result of the operations that were applied, one after the other. -/
theorem word_eq_foldl
    {f : ο → μ → μ}
    (hf : ∀ op expected desired, computes op expected desired → desired = f op expected)
    (hrun : (system computes word).Run tr s) :
    s.shared = (applied tr).foldl (fun w op => f op w) word := by
  induction hrun with
  | start hs =>
      cases hs
      rfl
  | @step tr s e hrun hg ih =>
      change (loops computes).effect s.shared e = _
      rw [applied_append_singleton, List.foldl_append, ← ih]
      cases e with
      | exchange i op expected desired =>
          obtain ⟨-, heq, hcomputes⟩ := hg
          rw [heq]
          exact hf op expected desired hcomputes
      | _ =>
          rfl

/-- A call that only loads the word returns the word of that moment. -/
theorem read_eq
    {i : ι} {seen : μ}
    (hrun : (system computes word).Run (tr ++ [.read i seen]) s) :
    ∃ s₀, (system computes word).Run tr s₀ ∧ seen = s₀.shared := by
  obtain ⟨s₀, hrun₀, ⟨⟨-, hseen⟩, -⟩, -⟩ := hrun.split
  exact ⟨s₀, hrun₀, hseen⟩

/-- What a call has done before it returns: loads and failed exchanges. -/
def Trying
    (computes : ο → μ → μ → Prop) (i : ι) (op : ο)
    (m : List (Event ι ο μ)) (p : Control ο μ) : Prop :=
  (loops computes).Only (fun e => e.applied = none) i m ∧
    (p = .entered op ∨ ∃ expected, p = .loop op expected)

omit [DecidableEq ι] in
/-- A step inside a call is a load or a failed exchange of its operation. -/
theorem Trying.append
    {i : ι} {op : ο} {m : List (Event ι ο μ)} {e : Event ι ο μ}
    (h : Trying computes i op m e.source)
    (hinside : e.target ≠ .idle) :
    Trying computes i op (m ++ [e]) e.target := by
  obtain ⟨honly, hpc⟩ := h
  cases e with
  | call j op' =>
      rcases hpc with hpc | ⟨expected, hpc⟩
      · cases hpc
      · cases hpc
  | load j op' seen =>
      refine ⟨honly.append fun _ => rfl, .inr ⟨seen, ?_⟩⟩
      rcases hpc with hpc | ⟨expected, hpc⟩
      · cases hpc
        rfl
      · cases hpc
  | exchange j op' expected desired =>
      exact absurd rfl hinside
  | retry j op' expected seen =>
      refine ⟨honly.append fun _ => rfl, .inr ⟨seen, ?_⟩⟩
      rcases hpc with hpc | ⟨expected, hpc⟩
      · cases hpc
      · cases hpc
        rfl
  | read j seen =>
      exact absurd rfl hinside

/--
A completed call takes effect exactly once: its last step is its only successful exchange,
and the word it replaces is the one the new word was computed from.
-/
theorem call_exchanges_once
    {pre mid : List (Event ι ο μ)} {i : ι} {op : ο} {last : Event ι ο μ}
    (hcall : (loops computes).Call .idle tr pre mid (.call i op) last)
    (hrun : (system computes word).Run tr s) :
    ∃ expected desired,
      last = .exchange i op expected desired ∧
      computes op expected desired ∧
      (loops computes).Only (fun e => e.applied = none) i mid ∧
      ∃ s₀, (system computes word).Run (pre ++ [.call i op] ++ mid) s₀ ∧
        s₀.shared = expected := by
  obtain ⟨⟨honly, hpc⟩, s₁, hlast, -⟩ :=
    hcall.run (B := fun _ => True) (K := Trying computes i op)
      (fun _ _ _ => trivial)
      ⟨fun e he => absurd he List.not_mem_nil, .inl rfl⟩
      (fun m e p he h => ⟨h.1.append fun heq => absurd heq he, h.2⟩)
      (fun m e s _ _ _ hinside h => h.append hinside)
      hrun trivial
  have hreturns : last.target = .idle := hcall.returns
  have hactor : last.actor = i := hcall.actor
  obtain ⟨s₀, hrun₀, ⟨⟨-, hcheck⟩, -⟩, -⟩ := hlast.split
  cases last with
  | exchange j op' expected desired =>
      obtain ⟨hword, hcomputes⟩ := hcheck
      obtain rfl : j = i := hactor
      rcases hpc with hpc | ⟨expected', hpc⟩
      · cases hpc
      · cases hpc
        exact ⟨expected, desired, rfl, hcomputes, honly, s₀, hrun₀, hword⟩
  | call j op' =>
      cases hreturns
  | load j op' seen =>
      cases hreturns
  | retry j op' expected seen =>
      cases hreturns
  | read j seen =>
      rcases hpc with hpc | ⟨expected, hpc⟩
      · cases hpc
      · cases hpc

end Loop

end CasLoop
end Ptl

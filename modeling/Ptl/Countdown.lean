import Ptl.TransitionSystem
import Mathlib.Data.Finset.Card

/-!
# Counting down to one wake-up

The abstract model of a counter that several parties count down and whose last
decrement continues a waiting party, the joiner.  A state is the set of tokens
that are still out and a phase.  A party that holds a token may hand out a new
one; giving a token back is `release` while others remain and `releaseLast` for
the last one.  The joiner that gives back the last token itself goes on at
once; any other party then has to wake the joiner.

**Results.**
* `tokens_eq_empty_iff`: the joiner is being continued exactly when no token is
  out.
* `continued_of_run`: the joiner continues at most once, and it has done so
  exactly in the phase `awake`.
-/

namespace Ptl
namespace Countdown

open Transition

universe u

variable {ι : Type u}

/-- What the joiner is waiting for. -/
inductive Phase (ι : Type u) where
  | counting
  | waking (a : ι)
  | awake

/-- The tokens that are out, and the phase. -/
structure State (ι : Type u) where
  tokens : Finset ι
  phase : Phase ι

inductive Event (ι : Type u) where
  | acquire (a b : ι)
  | release (a : ι)
  | releaseLast (a : ι)
  | wake (a : ι)

variable [DecidableEq ι]

namespace Event

def guard (s : State ι) : Event ι → Prop
  | acquire a b => a ∈ s.tokens ∧ b ∉ s.tokens
  | release a => a ∈ s.tokens ∧ s.tokens.erase a ≠ ∅
  | releaseLast a => s.tokens = {a}
  | wake a => s.phase = .waking a

def next (joiner : ι) (s : State ι) : Event ι → State ι
  | acquire _ b => { s with tokens := insert b s.tokens }
  | release a => { s with tokens := s.tokens.erase a }
  | releaseLast a =>
      { tokens := ∅
        phase := if a = joiner then .awake else .waking a }
  | wake _ => { s with phase := .awake }

/-- The party that continues the joiner. -/
def continuer? (joiner : ι) : Event ι → Option ι
  | releaseLast a => if a = joiner then some a else none
  | wake a => some a
  | _ => none

end Event

/-- The countdown that starts with the given tokens. -/
def countdown (joiner : ι) (tokens : Finset ι) :
    System (State ι) (Event ι) where
  init := fun s => s = { tokens := tokens, phase := .counting }
  guard := Event.guard
  next := Event.next joiner

@[simp] theorem countdown_next
    (joiner : ι) (tokens : Finset ι) (s : State ι) (e : Event ι) :
    (countdown joiner tokens).next s e = e.next joiner s := by
  rfl

/-- The continuations of the joiner in a run. -/
def continuations (joiner : ι) (tr : List (Event ι)) : List ι :=
  tr.filterMap (Event.continuer? joiner)

variable {joiner : ι} {tokens : Finset ι}
variable {tr : List (Event ι)} {s : State ι}

/-- A token may be given back while the count is greater than one. -/
theorem guard_release
    {a : ι}
    (ha : a ∈ s.tokens)
    (hcount : 1 < s.tokens.card) :
    (Event.release a).guard s := by
  refine ⟨ha, ?_⟩
  rintro hempty
  have hcard := Finset.card_erase_add_one ha
  rw [hempty, Finset.card_empty] at hcard
  omega

/-- At a count of at most one, a token that is out is the last one. -/
theorem guard_releaseLast
    {a : ι}
    (ha : a ∈ s.tokens)
    (hcount : ¬ 1 < s.tokens.card) :
    (Event.releaseLast a).guard s := by
  have hpos := Finset.card_pos.mpr ⟨a, ha⟩
  obtain ⟨b, hb⟩ := Finset.card_eq_one.mp (by omega : s.tokens.card = 1)
  rw [hb, Finset.mem_singleton] at ha
  rw [ha]
  exact hb

/-- The phase tells whether a token is out. -/
theorem tokens_eq_empty_iff
    (htokens : tokens ≠ ∅)
    (hs : (countdown joiner tokens).Reachable s) :
    s.tokens = ∅ ↔ s.phase ≠ .counting := by
  refine hs.invariant
    (I := fun s => s.tokens = ∅ ↔ s.phase ≠ .counting) ?_ ?_
  · rintro _ rfl
    simpa using htokens
  · rintro s e ih hguard
    cases e with
    | acquire a b =>
        have hne : s.tokens ≠ ∅ := Finset.ne_empty_of_mem hguard.1
        have hphase := (not_congr ih).mp hne
        simpa [Event.next] using hphase
    | release a =>
        have hne : s.tokens ≠ ∅ := Finset.ne_empty_of_mem hguard.1
        have hphase := (not_congr ih).mp hne
        simpa [Event.next, hguard.2] using hphase
    | releaseLast a =>
        by_cases ha : a = joiner <;> simp [Event.next, ha]
    | wake a =>
        have hphase : s.phase = .waking a := hguard
        have hempty := ih.mpr (by simp [hphase])
        simpa [Event.next] using hempty

/-- The joiner continues at most once; afterwards it is awake. -/
theorem continued_of_run
    (htokens : tokens ≠ ∅)
    (hrun : (countdown joiner tokens).Run tr s) :
    (continuations joiner tr).length ≤ 1 ∧
      (s.phase = .awake ↔ continuations joiner tr ≠ []) := by
  refine hrun.invariant
    (I := fun tr s => (continuations joiner tr).length ≤ 1 ∧
      (s.phase = .awake ↔ continuations joiner tr ≠ [])) ?_ ?_
  · rintro _ rfl
    simp [continuations]
  · rintro tr s e hrun ⟨hlen, hawake⟩ hguard
    have hempty := tokens_eq_empty_iff htokens ⟨tr, hrun⟩
    rw [continuations, filterMap_append_singleton, ← continuations]
    cases e with
    | acquire a b =>
        simpa [Event.next, Event.continuer?] using
          ⟨hlen, hawake⟩
    | release a =>
        simpa [Event.next, Event.continuer?] using
          ⟨hlen, hawake⟩
    | releaseLast a =>
        have hne : s.tokens ≠ ∅ := by
          rw [show s.tokens = {a} from hguard]
          exact Finset.singleton_ne_empty a
        have hcounting : s.phase = .counting := by
          simpa using (not_congr hempty).mp hne
        have hnil : continuations joiner tr = [] := by
          simpa [hcounting] using hawake
        by_cases ha : a = joiner <;>
          simp [Event.next, Event.continuer?, ha, hnil]
    | wake a =>
        have hphase : s.phase = .waking a := hguard
        have hnil : continuations joiner tr = [] := by
          simpa [hphase] using hawake
        simp [Event.next, Event.continuer?, hnil]

section Matching

/--
A concrete state matches the countdown: `holding` says who holds a token,
`count` is the counter, `awake` that the joiner has continued and `waking` who
is about to wake it.
-/
structure Matches
    (t : State ι) (holding : ι → Prop) (count : Nat)
    (awake : Prop) (waking : ι → Prop) : Prop where
  tokens : ∀ a, a ∈ t.tokens ↔ holding a
  count : t.tokens.card = count
  awake : t.phase = .awake ↔ awake
  waking : ∀ a, t.phase = .waking a ↔ waking a

namespace Matches

variable {t : State ι} {holding holding' : ι → Prop} {count count' : Nat}
variable {awake awake' : Prop} {waking waking' : ι → Prop} {a b : ι}

omit [DecidableEq ι] in
theorem congr
    (h : Matches t holding count awake waking)
    (hholding : ∀ a, holding' a ↔ holding a)
    (hcount : count' = count)
    (hawake : awake' ↔ awake)
    (hwaking : ∀ a, waking' a ↔ waking a) :
    Matches t holding' count' awake' waking' where
  tokens := fun a => (h.tokens a).trans (hholding a).symm
  count := h.count.trans hcount.symm
  awake := h.awake.trans hawake.symm
  waking := fun a => (h.waking a).trans (hwaking a).symm

omit [DecidableEq ι] in
theorem initial (tokens : Finset ι) :
    Matches { tokens := tokens, phase := .counting } (fun a => a ∈ tokens)
      tokens.card False fun _ => False where
  tokens := fun _ => Iff.rfl
  count := rfl
  awake := by simp
  waking := by simp

/-- While a token is out, the joiner waits and nobody wakes it. -/
theorem counting
    (h : Matches t holding count awake waking)
    (htokens : tokens ≠ ∅)
    (ht : (countdown joiner tokens).Reachable t)
    (ha : holding a) :
    0 < count ∧ t.phase = .counting ∧ ¬ awake ∧ ∀ b, ¬ waking b := by
  have hmem := (h.tokens a).mpr ha
  have hphase : t.phase = .counting := by
    simpa using (not_congr (tokens_eq_empty_iff htokens ht)).mp
      (Finset.ne_empty_of_mem hmem)
  have hawake := h.awake
  have hwaking := h.waking
  simp only [hphase, reduceCtorEq, false_iff] at hawake hwaking
  refine ⟨?_, hphase, hawake, hwaking⟩
  rw [← h.count]
  exact Finset.card_pos.mpr ⟨a, hmem⟩

/-- Once the joiner has continued or is being woken, nobody holds a token. -/
theorem not_holding
    (h : Matches t holding count awake waking)
    (htokens : tokens ≠ ∅)
    (ht : (countdown joiner tokens).Reachable t)
    (hdone : awake ∨ ∃ b, waking b) :
    ¬ holding a := by
  intro ha
  obtain ⟨-, -, hawake, hwaking⟩ := h.counting htokens ht ha
  rcases hdone with hd | ⟨b, hb⟩
  · exact hawake hd
  · exact hwaking b hb

omit [DecidableEq ι] in
theorem not_awake
    (h : Matches t holding count awake waking)
    (ha : waking a) :
    ¬ awake := by
  intro hawake
  have hphase := (h.waking a).mpr ha
  rw [h.awake.mpr hawake] at hphase
  cases hphase

omit [DecidableEq ι] in
theorem waking_unique
    (h : Matches t holding count awake waking)
    (ha : waking a)
    (hb : waking b) :
    a = b := by
  have hphase := (h.waking a).mpr ha
  rw [(h.waking b).mpr hb] at hphase
  cases hphase
  rfl

/-- With all tokens given back, the joiner has continued or is being woken. -/
theorem continued
    (h : Matches t holding count awake waking)
    (htokens : tokens ≠ ∅)
    (ht : (countdown joiner tokens).Reachable t)
    (hnone : ∀ a, ¬ holding a) :
    awake ∨ ∃ b, waking b := by
  have hempty : t.tokens = ∅ := by
    ext a
    simp [h.tokens, hnone]
  have hphase := (tokens_eq_empty_iff htokens ht).mp hempty
  cases hp : t.phase with
  | counting =>
      exact absurd hp hphase
  | waking b =>
      exact Or.inr ⟨b, (h.waking b).mp hp⟩
  | awake =>
      exact Or.inl (h.awake.mp hp)

/-- A holder hands out a new token. -/
theorem acquire
    (joiner : ι)
    (h : Matches t holding count awake waking)
    (ha : holding a)
    (hb : ¬ holding b) :
    (Event.acquire a b).guard t ∧
      Matches (Event.next joiner t (.acquire a b))
        (fun c => c = b ∨ holding c) (count + 1) awake waking := by
  have hmem := mt (h.tokens b).mp hb
  refine ⟨⟨(h.tokens a).mpr ha, hmem⟩, ?_, ?_, h.awake, h.waking⟩
  · intro c
    simp [Event.next, h.tokens]
  · simp [Event.next, hmem, h.count]

/-- A token is given back while others remain. -/
theorem release
    (joiner : ι)
    (h : Matches t holding count awake waking)
    (ha : holding a)
    (hcount : 1 < count) :
    (Event.release a).guard t ∧
      Matches (Event.next joiner t (.release a))
        (fun c => c ≠ a ∧ holding c) (count - 1) awake waking := by
  have hmem := (h.tokens a).mpr ha
  refine ⟨guard_release hmem (h.count.symm ▸ hcount), ?_, ?_,
    h.awake, h.waking⟩
  · intro c
    simp [Event.next, h.tokens]
  · simp [Event.next, Finset.card_erase_of_mem hmem, h.count]

/-- The last token is given back. -/
theorem releaseLast
    (joiner : ι)
    (h : Matches t holding count awake waking)
    (ha : holding a)
    (hcount : ¬ 1 < count) :
    (Event.releaseLast a).guard t ∧
      Matches (Event.next joiner t (.releaseLast a))
        (fun c => c ≠ a ∧ holding c) (count - 1) (a = joiner)
        fun c => c = a ∧ a ≠ joiner := by
  have hmem := (h.tokens a).mpr ha
  have hlast : t.tokens = {a} :=
    guard_releaseLast hmem (h.count.symm ▸ hcount)
  refine ⟨hlast, ?_, ?_, ?_, ?_⟩
  · intro c
    have hc := h.tokens c
    rw [hlast, Finset.mem_singleton] at hc
    simp [Event.next, ← hc]
  · have hone := h.count
    rw [hlast, Finset.card_singleton] at hone
    simp [Event.next, ← hone]
  · by_cases haj : a = joiner <;> simp [Event.next, haj]
  · intro c
    by_cases haj : a = joiner
    · simp [Event.next, haj]
    · simp [Event.next, haj, eq_comm]

/-- The joiner is woken. -/
theorem wake
    (joiner : ι)
    (h : Matches t holding count awake waking)
    (ha : waking a) :
    (Event.wake a).guard t ∧
      Matches (Event.next joiner t (.wake a))
        holding count True fun _ => False := by
  refine ⟨(h.waking a).mpr ha, h.tokens, h.count, ?_, ?_⟩
  · simp [Event.next]
  · simp [Event.next]

end Matches

end Matching

end Countdown
end Ptl

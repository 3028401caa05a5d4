import Ptl.Descent
import Ptl.TaskSteps

/-!
# Tasks come to an end

A tree of coroutines need not have a bound on its depth, since ordinary code may
choose among infinitely many continuations, but it is well founded.  The weight
of a coroutine is the rank of what is left of its body, an ordinal, plus a
number for its place: a queue is further from the end than a thread, and waiting
for a `Task` is further than both.  Every step makes its coroutine lighter.

**Result.**  `acc_of_reachable`: no run of `tasks` goes on forever.
-/

namespace Ptl
namespace Task

open Transition Placement Descent

universe u v

variable {ε : Type u} {V : Type v}

/-- The rank of a body, above those of all it can go on with. -/
noncomputable def Body.rank : Body ε V → Ordinal.{v}
  | act k => (⨆ v, (k v).rank) + (1 : Nat)
  | await child k => max child.rank (⨆ v, (k v).rank) + (5 : Nat)
  | scheduleOn child _ k => max child.rank (⨆ v, (k v).rank) + (5 : Nat)
  | scheduler _ k => k.rank + (2 : Nat)
  | finish _ => 0 + (4 : Nat)

noncomputable def Point.rank : Point ε V → Ordinal.{v}
  | body b => b.rank
  | awaiting _ k => (⨆ v, (k v).rank) + (1 : Nat)
  | final => 0 + (3 : Nat)
  | ended => 0

/-- How far a place is from the thread that makes the next step. -/
def offset : Place (Thread ε) ε → Nat
  | .thread _ => 0
  | .queue _ => 1
  | .away => 2

/-- The weight of a coroutine. -/
noncomputable def Located.weight (a : Located ε V) (h : Handle) : Ordinal.{v} :=
  (a.frame h).point.rank + (offset (a.place h) : Nat)

section Ranks

variable {p : Point ε V}

theorem le_sup_rank (k : V → Body ε V) (v : V) :
    (k v).rank ≤ ⨆ v, (k v).rank :=
  Ordinal.le_iSup (fun v => (k v).rank) v

theorem rank_resumeWith_lt
    {op : Op ε V}
    (hop : p.op? = some op)
    (hvalue : op = .act ∨ ∃ c, op = .resume c)
    (v : V) :
    (p.resumeWith v).rank < p.rank := by
  have hlt : ∀ k : V → Body ε V,
      (k v).rank < (⨆ v, (k v).rank) + ((1 : Nat) : Ordinal.{v}) := by
    intro k
    simpa using add_natCast_lt (le_sup_rank k v) Nat.zero_lt_one
  cases p with
  | body b =>
      cases b with
      | act k =>
          exact hlt k
      | _ =>
          obtain rfl := Option.some.inj hop
          simp at hvalue
  | awaiting c k =>
      exact hlt k
  | final =>
      obtain rfl := Option.some.inj hop
      simp at hvalue
  | ended =>
      cases hop

theorem rank_afterScheduler_lt
    {x : ε}
    (hop : p.op? = some (.scheduler x)) :
    p.afterScheduler.rank + ((1 : Nat) : Ordinal.{v}) < p.rank := by
  cases p with
  | body b =>
      cases b with
      | scheduler y k =>
          exact add_natCast_lt (le_refl _) Nat.one_lt_two
      | _ =>
          simp [Point.op?] at hop
  | _ =>
      simp [Point.op?] at hop

theorem rank_child_lt
    {op : Op ε V}
    (hop : p.op? = some op)
    (hcalls : op.Calls) :
    p.child.rank + ((1 : Nat) : Ordinal.{v}) < p.rank := by
  rcases body_of_calls hop hcalls with ⟨b, k, rfl⟩ | ⟨b, x, k, rfl⟩
  · exact add_natCast_lt (le_max_left _ _) (by decide)
  · exact add_natCast_lt (le_max_left _ _) (by decide)

theorem rank_await_lt
    {op : Op ε V}
    (hop : p.op? = some op)
    (hcalls : op.Calls)
    (c : Handle) :
    (p.await c).rank + ((2 : Nat) : Ordinal.{v}) < p.rank := by
  have hlt : ∀ (b : Body ε V) (k : V → Body ε V),
      (⨆ v, (k v).rank) + ((1 : Nat) : Ordinal.{v}) + ((2 : Nat) : Ordinal.{v}) <
        max b.rank (⨆ v, (k v).rank) + ((5 : Nat) : Ordinal.{v}) := by
    intro b k
    rw [add_assoc, ← Nat.cast_add]
    exact add_natCast_lt (le_max_right _ _) (by decide)
  rcases body_of_calls hop hcalls with ⟨b, k, rfl⟩ | ⟨b, x, k, rfl⟩
  · exact hlt b k
  · exact hlt b k

theorem rank_of_finish
    {v : V}
    (hop : p.op? = some (.finish v)) :
    p.rank = 0 + ((4 : Nat) : Ordinal.{v}) := by
  cases p with
  | body b =>
      cases b with
      | finish w =>
          rfl
      | _ =>
          simp [Point.op?] at hop
  | _ =>
      simp [Point.op?] at hop

theorem rank_of_suspend
    (hop : p.op? = some .suspend) :
    p.rank = 0 + ((3 : Nat) : Ordinal.{v}) := by
  cases p with
  | body b =>
      cases b <;> simp [Point.op?] at hop
  | final =>
      rfl
  | _ =>
      simp [Point.op?] at hop

end Ranks

section Weights

variable {a : Located ε V}

theorem weight_thread
    {t : Thread ε} {h : Handle}
    (hplace : a.place h = .thread t) :
    a.weight h = (a.frame h).point.rank := by
  simp [Located.weight, hplace, offset]

theorem weight_le (a : Located ε V) (h : Handle) :
    a.weight h ≤ (a.frame h).point.rank + ((2 : Nat) : Ordinal.{v}) := by
  have hoffset : offset (a.place h) ≤ 2 := by
    cases a.place h <;> simp [offset]
  rw [Located.weight]
  gcongr

variable [DecidableEq ε] [Inhabited V] {e : Event ε V}

/-- A new `Task` and the coroutine that awaits it are lighter than this one was. -/
theorem weight_awaits_lt
    {t : Thread ε} {h c : Handle}
    (ha : Linked a)
    (hguard : Located.guard a e)
    (he : e.awaits? = some (t, h, c)) :
    (a.next e).weight h < a.weight h ∧ (a.next e).weight c < a.weight h := by
  obtain ⟨hplace, hc, op, hop, hcalls⟩ := calls_of_awaits? hguard he
  have hframe : (a.next e).frame = callTask a.frame h c t.current :=
    next_frame_of_awaits? he
  rw [weight_thread hplace]
  constructor
  · have hne : h ≠ c := by
      rw [hc]
      exact Nat.ne_of_lt (ha.lt_allocated (by simp [hplace]))
    have hpoint : ((a.next e).frame h).point = (a.frame h).point.await c := by
      simp [hframe, callTask, setPoint, hne]
    calc
      (a.next e).weight h
          ≤ ((a.frame h).point.await c).rank + ((2 : Nat) : Ordinal.{v}) := by
            rw [← hpoint]
            exact weight_le (a.next e) h
      _ < (a.frame h).point.rank := rank_await_lt hop hcalls c
  · have hpoint : ((a.next e).frame c).point = (a.frame h).point.child := by
      simp [hframe, callTask, Frame.setContinuation, Frame.new]
    have hoffset : offset ((a.next e).place c) ≤ 1 := by
      cases e with
      | await t' h' c' =>
          cases he
          simp [Located.next, Located.nextPlace, Located.handOver, offset]
      | scheduleOn t' h' c' x =>
          cases he
          simp [Located.next, Located.nextPlace, Located.handOver, offset]
      | _ =>
          cases he
    calc
      (a.next e).weight c
          ≤ (a.frame h).point.child.rank + ((1 : Nat) : Ordinal.{v}) := by
            rw [Located.weight, hpoint]
            gcongr
      _ < (a.frame h).point.rank := rank_child_lt hop hcalls

/-- Every step makes its coroutine lighter. -/
theorem weight_next_lt
    (ha : Linked a)
    (hguard : Located.guard a e) :
    (a.next e).weight e.coroutine < a.weight e.coroutine := by
  cases e with
  | act t h v =>
      obtain ⟨hplace, hop⟩ : a.At t h .act := hguard
      have hplace' : (a.next (.act t h v)).place h = .thread t := hplace
      rw [Event.coroutine, weight_thread hplace, weight_thread hplace']
      simpa [Located.next, Event.nextFrame, setPoint] using
        rank_resumeWith_lt hop (Or.inl rfl) v
  | await t h c =>
      exact (weight_awaits_lt (t := t) (h := h) (c := c) ha hguard rfl).1
  | scheduleOn t h c x =>
      exact (weight_awaits_lt (t := t) (h := h) (c := c) ha hguard rfl).1
  | schedulerReady t h x =>
      obtain ⟨⟨hplace, hop⟩, -⟩ := hguard
      have hplace' : (a.next (.schedulerReady t h x)).place h = .thread t :=
        hplace
      rw [Event.coroutine, weight_thread hplace, weight_thread hplace']
      refine lt_of_le_of_lt ?_ (rank_afterScheduler_lt hop)
      simp [Located.next, Event.nextFrame, setPoint]
  | schedulerSuspend t h x =>
      obtain ⟨⟨hplace, hop⟩, -⟩ := hguard
      rw [Event.coroutine, weight_thread hplace]
      simpa [Located.weight, Located.next, Located.nextPlace, Event.nextFrame,
        setPoint, offset] using rank_afterScheduler_lt hop
  | resume t h c v =>
      obtain ⟨⟨hplace, hop⟩, -⟩ := hguard
      have hplace' : (a.next (.resume t h c v)).place h = .thread t := hplace
      rw [Event.coroutine, weight_thread hplace, weight_thread hplace']
      simpa [Located.next, Event.nextFrame, setPoint] using
        rank_resumeWith_lt hop (Or.inr ⟨c, rfl⟩) v
  | finish t h v =>
      obtain ⟨hplace, hop⟩ : a.At t h (.finish v) := hguard
      have hplace' : (a.next (.finish t h v)).place h = .thread t := hplace
      rw [Event.coroutine, weight_thread hplace, weight_thread hplace',
        rank_of_finish hop]
      simpa [Located.next, Event.nextFrame, storeValue, Point.rank] using
        add_natCast_lt (le_refl (0 : Ordinal.{v})) (by decide : 3 < 4)
  | finalSuspend t h o =>
      obtain ⟨⟨hplace, hop⟩, -⟩ := hguard
      rw [Event.coroutine, weight_thread hplace, rank_of_suspend hop]
      refine lt_of_le_of_lt (weight_le _ h) ?_
      simpa [Located.next, Event.nextFrame, setPoint, Point.rank] using
        add_natCast_lt (le_refl (0 : Ordinal.{v})) (by decide : 2 < 3)
  | run x h =>
      have hplace : a.place h = .queue x := hguard
      rw [Event.coroutine, Located.weight, Located.weight, hplace]
      refine add_natCast_lt (le_refl (a.frame h).point.rank) ?_
      simp [Located.next, Located.nextPlace, offset]

/-- No step makes another coroutine heavier. -/
theorem weight_next_of_ne
    {g : Handle}
    (ha : Linked a)
    (hguard : Located.guard a e)
    (hg : g < a.allocated)
    (hne : g ≠ e.coroutine) :
    (a.next e).weight g = a.weight g ∨ (a.next e).weight g < a.weight g := by
  rw [Located.weight, Located.weight, next_frame_of_ne hguard hg hne]
  rcases nextPlace_of_ne ha hguard hg hne with hsame | ⟨haway, hback, -⟩
  · left
    rw [hsame]
  · right
    refine add_natCast_lt (le_refl _) ?_
    rw [haway]
    cases hplace : (a.next e).place g with
    | away =>
        exact absurd hplace hback
    | _ =>
        simp [offset]

/-- What a step creates is lighter than its coroutine was. -/
theorem weight_new_lt
    {g : Handle}
    (ha : Linked a)
    (hguard : Located.guard a e)
    (hg : a.allocated ≤ g)
    (hg' : g < (a.next e).allocated) :
    (a.next e).weight g < a.weight e.coroutine := by
  cases e with
  | await t h c =>
      obtain rfl : g = c := by
        rw [hguard.2]
        exact Nat.le_antisymm (Nat.lt_succ_iff.mp hg') hg
      exact (weight_awaits_lt (t := t) (h := h) (c := g) ha hguard rfl).2
  | scheduleOn t h c x =>
      obtain rfl : g = c := by
        rw [hguard.2]
        exact Nat.le_antisymm (Nat.lt_succ_iff.mp hg') hg
      exact (weight_awaits_lt (t := t) (h := h) (c := g) ha hguard rfl).2
  | _ =>
      exact absurd hg (Nat.not_le.mpr hg')

/-- The weights of all coroutines so far decrease with every step. -/
theorem weights_next_lt
    (ha : Linked a)
    (hguard : Located.guard a e) :
    Multiset.IsDershowitzMannaLT
      (weights (a.next e).allocated (a.next e).weight)
      (weights a.allocated a.weight) :=
  weights_lt (coroutine_lt ha hguard) (Nat.le_add_right _ _)
    (fun g hg => by
      by_cases hne : g = e.coroutine
      · subst hne
        exact Or.inr (weight_next_lt ha hguard)
      · exact weight_next_of_ne ha hguard hg hne)
    (weight_next_lt ha hguard)
    (fun _ hg hg' => weight_new_lt ha hguard hg hg')

theorem acc_of_reachable
    {roots : List (Body ε V)} {s : State ε V}
    (hs : (tasks roots).Reachable s) :
    Acc (tasks roots).Successor s := by
  obtain ⟨tr, hrun⟩ := hs
  obtain ⟨a, hR, hrunA⟩ := (simulation roots).run hrun
  have ha : (located roots).Reachable a := ⟨_, hrunA⟩
  refine (simulation roots).acc (by simp) ⟨tr, hrun⟩ ha hR ?_
  refine System.Reachable.acc wellFounded_weights
    (fun a => weights a.allocated a.weight) ?_ ha
  intro a e ha hguard
  exact weights_next_lt (linked_of_reachable ha) hguard

end Weights

end Task
end Ptl

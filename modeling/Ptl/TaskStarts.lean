import Ptl.TaskEvaluation

/-!
# When the bodies of nested tasks start

A body starts when its coroutine leaves `initial_suspend`.  Coroutines never
return there, and control reaches a coroutine that is still there only by the
transfer of the `co_await` that awaits it (`Ordered`).

**Results.**
* `begin_nodup_of_run`, `awaitedBefore_of_run`: in every run each body starts at most
  once, and only after its `Task` has been awaited.
* `frame_of_final`: nothing changes the frame of a coroutine that has ended.
-/

namespace Ptl
namespace SyncWait

open Transition

universe u v w

variable {σ : Type u} {V : Type v} {E : Type w}

section Starts

variable {s : State σ V E} {e : Event}

/-- The coroutine has not left `initial_suspend`. -/
def Frame.Fresh (f : Frame σ V E) : Prop :=
  ∃ p, f.point = .initial p

theorem Point.body_ne_initial
    {n : Nat} {p : Program σ V E n} {tasks : Fin n → Nat} (q : Program σ V E 0) :
    Point.body p tasks ≠ .initial q := by
  simp

theorem Point.awaiting_ne_initial
    {n : Nat} {x : Fin n} {k : V → Program σ V E n} {h : Thrown E → Program σ V E n}
    {tasks : Fin n → Nat} (q : Program σ V E 0) :
    Point.awaiting x k h tasks ≠ .initial q := by
  simp

/-- The body at this point holds the `Task` of the coroutine `d`. -/
def Point.Holds (d : Nat) : Point σ V E → Prop
  | .body _ tasks => ∃ x, tasks x = d
  | .awaiting _ _ _ tasks => ∃ x, tasks x = d
  | _ => False

/-- The coroutine `c` runs, and its body goes on with `p`. -/
def State.Runs (s : State σ V E) (c : Nat) {n : Nat}
    (p : Program σ V E n) (tasks : Fin n → Nat) : Prop :=
  s.current = some (.task c) ∧ (s.frame c).point = .body p tasks

/-- What the running coroutine is about to do, and where it is. -/
def Event.Enabled (s : State σ V E) : Event → Prop
  | .start => s.current = none
  | .create c d =>
      d = s.allocated ∧
        ∃ (n : Nat) (kind : Kind) (child : Program σ V E 0) (p : Program σ V E (n + 1))
          (tasks : Fin n → Nat), s.Runs c (.create kind child p) tasks
  | .await h d =>
      h = .syncWait ∧ d = 0 ∧ s.current = some .syncWait ∨
      ∃ (c n : Nat) (x : Fin n) (k : V → Program σ V E n) (h' : Thrown E → Program σ V E n)
        (tasks : Fin n → Nat), h = .task c ∧ d = tasks x ∧ s.Runs c (.await x k h') tasks
  | .begin c => s.current = some (.task c) ∧ (s.frame c).Fresh
  | .act c =>
      ∃ (n : Nat) (f : σ → V × σ) (k : V → Program σ V E n) (tasks : Fin n → Nat),
        s.Runs c (.act f k) tasks
  | .leave c _ =>
      ∃ (n : Nat) (p : Program σ V E n) (tasks : Fin (n + 1) → Nat),
        s.Runs c (.leave p) tasks
  | .finish c =>
      (∃ (n : Nat) (o : Operand V E) (tasks : Fin n → Nat), s.Runs c (.coReturn o) tasks) ∨
        ∃ (n : Nat) (x : Thrown E) (tasks : Fin n → Nat), s.Runs c (.throw x) tasks
  | .finalSuspend c =>
      s.current = some (.task c) ∧ (s.frame c).point = .final
  | .resume h d =>
      h = .syncWait ∧ s.current = some .syncWait ∨
      ∃ (c n : Nat) (x : Fin n) (k : V → Program σ V E n) (h' : Thrown E → Program σ V E n)
        (tasks : Fin n → Nat), h = .task c ∧ d = tasks x ∧ s.current = some (.task c) ∧
          (s.frame c).point = .awaiting x k h' tasks

theorem enabled_eventOf
    {c : Nat}
    (hcurrent : s.current = some (.task c)) :
    (s.eventOf c).Enabled s := by
  rw [State.eventOf]
  cases hpoint : (s.frame c).point with
  | initial p =>
      exact ⟨hcurrent, p, hpoint⟩
  | @body n p tasks =>
      cases p with
      | coReturn o =>
          exact .inl ⟨n, o, tasks, hcurrent, hpoint⟩
      | throw x =>
          exact .inr ⟨n, x, tasks, hcurrent, hpoint⟩
      | act f k =>
          exact ⟨n, f, k, tasks, hcurrent, hpoint⟩
      | create kind child p =>
          exact ⟨rfl, n, kind, child, p, tasks, hcurrent, hpoint⟩
      | await x k h =>
          exact .inr ⟨c, n, x, k, h, tasks, rfl, rfl, hcurrent, hpoint⟩
      | @leave m p =>
          exact ⟨m, p, tasks, hcurrent, hpoint⟩
  | @awaiting n x k h tasks =>
      exact .inr ⟨c, n, x, k, h, tasks, rfl, rfl, hcurrent, hpoint⟩
  | final =>
      exact ⟨hcurrent, hpoint⟩

theorem enabled_of_event
    (he : s.event? = some e) :
    s.stop = none ∧ e.Enabled s := by
  cases hstop : s.stop with
  | some x =>
      rw [State.event?, hstop] at he
      cases he
  | none =>
      refine ⟨rfl, ?_⟩
      cases hcurrent : s.current with
      | none =>
          rw [State.event?, hstop, hcurrent] at he
          by_cases hw : s.waiter.point = .initial
          · obtain rfl : .start = e := by simpa [hw] using he
            exact hcurrent
          · simp [hw] at he
      | some h =>
          cases h with
          | syncWait =>
              rw [State.event?, hstop, hcurrent] at he
              cases hw : s.waiter.point <;>
                simp only [State.waiterEvent?, hw, Option.some.injEq, reduceCtorEq] at he
              · subst he
                exact Or.inl ⟨rfl, rfl, hcurrent⟩
              · subst he
                exact Or.inl ⟨rfl, hcurrent⟩
          | task c =>
              rw [event?_task s c hstop hcurrent] at he
              obtain rfl := Option.some.inj he
              exact enabled_eventOf hcurrent

/-- No coroutine returns to `initial_suspend`, and new ones start there. -/
structure Ordered (tr : List Event) (s : State σ V E) : Prop where
  root : 0 < s.allocated
  begun : ∀ c, .begin c ∈ tr → ¬ (s.frame c).Fresh ∧ c < s.allocated
  running : ∀ c, s.current = some (.task c) → c < s.allocated ∧
    ((s.frame c).Fresh → ∃ h, .await h c ∈ tr)
  continuation : ∀ g c, g < s.allocated →
    (s.frame g).continuation = some (.task c) →
      c < s.allocated ∧ ¬ (s.frame c).Fresh
  holds : ∀ c d, c < s.allocated → (s.frame c).point.Holds d → d < s.allocated
  empty : ∀ c, (s.frame c).Fresh → (s.frame c).value = .nothing

variable {tr : List Event} {c : Nat}

/-- The running coroutine goes on with its own body. -/
theorem Ordered.goesOn
    {s' : State σ V E} {f : Frame σ V E}
    (hs : Ordered tr s)
    (hcurrent : s.current = some (.task c))
    (hframe : s'.frame = Function.update s.frame c f)
    (hcontinuation : f.continuation = (s.frame c).continuation)
    (hgoing : ¬ f.Fresh)
    (hholds : ∀ d, f.point.Holds d → (s.frame c).point.Holds d)
    (hallocated : s'.allocated = s.allocated)
    (hcurrent' : s'.current = s.current)
    (he : ∀ g, .begin g = e → g = c) :
    Ordered (tr ++ [e]) s' := by
  have hlt := (hs.running c hcurrent).1
  have hself : s'.frame c = f := by simp [hframe]
  have hother : ∀ g, g ≠ c → s'.frame g = s.frame g := by
    intro g hg
    simp [hframe, hg]
  have hfresh : ∀ g, (s'.frame g).Fresh → g ≠ c ∧ (s.frame g).Fresh := by
    intro g hg
    by_cases hgc : g = c
    · subst hgc
      rw [hself] at hg
      exact absurd hg hgoing
    · rw [hother g hgc] at hg
      exact ⟨hgc, hg⟩
  constructor
  · rw [hallocated]
    exact hs.root
  · intro g hg
    rw [hallocated]
    rcases List.mem_append.mp hg with hold | hnew
    · obtain ⟨hnot, hg⟩ := hs.begun g hold
      exact ⟨fun h => hnot (hfresh g h).2, hg⟩
    · obtain rfl := he g (List.mem_singleton.mp hnew)
      rw [hself]
      exact ⟨hgoing, hlt⟩
  · intro g hg
    rw [hcurrent'] at hg
    rw [hallocated]
    obtain ⟨hg, hawaited⟩ := hs.running g hg
    refine ⟨hg, fun h => ?_⟩
    obtain ⟨b, hb⟩ := hawaited (hfresh g h).2
    exact ⟨b, List.mem_append_left _ hb⟩
  · intro g b hg hb
    rw [hallocated] at hg ⊢
    have hb' : (s.frame g).continuation = some (.task b) := by
      by_cases hgc : g = c
      · subst hgc
        rwa [hself, hcontinuation] at hb
      · rwa [hother g hgc] at hb
    obtain ⟨hlt, hnot⟩ := hs.continuation g b hg hb'
    exact ⟨hlt, fun h => hnot (hfresh b h).2⟩
  · intro g d hg hd
    rw [hallocated] at hg ⊢
    by_cases hgc : g = c
    · subst hgc
      rw [hself] at hd
      exact hs.holds g d hg (hholds d hd)
    · rw [hother g hgc] at hd
      exact hs.holds g d hg hd
  · intro g hg
    obtain ⟨hgc, hg⟩ := hfresh g hg
    rw [hother g hgc]
    exact hs.empty g hg

/-- Control passes to a coroutine that has begun or has been awaited. -/
theorem Ordered.control
    {s' : State σ V E}
    (hs : Ordered tr s)
    (hframe : s'.frame = s.frame)
    (hallocated : s'.allocated = s.allocated)
    (hrunning : ∀ c, s'.current = some (.task c) → c < s.allocated ∧
      ((s.frame c).Fresh → ∃ h, .await h c ∈ tr ++ [e]))
    (he : ∀ g, .begin g ≠ e) :
    Ordered (tr ++ [e]) s' := by
  constructor
  · rw [hallocated]
    exact hs.root
  · intro g hg
    rw [hframe, hallocated]
    rcases List.mem_append.mp hg with hold | hnew
    · exact hs.begun g hold
    · exact absurd (List.mem_singleton.mp hnew) (he g)
  · intro g hg
    rw [hframe, hallocated]
    exact hrunning g hg
  · rw [hframe, hallocated]
    exact hs.continuation
  · rw [hframe, hallocated]
    exact hs.holds
  · rw [hframe]
    exact hs.empty

/-- The running coroutine is at another point of its body. -/
theorem Ordered.setPoint
    {n : Nat} {p : Program σ V E n} {tasks : Fin n → Nat} {q : Point σ V E} {x : σ}
    (hs : Ordered tr s)
    (hruns : s.Runs c p tasks)
    (hfresh : ∀ q', q ≠ .initial q')
    (hholds : ∀ d, q.Holds d → ∃ y, tasks y = d)
    (he : ∀ g, .begin g ≠ e) :
    Ordered (tr ++ [e]) { s.setPoint c q with store := x } := by
  obtain ⟨hcurrent, hpoint⟩ := hruns
  refine hs.goesOn (c := c) hcurrent rfl rfl ?_ ?_ rfl rfl fun g hg => absurd hg (he g)
  · rintro ⟨q', hq⟩
    exact hfresh q' hq
  · intro d hd
    rw [hpoint]
    exact hholds d hd

/-- The new coroutine has no continuation, and nothing leads to it yet. -/
theorem Ordered.create
    {n : Nat} {kind : Kind} {child : Program σ V E 0} {p : Program σ V E (n + 1)}
    {tasks : Fin n → Nat}
    (hs : Ordered tr s)
    (hruns : s.Runs c (.create kind child p) tasks) :
    Ordered (tr ++ [.create c s.allocated]) (s.create c) := by
  obtain ⟨hcurrent, hpoint⟩ := hruns
  have hlt := (hs.running c hcurrent).1
  have hstate : s.create c =
      { (s.setPoint c (.body p (Fin.cons s.allocated tasks))).setFrame s.allocated
          (.new kind child) with
        allocated := s.allocated + 1 } :=
    create_of_point hpoint
  have hold : ∀ g, g ≠ s.allocated → g ≠ c →
      (s.create c).frame g = s.frame g := by
    intro g hg hgc
    rw [hstate]
    exact (setFrame_of_ne _ _ _ hg).trans (setPoint_of_ne _ _ _ hgc)
  have hself : (s.create c).frame c =
      { s.frame c with point := .body p (Fin.cons s.allocated tasks) } := by
    rw [hstate]
    exact (setFrame_of_ne _ _ _ (Nat.ne_of_lt hlt)).trans (setPoint_self s c _)
  have hnew : (s.create c).frame s.allocated = .new kind child := by
    rw [hstate]
    exact setFrame_self _ _ _
  have hallocated : (s.create c).allocated = s.allocated + 1 := by
    rw [hstate]
  have hfresh : ∀ g, g ≠ s.allocated →
      ((s.create c).frame g).Fresh → g ≠ c ∧ (s.frame g).Fresh := by
    intro g hg hf
    by_cases hgc : g = c
    · subst hgc
      rw [hself] at hf
      obtain ⟨p, hp⟩ := hf
      cases hp
    · rw [hold g hg hgc] at hf
      exact ⟨hgc, hf⟩
  constructor
  · rw [hallocated]
    exact Nat.succ_pos _
  · intro g hg
    have hg : .begin g ∈ tr := by simpa using hg
    obtain ⟨hnot, hg⟩ := hs.begun g hg
    rw [hallocated]
    exact ⟨fun h => hnot (hfresh g (Nat.ne_of_lt hg) h).2, Nat.lt_succ_of_lt hg⟩
  · intro g hg
    have hg : s.current = some (.task g) := by
      rw [hstate] at hg
      exact hg
    obtain ⟨hg, hawaited⟩ := hs.running g hg
    rw [hallocated]
    refine ⟨Nat.lt_succ_of_lt hg, fun h => ?_⟩
    obtain ⟨b, hb⟩ := hawaited (hfresh g (Nat.ne_of_lt hg) h).2
    exact ⟨b, List.mem_append_left _ hb⟩
  · intro g b hg hb
    rw [hallocated] at hg ⊢
    rcases Nat.lt_succ_iff_lt_or_eq.mp hg with hg | rfl
    · have hb' : (s.frame g).continuation = some (.task b) := by
        by_cases hgc : g = c
        · subst hgc
          rwa [hself] at hb
        · rwa [hold g (Nat.ne_of_lt hg) hgc] at hb
      obtain ⟨hlt, hnot⟩ := hs.continuation g b hg hb'
      exact ⟨Nat.lt_succ_of_lt hlt, fun h => hnot (hfresh b (Nat.ne_of_lt hlt) h).2⟩
    · rw [hnew] at hb
      cases hb
  · intro g d hg hd
    rw [hallocated] at hg ⊢
    rcases Nat.lt_succ_iff_lt_or_eq.mp hg with hg | rfl
    · by_cases hgc : g = c
      · subst hgc
        rw [hself] at hd
        obtain ⟨y, rfl⟩ := hd
        -- The body holds the new coroutine and those that it held before.
        refine Fin.cases (Nat.lt_succ_self _) (fun y => ?_) y
        refine Nat.lt_succ_of_lt (hs.holds g _ hg ?_)
        rw [hpoint]
        exact ⟨y, rfl⟩
      · rw [hold g (Nat.ne_of_lt hg) hgc] at hd
        exact Nat.lt_succ_of_lt (hs.holds g d hg hd)
    · rw [hnew] at hd
      exact hd.elim
  · intro g hg
    by_cases hga : g = s.allocated
    · subst hga
      rw [hnew]
      rfl
    · obtain ⟨hgc, hg⟩ := hfresh g hga hg
      rw [hold g hga hgc]
      exact hs.empty g hg

/-- The transfer of `await_suspend`. -/
theorem Ordered.transfer
    {h : Handle} {d : Nat}
    (hs : Ordered tr s)
    (hawait : .await h d ∈ tr)
    (hd : d < s.allocated)
    (hh : ∀ c, h = .task c → c < s.allocated ∧ ¬ (s.frame c).Fresh) :
    Ordered tr
      { s.setFrame d { s.frame d with continuation := some h } with
        current := some (.task d) } := by
  have hpoint : ∀ g,
      ((s.setFrame d { s.frame d with continuation := some h }).frame g).point =
        (s.frame g).point ∧
      ((s.setFrame d { s.frame d with continuation := some h }).frame g).value =
        (s.frame g).value := by
    intro g
    by_cases hg : g = d
    · subst hg
      simp
    · simp [setFrame_of_ne _ _ _ hg]
  have hfresh : ∀ g,
      ((s.setFrame d { s.frame d with continuation := some h }).frame g).Fresh →
        (s.frame g).Fresh := by
    intro g hf
    obtain ⟨p, hp⟩ := hf
    exact ⟨p, (hpoint g).1.symm.trans hp⟩
  constructor
  · exact hs.root
  · intro g hg
    exact ⟨fun h => (hs.begun g hg).1 (hfresh g h), (hs.begun g hg).2⟩
  · intro g hg
    obtain rfl : d = g := by simpa using hg
    exact ⟨hd, fun _ => ⟨h, hawait⟩⟩
  · intro g b hg hb
    by_cases hgd : g = d
    · subst hgd
      obtain rfl : h = .task b := by simpa using hb
      exact ⟨(hh b rfl).1, fun hf => (hh b rfl).2 (hfresh b hf)⟩
    · have hb' : (s.frame g).continuation = some (.task b) :=
        (congrArg Frame.continuation (setFrame_of_ne s d _ hgd)).symm.trans hb
      obtain ⟨hlt, hnot⟩ := hs.continuation g b hg hb'
      exact ⟨hlt, fun hf => hnot (hfresh b hf)⟩
  · intro g d' hg hd'
    exact hs.holds g d' hg ((hpoint g).1 ▸ hd')
  · intro g hg
    exact (hpoint g).2.trans (hs.empty g (hfresh g hg))

/-- `await_ready`, and the transfer if it does not hold. -/
theorem Ordered.await
    {h : Handle} {d : Nat}
    (hs : Ordered tr s)
    (henabled : (Event.await h d).Enabled s) :
    Ordered (tr ++ [.await h d]) (s.await h d) := by
  have hsuspend : Ordered (tr ++ [.await h d]) (s.suspend h) ∧
      d < (s.suspend h).allocated ∧
      ∀ c, h = .task c →
        c < (s.suspend h).allocated ∧ ¬ ((s.suspend h).frame c).Fresh := by
    rcases henabled with ⟨rfl, rfl, hcurrent⟩ | ⟨c, n, x, k, h', tasks, rfl, rfl, hruns⟩
    · refine ⟨hs.control rfl rfl ?_ (by simp), hs.root, by simp⟩
      intro c hc
      exact absurd (hcurrent.symm.trans hc) (by simp)
    · have hlt := (hs.running c hruns.1).1
      rw [suspend_of_point hruns.2]
      refine ⟨hs.setPoint (x := s.store) hruns Point.awaiting_ne_initial (fun _ hd => hd) (by simp),
        hs.holds c (tasks x) hlt ?_, ?_⟩
      · rw [hruns.2]
        exact ⟨x, rfl⟩
      · intro c' hc'
        obtain rfl : c = c' := by simpa using hc'
        refine ⟨hlt, fun hf => ?_⟩
        obtain ⟨p, hp⟩ := hf
        simp at hp
  obtain ⟨hordered, hd, hh⟩ := hsuspend
  cases hdone : (s.frame d).done with
  | true =>
      simpa [State.await, hdone] using hordered
  | false =>
      simpa [State.await, hdone] using
        hordered.transfer (by simp) hd hh

theorem returnValue_ok
    {f f' : Frame σ V E} {o : Operand V E}
    (h : f.returnValue o = .ok f') :
    f'.point = .final ∧ f'.continuation = f.continuation := by
  rw [Frame.returnValue] at h
  split at h
  · cases h
    exact ⟨rfl, rfl⟩
  · cases h
    exact ⟨rfl, rfl⟩
  · cases h
  · split at h
    · cases h
    · cases h
      exact ⟨rfl, rfl⟩
  · cases h

/-- A `co_return` that does not stop the program ends the coroutine. -/
theorem coReturn_ok
    {f f' : Frame σ V E} {o : Operand V E}
    (h : f.coReturn o = .ok f') :
    f'.point = .final ∧ f'.continuation = f.continuation := by
  rw [Frame.coReturn] at h
  split at h
  · exact returnValue_ok h
  · cases h
    exact ⟨rfl, rfl⟩

/-- The running coroutine ends, or the program does. -/
theorem Ordered.finish
    (hs : Ordered tr s)
    (henabled : (Event.finish c).Enabled s) :
    Ordered (tr ++ [.finish c]) (s.finish c) := by
  have hfinal : ∀ f : Frame σ V E, s.current = some (.task c) → f.point = .final →
      f.continuation = (s.frame c).continuation →
        Ordered (tr ++ [.finish c]) (s.setFrame c f) := by
    intro f hcurrent hpoint hcontinuation
    refine hs.goesOn (c := c) hcurrent rfl hcontinuation ?_ ?_ rfl rfl (by simp)
    · rintro ⟨p, hp⟩
      rw [hpoint] at hp
      cases hp
    · intro d hd
      rw [hpoint] at hd
      exact hd.elim
  rcases henabled with ⟨n, o, tasks, hcurrent, hpoint⟩ | ⟨n, x, tasks, hcurrent, hpoint⟩
  · cases ho : (s.frame c).coReturn o with
    | ok f =>
        obtain ⟨hpoint', hcontinuation⟩ := coReturn_ok ho
        rw [finish_of_coReturn hpoint ho]
        exact hfinal f hcurrent hpoint' hcontinuation
    | error e =>
        rw [finish_of_stop hpoint ho]
        refine hs.control rfl rfl ?_ (by simp)
        intro d hd
        obtain ⟨hlt, hawaited⟩ := hs.running d hd
        refine ⟨hlt, fun h => ?_⟩
        obtain ⟨b, hb⟩ := hawaited h
        exact ⟨b, List.mem_append_left _ hb⟩
  · rw [finish_of_throw hpoint]
    exact hfinal _ hcurrent rfl rfl

variable [Inhabited V]

theorem Ordered.step
    (hs : Ordered tr s)
    (he : s.event? = some e) :
    Ordered (tr ++ [e]) (s.next e) := by
  have henabled := (enabled_of_event he).2
  cases e with
  | start =>
      exact hs.control rfl rfl (by simp [State.next]) (by simp)
  | create c d =>
      obtain ⟨rfl, n, kind, child, p, tasks, hruns⟩ := henabled
      exact hs.create hruns
  | await h d =>
      exact hs.await henabled
  | begin c =>
      obtain ⟨hcurrent, p, hpoint⟩ := henabled
      change Ordered _ (s.begin c)
      rw [begin_of_point hpoint]
      refine hs.goesOn (c := c) hcurrent rfl rfl ?_ ?_ rfl rfl (by simp)
      · rintro ⟨q, hq⟩
        cases hq
      · rintro d ⟨x, -⟩
        exact x.elim0
  | act c =>
      obtain ⟨n, f, k, tasks, hruns⟩ := henabled
      change Ordered _ (s.act c)
      rw [act_of_point hruns.2]
      exact hs.setPoint hruns Point.body_ne_initial (fun _ hd => hd) (by simp)
  | leave c d =>
      obtain ⟨n, p, tasks, hruns⟩ := henabled
      change Ordered _ (s.leave c)
      rw [leave_of_point hruns.2]
      refine hs.setPoint (x := s.store) hruns Point.body_ne_initial ?_ (by simp)
      rintro d ⟨y, hy⟩
      exact ⟨y.succ, hy⟩
  | finish c =>
      exact hs.finish henabled
  | finalSuspend c =>
      obtain ⟨hcurrent, hpoint⟩ := henabled
      refine hs.control rfl rfl ?_ (by simp)
      intro d hd
      obtain ⟨hlt, hnot⟩ := hs.continuation c d (hs.running c hcurrent).1 hd
      exact ⟨hlt, fun hf => absurd hf hnot⟩
  | resume h d =>
      rcases henabled with ⟨rfl, hcurrent⟩ | ⟨c, n, x, k, h', tasks, rfl, rfl, hcurrent, hpoint⟩
      · have hstate : (s.next (.resume .syncWait d)).frame = s.frame ∧
            (s.next (.resume .syncWait d)).allocated = s.allocated ∧
            (s.next (.resume .syncWait d)).current = none := by
          cases hr : (s.frame d).result <;> cases hk : (s.frame d).kind <;>
            simp [State.next, State.resume, State.outcome, hr, hk]
        obtain ⟨hframe, hallocated, hnone⟩ := hstate
        exact hs.control hframe hallocated (by simp [hnone]) (by simp)
      · change Ordered _ (s.resume (.task c) (tasks x))
        rw [resume_of_point hpoint]
        refine hs.goesOn (c := c) hcurrent rfl rfl ?_ ?_ rfl rfl (by simp)
        · rintro ⟨q, hq⟩
          simp at hq
        · intro d hd
          rw [hpoint]
          exact hd

variable {kind : Kind} {root : Program σ V E 0} {st : σ}

theorem ordered_of_run
    (hrun : (syncWait kind root st).Run tr s) :
    Ordered tr s := by
  refine hrun.invariant (I := Ordered) ?_ fun tr s e _ hI he => hI.step he
  intro s hs
  obtain rfl : s = start kind root st := hs
  refine ⟨Nat.one_pos, by simp, by simp [start], by simp [start, Frame.new], ?_, ?_⟩
  · intro c d _ hd
    exact hd.elim
  · exact fun _ _ => rfl

/-- The body whose start an event is. -/
def Event.begin? : Event → Option Nat
  | .begin c => some c
  | _ => none

/-- A body starts only after its `Task` has been awaited. -/
def AwaitedBefore (past : List Event) (e : Event) : Prop :=
  ∀ c, e = .begin c → ∃ h, .await h c ∈ past

theorem event_begin?_eq_some {e : Event} {c : Nat} :
    e.begin? = some c ↔ e = .begin c := by
  cases e <;> simp [Event.begin?]

theorem awaitedBefore_of_run
    (hrun : (syncWait kind root st).Run tr s) :
    System.History AwaitedBefore tr := by
  refine hrun.history ?_
  intro tr s e hrun he c hc
  subst hc
  obtain ⟨-, hcurrent, hfresh⟩ := enabled_of_event he
  exact ((ordered_of_run hrun).running c hcurrent).2 hfresh

theorem begin_nodup_of_run
    (hrun : (syncWait kind root st).Run tr s) :
    (tr.filterMap Event.begin?).Nodup := by
  refine hrun.invariant
    (I := fun tr _ => (tr.filterMap Event.begin?).Nodup)
    (fun _ _ => List.nodup_nil) ?_
  intro tr s e hrun hI he
  rw [filterMap_append_singleton]
  cases hbegin : e.begin? with
  | none =>
      simpa using hI
  | some c =>
      obtain rfl := event_begin?_eq_some.mp hbegin
      obtain ⟨-, hcurrent, hfresh⟩ := enabled_of_event he
      have hnew : c ∉ tr.filterMap Event.begin? := by
        intro hc
        obtain ⟨e, he, hec⟩ := List.mem_filterMap.mp hc
        obtain rfl := event_begin?_eq_some.mp hec
        exact ((ordered_of_run hrun).begun c he).1 hfresh
      rw [Option.toList_some, List.nodup_append]
      refine ⟨hI, by simp, ?_⟩
      intro a ha b hb hab
      obtain rfl := List.mem_singleton.mp hb
      exact hnew (hab ▸ ha)

omit [Inhabited V] in
theorem ne_of_final
    {b : Nat}
    (hfinal : (s.frame c).point = .final)
    (hdone : (s.frame b).done = false) :
    c ≠ b := by
  rintro rfl
  rw [Frame.done, hfinal] at hdone
  cases hdone

omit [Inhabited V] in
theorem ne_of_runs
    {b n : Nat} {p : Program σ V E n} {tasks : Fin n → Nat}
    (hruns : s.Runs b p tasks)
    (hfinal : (s.frame c).point = .final) :
    c ≠ b :=
  ne_of_final hfinal (by rw [Frame.done, hruns.2])

/-- No step changes the frame of a coroutine that has ended. -/
theorem frame_next_of_final
    (he : s.event? = some e)
    (hfinal : (s.frame c).point = .final)
    (hlt : c < s.allocated) :
    (s.next e).frame c = s.frame c ∧ c < (s.next e).allocated := by
  have henabled := (enabled_of_event he).2
  cases e with
  | start =>
      exact ⟨rfl, hlt⟩
  | create b d =>
      obtain ⟨rfl, n, kind, child, p, tasks, hruns⟩ := henabled
      change (s.create b).frame c = s.frame c ∧ c < (s.create b).allocated
      rw [create_of_point hruns.2]
      exact ⟨(setFrame_of_ne _ _ _ (Nat.ne_of_lt hlt)).trans
        (setPoint_of_ne s b _ (ne_of_runs hruns hfinal)), Nat.lt_succ_of_lt hlt⟩
  | await h d =>
      have hsuspend : (s.suspend h).frame c = s.frame c ∧
          (s.suspend h).allocated = s.allocated := by
        rcases henabled with ⟨rfl, -⟩ | ⟨b, n, x, k, h', tasks, rfl, -, hruns⟩
        · exact ⟨rfl, rfl⟩
        · rw [suspend_of_point hruns.2]
          exact ⟨setPoint_of_ne s b _ (ne_of_runs hruns hfinal), rfl⟩
      change (s.await h d).frame c = s.frame c ∧ c < (s.await h d).allocated
      cases hdone : (s.frame d).done with
      | true =>
          simp only [State.await, hdone, if_true, hsuspend]
          exact ⟨trivial, hlt⟩
      | false =>
          have hcd : c ≠ d := ne_of_final hfinal hdone
          simp only [State.await, hdone, Bool.false_eq_true, if_false, setFrame_allocated,
            hsuspend, setFrame_of_ne _ _ _ hcd]
          exact ⟨trivial, hlt⟩
  | begin b =>
      obtain ⟨-, p, hpoint⟩ := henabled
      have hcb : c ≠ b := ne_of_final hfinal (by rw [Frame.done, hpoint])
      change (s.begin b).frame c = s.frame c ∧ c < (s.begin b).allocated
      rw [begin_of_point hpoint]
      exact ⟨setPoint_of_ne s b _ hcb, hlt⟩
  | act b =>
      obtain ⟨n, f, k, tasks, hruns⟩ := henabled
      change (s.act b).frame c = s.frame c ∧ c < (s.act b).allocated
      rw [act_of_point hruns.2]
      exact ⟨setPoint_of_ne s b _ (ne_of_runs hruns hfinal), hlt⟩
  | leave b d =>
      obtain ⟨n, p, tasks, hruns⟩ := henabled
      change (s.leave b).frame c = s.frame c ∧ c < (s.leave b).allocated
      rw [leave_of_point hruns.2]
      exact ⟨setPoint_of_ne s b _ (ne_of_runs hruns hfinal), hlt⟩
  | finish b =>
      change (s.finish b).frame c = s.frame c ∧ c < (s.finish b).allocated
      rcases henabled with ⟨n, o, tasks, hruns⟩ | ⟨n, x, tasks, hruns⟩
      · cases ho : (s.frame b).coReturn o with
        | ok f =>
            rw [finish_of_coReturn hruns.2 ho]
            exact ⟨setFrame_of_ne s b f (ne_of_runs hruns hfinal), hlt⟩
        | error x =>
            rw [finish_of_stop hruns.2 ho]
            exact ⟨rfl, hlt⟩
      · rw [finish_of_throw hruns.2]
        exact ⟨setFrame_of_ne s b _ (ne_of_runs hruns hfinal), hlt⟩
  | finalSuspend b =>
      exact ⟨rfl, hlt⟩
  | resume h d =>
      rcases henabled with ⟨rfl, -⟩ | ⟨b, n, x, k, h', tasks, rfl, rfl, -, hpoint⟩
      · cases hr : (s.frame d).result <;> cases hk : (s.frame d).kind <;>
          simp [State.next, State.resume, State.outcome, hr, hk, hlt]
      · have hcb : c ≠ b := ne_of_final hfinal (by rw [Frame.done, hpoint])
        change (s.resume (.task b) (tasks x)).frame c = s.frame c ∧
          c < (s.resume (.task b) (tasks x)).allocated
        rw [resume_of_point hpoint]
        exact ⟨setPoint_of_ne s b _ hcb, hlt⟩

/-- The frame of a coroutine that has ended stays what it is. -/
theorem frame_of_final
    {es : List Event} {s' : State σ V E}
    (hrun : (syncWait kind root st).Run tr s)
    (hrun' : (syncWait kind root st).Run (tr ++ es) s')
    (hfinal : (s.frame c).point = .final)
    (hlt : c < s.allocated) :
    s'.frame c = s.frame c := by
  have hboth : s'.frame c = s.frame c ∧ c < s'.allocated := by
    induction es using List.reverseRecOn generalizing s' with
    | nil =>
        rw [List.append_nil] at hrun'
        obtain rfl : s' = s :=
          (hrun'.eq_exec fun _ hs => hs).trans (hrun.eq_exec fun _ hs => hs).symm
        exact ⟨rfl, hlt⟩
    | append_singleton es e ih =>
        rw [← List.append_assoc] at hrun'
        obtain ⟨s₁, hrun₁, ⟨he, -⟩, rfl⟩ := hrun'.split
        obtain ⟨hframe, hlt₁⟩ := ih hrun₁
        obtain ⟨hnext, hlt₂⟩ := frame_next_of_final he (hframe ▸ hfinal) hlt₁
        exact ⟨hnext.trans hframe, hlt₂⟩
  exact hboth.1

end Starts

end SyncWait
end Ptl

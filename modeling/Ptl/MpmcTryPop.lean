import Ptl.MpmcInterference

/-!
# The answer of `try_pop`

A call of `try_pop` is cut out of a run: it starts with the step `callTryPop` of a
thread and ends with the first step that makes this thread idle again.  In between,
all other threads may take any steps.

Until the compare-exchange on `tail_` succeeds, the call only reads.  A ticket that
was read from `tail_`, whose slot was found not to be ready, and that is read from
`tail_` again was the ticket of `tail_` all the time, because `tail_` only grows.

**Results.**
* `InCall.own`, `InCall.other`: what a call has done at each of its control points.
* `try_pop_justified`: the answer is false only if at some instant of the call the
  ticket of `tail_` had no published element, and then the call has changed nothing;
  it is true only after one successful compare-exchange and the steps that take the
  element published for its ticket.
-/

namespace Ptl
namespace Mpmc

open Transition

universe u v

variable {ι : Type u} {V : Type v}
variable {size : SizeT}

/-- The steps of `try_pop` that only read. -/
def Event.Probe : Event ι V → Prop
  | .tryPopLoad _ _ => True
  | .tryPopSeen _ _ => True
  | .tryPopMissed _ _ => True
  | .tryPopCasFail _ _ _ => True
  | .tryPopRetry _ _ _ => True
  | .tryPopFalse _ _ => True
  | _ => False

/-- What a call of `try_pop` returns with its last step. -/
def Event.tryPopAnswer? : Event ι V → Option Bool
  | .tryPopFalse _ _ => some false
  | .popRelease _ _ => some true
  | _ => none

/-- The owner of ticket `t` of `head_` has released its element. -/
def Published (tr : List (Event ι V)) (t : SizeT) (v : V) : Prop :=
  ∃ j, .emplaceTicket j t v ∈ tr ∧ .emplaceRelease j t v ∈ tr

section Calls

variable [DecidableEq ι]

/-- The queue after a trace. -/
def queueAfter (size : SizeT) (tr : List (Event ι V)) : Queue V :=
  ((queue size).exec start tr).shared

/-- At this moment the ticket of `tail_` is `t` and the element `v` is published for it. -/
def Ready (size : SizeT) (tr : List (Event ι V)) (t : SizeT) (v : V) : Prop :=
  t = (queueAfter size tr).tail ∧ Published tr t v

/-- At this moment the element for the ticket of `tail_` is not published. -/
def NotReady (size : SizeT) (tr : List (Event ι V)) : Prop :=
  ∀ j v, .emplaceRelease j (queueAfter size tr).tail v ∉ tr

/--
A call that answered false: at some instant the element for the ticket of `tail_` was
not published, and no step of the call changed the queue or assigned to `v`.
-/
structure JustifiedFalse
    (size : SizeT) (pre mid : List (Event ι V)) (i : ι) (e : Event ι V) : Prop where
  instant : Once (fun m => NotReady size (pre ++ m)) mid
  unchanged : (program size).Only
    (fun f => (∀ q : Queue V, f.effect size q = q) ∧ ∀ t x, f ≠ .move i t x) i (mid ++ [e])

/--
A call that answered true: one compare-exchange took the ticket of `tail_`, whose
element was published, and the call moved this element out.
-/
def JustifiedTrue
    (size : SizeT) (pre mid : List (Event ι V)) (i : ι) (e : Event ι V) : Prop :=
  ∃ t v, (program size).Decided Event.Probe (fun m => Ready size (pre ++ m) t v) i
    (.tryPopCas i t) [.move i t (some v), .destruct i t, .popRelease i t] (mid ++ [e])

/-- A call that missed: the slot of a ticket at most that of `tail_` was not ready. -/
def Missed (size : SizeT) (pre m : List (Event ι V)) (t : SizeT) : Prop :=
  Once (fun m₁ => t.toNat ≤ (queueAfter size (pre ++ m₁)).tail.toNat ∧
    releaseTurn size t ≠ ((queueAfter size (pre ++ m₁)).slotOf size t).sequence) m

/-- The steps of the call so far only read. -/
abbrev Probed (size : SizeT) (i : ι) (m : List (Event ι V)) : Prop :=
  (program size).Only Event.Probe i m

/-- A call that won ticket `t` with the element `v` and has done the steps `ops` since. -/
abbrev Won (size : SizeT) (pre : List (Event ι V)) (i : ι) (t : SizeT) (v : V)
    (ops m : List (Event ι V)) : Prop :=
  (program size).Decided Event.Probe (fun m => Ready size (pre ++ m) t v) i
    (.tryPopCas i t) ops m

/-- What a call of `try_pop` has done, by its control point. -/
def InCall (size : SizeT) (pre m : List (Event ι V)) (i : ι) : Pc V → Prop
  | .tryPopBegin => Probed size i m
  | .tryPopCheck _ => Probed size i m
  | .tryPopCas _ => Probed size i m
  | .tryPopReload t => Probed size i m ∧ Missed size pre m t
  | .popMove t => ∃ v, Won size pre i t v [] m
  | .popDestruct t => ∃ v, Won size pre i t v [.move i t (some v)] m
  | .popRelease t => ∃ v, Won size pre i t v [.move i t (some v), .destruct i t] m
  | _ => False

end Calls

section Probing

variable {i : ι} {m : List (Event ι V)} {e : Event ι V}

theorem Event.Probe.unchanged
    (h : e.Probe) :
    (∀ q : Queue V, e.effect size q = q) ∧ ∀ t x, e ≠ .move i t x := by
  cases e <;> first | exact h.elim | exact ⟨fun _ => rfl, by simp⟩

end Probing

section Runs

variable [DecidableEq ι]
variable {tr es fs pre m : List (Event ι V)} {s : Config ι (Pc V) (Queue V)}
variable {i : ι} {e : Event ι V} {t : SizeT} {v : V}

/-- `tail_` only grows. -/
theorem tail_le_queueAfter
    (hrun : (queue size).Run (es ++ fs) s)
    (hfew : FewTickets (es ++ fs)) :
    (queueAfter size es).tail.toNat ≤ (queueAfter size (es ++ fs)).tail.toNat := by
  rw [queueAfter, queueAfter, ← run_eq_exec hrun]
  refine System.Run.le_of_append (B := FewTickets) (fun s => s.shared.tail.toNat)
    (fun s hs => run_eq_exec (.start hs)) (fun _ _ => FewTickets.of_append) ?_ hrun hfew
  rintro tr s e hrun₀ hfew₀ ⟨-, hcheck⟩
  rcases tail_le_effect (outline_of_run hrun₀ hfew₀).1 hfew₀ hcheck with heq | hsucc
  · exact Nat.le_of_eq (congrArg BitVec.toNat heq).symm
  · exact Nat.le_of_succ_le (Nat.le_of_eq hsucc.symm)

/-- A published element is the one of the ticket. -/
theorem emplaceTicket_of_emplaceRelease
    {j : ι}
    (hrun : (queue size).Run tr s)
    (hfew : FewTickets tr)
    (h : Event.emplaceRelease j t v ∈ tr) :
    Event.emplaceTicket j t v ∈ tr := by
  obtain ⟨es, fs, rfl⟩ := List.append_of_mem h
  obtain ⟨-, ⟨howner, -⟩, -⟩ := outline_before hrun hfew
  exact List.mem_append_left _ howner

theorem published_of_stage
    (hrun : (queue size).Run tr s)
    (hfew : FewTickets tr)
    (hstage : 2 ≤ stage tr t) :
    ∃ v, Published tr t v := by
  obtain ⟨hglobal, -⟩ := outline_of_run hrun hfew
  obtain ⟨e, he, hslot, hrank⟩ :=
    (hglobal.slot t).exists_of_le_stage (k := 2) (by omega) hstage
  cases e <;> simp [Event.rank] at hrank
  case emplaceRelease j t' v =>
    obtain rfl : t' = t := Option.some.inj hslot
    exact ⟨v, j, emplaceTicket_of_emplaceRelease hrun hfew he, he⟩

/-- The slot of the ticket of `tail_` was not ready: its element is not published. -/
theorem not_published_of_missed
    (hrun : (queue size).Run tr s)
    (hfew : FewTickets tr)
    (hmissed : releaseTurn size s.shared.tail ≠
      (s.shared.slotOf size s.shared.tail).sequence)
    (j : ι) (v : V) :
    Event.emplaceRelease j s.shared.tail v ∉ tr := by
  intro hmem
  obtain ⟨hglobal, -⟩ := outline_of_run hrun hfew
  have hrank : 2 ≤ stage tr s.shared.tail :=
    (hglobal.slot s.shared.tail).rank_le_stage hmem rfl
  have hle := hglobal.stage_le_two_of_tail_le (Nat.le_refl s.shared.tail.toNat)
  have hturn := hglobal.sequence_of_stage_two_to_four hrank (by omega)
  have hsmall := hglobal.tickets.tail_lt hfew
  have hround := round_le size s.shared.tail
  have hrelease : (releaseTurn size s.shared.tail).toNat =
      2 * round size s.shared.tail + 1 := releaseTurn_toNat (by omega)
  exact hmissed (BitVec.eq_of_toNat_eq (hrelease.trans hturn.symm))

end Runs

section Control

variable [DecidableEq ι]
variable {pre m mid es : List (Event ι V)} {s : Config ι (Pc V) (Queue V)}
variable {i : ι} {e : Event ι V} {t : SizeT} {v : V} {ops : List (Event ι V)} {p : Pc V}

/-- The steps of the other threads are not part of the call. -/
theorem InCall.other
    (h : InCall size pre m i p)
    (he : e.actor ≠ i) :
    InCall size pre (m ++ [e]) i p := by
  have hprobe : e.actor = i → e.Probe := fun heq => absurd heq he
  cases p with
  | tryPopBegin =>
      exact Program.Only.append h hprobe
  | tryPopCheck t =>
      exact Program.Only.append h hprobe
  | tryPopCas t =>
      exact Program.Only.append h hprobe
  | tryPopReload t =>
      exact ⟨h.1.append hprobe, h.2.append [e]⟩
  | popMove t =>
      obtain ⟨v, hv⟩ := h
      exact ⟨v, hv.other he⟩
  | popDestruct t =>
      obtain ⟨v, hv⟩ := h
      exact ⟨v, hv.other he⟩
  | popRelease t =>
      obtain ⟨v, hv⟩ := h
      exact ⟨v, hv.other he⟩
  | _ =>
      exact h.elim

/-- The exchange succeeds: the element of the ticket is published. -/
theorem won_of_cas
    (hrun : (queue size).Run (pre ++ m ++ [.tryPopCas i t]) s)
    (hfew : FewTickets (pre ++ m ++ [.tryPopCas i t]))
    (hprobed : Probed size i m) :
    ∃ v, Won size pre i t v [] (m ++ [.tryPopCas i t]) := by
  obtain ⟨hglobal, ⟨hle, hturn⟩, htail⟩ := outline_before hrun hfew
  obtain ⟨s₀, hrun₀, -, -⟩ := hrun.split
  have htail : t = ((queue size).exec start (pre ++ m)).shared.tail := htail
  have hstage : stage (pre ++ m) t = 2 :=
    hglobal.stage_eq_two (hturn htail)
      (hglobal.stage_le_two_of_tail_le (Nat.le_of_eq (congrArg BitVec.toNat htail).symm))
  obtain ⟨v, hv⟩ := published_of_stage hrun₀ (fewTickets_of_append hfew)
    (Nat.le_of_eq hstage.symm)
  exact ⟨v, hprobed.decided ⟨htail, hv⟩⟩

/-- The element that is moved out is the one that was published for the ticket. -/
theorem Won.moved
    {x : Option V}
    (hrun : (queue size).Run (pre ++ m ++ [.move i t x]) s)
    (hfew : FewTickets (pre ++ m ++ [.move i t x]))
    (h : Won size pre i t v [] m) :
    x = some v := by
  obtain ⟨hglobal, ⟨-, hstage⟩, hcheck⟩ := outline_before hrun hfew
  obtain ⟨j, w, hticket, -, hdata⟩ := (hglobal.slot t).filled (Or.inr hstage)
  obtain ⟨m₁, m₂, rfl, -, ⟨-, j', hticket', -⟩, -⟩ := h
  have hmem : Event.emplaceTicket j' t v ∈ pre ++ (m₁ ++ .tryPopCas i t :: m₂) := by
    rw [← List.append_assoc]
    exact List.mem_append_left _ hticket'
  obtain ⟨-, rfl⟩ := hglobal.tickets.emplaceOwner j j' t w v hticket hmem
  rw [show x = _ from hcheck, Slot.move_of_live hdata]

/-- A step of the call itself. -/
theorem InCall.own
    (hrun : (queue size).Run (pre ++ m ++ [e]) s)
    (hfew : FewTickets (pre ++ m ++ [e]))
    (h : InCall size pre m e.actor e.source)
    (htarget : e.target ≠ .idle) :
    InCall size pre (m ++ [e]) e.actor e.target := by
  cases e with
  | tryPopLoad i t =>
      exact Program.Only.append h fun _ => trivial
  | tryPopSeen i t =>
      exact Program.Only.append h fun _ => trivial
  | tryPopMissed i t =>
      obtain ⟨-, hle, hcheck⟩ := outline_before hrun hfew
      exact ⟨Program.Only.append h fun _ => trivial, Once.append (.now ⟨hle, hcheck⟩) [_]⟩
  | tryPopCas i t =>
      exact won_of_cas hrun hfew h
  | tryPopCasFail i t loaded =>
      exact Program.Only.append h fun _ => trivial
  | tryPopRetry i prevTicket loaded =>
      exact h.1.append fun _ => trivial
  | move i t x =>
      obtain ⟨v, hv⟩ := h
      obtain rfl := hv.moved hrun hfew
      exact ⟨v, hv.own rfl⟩
  | destruct i t =>
      obtain ⟨v, hv⟩ := h
      exact ⟨v, hv.own rfl⟩
  | popRelease i t =>
      exact absurd rfl htarget
  | tryPopFalse i prevTicket =>
      exact absurd rfl htarget
  | _ =>
      exact h.elim

end Control

section Answers

variable [DecidableEq ι]
variable {pre mid es : List (Event ι V)} {tr : List (Event ι V)}
variable {s : Config ι (Pc V) (Queue V)} {i : ι} {e : Event ι V} {t : SizeT}

/-- The answer false. -/
theorem justifiedFalse_of_missed
    (hrun : (queue size).Run (pre ++ mid ++ [.tryPopFalse i t]) s)
    (hfew : FewTickets (pre ++ mid ++ [.tryPopFalse i t]))
    (hprobed : Probed size i mid)
    (hmissed : Missed size pre mid t) :
    JustifiedFalse size pre mid i (.tryPopFalse i t) := by
  constructor
  · obtain ⟨m₁, ⟨m₂, rfl⟩, hle, hne⟩ := hmissed
    obtain ⟨-, -, hcheck⟩ := outline_before hrun hfew
    have hcheck : t = (queueAfter size (pre ++ (m₁ ++ m₂))).tail := hcheck
    rw [← List.append_assoc] at hcheck hrun hfew
    obtain ⟨s₁, hrun₁, -, -⟩ := hrun.split
    have hmono := tail_le_queueAfter hrun₁ (fewTickets_of_append hfew)
    -- `tail_` was the ticket when the slot was read
    have htail : t = (queueAfter size (pre ++ m₁)).tail := by
      apply BitVec.eq_of_toNat_eq
      rw [← hcheck] at hmono
      exact Nat.le_antisymm hle hmono
    obtain ⟨s₂, hrun₂, -, -⟩ := hrun₁.split
    have hs₂ : s₂.shared = queueAfter size (pre ++ m₁) :=
      congrArg Config.shared (run_eq_exec hrun₂)
    have hnot := not_published_of_missed hrun₂
      (fewTickets_of_append (fewTickets_of_append hfew))
    rw [hs₂] at hnot
    rw [htail] at hne
    exact ⟨m₁, List.prefix_append m₁ m₂, hnot hne⟩
  · have hlast : Event.Probe (.tryPopFalse i t : Event ι V) := trivial
    have hall := hprobed.append fun _ => hlast
    exact fun f hf hactor => (hall f hf hactor).unchanged

/--
Every call of `try_pop` that returns is justified in its answer: false only if the
element for the ticket of `tail_` was not published at some instant, with nothing
changed; true only after one exchange and the move of the published element.
-/
theorem try_pop_justified
    {mid : List (Event ι V)}
    (hrun : (queue size).Run tr s)
    (hfew : FewTickets tr)
    (hcall : (program size).Call .idle tr es mid (.callTryPop i) e) :
    (e.tryPopAnswer? = some false ∧
      JustifiedFalse size (es ++ [.callTryPop i]) mid i e) ∨
    (e.tryPopAnswer? = some true ∧
      JustifiedTrue size (es ++ [.callTryPop i]) mid i e) := by
  have hstart : InCall size (es ++ [.callTryPop i]) [] i .tryPopBegin :=
    fun f hf => absurd hf List.not_mem_nil
  obtain ⟨hin, s₁, hrun₁, hfew₁⟩ := hcall.run
    (B := FewTickets)
    (K := fun m p => InCall size (es ++ [Event.callTryPop i]) m i p)
    (fun _ _ => FewTickets.of_append) hstart (fun _ _ _ he h => h.other he) (by
      rintro m f s hrun hfew rfl htarget h
      exact h.own hrun hfew htarget) hrun hfew
  obtain ⟨-, hactor, hreturns, -⟩ := hcall
  obtain rfl : e.actor = i := hactor
  cases e with
  | tryPopFalse i t =>
      exact Or.inl ⟨rfl, justifiedFalse_of_missed hrun₁ hfew₁ hin.1 hin.2⟩
  | popRelease i t =>
      obtain ⟨v, hv⟩ := hin
      have hdone := hv.own (e := .popRelease i t) rfl
      exact Or.inr ⟨rfl, t, v, hdone⟩
  | emplaceRelease i t v =>
      exact hin.elim
  | _ =>
      simp [program, Event.target] at hreturns

/-- `try_pop` on an empty queue of one slot. -/
def probeEmpty : List (Event Bool Nat) :=
  [.callTryPop true, .tryPopLoad true 0, .tryPopMissed true 0, .tryPopFalse true 0]

theorem try_pop_justified_probeEmpty :
    JustifiedFalse 1 [.callTryPop true] [.tryPopLoad true 0, .tryPopMissed true 0] true
      (.tryPopFalse true 0 : Event Bool Nat) := by
  have hcall : (program 1).Call .idle probeEmpty []
      [.tryPopLoad true 0, .tryPopMissed true 0] (.callTryPop true) (.tryPopFalse true 0) :=
    ⟨⟨[], rfl⟩, rfl, rfl, by simp [program, Event.target]⟩
  rcases try_pop_justified (.of_enabled initial_start (by decide)) (by decide) hcall with
    ⟨-, h⟩ | ⟨h, -⟩
  · exact h
  · exact absurd h (by decide)

end Answers

end Mpmc
end Ptl

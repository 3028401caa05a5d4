import Ptl.MpmcAgreement

/-!
# The answer of `try_push`

`try_emplace` competes for the ticket of `head_` with a compare-exchange once it has
seen the slot of this ticket free.  Its steps are added to the program of the queue;
from the exchange on it takes the steps of `emplace`.  The source declares the ticket
of the loop `const`, so that no instantiation compiles; the loop is modelled with the
ticket assignable, as in `try_pop`.  Both overloads of `try_push` call `try_emplace`
and end without a return statement: their caller receives no value.

**Refinement.**  `tryQueue_refines`: for the queue a successful exchange is a call of
`emplace` that finds its slot ready, and the other steps of the loop are no steps at
all.  What is proved of the runs of `emplace`, `pop` and `try_pop` holds of the runs
with `try_emplace` as well.

**Results.**
* `try_emplace_tells`: the answer of `try_emplace` is right.
* `try_push_not_tells`: the caller of `try_push` never receives it.
-/

namespace Ptl
namespace Mpmc

open Transition

universe u v

/-- The functions whose calls run the loop of `try_emplace`. -/
inductive TryCall where
  | tryEmplace
  | tryPushCopy
  | tryPushForward
deriving DecidableEq

/-- What the caller receives when the loop has returned `answer`. -/
def TryCall.received? : TryCall → Bool → Option Bool
  | .tryEmplace, answer => some answer
  -- `try_emplace(v);` discards the answer, and the body ends without a return
  | .tryPushCopy, _ => none
  | .tryPushForward, _ => none

/-- Control points of the queue and of the loop of `try_emplace`. -/
inductive TryPc (V : Type v) where
  | base (p : Pc V)
  | tryEmplaceBegin (v : V)
  | tryEmplaceCheck (ticket : SizeT) (v : V)
  | tryEmplaceCas (ticket : SizeT) (v : V)
  | tryEmplaceReload (prevTicket : SizeT) (v : V)
deriving DecidableEq

/-- The steps of the queue and of the loop of `try_emplace`. -/
inductive TryEvent (ι : Type u) (V : Type v) where
  | base (e : Event ι V)
  | callTry (f : TryCall) (i : ι) (v : V)
  | tryEmplaceLoad (i : ι) (ticket : SizeT) (v : V)
  | tryEmplaceSeen (i : ι) (ticket : SizeT) (v : V)
  | tryEmplaceMissed (i : ι) (ticket : SizeT) (v : V)
  | tryEmplaceCas (i : ι) (ticket : SizeT) (v : V)
  | tryEmplaceCasFail (i : ι) (ticket loaded : SizeT) (v : V)
  | tryEmplaceRetry (i : ι) (prevTicket loaded : SizeT) (v : V)
  | tryEmplaceFalse (i : ι) (prevTicket : SizeT) (v : V)

namespace TryEvent

variable {ι : Type u} {V : Type v}

def actor : TryEvent ι V → ι
  | base e => e.actor
  | callTry _ i _ => i
  | tryEmplaceLoad i _ _ => i
  | tryEmplaceSeen i _ _ => i
  | tryEmplaceMissed i _ _ => i
  | tryEmplaceCas i _ _ => i
  | tryEmplaceCasFail i _ _ _ => i
  | tryEmplaceRetry i _ _ _ => i
  | tryEmplaceFalse i _ _ => i

def source : TryEvent ι V → TryPc V
  | base e => .base e.source
  | callTry _ _ _ => .base .idle
  | tryEmplaceLoad _ _ v => .tryEmplaceBegin v
  | tryEmplaceSeen _ t v => .tryEmplaceCheck t v
  | tryEmplaceMissed _ t v => .tryEmplaceCheck t v
  | tryEmplaceCas _ t v => .tryEmplaceCas t v
  | tryEmplaceCasFail _ t _ v => .tryEmplaceCas t v
  | tryEmplaceRetry _ prev _ v => .tryEmplaceReload prev v
  | tryEmplaceFalse _ prev v => .tryEmplaceReload prev v

def target : TryEvent ι V → TryPc V
  | base e => .base e.target
  | callTry _ _ v => .tryEmplaceBegin v
  | tryEmplaceLoad _ t v => .tryEmplaceCheck t v
  | tryEmplaceSeen _ t v => .tryEmplaceCas t v
  | tryEmplaceMissed _ t v => .tryEmplaceReload t v
  | tryEmplaceCas _ t v => .base (.emplaceConstruct t v)
  | tryEmplaceCasFail _ _ loaded v => .tryEmplaceCheck loaded v
  | tryEmplaceRetry _ _ loaded v => .tryEmplaceCheck loaded v
  | tryEmplaceFalse _ _ _ => .base .idle

/-- What a step reads from the shared memory, compared with the memory. -/
def check (size : SizeT) (q : Queue V) : TryEvent ι V → Prop
  | base e => e.check size q
  | callTry _ _ _ => True
  | tryEmplaceLoad _ t _ => t = q.head
  | tryEmplaceSeen _ t _ => acquireTurn size t = (q.slotOf size t).sequence
  | tryEmplaceMissed _ t _ => acquireTurn size t ≠ (q.slotOf size t).sequence
  | tryEmplaceCas _ t _ => t = q.head
  | tryEmplaceCasFail _ t loaded _ => loaded = q.head ∧ t ≠ q.head
  | tryEmplaceRetry _ prev loaded _ => loaded = q.head ∧ loaded ≠ prev
  | tryEmplaceFalse _ prev _ => prev = q.head

/-- What a step changes in the shared memory. -/
def effect (size : SizeT) (q : Queue V) : TryEvent ι V → Queue V
  | base e => e.effect size q
  | tryEmplaceCas _ t _ => { q with head := t + 1 }
  | _ => q

instance decidableCheck
    [DecidableEq V]
    (size : SizeT) (q : Queue V) (e : TryEvent ι V) :
    Decidable (e.check size q) := by
  cases e <;> unfold check <;> infer_instance

/-- The steps of the loop that only read. -/
def Probe : TryEvent ι V → Prop
  | tryEmplaceLoad _ _ _ => True
  | tryEmplaceSeen _ _ _ => True
  | tryEmplaceMissed _ _ _ => True
  | tryEmplaceCasFail _ _ _ _ => True
  | tryEmplaceRetry _ _ _ _ => True
  | tryEmplaceFalse _ _ _ => True
  | _ => False

/-- What the loop of `try_emplace` returns with its last step. -/
def tryEmplaceAnswer? : TryEvent ι V → Option Bool
  | tryEmplaceFalse _ _ _ => some false
  | base (.emplaceRelease _ _ _) => some true
  | _ => none

/-- The steps of `emplace` that a step is for the queue. -/
def expand : TryEvent ι V → List (Event ι V)
  | base e => [e]
  | tryEmplaceCas i t v => [.callEmplace i v, .emplaceTicket i t v, .emplaceAcquire i t v]
  | _ => []

end TryEvent

variable {ι : Type u} {V : Type v}

/-- The steps of all threads on a queue of the given capacity. -/
def tryProgram (size : SizeT) : Program ι (TryPc V) (Queue V) (TryEvent ι V) where
  actor := TryEvent.actor
  source := TryEvent.source
  target := TryEvent.target
  check := TryEvent.check size
  effect := TryEvent.effect size

/-- The configuration in which every run starts. -/
def tryStart : Config ι (TryPc V) (Queue V) where
  shared := Queue.empty
  pc := fun _ => .base .idle

/-- All interleavings of calls on one queue, those of `try_emplace` included. -/
def tryQueue (size : SizeT) [DecidableEq ι] :
    System (Config ι (TryPc V) (Queue V)) (TryEvent ι V) :=
  (tryProgram size).system fun s => s = tryStart

instance decidableTryQueueGuard
    [DecidableEq ι] [DecidableEq V]
    (size : SizeT) (s : Config ι (TryPc V) (Queue V)) (e : TryEvent ι V) :
    Decidable ((tryQueue size).guard s e) :=
  inferInstanceAs (Decidable (s.pc e.actor = e.source ∧ e.check size s.shared))

section Refinement

/-- The loop of `try_emplace` is outside the queue. -/
def TryPc.under : TryPc V → Pc V
  | .base p => p
  | _ => .idle

/-- What the queue sees of a configuration. -/
def asQueue (s : Config ι (TryPc V) (Queue V)) : Config ι (Pc V) (Queue V) where
  shared := s.shared
  pc := TryPc.under ∘ s.pc

/-- What the queue sees of a trace. -/
def queueTrace (tr : List (TryEvent ι V)) : List (Event ι V) :=
  tr.flatMap TryEvent.expand

/-- The ticket of the loop is not beyond `head_`, and a free slot seen for it stays free. -/
def Fresh (size : SizeT) (q : Queue V) : TryPc V → Prop
  | .base _ => True
  | .tryEmplaceBegin _ => True
  | .tryEmplaceCheck t _ => t.toNat ≤ q.head.toNat
  | .tryEmplaceCas t _ =>
      t.toNat ≤ q.head.toNat ∧
        (t = q.head → sequenceOf q size t = 2 * round size t)
  | .tryEmplaceReload t _ => t.toNat ≤ q.head.toNat

variable {size : SizeT} {tr : List (Event ι V)} {q : Queue V}

/-- `head_` only grows. -/
theorem TryEvent.head_le_effect
    {e : TryEvent ι V}
    (hglobal : Global size tr q)
    (hfew : FewTickets tr)
    (hcheck : e.check size q) :
    (e.effect size q).head = q.head ∨
      (e.effect size q).head.toNat = q.head.toNat + 1 := by
  cases e with
  | base e =>
      exact Mpmc.head_le_effect hglobal hfew
  | tryEmplaceCas i t v =>
      obtain rfl : t = q.head := hcheck
      exact Or.inr (succ_toNat_of_lt (hglobal.tickets.head_lt hfew))
  | _ =>
      exact Or.inl rfl

/-- The free slot of the ticket of `head_` stays free: nobody owns this ticket. -/
theorem TryEvent.sequence_effect
    {e : TryEvent ι V}
    (hglobal : Global size tr q)
    (hlocal : Local size tr q e.actor e.source.under)
    (hfree : sequenceOf q size q.head = 2 * round size q.head) :
    sequenceOf (e.effect size q) size q.head = 2 * round size q.head := by
  cases e with
  | base e =>
      by_contra hne
      rcases sequence_changed hglobal hlocal (by rw [hfree]; exact hne) with
        ⟨i, t₀, v, rfl, hs, heq⟩ | ⟨i, t₀, -, hs, -⟩
      · obtain ⟨howner, -⟩ := hlocal
        rw [← heq (by omega)] at howner
        have hlt := (hglobal.tickets.emplaceIssued q.head).1
          ((mem_emplaceTickets_iff tr q.head).2 ⟨i, v, howner⟩)
        exact lt_irrefl _ hlt
      · omega
  | _ =>
      exact hfree

/-- No step disturbs what a thread in the loop knows. -/
theorem Fresh.effect
    {e : TryEvent ι V} {p : TryPc V}
    (h : Fresh size q p)
    (hglobal : Global size tr q)
    (hfew : FewTickets tr)
    (hlocal : Local size tr q e.actor e.source.under)
    (hcheck : e.check size q) :
    Fresh size (e.effect size q) p := by
  have hhead := e.head_le_effect hglobal hfew hcheck
  have hmono : q.head.toNat ≤ (e.effect size q).head.toNat := by
    rcases hhead with heq | hsucc
    · rw [heq]
    · omega
  cases p with
  | base p =>
      trivial
  | tryEmplaceBegin v =>
      trivial
  | tryEmplaceCheck t v =>
      exact le_trans h hmono
  | tryEmplaceCas t v =>
      obtain ⟨hle, hfree⟩ := h
      refine ⟨hle.trans hmono, ?_⟩
      intro hnow
      -- `head_` still equals the ticket
      obtain rfl : t = q.head := by
        rcases hhead with heq | hsucc
        · rw [hnow, heq]
        · rw [← hnow] at hsucc
          omega
      exact TryEvent.sequence_effect hglobal hlocal (hfree rfl)
  | tryEmplaceReload t v =>
      exact le_trans h hmono

/-- What a thread in the loop knows after a step of its own. -/
theorem Fresh.target
    {e : TryEvent ι V}
    (h : Fresh size q e.source)
    (hglobal : Global size tr q)
    (hfew : FewTickets tr)
    (hcheck : e.check size q) :
    Fresh size (e.effect size q) e.target := by
  cases e with
  | base e =>
      trivial
  | callTry f i v =>
      trivial
  | tryEmplaceLoad i t v =>
      exact Nat.le_of_eq (congrArg BitVec.toNat hcheck)
  | tryEmplaceSeen i t v =>
      have hsmall := lt_of_le_of_lt (show t.toNat ≤ q.head.toNat from h)
        (hglobal.tickets.head_lt hfew)
      exact ⟨h, fun _ => sequence_of_acquired hsmall hcheck⟩
  | tryEmplaceMissed i t v =>
      exact h
  | tryEmplaceCas i t v =>
      trivial
  | tryEmplaceCasFail i t loaded v =>
      exact Nat.le_of_eq (congrArg BitVec.toNat hcheck.1)
  | tryEmplaceRetry i prev loaded v =>
      exact Nat.le_of_eq (congrArg BitVec.toNat hcheck.1)
  | tryEmplaceFalse i prev v =>
      trivial

variable [DecidableEq ι] {s : Config ι (TryPc V) (Queue V)}

/-- A step that the queue does not see. -/
theorem asQueue_next_of_silent
    {e : TryEvent ι V}
    (hpc : s.pc e.actor = e.source)
    (hunder : e.target.under = e.source.under)
    (heffect : e.effect size s.shared = s.shared) :
    asQueue ((tryQueue size).next s e) = asQueue s := by
  have hupdate : TryPc.under ∘ Function.update s.pc e.actor e.target =
      TryPc.under ∘ s.pc := by
    rw [Function.comp_update, hunder, ← hpc]
    exact Function.update_eq_self e.actor (TryPc.under ∘ s.pc)
  change Config.mk (e.effect size s.shared)
    (TryPc.under ∘ Function.update s.pc e.actor e.target) = _
  rw [heffect, hupdate]
  rfl

/-- Every step is a block of steps of the queue. -/
theorem asQueue_next
    {e : TryEvent ι V}
    (hsmall : s.shared.head.toNat < 2 ^ 63)
    (hfresh : Fresh size s.shared e.source)
    (hguard : (tryQueue size).guard s e) :
    (queue size).Enabled (asQueue s) e.expand ∧
      asQueue ((tryQueue size).next s e) = (queue size).exec (asQueue s) e.expand := by
  obtain ⟨hpc, hcheck⟩ := hguard
  have hunder : (asQueue s).pc e.actor = e.source.under := congrArg TryPc.under hpc
  cases e with
  | base e =>
      refine ⟨⟨⟨hunder, hcheck⟩, trivial⟩, ?_⟩
      change Config.mk _ (TryPc.under ∘ Function.update s.pc e.actor (.base e.target)) = _
      rw [Function.comp_update]
      rfl
  | tryEmplaceCas i t v =>
      obtain rfl : t = s.shared.head := hcheck
      have hturn : acquireTurn size s.shared.head =
          (s.shared.slotOf size s.shared.head).sequence := by
        have hle := round_le size s.shared.head
        exact BitVec.eq_of_toNat_eq
          ((acquireTurn_toNat (by omega)).trans (hfresh.2 rfl).symm)
      refine ⟨⟨⟨hunder, trivial⟩, ⟨Function.update_self .., rfl⟩,
        ⟨Function.update_self .., hturn⟩, trivial⟩, ?_⟩
      change Config.mk _
        (TryPc.under ∘ Function.update s.pc i (.base (.emplaceConstruct s.shared.head v))) =
        Config.mk _ (Function.update (Function.update (Function.update _ i _) i _) i _)
      rw [Function.comp_update, Function.update_idem, Function.update_idem]
      rfl
  | _ =>
      exact ⟨trivial, asQueue_next_of_silent hpc rfl rfl⟩

/-- Every run with calls of `try_emplace` is, for the queue, a run without them. -/
theorem tryQueue_refines
    {tr : List (TryEvent ι V)}
    (hrun : (tryQueue size).Run tr s)
    (hfew : FewTickets (queueTrace tr)) :
    (queue size).Run (queueTrace tr) (asQueue s) ∧
      ∀ i, Fresh size s.shared (s.pc i) := by
  refine hrun.refine (B := FewTickets) (I := fun s => ∀ i, Fresh size s.shared (s.pc i))
    (fun _ _ => FewTickets.of_append) ?_ ?_ hfew
  · rintro s rfl
    exact ⟨⟨rfl, fun _ => rfl⟩, fun _ => trivial⟩
  · intro tr s e hrun₀ hfew₀ hfresh hguard
    have hfew₁ := fewTickets_of_append hfew₀
    obtain ⟨hglobal, hlocal⟩ := outline_of_run hrun₀ hfew₁
    have hpc : s.pc e.actor = e.source := hguard.1
    have hsource : Fresh size s.shared e.source := hpc ▸ hfresh e.actor
    have hactor : Local size tr s.shared e.actor e.source.under := by
      rw [← hpc]
      exact (hlocal e.actor).1
    obtain ⟨henabled, hnext⟩ :=
      asQueue_next (hglobal.tickets.head_lt hfew₁) hsource hguard
    refine ⟨henabled, hnext, ?_⟩
    intro j
    change Fresh size (e.effect size s.shared) (Function.update s.pc e.actor e.target j)
    rcases eq_or_ne j e.actor with rfl | hj
    · rw [Function.update_self]
      exact hsource.target hglobal hfew₁ hguard.2
    · rw [Function.update_of_ne hj]
      exact (hfresh j).effect hglobal hfew₁ hactor hguard.2

end Refinement

section Calls

variable [DecidableEq ι]
variable {size : SizeT} {pre m mid es fs tr : List (TryEvent ι V)}
variable {s : Config ι (TryPc V) (Queue V)}
variable {i : ι} {e : TryEvent ι V} {f : TryCall} {v : V} {t : SizeT} {p : TryPc V}

/-- The queue after a trace. -/
def tryQueueAfter (size : SizeT) (tr : List (TryEvent ι V)) : Queue V :=
  ((tryQueue size).exec tryStart tr).shared

/-- The slot of the ticket of `head_` still belongs to the element a ring earlier. -/
def Occupied (size : SizeT) (tr : List (TryEvent ι V)) : Prop :=
  size.toNat ≤ (tryQueueAfter size tr).head.toNat ∧
    ∀ j, .base (.popRelease j ((tryQueueAfter size tr).head - size)) ∉ tr

/-- The steps of the call so far only read. -/
abbrev TryProbed (size : SizeT) (i : ι) (m : List (TryEvent ι V)) : Prop :=
  (tryProgram size).Only TryEvent.Probe i m

/-- A call that won the new ticket `t` for `v` and has done the steps `ops` since. -/
abbrev Taken (size : SizeT) (pre : List (TryEvent ι V)) (i : ι) (t : SizeT) (v : V)
    (ops m : List (TryEvent ι V)) : Prop :=
  (tryProgram size).Decided TryEvent.Probe (fun m => t = (tryQueueAfter size (pre ++ m)).head)
    i (.tryEmplaceCas i t v) ops m

/-- The call enqueued `v` under one new ticket. -/
def Enqueued (size : SizeT) (pre m : List (TryEvent ι V)) (i : ι) (v : V) : Prop :=
  ∃ t, Taken size pre i t v [.base (.construct i t v), .base (.emplaceRelease i t v)] m

/-- The queue was full at some instant of the call, which changed nothing. -/
structure Refused (size : SizeT) (pre mid : List (TryEvent ι V)) (i : ι) (e : TryEvent ι V) :
    Prop where
  instant : Once (fun m => Occupied size (pre ++ m)) mid
  unchanged : (tryProgram size).Only (fun f => ∀ q : Queue V, f.effect size q = q) i
    (mid ++ [e])

/-- The caller receives an answer, and it tells whether `v` was enqueued. -/
def Tells (size : SizeT) (pre mid : List (TryEvent ι V)) (i : ι) (v : V) (e : TryEvent ι V)
    (received : Option Bool) : Prop :=
  ∃ answer, received = some answer ∧
    (answer = true ↔ Enqueued size pre (mid ++ [e]) i v) ∧
    (answer = false → Refused size pre mid i e)

/-- A call that missed: the slot of a ticket at most that of `head_` was not free. -/
def TryMissed (size : SizeT) (pre m : List (TryEvent ι V)) (t : SizeT) : Prop :=
  Once (fun m₁ => t.toNat ≤ (tryQueueAfter size (pre ++ m₁)).head.toNat ∧
    acquireTurn size t ≠ ((tryQueueAfter size (pre ++ m₁)).slotOf size t).sequence) m

/-- What a call has done, by its control point. -/
def InTry (size : SizeT) (pre m : List (TryEvent ι V)) (i : ι) (v : V) : TryPc V → Prop
  | .tryEmplaceBegin v' => v' = v ∧ TryProbed size i m
  | .tryEmplaceCheck _ v' => v' = v ∧ TryProbed size i m
  | .tryEmplaceCas _ v' => v' = v ∧ TryProbed size i m
  | .tryEmplaceReload t v' => v' = v ∧ TryProbed size i m ∧ TryMissed size pre m t
  | .base (.emplaceConstruct t v') => v' = v ∧ Taken size pre i t v [] m
  | .base (.emplaceRelease t v') =>
      v' = v ∧ Taken size pre i t v [.base (.construct i t v)] m
  | .base _ => False

omit [DecidableEq ι] in
theorem TryEvent.Probe.unchanged
    (h : e.Probe)
    (q : Queue V) :
    e.effect size q = q := by
  cases e <;> first | exact h.elim | rfl

omit [DecidableEq ι] in
theorem fewTickets_queueTrace
    (hfew : FewTickets (queueTrace (es ++ fs))) :
    FewTickets (queueTrace es) := by
  rw [queueTrace, List.flatMap_append] at hfew
  exact fewTickets_of_append hfew

/-- The queue at a moment of a run. -/
theorem try_outline_prefix
    (hrun : (tryQueue size).Run (es ++ fs) s)
    (hfew : FewTickets (queueTrace (es ++ fs))) :
    (tryQueue size).Run es ((tryQueue size).exec tryStart es) ∧
      Global size (queueTrace es) (tryQueueAfter size es) ∧
      ∀ j, Fresh size (tryQueueAfter size es) (((tryQueue size).exec tryStart es).pc j) := by
  obtain ⟨s₀, hrun₀, -, -⟩ := hrun.split
  have hfew₀ := fewTickets_queueTrace hfew
  obtain ⟨hqueue, hfresh⟩ := tryQueue_refines hrun₀ hfew₀
  obtain rfl : s₀ = (tryQueue size).exec tryStart es := hrun₀.eq_exec fun _ hs => hs
  exact ⟨hrun₀, (outline_of_run hqueue hfew₀).1, hfresh⟩

/-- What the thread of an event knows before it, and what the event reads. -/
theorem fresh_before
    (hrun : (tryQueue size).Run (es ++ e :: fs) s)
    (hfew : FewTickets (queueTrace (es ++ e :: fs))) :
    Fresh size (tryQueueAfter size es) e.source ∧ e.check size (tryQueueAfter size es) := by
  obtain ⟨hrun₀, -, hfresh⟩ := try_outline_prefix hrun hfew
  obtain ⟨s₀, hrun₁, ⟨⟨hpc, hcheck⟩, -⟩, -⟩ := hrun.split
  obtain rfl : s₀ = (tryQueue size).exec tryStart es := hrun₁.eq_exec fun _ hs => hs
  have hsource : ((tryQueue size).exec tryStart es).pc e.actor = e.source := hpc
  have hactor := hfresh e.actor
  rw [hsource] at hactor
  exact ⟨hactor, hcheck⟩

/-- `head_` only grows. -/
theorem head_le_tryQueueAfter
    (hrun : (tryQueue size).Run (es ++ fs) s)
    (hfew : FewTickets (queueTrace (es ++ fs))) :
    (tryQueueAfter size es).head.toNat ≤ s.shared.head.toNat := by
  refine System.Run.le_of_append (B := fun tr => FewTickets (queueTrace tr))
    (fun s => s.shared.head.toNat) (fun _ hs => hs) (fun _ _ => fewTickets_queueTrace)
    ?_ hrun hfew
  rintro tr s e hrun₀ hfew₀ ⟨-, hcheck⟩
  have hglobal := (outline_of_run (tryQueue_refines hrun₀ hfew₀).1 hfew₀).1
  rcases e.head_le_effect hglobal hfew₀ hcheck with heq | hsucc
  · exact Nat.le_of_eq (congrArg BitVec.toNat heq).symm
  · exact Nat.le_of_succ_le (Nat.le_of_eq hsucc.symm)

/-- The slot of the ticket of `head_` was not free: the element before is not taken. -/
theorem occupied_of_missed
    (hglobal : Global size (queueTrace tr) (tryQueueAfter size tr))
    (hfew : FewTickets (queueTrace tr))
    (hmissed : acquireTurn size (tryQueueAfter size tr).head ≠
      ((tryQueueAfter size tr).slotOf size (tryQueueAfter size tr).head).sequence) :
    Occupied size tr := by
  have hstage := hglobal.stage_eq_zero_of_head_le (Nat.le_refl _)
  have hlt := hglobal.sequence_lt_of_unready (hglobal.tickets.head_lt hfew) hstage hmissed
  obtain ⟨hle, -, hnotyet⟩ := hglobal.stage_lt_of_sequence_lt hlt
  refine ⟨hle, ?_⟩
  intro j hmem
  have hqueue : Event.popRelease j ((tryQueueAfter size tr).head - size) ∈ queueTrace tr :=
    List.mem_flatMap.mpr ⟨_, hmem, List.mem_singleton_self _⟩
  have hrank := (hglobal.slot _).rank_le_stage hqueue rfl
  exact absurd hrank (Nat.not_le_of_lt hnotyet)

/-- The steps of the other threads are not part of the call. -/
theorem InTry.other
    (h : InTry size pre m i v p)
    (he : e.actor ≠ i) :
    InTry size pre (m ++ [e]) i v p := by
  have hprobe : e.actor = i → e.Probe := fun heq => absurd heq he
  cases p with
  | tryEmplaceBegin v' =>
      exact ⟨h.1, h.2.append hprobe⟩
  | tryEmplaceCheck t v' =>
      exact ⟨h.1, h.2.append hprobe⟩
  | tryEmplaceCas t v' =>
      exact ⟨h.1, h.2.append hprobe⟩
  | tryEmplaceReload t v' =>
      exact ⟨h.1, h.2.1.append hprobe, h.2.2.append [e]⟩
  | base p =>
      cases p with
      | emplaceConstruct t v' =>
          exact ⟨h.1, h.2.other he⟩
      | emplaceRelease t v' =>
          exact ⟨h.1, h.2.other he⟩
      | _ =>
          exact h.elim

/-- A step of the call itself. -/
theorem InTry.own
    (hrun : (tryQueue size).Run (pre ++ m ++ [e]) s)
    (hfew : FewTickets (queueTrace (pre ++ m ++ [e])))
    (h : InTry size pre m e.actor v e.source)
    (htarget : e.target ≠ .base .idle) :
    InTry size pre (m ++ [e]) e.actor v e.target := by
  obtain ⟨hfresh, hcheck⟩ := fresh_before hrun hfew
  cases e with
  | callTry f i v' =>
      exact h.elim
  | tryEmplaceLoad i t v' =>
      exact ⟨h.1, h.2.append fun _ => trivial⟩
  | tryEmplaceSeen i t v' =>
      exact ⟨h.1, h.2.append fun _ => trivial⟩
  | tryEmplaceMissed i t v' =>
      exact ⟨h.1, h.2.append fun _ => trivial, Once.append (.now ⟨hfresh, hcheck⟩) [_]⟩
  | tryEmplaceCas i t v' =>
      obtain ⟨rfl, hprobed⟩ := h
      exact ⟨rfl, hprobed.decided hcheck⟩
  | tryEmplaceCasFail i t loaded v' =>
      exact ⟨h.1, h.2.append fun _ => trivial⟩
  | tryEmplaceRetry i prev loaded v' =>
      exact ⟨h.1, h.2.1.append fun _ => trivial⟩
  | tryEmplaceFalse i prev v' =>
      exact absurd rfl htarget
  | base e =>
      cases e with
      | construct i t v' =>
          obtain ⟨rfl, htaken⟩ := h
          exact ⟨rfl, htaken.own rfl⟩
      | emplaceRelease i t v' =>
          exact absurd rfl htarget
      | _ =>
          exact h.elim

/-- What the call has done when it takes its last step. -/
theorem inTry_of_call
    (hrun : (tryQueue size).Run tr s)
    (hfew : FewTickets (queueTrace tr))
    (hcall : (tryProgram size).Call (.base .idle) tr es mid (.callTry f i v) e) :
    e.actor = i ∧ InTry size (es ++ [.callTry f i v]) mid i v e.source ∧
      ∃ s', (tryQueue size).Run (es ++ [.callTry f i v] ++ mid ++ [e]) s' ∧
        FewTickets (queueTrace (es ++ [.callTry f i v] ++ mid ++ [e])) := by
  have hstart : InTry size (es ++ [TryEvent.callTry f i v]) [] i v (.tryEmplaceBegin v) :=
    ⟨rfl, fun f hf => absurd hf List.not_mem_nil⟩
  refine ⟨hcall.actor, hcall.run (B := fun tr => FewTickets (queueTrace tr))
    (K := fun m p => InTry size (es ++ [TryEvent.callTry f i v]) m i v p)
    (fun _ _ => fewTickets_queueTrace) hstart (fun _ _ _ he h => h.other he) ?_ hrun hfew⟩
  rintro m f s hrun hfew rfl htarget h
  exact h.own hrun hfew htarget

/-- The answer false. -/
theorem refused_of_missed
    (hrun : (tryQueue size).Run (pre ++ mid ++ [.tryEmplaceFalse i t v]) s)
    (hfew : FewTickets (queueTrace (pre ++ mid ++ [.tryEmplaceFalse i t v])))
    (hprobed : TryProbed size i mid)
    (hmissed : TryMissed size pre mid t) :
    Refused size pre mid i (.tryEmplaceFalse i t v) := by
  have hlast : TryEvent.Probe (.tryEmplaceFalse i t v : TryEvent ι V) := trivial
  constructor
  · obtain ⟨m₁, ⟨m₂, rfl⟩, hle, hne⟩ := hmissed
    obtain ⟨-, hcheck⟩ := fresh_before hrun hfew
    have hcheck : t = (tryQueueAfter size (pre ++ (m₁ ++ m₂))).head := hcheck
    rw [← List.append_assoc] at hcheck hrun hfew
    obtain ⟨hrun₁, -⟩ := try_outline_prefix hrun hfew
    have hfew₁ := fewTickets_queueTrace hfew
    -- `head_` was the ticket when the slot was read
    obtain rfl : t = (tryQueueAfter size (pre ++ m₁)).head := by
      have hmono : (tryQueueAfter size (pre ++ m₁)).head.toNat ≤
          (tryQueueAfter size (pre ++ m₁ ++ m₂)).head.toNat :=
        head_le_tryQueueAfter hrun₁ hfew₁
      rw [← hcheck] at hmono
      exact BitVec.eq_of_toNat_eq (Nat.le_antisymm hle hmono)
    obtain ⟨-, hglobal, -⟩ := try_outline_prefix hrun₁ hfew₁
    exact ⟨m₁, List.prefix_append m₁ m₂,
      occupied_of_missed hglobal (fewTickets_queueTrace hfew₁) hne⟩
  · have hall := hprobed.append fun _ => hlast
    exact fun f hf hactor => (hall f hf hactor).unchanged

/-- A call that only reads has not enqueued its value. -/
theorem not_enqueued_of_probed
    (hprobed : TryProbed size i m) :
    ¬ Enqueued size pre m i v := by
  rintro ⟨t, m₁, m₂, rfl, -, -, -⟩
  exact hprobed (.tryEmplaceCas i t v) (by simp) rfl

/-- The answer of `try_emplace` tells whether the value was enqueued. -/
theorem try_emplace_tells
    (hrun : (tryQueue size).Run tr s)
    (hfew : FewTickets (queueTrace tr))
    (hcall : (tryProgram size).Call (.base .idle) tr es mid (.callTry f i v) e) :
    Tells size (es ++ [.callTry f i v]) mid i v e e.tryEmplaceAnswer? := by
  obtain ⟨hactor, hin, s', hrun', hfew'⟩ := inTry_of_call hrun hfew hcall
  obtain rfl : e.actor = i := hactor
  have hreturns : e.target = .base .idle := hcall.returns
  cases e with
  | tryEmplaceFalse i prev v' =>
      obtain ⟨-, hprobed, hmissed⟩ := hin
      have hlast : TryEvent.Probe (.tryEmplaceFalse i prev v' : TryEvent ι V) := trivial
      have hnot : ¬ Enqueued size (es ++ [.callTry f i v])
          (mid ++ [.tryEmplaceFalse i prev v']) i v :=
        not_enqueued_of_probed (hprobed.append fun _ => hlast)
      refine ⟨false, rfl, iff_of_false Bool.false_ne_true hnot, fun _ => ?_⟩
      exact refused_of_missed hrun' hfew' hprobed hmissed
  | base e =>
      cases e with
      | emplaceRelease i t v' =>
          obtain ⟨rfl, htaken⟩ := hin
          have hdone := htaken.own (e := .base (.emplaceRelease i t v')) rfl
          exact ⟨true, rfl, iff_of_true rfl ⟨t, hdone⟩, fun h => absurd h (by decide)⟩
      | popRelease i t =>
          exact hin.elim
      | tryPopFalse i prev =>
          exact hin.elim
      | _ =>
          simp [TryEvent.target, Event.target] at hreturns
  | _ =>
      simp [TryEvent.target] at hreturns

/-- What the caller of `f` receives after the last step of the call. -/
def TryEvent.received? (f : TryCall) (e : TryEvent ι V) : Option Bool :=
  e.tryEmplaceAnswer?.bind f.received?

/--
The caller of `try_push` receives no answer, whatever the call has done; the answer
that the body of `try_push` discards is the right one.
-/
theorem try_push_not_tells
    (hrun : (tryQueue size).Run tr s)
    (hcall : (tryProgram size).Call (.base .idle) tr es mid (.callTry f i v) e)
    (hpush : f ≠ .tryEmplace) :
    ¬ Tells size (es ++ [.callTry f i v]) mid i v e (e.received? f) ∧
      (FewTickets (queueTrace tr) →
        Tells size (es ++ [.callTry f i v]) mid i v e e.tryEmplaceAnswer?) := by
  refine ⟨?_, fun hfew => try_emplace_tells hrun hfew hcall⟩
  rintro ⟨answer, hreceived, -⟩
  obtain ⟨b, -, hb⟩ := Option.bind_eq_some_iff.mp hreceived
  cases f with
  | tryEmplace =>
      exact hpush rfl
  | tryPushCopy =>
      cases hb
  | tryPushForward =>
      cases hb

/-- `try_push` of a value that finds room. -/
def pushOne : List (TryEvent Bool Nat) :=
  [.callTry .tryPushCopy true 5, .tryEmplaceLoad true 0 5, .tryEmplaceSeen true 0 5,
    .tryEmplaceCas true 0 5, .base (.construct true 0 5), .base (.emplaceRelease true 0 5)]

theorem pushOne_call :
    (tryProgram 1).Call (.base .idle) pushOne []
      [.tryEmplaceLoad true 0 5, .tryEmplaceSeen true 0 5, .tryEmplaceCas true 0 5,
        .base (.construct true 0 5)]
      (.callTry .tryPushCopy true 5) (.base (.emplaceRelease true 0 5)) :=
  ⟨⟨[], rfl⟩, rfl, rfl, by simp [tryProgram, TryEvent.target, Event.target]⟩

theorem try_push_not_tells_pushOne :
    ¬ Tells 1 [.callTry .tryPushCopy true 5]
      [.tryEmplaceLoad true 0 5, .tryEmplaceSeen true 0 5, .tryEmplaceCas true 0 5,
        .base (.construct true 0 5)] true (5 : Nat) (.base (.emplaceRelease true 0 5)) none := by
  have hrun : (tryQueue 1).Run pushOne _ := .of_enabled (s := tryStart) rfl (by decide)
  exact (try_push_not_tells hrun pushOne_call (by decide)).1

theorem not_try_push_tells :
    ¬ ∀ (size : SizeT) (tr es mid : List (TryEvent Bool Nat))
      (s : Config Bool (TryPc Nat) (Queue Nat)) (f : TryCall) (i : Bool) (v : Nat)
      (e : TryEvent Bool Nat),
      1 ≤ size.toNat → (tryQueue size).Run tr s → FewTickets (queueTrace tr) →
      (tryProgram size).Call (.base .idle) tr es mid (.callTry f i v) e →
      f ≠ .tryEmplace →
      Tells size (es ++ [.callTry f i v]) mid i v e (e.received? f) := by
  intro h
  have hrun : (tryQueue 1).Run pushOne _ := .of_enabled (s := tryStart) rfl (by decide)
  obtain ⟨answer, hreceived, -⟩ :=
    h 1 pushOne _ _ _ _ _ _ _ (by decide) hrun (by decide) pushOne_call (by decide)
  exact absurd hreceived (by simp [TryEvent.received?, TryEvent.tryEmplaceAnswer?,
    TryCall.received?])

end Calls

end Mpmc
end Ptl

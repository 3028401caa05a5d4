import Ptl.FairExecution
import Ptl.IoDuplex
import Ptl.IoPolling

/-!
# No operation is forgotten

An operation that waits on a descriptor is safe if the record of the descriptor names it
and the kernel polls for the event of its kind.  Both are lost by the wrong order of calls:
`start_io` overwrites the record of an operation that waits, and widens the mask of a watcher
that is polled.  This module puts the two conditions together and follows the service
forever.

The loop and the peers are assumed to be fair: if from some moment on the loop could always
call `work()` of an operation, then sooner or later it does.

**Results.**
* `armed_of_careful`: the record and the watcher of every waiting operation are in order.
* `Armed.enabled`: some event of the descriptor calls `work()` of the operation.
* `waiting_served`: a waiting operation is resumed, or its descriptor is stopped, or its
  `work()` is called again and again.
-/

namespace Ptl
namespace Io

open Transition

universe u v

variable {δ : Type u} {ι : Type v}

/-- The event calls `work()` of the operation on the descriptor. -/
def Event.CallsWork (d : δ) (op : ι) : Event δ ι → Prop
  | .work d' _ op' _ => d' = d ∧ op' = op
  | _ => False

/-- The event ends the wait of the operation on the descriptor. -/
def Event.EndsWait (d : δ) (op : ι) : Event δ ι → Prop
  | .work _ _ op' .done => op' = op
  | .stopIo d' => d' = d
  | .deregisterDescriptor d' => d' = d
  | _ => False

section Masks

/-- Starting another operation takes no event out of the mask. -/
theorem mask_start_of_mask
    {w : Watched} {kind : IoKind}
    (again : IoKind)
    (h : kind.toNat &&& w.mask = kind.toNat) :
    kind.toNat &&& (w.start again).mask = kind.toNat := by
  cases hwrote : w.wrote with
  | true =>
      simpa [Watched.mask, Watched.start, hwrote] using h
  | false =>
      cases kind with
      | none =>
          exact Nat.zero_and _
      | read =>
          cases again <;> simp [Watched.mask, Watched.start, hwrote, IoKind.toNat, EV_READ,
            EV_WRITE]
      | write =>
          simp [Watched.mask, hwrote, IoKind.toNat, EV_READ] at h

/-- A mask with the event of a kind has events that pass the test of `ev_notification`. -/
theorem exists_events
    {w : Watched} {kind : IoKind}
    (h : kind.toNat &&& w.mask = kind.toNat) :
    ∃ events, events ≠ 0 ∧ events &&& w.mask = events ∧
      events &&& kind.toNat = kind.toNat := by
  cases kind with
  | none =>
      refine ⟨EV_READ, Nat.one_ne_zero, ?_, Nat.and_zero _⟩
      cases hwrote : w.wrote <;> simp [Watched.mask, hwrote, EV_READ, EV_WRITE]
  | read =>
      exact ⟨1, Nat.one_ne_zero, h, rfl⟩
  | write =>
      exact ⟨2, Nat.succ_ne_zero 1, h, rfl⟩

end Masks

variable [DecidableEq δ] [DecidableEq ι]

/-- The two conditions on the order in which operations are started. -/
structure Careful
    (past : List (Event δ ι)) (s : Service δ ι) (e : Event δ ι) : Prop where
  free : StartsWhenFree s e
  idle : FirstWriteIdle past e

section Armed

/-- What the operations that wait rest on. -/
structure Armed (tr : List (Event δ ι)) (s : Service δ ι) : Prop where
  registered : Registered tr s
  current : ∀ d data, s.data d = some data → data.ev.Current
  started : ∀ d op kind, pending tr d op = some kind → (watched tr d).started = true
  mask : ∀ d op kind, pending tr d op = some kind →
    kind.toNat &&& (watched tr d).mask = kind.toNat

variable {tr : List (Event δ ι)} {s : Service δ ι} {e : Event δ ι}
variable {d : δ} {op : ι} {kind : IoKind}

/-- Where the kind of a waiting operation comes from. -/
theorem pending_cases
    (hs : Registered tr s)
    (hguard : service.guard s e)
    (hpending : pending (tr ++ [e]) d op = some kind) :
    e.start? = some (d, kind) ∨
      pending tr d op = some kind ∧
        (watched (tr ++ [e]) d = watched tr d ∨
          ∃ again, watched (tr ++ [e]) d = (watched tr d).start again) := by
  rw [pending_append_singleton] at hpending
  rw [watched_append_singleton]
  cases e with
  | startIo d' kind' op' =>
      by_cases hd : d = d'
      · subst hd
        by_cases hop : op = op'
        · left
          simpa [pendingStep, hop, Event.start?] using hpending
        · right
          refine ⟨by simpa [pendingStep, hop] using hpending, Or.inr ⟨kind', ?_⟩⟩
          exact Function.update_self d _ _
      · right
        refine ⟨by simpa [pendingStep, hd] using hpending, Or.inl ?_⟩
        exact Function.update_of_ne hd _ _
  | work d' events op' progress =>
      cases progress with
      | startIo kind' =>
          by_cases hd : d = d'
          · subst hd
            by_cases hop : op = op'
            · left
              subst hop
              obtain ⟨-, -, rfl⟩ := Option.map_eq_some_iff.mp
                ((if_pos ⟨rfl, rfl⟩).symm.trans hpending)
              rfl
            · right
              refine ⟨by simpa [pendingStep, hop] using hpending, Or.inr ⟨kind', ?_⟩⟩
              exact Function.update_self d _ _
          · right
            refine ⟨by simpa [pendingStep, hd] using hpending, Or.inl ?_⟩
            exact Function.update_of_ne hd _ _
      | done =>
          right
          by_cases hop : op = op'
          · simp [pendingStep, hop] at hpending
          · refine ⟨by simpa [pendingStep, hop] using hpending, Or.inl ?_⟩
            exact congrFun (Function.update_eq_self d' _) d
  | stopIo d' =>
      right
      by_cases hd : d = d'
      · simp [pendingStep, hd] at hpending
      · exact ⟨(if_neg hd).symm.trans hpending, Or.inl (Function.update_of_ne hd _ _)⟩
  | deregisterDescriptor d' =>
      right
      by_cases hd : d = d'
      · simp [pendingStep, hd] at hpending
      · exact ⟨(if_neg hd).symm.trans hpending, Or.inl (Function.update_of_ne hd _ _)⟩
  | registerDescriptor d' =>
      right
      by_cases hd : d = d'
      · -- Nothing waits on a descriptor that is not registered.
        subst hd
        obtain ⟨data, hdata, -⟩ := hs d op kind hpending
        rw [registerDescriptor_data hguard] at hdata
        cases hdata
      · exact ⟨hpending, Or.inl (Function.update_of_ne hd _ _)⟩
  | ignored d' events =>
      right
      exact ⟨hpending, Or.inl (congrFun (Function.update_eq_self d' _) d)⟩
  | workNull d' events =>
      right
      exact ⟨hpending, Or.inl (congrFun (Function.update_eq_self d' _) d)⟩

omit [DecidableEq ι] in
/-- Starting an operation sets up the watcher for it. -/
theorem watched_of_start
    (hstart : e.start? = some (d, kind)) :
    watched (tr ++ [e]) d = (watched tr d).start kind := by
  obtain rfl := descriptor_of_start? hstart
  rw [watched_append_singleton, Function.update_self]
  cases e with
  | startIo d' kind' op' =>
      exact congrArg (Watched.start _) (congrArg Prod.snd (Option.some.inj hstart))
  | work d' events op' progress =>
      cases progress with
      | startIo kind' =>
          exact congrArg (Watched.start _) (congrArg Prod.snd (Option.some.inj hstart))
      | done =>
          cases hstart
  | _ =>
      cases hstart

theorem Armed.step
    (hrun : service.Run tr s)
    (hs : Armed tr s)
    (hguard : service.guard s e)
    (hcareful : Careful tr s e) :
    Armed (tr ++ [e]) (service.next s e) := by
  refine ⟨hs.registered.step (tracks_of_run hrun) hguard hcareful.free, ?_, ?_, ?_⟩
  · intro d data hdata
    exact current_next hrun hguard hs.current hcareful.idle hdata
  · intro d op kind hpending
    rcases pending_cases hs.registered hguard hpending with hstart | ⟨hold, hw | ⟨again, hw⟩⟩
    · rw [watched_of_start hstart]
      rfl
    · rw [hw]
      exact hs.started d op kind hold
    · rw [hw]
      rfl
  · intro d op kind hpending
    rcases pending_cases hs.registered hguard hpending with hstart | ⟨hold, hw | ⟨again, hw⟩⟩
    · rw [watched_of_start hstart]
      exact mask_start _ kind
    · rw [hw]
      exact hs.mask d op kind hold
    · rw [hw]
      exact mask_start_of_mask again (hs.mask d op kind hold)

/-- Some event of the descriptor calls `work()` of the operation, whatever comes of it. -/
theorem Armed.enabled
    (hrun : service.Run tr s)
    (hs : Armed tr s)
    (hpending : pending tr d op = some kind) :
    ∃ events, ∀ progress, service.guard s (.work d events op progress) := by
  obtain ⟨data, hdata, hop, hkind⟩ := hs.registered d op kind hpending
  have hfollows := follows_of_run hrun hdata
  have hactive := hfollows.active.trans (hs.started d op kind hpending)
  have hpolled : data.ev.polled = (watched tr d).mask :=
    (hs.current d data hdata hactive).trans hfollows.events
  obtain ⟨events, hne, hmask, hwants⟩ := exists_events (hs.mask d op kind hpending)
  refine ⟨events, fun progress => ?_⟩
  change Event.guard s (.work d events op progress)
  simp only [Event.guard, Event.descriptor, hdata]
  refine ⟨⟨hactive, hne, ?_⟩, ?_, hop⟩
  · rw [hpolled]
    exact hmask
  · rw [DescriptorServiceData.Wants, hkind]
    exact hwants

/-- An operation goes on waiting until something ends its wait. -/
theorem pending_step
    (hpending : pending tr d op = some kind)
    (hends : ¬ e.EndsWait d op) :
    ∃ kind', pending (tr ++ [e]) d op = some kind' := by
  rw [pending_append_singleton]
  cases e with
  | startIo d' kind' op' =>
      by_cases h : d = d' ∧ op = op'
      · exact ⟨kind', if_pos h⟩
      · exact ⟨kind, (if_neg h).trans hpending⟩
  | work d' events op' progress =>
      cases progress with
      | startIo kind' =>
          by_cases h : d = d' ∧ op = op'
          · exact ⟨kind', (if_pos h).trans (congrArg (Option.map _) hpending)⟩
          · exact ⟨kind, (if_neg h).trans hpending⟩
      | done =>
          have hop : op ≠ op' := fun h => hends h.symm
          exact ⟨kind, (if_neg hop).trans hpending⟩
  | stopIo d' =>
      have hd : d ≠ d' := fun h => hends h.symm
      exact ⟨kind, (if_neg hd).trans hpending⟩
  | deregisterDescriptor d' =>
      have hd : d ≠ d' := fun h => hends h.symm
      exact ⟨kind, (if_neg hd).trans hpending⟩
  | registerDescriptor d' =>
      exact ⟨kind, hpending⟩
  | ignored d' events =>
      exact ⟨kind, hpending⟩
  | workNull d' events =>
      exact ⟨kind, hpending⟩

end Armed

section Executions

variable {X : Execution (service : System (Service δ ι) (Event δ ι))}
variable {n : Nat} {d : δ} {op : ι} {kind : IoKind}

theorem armed_of_careful
    (hcareful : ∀ n e, X.event n = some e → Careful (X.trace n) (X.state n) e)
    (n : Nat) :
    Armed (X.trace n) (X.state n) := by
  induction n with
  | zero =>
      refine ⟨nofun, ?_, nofun, nofun⟩
      intro d data hdata
      rw [show X.state 0 = .start from X.init] at hdata
      cases hdata
  | succ n ih =>
      cases he : X.event n with
      | none =>
          rw [X.trace_of_none he, X.rest n he]
          exact ih
      | some e =>
          obtain ⟨hguard, hnext⟩ := X.step n e he
          rw [X.trace_of_some he, hnext]
          exact ih.step (X.run n) hguard (hcareful n e he)

/-- If nothing ends its wait, an operation waits at all later moments. -/
theorem pending_forever
    (hpending : pending (X.trace n) d op = some kind)
    (hends : ∀ m e, n ≤ m → X.event m = some e → ¬ e.EndsWait d op)
    {m : Nat}
    (hm : n ≤ m) :
    ∃ kind', pending (X.trace m) d op = some kind' := by
  induction hm with
  | refl =>
      exact ⟨kind, hpending⟩
  | @step m hm ih =>
      obtain ⟨kind', hkind'⟩ := ih
      cases he : X.event m with
      | none =>
          rw [X.trace_of_none he]
          exact ⟨kind', hkind'⟩
      | some e =>
          rw [X.trace_of_some he]
          exact pending_step hkind' (hends m e hm he)

/-- What becomes of an operation that waits on a descriptor. -/
inductive Served
    (X : Execution (service : System (Service δ ι) (Event δ ι)))
    (n : Nat) (d : δ) (op : ι) : Prop
  | resumed (m : Nat) (d' : δ) (events : Nat)
      (hm : n ≤ m)
      (hevent : X.event m = some (.work d' events op .done))
  | stopped (m : Nat)
      (hm : n ≤ m)
      (hevent : X.event m = some (.stopIo d) ∨ X.event m = some (.deregisterDescriptor d))
  | again
      (hevent : ∀ m, n ≤ m → ∃ k events kind, m ≤ k ∧
        X.event k = some (.work d events op (.startIo kind)))

omit [DecidableEq δ] [DecidableEq ι] in
theorem endsWait_cases
    {e : Event δ ι}
    (h : e.EndsWait d op) :
    (∃ d' events, e = .work d' events op .done) ∨
      e = .stopIo d ∨ e = .deregisterDescriptor d := by
  cases e with
  | work d' events op' progress =>
      cases progress with
      | startIo kind =>
          exact h.elim
      | done =>
          obtain rfl : op' = op := h
          exact Or.inl ⟨d', events, rfl⟩
  | stopIo d' =>
      obtain rfl : d' = d := h
      exact Or.inr (Or.inl rfl)
  | deregisterDescriptor d' =>
      obtain rfl : d' = d := h
      exact Or.inr (Or.inr rfl)
  | _ =>
      exact h.elim

/--
If operations are started on free descriptors only and first writes on idle ones, then an
event can call `work()` of every waiting operation.  If the loop is fair to it, it is
resumed, or the descriptor is stopped, or its `work()` is called and starts it again
without end.
-/
theorem waiting_served
    (hcareful : ∀ n e, X.event n = some e → Careful (X.trace n) (X.state n) e)
    (hpending : pending (X.trace n) d op = some kind) :
    (∃ events, ∀ progress, service.guard (X.state n) (.work d events op progress)) ∧
      (X.Fair (Event.CallsWork d op) (Event.CallsWork d op) → Served X n d op) := by
  refine ⟨(armed_of_careful hcareful n).enabled (X.run n) hpending, fun hfair => ?_⟩
  by_cases hend : ∃ m e, n ≤ m ∧ X.event m = some e ∧ e.EndsWait d op
  · obtain ⟨m, e, hm, he, hends⟩ := hend
    rcases endsWait_cases hends with ⟨d', events, rfl⟩ | rfl | rfl
    · exact .resumed m d' events hm he
    · exact .stopped m hm (Or.inl he)
    · exact .stopped m hm (Or.inr he)
  · have hends : ∀ m e, n ≤ m → X.event m = some e → ¬ e.EndsWait d op :=
      fun m e hm he hw => hend ⟨m, e, hm, he, hw⟩
    refine .again fun m hm => ?_
    -- The operation waits forever, so the loop can always call its `work()`.
    have hcan : ∀ k, m ≤ k →
        ∃ e, Event.CallsWork d op e ∧ service.guard (X.state k) e := by
      intro k hk
      obtain ⟨kind', hkind'⟩ := pending_forever hpending hends (Nat.le_trans hm hk)
      obtain ⟨events, hguard⟩ :=
        (armed_of_careful hcareful k).enabled (X.run k) hkind'
      exact ⟨.work d events op .done, ⟨rfl, rfl⟩, hguard .done⟩
    obtain ⟨k, e, hk, he, hcalls⟩ := hfair m hcan
    cases e with
    | work d' events op' progress =>
        obtain ⟨rfl, rfl⟩ : d' = d ∧ op' = op := hcalls
        cases progress with
        | startIo kind' =>
            exact ⟨k, events, kind', hk, he⟩
        | done =>
            exact absurd rfl (hends k _ (Nat.le_trans hm hk) he)
    | _ =>
        exact hcalls.elim

/-- A read that has to wait twice. -/
def readAgain : List (Event Unit Unit) :=
  [.registerDescriptor (),
    .startIo () .read (),
    .work () EV_READ () (.startIo .read),
    .work () EV_READ () .done,
    .stopIo ()]

def readTwice : Execution (service : System (Service Unit Unit) (Event Unit Unit)) :=
  .ofEnabled service .start readAgain rfl (by decide +kernel)

theorem waiting_served_readTwice :
    (∃ events, ∀ progress, service.guard (readTwice.state 2) (.work () events () progress)) ∧
      Served readTwice 2 () () := by
  have hstopped : ∀ data ∈ (service.exec .start readAgain).data (),
      data.currentOp = none := by
    decide +kernel
  have hfree : ∀ m < 5, ∀ e ∈ readAgain[m]?,
      StartsWhenFree (service.exec .start (readAgain.take m)) e := by
    decide +kernel
  have htrace : readTwice.trace 2 = readAgain.take 2 :=
    Execution.trace_ofEnabled 2
  have hpending : pending (readTwice.trace 2) () () = some .read := by
    rw [htrace]
    rfl
  have hcareful : ∀ m e, readTwice.event m = some e →
      Careful (readTwice.trace m) (readTwice.state m) e := by
    intro m e he
    have hm : m < 5 := (List.getElem?_eq_some_iff.mp he).1
    refine ⟨hfree m hm e he, ?_⟩
    intro d hstart
    have hread : ∀ e ∈ readAgain, e.start? ≠ some ((), .write) := by
      decide
    exact absurd hstart (hread e (List.mem_of_getElem? he))
  have hfair : readTwice.Fair (Event.CallsWork () ()) (Event.CallsWork () ()) := by
    refine Execution.fair_ofEnabled ?_
    intro e hcalls hguard
    cases e with
    | work d events op progress =>
        obtain ⟨data, hdata, -, -, hop⟩ := notification_guard hguard rfl
        rw [hstopped data hdata] at hop
        cases hop
    | _ =>
        exact hcalls.elim
  obtain ⟨hcan, hserved⟩ := waiting_served hcareful hpending
  exact ⟨hcan, hserved hfair⟩

end Executions

end Io
end Ptl

import Ptl.IoService
import Mathlib.Data.List.Nodup

/-!
# Dispatching completed operations

When an operation completes, nobody stops the watcher of its descriptor and
nobody clears `current_op_`: the next event of the same kind calls `work()` of
the completed operation again.  This module says exactly which runs are free of
that.

**Invariant.**  `Consistent` relates the descriptors to the past of the run: an
active watcher has a current operation, a current operation has been begun, and
the coroutines are in the state the trace says.

**Results.**
* `consistent_of_run`: the invariant holds in every run.
* `no_redispatch_iff`: `work()` is called only on operations that were begun and
  have not resumed their coroutine, and every coroutine is resumed at most once,
  exactly in the runs in which a descriptor whose last operation has completed
  gets no event of that operation's kind.
-/

namespace Ptl
namespace Io

open Transition

universe u v

variable {δ : Type u} {ι : Type v}

/-- The descriptor and the events of a call of `ev_notification`. -/
def Event.notification? : Event δ ι → Option (δ × Nat)
  | .ignored d events => some (d, events)
  | .work d events _ _ => some (d, events)
  | .workNull d events => some (d, events)
  | _ => none

/-- `work()` is called on an operation that waits for it. -/
def DispatchesWaiting (es : List (Event δ ι)) : Event δ ι → Prop
  | .work _ _ op _ => op ∈ started es ∧ op ∉ resumed es
  | .workNull _ _ => False
  | _ => True

/--
No completed operation is dispatched again: every `work()` of the run is called
on an operation that was handed to `start_io` and has not resumed its coroutine,
and every operation resumes its coroutine at most once.
-/
def NoRedispatch (tr : List (Event δ ι)) : Prop :=
  System.History DispatchesWaiting tr ∧ (resumed tr).Nodup

/--
An event delivered to a descriptor whose current operation has completed does
not contain the kind of that operation.
-/
def QuietWhenDone (s : Service δ ι) (e : Event δ ι) : Prop :=
  ∀ note ∈ e.notification?,
    ∀ data ∈ s.data note.1,
      ∀ op ∈ data.currentOp,
        s.coroutine op = .resumed → ¬ data.Wants note.2

instance decidableQuietWhenDone (s : Service δ ι) (e : Event δ ι) :
    Decidable (QuietWhenDone s e) :=
  inferInstanceAs
    (Decidable
      (∀ note ∈ e.notification?,
        ∀ data ∈ s.data note.1,
          ∀ op ∈ data.currentOp,
            s.coroutine op = .resumed → ¬ data.Wants note.2))

/-- The invariant of a run. -/
structure Consistent (tr : List (Event δ ι)) (s : Service δ ι) : Prop where
  current : ∀ d data, s.data d = some data → data.ev.active = true →
    data.currentOp ≠ none
  begun : ∀ d data op, s.data d = some data → data.currentOp = some op →
    op ∈ started tr
  running : ∀ op, s.coroutine op = .running ↔ op ∉ started tr
  resumed : ∀ op, s.coroutine op = .resumed ↔ op ∈ Io.resumed tr

theorem consistent_start :
    Consistent [] (Service.start : Service δ ι) where
  current := by
    rintro d data h
    simp [Service.start] at h
  begun := by
    rintro d data op h
    simp [Service.start] at h
  running := by
    simp [Service.start, started]
  resumed := by
    simp [Service.start, Io.resumed]

section Step

theorem started_append_singleton
    (tr : List (Event δ ι)) (e : Event δ ι) :
    started (tr ++ [e]) = started tr ++ e.starter?.toList :=
  filterMap_append_singleton Event.starter? tr e

theorem resumed_append_singleton
    (tr : List (Event δ ι)) (e : Event δ ι) :
    Io.resumed (tr ++ [e]) = Io.resumed tr ++ e.resumer?.toList :=
  filterMap_append_singleton Event.resumer? tr e

/-- Where the data of a descriptor after an event come from. -/
theorem nextData_cases
    {e : Event δ ι} {before : Option (DescriptorServiceData ι)}
    {data : DescriptorServiceData ι}
    (h : e.nextData before = some data) :
    (data.ev.active = false ∧ data.currentOp = none) ∨
      (∃ op, data.currentOp = some op ∧
        (e.starter? = some op ∨
          ∃ d events progress, e = .work d events op progress)) ∨
      before = some data := by
  cases e with
  | registerDescriptor d =>
      left
      obtain rfl : DescriptorServiceData.register = data := by
        simpa [Event.nextData] using h
      exact ⟨rfl, rfl⟩
  | deregisterDescriptor d =>
      simp [Event.nextData] at h
  | startIo d kind op =>
      right
      left
      obtain ⟨x, -, rfl⟩ := Option.map_eq_some_iff.mp h
      exact ⟨op, x.startIo_currentOp kind op, Or.inl rfl⟩
  | stopIo d =>
      left
      obtain ⟨x, -, rfl⟩ := Option.map_eq_some_iff.mp h
      exact ⟨rfl, rfl⟩
  | work d events op progress =>
      right
      cases progress with
      | startIo kind =>
          left
          obtain ⟨x, -, rfl⟩ := Option.map_eq_some_iff.mp h
          exact ⟨op, x.startIo_currentOp kind op,
            Or.inr ⟨d, events, _, rfl⟩⟩
      | done =>
          exact Or.inr h
  | ignored d events =>
      exact Or.inr (Or.inr h)
  | workNull d events =>
      exact Or.inr (Or.inr h)

variable [DecidableEq δ] [DecidableEq ι]
variable {tr : List (Event δ ι)} {s : Service δ ι}

omit [DecidableEq δ] [DecidableEq ι] in
theorem descriptor_of_notification
    {e : Event δ ι} {d : δ} {events : Nat}
    (hnote : e.notification? = some (d, events)) :
    e.descriptor = d := by
  cases e <;> simp_all [Event.notification?, Event.descriptor]

/-- What a notification finds on its descriptor. -/
theorem notification_guard
    {e : Event δ ι} {d : δ} {events : Nat}
    (h : service.guard s e)
    (hnote : e.notification? = some (d, events)) :
    ∃ data, s.data d = some data ∧ e.onData data := by
  obtain rfl := descriptor_of_notification hnote
  change e.guard s at h
  cases hd : s.data e.descriptor with
  | none =>
      cases e <;>
        simp_all [Event.guard, Event.descriptor, Event.notification?]
  | some data =>
      refine ⟨data, rfl, ?_⟩
      cases e <;>
        simp_all [Event.guard, Event.descriptor, Event.notification?]

theorem startIo_guard
    {d : δ} {kind : IoKind} {op : ι}
    (h : service.guard s (.startIo d kind op)) :
    s.coroutine op = .running := by
  change Event.guard s (.startIo d kind op) at h
  cases hd : s.data d with
  | none =>
      simp [Event.guard, Event.descriptor, hd] at h
  | some data =>
      simpa [Event.guard, Event.descriptor, hd] using h

theorem startIo_data
    {d : δ} {kind : IoKind} {op : ι}
    (h : service.guard s (.startIo d kind op)) :
    ∃ data, s.data d = some data := by
  change Event.guard s (.startIo d kind op) at h
  cases hd : s.data d with
  | none =>
      simp [Event.guard, Event.descriptor, hd] at h
  | some data =>
      exact ⟨data, rfl⟩

/-- An operation whose `work()` is called has been begun. -/
theorem Consistent.work_begun
    {d : δ} {events : Nat} {op : ι} {progress : Progress}
    (hs : Consistent tr s)
    (h : service.guard s (.work d events op progress)) :
    op ∈ started tr := by
  obtain ⟨data, hdata, -, -, hop⟩ := notification_guard h rfl
  exact hs.begun d data op hdata hop

/-- No event finds `current_op_` to be null. -/
theorem Consistent.not_workNull
    {d : δ} {events : Nat}
    (hs : Consistent tr s) :
    ¬ service.guard s (.workNull d events) := by
  rintro h
  obtain ⟨data, hdata, hev, -, hop⟩ := notification_guard h rfl
  exact hs.current d data hdata hev.1 hop

theorem next_data_self (e : Event δ ι) :
    (service.next s e).data e.descriptor =
      e.nextData (s.data e.descriptor) := by
  simp [service, Event.next]

theorem next_data_of_ne
    {e : Event δ ι} {d : δ}
    (hd : d ≠ e.descriptor) :
    (service.next s e).data d = s.data d := by
  simp [service, Event.next, hd]

/-- Data after an event are new or were there before. -/
theorem next_data_cases
    {e : Event δ ι} {d : δ} {data : DescriptorServiceData ι}
    (h : (service.next s e).data d = some data) :
    (data.ev.active = false ∧ data.currentOp = none) ∨
      (∃ op, data.currentOp = some op ∧
        (e.starter? = some op ∨
          ∃ d events progress, e = .work d events op progress)) ∨
      s.data d = some data := by
  by_cases hd : d = e.descriptor
  · subst hd
    exact nextData_cases (next_data_self (s := s) e ▸ h)
  · rw [next_data_of_ne hd] at h
    exact Or.inr (Or.inr h)

/-- One event keeps the invariant. -/
theorem Consistent.step
    {e : Event δ ι}
    (hs : Consistent tr s)
    (hguard : service.guard s e) :
    Consistent (tr ++ [e]) (service.next s e) where
  current := by
    rintro d data hdata hactive
    rcases next_data_cases hdata with ⟨hstop, -⟩ | ⟨op, hop, -⟩ | hold
    · rw [hstop] at hactive
      exact absurd hactive Bool.false_ne_true
    · rw [hop]
      exact Option.some_ne_none op
    · exact hs.current d data hold hactive
  begun := by
    rintro d data op hdata hop
    rw [started_append_singleton, List.mem_append]
    rcases next_data_cases hdata with
      ⟨-, hnull⟩ | ⟨op', hop', hstart | ⟨d', events, progress, rfl⟩⟩ | hold
    · rw [hnull] at hop
      cases hop
    · obtain rfl : op = op' := Option.some.inj (hop.symm.trans hop')
      right
      simp [hstart]
    · obtain rfl : op = op' := Option.some.inj (hop.symm.trans hop')
      left
      exact hs.work_begun hguard
    · left
      exact hs.begun d data op hold hop
  running := by
    rintro op
    rw [started_append_singleton, List.mem_append]
    change e.nextCoroutine s.coroutine op = .running ↔ _
    have hrunning := hs.running op
    cases e with
    | startIo d kind op' =>
        by_cases hop : op = op'
        · simp [Event.nextCoroutine, Event.starter?, hop]
        · simp [Event.nextCoroutine, Event.starter?, hop, hrunning]
    | work d events op' progress =>
        cases progress with
        | startIo kind =>
            simpa [Event.nextCoroutine, Event.starter?] using hrunning
        | done =>
            by_cases hop : op = op'
            · simp [Event.nextCoroutine, Event.starter?, hop,
                hs.work_begun hguard]
            · simp [Event.nextCoroutine, Event.starter?, hop, hrunning]
    | _ =>
        simpa [Event.nextCoroutine, Event.starter?] using hrunning
  resumed := by
    rintro op
    rw [resumed_append_singleton, List.mem_append]
    change e.nextCoroutine s.coroutine op = .resumed ↔ _
    have hresumed := hs.resumed op
    cases e with
    | startIo d kind op' =>
        by_cases hop : op = op'
        · subst hop
          rw [startIo_guard hguard] at hresumed
          simpa [Event.nextCoroutine, Event.resumer?] using hresumed
        · simp [Event.nextCoroutine, Event.resumer?, hop, hresumed]
    | work d events op' progress =>
        cases progress with
        | startIo kind =>
            simpa [Event.nextCoroutine, Event.resumer?] using hresumed
        | done =>
            by_cases hop : op = op'
            · simp [Event.nextCoroutine, Event.resumer?, hop]
            · simp [Event.nextCoroutine, Event.resumer?, hop, hresumed]
    | _ =>
        simpa [Event.nextCoroutine, Event.resumer?] using hresumed

theorem consistent_of_run
    (hrun : service.Run tr s) :
    Consistent tr s := by
  refine hrun.invariant ?_ ?_
  · rintro _ rfl
    exact consistent_start
  · rintro tr s e - hs hguard
    exact hs.step hguard

/-- A step dispatches a waiting operation exactly when the condition holds. -/
theorem quietWhenDone_iff
    {e : Event δ ι}
    (hs : Consistent tr s)
    (hguard : service.guard s e) :
    QuietWhenDone s e ↔ DispatchesWaiting tr e := by
  cases e with
  | work d events op progress =>
      obtain ⟨data, hdata, -, hwants, hop⟩ := notification_guard hguard rfl
      constructor
      · rintro hquiet
        refine ⟨hs.work_begun hguard, ?_⟩
        rintro hmem
        exact hquiet (d, events) rfl data hdata op hop
          ((hs.resumed op).mpr hmem) hwants
      · rintro ⟨-, hmem⟩ note hnote data' hdata' op' hop' hdone -
        obtain rfl : (d, events) = note := Option.some.inj hnote
        obtain rfl : data = data' := Option.some.inj (hdata.symm.trans hdata')
        obtain rfl : op = op' := Option.some.inj (hop.symm.trans hop')
        exact hmem ((hs.resumed op).mp hdone)
  | ignored d events =>
      obtain ⟨data, hdata, -, hwants⟩ := notification_guard hguard rfl
      refine ⟨fun _ => trivial, ?_⟩
      rintro - note hnote data' hdata' op' - -
      obtain rfl : (d, events) = note := Option.some.inj hnote
      obtain rfl : data = data' := Option.some.inj (hdata.symm.trans hdata')
      exact hwants
  | workNull d events =>
      exact absurd hguard hs.not_workNull
  | _ =>
      refine ⟨fun _ => trivial, ?_⟩
      rintro - note hnote
      cases hnote

omit [DecidableEq δ] [DecidableEq ι] in
/-- Resuming a waiting operation resumes it for the first time. -/
theorem nodup_resumed_step
    {e : Event δ ι}
    (he : DispatchesWaiting tr e)
    (hnodup : (Io.resumed tr).Nodup) :
    (Io.resumed (tr ++ [e])).Nodup := by
  rw [resumed_append_singleton]
  cases e with
  | work d events op progress =>
      cases progress with
      | startIo kind =>
          simpa [Event.resumer?] using hnodup
      | done =>
          refine List.nodup_append'.mpr ⟨hnodup, List.nodup_singleton op, ?_⟩
          exact List.disjoint_singleton.mpr he.2
  | _ =>
      simpa [Event.resumer?] using hnodup

/--
No completed operation is dispatched again exactly in the runs in which a
descriptor whose current operation has completed gets no event of its kind.
-/
theorem no_redispatch_iff
    (hrun : service.Run tr s) :
    NoRedispatch tr ↔ service.Along QuietWhenDone .start tr := by
  refine hrun.along_iff (fun _ h => h) ?_ ?_
  · simp [NoRedispatch, System.history_nil, Io.resumed]
  · intro tr s e hrun hguard
    have hs := consistent_of_run hrun
    simp only [NoRedispatch, System.history_append_singleton,
      quietWhenDone_iff hs hguard]
    constructor
    · rintro ⟨⟨htr, he⟩, hnodup⟩
      rw [resumed_append_singleton, List.nodup_append'] at hnodup
      exact ⟨⟨htr, hnodup.1⟩, he⟩
    · rintro ⟨⟨htr, hnodup⟩, he⟩
      exact ⟨⟨htr, he⟩, nodup_resumed_step he hnodup⟩

end Step

/-- The second event finds the completed operation of the first. -/
def dispatchTwice : List (Event Unit Unit) :=
  [.registerDescriptor (),
    .startIo () .read (),
    .work () EV_READ () .done,
    .work () EV_READ () .done]

theorem not_noRedispatch_dispatchTwice :
    service.Run dispatchTwice (service.exec .start dispatchTwice) ∧
      ¬ NoRedispatch dispatchTwice := by
  refine ⟨.of_enabled rfl (by decide +kernel), ?_⟩
  rintro ⟨-, hnodup⟩
  exact absurd hnodup (by decide)

/-- The next operation starts before the descriptor is ready again. -/
def dispatchFresh : List (Event Unit Bool) :=
  [.registerDescriptor (),
    .startIo () .read false,
    .work () EV_READ false (.startIo .read),
    .work () EV_READ false .done,
    .startIo () .read true,
    .work () EV_READ true .done]

theorem no_redispatch_dispatchFresh :
    NoRedispatch dispatchFresh := by
  have hrun :
      service.Run dispatchFresh (service.exec .start dispatchFresh) :=
    .of_enabled rfl (by decide +kernel)
  exact (no_redispatch_iff hrun).mpr (by decide +kernel)

end Io
end Ptl

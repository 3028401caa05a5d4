import Ptl.IoDispatch

/-!
# Two operations on one descriptor

A descriptor has one `(current_io_, current_op_)` record.  `start_io` overwrites
it without looking at what is there, so an operation that waits on a descriptor
is forgotten when another one is started on it.

`pending` reads off the trace which operations wait on which descriptor, and for
which kind of event.

**Results.**
* `tracks_of_run`: an operation that the record names and whose coroutine is
  suspended is pending with the recorded kind.
* `fullDuplex_iff`: pending operations stay registered, and events of their kind
  are dispatched to them, exactly in the runs in which an operation is started
  on a descriptor only when the recorded one has completed.
-/

namespace Ptl
namespace Io

open Transition

universe u v

variable {δ : Type u} {ι : Type v}

section Pending

variable [DecidableEq δ] [DecidableEq ι]

/-- What an event does to the operations that wait. -/
def pendingStep (p : δ → ι → Option IoKind) :
    Event δ ι → δ → ι → Option IoKind
  | .startIo d kind op, d', op' =>
      if d' = d ∧ op' = op then some kind else p d' op'
  | .work d _ op (.startIo kind), d', op' =>
      if d' = d ∧ op' = op then (p d' op').map fun _ => kind else p d' op'
  | .work _ _ op .done, d', op' => if op' = op then none else p d' op'
  | .registerDescriptor _, d', op' => p d' op'
  | .deregisterDescriptor d, d', op' => if d' = d then none else p d' op'
  | .stopIo d, d', op' => if d' = d then none else p d' op'
  | .ignored _ _, d', op' => p d' op'
  | .workNull _ _, d', op' => p d' op'

/--
The kind of event for which the operation waits on the descriptor, if it was
started there and has neither completed nor been stopped.
-/
def pending (tr : List (Event δ ι)) : δ → ι → Option IoKind :=
  tr.foldl pendingStep fun _ _ => none

theorem pending_append_singleton
    (tr : List (Event δ ι)) (e : Event δ ι) :
    pending (tr ++ [e]) = pendingStep (pending tr) e := by
  rw [pending, List.foldl_append]
  rfl

/-- The descriptor's record names the operation and the kind of its event. -/
def DescriptorServiceData.Names
    (data : DescriptorServiceData ι) (kind : IoKind) (op : ι) : Prop :=
  data.currentOp = some op ∧ data.currentIo = kind

/-- Every pending operation is registered. -/
def Registered (tr : List (Event δ ι)) (s : Service δ ι) : Prop :=
  ∀ d op kind, pending tr d op = some kind →
    ∃ data, s.data d = some data ∧ data.Names kind op

/-- An event that a pending operation waits for calls its `work()`. -/
def DispatchesPending (es : List (Event δ ι)) (e : Event δ ι) : Prop :=
  ∀ d events, e.notification? = some (d, events) →
    ∀ op kind, pending es d op = some kind →
      events &&& kind.toNat = kind.toNat →
      ∃ progress, e = .work d events op progress

/--
At every moment of the run the pending operations are registered, and every
event of the run is dispatched to the operation that waits for it.
-/
def FullDuplex (tr : List (Event δ ι)) : Prop :=
  System.History
    (fun es e =>
      DispatchesPending es e ∧
        Registered (es ++ [e]) (service.exec .start (es ++ [e])))
    tr

omit [DecidableEq δ] [DecidableEq ι] in
/-- `start_io` finds no operation, or one that has completed. -/
def StartsWhenFree (s : Service δ ι) : Event δ ι → Prop
  | .startIo d _ _ =>
      ∀ data ∈ s.data d, ∀ op ∈ data.currentOp, s.coroutine op = .resumed
  | _ => True

instance decidableStartsWhenFree (s : Service δ ι) (e : Event δ ι) :
    Decidable (StartsWhenFree s e) :=
  match e with
  | .startIo d _ _ =>
      inferInstanceAs (Decidable
        (∀ data ∈ s.data d, ∀ op ∈ data.currentOp, s.coroutine op = .resumed))
  | .registerDescriptor _ | .deregisterDescriptor _ | .stopIo _ | .ignored _ _
  | .work _ _ _ _ | .workNull _ _ => isTrue trivial

end Pending

section Tracks

/-- The record of a descriptor and the coroutines agree with the trace. -/
structure Tracks [DecidableEq δ] [DecidableEq ι]
    (tr : List (Event δ ι)) (s : Service δ ι) : Prop where
  named : ∀ d data op, s.data d = some data → data.currentOp = some op →
    s.coroutine op = .suspended → pending tr d op = some data.currentIo
  suspended : ∀ d op kind, pending tr d op = some kind →
    s.coroutine op = .suspended

variable [DecidableEq δ] [DecidableEq ι]
variable {tr : List (Event δ ι)} {s : Service δ ι} {e : Event δ ι}

omit [DecidableEq δ] [DecidableEq ι] in
@[simp] theorem startIo_currentIo
    (data : DescriptorServiceData ι) (kind : IoKind) (op : ι) :
    (data.startIo kind op).currentIo = kind := by
  unfold DescriptorServiceData.startIo
  split <;> rfl

omit [DecidableEq δ] [DecidableEq ι] in
theorem names_startIo
    (data : DescriptorServiceData ι) (kind : IoKind) (op : ι) :
    (data.startIo kind op).Names kind op :=
  ⟨data.startIo_currentOp kind op, startIo_currentIo data kind op⟩

/-- The data that the event leaves on its own descriptor. -/
theorem next_data
    (d : δ) :
    (service.next s e).data d =
      if d = e.descriptor then e.nextData (s.data d) else s.data d := by
  by_cases hd : d = e.descriptor
  · subst hd
    rw [if_pos rfl, next_data_self]
  · rw [if_neg hd, next_data_of_ne hd]

theorem next_coroutine :
    (service.next s e).coroutine = e.nextCoroutine s.coroutine := by
  rfl

omit [DecidableEq δ] [DecidableEq ι] in
/-- An operation that is recorded anywhere is not about to be begun. -/
theorem recorded_not_running
    {d : δ} {data : DescriptorServiceData ι} {op : ι}
    (hs : Consistent tr s)
    (hdata : s.data d = some data)
    (hop : data.currentOp = some op) :
    s.coroutine op ≠ .running := by
  intro hrunning
  exact (hs.running op).mp hrunning (hs.begun d data op hdata hop)

/-- The record still agrees after an event. -/
theorem Tracks.named_step
    (hc : Consistent tr s)
    (hs : Tracks tr s)
    (hguard : service.guard s e)
    {d : δ} {data : DescriptorServiceData ι} {op : ι}
    (hdata : (service.next s e).data d = some data)
    (hop : data.currentOp = some op)
    (hcoroutine : (service.next s e).coroutine op = .suspended) :
    pending (tr ++ [e]) d op = some data.currentIo := by
  rw [pending_append_singleton]
  rw [next_data] at hdata
  rw [next_coroutine] at hcoroutine
  cases e with
  | startIo d' kind op' =>
      by_cases hd : d = d'
      · subst hd
        rw [Event.descriptor, if_pos rfl] at hdata
        obtain ⟨x, -, rfl⟩ := Option.map_eq_some_iff.mp hdata
        obtain rfl : op' = op := by simpa using hop
        simp [pendingStep]
      · rw [Event.descriptor, if_neg hd] at hdata
        have hne : op ≠ op' := by
          intro h
          subst h
          exact recorded_not_running hc hdata hop (startIo_guard hguard)
        have hold := hs.named d data op hdata hop
          (by simpa [Event.nextCoroutine, hne] using hcoroutine)
        simpa [pendingStep, hd] using hold
  | work d' events op' progress =>
      obtain ⟨x, hx, -, -, hx'⟩ := notification_guard hguard rfl
      cases progress with
      | startIo kind =>
          by_cases hd : d = d'
          · subst hd
            rw [Event.descriptor, if_pos rfl, Event.nextData, hx] at hdata
            obtain rfl : x.startIo kind op' = data := by simpa using hdata
            obtain rfl : op' = op := by simpa using hop
            simp [pendingStep, hs.named d x op' hx hx' hcoroutine]
          · rw [Event.descriptor, if_neg hd] at hdata
            simpa [pendingStep, hd] using hs.named d data op hdata hop hcoroutine
      | done =>
          have hold : s.data d = some data := by
            simpa [Event.nextData] using hdata
          have hne : op ≠ op' := by
            intro h
            subst h
            simp [Event.nextCoroutine] at hcoroutine
          simpa [pendingStep, hne] using hs.named d data op hold hop
            (by simpa [Event.nextCoroutine, hne] using hcoroutine)
  | stopIo d' =>
      by_cases hd : d = d'
      · rw [Event.descriptor, if_pos hd] at hdata
        obtain ⟨x, -, rfl⟩ := Option.map_eq_some_iff.mp hdata
        cases hop
      · rw [Event.descriptor, if_neg hd] at hdata
        simpa [pendingStep, hd] using hs.named d data op hdata hop hcoroutine
  | registerDescriptor d' =>
      by_cases hd : d = d'
      · rw [Event.descriptor, if_pos hd] at hdata
        obtain rfl : DescriptorServiceData.register = data := by
          simpa [Event.nextData] using hdata
        cases hop
      · rw [Event.descriptor, if_neg hd] at hdata
        exact hs.named d data op hdata hop hcoroutine
  | deregisterDescriptor d' =>
      by_cases hd : d = d'
      · simp [Event.descriptor, Event.nextData, hd] at hdata
      · rw [Event.descriptor, if_neg hd] at hdata
        simpa [pendingStep, hd] using hs.named d data op hdata hop hcoroutine
  | ignored d' events =>
      exact hs.named d data op (by simpa [Event.nextData] using hdata) hop
        hcoroutine
  | workNull d' events =>
      exact hs.named d data op (by simpa [Event.nextData] using hdata) hop
        hcoroutine

/-- Only a suspended coroutine waits after an event. -/
theorem Tracks.suspended_step
    (hs : Tracks tr s)
    {d : δ} {op : ι} {kind : IoKind}
    (hpending : pending (tr ++ [e]) d op = some kind) :
    (service.next s e).coroutine op = .suspended := by
  rw [pending_append_singleton] at hpending
  rw [next_coroutine]
  cases e with
  | startIo d' kind' op' =>
      by_cases hop : op = op'
      · simp [Event.nextCoroutine, hop]
      · have hold : pending tr d op = some kind := by
          simpa [pendingStep, hop] using hpending
        simpa [Event.nextCoroutine, hop] using hs.suspended d op kind hold
  | work d' events op' progress =>
      cases progress with
      | startIo kind' =>
          have hold : ∃ k, pending tr d op = some k := by
            by_cases h : d = d' ∧ op = op'
            · obtain ⟨k, hk, -⟩ := Option.map_eq_some_iff.mp
                ((if_pos h).symm.trans hpending)
              exact ⟨k, hk⟩
            · exact ⟨kind, (if_neg h).symm.trans hpending⟩
          obtain ⟨k, hk⟩ := hold
          exact hs.suspended d op k hk
      | done =>
          by_cases hop : op = op'
          · simp [pendingStep, hop] at hpending
          · have hold : pending tr d op = some kind := by
              simpa [pendingStep, hop] using hpending
            simpa [Event.nextCoroutine, hop] using hs.suspended d op kind hold
  | stopIo d' =>
      by_cases hd : d = d'
      · simp [pendingStep, hd] at hpending
      · exact hs.suspended d op kind ((if_neg hd).symm.trans hpending)
  | deregisterDescriptor d' =>
      by_cases hd : d = d'
      · simp [pendingStep, hd] at hpending
      · exact hs.suspended d op kind ((if_neg hd).symm.trans hpending)
  | registerDescriptor d' =>
      exact hs.suspended d op kind hpending
  | ignored d' events =>
      exact hs.suspended d op kind hpending
  | workNull d' events =>
      exact hs.suspended d op kind hpending

theorem tracks_of_run
    (hrun : service.Run tr s) :
    Tracks tr s := by
  refine hrun.invariant (I := Tracks) ?_ ?_
  · intro s hs
    obtain rfl : s = .start := hs
    constructor
    · intro d data op hdata
      simp [Service.start] at hdata
    · intro d op kind hpending
      cases hpending
  · intro tr s e hrun hs hguard
    exact ⟨fun _ _ _ => hs.named_step (consistent_of_run hrun) hguard,
      fun _ _ _ => hs.suspended_step⟩

end Tracks

section FullDuplex

variable [DecidableEq δ] [DecidableEq ι]
variable {tr : List (Event δ ι)} {s : Service δ ι} {e : Event δ ι}

theorem registerDescriptor_data
    {d : δ}
    (h : service.guard s (.registerDescriptor d)) :
    s.data d = none := by
  change Event.guard s (.registerDescriptor d) at h
  cases hd : s.data d with
  | none =>
      rfl
  | some data =>
      simp [Event.guard, Event.descriptor, hd] at h

/-- An operation that the event does not touch stays registered. -/
theorem Registered.of_ne
    (hs : Registered tr s)
    {d : δ} {op : ι} {kind : IoKind}
    (hd : d ≠ e.descriptor)
    (hpending : pending tr d op = some kind) :
    ∃ data, (service.next s e).data d = some data ∧ data.Names kind op := by
  obtain ⟨data, hdata, hnames⟩ := hs d op kind hpending
  exact ⟨data, (next_data_of_ne hd).trans hdata, hnames⟩

omit [DecidableEq δ] in
/-- The descriptor's data are those of before. -/
theorem data_of_nextData
    {d : δ} {data : DescriptorServiceData ι} [DecidableEq δ]
    (hdata : s.data d = some data)
    (hkept : e.nextData (s.data d) = s.data d) :
    (service.next s e).data d = some data := by
  rw [next_data, hkept, ite_self, hdata]

theorem Registered.step
    (ht : Tracks tr s)
    (hs : Registered tr s)
    (hguard : service.guard s e)
    (hfree : StartsWhenFree s e) :
    Registered (tr ++ [e]) (service.next s e) := by
  intro d op kind hpending
  rw [pending_append_singleton] at hpending
  cases e with
  | startIo d' kind' op' =>
      by_cases hd : d = d'
      · subst hd
        by_cases hop : op = op'
        · subst hop
          obtain rfl : kind' = kind := by simpa [pendingStep] using hpending
          obtain ⟨x, hx⟩ := startIo_data hguard
          refine ⟨x.startIo kind' op, ?_, names_startIo x kind' op⟩
          exact (next_data_self (s := s) (.startIo d kind' op)).trans
            (congrArg (Option.map _) hx)
        · -- The operation that waits here is the recorded one.
          have hold : pending tr d op = some kind := by
            simpa [pendingStep, hop] using hpending
          obtain ⟨data, hdata, hcurrent, -⟩ := hs d op kind hold
          have hresumed := hfree data hdata op hcurrent
          rw [ht.suspended d op kind hold] at hresumed
          cases hresumed
      · exact hs.of_ne hd (by simpa [pendingStep, hd] using hpending)
  | work d' events op' progress =>
      obtain ⟨x, hx, -, -, hcurrent'⟩ := notification_guard hguard rfl
      cases progress with
      | startIo kind' =>
          by_cases hd : d = d'
          · subst hd
            by_cases hop : op = op'
            · subst hop
              obtain ⟨-, -, rfl⟩ := Option.map_eq_some_iff.mp
                ((if_pos ⟨rfl, rfl⟩).symm.trans hpending)
              refine ⟨x.startIo kind' op, ?_, names_startIo x kind' op⟩
              exact (next_data_self (s := s)
                (.work d events op (.startIo kind'))).trans
                (congrArg (Option.map _) hx)
            · have hold : pending tr d op = some kind := by
                simpa [pendingStep, hop] using hpending
              obtain ⟨data, hdata, hcurrent, -⟩ := hs d op kind hold
              obtain rfl := Option.some.inj (hx.symm.trans hdata)
              exact absurd (Option.some.inj (hcurrent.symm.trans hcurrent')) hop
          · exact hs.of_ne hd (by simpa [pendingStep, hd] using hpending)
      | done =>
          by_cases hop : op = op'
          · simp [pendingStep, hop] at hpending
          · obtain ⟨data, hdata, hnames⟩ := hs d op kind
              (by simpa [pendingStep, hop] using hpending)
            exact ⟨data, data_of_nextData hdata rfl, hnames⟩
  | stopIo d' =>
      by_cases hd : d = d'
      · simp [pendingStep, hd] at hpending
      · exact hs.of_ne hd ((if_neg hd).symm.trans hpending)
  | deregisterDescriptor d' =>
      by_cases hd : d = d'
      · simp [pendingStep, hd] at hpending
      · exact hs.of_ne hd ((if_neg hd).symm.trans hpending)
  | registerDescriptor d' =>
      by_cases hd : d = d'
      · subst hd
        obtain ⟨data, hdata, -⟩ := hs d op kind hpending
        rw [registerDescriptor_data hguard] at hdata
        cases hdata
      · exact hs.of_ne hd hpending
  | ignored d' events =>
      obtain ⟨data, hdata, hnames⟩ := hs d op kind hpending
      exact ⟨data, data_of_nextData hdata rfl, hnames⟩
  | workNull d' events =>
      obtain ⟨data, hdata, hnames⟩ := hs d op kind hpending
      exact ⟨data, data_of_nextData hdata rfl, hnames⟩

/-- A registered operation gets the events of its kind. -/
theorem Registered.dispatches
    (hs : Registered tr s)
    (hguard : service.guard s e) :
    DispatchesPending tr e := by
  intro d events hnote op kind hpending hkind
  obtain ⟨data, hdata, hcurrent, hio⟩ := hs d op kind hpending
  obtain ⟨data', hdata', hon⟩ := notification_guard hguard hnote
  obtain rfl := Option.some.inj (hdata.symm.trans hdata')
  have hwants : data.Wants events := by
    rw [DescriptorServiceData.Wants, hio]
    exact hkind
  cases e with
  | ignored d' events' =>
      obtain ⟨rfl, rfl⟩ : d' = d ∧ events' = events := by
        simpa [Event.notification?] using hnote
      exact absurd hwants hon.2
  | workNull d' events' =>
      have hnull := hon.2.2
      rw [hcurrent] at hnull
      cases hnull
  | work d' events' op' progress =>
      obtain ⟨rfl, rfl⟩ : d' = d ∧ events' = events := by
        simpa [Event.notification?] using hnote
      obtain rfl := Option.some.inj (hcurrent.symm.trans hon.2.2)
      exact ⟨progress, rfl⟩
  | _ =>
      cases hnote

/-- If everything stays registered, no waiting operation was replaced. -/
theorem startsWhenFree_of_registered
    (hc : Consistent tr s)
    (ht : Tracks tr s)
    (hguard : service.guard s e)
    (hnext : Registered (tr ++ [e]) (service.next s e)) :
    StartsWhenFree s e := by
  cases e with
  | startIo d kind op =>
      intro data hdata op' hop'
      have hne : op' ≠ op := by
        intro h
        subst h
        exact recorded_not_running hc hdata hop' (startIo_guard hguard)
      cases hcoroutine : s.coroutine op' with
      | resumed =>
          rfl
      | running =>
          exact absurd hcoroutine (recorded_not_running hc hdata hop')
      | suspended =>
          have hold := ht.named d data op' hdata hop' hcoroutine
          have hpending :
              pending (tr ++ [.startIo d kind op]) d op' =
                some data.currentIo := by
            rw [pending_append_singleton]
            simpa [pendingStep, hne] using hold
          obtain ⟨data', hdata', hcurrent, -⟩ := hnext d op' _ hpending
          have hnew := (next_data_self (s := s) (.startIo d kind op)).trans
            (congrArg (Option.map _) hdata)
          obtain rfl := Option.some.inj (hnew.symm.trans hdata')
          rw [DescriptorServiceData.startIo_currentOp] at hcurrent
          exact absurd (Option.some.inj hcurrent).symm hne
  | _ =>
      exact trivial

/--
Pending operations stay registered and get the events they wait for exactly in
the runs in which `start_io` never finds an operation that has not completed.
-/
theorem fullDuplex_iff
    (hrun : service.Run tr s) :
    FullDuplex tr ↔ service.Along StartsWhenFree .start tr := by
  refine hrun.history_iff_along (I := Registered) (fun _ h => h) ?_ ?_ ?_
  · intro d op kind hpending
    cases hpending
  · intro tr s e hrun hguard hs
    rw [← (System.Run.step e hrun hguard).eq_exec fun _ h => h]
    have ht := tracks_of_run hrun
    constructor
    · intro h
      exact startsWhenFree_of_registered (consistent_of_run hrun) ht hguard h.2
    · intro hfree
      exact ⟨hs.dispatches hguard, hs.step ht hguard hfree⟩
  · intro tr s e hrun hguard _ hlast
    rw [(System.Run.step e hrun hguard).eq_exec fun _ h => h]
    exact hlast.2

end FullDuplex

/-- A write starts while a read waits, and the event of the read is dropped. -/
def writeDuringRead : List (Event Unit Bool) :=
  [.registerDescriptor (),
    .startIo () .read false,
    .startIo () .write true,
    .ignored () EV_READ]

theorem not_fullDuplex_writeDuringRead :
    service.Run writeDuringRead (service.exec .start writeDuringRead) ∧
      ¬ FullDuplex writeDuringRead := by
  refine ⟨.of_enabled rfl (by decide +kernel), ?_⟩
  intro hfull
  have hdispatch := (hfull [.registerDescriptor (), .startIo () .read false,
    .startIo () .write true] (.ignored () EV_READ) [] rfl).1
  obtain ⟨progress, hwork⟩ :=
    hdispatch () EV_READ rfl false .read (by decide) (by decide)
  cases hwork

/-- The write starts after the read has completed. -/
def writeAfterRead : List (Event Unit Bool) :=
  [.registerDescriptor (),
    .startIo () .read false,
    .work () EV_READ false .done,
    .stopIo (),
    .startIo () .write true,
    .work () EV_WRITE true .done]

theorem fullDuplex_writeAfterRead :
    FullDuplex writeAfterRead := by
  have hrun :
      service.Run writeAfterRead (service.exec .start writeAfterRead) :=
    .of_enabled rfl (by decide +kernel)
  exact (fullDuplex_iff hrun).mpr (by decide +kernel)

end Io
end Ptl

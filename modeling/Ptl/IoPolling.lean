import Ptl.IoDispatch
import Mathlib.Data.Bool.Basic

/-!
# Which events a descriptor is polled for

`start_io` widens the mask of the watcher when the first write is started on a
descriptor, but does not stop the watcher before.  If a read has left it active,
the new mask is not polled for.

`watched` reads off the trace whether anything has been started on a descriptor
since the watcher was last stopped, and whether a write was ever started there.

**Results.**
* `follows_of_run`: the watcher and `registered_events_` are as the trace says.
* `pollsStarted_iff`: every started operation is polled for, and the mask of an
  active watcher is never changed, exactly in the runs in which the first write
  on a descriptor comes before any other operation since its registration or
  its last `stop_io`.
-/

namespace Ptl
namespace Io

open Transition

universe u v

variable {δ : Type u} {ι : Type v}

/-- The descriptor and the kind of a call of `start_io`. -/
def Event.start? : Event δ ι → Option (δ × IoKind)
  | .startIo d kind _ => some (d, kind)
  | .work d _ _ (.startIo kind) => some (d, kind)
  | _ => none

/-- The kernel polls for these events. -/
def EvIo.Polls (w : EvIo) (events : Nat) : Prop :=
  w.active = true ∧ events &&& w.polled = events

/-- The test of `start_io` that leads to `ev_io_set`. -/
def DescriptorServiceData.SetsMask
    (data : DescriptorServiceData ι) (kind : IoKind) : Prop :=
  kind = .write ∧ data.registeredEvents &&& EV_WRITE = 0

/--
A call of `start_io` applies `ev_io_set` to an inactive watcher only, and the
kernel polls for the event of its kind afterwards.
-/
def StartPolls [DecidableEq δ] [DecidableEq ι]
    (s : Service δ ι) (e : Event δ ι) : Prop :=
  ∀ d kind, e.start? = some (d, kind) →
    ∃ before after,
      s.data d = some before ∧
      (service.next s e).data d = some after ∧
      (before.SetsMask kind → before.ev.active = false) ∧
      after.ev.Polls kind.toNat

/-- What has happened to a watcher. -/
structure Watched where
  /-- An operation was started since the watcher was stopped. -/
  started : Bool
  /-- A write was started since the descriptor was registered. -/
  wrote : Bool

/-- The watcher of a descriptor that has just been registered. -/
def Watched.new : Watched where
  started := false
  wrote := false

def Watched.start (w : Watched) (kind : IoKind) : Watched where
  started := true
  wrote := w.wrote || kind == .write

/-- What an event does to the watcher of its descriptor. -/
def Watched.step (w : Watched) : Event δ ι → Watched
  | .registerDescriptor _ => .new
  | .deregisterDescriptor _ => .new
  | .startIo _ kind _ => w.start kind
  | .work _ _ _ (.startIo kind) => w.start kind
  | .stopIo _ => { w with started := false }
  | _ => w

/-- What the trace says about the watcher of a descriptor. -/
def watched [DecidableEq δ] (tr : List (Event δ ι)) : δ → Watched :=
  tr.foldl
    (fun p e => Function.update p e.descriptor ((p e.descriptor).step e))
    fun _ => .new

/--
The first write that is started on a descriptor finds that nothing was started
there since the watcher was registered or stopped.
-/
def FirstWriteIdle [DecidableEq δ]
    (past : List (Event δ ι)) (e : Event δ ι) : Prop :=
  ∀ d, e.start? = some (d, .write) →
    (watched past d).wrote = false → (watched past d).started = false

section Follows

/-- `EV_READ`, and `EV_WRITE` once a write was started. -/
def Watched.mask (w : Watched) : Nat :=
  if w.wrote then EV_READ ||| EV_WRITE else EV_READ

/-- The descriptor's data are as its history says. -/
structure DescriptorServiceData.Follows
    (data : DescriptorServiceData ι) (w : Watched) : Prop where
  active : data.ev.active = w.started
  registered : data.registeredEvents = w.mask
  events : data.ev.events = w.mask

variable {data : DescriptorServiceData ι} {w : Watched}

theorem Watched.mask_write (w : Watched) :
    w.mask &&& EV_WRITE = 0 ↔ w.wrote = false := by
  cases h : w.wrote <;> simp [mask, h, EV_READ, EV_WRITE]

theorem DescriptorServiceData.Follows.setsMask_iff
    {kind : IoKind}
    (h : data.Follows w) :
    data.SetsMask kind ↔ kind = .write ∧ w.wrote = false := by
  rw [SetsMask, h.registered, w.mask_write]

theorem startIo_of_setsMask
    {kind : IoKind} {op : ι}
    (h : data.SetsMask kind) :
    data.startIo kind op =
      { ev := (data.ev.set (EV_READ ||| EV_WRITE)).start
        registeredEvents := data.registeredEvents ||| EV_WRITE
        currentIo := kind
        currentOp := some op } :=
  if_pos h

theorem startIo_of_not_setsMask
    {kind : IoKind} {op : ι}
    (h : ¬ data.SetsMask kind) :
    data.startIo kind op =
      { data with
        ev := data.ev.start
        currentIo := kind
        currentOp := some op } :=
  if_neg h

@[simp] theorem start_events (ev : EvIo) :
    ev.start.events = ev.events := by
  unfold EvIo.start
  split <;> rfl

theorem follows_startIo
    {kind : IoKind} {op : ι}
    (h : data.Follows w) :
    (data.startIo kind op).Follows (w.start kind) := by
  by_cases hset : data.SetsMask kind
  · obtain ⟨hkind, hwrote⟩ := h.setsMask_iff.mp hset
    rw [startIo_of_setsMask hset]
    constructor
    · simp [Watched.start]
    · simp [h.registered, Watched.mask, Watched.start, hkind, hwrote]
    · simp [EvIo.set, Watched.mask, Watched.start, hkind]
  · have hmask : (w.start kind).mask = w.mask := by
      rw [h.setsMask_iff] at hset
      cases hwrote : w.wrote with
      | true =>
          simp [Watched.mask, Watched.start, hwrote]
      | false =>
          have hkind : kind ≠ .write := fun hk => hset ⟨hk, hwrote⟩
          simp [Watched.mask, Watched.start, hwrote, hkind]
    rw [startIo_of_not_setsMask hset]
    constructor
    · simp [Watched.start]
    · exact h.registered.trans hmask.symm
    · exact (start_events data.ev).trans (h.events.trans hmask.symm)

/-- An event keeps the relation between a descriptor's data and its history. -/
theorem follows_nextData
    {e : Event δ ι} {before : Option (DescriptorServiceData ι)}
    (hbefore : ∀ x, before = some x → x.Follows w)
    (hdata : e.nextData before = some data) :
    data.Follows (w.step e) := by
  cases e with
  | registerDescriptor d =>
      obtain rfl : DescriptorServiceData.register = data := by
        simpa [Event.nextData] using hdata
      exact ⟨rfl, rfl, rfl⟩
  | deregisterDescriptor d =>
      simp [Event.nextData] at hdata
  | startIo d kind op =>
      obtain ⟨x, hx, rfl⟩ := Option.map_eq_some_iff.mp hdata
      exact follows_startIo (hbefore x hx)
  | stopIo d =>
      obtain ⟨x, hx, rfl⟩ := Option.map_eq_some_iff.mp hdata
      have h := hbefore x hx
      exact ⟨rfl, h.registered, h.events⟩
  | work d events op progress =>
      cases progress with
      | startIo kind =>
          obtain ⟨x, hx, rfl⟩ := Option.map_eq_some_iff.mp hdata
          exact follows_startIo (hbefore x hx)
      | done =>
          exact hbefore data hdata
  | ignored d events =>
      exact hbefore data hdata
  | workNull d events =>
      exact hbefore data hdata

end Follows

section Current

variable {data : DescriptorServiceData ι} {w : Watched}

/-- An active watcher is polled for its mask. -/
def EvIo.Current (w : EvIo) : Prop :=
  w.active = true → w.polled = w.events

theorem start_current
    {ev : EvIo}
    (h : ev.Current) :
    ev.start.Current := by
  cases hactive : ev.active with
  | false =>
      intro _
      simp [EvIo.start, hactive]
  | true =>
      rw [EvIo.start, if_pos hactive]
      exact h

/-- Unless the mask of an active watcher is changed, it is polled for its mask. -/
theorem startIo_current
    {kind : IoKind} {op : ι}
    (h : data.ev.Current)
    (hset : data.SetsMask kind → data.ev.active = false) :
    (data.startIo kind op).ev.Current := by
  by_cases hmask : data.SetsMask kind
  · rw [startIo_of_setsMask hmask]
    refine start_current fun hactive => ?_
    exact absurd ((hset hmask).symm.trans hactive) Bool.false_ne_true
  · rw [startIo_of_not_setsMask hmask]
    exact start_current h

theorem startIo_active
    {kind : IoKind} {op : ι} :
    (data.startIo kind op).ev.active = true := by
  by_cases hmask : data.SetsMask kind
  · rw [startIo_of_setsMask hmask]
    exact EvIo.start_active _
  · rw [startIo_of_not_setsMask hmask]
    exact EvIo.start_active _

/-- The mask of a started watcher contains the event of the kind. -/
theorem mask_start (w : Watched) (kind : IoKind) :
    kind.toNat &&& (w.start kind).mask = kind.toNat := by
  cases kind <;> cases h : w.wrote <;>
    simp [Watched.mask, Watched.start, h, IoKind.toNat, EV_READ, EV_WRITE]

theorem startIo_polls
    {kind : IoKind} {op : ι}
    (hfollows : data.Follows w)
    (h : data.ev.Current)
    (hset : data.SetsMask kind → data.ev.active = false) :
    (data.startIo kind op).ev.Polls kind.toNat := by
  refine ⟨startIo_active, ?_⟩
  rw [startIo_current h hset startIo_active, (follows_startIo hfollows).events]
  exact mask_start w kind

end Current

section Runs

variable [DecidableEq δ] [DecidableEq ι]
variable {tr : List (Event δ ι)} {s : Service δ ι} {e : Event δ ι}

omit [DecidableEq ι] in
theorem watched_append_singleton
    (tr : List (Event δ ι)) (e : Event δ ι) :
    watched (tr ++ [e]) =
      Function.update (watched tr) e.descriptor
        ((watched tr e.descriptor).step e) := by
  rw [watched, List.foldl_append]
  rfl

/-- The data of every descriptor are as the trace says. -/
theorem follows_of_run
    (hrun : service.Run tr s)
    {d : δ} {data : DescriptorServiceData ι}
    (hdata : s.data d = some data) :
    data.Follows (watched tr d) := by
  refine hrun.invariant
    (I := fun tr s => ∀ d data, s.data d = some data →
      data.Follows (watched tr d)) ?_ ?_ d data hdata
  · intro s hs d data hdata
    obtain rfl : s = .start := hs
    simp [Service.start] at hdata
  · intro tr s e _ ih _ d data hdata
    rw [watched_append_singleton]
    by_cases hd : d = e.descriptor
    · subst hd
      rw [Function.update_self]
      exact follows_nextData (ih e.descriptor)
        ((next_data_self e).symm.trans hdata)
    · rw [Function.update_of_ne hd]
      exact ih d data ((next_data_of_ne hd).symm.trans hdata)

omit [DecidableEq δ] [DecidableEq ι] in
theorem descriptor_of_start?
    {d : δ} {kind : IoKind}
    (h : e.start? = some (d, kind)) :
    e.descriptor = d := by
  cases e with
  | startIo d' kind' op =>
      exact congrArg Prod.fst (Option.some.inj h)
  | work d' events op progress =>
      cases progress with
      | startIo kind' =>
          exact congrArg Prod.fst (Option.some.inj h)
      | done =>
          cases h
  | _ =>
      cases h

/-- What a call of `start_io` finds and leaves. -/
theorem start_guard
    {d : δ} {kind : IoKind}
    (hguard : service.guard s e)
    (hstart : e.start? = some (d, kind)) :
    ∃ before op,
      s.data d = some before ∧
      (service.next s e).data d = some (before.startIo kind op) := by
  obtain rfl := descriptor_of_start? hstart
  cases e with
  | startIo d kind' op =>
      obtain rfl : kind' = kind := congrArg Prod.snd (Option.some.inj hstart)
      obtain ⟨before, hbefore⟩ := startIo_data hguard
      exact ⟨before, op, hbefore,
        (next_data_self _).trans (congrArg (Option.map _) hbefore)⟩
  | work d events op progress =>
      obtain ⟨before, hbefore, -⟩ := notification_guard hguard rfl
      cases progress with
      | startIo kind' =>
          obtain rfl : kind' = kind := congrArg Prod.snd (Option.some.inj hstart)
          exact ⟨before, op, hbefore,
            (next_data_self _).trans (congrArg (Option.map _) hbefore)⟩
      | done =>
          cases hstart
  | _ =>
      cases hstart

omit [DecidableEq ι] in
/-- The watcher is inactive if the mask is about to be changed. -/
theorem inactive_of_firstWriteIdle
    {d : δ} {kind : IoKind} {data : DescriptorServiceData ι}
    (hidle : FirstWriteIdle tr e)
    (hstart : e.start? = some (d, kind))
    (hfollows : data.Follows (watched tr d))
    (hset : data.SetsMask kind) :
    data.ev.active = false := by
  obtain ⟨rfl, hwrote⟩ := hfollows.setsMask_iff.mp hset
  rw [hfollows.active]
  exact hidle d hstart hwrote

/-- Watchers that did not just start are as before, stopped or new. -/
theorem next_ev_of_not_start
    {d : δ} {data : DescriptorServiceData ι}
    (hdata : (service.next s e).data d = some data)
    (hstart : ∀ kind, e.start? ≠ some (d, kind)) :
    s.data d = some data ∨ data.ev.active = false := by
  by_cases hd : d = e.descriptor
  · subst hd
    rw [next_data_self] at hdata
    cases e with
    | registerDescriptor d =>
        obtain rfl : DescriptorServiceData.register = data := by
          simpa [Event.nextData] using hdata
        exact Or.inr rfl
    | deregisterDescriptor d =>
        simp [Event.nextData] at hdata
    | startIo d kind op =>
        exact absurd rfl (hstart kind)
    | stopIo d =>
        obtain ⟨x, -, rfl⟩ := Option.map_eq_some_iff.mp hdata
        exact Or.inr rfl
    | work d events op progress =>
        cases progress with
        | startIo kind =>
            exact absurd rfl (hstart kind)
        | done =>
            exact Or.inl hdata
    | ignored d events =>
        exact Or.inl hdata
    | workNull d events =>
        exact Or.inl hdata
  · exact Or.inl ((next_data_of_ne hd).symm.trans hdata)

/-- All watchers stay up to date if the first writes find them idle. -/
theorem current_next
    (hrun : service.Run tr s)
    (hguard : service.guard s e)
    (hcurrent : ∀ d data, s.data d = some data → data.ev.Current)
    (hidle : FirstWriteIdle tr e)
    {d : δ} {data : DescriptorServiceData ι}
    (hdata : (service.next s e).data d = some data) :
    data.ev.Current := by
  cases hstart : e.start? with
  | none =>
      obtain hold | hstopped := next_ev_of_not_start hdata (by simp [hstart])
      · exact hcurrent d data hold
      · intro hactive
        exact absurd (hstopped.symm.trans hactive) Bool.false_ne_true
  | some p =>
      obtain ⟨d', kind⟩ := p
      by_cases hd : d = d'
      · subst hd
        obtain ⟨before, op, hbefore, hafter⟩ := start_guard hguard hstart
        obtain rfl := Option.some.inj (hafter.symm.trans hdata)
        exact startIo_current (hcurrent d before hbefore)
          (inactive_of_firstWriteIdle hidle hstart (follows_of_run hrun hbefore))
      · have hne : d ≠ e.descriptor := by
          rwa [descriptor_of_start? hstart]
        exact hcurrent d data ((next_data_of_ne hne).symm.trans hdata)

/-- A step starts an operation properly exactly if the condition holds. -/
theorem startPolls_iff
    (hrun : service.Run tr s)
    (hguard : service.guard s e)
    (hcurrent : ∀ d data, s.data d = some data → data.ev.Current) :
    StartPolls s e ↔ FirstWriteIdle tr e := by
  constructor
  · intro hpolls d hstart hwrote
    obtain ⟨before, -, hbefore, -, hinactive, -⟩ := hpolls d .write hstart
    have hfollows := follows_of_run hrun hbefore
    rw [← hfollows.active]
    exact hinactive (hfollows.setsMask_iff.mpr ⟨rfl, hwrote⟩)
  · intro hlast d kind hstart
    obtain ⟨before, op, hbefore, hafter⟩ := start_guard hguard hstart
    have hfollows := follows_of_run hrun hbefore
    have hinactive := inactive_of_firstWriteIdle hlast hstart hfollows
    exact ⟨before, _, hbefore, hafter, hinactive,
      startIo_polls hfollows (hcurrent d before hbefore) hinactive⟩

/--
Every started operation is polled for, and `ev_io_set` is applied to inactive
watchers only, exactly in the runs in which the first write on a descriptor
finds that nothing was started there since it was registered or stopped.
-/
theorem pollsStarted_iff
    (hrun : service.Run tr s) :
    service.Along StartPolls .start tr ↔ System.History FirstWriteIdle tr := by
  refine (hrun.history_iff_along
    (I := fun _ s => ∀ d data, s.data d = some data → data.ev.Current)
    (fun _ h => h) ?_ ?_ ?_).symm
  · intro d data hdata
    simp [Service.start] at hdata
  · intro tr s e hrun hguard hcurrent
    exact (startPolls_iff hrun hguard hcurrent).symm
  · intro tr s e hrun hguard hcurrent hidle d data hdata
    exact current_next hrun hguard hcurrent hidle hdata

end Runs

/-- The first write blocks while the watcher of a read is still active. -/
def firstWriteAfterRead : List (Event Unit Bool) :=
  [.registerDescriptor (),
    .startIo () .read false,
    .work () EV_READ false .done,
    .startIo () .write true]

theorem not_startPolls_firstWriteAfterRead :
    service.Run firstWriteAfterRead
        (service.exec .start firstWriteAfterRead) ∧
      ¬ service.Along StartPolls .start firstWriteAfterRead := by
  have hrun : service.Run firstWriteAfterRead
      (service.exec .start firstWriteAfterRead) :=
    .of_enabled rfl (by decide +kernel)
  refine ⟨hrun, fun hpolls => ?_⟩
  have hnot : ∀ after ∈ (service.exec .start firstWriteAfterRead).data (),
      EV_WRITE &&& after.ev.polled ≠ EV_WRITE := by
    decide +kernel
  obtain ⟨-, after, -, hafter, -, hpolled⟩ := hpolls.2.2.2.1 () .write rfl
  exact hnot after hafter hpolled.2

/-- The first write comes first. -/
def firstWriteFirst : List (Event Unit Bool) :=
  [.registerDescriptor (),
    .startIo () .write false,
    .work () EV_WRITE false .done,
    .startIo () .read true,
    .work () EV_READ true .done]

theorem startPolls_firstWriteFirst :
    service.Along StartPolls .start firstWriteFirst := by
  have hrun : service.Run firstWriteFirst
      (service.exec .start firstWriteFirst) :=
    .of_enabled rfl (by decide +kernel)
  refine (pollsStarted_iff hrun).mpr ?_
  change System.History FirstWriteIdle
    ((((([] ++ [_]) ++ [_]) ++ [_]) ++ [_]) ++ [_])
  simp only [System.history_append_singleton, System.history_nil, true_and]
  simp [FirstWriteIdle, Event.start?, watched, Watched.step, Watched.new,
    Watched.start, Event.descriptor]

end Io
end Ptl

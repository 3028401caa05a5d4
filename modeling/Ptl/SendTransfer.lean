import Ptl.RecvTransfer

/-!
# The bytes of a `socket_send_operation`

This module adds the buffer to `socket_send_operation`.  Every call of `send` is
made with the whole buffer; the kernel accepts a prefix of it, or fails.  The
bytes accepted are recorded by their positions in the buffer, in the order of the
calls.  The result of a call is converted to `int`, and the functions of
`Ptl.IoOperation` decide on the converted result.

A call that succeeds accepts at least one byte, unless the buffer is empty.

**Results.**
* `send_reports_iff`: `co_await` returns the number of bytes accepted, and these
  are the first bytes of the buffer, each once and in order, exactly if the call in
  `begin()` accepted nothing and the call in `work()`, if there was one, failed or
  accepted the whole buffer with a size whose conversion to `int` is not negative.
-/

namespace Ptl
namespace Io
namespace Send

open Transition Receive

/-- What `send` returns, with the value of `errno` after it. -/
inductive Outcome where
  | accepted (count : Nat) (errno : ErrorCode)
  | failed (errno : ErrorCode)
deriving DecidableEq

namespace Outcome

/-- `int r = socket_.send(...)`, as the operation sees it. -/
def result : Outcome → SysResult
  | accepted count errno => Receive.Outcome.ofInt ((count : Int).bmod (2 ^ 32)) errno
  | failed errno => Receive.Outcome.ofInt (-1) errno

/-- The bytes that the kernel accepts. -/
def moved : Outcome → Nat
  | accepted count _ => count
  | failed _ => 0

/-- What a call for `n` bytes may return. -/
def Possible (n : Nat) : Outcome → Prop
  | accepted count _ => count ≤ n ∧ (count = 0 → n = 0)
  | failed _ => True

instance decidablePossible (n : Nat) : ∀ o : Outcome, Decidable (o.Possible n)
  | accepted count _ => inferInstanceAs (Decidable (count ≤ n ∧ (count = 0 → n = 0)))
  | failed _ => isTrue trivial

theorem Possible.moved_le
    {n : Nat} {o : Outcome}
    (h : o.Possible n) :
    o.moved ≤ n := by
  cases o with
  | accepted count errno =>
      exact h.1
  | failed errno =>
      exact Nat.zero_le n

/-- The converted result is negative if bit 31 of the count is set. -/
theorem result_accepted (count : Nat) (errno : ErrorCode) :
    (∃ m, (accepted count errno).result = .ok m ∧ count % 2 ^ 32 < 2 ^ 31) ∨
    ((accepted count errno).result = .fail errno ∧ 2 ^ 31 ≤ count % 2 ^ 32) := by
  have hr := Receive.Outcome.toInt_eq count
  rw [result]
  generalize (count : Int).bmod (2 ^ 32) = r at hr ⊢
  rcases Int.lt_or_le r 0 with hneg | hpos
  · refine Or.inr ⟨if_pos hneg, ?_⟩
    split at hr <;> omega
  · refine Or.inl ⟨r.toNat, if_neg (Int.not_lt.mpr hpos), ?_⟩
    split at hr <;> omega

end Outcome

/-- The operation and the positions of the bytes accepted so far. -/
structure State where
  op : SocketSend
  handed : List Nat
  phase : Phase

/-- A call of `begin()` or `work()` with the outcome of its `send`. -/
inductive Event where
  | begin (o : Outcome)
  | work (o : Outcome)
deriving DecidableEq

namespace Event

def guard (s : State) : Event → Prop
  | begin o => s.phase = .created ∧ o.Possible s.op.size
  | work o => s.phase = .waiting ∧ o.Possible s.op.size

instance decidableGuard (s : State) : ∀ e : Event, Decidable (e.guard s)
  | begin o => inferInstanceAs (Decidable (s.phase = .created ∧ o.Possible s.op.size))
  | work o => inferInstanceAs (Decidable (s.phase = .waiting ∧ o.Possible s.op.size))

/-- Both functions call `send(buffer_, size_, 0)`. -/
def next (s : State) : Event → State
  | begin o =>
      let p := s.op.begin o.result
      { op := p.1
        handed := s.handed ++ List.range o.moved
        phase := .of p.2 }
  | work o =>
      let p := s.op.work o.result
      { op := p.1
        handed := s.handed ++ List.range o.moved
        phase := .of p.2 }

end Event

/-- A new operation for `n` bytes. -/
def start (n : Nat) : State where
  op := { ec := 0, size := n, sent := 0, transferred := 0 }
  handed := []
  phase := .created

/-- All runs of `co_await socket.send(buffer, n)`. -/
def send (n : Nat) : System State Event where
  init := fun s => s = start n
  guard := fun s e => e.guard s
  next := Event.next

instance decidableSendGuard (n : Nat) (s : State) (e : Event) :
    Decidable ((send n).guard s e) :=
  inferInstanceAs (Decidable (e.guard s))

/-- The bytes that the kernel accepted, in the order of the calls. -/
def State.wire (buffer : List UInt8) (s : State) : List UInt8 :=
  s.handed.filterMap fun k => buffer[k]?

/--
A successful `co_await` returns the number of bytes accepted, and these are the
first bytes of the buffer, each once and in order.
-/
def Reported (buffer : List UInt8) (s : State) : Prop :=
  ∀ count, socketSendOperation.awaitResume s.op = .expected count →
    count = s.handed.length ∧
    s.handed = List.range count ∧
    s.wire buffer = buffer.take count

/-- The calls after which the operation reports what it has handed over. -/
def Event.Kept (n : Nat) : Event → Prop
  | begin o => o.moved = 0
  | work (.accepted count _) => count = n ∧ n % 2 ^ 32 < 2 ^ 31
  | work (.failed _) => True

/-- All calls of a run keep the count right. -/
def HandedOver (n : Nat) (tr : List Event) : Prop :=
  ∀ e ∈ tr, e.Kept n

section Steps

variable {n : Nat} {s : State} {o : Outcome}

theorem begin_keeps (op : SocketSend) (r : SysResult) :
    (op.begin r).1.size = op.size ∧ (op.begin r).1.transferred = op.transferred := by
  cases r with
  | ok m =>
      exact ⟨rfl, rfl⟩
  | fail e =>
      simp only [SocketSend.begin]
      split <;> exact ⟨rfl, rfl⟩

/-- The bytes at the first positions. -/
theorem filterMap_range_getElem? (buffer : List UInt8) (count : Nat) :
    (List.range count).filterMap (fun k => buffer[k]?) = buffer.take count := by
  induction count with
  | zero =>
      rfl
  | succ count ih =>
      rw [List.range_succ, List.filterMap_append, ih, List.take_add_one]
      cases h : buffer[count]? <;> simp [h]

/-- What `co_await` returns is what `transferred_` holds. -/
theorem reported_iff (buffer : List UInt8) (s : State) :
    Reported buffer s ↔ s.handed = List.range s.op.transferred := by
  constructor
  · intro h
    exact (h s.op.transferred rfl).2.1
  · intro h count hcount
    obtain rfl : s.op.transferred = count := Expected.expected.inj hcount
    refine ⟨?_, h, ?_⟩
    · rw [h, List.length_range]
    · rw [State.wire, h, filterMap_range_getElem?]

theorem range_eq_range_iff {k m : Nat} :
    List.range k = List.range m ↔ k = m := by
  constructor
  · intro h
    simpa using congrArg List.length h
  · rintro rfl
    rfl

/-- Two calls that accept bytes submit the first byte twice. -/
theorem range_append_range_ne {k m c : Nat} (hk : 0 < k) (hm : 0 < m) :
    List.range k ++ List.range m ≠ List.range c := by
  intro h
  have hnodup : (List.range k ++ List.range m).Nodup := h ▸ List.nodup_range
  have hdisjoint := (List.nodup_append.mp hnodup).2.2
  exact hdisjoint 0 (List.mem_range.mpr hk) 0 (List.mem_range.mpr hm) rfl

theorem op_next_work (s : State) (o : Outcome) :
    (Event.next s (.work o)).op = (s.op.work o.result).1 := by
  rfl

end Steps

section Reports

variable {n : Nat} {tr : List Event} {s : State} {o : Outcome}

/-- After `begin()` the operation has one call behind it and has counted nothing. -/
structure Begun (n : Nat) (o : Outcome) (s : State) : Prop where
  size : s.op.size = n
  transferred : s.op.transferred = 0
  handed : s.handed = List.range o.moved

theorem begun_begin :
    Begun n o (Event.next (start n) (.begin o)) := by
  have hkeeps := begin_keeps (start n).op o.result
  exact ⟨hkeeps.1, hkeeps.2, rfl⟩

/-- A run is empty, one call of `begin()`, or this call and one of `work()`. -/
structure Shape (n : Nat) (tr : List Event) (s : State) : Prop where
  created : s.phase = .created → tr = [] ∧ s = start n
  waiting : s.phase = .waiting → ∃ o : Outcome, tr = [.begin o] ∧ o.Possible n ∧ Begun n o s

theorem shape_of_run
    (hrun : (send n).Run tr s) :
    Shape n tr s := by
  refine hrun.invariant ?_ ?_
  · rintro _ rfl
    exact ⟨fun _ => ⟨rfl, rfl⟩, by simp [start]⟩
  · rintro tr s e - hs hguard
    cases e with
    | begin o =>
        obtain ⟨hphase, hpossible⟩ := hguard
        obtain ⟨rfl, rfl⟩ := hs.created hphase
        exact ⟨fun h => absurd h (Phase.of_ne_created _),
          fun _ => ⟨o, rfl, hpossible, begun_begin⟩⟩
    | work o =>
        refine ⟨fun h => absurd h (Phase.of_ne_created _), fun h => ?_⟩
        have hdone : (s.op.work o.result).2 = .done := by
          cases o.result <;> rfl
        exact absurd hdone ((Phase.of_eq_waiting _).mp h)

/-- `begin()` decides the operation and leaves `transferred_` at zero. -/
theorem reported_begin_iff (buffer : List UInt8) :
    Reported buffer (Event.next (start n) (.begin o)) ↔ HandedOver n [.begin o] := by
  have hbegun : Begun n o (Event.next (start n) (.begin o)) := begun_begin
  rw [reported_iff, hbegun.transferred, hbegun.handed, range_eq_range_iff]
  simp [HandedOver, Event.Kept]

/-- The operation that a call of `work()` decides has handed over both prefixes. -/
theorem reported_work_iff
    {o' : Outcome}
    (buffer : List UInt8)
    (hs : Begun n o s)
    (hn : o.Possible n)
    (hpossible : o'.Possible n) :
    Reported buffer (Event.next s (.work o')) ↔
      HandedOver n [.begin o, .work o'] := by
  have hhanded : (Event.next s (.work o')).handed =
      List.range o.moved ++ List.range o'.moved :=
    congrArg (· ++ List.range o'.moved) hs.handed
  have hkept : HandedOver n [.begin o, .work o'] ↔
      o.moved = 0 ∧ Event.Kept n (.work o') := by
    simp [HandedOver, Event.Kept]
  rw [reported_iff, hhanded, hkept, op_next_work]
  cases o' with
  | failed errno =>
      have htransferred :
          (s.op.work (Outcome.failed errno).result).1.transferred = 0 := hs.transferred
      rw [htransferred, Outcome.moved, List.range_zero, List.append_nil,
        ← List.range_zero, range_eq_range_iff]
      exact (and_iff_left trivial).symm
  | accepted count errno =>
      obtain ⟨hle, hzero⟩ := hpossible
      have hmoved := hn.moved_le
      rcases Nat.eq_zero_or_pos o.moved with hnone | hsome
      · rw [hnone, List.range_zero, List.nil_append, Outcome.moved, range_eq_range_iff,
          Event.Kept]
        rcases Outcome.result_accepted count errno with ⟨m, hr, hfits⟩ | ⟨hr, hlarge⟩
        · rw [hr]
          change count = s.op.size ↔ _
          rw [hs.size]
          constructor
          · rintro rfl
            exact ⟨rfl, rfl, hfits⟩
          · exact fun h => h.2.1
        · rw [hr]
          change count = s.op.transferred ↔ _
          rw [hs.transferred]
          omega
      · refine iff_of_false ?_ (fun h => absurd h.1 (Nat.pos_iff_ne_zero.mp hsome))
        refine range_append_range_ne hsome ?_
        rw [Outcome.moved]
        exact Nat.pos_iff_ne_zero.mpr fun h => by omega

/--
The value of `co_await` is right exactly if `begin()` handed nothing over, and
`work()`, if it was called, failed or handed over a whole buffer whose size does
not become negative.
-/
theorem send_reports_iff
    (buffer : List UInt8)
    (hrun : (send buffer.length).Run tr s)
    (hdone : s.phase = .done) :
    Reported buffer s ↔ HandedOver buffer.length tr := by
  cases hrun with
  | start hinit =>
      obtain rfl := hinit
      simp [start] at hdone
  | @step tr s e hrun hguard =>
      have hs := shape_of_run hrun
      cases e with
      | begin o =>
          obtain ⟨rfl, rfl⟩ := hs.created hguard.1
          exact reported_begin_iff buffer
      | work o' =>
          obtain ⟨hphase, hpossible'⟩ := hguard
          obtain ⟨o, rfl, hpossible, hbegun⟩ := hs.waiting hphase
          exact reported_work_iff buffer hbegun hpossible (hbegun.size ▸ hpossible')

/-- The kernel takes the whole buffer once the socket has become writable. -/
def sendAfterWait : List Event :=
  [.begin (.failed EAGAIN), .work (.accepted 2 EAGAIN)]

theorem send_reports_sendAfterWait :
    Reported [104, 105] ((send 2).exec (start 2) sendAfterWait) := by
  have hrun : (send 2).Run sendAfterWait ((send 2).exec (start 2) sendAfterWait) :=
    .of_enabled rfl (by decide +kernel)
  refine (send_reports_iff [104, 105] hrun (by decide +kernel)).mpr ?_
  simp [HandedOver, sendAfterWait, Event.Kept, Outcome.moved]

/-- The kernel takes the whole buffer at the first attempt. -/
def sendAtOnce : List Event :=
  [.begin (.accepted 2 0)]

theorem not_send_reports :
    ¬ ∀ (buffer : List UInt8) (tr : List Event) (s : State),
      (send buffer.length).Run tr s → s.phase = .done → Reported buffer s := by
  intro h
  have hrun : (send 2).Run sendAtOnce ((send 2).exec (start 2) sendAtOnce) :=
    .of_enabled rfl (by decide +kernel)
  obtain ⟨hcount, -⟩ := h [104, 105] _ _ hrun (by decide +kernel) 0 rfl
  exact absurd hcount (by decide +kernel)

end Reports

end Send
end Io
end Ptl

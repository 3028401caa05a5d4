import Ptl.TransitionSystem
import Ptl.IoOperation
import Mathlib.Algebra.Group.Nat.Defs

/-!
# The bytes of a `socket_recv_operation`

This module adds the buffer and the byte stream to `socket_recv_operation`.  The
peer sends the bytes of `stream` and then closes the connection.  A call of
`recv` moves the next bytes of the stream to the address that the operation
gives, or fails; it returns 0 for a request of at least one byte only at the end
of the stream.  Its result is converted to `int`, and the functions of
`Ptl.IoOperation` decide on the converted result.

The operation is `socket::recv`, with `all`.

**Results.**
* `recv_delivers_iff`: `co_await` returns the number of bytes received, with
  these bytes in the buffer, exactly if every result fits into an `int` and the
  last call was made in `work()` and succeeded, or nothing was asked for, or the
  first call found the end of the stream.
-/

namespace Ptl
namespace Io
namespace Receive

open Transition

/-- What `recv` returns, with the value of `errno` after it. -/
inductive Outcome where
  | received (count : Nat) (errno : ErrorCode)
  | failed (errno : ErrorCode)
deriving DecidableEq

namespace Outcome

/-- `r < 0` is a failure. -/
def ofInt (r : Int) (errno : ErrorCode) : SysResult :=
  if r < 0 then .fail errno else .ok r.toNat

/-- `int r = socket_.recv(...)`, as the operation sees it. -/
def result : Outcome → SysResult
  | received count errno => ofInt ((count : Int).bmod (2 ^ 32)) errno
  | failed errno => ofInt (-1) errno

/-- The bytes that the call moves to the buffer. -/
def moved : Outcome → Nat
  | received count _ => count
  | failed _ => 0

/-- The bytes that the operation counts. -/
def counted (o : Outcome) : Nat :=
  match o.result with
  | .ok n => n
  | .fail _ => 0

/-- The result fits into an `int`. -/
def Fits (o : Outcome) : Prop :=
  o.moved < 2 ^ 31

instance decidableFits (o : Outcome) : Decidable o.Fits :=
  inferInstanceAs (Decidable (o.moved < 2 ^ 31))

theorem toInt_eq (count : Nat) :
    (count : Int).bmod (2 ^ 32) =
      if count % 4294967296 < 2147483648 then ((count % 4294967296 : Nat) : Int)
      else ((count % 4294967296 : Nat) : Int) - 4294967296 := by
  rw [Int.bmod_def]
  split <;> split <;> omega

/-- The conversion to `int` is exact below `2 ^ 31` and loses bytes otherwise. -/
theorem result_received (count : Nat) (errno : ErrorCode) :
    (∃ n, (received count errno).result = .ok n ∧ n ≤ count ∧
      (n = count ↔ count < 2 ^ 31)) ∨
    ((received count errno).result = .fail errno ∧ 2 ^ 31 ≤ count) := by
  have hr := toInt_eq count
  rw [result]
  generalize (count : Int).bmod (2 ^ 32) = r at hr ⊢
  rcases Int.lt_or_le r 0 with hneg | hpos
  · refine Or.inr ⟨if_pos hneg, ?_⟩
    split at hr <;> omega
  · refine Or.inl ⟨r.toNat, if_neg (Int.not_lt.mpr hpos), ?_⟩
    split at hr <;> omega

theorem counted_of_ok
    {o : Outcome} {n : Nat}
    (h : o.result = .ok n) :
    o.counted = n := by
  rw [counted, h]

theorem counted_of_fail
    {o : Outcome} {e : ErrorCode}
    (h : o.result = .fail e) :
    o.counted = 0 := by
  rw [counted, h]

theorem counted_le (o : Outcome) :
    o.counted ≤ o.moved := by
  cases o with
  | received count errno =>
      rcases result_received count errno with ⟨n, hn, hle, -⟩ | ⟨hfail, -⟩
      · rw [counted_of_ok hn]
        exact hle
      · rw [counted_of_fail hfail]
        exact Nat.zero_le _
  | failed errno =>
      exact Nat.le_refl 0

theorem counted_eq_iff (o : Outcome) :
    o.counted = o.moved ↔ o.Fits := by
  cases o with
  | received count errno =>
      rcases result_received count errno with ⟨n, hn, -, hiff⟩ | ⟨hfail, hlarge⟩
      · rw [counted_of_ok hn]
        exact hiff
      · rw [counted_of_fail hfail, Fits, moved]
        omega
  | failed errno =>
      exact iff_of_true rfl (Nat.two_pow_pos 31)

end Outcome

/-- The bytes taken from the stream, the memory from `buffer_` on, and end of file. -/
structure World where
  taken : Nat
  memory : Nat → Option UInt8
  eof : Bool

/-- Nothing has been received. -/
def World.new : World where
  taken := 0
  memory := fun _ => none
  eof := false

/-- `recv(buffer_ + offset, requested, 0)`. -/
def World.recv
    (stream : List UInt8) (w : World) (offset requested : Nat) : Outcome → World
  | .received count _ =>
      { taken := w.taken + count
        memory := fun k =>
          if offset ≤ k ∧ k < offset + count then stream[w.taken + (k - offset)]?
          else w.memory k
        eof := w.eof || decide (count = 0 ∧ requested ≠ 0) }
  | .failed _ => w

/-- What `recv` may return. -/
def World.Allows
    (stream : List UInt8) (w : World) (requested : Nat) (o : Outcome) : Prop :=
  match o with
  | .received count _ =>
      count ≤ requested ∧ w.taken + count ≤ stream.length ∧
        (count = 0 → requested = 0 ∨ w.taken = stream.length)
  | .failed _ => True

instance decidableAllows (stream : List UInt8) (w : World) (requested : Nat) :
    ∀ o : Outcome, Decidable (w.Allows stream requested o)
  | .received count _ =>
      inferInstanceAs (Decidable (count ≤ requested ∧ w.taken + count ≤ stream.length ∧
        (count = 0 → requested = 0 ∨ w.taken = stream.length)))
  | .failed _ => isTrue trivial

/-- The life of the operation. -/
inductive Phase where
  | created
  | waiting
  | done
deriving DecidableEq

def Phase.of : Progress → Phase
  | .startIo _ => waiting
  | .done => done

theorem Phase.of_ne_created (p : Progress) :
    Phase.of p ≠ .created := by
  cases p <;> simp [Phase.of]

theorem Phase.of_eq_waiting (p : Progress) :
    Phase.of p = .waiting ↔ p ≠ .done := by
  cases p <;> simp [Phase.of]

theorem Phase.of_eq_done (p : Progress) :
    Phase.of p = .done ↔ p = .done := by
  cases p <;> simp [Phase.of]

structure State where
  op : SocketRecv
  world : World
  phase : Phase

/-- A call of `begin()` or `work()` with the outcome of its `recv`. -/
inductive Event where
  | begin (o : Outcome)
  | work (o : Outcome)
deriving DecidableEq

namespace Event

def outcome : Event → Outcome
  | begin o => o
  | work o => o

def guard (stream : List UInt8) (s : State) : Event → Prop
  | begin o => s.phase = .created ∧ s.world.Allows stream s.op.size o
  | work o =>
      s.phase = .waiting ∧ s.world.Allows stream (s.op.size - s.op.received) o

instance decidableGuard (stream : List UInt8) (s : State) :
    ∀ e : Event, Decidable (e.guard stream s)
  | begin o =>
      inferInstanceAs (Decidable (s.phase = .created ∧ s.world.Allows stream s.op.size o))
  | work o =>
      inferInstanceAs (Decidable
        (s.phase = .waiting ∧ s.world.Allows stream (s.op.size - s.op.received) o))

def next (stream : List UInt8) (s : State) : Event → State
  | begin o =>
      let p := s.op.begin o.result
      { op := p.1
        world := s.world.recv stream 0 s.op.size o
        phase := .of p.2 }
  | work o =>
      let p := s.op.work o.result
      { op := p.1
        world := s.world.recv stream s.op.received (s.op.size - s.op.received) o
        phase := .of p.2 }

end Event

/-- A new operation for `n` bytes. -/
def start (n : Nat) : State where
  op := { ec := 0, size := n, received := 0, all := true, transferred := 0 }
  world := .new
  phase := .created

/-- All runs of `co_await socket.recv(buffer, n)`. -/
def receive (stream : List UInt8) (n : Nat) : System State Event where
  init := fun s => s = start n
  guard := Event.guard stream
  next := Event.next stream

instance decidableReceiveGuard (stream : List UInt8) (n : Nat) (s : State) (e : Event) :
    Decidable ((receive stream n).guard s e) :=
  inferInstanceAs (Decidable (e.guard stream s))

/--
A successful `co_await` returns the number of bytes received, the buffer holds
that many bytes of the stream, nothing was written behind it, and it is full
unless the end of the stream was found.
-/
def Delivered (stream : List UInt8) (n : Nat) (s : State) : Prop :=
  ∀ count, socketRecvOperation.awaitResume s.op = .expected count →
    count = s.world.taken ∧
    (∀ k < count, s.world.memory k = stream[k]?) ∧
    (∀ k, n ≤ k → s.world.memory k = none) ∧
    (count < n → s.world.eof = true)

/-- `work()` made the last call, and it succeeded. -/
def DecidedInWork (tr : List Event) : Prop :=
  ∃ count errno, tr.getLast? = some (.work (.received count errno))

/-- The call in `begin()` found the end of the stream. -/
def EndAtBegin (tr : List Event) : Prop :=
  ∃ errno, .begin (.received 0 errno) ∈ tr

section Steps

variable {stream : List UInt8} {n : Nat} {w : World} {o : Outcome}

theorem taken_recv (stream : List UInt8) (w : World) (offset requested : Nat) (o : Outcome) :
    (w.recv stream offset requested o).taken = w.taken + o.moved := by
  cases o <;> rfl

theorem eof_recv
    (stream : List UInt8) (w : World) (offset requested count : Nat) (errno : ErrorCode) :
    (w.recv stream offset requested (.received count errno)).eof = true ↔
      w.eof = true ∨ (count = 0 ∧ requested ≠ 0) := by
  simp [World.recv]

theorem World.Allows.moved_le
    {requested : Nat}
    (h : w.Allows stream requested o) :
    o.moved ≤ requested := by
  cases o with
  | received count errno =>
      exact h.1
  | failed errno =>
      exact Nat.zero_le requested

theorem World.Allows.taken_le
    {requested : Nat}
    (h : w.Allows stream requested o)
    (hw : w.taken ≤ stream.length) :
    w.taken + o.moved ≤ stream.length := by
  cases o with
  | received count errno =>
      exact h.2.1
  | failed errno =>
      exact hw

theorem begin_keeps (op : SocketRecv) (r : SysResult) :
    (op.begin r).1.size = op.size ∧ (op.begin r).1.all = op.all ∧
      (op.begin r).1.transferred = op.transferred := by
  cases r <;> simp only [SocketRecv.begin] <;> split <;> exact ⟨rfl, rfl, rfl⟩

theorem work_keeps (op : SocketRecv) (r : SysResult) :
    (op.work r).1.size = op.size ∧ (op.work r).1.all = op.all := by
  cases r with
  | fail e =>
      exact ⟨rfl, rfl⟩
  | ok m =>
      simp only [SocketRecv.work]
      split <;> exact ⟨rfl, rfl⟩

theorem received_begin
    {op : SocketRecv}
    (hop : op.received = 0) :
    (op.begin o.result).1.received = op.received + o.counted := by
  cases hr : o.result with
  | fail e =>
      rw [Outcome.counted_of_fail hr]
      simp only [SocketRecv.begin]
      split <;> rfl
  | ok m =>
      rw [Outcome.counted_of_ok hr, hop, Nat.zero_add]
      simp only [SocketRecv.begin]
      split <;> rfl

theorem received_work (op : SocketRecv) :
    (op.work o.result).1.received = op.received + o.counted := by
  cases hr : o.result with
  | fail e =>
      rw [Outcome.counted_of_fail hr]
      rfl
  | ok m =>
      rw [Outcome.counted_of_ok hr]
      simp only [SocketRecv.work]
      split <;> rfl

end Steps

section Invariant

variable {stream : List UInt8} {n : Nat} {tr : List Event} {s : State} {e : Event}

/-- What the operation has counted, against the bytes moved. -/
structure Transfer (stream : List UInt8) (n : Nat) (tr : List Event) (s : State) : Prop where
  size : s.op.size = n
  all : s.op.all = true
  received_le : s.op.received ≤ n
  counted_le : s.op.received ≤ s.world.taken
  counted_eq : s.op.received = s.world.taken ↔ ∀ e ∈ tr, e.outcome.Fits
  taken_le : s.world.taken ≤ stream.length
  copied : s.op.received = s.world.taken →
    ∀ k < s.world.taken, s.world.memory k = stream[k]?
  within : ∀ k, n ≤ k → s.world.memory k = none
  eof : s.world.eof = true → s.world.taken = stream.length

/-- A call of `recv` behind the bytes counted so far. -/
theorem Transfer.recv
    {s' : State}
    (hs : Transfer stream n tr s)
    (hallows : s.world.Allows stream (n - s.op.received) e.outcome)
    (hkeeps : s'.op.size = s.op.size ∧ s'.op.all = s.op.all)
    (hreceived : s'.op.received = s.op.received + e.outcome.counted)
    (hworld : s'.world =
      s.world.recv stream s.op.received (n - s.op.received) e.outcome) :
    Transfer stream n (tr ++ [e]) s' := by
  have hmoved := hallows.moved_le
  have hcounted := e.outcome.counted_le
  have htaken : s'.world.taken = s.world.taken + e.outcome.moved := by
    rw [hworld, taken_recv]
  have hreceived_le := hs.received_le
  have hcounted_le := hs.counted_le
  constructor
  · exact hkeeps.1.trans hs.size
  · exact hkeeps.2.trans hs.all
  · omega
  · omega
  · have hfits := e.outcome.counted_eq_iff
    have hpast := hs.counted_eq
    have hall : (∀ f ∈ tr ++ [e], f.outcome.Fits) ↔
        (∀ f ∈ tr, f.outcome.Fits) ∧ e.outcome.Fits := by
      simp [or_imp, forall_and]
    rw [hall, ← hfits, ← hpast]
    omega
  · rw [htaken]
    exact hallows.taken_le hs.taken_le
  · intro heq k hk
    have hpast : s.op.received = s.world.taken := by omega
    rw [hworld]
    cases ho : e.outcome with
    | received count errno =>
        rw [ho] at htaken
        simp only [World.recv]
        split
        next hrange =>
            rw [hpast, Nat.add_sub_cancel' (by omega)]
        next hrange =>
            refine hs.copied hpast k ?_
            simp only [Outcome.moved] at htaken
            omega
    | failed errno =>
        rw [ho, Outcome.moved, Nat.add_zero] at htaken
        exact hs.copied hpast k (htaken ▸ hk)
  · intro k hk
    rw [hworld]
    cases ho : e.outcome with
    | received count errno =>
        rw [ho] at hmoved
        simp only [Outcome.moved] at hmoved
        simp only [World.recv]
        rw [if_neg (by omega)]
        exact hs.within k hk
    | failed errno =>
        exact hs.within k hk
  · intro heof
    rw [hworld] at heof
    cases ho : e.outcome with
    | received count errno =>
        rw [ho] at heof hallows htaken
        rw [eof_recv] at heof
        simp only [Outcome.moved] at htaken
        obtain ⟨-, hle, hzero⟩ := hallows
        rcases heof with hold | ⟨rfl, hrequested⟩
        · have hlength := hs.eof hold
          omega
        · rcases hzero rfl with hnone | hlength <;> omega
    | failed errno =>
        rw [ho] at heof htaken
        exact htaken.trans (hs.eof heof)

/-- While the operation waits, only the call in `begin()` can have found the end. -/
structure Waiting (n : Nat) (tr : List Event) (s : State) : Prop where
  transferred : s.op.transferred = 0
  eof : s.world.eof = true ↔ 0 < n ∧ EndAtBegin tr
  empty : s.world.eof = true → s.world.taken = 0

/-- The invariant of all runs. -/
structure Receiving (stream : List UInt8) (n : Nat) (tr : List Event) (s : State) : Prop where
  transfer : Transfer stream n tr s
  created : s.phase = .created → tr = [] ∧ s = start n
  waiting : s.phase = .waiting → Waiting n tr s

theorem transfer_start :
    Transfer stream n [] (start n) := by
  refine ⟨rfl, rfl, Nat.zero_le n, Nat.le_refl 0, ?_, Nat.zero_le _, ?_, fun _ _ => rfl, ?_⟩
  · exact iff_of_true rfl (by simp)
  · intro _ k hk
    exact absurd hk (Nat.not_lt_zero k)
  · simp [start, World.new]

theorem Receiving.next
    (hs : Receiving stream n tr s)
    (hguard : (receive stream n).guard s e) :
    Transfer stream n (tr ++ [e]) (e.next stream s) := by
  cases e with
  | begin o =>
      obtain ⟨hphase, hallows⟩ := hguard
      obtain ⟨rfl, rfl⟩ := hs.created hphase
      have hkeeps := begin_keeps (start n).op o.result
      exact hs.transfer.recv hallows ⟨hkeeps.1, hkeeps.2.1⟩ (received_begin rfl) rfl
  | work o =>
      obtain ⟨-, hallows⟩ := hguard
      have hsize := hs.transfer.size
      refine hs.transfer.recv (e := .work o) ?_ (work_keeps s.op o.result)
        (received_work s.op) ?_
      · exact hsize ▸ hallows
      · rw [Event.next, hsize]
        rfl

theorem Waiting.begin
    {o : Outcome} :
    Waiting n [.begin o] (Event.next stream (start n) (.begin o)) := by
  have hnew : (start n).world.eof ≠ true := Bool.false_ne_true
  constructor
  · exact (begin_keeps (start n).op o.result).2.2
  · cases o with
    | received count errno =>
        have heof := eof_recv stream (start n).world 0 n count errno
        rw [or_iff_right hnew] at heof
        refine heof.trans ?_
        constructor
        · rintro ⟨rfl, hn⟩
          exact ⟨Nat.pos_iff_ne_zero.mpr hn, errno, List.mem_singleton_self _⟩
        · rintro ⟨hn, errno', hmem⟩
          obtain ⟨rfl, -⟩ : 0 = count ∧ errno' = errno := by simpa using hmem
          exact ⟨rfl, Nat.pos_iff_ne_zero.mp hn⟩
    | failed errno =>
        exact iff_of_false hnew (by simp [EndAtBegin])
  · cases o with
    | received count errno =>
        intro heof
        rcases (eof_recv stream (start n).world 0 n count errno).mp heof with h | ⟨rfl, -⟩
        · exact absurd h hnew
        · rfl
    | failed errno =>
        exact fun h => absurd h hnew

theorem Waiting.work
    {o : Outcome}
    (hs : Transfer stream n tr s)
    (hw : Waiting n tr s)
    (hallows : s.world.Allows stream (s.op.size - s.op.received) o)
    (hwaits : (s.op.work o.result).2 ≠ .done) :
    Waiting n (tr ++ [.work o]) (Event.next stream s (.work o)) := by
  have hmem : EndAtBegin (tr ++ [.work o]) ↔ EndAtBegin tr := by
    simp [EndAtBegin]
  cases hr : o.result with
  | fail e =>
      rw [hr] at hwaits
      exact absurd rfl hwaits
  | ok m =>
      rw [hr] at hwaits
      have hm : 0 < m ∧ s.op.all = true ∧ s.op.received + m < s.op.size := by
        by_contra hnot
        simp only [SocketRecv.work, if_neg hnot, ne_eq, not_true_eq_false] at hwaits
      have hcounted := o.counted_le
      rw [Outcome.counted_of_ok hr] at hcounted
      -- the call moved something, so it was not made at the end of the stream
      have heof : (Event.next stream s (.work o)).world.eof = s.world.eof := by
        cases o with
        | received count errno =>
            simp only [Outcome.moved] at hcounted
            have hcount : ¬ (count = 0 ∧ s.op.size - s.op.received ≠ 0) := by omega
            rw [Bool.eq_iff_iff]
            exact (eof_recv stream s.world s.op.received _ count errno).trans
              (or_iff_left hcount)
        | failed errno =>
            rfl
      constructor
      · simp only [Event.next, hr, SocketRecv.work, if_pos hm]
        exact hw.transferred
      · rw [heof, hmem]
        exact hw.eof
      · rw [heof]
        intro hend
        have htaken := hallows.taken_le hs.taken_le
        have hlength := hs.eof hend
        omega

theorem receiving_of_run
    (hrun : (receive stream n).Run tr s) :
    Receiving stream n tr s := by
  refine hrun.invariant ?_ ?_
  · rintro _ rfl
    exact ⟨transfer_start, fun _ => ⟨rfl, rfl⟩, by simp [start]⟩
  · rintro tr s e - hs hguard
    refine ⟨hs.next hguard, ?_, ?_⟩
    · intro hcreated
      cases e <;> exact absurd hcreated (Phase.of_ne_created _)
    · intro hwaiting
      cases e with
      | begin o =>
          obtain ⟨rfl, rfl⟩ := hs.created hguard.1
          exact Waiting.begin
      | work o =>
          obtain ⟨hphase, hallows⟩ := hguard
          exact (hs.waiting hphase).work hs.transfer hallows
            ((Phase.of_eq_waiting _).mp hwaiting)

end Invariant

section Delivery

variable {stream : List UInt8} {n : Nat} {tr : List Event} {s : State} {e : Event}

/-- Every result fits, and the last call decided the operation on a good path. -/
def GoodCalls (n : Nat) (tr : List Event) : Prop :=
  (∀ e ∈ tr, e.outcome.Fits) ∧ (n = 0 ∨ DecidedInWork tr ∨ EndAtBegin tr)

/-- What `co_await` returns is what `transferred_` holds. -/
theorem Transfer.delivered_iff
    (hs : Transfer stream n tr s)
    (htransferred : s.op.transferred = s.op.received ∨ s.op.transferred = 0) :
    Delivered stream n s ↔
      s.op.transferred = s.world.taken ∧
        (s.op.transferred < n → s.world.eof = true) := by
  constructor
  · intro h
    obtain ⟨heq, -, -, heof⟩ := h s.op.transferred rfl
    exact ⟨heq, heof⟩
  · rintro ⟨heq, heof⟩ count hcount
    obtain rfl : s.op.transferred = count := Expected.expected.inj hcount
    refine ⟨heq, fun k hk => ?_, hs.within, heof⟩
    rcases htransferred with h | h
    · exact hs.copied (h.symm.trans heq) k (heq ▸ hk)
    · omega

/-- An operation that `begin()` decides returns the initial value of `transferred_`. -/
theorem delivered_begin_iff
    {o : Outcome}
    (hs : Transfer stream n [.begin o] (Event.next stream (start n) (.begin o)))
    (hallows : World.new.Allows stream n o)
    (hdone : ((start n).op.begin o.result).2 = .done) :
    Delivered stream n (Event.next stream (start n) (.begin o)) ↔ GoodCalls n [.begin o] := by
  have hwaiting : Waiting n [.begin o] (Event.next stream (start n) (.begin o)) := .begin
  have hmoved := hallows.moved_le
  have htaken : (Event.next stream (start n) (.begin o)).world.taken = o.moved :=
    (taken_recv ..).trans (Nat.zero_add _)
  -- at the end of the stream, `begin()` waits unless nothing was asked for
  have hend : EndAtBegin [.begin o] → n = 0 := by
    rintro ⟨errno, hmem⟩
    obtain rfl : o = .received 0 errno := by simpa using (List.mem_singleton.mp hmem).symm
    by_contra hn
    have hlt : (start n).op.all = true ∧ 0 < (start n).op.size :=
      ⟨rfl, Nat.pos_iff_ne_zero.mpr hn⟩
    have hwaits : ((start n).op.begin (.ok 0)).2 = .startIo .read := by
      simp only [SocketRecv.begin]
      rw [if_pos hlt]
    exact absurd (hwaits.symm.trans hdone) (by simp)
  rw [hs.delivered_iff (Or.inr hwaiting.transferred), hwaiting.transferred, htaken]
  trans n = 0
  · constructor
    · rintro ⟨-, heof⟩
      rcases Nat.eq_zero_or_pos n with hn | hn
      · exact hn
      · exact hend (hwaiting.eof.mp (heof hn)).2
    · rintro rfl
      exact ⟨by omega, fun h => absurd h (Nat.lt_irrefl 0)⟩
  · constructor
    · rintro rfl
      refine ⟨fun f hf => ?_, Or.inl rfl⟩
      obtain rfl := List.mem_singleton.mp hf
      exact Nat.lt_of_le_of_lt hmoved (Nat.two_pow_pos 31)
    · rintro ⟨-, hn | hdecided | hbegin⟩
      · exact hn
      · simp [DecidedInWork] at hdecided
      · exact hend hbegin

theorem op_next_work (stream : List UInt8) (s : State) (o : Outcome) :
    (Event.next stream s (.work o)).op = (s.op.work o.result).1 := by
  rfl

theorem endAtBegin_append_work (tr : List Event) (o : Outcome) :
    EndAtBegin (tr ++ [.work o]) ↔ EndAtBegin tr := by
  simp [EndAtBegin]

/-- A call of `work()` that fails leaves `transferred_` at its initial value. -/
theorem delivered_failed_iff
    {errno : ErrorCode}
    (hw : Waiting n tr s)
    (hnext : Transfer stream n (tr ++ [.work (.failed errno)])
      (Event.next stream s (.work (.failed errno)))) :
    Delivered stream n (Event.next stream s (.work (.failed errno))) ↔
      GoodCalls n (tr ++ [.work (.failed errno)]) := by
  have hnot : ¬ DecidedInWork (tr ++ [.work (.failed errno)]) := by
    simp [DecidedInWork]
  have htransferred :
      (Event.next stream s (.work (.failed errno))).op.transferred = 0 := hw.transferred
  have htaken : (Event.next stream s (.work (.failed errno))).world.taken =
      s.world.taken := rfl
  have hle := hnext.received_le
  have hcounted_le := hnext.counted_le
  rw [hnext.delivered_iff (Or.inr htransferred), htransferred, GoodCalls, ← hnext.counted_eq,
    endAtBegin_append_work]
  change 0 = s.world.taken ∧ (0 < n → s.world.eof = true) ↔ _
  constructor
  · rintro ⟨hzero, heof⟩
    refine ⟨by omega, ?_⟩
    rcases Nat.eq_zero_or_pos n with hn | hn
    · exact Or.inl hn
    · exact Or.inr (Or.inr (hw.eof.mp (heof hn)).2)
  · rintro ⟨hall, hn | hdecided | hbegin⟩
    · exact ⟨by omega, fun h => absurd hn (Nat.pos_iff_ne_zero.mp h)⟩
    · exact absurd hdecided hnot
    · rcases Nat.eq_zero_or_pos n with hn | hn
      · exact ⟨by omega, fun h => absurd hn (Nat.pos_iff_ne_zero.mp h)⟩
      · have heof := hw.eof.mpr ⟨hn, hbegin⟩
        exact ⟨(hw.empty heof).symm, fun _ => heof⟩

/-- A call of `work()` that succeeds stores what the operation has counted. -/
theorem delivered_received_iff
    {count m : Nat} {errno : ErrorCode}
    (hs : Transfer stream n tr s)
    (hnext : Transfer stream n (tr ++ [.work (.received count errno)])
      (Event.next stream s (.work (.received count errno))))
    (hr : (Outcome.received count errno).result = .ok m)
    (hm : m ≤ count)
    (hdone : (s.op.work (.ok m)).2 = .done) :
    Delivered stream n (Event.next stream s (.work (.received count errno))) ↔
      GoodCalls n (tr ++ [.work (.received count errno)]) := by
  have hnot : ¬ (0 < m ∧ s.op.all = true ∧ s.op.received + m < s.op.size) := by
    intro hm
    simp only [SocketRecv.work, if_pos hm] at hdone
    exact absurd hdone (by simp)
  have hop : (Event.next stream s (.work (.received count errno))).op =
      (s.op.work (.ok m)).1 := by
    rw [op_next_work, hr]
  have htransferred : (s.op.work (.ok m)).1.transferred = (s.op.work (.ok m)).1.received := by
    simp only [SocketRecv.work, if_neg hnot]
  have hreceived : (s.op.work (.ok m)).1.received = s.op.received + m := by
    simp only [SocketRecv.work, if_neg hnot]
  have htaken : (Event.next stream s (.work (.received count errno))).world.taken =
      s.world.taken + count := rfl
  rw [← hop] at htransferred hreceived
  rw [hnext.delivered_iff (Or.inl htransferred), GoodCalls, ← hnext.counted_eq]
  constructor
  · rintro ⟨heq, -⟩
    exact ⟨htransferred.symm.trans heq, Or.inr (Or.inl ⟨count, errno, List.getLast?_concat⟩)⟩
  · rintro ⟨heq, -⟩
    refine ⟨htransferred.trans heq, fun hlt => ?_⟩
    have hcounted_le := hs.counted_le
    have hsize := hs.size
    -- the operation is short of `n` bytes only if the call returned nothing
    have hzero : m = 0 := by
      by_contra hne
      exact hnot ⟨Nat.pos_iff_ne_zero.mpr hne, hs.all, by omega⟩
    refine (eof_recv stream s.world s.op.received _ count errno).mpr (Or.inr ?_)
    omega

/-- A result that does not fit into an `int` is lost. -/
theorem not_delivered_overflow
    {count : Nat} {errno : ErrorCode}
    (hw : Waiting n tr s)
    (hnext : Transfer stream n (tr ++ [.work (.received count errno)])
      (Event.next stream s (.work (.received count errno))))
    (hr : (Outcome.received count errno).result = .fail errno)
    (hpos : 0 < count) :
    ¬ Delivered stream n (Event.next stream s (.work (.received count errno))) := by
  have hop : (Event.next stream s (.work (.received count errno))).op =
      (s.op.work (.fail errno)).1 := by
    rw [op_next_work, hr]
  have htransferred :
      (Event.next stream s (.work (.received count errno))).op.transferred = 0 := by
    rw [hop]
    exact hw.transferred
  have htaken : (Event.next stream s (.work (.received count errno))).world.taken =
      s.world.taken + count := rfl
  rw [hnext.delivered_iff (Or.inr htransferred), htransferred]
  rintro ⟨hzero, -⟩
  omega

/-- An operation that `work()` decides returns what it has counted, or nothing. -/
theorem delivered_work_iff
    {o : Outcome}
    (hs : Transfer stream n tr s)
    (hw : Waiting n tr s)
    (hnext : Transfer stream n (tr ++ [.work o]) (Event.next stream s (.work o)))
    (hdone : (s.op.work o.result).2 = .done) :
    Delivered stream n (Event.next stream s (.work o)) ↔ GoodCalls n (tr ++ [.work o]) := by
  cases o with
  | failed errno =>
      exact delivered_failed_iff hw hnext
  | received count errno =>
      rcases Outcome.result_received count errno with ⟨m, hr, hm, -⟩ | ⟨hr, hlarge⟩
      · exact delivered_received_iff hs hnext hr hm (hr ▸ hdone)
      · refine iff_of_false (not_delivered_overflow hw hnext hr (by omega)) ?_
        rintro ⟨hall, -⟩
        have hfits := hall (.work (.received count errno)) (by simp)
        rw [Event.outcome, Outcome.Fits, Outcome.moved] at hfits
        omega

/--
The value of `co_await` is right exactly if every result fits into an `int`, and
`work()` decided the operation by a call that succeeded, or nothing was asked
for, or the first call found the end of the stream.
-/
theorem recv_delivers_iff
    (hrun : (receive stream n).Run tr s)
    (hdone : s.phase = .done) :
    Delivered stream n s ↔ GoodCalls n tr := by
  cases hrun with
  | start hinit =>
      obtain rfl := hinit
      simp [start] at hdone
  | @step tr s e hrun hguard =>
      have hs := receiving_of_run hrun
      have hnext := hs.next hguard
      cases e with
      | begin o =>
          obtain ⟨hphase, hallows⟩ := hguard
          obtain ⟨rfl, rfl⟩ := hs.created hphase
          exact delivered_begin_iff hnext hallows ((Phase.of_eq_done _).mp hdone)
      | work o =>
          exact delivered_work_iff hs.transfer (hs.waiting hguard.1) hnext
            ((Phase.of_eq_done _).mp hdone)

/-- The test of the repository, when the peer sends after the first attempt. -/
def recvAfterWait : List Event :=
  [.begin (.failed EAGAIN), .work (.received 1 EAGAIN), .work (.received 1 EAGAIN)]

theorem recv_delivers_recvAfterWait :
    Delivered [104, 105] 2 ((receive [104, 105] 2).exec (start 2) recvAfterWait) := by
  have hrun : (receive [104, 105] 2).Run recvAfterWait
      ((receive [104, 105] 2).exec (start 2) recvAfterWait) :=
    .of_enabled rfl (by decide +kernel)
  refine (recv_delivers_iff hrun (by decide +kernel)).mpr ⟨?_, Or.inr (Or.inl ?_)⟩
  · decide +kernel
  · exact ⟨1, EAGAIN, rfl⟩

/-- All bytes are there at the first attempt. -/
def recvAtOnce : List Event :=
  [.begin (.received 2 0)]

theorem not_recv_delivers :
    ¬ ∀ (stream : List UInt8) (n : Nat) (tr : List Event) (s : State),
      (receive stream n).Run tr s → s.phase = .done → Delivered stream n s := by
  intro h
  have hrun : (receive [104, 105] 2).Run recvAtOnce
      ((receive [104, 105] 2).exec (start 2) recvAtOnce) :=
    .of_enabled rfl (by decide +kernel)
  obtain ⟨hcount, -⟩ := h _ _ _ _ hrun (by decide +kernel) 0 rfl
  exact absurd hcount (by decide +kernel)

end Delivery

end Receive
end Io
end Ptl

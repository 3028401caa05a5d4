import Ptl.SocketMoves

/-!
# The endpoints of accepted sockets

This module adds the sockets to `socket_accept_operation`.  The constructor of the
operation creates a placeholder; `begin()` or `work()` calls `accept` on the
listening socket and assigns a new socket to the placeholder, and `get_return` moves
the placeholder to the result.  A run consists of any number of operations on one
listening socket, one after the other, each of which may wait once.

* `socket_internal::accept` stores the address of the peer in `remote_` of the
  listening socket, and every constructor of a socket leaves its endpoints at
  `0.0.0.0:0`.

**Results.**
* `toSocketAccept_begin`, `toSocketAccept_work`: the operation is the one of
  `Ptl.IoOperation` with sockets in place of their numbers.
* `accepted_endpoints_iff`: all accepted sockets know their endpoints and the
  listening socket keeps its own exactly if every connection is one from `0.0.0.0:0`
  to `0.0.0.0:0` that is in `remote_` of the listening socket already.
-/

namespace Ptl
namespace Asio

open Transition Bytes Io

universe v

variable {σ : Type v}

/-- A connection that the system has accepted, with the address it stores. -/
structure Connection where
  descriptor : Nat
  peer : IpEndpoint
  own : IpEndpoint
  storage : Memory

/-- The outcome of the system call `accept`. -/
abbrev Accepted := Except ErrorCode Connection

/-- The outcome as the functions of `Ptl.IoOperation` see it. -/
def Accepted.result : Accepted → SysResult
  | .error errno => .fail errno
  | .ok c => .ok c.descriptor

/-- The members of `socket_accept_operation`. -/
structure AcceptOperation (σ : Type v) where
  ec : ErrorCode
  acceptedSocket : Socket σ

namespace AcceptOperation

/-- The constructor, with a watcher for the number 0. -/
def new (s : Socket σ) : AcceptOperation σ where
  ec := 0
  acceptedSocket := s.internalCreate 0 { native := none }

/-- `socket_.accept()`: the listening socket after it, and the result. -/
def accept (e : Endian) (s : Socket σ) (r : Accepted) : Socket σ × Io.Expected Nat :=
  let (m, result) := s.endpoints.accept e (r.map fun c => (c.descriptor, c.storage))
  ({ s with endpoints := m }, result)

/-- `accepted_socket_ = internal_create(socket_, r.value())`. -/
def assign (op : AcceptOperation σ) (s : Socket σ) (d : Nat) (w : Watcher) :
    AcceptOperation σ :=
  { op with acceptedSocket := op.acceptedSocket.moveAssign (s.internalCreate d w) }

def begin (e : Endian) (w : Watcher) (s : Socket σ) (op : AcceptOperation σ) (r : Accepted) :
    Socket σ × AcceptOperation σ × Progress :=
  let (s, result) := accept e s r
  match result with
  | .unexpected errno =>
      if errno = EINPROGRESS ∨ errno = EAGAIN then (s, op, .startIo .read)
      else (s, { op with ec := errno }, .done)
  | .expected d => (s, op.assign s d w, .done)
  | .nothing => (s, op, .done)

def work (e : Endian) (w : Watcher) (s : Socket σ) (op : AcceptOperation σ) (r : Accepted) :
    Socket σ × AcceptOperation σ × Progress :=
  let (s, result) := accept e s r
  match result with
  | .unexpected errno => (s, { op with ec := errno }, .done)
  | .expected d => (s, op.assign s d w, .done)
  | .nothing => (s, op, .done)

/-- `get_return()`, and the value of the `co_await` expression made from it. -/
def getReturn (op : AcceptOperation σ) : Socket σ :=
  op.acceptedSocket.moveConstruct

/-- The operation of `Ptl.IoOperation`, which knows sockets by their numbers. -/
def toSocketAccept (op : AcceptOperation σ) : SocketAccept where
  ec := op.ec
  acceptedSocket := op.acceptedSocket.internal.descriptor.toNat

end AcceptOperation

/-- The listening socket and the operation that waits, if there is one. -/
structure Listener (σ : Type v) where
  socket : Socket σ
  op : Option (AcceptOperation σ)

/-- A call of `begin()` on a new operation, or of `work()`, with its outcome. -/
inductive AcceptEvent where
  | begin (w : Watcher) (r : Accepted)
  | work (w : Watcher) (r : Accepted)

namespace AcceptEvent

def outcome : AcceptEvent → Accepted
  | begin _ r => r
  | work _ r => r

/-- What the call does to the listening socket and to the operation. -/
def run (e : Endian) (l : Listener σ) : AcceptEvent →
    Socket σ × AcceptOperation σ × Progress
  | begin w r => AcceptOperation.begin e w l.socket (.new l.socket) r
  | work w r => AcceptOperation.work e w l.socket (l.op.getD (.new l.socket)) r

/-- The system stores the peer of an accepted connection. -/
def guard (e : Endian) (l : Listener σ) (ev : AcceptEvent) : Prop :=
  (match ev with
    | begin _ _ => l.op.isNone
    | work _ _ => l.op.isSome) ∧
  ∀ c, ev.outcome = .ok c → Answers e c.peer l.socket.endpoints.len c.storage

def next (e : Endian) (l : Listener σ) (ev : AcceptEvent) : Listener σ :=
  let (s, op, p) := ev.run e l
  { socket := s
    op := if p = .done then none else some op }

/-- The socket that the `co_await` expression yields, if the call decides it. -/
def yielded (e : Endian) (l : Listener σ) (ev : AcceptEvent) : Option (Socket σ) :=
  let (_, op, p) := ev.run e l
  if p = .done then some op.getReturn else none

end AcceptEvent

/-- All sequences of accept operations on a listening socket. -/
def accepts (e : Endian) (s : Socket σ) : System (Listener σ) AcceptEvent where
  init := fun l => l = { socket := s, op := none }
  guard := AcceptEvent.guard e
  next := AcceptEvent.next e

/--
An accepted connection yields a socket with the endpoints of the connection, and the
listening socket keeps its endpoints.
-/
def KnowsEndpoints (e : Endian) (l : Listener σ) (ev : AcceptEvent) : Prop :=
  (∀ c, ev.outcome = .ok c → ∃ y, ev.yielded e l = some y ∧
    y.endpoints.remoteEndpoint = c.peer ∧ y.endpoints.localEndpoint = c.own) ∧
  (ev.next e l).socket.endpoints = l.socket.endpoints

/-- A connection without addresses, from the peer that the listening socket accepted last. -/
def Unspecified (l : Listener σ) (ev : AcceptEvent) : Prop :=
  ∀ c, ev.outcome = .ok c → c.peer = .new ∧ c.own = .new ∧
    l.socket.endpoints.remoteEndpoint =
      if l.socket.endpoints.localEndpoint.isIpv4 then .new
      else .ipv6 { address := sin6Addr c.storage, port := 0 }

section Steps

variable {e : Endian} {l : Listener σ} {s : Socket σ} {op : AcceptOperation σ}
  {w : Watcher} {r : Accepted} {c : Connection} {ev : AcceptEvent}

theorem accept_error (e : Endian) (s : Socket σ) (errno : ErrorCode) :
    AcceptOperation.accept e s (.error errno) = (s, .unexpected errno) := by
  rfl

/-- The address of the peer goes to the listening socket. -/
theorem accept_ok (e : Endian) (s : Socket σ) (c : Connection) :
    AcceptOperation.accept e s (.ok c) =
      ({ s with endpoints := (s.endpoints.accept e (.ok (c.descriptor, c.storage))).1 },
        .expected c.descriptor) := by
  simp only [AcceptOperation.accept, Except.map, Endpoints.accept]
  split <;> rfl

theorem toSocketAccept_begin :
    ((AcceptOperation.begin e w s op r).2.1.toSocketAccept,
      (AcceptOperation.begin e w s op r).2.2) = op.toSocketAccept.begin r.result := by
  cases r with
  | error errno =>
      simp only [AcceptOperation.begin, accept_error, Accepted.result, SocketAccept.begin,
        SysResult.toSocket]
      split <;> rfl
  | ok c =>
      simp only [AcceptOperation.begin, accept_ok]
      rfl

theorem toSocketAccept_work :
    ((AcceptOperation.work e w s op r).2.1.toSocketAccept,
      (AcceptOperation.work e w s op r).2.2) = op.toSocketAccept.work r.result := by
  cases r with
  | error errno =>
      rfl
  | ok c =>
      simp only [AcceptOperation.work, accept_ok]
      rfl

/-- A failed call leaves the listening socket as it is. -/
theorem socket_next_of_error
    {errno : ErrorCode}
    (h : ev.outcome = .error errno) :
    (ev.next e l).socket = l.socket := by
  cases ev with
  | begin w r =>
      obtain rfl : r = .error errno := h
      simp only [AcceptEvent.next, AcceptEvent.run, AcceptOperation.begin, accept_error]
      split <;> rfl
  | work w r =>
      obtain rfl : r = .error errno := h
      rfl

/-- A call that succeeds decides the operation. -/
theorem next_of_ok
    (h : ev.outcome = .ok c) :
    ev.next e l =
      { socket :=
          { l.socket with
            endpoints := (l.socket.endpoints.accept e (.ok (c.descriptor, c.storage))).1 }
        op := none } := by
  cases ev with
  | begin w r =>
      obtain rfl : r = .ok c := h
      simp only [AcceptEvent.next, AcceptEvent.run, AcceptOperation.begin, accept_ok, if_true]
  | work w r =>
      obtain rfl : r = .ok c := h
      simp only [AcceptEvent.next, AcceptEvent.run, AcceptOperation.work, accept_ok, if_true]

/-- The socket that it yields has no endpoints. -/
theorem yielded_of_ok
    (h : ev.outcome = .ok c) :
    ∃ y, ev.yielded e l = some y ∧ y.endpoints = .new := by
  cases ev with
  | begin w r =>
      obtain rfl : r = .ok c := h
      simp only [AcceptEvent.yielded, AcceptEvent.run, AcceptOperation.begin, accept_ok, if_true]
      exact ⟨_, rfl, rfl⟩
  | work w r =>
      obtain rfl : r = .ok c := h
      simp only [AcceptEvent.yielded, AcceptEvent.run, AcceptOperation.work, accept_ok, if_true]
      exact ⟨_, rfl, rfl⟩

/-- What `accept` reads when the peer has no address. -/
theorem remoteEndpoint_accept_new
    {m : Endpoints} {storage : Memory} {descriptor : Nat}
    (h : Answers e .new m.len storage) :
    (m.accept e (.ok (descriptor, storage))).1.remoteEndpoint =
      if m.localEndpoint.isIpv4 then .new
      else .ipv6 { address := sin6Addr storage, port := 0 } := by
  have hlimit : sockaddrSize .new ≤ m.len := by
    rw [Endpoints.len]
    split <;> decide
  obtain ⟨-, hport, haddress⟩ := h.represents hlimit
  have hntohs : ntohs e (sinPort e storage) = 0 := ntohs_sinPort hport
  have hsAddr : sAddr e storage = 0 := by
    have hread : storage.read 4 4 = [0, 0, 0, 0] := haddress
    rw [sAddr, hread]
    cases e <;> rfl
  cases hv4 : m.localEndpoint.isIpv4 with
  | true =>
      simp only [Endpoints.accept, hv4, if_true, hntohs, hsAddr]
      rfl
  | false =>
      simp only [Endpoints.accept, hv4, hntohs]
      rfl

theorem localEndpoint_accept (m : Endpoints) (r : Except ErrorCode (Nat × Memory)) :
    (m.accept e r).1.localEndpoint = m.localEndpoint := by
  cases r with
  | error errno =>
      rfl
  | ok c =>
      simp only [Endpoints.accept]
      split <;> rfl

/-- One call: the endpoints are right exactly if there is nothing to know. -/
theorem knowsEndpoints_iff
    (hguard : (accepts e s).guard l ev) :
    KnowsEndpoints e l ev ↔ Unspecified l ev := by
  obtain ⟨-, hanswers⟩ := hguard
  cases hr : ev.outcome with
  | error errno =>
      refine iff_of_true ⟨?_, ?_⟩ ?_
      · intro c hc
        simp [hr] at hc
      · rw [socket_next_of_error hr]
      · intro c hc
        simp [hr] at hc
  | ok c =>
      have hall (P : Connection → Prop) : (∀ c', ev.outcome = .ok c' → P c') ↔ P c := by
        rw [hr]
        constructor
        · exact fun h => h c rfl
        · rintro h c' ⟨⟩
          exact h
      obtain ⟨y, hy, hnew⟩ := yielded_of_ok (e := e) (l := l) hr
      have hanswer := hanswers c hr
      rw [KnowsEndpoints, Unspecified, hall, hall, next_of_ok hr, hy]
      constructor
      · rintro ⟨⟨y', hyy', hpeer, hown⟩, hendpoints⟩
        obtain rfl := Option.some.inj hyy'
        rw [hnew] at hpeer hown
        have hpeer : c.peer = .new := hpeer.symm
        rw [hpeer] at hanswer
        refine ⟨hpeer, hown.symm, ?_⟩
        rw [← remoteEndpoint_accept_new hanswer]
        exact (congrArg Endpoints.remoteEndpoint hendpoints).symm
      · rintro ⟨hpeer, hown, hremote⟩
        rw [hpeer] at hanswer
        refine ⟨⟨y, rfl, ?_, ?_⟩, ?_⟩
        · rw [hnew, hpeer]
          rfl
        · rw [hnew, hown]
          rfl
        · rw [← remoteEndpoint_accept_new hanswer] at hremote
          exact Endpoints.ext (localEndpoint_accept ..) hremote.symm

/--
In a run, all accepted sockets know their endpoints and the listening socket keeps
its own exactly if no connection has addresses.
-/
theorem accepted_endpoints_iff
    {tr : List AcceptEvent}
    (hrun : (accepts e s).Run tr l) :
    (accepts e s).Along (KnowsEndpoints e) { socket := s, op := none } tr ↔
      (accepts e s).Along Unspecified { socket := s, op := none } tr :=
  hrun.along_congr (I := fun _ => True) (fun _ h => h) trivial (fun _ _ _ _ => trivial)
    fun _ _ _ hguard => knowsEndpoints_iff hguard

end Steps

section Examples

/-- A listening socket with given endpoints. -/
def listening (m : Endpoints) : Socket Unit where
  internal := { descriptor := 5, service := (), data := some { native := some 0 } }
  endpoints := m

/-- `sockaddr_in` of `0.0.0.0:0` on a little-endian host. -/
def newStorage : Memory :=
  fun k => if k = 0 then 2 else 0

/-- The operation waits, and the connection has no addresses. -/
def acceptUnspecified : List AcceptEvent :=
  [.begin { native := some 1 } (.error EAGAIN),
    .work { native := some 1 }
      (.ok { descriptor := 6, peer := .new, own := .new, storage := newStorage })]

theorem enabled_acceptUnspecified :
    (accepts .little (listening .new)).Enabled
      { socket := listening .new, op := none } acceptUnspecified := by
  refine ⟨⟨rfl, ?_⟩, ⟨rfl, ?_⟩, trivial⟩
  · rintro c ⟨⟩
  · rintro c ⟨⟩
    exact ⟨newStorage, ⟨by decide, by decide, by decide⟩, fun _ _ => rfl⟩

theorem accepted_endpoints_acceptUnspecified :
    (accepts .little (listening .new)).Along (KnowsEndpoints .little)
      { socket := listening .new, op := none } acceptUnspecified := by
  have hrun : (accepts .little (listening .new)).Run acceptUnspecified _ :=
    .of_enabled rfl enabled_acceptUnspecified
  refine (accepted_endpoints_iff hrun).mpr ⟨?_, ?_, trivial⟩
  · rintro c ⟨⟩
  · rintro c ⟨⟩
    exact ⟨rfl, rfl, rfl⟩

/-- A connection from 192.0.2.1 is accepted at the first attempt. -/
def acceptAtOnce : List AcceptEvent :=
  [.begin { native := some 1 }
    (.ok
      { descriptor := 6
        peer := documentation4
        own := .new
        storage := documentation4Storage })]

theorem not_accepted_endpoints :
    ¬ ∀ (e : Endian) (s : Socket Unit) (l : Listener Unit) (tr : List AcceptEvent),
      (accepts e s).Run tr l →
      (accepts e s).Along (KnowsEndpoints e) { socket := s, op := none } tr := by
  intro h
  have henabled : (accepts .little (listening .new)).Enabled
      { socket := listening .new, op := none } acceptAtOnce := by
    refine ⟨⟨rfl, ?_⟩, trivial⟩
    rintro c ⟨⟩
    exact answers_documentation4 _
  have hrun : (accepts .little (listening .new)).Run acceptAtOnce _ :=
    .of_enabled rfl henabled
  obtain ⟨⟨hsome, -⟩, -⟩ := h _ _ _ _ hrun
  obtain ⟨y, hy, hpeer, -⟩ := hsome _ rfl
  obtain rfl := Option.some.inj hy
  exact absurd hpeer (by decide)

end Examples

end Asio
end Ptl

import Mathlib.Data.Option.Basic

/-!
# Socket operations and the result of `co_await`

This module embeds `io_operation.hpp` and the five socket operations.  An
operation makes one system call in `begin()` and one in every `work()`; the
outcomes of these calls are the input.  `begin()` and `work()` either hand the
operation to `start_io` and wait, or decide the operation.

* `Operation` is what the base class `io_operation<DERIVED>` uses of `DERIVED`.
* `Operation.decide` runs an operation up to the outcome that decides it.
* `Operation.awaitResume` builds the value of the `co_await` expression.

**Results.**
* `ec_of_decide`: every operation keeps the errno of the deciding call in `ec_`.
* `error_reported_iff`: `co_await` reports the deciding outcome if and only if it
  is a success, because `await_resume` drops the error it has just built.
-/

namespace Ptl
namespace Io

universe u v w

/-- `ptl::error_code`; zero means no error. -/
abbrev ErrorCode := Int

def EAGAIN : ErrorCode := 11

/-- On Linux the same number as `EAGAIN`. -/
def EWOULDBLOCK : ErrorCode := 11

def EINPROGRESS : ErrorCode := 115

/--
The outcome of a system call: its non-negative result, or `-1` with an errno.
A call transfers fewer than `2 ^ 31` bytes, so the result fits into an `int`.
-/
inductive SysResult where
  | ok (result : Nat)
  | fail (errno : ErrorCode)
deriving DecidableEq

/-- `expected<T, error_code>` by the alternative it contains. -/
inductive Expected (α : Type u) where
  | nothing
  | expected (value : α)
  | unexpected (error : ErrorCode)
deriving DecidableEq

namespace Expected

variable {α : Type u} {β : Type v}

def isError : Expected α → Bool
  | unexpected _ => true
  | _ => false

def map (f : α → β) : Expected α → Expected β
  | nothing => nothing
  | expected value => expected (f value)
  | unexpected error => unexpected error

end Expected

/-- `io_kind`, with the values of the enumerators. -/
inductive IoKind where
  | none
  | read
  | write
deriving DecidableEq

def IoKind.toNat : IoKind → Nat
  | .none => 0
  | .read => 1
  | .write => 2

/-- How `begin()` or `work()` ends: after `start_io`, or with the result known. -/
inductive Progress where
  | startIo (kind : IoKind)
  | done
deriving DecidableEq

/-- The members of `DERIVED` that `io_operation<DERIVED>` and the loop use. -/
structure Operation (σ : Type u) (ρ : Type v) where
  ec : σ → ErrorCode
  begin : σ → SysResult → σ × Progress
  work : σ → SysResult → σ × Progress
  /-- `none` when `get_return()` returns `void`. -/
  getReturn : σ → Option ρ

namespace Operation

variable {σ : Type u} {ρ : Type v}

/-- `work()` is called until it decides the operation. -/
def workLoop (D : Operation σ ρ) (s : σ) :
    List SysResult → Option (SysResult × σ)
  | [] => none
  | r :: rs =>
      match D.work s r with
      | (s', .done) => some (r, s')
      | (s', .startIo _) => workLoop D s' rs

/-- The deciding outcome and the operation after it; `none` while it waits. -/
def decide (D : Operation σ ρ) (s : σ) :
    List SysResult → Option (SysResult × σ)
  | [] => none
  | r :: rs =>
      match D.begin s r with
      | (s', .done) => some (r, s')
      | (s', .startIo _) => D.workLoop s' rs

/-- `await_resume()`. -/
def awaitResume (D : Operation σ ρ) (s : σ) : Expected ρ :=
  -- `return_type{ ec_ };` is an expression statement: the temporary is dropped
  let _temporary : Option (Expected ρ) :=
    if D.ec s ≠ 0 then some (.unexpected (D.ec s)) else none
  match D.getReturn s with
  | none => .nothing
  | some value => .expected value

/-- The deciding outcome and the value of the `co_await` expression. -/
def await (D : Operation σ ρ) (s : σ) (outcomes : List SysResult) :
    Option (SysResult × Expected ρ) :=
  (D.decide s outcomes).map fun p => (p.1, D.awaitResume p.2)

end Operation

section Operations

/-- `expected_void` from a system call. -/
def SysResult.toVoid : SysResult → Expected Unit
  | .ok _ => .nothing
  | .fail errno => .unexpected errno

/-- `expected_socket` from a system call. -/
def SysResult.toSocket : SysResult → Expected Nat
  | .ok descriptor => .expected descriptor
  | .fail errno => .unexpected errno

/-- `begin()` of the operations that return nothing. -/
def voidBegin (kind : IoKind) (ec : ErrorCode) (r : SysResult) :
    ErrorCode × Progress :=
  match r.toVoid with
  | .unexpected e =>
      if e = EINPROGRESS then (ec, .startIo kind) else (e, .done)
  | _ => (ec, .done)

/-- `work()` of the operations that return nothing. -/
def voidWork (ec : ErrorCode) (r : SysResult) : ErrorCode × Progress :=
  match r.toVoid with
  | .unexpected e => (e, .done)
  | _ => (ec, .done)

/-- `socket_connect_operation`. -/
def socketConnectOperation : Operation ErrorCode Empty where
  ec := id
  begin := voidBegin .write
  work := voidWork
  getReturn := fun _ => none

/-- `socket_shutdown_operation`. -/
def socketShutdownOperation : Operation ErrorCode Empty where
  ec := id
  begin := voidBegin .write
  work := voidWork
  getReturn := fun _ => none

/-- The members of `socket_accept_operation`. -/
structure SocketAccept where
  ec : ErrorCode
  acceptedSocket : Nat
deriving DecidableEq

def SocketAccept.begin (op : SocketAccept) (r : SysResult) :
    SocketAccept × Progress :=
  match r.toSocket with
  | .unexpected e =>
      if e = EINPROGRESS ∨ e = EAGAIN then (op, .startIo .read)
      else ({ op with ec := e }, .done)
  | .expected descriptor => ({ op with acceptedSocket := descriptor }, .done)
  | .nothing => (op, .done)

def SocketAccept.work (op : SocketAccept) (r : SysResult) :
    SocketAccept × Progress :=
  match r.toSocket with
  | .unexpected e => ({ op with ec := e }, .done)
  | .expected descriptor => ({ op with acceptedSocket := descriptor }, .done)
  | .nothing => (op, .done)

/-- `socket_accept_operation`. -/
def socketAcceptOperation : Operation SocketAccept Nat where
  ec := SocketAccept.ec
  begin := SocketAccept.begin
  work := SocketAccept.work
  getReturn := fun op => some op.acceptedSocket

/-- The members of `socket_send_operation`. -/
structure SocketSend where
  ec : ErrorCode
  size : Nat
  sent : Nat
  transferred : Nat
deriving DecidableEq

def SocketSend.begin (op : SocketSend) (r : SysResult) :
    SocketSend × Progress :=
  match r with
  | .fail e =>
      if e = EAGAIN ∨ e = EWOULDBLOCK then (op, .startIo .write)
      else ({ op with ec := e }, .done)
  | .ok _ => (op, .done)

def SocketSend.work (op : SocketSend) (r : SysResult) :
    SocketSend × Progress :=
  match r with
  | .fail e => ({ op with ec := e }, .done)
  | .ok _ => ({ op with sent := op.size, transferred := op.size }, .done)

/-- `socket_send_operation`. -/
def socketSendOperation : Operation SocketSend Nat where
  ec := SocketSend.ec
  begin := SocketSend.begin
  work := SocketSend.work
  getReturn := fun op => some op.transferred

/-- The members of `socket_recv_operation`. -/
structure SocketRecv where
  ec : ErrorCode
  size : Nat
  received : Nat
  all : Bool
  transferred : Nat
deriving DecidableEq

def SocketRecv.begin (op : SocketRecv) (r : SysResult) :
    SocketRecv × Progress :=
  match r with
  | .fail e =>
      if e = EAGAIN ∨ e = EWOULDBLOCK then (op, .startIo .read)
      else ({ op with ec := e }, .done)
  | .ok n =>
      if op.all ∧ n < op.size then
        ({ op with received := n }, .startIo .read)
      else ({ op with received := n }, .done)

def SocketRecv.work (op : SocketRecv) (r : SysResult) :
    SocketRecv × Progress :=
  match r with
  | .fail e => ({ op with ec := e }, .done)
  | .ok n =>
      let received := op.received + n
      if 0 < n ∧ op.all ∧ received < op.size then
        ({ op with received := received }, .startIo .read)
      else
        ({ op with received := received, transferred := received }, .done)

/-- `socket_recv_operation`. -/
def socketRecvOperation : Operation SocketRecv Nat where
  ec := SocketRecv.ec
  begin := SocketRecv.begin
  work := SocketRecv.work
  getReturn := fun op => some op.transferred

end Operations

/-- The socket operations, with the arguments their constructors keep. -/
inductive SocketOperation where
  | connect
  | accept
  | send (size : Nat)
  | recv (size : Nat) (all : Bool)
  | shutdown
deriving DecidableEq

/-- What a successful operation returns. -/
inductive Value where
  | socket (descriptor : Nat)
  | size (transferred : Nat)
deriving DecidableEq

namespace SocketOperation

/--
`co_await` of a freshly constructed operation, whose base classes are
value-initialised.  The accepted socket is first created on descriptor 0.
-/
def await (op : SocketOperation) (outcomes : List SysResult) :
    Option (SysResult × Expected Value) :=
  match op with
  | connect =>
      (socketConnectOperation.await 0 outcomes).map fun p =>
        (p.1, p.2.map nofun)
  | accept =>
      (socketAcceptOperation.await ⟨0, 0⟩ outcomes).map fun p =>
        (p.1, p.2.map .socket)
  | send size =>
      (socketSendOperation.await ⟨0, size, 0, 0⟩ outcomes).map fun p =>
        (p.1, p.2.map .size)
  | recv size all =>
      (socketRecvOperation.await ⟨0, size, 0, all, 0⟩ outcomes).map fun p =>
        (p.1, p.2.map .size)
  | shutdown =>
      (socketShutdownOperation.await 0 outcomes).map fun p =>
        (p.1, p.2.map nofun)

end SocketOperation

/-- The errno of an outcome, zero for a success. -/
def SysResult.errno : SysResult → ErrorCode
  | .ok _ => 0
  | .fail errno => errno

section Recording

variable {σ : Type u} {ρ : Type v}

/-- One call of `begin()` or `work()` keeps the errno of a deciding outcome. -/
def Records (ec : σ → ErrorCode) (step : σ → SysResult → σ × Progress) : Prop :=
  ∀ s r, ec s = 0 →
    ec (step s r).1 = if (step s r).2 = .done then r.errno else 0

/-- Both calls of an operation keep the errno of a deciding outcome. -/
structure RecordsErrors (D : Operation σ ρ) : Prop where
  begin : Records D.ec D.begin
  work : Records D.ec D.work

theorem Records.of_done
    {ec : σ → ErrorCode} {step : σ → SysResult → σ × Progress}
    (h : Records ec step)
    {s s' : σ} {r : SysResult}
    (hs : ec s = 0)
    (hstep : step s r = (s', .done)) :
    ec s' = r.errno := by
  simpa [hstep] using h s r hs

theorem Records.of_startIo
    {ec : σ → ErrorCode} {step : σ → SysResult → σ × Progress}
    (h : Records ec step)
    {s s' : σ} {r : SysResult} {kind : IoKind}
    (hs : ec s = 0)
    (hstep : step s r = (s', .startIo kind)) :
    ec s' = 0 := by
  simpa [hstep] using h s r hs

theorem ec_of_workLoop
    {D : Operation σ ρ}
    (hD : RecordsErrors D)
    {s s' : σ} {outcomes : List SysResult} {r : SysResult}
    (hs : D.ec s = 0)
    (h : D.workLoop s outcomes = some (r, s')) :
    D.ec s' = r.errno := by
  induction outcomes generalizing s with
  | nil =>
      simp [Operation.workLoop] at h
  | cons q qs ih =>
      rw [Operation.workLoop] at h
      split at h
      next t hstep =>
        obtain ⟨rfl, rfl⟩ : q = r ∧ t = s' := by simpa using h
        exact hD.work.of_done hs hstep
      next t kind hstep =>
        exact ih (hD.work.of_startIo hs hstep) h

/-- The deciding errno is in `ec_` when `await_resume` runs. -/
theorem ec_of_decide
    {D : Operation σ ρ}
    (hD : RecordsErrors D)
    {s s' : σ} {outcomes : List SysResult} {r : SysResult}
    (hs : D.ec s = 0)
    (h : D.decide s outcomes = some (r, s')) :
    D.ec s' = r.errno := by
  cases outcomes with
  | nil =>
      simp [Operation.decide] at h
  | cons q qs =>
      rw [Operation.decide] at h
      split at h
      next t hstep =>
        obtain ⟨rfl, rfl⟩ : q = r ∧ t = s' := by simpa using h
        exact hD.begin.of_done hs hstep
      next t kind hstep =>
        exact ec_of_workLoop hD (hD.begin.of_startIo hs hstep) h

theorem records_voidBegin (kind : IoKind) :
    Records id (voidBegin kind) := by
  rintro ec (n | e) hs
  · simpa [voidBegin, SysResult.toVoid, SysResult.errno] using hs
  · by_cases he : e = EINPROGRESS
    · simpa [voidBegin, SysResult.toVoid, he] using hs
    · simp [voidBegin, SysResult.toVoid, SysResult.errno, he]

theorem records_voidWork :
    Records id voidWork := by
  rintro ec (n | e) hs
  · simpa [voidWork, SysResult.toVoid, SysResult.errno] using hs
  · simp [voidWork, SysResult.toVoid, SysResult.errno]

theorem socketConnect_records :
    RecordsErrors socketConnectOperation where
  begin := records_voidBegin .write
  work := records_voidWork

theorem socketShutdown_records :
    RecordsErrors socketShutdownOperation where
  begin := records_voidBegin .write
  work := records_voidWork

theorem socketAccept_records :
    RecordsErrors socketAcceptOperation where
  begin := by
    rintro op (n | e) hs
    · simpa [socketAcceptOperation, SocketAccept.begin, SysResult.toSocket,
        SysResult.errno] using hs
    · by_cases he : e = EINPROGRESS ∨ e = EAGAIN
      · simpa [socketAcceptOperation, SocketAccept.begin, SysResult.toSocket,
          he] using hs
      · simp [socketAcceptOperation, SocketAccept.begin, SysResult.toSocket,
          SysResult.errno, he]
  work := by
    rintro op (n | e) hs
    · simpa [socketAcceptOperation, SocketAccept.work, SysResult.toSocket,
        SysResult.errno] using hs
    · simp [socketAcceptOperation, SocketAccept.work, SysResult.toSocket,
        SysResult.errno]

theorem socketSend_records :
    RecordsErrors socketSendOperation where
  begin := by
    rintro op (n | e) hs
    · simpa [socketSendOperation, SocketSend.begin, SysResult.errno] using hs
    · by_cases he : e = EAGAIN ∨ e = EWOULDBLOCK
      · simpa [socketSendOperation, SocketSend.begin, he] using hs
      · simp [socketSendOperation, SocketSend.begin, SysResult.errno, he]
  work := by
    rintro op (n | e) hs
    · simpa [socketSendOperation, SocketSend.work, SysResult.errno] using hs
    · simp [socketSendOperation, SocketSend.work, SysResult.errno]

theorem socketRecv_records :
    RecordsErrors socketRecvOperation where
  begin := by
    rintro op (n | e) hs
    · by_cases hn : op.all ∧ n < op.size
      · simpa [socketRecvOperation, SocketRecv.begin, hn] using hs
      · simpa [socketRecvOperation, SocketRecv.begin, SysResult.errno, hn]
          using hs
    · by_cases he : e = EAGAIN ∨ e = EWOULDBLOCK
      · simpa [socketRecvOperation, SocketRecv.begin, he] using hs
      · simp [socketRecvOperation, SocketRecv.begin, SysResult.errno, he]
  work := by
    rintro op (n | e) hs
    · by_cases hn : 0 < n ∧ op.all ∧ op.received + n < op.size
      · simpa [socketRecvOperation, SocketRecv.work, hn] using hs
      · simpa [socketRecvOperation, SocketRecv.work, SysResult.errno, hn]
          using hs
    · simp [socketRecvOperation, SocketRecv.work, SysResult.errno]

end Recording

section Reporting

variable {σ : Type u} {ρ : Type v}

/-- `await_resume` never returns an error. -/
theorem awaitResume_isError (D : Operation σ ρ) (s : σ) :
    (D.awaitResume s).isError = false := by
  unfold Operation.awaitResume
  cases D.getReturn s <;> rfl

theorem isError_map {α β : Type*} (f : α → β) (x : Expected α) :
    (x.map f).isError = x.isError := by
  cases x <;> rfl

theorem await_isError
    {D : Operation σ ρ} {s : σ} {outcomes : List SysResult}
    {r : SysResult} {x : Expected ρ}
    (h : D.await s outcomes = some (r, x)) :
    x.isError = false := by
  obtain ⟨⟨q, t⟩, -, heq⟩ := Option.map_eq_some_iff.mp h
  obtain ⟨-, rfl⟩ : q = r ∧ D.awaitResume t = x := by simpa using heq
  exact awaitResume_isError D t

theorem isError_of_await_map
    {D : Operation σ ρ} {s : σ} {f : ρ → Value} {outcomes : List SysResult}
    {r : SysResult} {x : Expected Value}
    (h : ((D.await s outcomes).map fun p => (p.1, p.2.map f)) = some (r, x)) :
    x.isError = false := by
  obtain ⟨⟨q, y⟩, hy, heq⟩ := Option.map_eq_some_iff.mp h
  obtain ⟨-, rfl⟩ := Prod.mk.inj heq
  rw [isError_map, await_isError hy]

/-- No socket operation ever yields an error. -/
theorem socketOperation_isError
    {op : SocketOperation} {outcomes : List SysResult}
    {r : SysResult} {x : Expected Value}
    (h : op.await outcomes = some (r, x)) :
    x.isError = false := by
  cases op with
  | connect =>
      exact isError_of_await_map h
  | accept =>
      exact isError_of_await_map h
  | send size =>
      exact isError_of_await_map h
  | recv size all =>
      exact isError_of_await_map h
  | shutdown =>
      exact isError_of_await_map h

/-- The value of `co_await` tells how the deciding call ended. -/
def ErrorReported (r : SysResult) (x : Expected Value) : Prop :=
  (∀ e, r = .fail e → x = .unexpected e) ∧
    (x.isError = false → ∃ n, r = .ok n)

/-- The deciding outcome is reported exactly when it is a success. -/
theorem error_reported_iff
    {op : SocketOperation} {outcomes : List SysResult}
    {r : SysResult} {x : Expected Value}
    (h : op.await outcomes = some (r, x)) :
    ErrorReported r x ↔ ∃ n, r = .ok n := by
  constructor
  · rintro ⟨-, hvalue⟩
    exact hvalue (socketOperation_isError h)
  · rintro ⟨n, rfl⟩
    refine ⟨?_, fun _ => ⟨n, rfl⟩⟩
    rintro e he
    cases he

/-- `ECONNREFUSED`. -/
def ECONNREFUSED : ErrorCode := 111

/-- A refused connection looks connected. -/
theorem not_error_reported_connect :
    SocketOperation.connect.await [.fail EINPROGRESS, .fail ECONNREFUSED] =
      some (.fail ECONNREFUSED, .nothing) ∧
    ¬ ErrorReported (.fail ECONNREFUSED) .nothing := by
  refine ⟨rfl, ?_⟩
  rintro ⟨herror, -⟩
  cases herror ECONNREFUSED rfl

/-- A `recv` that waits once and then reads all it asked for. -/
theorem error_reported_recv :
    ErrorReported (.ok 2) (.expected (.size 2)) := by
  have h :
      (SocketOperation.recv 2 true).await [.fail EAGAIN, .ok 2] =
        some (.ok 2, .expected (.size 2)) := rfl
  exact (error_reported_iff h).mpr ⟨2, rfl⟩

end Reporting

end Io
end Ptl

import Ptl.SocketServices
import Ptl.SocketAddress

/-!
# Moving sockets with their endpoints

This module adds `local_` and `remote_` to the sockets of `Ptl.SocketOwnership`.
The constructors of `socket_internal`, the move constructor among them, leave both
members at their defaults, and `swap` does not exchange them.

A chain of moves passes a socket from one variable to the next; it starts in any
state of the variables.

**Results.**
* `held_of_run`: the descriptor and the data go along with every move.
* `moves_preserve_iff`: the whole state arrives exactly if the last move constructs a
  socket, the original endpoints are the default ones and the socket moved from
  refers to the original service, or if it assigns to a socket whose own service and
  endpoints are those of the original.
-/

namespace Ptl
namespace Asio

open Transition Bytes Io

universe u v

/-- All members of `socket_internal`. -/
structure Socket (σ : Type v) where
  internal : SocketInternal σ
  endpoints : Endpoints

namespace Socket

variable {σ : Type v}

/-- `socket_internal(socket_internal&, native_type)`, with the watcher that is registered. -/
def internalCreate (s : Socket σ) (d : Int) (w : Watcher) : Socket σ where
  internal := { descriptor := d, service := s.internal.service, data := some w }
  endpoints := .new

/-- `socket_internal(socket_internal&&)`. -/
def moveConstruct (o : Socket σ) : Socket σ where
  internal := o.internal
  endpoints := .new

/-- `socket_internal::operator=(socket_internal&&)`; `swap` leaves the endpoints. -/
def moveAssign (s o : Socket σ) : Socket σ where
  internal := s.internal.swapped o.internal
  endpoints := s.endpoints

end Socket

/-- The sockets, and the endpoints at the same places. -/
structure Variables (ν : Type u) (σ : Type v) where
  sockets : State ν σ
  endpoints : Option ν → Endpoints

namespace Variables

variable {ν : Type u} {σ : Type v}

/-- The socket in a variable. -/
def member (s : Variables ν σ) (a : Option ν) : Option (Socket σ) :=
  (s.sockets.socket a).map fun x => { internal := x, endpoints := s.endpoints a }

/-- `service_` of a socket. -/
def service (s : Variables ν σ) (a : Option ν) : Option σ :=
  (s.sockets.socket a).map SocketInternal.service

variable [DecidableEq ν] [DecidableEq σ]

/-- `socket_internal(socket_internal&&)`. -/
def moveConstruct (s : Variables ν σ) (a b : Option ν) : Variables ν σ where
  sockets := s.sockets.moveConstruct a b
  endpoints := Function.update s.endpoints a .new

/-- `socket_internal::operator=(socket_internal&&)`. -/
def moveAssign (s : Variables ν σ) (a b : Option ν) : Variables ν σ :=
  let moved := s.moveConstruct none b
  -- neither `swap` nor the destructor touches the endpoints of a living socket
  { moved with sockets := (moved.sockets.swap a none).destroy none }

end Variables

/-- A move from the current owner of a socket. -/
inductive Move (ν : Type u) where
  | construct (a : ν)
  | assign (a : ν)
deriving DecidableEq

/-- The variables and the one that a chain of moves has reached. -/
structure Chain (ν : Type u) (σ : Type v) where
  vars : Variables ν σ
  owner : ν

namespace Chain

variable {ν : Type u} {σ : Type v}

def socket (s : Chain ν σ) : Option (SocketInternal σ) :=
  s.vars.sockets.socket (some s.owner)

def endpoints (s : Chain ν σ) : Endpoints :=
  s.vars.endpoints (some s.owner)

def guard (s : Chain ν σ) : Move ν → Prop
  | .construct a => s.vars.sockets.socket (some a) = none
  | .assign a => (s.vars.sockets.socket (some a)).isSome

variable [DecidableEq ν] [DecidableEq σ]

def next (s : Chain ν σ) : Move ν → Chain ν σ
  | .construct a =>
      { vars := s.vars.moveConstruct (some a) (some s.owner), owner := a }
  | .assign a =>
      { vars := s.vars.moveAssign (some a) (some s.owner), owner := a }

end Chain

variable {ν : Type u} {σ : Type v} [DecidableEq ν] [DecidableEq σ]

/-- All chains of moves from a given state. -/
def moves (s₀ : Chain ν σ) : System (Chain ν σ) (Move ν) where
  init := fun s => s = s₀
  guard := Chain.guard
  next := Chain.next

section Properties

omit [DecidableEq ν] [DecidableEq σ] in
/-- The owner has all members of the original, and the operations on it the same effect. -/
structure Preserved (s₀ s : Chain ν σ) : Prop where
  member : s.vars.member (some s.owner) = s₀.vars.member (some s₀.owner)
  accept : ∀ (e : Endian) (r : Except ErrorCode (Nat × Memory)),
    s.endpoints.accept e r = s₀.endpoints.accept e r
  getLocal : ∀ (e : Endian) (r : Except ErrorCode Memory),
    s.endpoints.getLocal e r = s₀.endpoints.getLocal e r
  getRemote : ∀ (e : Endian) (r : Except ErrorCode Memory),
    s.endpoints.getRemote e r = s₀.endpoints.getRemote e r

/-- The members that a move does not carry are those of the original already. -/
def Carries (s₀ s : Chain ν σ) : Move ν → Prop
  | .construct _ =>
      s₀.endpoints = .new ∧
        s.vars.service (some s.owner) = s₀.vars.service (some s₀.owner)
  | .assign a =>
      s.vars.endpoints (some a) = s₀.endpoints ∧
        s.vars.service (some a) = s₀.vars.service (some s₀.owner)

/-- The last move of the chain, if there is one, carries the state. -/
def LastCarries (s₀ : Chain ν σ) (tr : List (Move ν)) : Prop :=
  ∀ es e, tr = es ++ [e] → Carries s₀ ((moves s₀).exec s₀ es) e

end Properties

section Steps

variable {s : Variables ν σ} {a b : ν} {x y : SocketInternal σ}

omit [DecidableEq σ] in
theorem socket_moveConstruct
    (hb : s.sockets.socket (some b) = some y) :
    (s.moveConstruct (some a) (some b)).sockets.socket (some a) = some y := by
  simp [Variables.moveConstruct, State.moveConstruct, hb]

/-- An assignment takes the descriptor and the data, also one to the same socket. -/
theorem socket_moveAssign
    (ha : s.sockets.socket (some a) = some x)
    (hb : s.sockets.socket (some b) = some y) :
    (s.moveAssign (some a) (some b)).sockets.socket (some a) = some (x.swapped y) := by
  have htemp : (s.sockets.moveConstruct none (some b)).socket none = some y := by
    simp [State.moveConstruct, hb]
  obtain ⟨z, hz, hswapped⟩ : ∃ z, (s.sockets.moveConstruct none (some b)).socket (some a) = some z ∧
      z.swapped y = x.swapped y := by
    rcases eq_or_ne a b with rfl | hab
    · obtain rfl : x = y := Option.some.inj (ha.symm.trans hb)
      exact ⟨x.moved, by simp [State.moveConstruct, hb], rfl⟩
    · exact ⟨x, by simp [State.moveConstruct, hb, hab, ha], rfl⟩
  have hswap : ((s.sockets.moveConstruct none (some b)).swap (some a) none).socket none =
      some (y.swapped z) := by
    simp [State.swap, hz, htemp]
  change ((_ : State ν σ).destroy none).socket (some a) = _
  rw [Variables.moveConstruct, socket_destroy hswap]
  simp [State.swap, hz, htemp, hswapped]

omit [DecidableEq σ] in
theorem endpoints_moveConstruct (s : Variables ν σ) (a b : ν) :
    (s.moveConstruct (some a) (some b)).endpoints (some a) = .new := by
  simp [Variables.moveConstruct]

theorem endpoints_moveAssign (s : Variables ν σ) (a b : ν) :
    (s.moveAssign (some a) (some b)).endpoints (some a) = s.endpoints (some a) := by
  simp [Variables.moveAssign, Variables.moveConstruct]

omit [DecidableEq σ] in
/-- The moved socket in a variable. -/
theorem member_moveConstruct
    {o : Socket σ}
    (hb : s.member (some b) = some o) :
    (s.moveConstruct (some a) (some b)).member (some a) = some o.moveConstruct := by
  obtain ⟨y, hy, rfl⟩ := Option.map_eq_some_iff.mp hb
  rw [Variables.member, socket_moveConstruct hy, endpoints_moveConstruct]
  rfl

/-- The assigned socket in a variable. -/
theorem member_moveAssign
    {t o : Socket σ}
    (ha : s.member (some a) = some t)
    (hb : s.member (some b) = some o) :
    (s.moveAssign (some a) (some b)).member (some a) = some (t.moveAssign o) := by
  obtain ⟨x, hx, rfl⟩ := Option.map_eq_some_iff.mp ha
  obtain ⟨y, hy, rfl⟩ := Option.map_eq_some_iff.mp hb
  rw [Variables.member, socket_moveAssign hx hy, endpoints_moveAssign]
  rfl

end Steps

section Chains

variable {s₀ s : Chain ν σ} {x y : SocketInternal σ} {tr : List (Move ν)} {e : Move ν}

/-- The owner has the descriptor and the data of the original. -/
def Held (x : SocketInternal σ) (s : Chain ν σ) : Prop :=
  ∃ o, s.vars.member (some s.owner) = some o ∧
    o.internal.descriptor = x.descriptor ∧ o.internal.data = x.data

theorem Held.next
    (hs : Held x s)
    (hguard : s.guard e) :
    Held x (s.next e) := by
  obtain ⟨o, ho, hdescriptor, hdata⟩ := hs
  cases e with
  | construct a =>
      exact ⟨o.moveConstruct, member_moveConstruct ho, hdescriptor, hdata⟩
  | assign a =>
      obtain ⟨z, hz⟩ := Option.isSome_iff_exists.mp hguard
      have htarget : s.vars.member (some a) =
          some { internal := z, endpoints := s.vars.endpoints (some a) } :=
        congrArg (Option.map _) hz
      exact ⟨_, member_moveAssign htarget ho, hdescriptor, hdata⟩

theorem held_of_run
    (hx : s₀.socket = some x)
    (hrun : (moves s₀).Run tr s) :
    Held x s := by
  refine hrun.invariant (I := fun _ s => Held x s) ?_ ?_
  · rintro _ rfl
    exact ⟨_, congrArg (Option.map _) hx, rfl, rfl⟩
  · intro tr s e _ hs hguard
    exact hs.next hguard

omit [DecidableEq ν] [DecidableEq σ] in
/-- With the descriptor and the data, the service and the endpoints are the whole state. -/
theorem Held.preserved_iff
    (hx : s₀.socket = some x)
    (hs : Held x s) :
    Preserved s₀ s ↔
      s.endpoints = s₀.endpoints ∧
        s.vars.service (some s.owner) = s₀.vars.service (some s₀.owner) := by
  obtain ⟨_, ho, hdescriptor, hdata⟩ := hs
  obtain ⟨y, hy, rfl⟩ := Option.map_eq_some_iff.mp ho
  have hmember₀ : s₀.vars.member (some s₀.owner) =
      some { internal := x, endpoints := s₀.endpoints } := congrArg (Option.map _) hx
  have hmember : s.vars.member (some s.owner) =
      some { internal := y, endpoints := s.endpoints } := congrArg (Option.map _) hy
  have hservice₀ : s₀.vars.service (some s₀.owner) = some x.service :=
    congrArg (Option.map _) hx
  have hservice : s.vars.service (some s.owner) = some y.service :=
    congrArg (Option.map _) hy
  constructor
  · intro h
    have heq := h.member
    rw [hmember, hmember₀] at heq
    obtain ⟨rfl, hendpoints⟩ := Socket.mk.inj (Option.some.inj heq)
    exact ⟨hendpoints, hservice.trans hservice₀.symm⟩
  · rintro ⟨hendpoints, heq⟩
    rw [hservice, hservice₀] at heq
    have hxy : y = x := by
      obtain ⟨descriptor, service, data⟩ := y
      obtain rfl : service = x.service := Option.some.inj heq
      subst hdescriptor hdata
      rfl
    refine ⟨?_, ?_, ?_, ?_⟩
    · rw [hmember, hmember₀, hxy, hendpoints]
    all_goals
      intro e r
      rw [hendpoints]

/-- One more move: what it does not carry decides. -/
theorem preserved_next_iff
    (hx : s₀.socket = some x)
    (hs : Held x s)
    (hguard : s.guard e) :
    Preserved s₀ (s.next e) ↔ Carries s₀ s e := by
  rw [(hs.next hguard).preserved_iff hx]
  obtain ⟨_, ho, -, -⟩ := hs
  obtain ⟨y, hy, rfl⟩ := Option.map_eq_some_iff.mp ho
  have hservice : s.vars.service (some s.owner) = some y.service :=
    congrArg (Option.map _) hy
  cases e with
  | construct a =>
      have hendpoints : (s.next (.construct a)).endpoints = .new :=
        endpoints_moveConstruct ..
      have hnext : (s.next (.construct a)).vars.service (some a) = some y.service :=
        congrArg (Option.map _) (socket_moveConstruct hy)
      rw [hendpoints, Carries, hservice]
      change _ ∧ (s.next (.construct a)).vars.service (some a) = _ ↔ _
      rw [hnext, eq_comm]
  | assign a =>
      obtain ⟨z, hz⟩ := Option.isSome_iff_exists.mp hguard
      have hendpoints : (s.next (.assign a)).endpoints = s.vars.endpoints (some a) :=
        endpoints_moveAssign ..
      have hnext : (s.next (.assign a)).vars.service (some a) = some z.service :=
        congrArg (Option.map _) (socket_moveAssign hz hy)
      have hold : s.vars.service (some a) = some z.service :=
        congrArg (Option.map _) hz
      rw [hendpoints, Carries, hold]
      change _ ∧ (s.next (.assign a)).vars.service (some a) = _ ↔ _
      rw [hnext]

/--
The whole state of a socket arrives at the end of a chain of moves exactly if the
members that the last move does not carry are those of the original already.
-/
theorem moves_preserve_iff
    (hx : s₀.socket = some x)
    (hrun : (moves s₀).Run tr s) :
    Preserved s₀ s ↔ LastCarries s₀ tr := by
  cases hrun with
  | start hinit =>
      obtain rfl := hinit
      refine iff_of_true ⟨rfl, fun _ _ => rfl, fun _ _ => rfl, fun _ _ => rfl⟩ ?_
      intro es e h
      simp at h
  | @step tr s e hrun hguard =>
      have hexec := hrun.eq_exec fun _ h => h
      refine (preserved_next_iff hx (held_of_run hx hrun) hguard).trans ?_
      constructor
      · intro h es f heq
        obtain ⟨rfl, hlast⟩ := List.append_inj' heq rfl
        obtain rfl : e = f := by simpa using hlast
        exact hexec ▸ h
      · intro h
        exact hexec ▸ h tr e rfl

end Chains

section Examples

/-- A socket in variable 0 with given endpoints, registered with a service. -/
def single (m : Endpoints) : Chain Nat Unit where
  vars :=
    { sockets := State.start.create (some 0) 5 ()
      endpoints := fun _ => m }
  owner := 0

theorem moves_preserve_single :
    Preserved (single .new) ((moves (single .new)).exec (single .new) [.construct 1]) := by
  have hrun : (moves (single .new)).Run [.construct 1]
      ((moves (single .new)).exec (single .new) [.construct 1]) :=
    .of_enabled rfl ⟨rfl, trivial⟩
  refine (moves_preserve_iff rfl hrun).mpr ?_
  intro es e h
  have hsplit : [] ++ [Move.construct 1] = es ++ [e] := h
  obtain ⟨rfl, hlast⟩ := List.append_inj' hsplit rfl
  obtain rfl : Move.construct 1 = e := by simpa using hlast
  exact ⟨rfl, rfl⟩

/-- The socket is bound to an IPv6 address and then moved. -/
theorem not_moves_preserve :
    ¬ ∀ (s₀ s : Chain Nat Unit) (x : SocketInternal Unit) (tr : List (Move Nat)),
      s₀.socket = some x → (moves s₀).Run tr s → Preserved s₀ s := by
  intro h
  have hrun : (moves (single bound6)).Run [.construct 1]
      ((moves (single bound6)).exec (single bound6) [.construct 1]) :=
    .of_enabled rfl ⟨rfl, trivial⟩
  have hname := (h _ _ _ _ rfl hrun).getLocal .little (.ok loopback6Storage)
  exact absurd hname (by decide)

end Examples

end Asio
end Ptl

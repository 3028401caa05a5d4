import Ptl.TransitionSystem
import Mathlib.Logic.Function.Basic
import Mathlib.Logic.Equiv.Basic

/-!
# Ownership of socket descriptors

This module embeds the constructors, the assignment and the destructor of
`socket_internal`, with `register_descriptor`, `deregister_descriptor` and
`close`.  A socket is a descriptor number, a reference to an `io_service` and the
watcher that was registered for the descriptor; the number 0 and a null watcher
stand for "nothing".

* `operator=` moves its argument to a temporary, swaps with the temporary and
  destroys it.  The temporary is a slot of its own, which is empty between the
  operations.
* The accept operation creates a placeholder with the number 0 and a watcher that
  no descriptor of the system belongs to.
* The system may return every non-negative number that is not open.

For each descriptor the system has returned, the calls that concern it are
recorded: on which loop its watcher was stopped and whether it was closed.

**Results.**
* `owned_of_run`: the descriptors have one owner each, and what has no owner is
  stopped and closed, as long as the system does not return 0 and no assignment
  moves a descriptor between sockets of different services.
-/

namespace Ptl
namespace Asio

open Transition

universe u v

/-- A call that concerns a descriptor of the system. -/
inductive Call (σ : Type v) where
  | stop (service : σ)
  | close
deriving DecidableEq

/-- A descriptor the system has returned, the service it was registered with, and its calls. -/
structure Native (σ : Type v) where
  fd : Int
  service : σ
  calls : List (Call σ)
deriving DecidableEq

/-- The watcher in a `descriptor_service_data`, with the descriptor it was registered for. -/
structure Watcher where
  native : Option Nat
deriving DecidableEq

structure SocketInternal (σ : Type v) where
  descriptor : Int
  service : σ
  data : Option Watcher
deriving DecidableEq

namespace SocketInternal

variable {σ : Type v}

/-- The descriptor of the system that the socket owns. -/
def native (x : SocketInternal σ) : Option Nat :=
  x.data.bind Watcher.native

/-- What a move leaves behind. -/
def moved (x : SocketInternal σ) : SocketInternal σ :=
  { x with descriptor := 0, data := none }

/-- The members that `swap` exchanges. -/
def swapped (x y : SocketInternal σ) : SocketInternal σ :=
  { x with descriptor := y.descriptor, data := y.data }

end SocketInternal

/-- The living sockets, with the slot `none` for the temporary of `operator=`. -/
structure State (ν : Type u) (σ : Type v) where
  socket : Option ν → Option (SocketInternal σ)
  natives : List (Native σ)
  strayClose : Bool

namespace State

variable {ν : Type u} {σ : Type v}

def start : State ν σ where
  socket := fun _ => none
  natives := []
  strayClose := false

variable [DecidableEq ν] [DecidableEq σ]

/-- A socket for a number and the watcher that `register_descriptor` makes for it. -/
def construct
    (s : State ν σ) (a : Option ν) (d : Int) (service : σ) (native : Option Nat) :
    State ν σ :=
  { s with
    socket := Function.update s.socket a (some
      { descriptor := d
        service := service
        data := some { native := native } }) }

/-- A socket for a descriptor the system has just returned. -/
def create (s : State ν σ) (a : Option ν) (fd : Int) (service : σ) : State ν σ :=
  { s.construct a fd service (some s.natives.length) with
    natives := s.natives ++ [{ fd := fd, service := service, calls := [] }] }

/-- `socket_internal(socket_internal&&)`. -/
def moveConstruct (s : State ν σ) (a b : Option ν) : State ν σ :=
  match s.socket b with
  | some x =>
      { s with
        socket := Function.update (Function.update s.socket b (some x.moved)) a (some x) }
  | none => s

/-- `swap(socket_internal&, socket_internal&&)`. -/
def swap (s : State ν σ) (a b : Option ν) : State ν σ :=
  match s.socket a, s.socket b with
  | some x, some y =>
      { s with
        socket := Function.update (Function.update s.socket a (some (x.swapped y)))
          b (some (y.swapped x)) }
  | _, _ => s

/-- `ev_io_stop` of a watcher on the loop of a service. -/
def deregisterDescriptor (s : State ν σ) (service : σ) (w : Watcher) : State ν σ :=
  match w.native with
  | some k =>
      { s with natives := s.natives.modify k fun n =>
        { n with calls := n.calls ++ [.stop service] } }
  | none => s

/-- The system closes the open descriptor with the number. -/
def close (s : State ν σ) (fd : Int) : State ν σ :=
  { s with
    natives := s.natives.map fun n =>
      if n.fd = fd ∧ Call.close ∉ n.calls then
        { n with calls := n.calls ++ [.close] }
      else n
    strayClose := s.strayClose || !s.natives.any fun n => n.fd = fd ∧ Call.close ∉ n.calls }

/-- `socket_internal::~socket_internal`. -/
def destroy (s : State ν σ) (a : Option ν) : State ν σ :=
  match s.socket a with
  | some x =>
      let stopped := match x.data with
        | some w => s.deregisterDescriptor x.service w
        | none => s
      let closed := if x.descriptor ≠ 0 then stopped.close x.descriptor else stopped
      { closed with socket := Function.update s.socket a none }
  | none => s

/-- `socket_internal::operator=(socket_internal&&)`. -/
def moveAssign (s : State ν σ) (a b : Option ν) : State ν σ :=
  ((s.moveConstruct none b).swap a none).destroy none

end State

/-- The operations on sockets; `accept` and `placeholder` take the service of `b`. -/
inductive Event (ν : Type u) (σ : Type v) where
  | create (a : ν) (fd : Int) (service : σ)
  | placeholder (a b : ν)
  | accept (a b : ν) (fd : Int)
  | moveConstruct (a b : ν)
  | moveAssign (a b : ν)
  | destroy (a : ν)
deriving DecidableEq

namespace Event

variable {ν : Type u} {σ : Type v} [DecidableEq σ]

/-- The system may return the number. -/
def Returned (s : State ν σ) (fd : Int) : Prop :=
  0 ≤ fd ∧ ∀ n ∈ s.natives, n.fd = fd → Call.close ∈ n.calls

def Allowed (s : State ν σ) : Event ν σ → Prop
  | create a fd _ => s.socket (some a) = none ∧ Returned s fd
  | placeholder a b => s.socket (some a) = none ∧ (s.socket (some b)).isSome
  | accept a b fd =>
      s.socket (some a) = none ∧ (s.socket (some b)).isSome ∧ Returned s fd
  | moveConstruct a b => s.socket (some a) = none ∧ (s.socket (some b)).isSome
  | moveAssign a b => (s.socket (some a)).isSome ∧ (s.socket (some b)).isSome
  | destroy a => (s.socket (some a)).isSome

instance decidableReturned (s : State ν σ) (fd : Int) :
    Decidable (Returned s fd) :=
  inferInstanceAs
    (Decidable (0 ≤ fd ∧ ∀ n ∈ s.natives, n.fd = fd → Call.close ∈ n.calls))

instance decidableAllowed (s : State ν σ) :
    ∀ e : Event ν σ, Decidable (e.Allowed s)
  | create a fd _ => inferInstanceAs (Decidable (s.socket (some a) = none ∧ Returned s fd))
  | placeholder a b =>
      inferInstanceAs (Decidable (s.socket (some a) = none ∧ (s.socket (some b)).isSome))
  | accept a b fd =>
      inferInstanceAs (Decidable
        (s.socket (some a) = none ∧ (s.socket (some b)).isSome ∧ Returned s fd))
  | moveConstruct a b =>
      inferInstanceAs (Decidable (s.socket (some a) = none ∧ (s.socket (some b)).isSome))
  | moveAssign a b =>
      inferInstanceAs (Decidable ((s.socket (some a)).isSome ∧ (s.socket (some b)).isSome))
  | destroy a => inferInstanceAs (Decidable ((s.socket (some a)).isSome))

variable [DecidableEq ν]

def apply (s : State ν σ) : Event ν σ → State ν σ
  | create a fd service => s.create a fd service
  | placeholder a b =>
      match s.socket (some b) with
      | some x => s.construct a 0 x.service none
      | none => s
  | accept a b fd =>
      match s.socket (some b) with
      | some x => s.create a fd x.service
      | none => s
  | moveConstruct a b => s.moveConstruct a b
  | moveAssign a b => s.moveAssign a b
  | destroy a => s.destroy a

end Event

variable {ν : Type u} {σ : Type v} [DecidableEq ν] [DecidableEq σ]

/-- All sequences of operations on sockets. -/
def sockets : System (State ν σ) (Event ν σ) where
  init := fun s => s = .start
  guard := fun s e => e.Allowed s
  next := Event.apply

instance decidableEventGuard (s : State ν σ) (e : Event ν σ) :
    Decidable (sockets.guard s e) :=
  inferInstanceAs (Decidable (e.Allowed s))

section Properties

omit [DecidableEq ν] [DecidableEq σ]

/-- Every descriptor of the system has one owner, or it is stopped and closed. -/
structure Linear (s : State ν σ) : Prop where
  owned : ∀ a x (k : Nat), s.socket a = some x → x.native = some k →
    ∃ n, s.natives[k]? = some n ∧ n.fd = x.descriptor ∧ n.calls = []
  unique : ∀ a b x y k, s.socket a = some x → s.socket b = some y →
    x.native = some k → y.native = some k → a = b
  released : ∀ (k : Nat) (n : Native σ), s.natives[k]? = some n →
    (∀ a x, s.socket a = some x → x.native ≠ some k) →
    n.calls = [.stop n.service, .close]
  stray : s.strayClose = false

/--
The system does not return 0, and an assignment between sockets of different
services moves no descriptor of the system.
-/
def StaysAtHome (s : State ν σ) : Event ν σ → Prop
  | .create _ fd _ => fd ≠ 0
  | .accept _ _ fd => fd ≠ 0
  | .moveAssign a b =>
      ∀ x y, s.socket (some a) = some x → s.socket (some b) = some y →
        x.service = y.service ∨ x.native = none ∧ y.native = none
  | _ => True

/--
What the sockets and the descriptors say about each other, as long as no socket
holds a watcher of another service.
-/
structure Owned (s : State ν σ) : Prop where
  empty : ∀ a x, s.socket a = some x → x.native = none → x.descriptor = 0
  held : ∀ a x (k : Nat), s.socket a = some x → x.native = some k →
    ∃ n, s.natives[k]? = some n ∧ n.fd = x.descriptor ∧ n.service = x.service ∧ n.calls = []
  unique : ∀ a b x y k, s.socket a = some x → s.socket b = some y →
    x.native = some k → y.native = some k → a = b
  released : ∀ (k : Nat) (n : Native σ), s.natives[k]? = some n →
    (∀ a x, s.socket a = some x → x.native ≠ some k) →
    n.calls = [.stop n.service, .close]
  distinct : ∀ (j k : Nat) (m n : Native σ), s.natives[j]? = some m → s.natives[k]? = some n →
    m.fd = n.fd → m.calls = [] → n.calls = [] → j = k
  nonzero : ∀ n ∈ s.natives, n.fd ≠ 0
  stray : s.strayClose = false

theorem Owned.linear
    {s : State ν σ}
    (hs : Owned s) :
    Linear s where
  owned := fun a x k hx hk => by
    obtain ⟨n, hn, hfd, -, hcalls⟩ := hs.held a x k hx hk
    exact ⟨n, hn, hfd, hcalls⟩
  unique := hs.unique
  released := hs.released
  stray := hs.stray

end Properties

section Moves

variable {s s' : State ν σ} {a b : Option ν} {x y : SocketInternal σ}

omit [DecidableEq ν] [DecidableEq σ] in
/-- Sockets that only pass on what they hold. -/
theorem Owned.of_perm
    (hs : Owned s)
    (π : Equiv.Perm (Option ν))
    (hnatives : s'.natives = s.natives)
    (hstray : s'.strayClose = s.strayClose)
    (hempty : ∀ c z, s'.socket c = some z → z.native = none → z.descriptor = 0)
    (hback : ∀ c z k, s'.socket c = some z → z.native = some k →
      ∃ y, s.socket (π c) = some y ∧ y.native = some k ∧
        y.descriptor = z.descriptor ∧ y.service = z.service)
    (hforth : ∀ c y k, s.socket (π c) = some y → y.native = some k →
      ∃ z, s'.socket c = some z ∧ z.native = some k) :
    Owned s' where
  empty := hempty
  held := fun c z k hz hk => by
    obtain ⟨y, hy, hyk, hfd, hservice⟩ := hback c z k hz hk
    obtain ⟨n, hn, hnfd, hnservice, hcalls⟩ := hs.held (π c) y k hy hyk
    exact ⟨n, hnatives ▸ hn, hnfd.trans hfd, hnservice.trans hservice, hcalls⟩
  unique := fun c d z w k hz hw hzk hwk => by
    obtain ⟨y, hy, hyk, -⟩ := hback c z k hz hzk
    obtain ⟨v, hv, hvk, -⟩ := hback d w k hw hwk
    exact π.injective (hs.unique (π c) (π d) y v k hy hv hyk hvk)
  released := fun k n hn hnone => by
    refine hs.released k n (hnatives ▸ hn) fun c y hy hk => ?_
    obtain ⟨z, hz, hzk⟩ := hforth (π.symm c) y k (by rwa [Equiv.apply_symm_apply]) hk
    exact hnone (π.symm c) z hz hzk
  distinct := hnatives ▸ hs.distinct
  nonzero := hnatives ▸ hs.nonzero
  stray := hstray.trans hs.stray

/-- The new content of a slot holds what another slot held. -/
structure Passes (old new : Option (SocketInternal σ)) : Prop where
  empty : ∀ z, new = some z → z.native = none → z.descriptor = 0
  back : ∀ z (k : Nat), new = some z → z.native = some k →
    ∃ y, old = some y ∧ y.native = some k ∧
      y.descriptor = z.descriptor ∧ y.service = z.service
  forth : ∀ y (k : Nat), old = some y → y.native = some k →
    ∃ z, new = some z ∧ z.native = some k

omit [DecidableEq σ] in
/-- Two slots that pass on to each other what they hold. -/
theorem Owned.exchange
    {u v : Option (SocketInternal σ)}
    (hs : Owned s)
    (hab : a ≠ b)
    (hu : Passes (s.socket b) u)
    (hv : Passes (s.socket a) v) :
    Owned { s with socket := Function.update (Function.update s.socket b v) a u } := by
  refine hs.of_perm (Equiv.swap a b) rfl rfl ?_ ?_ ?_
  · intro c z hz hnone
    rcases eq_or_ne c a with rfl | hca
    · exact hu.empty z (by simpa using hz) hnone
    rcases eq_or_ne c b with rfl | hcb
    · exact hv.empty z (by simpa [hca] using hz) hnone
    · exact hs.empty c z (by simpa [hca, hcb] using hz) hnone
  · intro c z k hz hk
    rcases eq_or_ne c a with rfl | hca
    · rw [Equiv.swap_apply_left]
      exact hu.back z k (by simpa using hz) hk
    rcases eq_or_ne c b with rfl | hcb
    · rw [Equiv.swap_apply_right]
      exact hv.back z k (by simpa [hca] using hz) hk
    · rw [Equiv.swap_apply_of_ne_of_ne hca hcb]
      exact ⟨z, by simpa [hca, hcb] using hz, hk, rfl, rfl⟩
  · intro c y k hy hk
    rcases eq_or_ne c a with rfl | hca
    · rw [Equiv.swap_apply_left] at hy
      obtain ⟨z, hz, hzk⟩ := hu.forth y k hy hk
      exact ⟨z, by simpa using hz, hzk⟩
    rcases eq_or_ne c b with rfl | hcb
    · rw [Equiv.swap_apply_right] at hy
      obtain ⟨z, hz, hzk⟩ := hv.forth y k hy hk
      exact ⟨z, by simpa [hca] using hz, hzk⟩
    · rw [Equiv.swap_apply_of_ne_of_ne hca hcb] at hy
      exact ⟨y, by simpa [hca, hcb] using hy, hk⟩

omit [DecidableEq σ] in
theorem Owned.moveConstruct
    (hs : Owned s)
    (ha : s.socket a = none)
    (hb : s.socket b = some x) :
    Owned (s.moveConstruct a b) := by
  have hab : a ≠ b := by
    rintro rfl
    rw [ha] at hb
    exact absurd hb (Option.some_ne_none x).symm
  have hmoved : s.moveConstruct a b =
      { s with
        socket := Function.update (Function.update s.socket b (some x.moved)) a (some x) } := by
    simp only [State.moveConstruct, hb]
  rw [hmoved]
  refine hs.exchange hab ?_ ?_
  · rw [hb]
    exact
      { empty := fun z hz => hs.empty b z (hb.trans hz)
        back := fun z k hz hk => ⟨z, hz, hk, rfl, rfl⟩
        forth := fun y k hy hk => ⟨y, hy, hk⟩ }
  · rw [ha]
    constructor
    · rintro z ⟨⟩ _
      rfl
    · rintro z k ⟨⟩ hk
      simp [SocketInternal.moved, SocketInternal.native] at hk
    · rintro y k ⟨⟩

omit [DecidableEq ν] [DecidableEq σ] in
/-- A socket takes the descriptor of another one with the same service. -/
theorem Owned.passes_swapped
    (hs : Owned s)
    (hb : s.socket b = some y)
    (hservice : ∀ k : Nat, y.native = some k → y.service = x.service) :
    Passes (some y) (some (x.swapped y)) := by
  constructor
  · rintro z ⟨⟩ hnone
    exact hs.empty b y hb hnone
  · rintro z k ⟨⟩ hk
    exact ⟨y, rfl, hk, rfl, hservice k hk⟩
  · rintro w k ⟨⟩ hk
    exact ⟨x.swapped y, rfl, hk⟩

omit [DecidableEq σ] in
/-- A swap keeps the services of the sockets, so their descriptors must agree with them. -/
theorem Owned.swap
    (hs : Owned s)
    (hab : a ≠ b)
    (ha : s.socket a = some x)
    (hb : s.socket b = some y)
    (hservice : x.service = y.service ∨ x.native = none ∧ y.native = none) :
    Owned (s.swap a b) := by
  have hswapped : s.swap a b =
      { s with
        socket := Function.update (Function.update s.socket a (some (x.swapped y)))
          b (some (y.swapped x)) } := by
    simp only [State.swap, ha, hb]
  have hsame (k : Nat) (hk : x.native = some k ∨ y.native = some k) :
      x.service = y.service := by
    rcases hservice with hservice | ⟨hx, hy⟩
    · exact hservice
    · simp [hx, hy] at hk
  rw [hswapped]
  refine hs.exchange hab.symm ?_ ?_
  · rw [ha]
    exact hs.passes_swapped ha fun k hk => hsame k (Or.inl hk)
  · rw [hb]
    exact hs.passes_swapped hb fun k hk => (hsame k (Or.inr hk)).symm

end Moves

section Destruction

variable {s : State ν σ} {a : Option ν} {x : SocketInternal σ}

omit [DecidableEq ν] [DecidableEq σ] in
/-- A descriptor of the system is either untouched or closed. -/
theorem Owned.calls_nil
    (hs : Owned s)
    {j : Nat} {m : Native σ}
    (hm : s.natives[j]? = some m)
    (hopen : Call.close ∉ m.calls) :
    m.calls = [] := by
  by_cases howner : ∃ b y, s.socket b = some y ∧ y.native = some j
  · obtain ⟨b, y, hy, hj⟩ := howner
    obtain ⟨n, hn, -, -, hcalls⟩ := hs.held b y j hy hj
    rw [hm] at hn
    exact Option.some.inj hn ▸ hcalls
  · have hcalls := hs.released j m hm fun b y hy hj => howner ⟨b, y, hy, hj⟩
    simp [hcalls] at hopen

/-- The destructor of a socket without a descriptor of the system. -/
theorem destroy_eq_of_native_none
    (ha : s.socket a = some x)
    (hnone : x.native = none)
    (hzero : x.descriptor = 0) :
    s.destroy a = { s with socket := Function.update s.socket a none } := by
  simp only [State.destroy, ha, hzero, ne_eq, not_true_eq_false, if_false]
  cases hdata : x.data with
  | none =>
      rfl
  | some w =>
      have hw : w.native = none := by
        simpa [SocketInternal.native, hdata] using hnone
      simp only [State.deregisterDescriptor, hw]

/-- The destructor stops the watcher on the loop of the socket and closes the descriptor. -/
theorem destroy_eq_of_native_some
    {k : Nat}
    (ha : s.socket a = some x)
    (hk : x.native = some k)
    (hfd : x.descriptor ≠ 0) :
    s.destroy a =
      { ({ s with natives := s.natives.modify k fun n =>
            { n with calls := n.calls ++ [.stop x.service] } } : State ν σ).close
          x.descriptor with
        socket := Function.update s.socket a none } := by
  obtain ⟨w, hdata, hw⟩ := Option.bind_eq_some_iff.mp hk
  simp only [State.destroy, ha, hdata, State.deregisterDescriptor, hw, ne_eq, hfd,
    not_false_eq_true, if_true]

variable {k : Nat} {n : Native σ}

theorem natives_destroy
    (hs : Owned s)
    (ha : s.socket a = some x)
    (hk : x.native = some k)
    (hn : s.natives[k]? = some n)
    (j : Nat) :
    (s.destroy a).natives[j]? =
      if j = k then some { n with calls := [.stop n.service, .close] } else s.natives[j]? := by
  obtain ⟨n', hn', hfd, hservice, hcalls⟩ := hs.held a x k ha hk
  obtain rfl : n' = n := Option.some.inj (hn'.symm.trans hn)
  have hnonzero : x.descriptor ≠ 0 := hfd ▸ hs.nonzero n' (List.mem_of_getElem? hn)
  rw [destroy_eq_of_native_some ha hk hnonzero]
  simp only [State.close, List.getElem?_map, List.getElem?_modify]
  rcases eq_or_ne j k with rfl | hjk
  · simp [hn, hfd, hservice, hcalls]
  · simp only [if_neg hjk, if_neg (Ne.symm hjk)]
    cases hm : s.natives[j]? with
    | none =>
        rfl
    | some m =>
        have hother : ¬ (m.fd = x.descriptor ∧ Call.close ∉ m.calls) := by
          rintro ⟨hmfd, hopen⟩
          exact hjk (hs.distinct j k m n' hm hn (hmfd.trans hfd.symm)
            (hs.calls_nil hm hopen) hcalls)
        simp [hother]

theorem strayClose_destroy
    (hs : Owned s)
    (ha : s.socket a = some x)
    (hk : x.native = some k)
    (hn : s.natives[k]? = some n) :
    (s.destroy a).strayClose = false := by
  obtain ⟨n', hn', hfd, hservice, hcalls⟩ := hs.held a x k ha hk
  obtain rfl : n' = n := Option.some.inj (hn'.symm.trans hn)
  have hnonzero : x.descriptor ≠ 0 := hfd ▸ hs.nonzero n' (List.mem_of_getElem? hn)
  rw [destroy_eq_of_native_some ha hk hnonzero]
  have hmem : { n' with calls := n'.calls ++ [.stop x.service] } ∈
      s.natives.modify k fun n => { n with calls := n.calls ++ [.stop x.service] } :=
    List.mem_of_getElem? (i := k) (by simp [hn])
  have hany : (s.natives.modify k fun n => { n with calls := n.calls ++ [.stop x.service] }).any
      (fun n => decide (n.fd = x.descriptor ∧ Call.close ∉ n.calls)) = true :=
    List.any_eq_true.mpr ⟨_, hmem, by simp [hfd, hcalls]⟩
  simp only [State.close, hs.stray, hany]
  rfl

theorem socket_destroy
    (ha : s.socket a = some x) :
    (s.destroy a).socket = Function.update s.socket a none := by
  simp only [State.destroy, ha]

theorem Owned.destroy
    (hs : Owned s)
    (ha : s.socket a = some x) :
    Owned (s.destroy a) := by
  have hsocket := socket_destroy ha
  have hother {b : Option ν} {y : SocketInternal σ}
      (hy : (s.destroy a).socket b = some y) : b ≠ a ∧ s.socket b = some y := by
    rw [hsocket] at hy
    rcases eq_or_ne b a with rfl | hba
    · simp at hy
    · exact ⟨hba, by simpa [hba] using hy⟩
  cases hk : x.native with
  | none =>
      rw [destroy_eq_of_native_none ha hk (hs.empty a x ha hk)] at hother ⊢
      constructor
      · exact fun b y hy => hs.empty b y (hother hy).2
      · exact fun b y k hy => hs.held b y k (hother hy).2
      · exact fun b c y z k hy hz => hs.unique b c y z k (hother hy).2 (hother hz).2
      · intro k n hn hnone
        refine hs.released k n hn fun b y hy => ?_
        rcases eq_or_ne b a with rfl | hba
        · obtain rfl : x = y := Option.some.inj (ha.symm.trans hy)
          simp [hk]
        · exact hnone b y (by simpa [hba] using hy)
      · exact hs.distinct
      · exact hs.nonzero
      · exact hs.stray
  | some k =>
      obtain ⟨n, hn, hfd, hservice, hcalls⟩ := hs.held a x k ha hk
      have hnatives := natives_destroy hs ha hk hn
      have hkept {b : Option ν} {y : SocketInternal σ} {j : Nat}
          (hy : (s.destroy a).socket b = some y) (hj : y.native = some j) : j ≠ k := by
        rintro rfl
        exact (hother hy).1 (hs.unique b a y x j (hother hy).2 ha hj hk)
      constructor
      · exact fun b y hy => hs.empty b y (hother hy).2
      · intro b y j hy hj
        rw [hnatives, if_neg (hkept hy hj)]
        exact hs.held b y j (hother hy).2 hj
      · exact fun b c y z j hy hz => hs.unique b c y z j (hother hy).2 (hother hz).2
      · intro j m hm hnone
        rw [hnatives] at hm
        split at hm
        · obtain rfl := Option.some.inj hm
          rfl
        · rename_i hjk
          refine hs.released j m hm fun b y hy hj => ?_
          rcases eq_or_ne b a with rfl | hba
          · obtain rfl : x = y := Option.some.inj (ha.symm.trans hy)
            exact hjk (Option.some.inj (hj.symm.trans hk))
          · exact hnone b y (by rw [hsocket, Function.update_of_ne hba]; exact hy) hj
      · intro i j l m hl hm hfd hlcalls hmcalls
        rw [hnatives] at hl hm
        split at hl
        · obtain rfl := Option.some.inj hl
          simp at hlcalls
        split at hm
        · obtain rfl := Option.some.inj hm
          simp at hmcalls
        · exact hs.distinct i j l m hl hm hfd hlcalls hmcalls
      · intro m hm
        obtain ⟨j, hj⟩ := List.getElem?_of_mem hm
        rw [hnatives] at hj
        split at hj
        · obtain rfl := Option.some.inj hj
          exact hs.nonzero n (List.mem_of_getElem? hn)
        · exact hs.nonzero m (List.mem_of_getElem? hj)
      · exact strayClose_destroy hs ha hk hn

end Destruction

section Operations

variable {s : State ν σ} {a b : Option ν} {x y : SocketInternal σ}

omit [DecidableEq σ] in
theorem Owned.placeholder
    (hs : Owned s)
    (ha : s.socket a = none)
    (service : σ) :
    Owned (s.construct a 0 service none) := by
  refine hs.of_perm (Equiv.refl _) rfl rfl ?_ ?_ ?_
  · intro c z hz hnone
    rcases eq_or_ne c a with rfl | hca
    · simp only [State.construct, Function.update_self, Option.some.injEq] at hz
      rw [← hz]
    · exact hs.empty c z (by simpa [State.construct, hca] using hz) hnone
  · intro c z k hz hk
    rcases eq_or_ne c a with rfl | hca
    · simp only [State.construct, Function.update_self, Option.some.injEq] at hz
      rw [← hz] at hk
      exact absurd hk (Option.some_ne_none k).symm
    · exact ⟨z, by simpa [State.construct, hca] using hz, hk, rfl, rfl⟩
  · intro c y k hy hk
    rw [Equiv.refl_apply] at hy
    have hca : c ≠ a := by
      rintro rfl
      simp [ha] at hy
    exact ⟨y, by simpa [State.construct, hca] using hy, hk⟩

omit [DecidableEq σ] in
theorem Owned.create
    {fd : Int}
    (hs : Owned s)
    (ha : s.socket a = none)
    (hreturned : Event.Returned s fd)
    (hfd : fd ≠ 0)
    (service : σ) :
    Owned (s.create a fd service) := by
  let n : Native σ := { fd := fd, service := service, calls := [] }
  have hnatives : (s.create a fd service).natives = s.natives ++ [n] := rfl
  have hself : (s.create a fd service).socket a =
      some { descriptor := fd, service := service, data := some ⟨some s.natives.length⟩ } :=
    Function.update_self ..
  have hother {c : Option ν} (hca : c ≠ a) : (s.create a fd service).socket c = s.socket c :=
    Function.update_of_ne hca ..
  have hlt {c : Option ν} {z : SocketInternal σ} {k : Nat}
      (hz : s.socket c = some z) (hk : z.native = some k) : k < s.natives.length := by
    obtain ⟨m, hm, -⟩ := hs.held c z k hz hk
    exact (List.getElem?_eq_some_iff.mp hm).1
  have hnew {k : Nat} {m : Native σ} (hm : (s.natives ++ [n])[k]? = some m) :
      s.natives[k]? = some m ∨ k = s.natives.length ∧ m = n := by
    rcases Nat.lt_trichotomy k s.natives.length with hk | rfl | hk
    · exact Or.inl (by rwa [List.getElem?_append_left hk] at hm)
    · exact Or.inr ⟨rfl, by simpa using hm.symm⟩
    · rw [List.getElem?_eq_none (by simpa using Nat.succ_le_of_lt hk)] at hm
      exact absurd hm (Option.some_ne_none m).symm
  -- the number was not open, so no untouched descriptor has it
  have hfresh {k : Nat} {m : Native σ} (hm : s.natives[k]? = some m) (hcalls : m.calls = []) :
      m.fd ≠ fd := by
    intro hmfd
    have hclosed := hreturned.2 m (List.mem_of_getElem? hm) hmfd
    simp [hcalls] at hclosed
  constructor
  · intro c z hz hnone
    rcases eq_or_ne c a with rfl | hca
    · obtain rfl := Option.some.inj (hself.symm.trans hz)
      exact absurd hnone (Option.some_ne_none _)
    · exact hs.empty c z ((hother hca).symm.trans hz) hnone
  · intro c z k hz hk
    rw [hnatives]
    rcases eq_or_ne c a with rfl | hca
    · obtain rfl := Option.some.inj (hself.symm.trans hz)
      obtain rfl : s.natives.length = k := Option.some.inj hk
      exact ⟨n, by simp, rfl, rfl, rfl⟩
    · rw [hother hca] at hz
      rw [List.getElem?_append_left (hlt hz hk)]
      exact hs.held c z k hz hk
  · intro c d z w k hz hw hzk hwk
    rcases eq_or_ne c a with rfl | hca
    · obtain rfl := Option.some.inj (hself.symm.trans hz)
      obtain rfl : s.natives.length = k := Option.some.inj hzk
      rcases eq_or_ne d c with rfl | hda
      · rfl
      · exact absurd (hlt ((hother hda).symm.trans hw) hwk) (Nat.lt_irrefl _)
    · rw [hother hca] at hz
      rcases eq_or_ne d a with rfl | hda
      · obtain rfl := Option.some.inj (hself.symm.trans hw)
        obtain rfl : s.natives.length = k := Option.some.inj hwk
        exact absurd (hlt hz hzk) (Nat.lt_irrefl _)
      · exact hs.unique c d z w k hz ((hother hda).symm.trans hw) hzk hwk
  · intro k m hm hnone
    rcases hnew (hnatives ▸ hm) with hm | ⟨rfl, rfl⟩
    · refine hs.released k m hm fun c z hz => ?_
      have hca : c ≠ a := by
        rintro rfl
        simp [ha] at hz
      exact hnone c z ((hother hca).trans hz)
    · exact absurd rfl (hnone a _ hself)
  · intro j k l m hl hm hlm hlcalls hmcalls
    rcases hnew (hnatives ▸ hl) with hl | ⟨rfl, rfl⟩ <;>
      rcases hnew (hnatives ▸ hm) with hm | ⟨rfl, rfl⟩
    · exact hs.distinct j k l m hl hm hlm hlcalls hmcalls
    · exact absurd hlm (hfresh hl hlcalls)
    · exact absurd hlm.symm (hfresh hm hmcalls)
    · rfl
  · intro m hm
    rw [hnatives, List.mem_append, List.mem_singleton] at hm
    rcases hm with hm | rfl
    · exact hs.nonzero m hm
    · exact hfd
  · exact hs.stray

/-- The temporary of `operator=` is in use only during the assignment. -/
theorem Owned.moveAssign
    {a b : ν}
    (hs : Owned s)
    (htemporary : s.socket none = none)
    (ha : s.socket (some a) = some x)
    (hb : s.socket (some b) = some y)
    (hservice : x.service = y.service ∨ x.native = none ∧ y.native = none) :
    Owned (s.moveAssign (some a) (some b)) ∧
      (s.moveAssign (some a) (some b)).socket none = none := by
  have hmoved := hs.moveConstruct htemporary hb
  have htemp : (s.moveConstruct none (some b)).socket none = some y := by
    simp [State.moveConstruct, hb]
  obtain ⟨z, hz, hzservice⟩ : ∃ z, (s.moveConstruct none (some b)).socket (some a) = some z ∧
      (z.service = y.service ∨ z.native = none ∧ y.native = none) := by
    rcases eq_or_ne a b with rfl | hab
    · exact ⟨y.moved, by simp [State.moveConstruct, hb], Or.inl rfl⟩
    · exact ⟨x, by simp [State.moveConstruct, hb, hab, ha], hservice⟩
  have hswapped := hmoved.swap (Option.some_ne_none a) hz htemp hzservice
  have hrest : ((s.moveConstruct none (some b)).swap (some a) none).socket none =
      some (y.swapped z) := by
    simp [State.swap, hz, htemp]
  refine ⟨hswapped.destroy hrest, ?_⟩
  rw [State.moveAssign, socket_destroy hrest]
  exact Function.update_self ..

/-- A step at home keeps the ownership, and leaves the temporary empty. -/
theorem Owned.next
    {e : Event ν σ}
    (hs : Owned s)
    (htemporary : s.socket none = none)
    (hguard : sockets.guard s e)
    (hok : StaysAtHome s e) :
    Owned (sockets.next s e) ∧ (sockets.next s e).socket none = none := by
  have hcreate (a : ν) (fd : Int) (service : σ) :
      (s.create (some a) fd service).socket none = none := by
    simpa [State.create, State.construct] using htemporary
  cases e with
  | create a fd service =>
      exact ⟨hs.create hguard.1 hguard.2 hok service, hcreate a fd service⟩
  | placeholder a b =>
      obtain ⟨ha, hb⟩ := hguard
      obtain ⟨y, hy⟩ := Option.isSome_iff_exists.mp hb
      simp only [sockets, Event.apply, hy]
      exact ⟨hs.placeholder ha y.service, by simpa [State.construct] using htemporary⟩
  | accept a b fd =>
      obtain ⟨ha, hb, hreturned⟩ := hguard
      obtain ⟨y, hy⟩ := Option.isSome_iff_exists.mp hb
      simp only [sockets, Event.apply, hy]
      exact ⟨hs.create ha hreturned hok y.service, hcreate a fd y.service⟩
  | moveConstruct a b =>
      obtain ⟨ha, hb⟩ := hguard
      obtain ⟨y, hy⟩ := Option.isSome_iff_exists.mp hb
      exact ⟨hs.moveConstruct ha hy, by
        simpa [sockets, Event.apply, State.moveConstruct, hy] using htemporary⟩
  | moveAssign a b =>
      obtain ⟨ha, hb⟩ := hguard
      obtain ⟨x, hx⟩ := Option.isSome_iff_exists.mp ha
      obtain ⟨y, hy⟩ := Option.isSome_iff_exists.mp hb
      exact hs.moveAssign htemporary hx hy (hok x y hx hy)
  | destroy a =>
      obtain ⟨x, hx⟩ := Option.isSome_iff_exists.mp hguard
      refine ⟨hs.destroy hx, ?_⟩
      change (s.destroy (some a)).socket none = none
      rw [socket_destroy hx]
      simpa using htemporary

theorem owned_of_run
    {tr : List (Event ν σ)}
    (hrun : (sockets.restrict StaysAtHome).Run tr s) :
    Owned s ∧ s.socket none = none := by
  induction hrun with
  | start hinit =>
      obtain rfl := hinit
      refine ⟨?_, rfl⟩
      constructor <;> simp [State.start]
  | step e _ hguard ih =>
      exact ih.1.next ih.2 hguard.1 hguard.2

end Operations

end Asio
end Ptl

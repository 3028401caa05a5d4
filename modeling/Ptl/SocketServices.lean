import Ptl.SocketOwnership

/-!
# Sockets away from home

The destructor of a socket does not close the number 0, and `swap` exchanges the
descriptors and the watchers of two sockets but not the services they refer to.
A watcher that is assigned to a socket of another service is therefore stopped on
a loop it was not started on.

**Results.**
* `descriptors_linear`: the descriptors are owned linearly if the system never
  returns 0 and no assignment moves a descriptor between sockets of different
  services; otherwise some continuation leaks a descriptor or stops a watcher on
  the wrong loop.
-/

namespace Ptl
namespace Asio

open Transition

universe u v

variable {ν : Type u} {σ : Type v} [DecidableEq ν] [DecidableEq σ]

section Violations

variable {s : State ν σ} {x y : SocketInternal σ} {k : Nat} {n : Native σ}

omit [DecidableEq ν] [DecidableEq σ] in
/-- Calls that are neither none nor the right ones, whether there is an owner or not. -/
theorem not_linear_of_calls
    (hn : s.natives[k]? = some n)
    (hnil : n.calls ≠ [])
    (hcalls : n.calls ≠ [.stop n.service, .close]) :
    ¬ Linear s := by
  intro hlinear
  refine hcalls (hlinear.released k n hn fun a x hx hk => ?_)
  obtain ⟨n', hn', -, hcalls'⟩ := hlinear.owned a x k hx hk
  obtain rfl : n = n' := Option.some.inj (hn.symm.trans hn')
  exact hnil hcalls'

/-- What the destructor does to the descriptor of a socket, whatever its service. -/
theorem natives_destroy_self
    {a : Option ν}
    (ha : s.socket a = some x)
    (hk : x.native = some k)
    (hn : s.natives[k]? = some n)
    (hcalls : n.calls = []) :
    ∃ m, (s.destroy a).natives[k]? = some m ∧ m.service = n.service ∧
      (m.calls = [.stop x.service] ∨
        x.descriptor ≠ 0 ∧ m.calls = [.stop x.service, .close]) := by
  obtain ⟨w, hdata, hw⟩ := Option.bind_eq_some_iff.mp hk
  by_cases hzero : x.descriptor = 0
  · refine ⟨{ n with calls := [.stop x.service] }, ?_, rfl, Or.inl rfl⟩
    simp [State.destroy, ha, hdata, State.deregisterDescriptor, hw, hzero, hn, hcalls]
  · rw [destroy_eq_of_native_some ha hk hzero]
    by_cases hfd : n.fd = x.descriptor
    · refine ⟨{ n with calls := [.stop x.service, .close] }, ?_, rfl, Or.inr ⟨hzero, rfl⟩⟩
      simp [State.close, hn, hcalls, hfd]
    · refine ⟨{ n with calls := [.stop x.service] }, ?_, rfl, Or.inl rfl⟩
      simp [State.close, hn, hcalls, hfd]

/-- The number 0 is not closed, and a watcher of another service is stopped wrongly. -/
theorem not_linear_destroy
    {a : Option ν}
    (ha : s.socket a = some x)
    (hk : x.native = some k)
    (hn : s.natives[k]? = some n)
    (hcalls : n.calls = [])
    (hwrong : x.descriptor = 0 ∨ x.service ≠ n.service) :
    ¬ Linear (s.destroy a) := by
  obtain ⟨m, hm, hservice, hmcalls⟩ := natives_destroy_self ha hk hn hcalls
  refine not_linear_of_calls hm ?_ ?_
  · rcases hmcalls with hmcalls | ⟨-, hmcalls⟩ <;> simp [hmcalls]
  · rcases hmcalls with hmcalls | ⟨hnonzero, hmcalls⟩
    · simp [hmcalls]
    · rw [hmcalls, hservice]
      have hne : x.service ≠ n.service := hwrong.resolve_left hnonzero
      simp [hne]

/-- The system returns 0: the descriptor is not closed with its socket. -/
theorem not_linear_create
    (s : State ν σ) (a : ν) (service : σ) :
    ¬ Linear ((s.create (some a) 0 service).destroy (some a)) := by
  refine not_linear_destroy (k := s.natives.length)
    (n := { fd := 0, service := service, calls := [] })
    (Function.update_self ..) rfl ?_ rfl (Or.inl rfl)
  simp [State.create]

omit [DecidableEq σ] in
theorem swapped_of_moveAssign
    {a b : ν}
    (hab : a ≠ b)
    (ha : s.socket (some a) = some x)
    (hb : s.socket (some b) = some y) :
    ((s.moveConstruct none (some b)).swap (some a) none).socket none = some (y.swapped x) ∧
    ((s.moveConstruct none (some b)).swap (some a) none).socket (some a) =
      some (x.swapped y) ∧
    ((s.moveConstruct none (some b)).swap (some a) none).natives = s.natives := by
  have hz : (s.moveConstruct none (some b)).socket (some a) = some x := by
    simp [State.moveConstruct, hb, hab, ha]
  have ht : (s.moveConstruct none (some b)).socket none = some y := by
    simp [State.moveConstruct, hb]
  have hnatives : (s.moveConstruct none (some b)).natives = s.natives := by
    simp [State.moveConstruct, hb]
  simp [State.swap, hz, ht, hnatives]

/-- Whatever an assignment away from home moves is stopped on the wrong loop. -/
theorem not_linear_moveAssign
    {a b : ν}
    (hs : Owned s)
    (ha : s.socket (some a) = some x)
    (hb : s.socket (some b) = some y)
    (hservice : x.service ≠ y.service)
    (hsome : ¬ (x.native = none ∧ y.native = none)) :
    ¬ Linear (s.moveAssign (some a) (some b)) ∨
    ¬ Linear ((s.moveAssign (some a) (some b)).destroy (some a)) := by
  have hab : a ≠ b := by
    rintro rfl
    exact hservice (congrArg SocketInternal.service (Option.some.inj (ha.symm.trans hb)))
  obtain ⟨htemp, hassigned, hnatives⟩ := swapped_of_moveAssign hab ha hb
  cases hx : x.native with
  | some k =>
      obtain ⟨n, hn, -, hnservice, hcalls⟩ := hs.held (some a) x k ha hx
      rw [← hnatives] at hn
      exact Or.inl (not_linear_destroy htemp hx hn hcalls
        (Or.inr fun h => hservice (hnservice.symm.trans h.symm)))
  | none =>
      obtain ⟨k, hy⟩ := Option.ne_none_iff_exists'.mp fun hy => hsome ⟨hx, hy⟩
      obtain ⟨n, hn, -, hnservice, hcalls⟩ := hs.held (some b) y k hb hy
      have hzero : x.descriptor = 0 := hs.empty (some a) x ha hx
      have hdestroyed := destroy_eq_of_native_none htemp hx hzero
      refine Or.inr (not_linear_destroy (x := x.swapped y) (k := k) (n := n)
        ?_ hy ?_ hcalls (Or.inr fun h => hservice (h.trans hnservice)))
      · rw [State.moveAssign, hdestroyed]
        simpa using hassigned
      · rw [State.moveAssign, hdestroyed]
        exact hnatives ▸ hn

theorem isSome_moveAssign
    {a b : ν}
    (ha : s.socket (some a) = some x)
    (hb : s.socket (some b) = some y)
    (hab : a ≠ b) :
    ((s.moveAssign (some a) (some b)).socket (some a)).isSome := by
  obtain ⟨htemp, hassigned, -⟩ := swapped_of_moveAssign hab ha hb
  rw [State.moveAssign, socket_destroy htemp]
  simp [hassigned]

/-- A step away from home is itself wrong or becomes wrong with the next destruction. -/
theorem exists_not_linear
    {e : Event ν σ}
    (hs : Owned s)
    (hguard : sockets.guard s e)
    (haway : ¬ StaysAtHome s e) :
    ∃ es, sockets.Enabled s (e :: es) ∧ ¬ Linear (sockets.exec s (e :: es)) := by
  cases e with
  | create a fd service =>
      obtain rfl : fd = 0 := not_not.mp haway
      refine ⟨[.destroy a], ⟨hguard, ?_, trivial⟩, not_linear_create s a service⟩
      change ((s.create (some a) 0 service).socket (some a)).isSome
      simp [State.create, State.construct]
  | accept a b fd =>
      obtain rfl : fd = 0 := not_not.mp haway
      obtain ⟨y, hy⟩ := Option.isSome_iff_exists.mp hguard.2.1
      have hnext : sockets.next s (.accept a b 0) = s.create (some a) 0 y.service := by
        simp only [sockets, Event.apply, hy]
      refine ⟨[.destroy a], ⟨hguard, ?_, trivial⟩, ?_⟩
      · rw [hnext]
        change ((s.create (some a) 0 y.service).socket (some a)).isSome
        simp [State.create, State.construct]
      · simp only [System.exec, hnext]
        exact not_linear_create s a y.service
  | moveAssign a b =>
      simp only [StaysAtHome, not_forall, not_or] at haway
      obtain ⟨x, y, ha, hb, hservice, hsome⟩ := haway
      have hab : a ≠ b := by
        rintro rfl
        exact hservice (congrArg SocketInternal.service (Option.some.inj (ha.symm.trans hb)))
      rcases not_linear_moveAssign hs ha hb hservice hsome with hnow | hlater
      · exact ⟨[], ⟨hguard, trivial⟩, hnow⟩
      · exact ⟨[.destroy a], ⟨hguard, isSome_moveAssign ha hb hab, trivial⟩, hlater⟩
  | _ =>
      exact absurd trivial haway

/--
The descriptors are owned linearly exactly if every step stays at home: in a run
whose steps all do, every descriptor has one owner or its watcher was stopped on
its own loop and it was closed once; and a first step away from home has a
continuation after which this fails.
-/
theorem descriptors_linear :
    (∀ (tr : List (Event ν σ)) s,
      (sockets.restrict StaysAtHome).Run tr s → Linear s) ∧
    ∀ (tr : List (Event ν σ)) s e,
      (sockets.restrict StaysAtHome).Run tr s → sockets.guard s e → ¬ StaysAtHome s e →
      ∃ es s', sockets.Run (tr ++ e :: es) s' ∧ ¬ Linear s' := by
  constructor
  · exact fun tr s hrun => (owned_of_run hrun).1.linear
  · intro tr s e hrun hguard haway
    obtain ⟨es, hes, hnot⟩ := exists_not_linear (owned_of_run hrun).1 hguard haway
    exact ⟨es, _, hrun.of_restrict.extend hes, hnot⟩

/-- A socket is assigned over by a socket of another service. -/
def assignedAcross : List (Event Bool Bool) :=
  [.create false 5 false, .create true 6 true, .moveAssign false true]

theorem not_descriptors_linear :
    ¬ ∀ (tr : List (Event Bool Bool)) s, sockets.Run tr s → Linear s := by
  intro h
  have hnative : (sockets.exec .start assignedAcross).natives[0]? =
      some { fd := 5, service := false, calls := [.stop true, .close] } := by
    decide +kernel
  refine not_linear_of_calls hnative (by decide) (by decide) ?_
  exact h assignedAcross _ (.of_enabled rfl (by decide +kernel))

end Violations

end Asio
end Ptl

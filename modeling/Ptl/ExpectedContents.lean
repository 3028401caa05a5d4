import Ptl.ExpectedVariables

/-!
# What an `expected<T, E>` shows

`expected<T, E>` is meant as a variable that holds a value, an error or nothing.  This
module adds the accesses to the operations of `ExpectedVariables`: `is_value`,
`is_error`, the overloads of `value` and `error` with their check `enforce`, and writing
through the references that they return.  `expected<void, E>` is the case without
values, in which `value()` asks for nothing.

The abstract state gives each variable its contents.

**Results.**
* `contents_shown`: in every run, every access answers from the contents that the
  operations and writes so far make, and no access reads a member that is not alive.
-/

namespace Ptl
namespace ExpectedVariables

open Transition

universe u v w x

/-- How a checked access ends. -/
inductive Access (α : Type x) (E : Type w) where
  | returns (x : α)
  | rethrows (e : E)
  | logicError
  | aborts
  | undefined
deriving DecidableEq

namespace Storage

variable {V : Type v} {E : Type w}

def isValue (m : Storage V E) : Bool :=
  decide (m.contains = .expected)

def isError (m : Storage V E) : Bool :=
  decide (m.contains = .unexpected)

/-- The member `value_` is read. -/
def readValue (m : Storage V E) : Access V E :=
  match m.live.map Payload.content with
  | some (.inl v) => .returns v
  | _ => .undefined

/-- The member `unexpected_` is read. -/
def readUnexpected (m : Storage V E) : Access E E :=
  match m.live.map Payload.content with
  | some (.inr e) => .returns e
  | _ => .undefined

/-- `std::rethrow_exception(unexpected_)`. -/
def rethrow {α : Type x} (m : Storage V E) : Access α E :=
  match m.readUnexpected with
  | .returns e => .rethrows e
  | _ => .undefined

/-- An access after `enforce`; `pointer` says that `E` is a `std::exception_ptr`. -/
def enforced
    {α : Type x} (policy : Policy) (pointer : Bool) (m : Storage V E) (kind : Contains)
    (access : Access α E) : Access α E :=
  if m.contains = kind then access
  else
    match policy with
    | .assert => .aborts
    | .throw =>
        if m.contains = .unexpected ∧ pointer = true then m.rethrow else .logicError

/-- The overloads of `value()`. -/
def value (policy : Policy) (pointer : Bool) (m : Storage V E) : Access V E :=
  m.enforced policy pointer .expected m.readValue

/-- The overloads of `error()`. -/
def error (policy : Policy) (pointer : Bool) (m : Storage V E) : Access E E :=
  m.enforced policy pointer .unexpected m.readUnexpected

/-- `value()` of `expected<void, E>`. -/
def voidValue (policy : Policy) (pointer : Bool) (m : Storage V E) : Access Unit E :=
  m.enforced policy pointer .nothing (.returns ())

end Storage

/-- The operations, and assignments to what `value() &` and `error() &` return. -/
inductive Change (ν : Type u) (V : Type v) (E : Type w) where
  | operation (e : Event ν V E)
  | writeValue (a : ν) (v : V)
  | writeError (a : ν) (e : E)

section Changes

variable {ν : Type u} {V : Type v} {E : Type w} [DecidableEq ν]

/-- An assignment to the object in the union. -/
def State.write (s : State ν V E) (a : ν) (x : V ⊕ E) : State ν V E :=
  s.setStorage a { s.storage a with
    live := (s.storage a).live.map fun p => { p with content := x } }

namespace Change

/-- A reference is only returned if `enforce` passes. -/
def Allowed (policy : Policy) (s : State ν V E) : Change ν V E → Prop
  | operation e => e.Allowed policy s
  | writeValue a _ => a ∈ s.declared ∧ (s.storage a).contains = .expected
  | writeError a _ => a ∈ s.declared ∧ (s.storage a).contains = .unexpected

instance decidableAllowed (policy : Policy) (s : State ν V E) :
    ∀ e : Change ν V E, Decidable (e.Allowed policy s)
  | operation e => inferInstanceAs (Decidable (e.Allowed policy s))
  | writeValue a _ =>
      inferInstanceAs (Decidable (a ∈ s.declared ∧ (s.storage a).contains = .expected))
  | writeError a _ =>
      inferInstanceAs (Decidable (a ∈ s.declared ∧ (s.storage a).contains = .unexpected))

def apply (f : Leftover V E) (s : State ν V E) : Change ν V E → State ν V E
  | operation e => e.apply f s
  | writeValue a v => s.write a (.inl v)
  | writeError a e => s.write a (.inr e)

end Change

/-- All sequences of operations and writes. -/
def changes (policy : Policy) (f : Leftover V E) : System (State ν V E) (Change ν V E) where
  init := fun s => s = .start
  guard := fun s e => e.Allowed policy s
  next := Change.apply f

instance decidableChangesGuard
    (policy : Policy) (f : Leftover V E) (s : State ν V E) (e : Change ν V E) :
    Decidable ((changes policy f).guard s e) :=
  inferInstanceAs (Decidable (e.Allowed policy s))

/-! The abstract variables. -/

/-- What a variable holds: a value, an error or nothing. -/
abbrev Contents (V : Type v) (E : Type w) :=
  Option (V ⊕ E)

namespace Contents

/-- What is left after the contents were moved. -/
def leave (f : Leftover V E) (x : Contents V E) : Contents V E :=
  x.map (Sum.map f.value f.error)

/-- The value, if there is one, is taken out. -/
def take : Contents V E → Contents V E
  | some (.inl _) => none
  | x => x

/-- What an access to other contents does. -/
def failure {α : Type x} (policy : Policy) (pointer : Bool) : Contents V E → Access α E
  | some (.inr e) =>
      match policy, pointer with
      | .throw, true => .rethrows e
      | .throw, false => .logicError
      | .assert, _ => .aborts
  | _ =>
      match policy with
      | .throw => .logicError
      | .assert => .aborts

def value (policy : Policy) (pointer : Bool) : Contents V E → Access V E
  | some (.inl v) => .returns v
  | x => failure policy pointer x

def error (policy : Policy) (pointer : Bool) : Contents V E → Access E E
  | some (.inr e) => .returns e
  | x => failure policy pointer x

def voidValue (policy : Policy) (pointer : Bool) : Contents V E → Access Unit E
  | none => .returns ()
  | x => failure policy pointer x

end Contents

/-- The effect on the contents; a destroyed variable has none that count. -/
def Event.onContents (f : Leftover V E) (m : ν → Contents V E) :
    Event ν V E → ν → Contents V E
  | nothing a => Function.update m a none
  | value a v => Function.update m a (some (.inl v))
  | error a e => Function.update m a (some (.inr e))
  | copyConstruct a b | copyAssign a b => Function.update m a (m b)
  | moveConstruct a b => Function.update (Function.update m b ((m b).leave f)) a (m b)
  | moveAssign a b =>
      if b = a then m
      else Function.update (Function.update m b ((m b).leave f)) a (m b)
  | valueRvalue a => Function.update m a (m a).take
  | destruct _ => m

def Change.onContents (f : Leftover V E) (m : ν → Contents V E) :
    Change ν V E → ν → Contents V E
  | operation e => e.onContents f m
  | writeValue a v => Function.update m a (some (.inl v))
  | writeError a e => Function.update m a (some (.inr e))

/-- The contents that the operations and writes of a run make. -/
def contentsAfter (f : Leftover V E) (tr : List (Change ν V E)) : ν → Contents V E :=
  tr.foldl (Change.onContents f) fun _ => none

theorem contentsAfter_append_singleton
    (f : Leftover V E) (tr : List (Change ν V E)) (e : Change ν V E) :
    contentsAfter f (tr ++ [e]) = e.onContents f (contentsAfter f tr) := by
  simp [contentsAfter]

end Changes

section Storage

variable {ν : Type u} {V : Type v} {E : Type w} [DecidableEq ν]
variable {s : State ν V E} {a b : ν} {f : Leftover V E}

/-- The contents according to `contains_` and the object in the union. -/
def Storage.content (m : Storage V E) : Contents V E :=
  m.contains.member.bind fun _ => m.live.map Payload.content

/-- The contents of all variables. -/
def State.contents (s : State ν V E) : ν → Contents V E :=
  fun a => (s.storage a).content

theorem contents_setStorage (m : Storage V E) :
    (s.setStorage a m).contents = Function.update s.contents a m.content :=
  funext fun c => Function.apply_update (fun _ => Storage.content) s.storage a m c

omit [DecidableEq ν] in
theorem contents_congr
    {s' : State ν V E}
    (hstorage : s'.storage = s.storage) :
    s'.contents = s.contents :=
  funext fun c => congrArg Storage.content (congrFun hstorage c)

theorem contents_constructNothing :
    (s.constructNothing a).contents = Function.update s.contents a none :=
  contents_setStorage _

theorem contents_place
    {contains : Contains} {x : V ⊕ E}
    (hcontains : contains.member = some (Payload.member (⟨0, x⟩ : Payload V E))) :
    ((s.setContains a contains).place a x).contents =
      Function.update s.contents a (some x) := by
  have hstorage : ((s.setContains a contains).place a x).storage =
      Function.update s.storage a { contains, live := some ⟨s.constructed, x⟩ } := by
    simp [State.place, State.setContains, State.setStorage]
  refine (contents_congr (s := s.setStorage a _) hstorage).trans ?_
  rw [contents_setStorage, Storage.content, hcontains]
  rfl

theorem contents_destroy
    (hmatches : Matches (s.storage a).contains (s.storage a).live) :
    (s.destroy a).contents = Function.update s.contents a none := by
  obtain ⟨live, heq⟩ := destroy_eq hmatches
  rw [heq]
  exact contents_setStorage _

/-- The contents of the other variable are taken over, and it keeps what a move leaves. -/
theorem contents_takeOver
    (hmatches : Matches (s.storage b).contains (s.storage b).live)
    (hba : b ≠ a) :
    (s.takeOver f a b).contents =
      Function.update (Function.update s.contents b ((s.contents b).leave f)) a
        (s.contents b) := by
  have hother (c : Contains) : (s.setContains a c).storage b = s.storage b :=
    Function.update_of_ne hba ..
  cases hm : (s.storage b).contains.member with
  | none =>
      have hnone : s.contents b = none := by
        rw [State.contents, Storage.content, hm]
        rfl
      have heq : s.takeOver f a b = s.setContains a (s.storage b).contains := by
        simp only [State.takeOver, hm]
      rw [heq, State.setContains, contents_setStorage, Storage.content, hm, hnone]
      have hself : Function.update s.contents b (Contents.leave f none) = s.contents :=
        Function.update_eq_self_iff.mpr hnone.symm
      rw [hself]
      rfl
  | some m =>
      obtain ⟨p, hp, rfl⟩ := hmatches m hm
      have hcontent : s.contents b = some p.content := by
        rw [State.contents, Storage.content, hm, hp]
        rfl
      have heq : s.takeOver f a b =
          ((s.setStorage b { s.storage b with live := some (p.leave f) }).setContains a
            (s.storage b).contains).place a p.content := by
        simp only [State.takeOver, hm, hother, hp, if_true]
        simp only [State.setContains, State.setStorage, Function.update_of_ne hba.symm,
          Function.update_comm hba]
      rw [heq, contents_place hm, contents_setStorage, hcontent]
      congr 2
      rw [Storage.content, hm]
      rfl

/-- Taking over the contents of `b` into a variable that was emptied before. -/
theorem takeOver_emptied
    {m m' : ν → Contents V E}
    (hm : m' = Function.update m a none)
    (hba : b ≠ a) :
    Function.update (Function.update m' b ((m' b).leave f)) a (m' b) =
      Function.update (Function.update m b ((m b).leave f)) a (m b) := by
  have hb : m' b = m b := by
    rw [hm, Function.update_of_ne hba]
  rw [hb, hm]
  have hcomm := Function.update_comm hba.symm none ((m b).leave f) m
  rw [hcomm, Function.update_idem]

theorem contents_constructFrom
    (hmatches : Matches (s.storage b).contains (s.storage b).live)
    (hba : b ≠ a) :
    (s.constructFrom f a b).contents =
      Function.update (Function.update s.contents b ((s.contents b).leave f)) a
        (s.contents b) := by
  have hb : (s.constructNothing a).storage b = s.storage b :=
    Function.update_of_ne hba ..
  rw [State.constructFrom, contents_takeOver (hb.symm ▸ hmatches) hba]
  exact takeOver_emptied contents_constructNothing hba

theorem contents_assignFrom
    (ha : Matches (s.storage a).contains (s.storage a).live)
    (hb : Matches (s.storage b).contains (s.storage b).live)
    (hba : b ≠ a) :
    (s.assignFrom f a b).contents =
      Function.update (Function.update s.contents b ((s.contents b).leave f)) a
        (s.contents b) := by
  have hstorage : (s.destroy a).storage b = s.storage b := by
    obtain ⟨live, heq⟩ := destroy_eq ha
    rw [heq]
    exact Function.update_of_ne hba ..
  rw [State.assignFrom, if_neg hba, contents_takeOver (hstorage.symm ▸ hb) hba]
  exact takeOver_emptied (contents_destroy ha) hba

theorem contents_leave_copied (x : Contents V E) :
    x.leave .copied = x := by
  rcases x with _ | v | e <;> rfl

/-- A copy leaves the other variable as it is. -/
theorem update_leave_copied (m : ν → Contents V E) :
    Function.update (Function.update m b ((m b).leave .copied)) a (m b) =
      Function.update m a (m b) := by
  rw [contents_leave_copied, Function.update_eq_self]

theorem contents_valueRvalue
    (hmatches : Matches (s.storage a).contains (s.storage a).live) :
    (s.valueRvalue a).contents = Function.update s.contents a (s.contents a).take := by
  rw [State.valueRvalue]
  split
  next hvalue =>
      obtain ⟨⟨k, x⟩, hp, hmember⟩ := hmatches .value (by rw [hvalue]; rfl)
      have hcontent : s.contents a = some x := by
        rw [State.contents, Storage.content, hvalue, hp]
        rfl
      rw [State.setContains, contents_setStorage, hcontent]
      rcases x with v | e
      · rfl
      · cases hmember
  next hvalue =>
      have htake : (s.contents a).take = s.contents a := by
        cases hc : (s.storage a).contains with
        | expected =>
            exact absurd hc hvalue
        | nothing =>
            rw [State.contents, Storage.content, hc]
            rfl
        | unexpected =>
            obtain ⟨⟨k, x⟩, hp, hmember⟩ := hmatches .unexpected (by rw [hc]; rfl)
            rw [State.contents, Storage.content, hc, hp]
            rcases x with v | e
            · cases hmember
            · rfl
      rw [htake, Function.update_eq_self]

/-- The destructor changes no other variable. -/
theorem storage_destruct
    (ha : Matches (s.storage a).contains (s.storage a).live)
    (hba : b ≠ a) :
    (s.destruct a).storage b = s.storage b := by
  obtain ⟨live, heq⟩ := destroyContained_eq ha
  rw [State.destruct, heq]
  exact Function.update_of_ne hba ..

theorem contents_write
    {x : V ⊕ E}
    (hmatches : Matches (s.storage a).contains (s.storage a).live)
    {m : Member}
    (hm : (s.storage a).contains.member = some m) :
    (s.write a x).contents = Function.update s.contents a (some x) := by
  obtain ⟨p, hp, -⟩ := hmatches m hm
  rw [State.write, contents_setStorage, Storage.content, hm, hp]
  rfl

end Storage

section Runs

variable {ν : Type u} {V : Type v} {E : Type w} [DecidableEq ν]
variable {policy : Policy} {f : Leftover V E}
variable {s : State ν V E} {a b : ν} {e : Change ν V E} {tr : List (Change ν V E)}

/-- The storage of every variable holds the contents. -/
structure Holds (s : State ν V E) (m : ν → Contents V E) : Prop where
  accounted : ∃ lost, Accounted s lost
  contents : ∀ a ∈ s.declared, s.contents a = m a

variable {m : ν → Contents V E}

omit [DecidableEq ν] in
theorem Holds.tagged
    (h : Holds s m)
    (ha : a ∈ s.declared) :
    Matches (s.storage a).contains (s.storage a).live := by
  obtain ⟨lost, hs⟩ := h.accounted
  exact hs.tagged a ha

/-- Functions that agree on the variables are updated in the same way. -/
theorem agree_update
    {declared : Finset ν} {g : ν → Contents V E} {x y : Contents V E}
    (hagree : ∀ c ∈ declared, g c = m c)
    (hxy : x = y) :
    ∀ c ∈ insert a declared, Function.update g a x c = Function.update m a y c := by
  intro c hc
  rcases eq_or_ne c a with rfl | hca
  · rw [Function.update_self, Function.update_self, hxy]
  · rw [Function.update_of_ne hca, Function.update_of_ne hca]
    exact hagree c (Finset.mem_of_mem_insert_of_ne hc hca)

theorem agree_update_mem
    {declared : Finset ν} {g : ν → Contents V E} {x y : Contents V E}
    (hagree : ∀ c ∈ declared, g c = m c)
    (hxy : x = y) :
    ∀ c ∈ declared, Function.update g a x c = Function.update m a y c := by
  intro c hc
  exact agree_update hagree hxy c (Finset.mem_insert_of_mem hc)

theorem declared_takeOver (f : Leftover V E) (s : State ν V E) (a b : ν) :
    (s.takeOver f a b).declared = s.declared := by
  simp only [State.takeOver]
  split
  next => rfl
  next => split <;> rfl
  next => rfl

theorem Holds.constructFrom
    {g : Leftover V E}
    (h : Holds s m)
    (ha : a ∉ s.declared)
    (hb : b ∈ s.declared) :
    Holds (s.constructFrom g a b)
      (Function.update (Function.update m b ((m b).leave g)) a (m b)) := by
  obtain ⟨lost, hs⟩ := h.accounted
  refine ⟨⟨lost, hs.constructFrom ha hb⟩, ?_⟩
  have heq := h.contents b hb
  rw [contents_constructFrom (h.tagged hb) (ne_of_mem_of_not_mem hb ha), State.constructFrom,
    declared_takeOver]
  exact agree_update (agree_update_mem h.contents (congrArg (Contents.leave g) heq)) heq

theorem Holds.assignFrom
    {g : Leftover V E}
    (h : Holds s m)
    (ha : a ∈ s.declared)
    (hb : b ∈ s.declared)
    (hba : b ≠ a) :
    Holds (s.assignFrom g a b)
      (Function.update (Function.update m b ((m b).leave g)) a (m b)) := by
  obtain ⟨lost, hs⟩ := h.accounted
  obtain ⟨-, hdeclared, -⟩ := hs.destroy ha
  refine ⟨⟨lost, hs.assignFrom ha hb⟩, ?_⟩
  have heq := h.contents b hb
  rw [contents_assignFrom (h.tagged ha) (h.tagged hb) hba, State.assignFrom, if_neg hba,
    declared_takeOver, hdeclared]
  exact agree_update_mem (agree_update_mem h.contents (congrArg (Contents.leave g) heq)) heq

theorem Holds.write
    {x : V ⊕ E}
    (h : Holds s m)
    (ha : a ∈ s.declared)
    (hx : (s.storage a).contains.member = some (Payload.member (⟨0, x⟩ : Payload V E))) :
    Holds (s.write a x) (Function.update m a (some x)) := by
  obtain ⟨lost, hs⟩ := h.accounted
  have hcontents := contents_write (x := x) (hs.tagged a ha) hx
  obtain ⟨p, hp, -⟩ := hs.tagged a ha _ hx
  refine ⟨⟨lost, hs.of_storage ha rfl rfl ?_ ?_ rfl⟩, ?_⟩
  · intro m hm
    refine ⟨{ p with content := x }, by rw [hp]; rfl, ?_⟩
    exact Option.some_inj.mp (hx.symm.trans hm)
  · intro k
    have howned : Storage.owned { s.storage a with
        live := (s.storage a).live.map fun p => { p with content := x } } =
          (s.storage a).owned := by
      rw [Storage.owned, Storage.owned, hp]
      rfl
    rw [howned]
    rfl
  · rw [hcontents]
    exact agree_update_mem h.contents rfl

/-- Every operation and write keeps what the variables hold. -/
theorem Holds.next
    (h : Holds s m)
    (hguard : (changes policy f).guard s e) :
    Holds ((changes policy f).next s e) (e.onContents f m) := by
  obtain ⟨lost, hs⟩ := h.accounted
  cases e with
  | writeValue a v =>
      exact h.write hguard.1 (by rw [hguard.2]; rfl)
  | writeError a e =>
      exact h.write hguard.1 (by rw [hguard.2]; rfl)
  | operation e =>
      cases e with
      | nothing a =>
          refine ⟨⟨lost, hs.constructNothing hguard⟩, ?_⟩
          change ∀ c ∈ insert a s.declared, (s.constructNothing a).contents c = _
          rw [contents_constructNothing]
          exact agree_update h.contents rfl
      | value a v =>
          refine ⟨⟨lost, (hs.constructNothing hguard).place (Finset.mem_insert_self ..)
            (contains_constructNothing s a) rfl⟩, ?_⟩
          change ∀ c ∈ insert a s.declared, (s.constructValue a v).contents c = _
          rw [State.constructValue, contents_place rfl, contents_constructNothing,
            Function.update_idem]
          exact agree_update h.contents rfl
      | error a e =>
          refine ⟨⟨lost, (hs.constructNothing hguard).place (Finset.mem_insert_self ..)
            (contains_constructNothing s a) rfl⟩, ?_⟩
          change ∀ c ∈ insert a s.declared, (s.constructError a e).contents c = _
          rw [State.constructError, contents_place rfl, contents_constructNothing,
            Function.update_idem]
          exact agree_update h.contents rfl
      | copyConstruct a b =>
          have hcopy := h.constructFrom (g := .copied) hguard.1 hguard.2
          rwa [update_leave_copied] at hcopy
      | moveConstruct a b =>
          exact h.constructFrom hguard.1 hguard.2
      | copyAssign a b =>
          rcases eq_or_ne b a with rfl | hba
          · change Holds (s.assignFrom .copied b b) (Function.update m b (m b))
            rwa [State.assignFrom, if_pos rfl, Function.update_eq_self]
          · have hcopy := h.assignFrom (g := .copied) hguard.1 hguard.2 hba
            rwa [update_leave_copied] at hcopy
      | moveAssign a b =>
          change Holds (s.assignFrom f a b) (if b = a then m else _)
          rcases eq_or_ne b a with rfl | hba
          · rwa [State.assignFrom, if_pos rfl, if_pos rfl]
          · rw [if_neg hba]
            exact h.assignFrom hguard.1 hguard.2 hba
      | valueRvalue a =>
          have ha : a ∈ s.declared := hguard.1
          have hnext : ∃ lost, Accounted (s.valueRvalue a) lost := by
            by_cases hvalue : (s.storage a).contains = .expected
            · obtain ⟨k, hlost⟩ := hs.valueRvalue ha hvalue
              exact ⟨_, hlost⟩
            · rw [State.valueRvalue, if_neg hvalue]
              exact ⟨lost, hs⟩
          have hdeclared : (s.valueRvalue a).declared = s.declared := by
            rw [State.valueRvalue]
            split <;> rfl
          refine ⟨hnext, ?_⟩
          change ∀ c ∈ (s.valueRvalue a).declared, (s.valueRvalue a).contents c = _
          rw [contents_valueRvalue (hs.tagged a ha), hdeclared]
          exact agree_update_mem h.contents (congrArg Contents.take (h.contents a ha))
      | destruct a =>
          refine ⟨⟨lost, hs.destruct hguard⟩, fun c hc => ?_⟩
          obtain ⟨live, heq⟩ := destroyContained_eq (hs.tagged a hguard)
          have hdeclared : (s.destruct a).declared = s.declared.erase a := by
            rw [State.destruct, heq]
            rfl
          change c ∈ (s.destruct a).declared at hc
          obtain ⟨hca, hmem⟩ := Finset.mem_erase.mp (hdeclared ▸ hc)
          have hsame := storage_destruct (hs.tagged a hguard) hca
          exact (congrArg Storage.content hsame).trans (h.contents c hmem)

theorem holds_of_run
    (hrun : (changes policy f).Run tr s) :
    Holds s (contentsAfter f tr) := by
  induction hrun with
  | start hinit =>
      obtain rfl := hinit
      exact ⟨⟨[], accounted_start⟩, fun _ => nofun⟩
  | @step tr s e hrun hguard ih =>
      rw [contentsAfter_append_singleton]
      exact ih.next hguard

/-- Every access to a variable answers from its contents. -/
structure Shown (s : State ν V E) (m : ν → Contents V E) : Prop where
  isValue : ∀ a ∈ s.declared, (s.storage a).isValue = true ↔ ∃ v, m a = some (.inl v)
  isError : ∀ a ∈ s.declared, (s.storage a).isError = true ↔ ∃ e, m a = some (.inr e)
  value : ∀ policy pointer, ∀ a ∈ s.declared,
    (s.storage a).value policy pointer = (m a).value policy pointer
  error : ∀ policy pointer, ∀ a ∈ s.declared,
    (s.storage a).error policy pointer = (m a).error policy pointer
  voidValue : ∀ policy pointer, ∀ a ∈ s.declared,
    (s.storage a).voidValue policy pointer = (m a).voidValue policy pointer
  defined : s.undefined = false

omit [DecidableEq ν] in
/-- The three forms of a storage whose tag is right. -/
theorem storage_cases
    (hmatches : Matches (s.storage a).contains (s.storage a).live) :
    (s.contents a = none ∧ (s.storage a).contains = .nothing) ∨
      (∃ k v, s.contents a = some (.inl v) ∧
        s.storage a = { contains := .expected, live := some ⟨k, .inl v⟩ }) ∨
      ∃ k e, s.contents a = some (.inr e) ∧
        s.storage a = { contains := .unexpected, live := some ⟨k, .inr e⟩ } := by
  rw [State.contents]
  rcases hs : s.storage a with ⟨_ | _ | _, live⟩ <;> rw [hs] at hmatches
  · obtain ⟨⟨k, v | e⟩, rfl, hmember⟩ := hmatches .value rfl
    · exact .inr (.inl ⟨k, v, rfl, rfl⟩)
    · cases hmember
  · obtain ⟨⟨k, v | e⟩, rfl, hmember⟩ := hmatches .unexpected rfl
    · cases hmember
    · exact .inr (.inr ⟨k, e, rfl, rfl⟩)
  · exact .inl ⟨rfl, rfl⟩

/-- `expected<T, E>` refines a variable that holds a value, an error or nothing. -/
theorem contents_shown
    (hrun : (changes policy f).Run tr s) :
    Shown s (contentsAfter f tr) := by
  have h := holds_of_run hrun
  obtain ⟨lost, hs⟩ := h.accounted
  constructor
  · intro a ha
    rw [← h.contents a ha]
    rcases storage_cases (hs.tagged a ha) with ⟨hm, hc⟩ | ⟨k, v, hm, hc⟩ | ⟨k, e, hm, hc⟩ <;>
      simp [hm, hc, Storage.isValue]
  · intro a ha
    rw [← h.contents a ha]
    rcases storage_cases (hs.tagged a ha) with ⟨hm, hc⟩ | ⟨k, v, hm, hc⟩ | ⟨k, e, hm, hc⟩ <;>
      simp [hm, hc, Storage.isError]
  · intro policy pointer a ha
    rw [← h.contents a ha]
    rcases storage_cases (hs.tagged a ha) with ⟨hm, hc⟩ | ⟨k, v, hm, hc⟩ | ⟨k, e, hm, hc⟩ <;>
      cases policy <;> cases pointer <;>
      simp [hm, hc, Storage.value, Storage.enforced, Storage.readValue, Storage.rethrow,
        Storage.readUnexpected, Contents.value, Contents.failure]
  · intro policy pointer a ha
    rw [← h.contents a ha]
    rcases storage_cases (hs.tagged a ha) with ⟨hm, hc⟩ | ⟨k, v, hm, hc⟩ | ⟨k, e, hm, hc⟩ <;>
      cases policy <;> cases pointer <;>
      simp [hm, hc, Storage.error, Storage.enforced, Storage.readUnexpected, Contents.error,
        Contents.failure]
  · intro policy pointer a ha
    rw [← h.contents a ha]
    rcases storage_cases (hs.tagged a ha) with ⟨hm, hc⟩ | ⟨k, v, hm, hc⟩ | ⟨k, e, hm, hc⟩ <;>
      cases policy <;> cases pointer <;>
      simp [hm, hc, Storage.voidValue, Storage.enforced, Storage.rethrow,
        Storage.readUnexpected, Contents.voidValue, Contents.failure]
  · exact hs.defined

/-- A value is copied, moved over an error, overwritten and taken out. -/
def overwritten : List (Change Nat Nat Nat) :=
  [.operation (.value 0 1), .operation (.error 1 2), .operation (.copyConstruct 2 0),
    .operation (.moveAssign 1 0), .writeValue 1 7, .operation (.valueRvalue 2),
    .operation (.moveConstruct 3 1), .operation (.destruct 0)]

theorem contents_shown_overwritten :
    Shown ((changes .assert reset).exec .start overwritten)
        (contentsAfter reset overwritten) ∧
      contentsAfter reset overwritten 3 = some (.inl 7) := by
  have hrun : (changes .assert reset).Run overwritten
      ((changes .assert reset).exec .start overwritten) :=
    .of_enabled rfl (by decide +kernel)
  exact ⟨contents_shown hrun, by decide +kernel⟩

end Runs

end ExpectedVariables
end Ptl

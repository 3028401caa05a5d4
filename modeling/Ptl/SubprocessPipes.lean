import Ptl.ProcessLaunch
import Ptl.TransitionSystem

/-!
# The pipes of the subprocesses

This module embeds the constructor and the destructor of `subprocess` and runs them
together with `launch` over one table of descriptors, for any number of subprocesses.
The rest of the program opens and closes descriptors of its own in between, also the
descriptors 0, 1 and 2.

* Both members are 0 until the first launch that succeeds, and 0 stands for "no pipe"
  in the destructor.
* `launch` replaces the members without closing what they held.

**Results.**
* `entry_parent`: what a launch that succeeds adds to the table.
* `pipes_held_iff`: the members always are the numbers of the subprocess's own ends or
  0, and the destructor closes these only; every open end is held by a subprocess
  exactly if none is launched again after a success and 0 is open at each launch.
-/

namespace Ptl
namespace Launch

open Descriptors Transition

universe u

/-- `read_pipe_` and `write_pipe_`. -/
structure Subprocess where
  readPipe : Nat
  writePipe : Nat
deriving DecidableEq

/-- What is open: an end of a pipe that `launch` has made for a subprocess, or something else. -/
inductive Owner (σ : Type u) where
  | program
  | subprocess (a : σ) (p : Pipe) (e : PipeEnd)
deriving DecidableEq

structure State (σ : Type u) where
  table : Table (Owner σ)
  process : σ → Option Subprocess

inductive Event (σ : Type u) where
  | openOther
  | closeOther (fd : Nat)
  | construct (a : σ)
  | launch (a : σ) (c : Calls) (process : StringView) (args : List StringView)
  | destroy (a : σ)

/-- The objects after a launch of `a`. -/
def Object.owner {σ : Type u} (a : σ) : Object (Owner σ) → Owner σ
  | .other x => x
  | .pipe p e => .subprocess a p e

/-- The number of a member, if it is one for the destructor. -/
def Subprocess.holds (x : Subprocess) (fd : Nat) : Prop :=
  fd ≠ 0 ∧ (fd = x.readPipe ∨ fd = x.writePipe)

instance decidableHolds (x : Subprocess) (fd : Nat) : Decidable (x.holds fd) :=
  inferInstanceAs (Decidable (fd ≠ 0 ∧ (fd = x.readPipe ∨ fd = x.writePipe)))

/-- `if (pipe.native_descriptor() != 0) service_.close(pipe.native_descriptor())`. -/
def closePipe {σ : Type u} (t : Table (Owner σ)) (fd : Nat) : Table (Owner σ) :=
  if fd ≠ 0 then t.close fd else t

namespace State

variable {σ : Type u} [DecidableEq σ]

def start : State σ where
  table := { entry := fun _ => none, bound := 0, closed := fun _ _ => rfl }
  process := fun _ => none

/-- The constructor of `subprocess`. -/
def construct (s : State σ) (a : σ) : State σ :=
  { s with process := Function.update s.process a (some { readPipe := 0, writePipe := 0 }) }

/-- `launch`, which leaves the members as they are if it fails. -/
def launch
    (s : State σ) (a : σ) (c : Calls) (process : StringView) (args : List StringView) :
    State σ :=
  let l := Launch.launch s.table c process args
  { table := l.parent.map (Object.owner a)
    process :=
      match l.result with
      | .unexpected _ => s.process
      | _ => Function.update s.process a
          (some { readPipe := l.readPipe, writePipe := l.writePipe }) }

/-- `~subprocess`. -/
def destroy (s : State σ) (a : σ) : State σ :=
  match s.process a with
  | none => s
  | some x =>
      { table := closePipe (closePipe s.table x.readPipe) x.writePipe
        process := Function.update s.process a none }

end State

section Members

variable {σ : Type u} [DecidableEq σ]

/-- The subprocesses of a program and the rest of it. -/
def members : System (State σ) (Event σ) where
  init := fun s => s = .start
  guard := fun s e =>
    match e with
    | .openOther => True
    | .closeOther fd => s.table.entry fd = some .program
    | .construct a => s.process a = none
    | .launch a _ _ _ => s.process a ≠ none
    | .destroy a => s.process a ≠ none
  next := fun s e =>
    match e with
    | .openOther => { s with table := (s.table.allocate .program).2 }
    | .closeOther fd => { s with table := s.table.close fd }
    | .construct a => s.construct a
    | .launch a c process args => s.launch a c process args
    | .destroy a => s.destroy a

instance decidableMembersGuard (s : State σ) (e : Event σ) :
    Decidable (members.guard s e) :=
  match e with
  | .openOther => isTrue trivial
  | .closeOther fd => inferInstanceAs (Decidable (s.table.entry fd = some .program))
  | .construct a => inferInstanceAs (Decidable (s.process a = none))
  | .launch a _ _ _ => inferInstanceAs (Decidable (s.process a ≠ none))
  | .destroy a => inferInstanceAs (Decidable (s.process a ≠ none))

/-- Every member that is not 0 is an end of the subprocess itself. -/
structure Held (s : State σ) : Prop where
  read : ∀ a x, s.process a = some x → x.readPipe ≠ 0 →
    s.table.entry x.readPipe = some (.subprocess a .stdout .read)
  write : ∀ a x, s.process a = some x → x.writePipe ≠ 0 →
    s.table.entry x.writePipe = some (.subprocess a .stdin .read)

/-- An open end of a pipe that no destructor will close. -/
structure Leaked (s : State σ) (fd : Nat) : Prop where
  isEnd : ∃ a p e, s.table.entry fd = some (.subprocess a p e)
  notHeld : ∀ a x, s.process a = some x → ¬ x.holds fd

/-- A step changes no descriptor of the rest of the program, unless it is its own `close`. -/
def Spares (s : State σ) (e : Event σ) : Prop :=
  ∀ fd, s.table.entry fd = some .program →
    (members.next s e).table.entry fd = some .program ∨
      e = .closeOther fd

/--
A launch that succeeds does not replace a member that holds the number, and does not
get the number 0 for a pipe.
-/
def Keeps (fd : Nat) (s : State σ) (e : Event σ) : Prop :=
  match e with
  | .launch a c _ _ =>
      c.pipeStdin = none ∧ c.pipeStdout = none ∧ c.fork = none →
        (∀ x ∈ s.process a, ¬ x.holds fd) ∧ (fd = 0 → s.table.entry 0 ≠ none)
  | _ => True

instance decidableKeeps (fd : Nat) (s : State σ) (e : Event σ) :
    Decidable (Keeps fd s e) :=
  match e with
  | .openOther | .closeOther _ | .construct _ | .destroy _ => isTrue trivial
  | .launch a c _ _ =>
      inferInstanceAs (Decidable
        (c.pipeStdin = none ∧ c.pipeStdout = none ∧ c.fork = none →
          (∀ x ∈ s.process a, ¬ x.holds fd) ∧ (fd = 0 → s.table.entry 0 ≠ none)))

end Members

section Parent

variable {α : Type u} {t : Table α} {c : Calls} {process : StringView}
variable {args : List StringView}

/-- What a launch that succeeds adds to the table of the parent. -/
structure Added (t : Table α) (l : Launched α) : Prop where
  entry : ∀ fd, l.parent.entry fd =
    if fd = l.readPipe then some (.pipe .stdout .read)
    else if fd = l.writePipe then some (.pipe .stdin .read)
    else (t.entry fd).map Object.other
  ne : l.readPipe ≠ l.writePipe
  read : t.entry l.readPipe = none
  write : t.entry l.writePipe = none
  zero : l.writePipe = 0 ↔ t.entry 0 = none

theorem entry_parent
    (h : (launch t c process args).result = .nothing) :
    Added t (launch t c process args) := by
  obtain ⟨stdinFds, stdoutFds, t₁, t₂, hl⟩ := succeeded_launch h
  have hother : ∀ fd, (t.map Object.other).entry fd = none → t.entry fd = none := fun fd =>
    Option.map_eq_none_iff.mp
  have hstdin := hl.stdout.of_open hl.stdin.read
  have hwrite := hl.stdout.of_open hl.stdin.write
  constructor
  · intro fd
    rw [hl.parent, hl.readPipe, hl.writePipe, Table.entry_close, Table.entry_close]
    rcases eq_or_ne fd stdoutFds.2 with rfl | h₁
    · have hnone := hl.stdin.entry_eq_none hl.stdout.fresh₂
      rw [if_pos rfl, if_neg hl.stdout.ne.symm, if_neg hstdin.2.1.symm]
      exact hnone.symm
    rcases eq_or_ne fd stdinFds.2 with rfl | h₂
    · rw [if_neg h₁, if_pos rfl, if_neg hwrite.1, if_neg hl.stdin.ne.symm]
      exact hl.stdin.fresh₂.symm
    rw [if_neg h₁, if_neg h₂]
    rcases eq_or_ne fd stdoutFds.1 with rfl | h₃
    · rw [if_pos rfl, hl.stdout.read]
    rw [if_neg h₃, hl.stdout.frame fd h₃ h₁]
    rcases eq_or_ne fd stdinFds.1 with rfl | h₄
    · rw [if_pos rfl, hl.stdin.read]
    · rw [if_neg h₄, hl.stdin.frame fd h₄ h₂, Table.entry_map]
  · rw [hl.readPipe, hl.writePipe]
    exact hstdin.1.symm
  · rw [hl.readPipe]
    exact hother _ (hl.stdin.entry_eq_none hl.stdout.fresh₁)
  · rw [hl.writePipe]
    exact hother _ hl.stdin.fresh₁
  · obtain ⟨hpipeStdin, hpipeStdout, hfork⟩ := result_launch_eq_nothing_iff.mp h
    have hlowest : (launch t c process args).writePipe = (t.map Object.other).lowest := by
      simp only [launch, hpipeStdin, hpipeStdout, hfork]
      rfl
    rw [hlowest, Table.lowest_eq_zero_iff]
    exact Option.map_eq_none_iff

/-- `pipe` gives 0 to the end that `write_pipe_` keeps, if to any. -/
theorem Added.readPipe_ne_zero
    {l : Launched α}
    (h : Added t l) :
    l.readPipe ≠ 0 := by
  intro hzero
  have hopen : t.entry 0 = none := hzero ▸ h.read
  exact h.ne (hzero.trans (h.zero.mpr hopen).symm)

end Parent

section Steps

variable {σ : Type u} [DecidableEq σ]
variable {s : State σ} {e : Event σ} {a : σ} {x : Subprocess} {fd : Nat}
variable {c : Calls} {process : StringView} {args : List StringView}

omit [DecidableEq σ] in
/-- Relabelling the objects that were open before changes nothing. -/
theorem owner_other (a : σ) (x : Option (Owner σ)) :
    (x.map Object.other).map (Object.owner a) = x := by
  cases x <;> rfl

/-- A launch that fails changes nothing. -/
theorem launch_failed
    (h : (launch s.table c process args).result ≠ .nothing) :
    (∀ fd, (s.launch a c process args).table.entry fd = s.table.entry fd) ∧
      (s.launch a c process args).process = s.process := by
  constructor
  · intro fd
    change ((launch s.table c process args).parent.entry fd).map _ = _
    rw [(entry_launch_failed h).2 fd, owner_other]
  · simp only [State.launch]
    split
    next => rfl
    next hresult =>
        obtain ⟨pipeStdin | _, pipeStdout | _, fork | _, interrupts⟩ := c <;>
          simp [launch, failed] at h hresult

/-- What a launch that succeeds does: two new ends, which the members become. -/
structure Launches (s : State σ) (a : σ) (x : Subprocess) (s' : State σ) : Prop where
  read : s'.table.entry x.readPipe = some (.subprocess a .stdout .read)
  write : s'.table.entry x.writePipe = some (.subprocess a .stdin .read)
  other : ∀ fd, fd ≠ x.readPipe → fd ≠ x.writePipe → s'.table.entry fd = s.table.entry fd
  fresh₁ : s.table.entry x.readPipe = none
  fresh₂ : s.table.entry x.writePipe = none
  ne_zero : x.readPipe ≠ 0
  zero : x.writePipe = 0 ↔ s.table.entry 0 = none
  process : s'.process = Function.update s.process a (some x)

theorem launches_launch
    (h : (launch s.table c process args).result = .nothing) :
    ∃ x, Launches s a x (s.launch a c process args) := by
  have hadded := entry_parent h
  have hentry := fun fd => congrArg (Option.map (Object.owner a)) (hadded.entry fd)
  refine ⟨{ readPipe := (launch s.table c process args).readPipe
            writePipe := (launch s.table c process args).writePipe },
    ?_, ?_, ?_, hadded.read, hadded.write, hadded.readPipe_ne_zero, hadded.zero, ?_⟩
  · refine (hentry _).trans ?_
    rw [if_pos rfl]
    rfl
  · refine (hentry _).trans ?_
    rw [if_neg hadded.ne.symm, if_pos rfl]
    rfl
  · intro fd h₁ h₂
    refine (hentry fd).trans ?_
    rw [if_neg h₁, if_neg h₂, owner_other]
  · simp only [State.launch, h]

/-- An object that is open is still open after a launch. -/
theorem Launches.of_open
    {s' : State σ} {o : Owner σ}
    (h : Launches s a x s')
    (ho : s.table.entry fd = some o) :
    fd ≠ x.readPipe ∧ fd ≠ x.writePipe ∧ s'.table.entry fd = some o := by
  have h₁ : fd ≠ x.readPipe := by
    rintro rfl
    simp [h.fresh₁] at ho
  have h₂ : fd ≠ x.writePipe := by
    rintro rfl
    simp [h.fresh₂] at ho
  exact ⟨h₁, h₂, (h.other fd h₁ h₂).trans ho⟩

omit [DecidableEq σ] in
theorem entry_closePipe (t : Table (Owner σ)) (fd k : Nat) :
    (closePipe t fd).entry k = if k = fd ∧ k ≠ 0 then none else t.entry k := by
  unfold closePipe
  rcases eq_or_ne fd 0 with rfl | hfd
  · rw [if_neg (not_not_intro rfl), if_neg fun h => h.2 h.1]
  · rw [if_pos hfd, Table.entry_close]
    exact if_congr ⟨fun h => ⟨h, h ▸ hfd⟩, And.left⟩ rfl rfl

/-- The destructor closes what the members hold. -/
theorem entry_destroy
    (hx : s.process a = some x)
    (fd : Nat) :
    (s.destroy a).table.entry fd = if x.holds fd then none else s.table.entry fd := by
  simp only [State.destroy, hx, entry_closePipe, Subprocess.holds]
  grind

theorem process_destroy
    (hx : s.process a = some x) :
    (s.destroy a).process = Function.update s.process a none := by
  simp only [State.destroy, hx]

omit [DecidableEq σ] in
theorem Held.entry_of_holds
    (h : Held s)
    (hx : s.process a = some x)
    (hfd : x.holds fd) :
    ∃ p, s.table.entry fd = some (.subprocess a p .read) := by
  obtain ⟨hzero, rfl | rfl⟩ := hfd
  · exact ⟨_, h.read a x hx hzero⟩
  · exact ⟨_, h.write a x hx hzero⟩

omit [DecidableEq σ] in
/-- No number is held by two subprocesses. -/
theorem Held.owner_unique
    {b : σ} {y : Subprocess}
    (h : Held s)
    (hx : s.process a = some x)
    (hy : s.process b = some y)
    (hfdx : x.holds fd)
    (hfdy : y.holds fd) :
    a = b := by
  obtain ⟨p, hp⟩ := h.entry_of_holds hx hfdx
  obtain ⟨q, hq⟩ := h.entry_of_holds hy hfdy
  rw [hp] at hq
  injection hq with hq
  injection hq

omit [DecidableEq σ] in
/-- The members that were there before are kept if the ends they hold are. -/
theorem Held.of_frame
    {s' : State σ}
    (h : Held s)
    (hprocess : ∀ b y, s'.process b = some y →
      (s.process b = some y ∧
        ∀ k, y.holds k → s'.table.entry k = s.table.entry k) ∨
      y = { readPipe := 0, writePipe := 0 }) :
    Held s' := by
  constructor
  · intro b y hy hne
    rcases hprocess b y hy with ⟨hbefore, hentry⟩ | rfl
    · rw [hentry _ ⟨hne, .inl rfl⟩]
      exact h.read b y hbefore hne
    · exact absurd rfl hne
  · intro b y hy hne
    rcases hprocess b y hy with ⟨hbefore, hentry⟩ | rfl
    · rw [hentry _ ⟨hne, .inr rfl⟩]
      exact h.write b y hbefore hne
    · exact absurd rfl hne

/-- Every step keeps the members right. -/
theorem Held.next
    (h : Held s)
    (hguard : members.guard s e) :
    Held (members.next s e) := by
  cases e with
  | openOther =>
      refine h.of_frame fun b y hy => .inl ⟨hy, fun k hk => ?_⟩
      obtain ⟨p, hp⟩ := h.entry_of_holds hy hk
      exact Table.entry_allocate_of_ne (Table.ne_lowest hp)
  | closeOther fd =>
      refine h.of_frame fun b y hy => .inl ⟨hy, fun k hk => ?_⟩
      obtain ⟨p, hp⟩ := h.entry_of_holds hy hk
      refine Table.entry_close_of_ne ?_
      rintro rfl
      rw [hguard] at hp
      injection hp with hp
      injection hp
  | construct a =>
      refine h.of_frame fun b y hy => ?_
      change Function.update s.process a _ b = some y at hy
      rcases eq_or_ne b a with rfl | hba
      · rw [Function.update_self] at hy
        exact .inr (Option.some_inj.mp hy).symm
      · rw [Function.update_of_ne hba] at hy
        exact .inl ⟨hy, fun _ _ => rfl⟩
  | launch a c process args =>
      by_cases hresult : (launch s.table c process args).result = .nothing
      · obtain ⟨x, hx⟩ := launches_launch (a := a) hresult
        change Held (s.launch a c process args)
        constructor
        · intro b y hy hne
          rw [hx.process] at hy
          rcases eq_or_ne b a with rfl | hba
          · rw [Function.update_self] at hy
            obtain rfl := Option.some_inj.mp hy
            exact hx.read
          · rw [Function.update_of_ne hba] at hy
            exact (hx.of_open (h.read b y hy hne)).2.2
        · intro b y hy hne
          rw [hx.process] at hy
          rcases eq_or_ne b a with rfl | hba
          · rw [Function.update_self] at hy
            obtain rfl := Option.some_inj.mp hy
            exact hx.write
          · rw [Function.update_of_ne hba] at hy
            exact (hx.of_open (h.write b y hy hne)).2.2
      · obtain ⟨hentry, hprocess⟩ := launch_failed (a := a) hresult
        exact h.of_frame fun b y hy => .inl ⟨hprocess ▸ hy, fun k _ => hentry k⟩
  | destroy a =>
      obtain ⟨x, hx⟩ := Option.ne_none_iff_exists'.mp hguard
      refine h.of_frame fun b y hy => .inl ?_
      change (s.destroy a).process b = some y at hy
      rw [process_destroy hx] at hy
      rcases eq_or_ne b a with rfl | hba
      · rw [Function.update_self] at hy
        cases hy
      rw [Function.update_of_ne hba] at hy
      refine ⟨hy, fun k hk => ?_⟩
      refine (entry_destroy hx k).trans (if_neg fun hxk => ?_)
      exact hba (h.owner_unique hy hx hk hxk)

/-- The destructor and `launch` leave the descriptors of the rest of the program alone. -/
theorem Held.spares
    (h : Held s)
    (hguard : members.guard s e) :
    Spares s e := by
  intro fd hfd
  cases e with
  | openOther =>
      exact .inl ((Table.entry_allocate_of_ne (Table.ne_lowest hfd)).trans hfd)
  | closeOther k =>
      rcases eq_or_ne fd k with rfl | hk
      · exact .inr rfl
      · exact .inl ((Table.entry_close_of_ne hk).trans hfd)
  | construct a =>
      exact .inl hfd
  | launch a c process args =>
      by_cases hresult : (launch s.table c process args).result = .nothing
      · obtain ⟨x, hx⟩ := launches_launch (a := a) hresult
        exact .inl (hx.of_open hfd).2.2
      · exact .inl (((launch_failed (a := a) hresult).1 fd).trans hfd)
  | destroy a =>
      obtain ⟨x, hx⟩ := Option.ne_none_iff_exists'.mp hguard
      refine .inl (((entry_destroy hx fd).trans (if_neg fun hk => ?_)).trans hfd)
      obtain ⟨p, hp⟩ := h.entry_of_holds hx hk
      rw [hfd] at hp
      injection hp with hp
      injection hp

omit [DecidableEq σ] in
/-- Two states with the same ends of pipes, which the same subprocesses hold. -/
theorem leaked_congr
    {s' : State σ}
    (hentry : ∀ a p e, s'.table.entry fd = some (.subprocess a p e) ↔
      s.table.entry fd = some (.subprocess a p e))
    (hprocess : (∃ a x, s'.process a = some x ∧ x.holds fd) ↔
      ∃ a x, s.process a = some x ∧ x.holds fd) :
    Leaked s' fd ↔ Leaked s fd := by
  have hends : (∃ a p e, s'.table.entry fd = some (.subprocess a p e)) ↔
      ∃ a p e, s.table.entry fd = some (.subprocess a p e) :=
    exists_congr fun a => exists_congr fun p => exists_congr fun e => hentry a p e
  constructor
  · intro h
    exact ⟨hends.mp h.isEnd, fun a x hx hfd => by
      obtain ⟨b, y, hy, hfdy⟩ := hprocess.mpr ⟨a, x, hx, hfd⟩
      exact h.notHeld b y hy hfdy⟩
  · intro h
    exact ⟨hends.mpr h.isEnd, fun a x hx hfd => by
      obtain ⟨b, y, hy, hfdy⟩ := hprocess.mp ⟨a, x, hx, hfd⟩
      exact h.notHeld b y hy hfdy⟩

/-- What a launch that succeeds loses. -/
theorem Launches.leaked_iff
    {s' : State σ}
    (h : Launches s a x s')
    (hheld : Held s) :
    Leaked s' fd ↔
      Leaked s fd ∨ ¬ ((∀ y ∈ s.process a, ¬ y.holds fd) ∧ (fd = 0 → s.table.entry 0 ≠ none)) := by
  have hself : s'.process a = some x := by
    rw [h.process, Function.update_self]
  have hother {b : σ} (hba : b ≠ a) : s'.process b = s.process b := by
    rw [h.process, Function.update_of_ne hba]
  -- an end that was open and that the other subprocesses do not hold is lost
  have hlost {o p e} (ho : s.table.entry fd = some (.subprocess o p e))
      (hnot : ∀ b y, b ≠ a → s.process b = some y → ¬ y.holds fd) : Leaked s' fd := by
    obtain ⟨hread, hwrite, hentry⟩ := h.of_open ho
    refine ⟨⟨o, p, e, hentry⟩, fun b y hy hfd => ?_⟩
    rcases eq_or_ne b a with rfl | hba
    · obtain rfl := Option.some_inj.mp (hself.symm.trans hy)
      exact hfd.2.elim hread hwrite
    · exact hnot b y hba (hother hba ▸ hy) hfd
  constructor
  · intro hleaked
    rw [or_iff_not_imp_right, not_not]
    rintro ⟨hmembers, hzero⟩
    have hread : fd ≠ x.readPipe := by
      rintro rfl
      exact hleaked.notHeld a x hself ⟨h.ne_zero, .inl rfl⟩
    have hwrite : fd ≠ x.writePipe := by
      rintro rfl
      by_cases hne : x.writePipe = 0
      · exact hzero hne (h.zero.mp hne)
      · exact hleaked.notHeld a x hself ⟨hne, .inr rfl⟩
    refine ⟨?_, fun b y hy hfd => ?_⟩
    · rw [← h.other fd hread hwrite]
      exact hleaked.isEnd
    · rcases eq_or_ne b a with rfl | hba
      · exact hmembers y hy hfd
      · exact hleaked.notHeld b y ((hother hba).trans hy) hfd
  · rintro (hleaked | hkeeps)
    · obtain ⟨o, p, e, ho⟩ := hleaked.isEnd
      exact hlost ho fun b y _ hy => hleaked.notHeld b y hy
    · rw [not_and_or] at hkeeps
      rcases hkeeps with hmembers | hzero
      · push Not at hmembers
        obtain ⟨y, hy, hfd⟩ := hmembers
        obtain ⟨p, hp⟩ := hheld.entry_of_holds hy hfd
        exact hlost hp fun b z hba hz hfdz => hba (hheld.owner_unique hz hy hfdz hfd)
      · push Not at hzero
        obtain ⟨rfl, hclosed⟩ := hzero
        have hwrite := h.zero.mpr hclosed
        exact ⟨⟨a, .stdin, .read, hwrite ▸ h.write⟩, fun b y _ hfd => hfd.1 rfl⟩

/-- The ends that a step loses are lost for good, and no others. -/
theorem Held.leaked_next_iff
    (h : Held s)
    (hguard : members.guard s e) :
    Leaked (members.next s e) fd ↔ Leaked s fd ∨ ¬ Keeps fd s e := by
  cases e with
  | openOther =>
      refine Iff.trans ?_ (or_iff_left (not_not_intro trivial)).symm
      refine leaked_congr (fun a p e => ?_) Iff.rfl
      change (s.table.allocate .program).2.entry fd = _ ↔ _
      rcases eq_or_ne fd s.table.lowest with rfl | hfd
      · rw [Table.entry_lowest]
        change (s.table.allocate .program).2.entry (s.table.allocate .program).1 = _ ↔ _
        rw [Table.entry_allocate_self]
        simp
      · rw [Table.entry_allocate_of_ne hfd]
  | closeOther k =>
      refine Iff.trans ?_ (or_iff_left (not_not_intro trivial)).symm
      refine leaked_congr (fun a p e => ?_) Iff.rfl
      change (s.table.close k).entry fd = _ ↔ _
      rw [Table.entry_close]
      rcases eq_or_ne fd k with rfl | hfd
      · have hprogram : s.table.entry fd = some .program := hguard
        simp [hprogram]
      · rw [if_neg hfd]
  | construct a =>
      refine Iff.trans ?_ (or_iff_left (not_not_intro trivial)).symm
      refine leaked_congr (fun _ _ _ => Iff.rfl) ?_
      have hnone : s.process a = none := hguard
      refine exists_congr fun b => ?_
      change (∃ x, Function.update s.process a _ b = some x ∧ x.holds fd) ↔ _
      rcases eq_or_ne b a with rfl | hba
      · rw [Function.update_self, hnone]
        simp [Subprocess.holds]
      · rw [Function.update_of_ne hba]
  | launch a c process args =>
      by_cases hresult : (launch s.table c process args).result = .nothing
      · obtain ⟨x, hx⟩ := launches_launch (a := a) hresult
        refine (hx.leaked_iff h).trans ?_
        rw [Keeps, forall_prop_of_true (result_launch_eq_nothing_iff.mp hresult)]
      · obtain ⟨hentry, hprocess⟩ := launch_failed (a := a) hresult
        rw [Keeps, forall_prop_of_false fun hc => hresult (result_launch_eq_nothing_iff.mpr hc),
          not_true_eq_false, or_false]
        refine leaked_congr (fun b p e => ?_) ?_
        · exact iff_of_eq (congrArg (· = _) (hentry fd))
        · change (∃ b y, (s.launch a c process args).process b = some y ∧ _) ↔ _
          rw [hprocess]
  | destroy a =>
      refine Iff.trans ?_ (or_iff_left (not_not_intro trivial)).symm
      obtain ⟨x, hx⟩ := Option.ne_none_iff_exists'.mp hguard
      have hentry := entry_destroy hx fd
      change Leaked (s.destroy a) fd ↔ _
      by_cases hfd : x.holds fd
      · rw [if_pos hfd] at hentry
        refine iff_of_false (fun hleaked => ?_) fun hleaked => hleaked.notHeld a x hx hfd
        obtain ⟨o, p, e, ho⟩ := hleaked.isEnd
        simp [hentry] at ho
      · rw [if_neg hfd] at hentry
        refine leaked_congr (fun b p e => by rw [hentry]) (exists_congr fun b => ?_)
        rw [process_destroy hx]
        rcases eq_or_ne b a with rfl | hba
        · rw [Function.update_self, hx]
          simp [hfd]
        · rw [Function.update_of_ne hba]

end Steps

section Runs

variable {σ : Type u} [DecidableEq σ]
variable {s : State σ} {tr : List (Event σ)}

omit [DecidableEq σ] in
theorem held_start :
    Held (State.start : State σ) := by
  constructor <;> nofun

theorem held_of_run
    (hrun : members.Run tr s) :
    Held s :=
  hrun.invariant (I := fun _ s => Held s)
    (fun _ hinit => hinit ▸ held_start)
    fun _ _ _ _ h hguard => h.next hguard

/--
In every run the members are ends of the subprocess itself, and the rest of the program
keeps its descriptors.  An end of a pipe stays open for ever exactly if a launch replaced
the member that held it, or if it is the descriptor 0 that a launch got.
-/
theorem pipes_held_iff
    (hrun : members.Run tr s) :
    Held s ∧ members.Along Spares .start tr ∧
      ∀ fd, ¬ Leaked s fd ↔ members.Along (Keeps fd) .start tr := by
  refine ⟨held_of_run hrun, ?_, fun fd => ?_⟩
  · refine (hrun.along_iff (A := fun _ => True) (fun _ h => h) trivial ?_).mp trivial
    intro tr s e hrun hguard
    simp [(held_of_run hrun).spares hguard]
  · refine Iff.trans ?_ (hrun.along_iff
      (A := fun tr => ¬ Leaked (members.exec .start tr) fd) (fun _ h => h) ?_ ?_)
    · rw [hrun.eq_exec fun _ h => h]
    · rintro ⟨⟨a, p, e, h⟩, -⟩
      cases h
    · intro tr s e hrun hguard
      rw [System.exec_append_singleton, ← hrun.eq_exec fun _ h => h,
        (held_of_run hrun).leaked_next_iff hguard, not_or, not_not]

/-- Two subprocesses, one of which is launched twice, in a program with 0, 1 and 2 open. -/
def launchedTwice : List (Event Nat) :=
  [.openOther, .openOther, .openOther, .construct 0, .construct 1,
    .launch 0 callsSucceed literalA [literalA], .launch 1 callsSucceed literalA [],
    .launch 0 callsSucceed literalA [], .destroy 0, .destroy 1, .closeOther 0]

theorem pipes_held_iff_launchedTwice :
    Leaked (members.exec .start launchedTwice) 3 ∧
      ¬ Leaked (members.exec .start launchedTwice) 4 := by
  have hrun : members.Run launchedTwice (members.exec .start launchedTwice) :=
    .of_enabled rfl (by decide +kernel)
  have h := (pipes_held_iff hrun).2.2
  exact ⟨not_not.mp fun hnot => absurd ((h 3).mp hnot) (by decide +kernel),
    (h 4).mpr (by decide +kernel)⟩

end Runs

end Launch
end Ptl

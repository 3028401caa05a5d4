import Ptl.ByteOrder
import Ptl.DescriptorTable
import Ptl.IoOperation

/-!
# Launching a subprocess

This module embeds `subprocess::launch`: the two pipes, `fork`, the calls of the child
up to `execv`, those of the parent, and the arguments.  The objects that are open before
are arbitrary; the two pipes are new, and each has a read end and a write end.  The
outcomes of `pipe` and `fork` and the number of times that `dup2` is interrupted are
the input.

* A `string_view` is a part of a buffer.  `execv` reads C strings at the addresses it
  gets, up to the first null pointer.
* The child duplicates the write end of the pipe for its input, and the parent keeps
  the read end for `write_pipe_`.

**Results.**
* `launch_not_connected`: no launch connects the input of the child with
  `write_pipe_`, because this is the read end of the pipe.
* `child_of_standard_open`: if the descriptors 0, 1 and 2 are open, the child has the
  write ends as these three descriptors and no other end.
* `entry_launch_failed`: a launch that fails leaves the descriptors as they were.
* `arguments_exact_iff`: the child gets the arguments exactly if a zero byte follows
  each of them in its buffer.
-/

namespace Ptl
namespace Launch

open Descriptors Bytes Io

universe u

inductive PipeEnd where
  | read
  | write
deriving DecidableEq

/-- The two pipes of a launch. -/
inductive Pipe where
  | stdin
  | stdout
deriving DecidableEq

/-- What a descriptor refers to; `other` is what was open before. -/
inductive Object (α : Type u) where
  | other (a : α)
  | pipe (p : Pipe) (e : PipeEnd)
deriving DecidableEq

/-- A `const char*`. -/
structure CharPtr where
  buffer : List Byte
  offset : Nat
deriving DecidableEq

namespace CharPtr

def bytes (p : CharPtr) : List Byte :=
  p.buffer.drop p.offset

/-- The C string at the address. -/
def cString (p : CharPtr) : Option (List Byte) :=
  Bytes.cString p.bytes

/-- The number of bytes from the address on that are read for it. -/
def reads (p : CharPtr) : Nat :=
  cStringReads p.bytes

end CharPtr

/-- `std::string_view`. -/
structure StringView where
  buffer : List Byte
  offset : Nat
  length : Nat
  within : offset + length ≤ buffer.length
deriving DecidableEq

namespace StringView

def data (v : StringView) : CharPtr where
  buffer := v.buffer
  offset := v.offset

def content (v : StringView) : List Byte :=
  v.data.bytes.take v.length

/-- A zero byte follows the view in its buffer. -/
def Terminated (v : StringView) : Prop :=
  v.data.bytes[v.length]? = some 0

instance decidableTerminated (v : StringView) : Decidable v.Terminated :=
  inferInstanceAs (Decidable (v.data.bytes[v.length]? = some 0))

end StringView

variable {α : Type u}

/-- `pipe(fds)`. -/
def pipe (t : Table (Object α)) (p : Pipe) : (Nat × Nat) × Table (Object α) :=
  let (r, t) := t.allocate (.pipe p .read)
  let (w, t) := t.allocate (.pipe p .write)
  ((r, w), t)

/-- `while (::dup2(old, new) == -1 && errno == EINTR)`. -/
def dup2Loop (t : Table (Object α)) (old new : Nat) : Nat → Table (Object α)
  | 0 => t.dup2 old new
  | interrupts + 1 => dup2Loop t old new interrupts

/-- The outcomes of the system calls: errno if they fail, and how often `dup2` is interrupted. -/
structure Calls where
  pipeStdin : Option ErrorCode
  pipeStdout : Option ErrorCode
  fork : Option ErrorCode
  interrupts : Nat × Nat × Nat

/-- The child when it calls `execv(path, argv)`. -/
structure Child (α : Type u) where
  table : Table (Object α)
  path : CharPtr
  argv : List (Option CharPtr)

/-- The parent and the child after `launch`. -/
structure Launched (α : Type u) where
  parent : Table (Object α)
  child : Option (Child α)
  readPipe : Nat
  writePipe : Nat
  result : Io.Expected Unit

/-- The descriptors of the child, from `fork` to `execv`. -/
def childTable (t : Table (Object α)) (stdinFds stdoutFds : Nat × Nat)
    (interrupts : Nat × Nat × Nat) : Table (Object α) :=
  let t := dup2Loop t stdinFds.2 0 interrupts.1
  let t := dup2Loop t stdoutFds.2 1 interrupts.2.1
  let t := dup2Loop t stdoutFds.2 2 interrupts.2.2
  let t := (t.close stdinFds.1).close stdinFds.2
  (t.close stdoutFds.1).close stdoutFds.2

/-- A launch that returns an error; the pipes stay closed. -/
def failed (t : Table (Object α)) (errno : ErrorCode) : Launched α where
  parent := t
  child := none
  readPipe := 0
  writePipe := 0
  result := .unexpected errno

/-- `subprocess::launch`. -/
def launch (t : Table α) (c : Calls) (process : StringView) (args : List StringView) :
    Launched α :=
  let t := t.map Object.other
  match c.pipeStdin with
  | some errno => failed t errno
  | none =>
      let (stdinFds, t) := pipe t .stdin
      match c.pipeStdout with
      | some errno => failed ((t.close stdinFds.1).close stdinFds.2) errno
      | none =>
          let (stdoutFds, t) := pipe t .stdout
          let arguments := [some process.data] ++ args.map (fun v => some v.data) ++ [none]
          match c.fork with
          | some errno =>
              let t := (t.close stdinFds.1).close stdinFds.2
              failed ((t.close stdoutFds.1).close stdoutFds.2) errno
          | none =>
              { parent := (t.close stdinFds.2).close stdoutFds.2
                child := some
                  { table := childTable t stdinFds stdoutFds c.interrupts
                    path := process.data
                    argv := arguments }
                readPipe := stdoutFds.1
                writePipe := stdinFds.1
                result := .nothing }

/-- The child and the parent hold the right ends of the two pipes. -/
def Connected (l : Launched α) : Prop :=
  ∃ child, l.child = some child ∧
    (∃ p, child.table.entry 0 = some (.pipe p .read) ∧
      l.parent.entry l.writePipe = some (.pipe p .write)) ∧
    (∃ p, child.table.entry 1 = some (.pipe p .write) ∧
      child.table.entry 2 = some (.pipe p .write) ∧
      l.parent.entry l.readPipe = some (.pipe p .read)) ∧
    ∀ fd, 2 < fd → ∀ p e, child.table.entry fd ≠ some (.pipe p e)

section Pipes

variable {t : Table (Object α)} {p : Pipe} {k : Nat} {o : Object α}

theorem dup2Loop_eq (t : Table (Object α)) (old new interrupts : Nat) :
    dup2Loop t old new interrupts = t.dup2 old new := by
  induction interrupts with
  | zero =>
      rfl
  | succ interrupts ih =>
      exact ih

/-- What `pipe` does: two new descriptors for the two ends. -/
structure Piped (t : Table (Object α)) (p : Pipe) (fds : Nat × Nat)
    (t' : Table (Object α)) : Prop where
  ne : fds.1 ≠ fds.2
  read : t'.entry fds.1 = some (.pipe p .read)
  write : t'.entry fds.2 = some (.pipe p .write)
  fresh₁ : t.entry fds.1 = none
  fresh₂ : t.entry fds.2 = none
  frame : ∀ k, k ≠ fds.1 → k ≠ fds.2 → t'.entry k = t.entry k

theorem piped_pipe (t : Table (Object α)) (p : Pipe) :
    Piped t p (pipe t p).1 (pipe t p).2 := by
  have hread := Table.entry_allocate_self t (.pipe p .read)
  have hne := Table.ne_lowest hread
  refine ⟨hne, ?_, Table.entry_allocate_self _ _, Table.entry_lowest t, ?_, ?_⟩
  · exact (Table.entry_allocate_of_ne hne).trans hread
  · exact (Table.entry_allocate_of_ne hne.symm).symm.trans (Table.entry_lowest _)
  · intro k h₁ h₂
    exact (Table.entry_allocate_of_ne h₂).trans (Table.entry_allocate_of_ne h₁)

/-- An open descriptor is not one of the new ones, and stays as it is. -/
theorem Piped.of_open
    {fds : Nat × Nat} {t' : Table (Object α)}
    (h : Piped t p fds t')
    (hk : t.entry k = some o) :
    k ≠ fds.1 ∧ k ≠ fds.2 ∧ t'.entry k = some o := by
  have h₁ : k ≠ fds.1 := by
    rintro rfl
    simp [h.fresh₁] at hk
  have h₂ : k ≠ fds.2 := by
    rintro rfl
    simp [h.fresh₂] at hk
  exact ⟨h₁, h₂, (h.frame k h₁ h₂).trans hk⟩

theorem Piped.entry_eq_none
    {fds : Nat × Nat} {t' : Table (Object α)}
    (h : Piped t p fds t')
    (hk : t'.entry k = none) :
    t.entry k = none := by
  by_contra hsome
  obtain ⟨o, ho⟩ := Option.ne_none_iff_exists'.mp hsome
  rw [(h.of_open ho).2.2] at hk
  exact absurd hk (Option.some_ne_none o)

end Pipes

section Launching

variable {t : Table α} {c : Calls} {process : StringView} {args : List StringView}

/-- A launch succeeds exactly if all system calls do. -/
theorem result_launch_eq_nothing_iff :
    (launch t c process args).result = .nothing ↔
      c.pipeStdin = none ∧ c.pipeStdout = none ∧ c.fork = none := by
  obtain ⟨pipeStdin | _, pipeStdout | _, fork | _, interrupts⟩ := c <;>
    simp [launch, failed]

/-- The two processes after a successful launch. -/
structure Succeeded (t : Table α) (c : Calls) (process : StringView)
    (args : List StringView) (stdinFds stdoutFds : Nat × Nat)
    (t₁ t₂ : Table (Object α)) (l : Launched α) : Prop where
  stdin : Piped (t.map Object.other) .stdin stdinFds t₁
  stdout : Piped t₁ .stdout stdoutFds t₂
  parent : l.parent = (t₂.close stdinFds.2).close stdoutFds.2
  child : l.child = some
    { table := childTable t₂ stdinFds stdoutFds c.interrupts
      path := process.data
      argv := [some process.data] ++ args.map (fun v => some v.data) ++ [none] }
  readPipe : l.readPipe = stdoutFds.1
  writePipe : l.writePipe = stdinFds.1

theorem succeeded_launch
    (h : (launch t c process args).result = .nothing) :
    ∃ stdinFds stdoutFds t₁ t₂,
      Succeeded t c process args stdinFds stdoutFds t₁ t₂ (launch t c process args) := by
  obtain ⟨hstdin, hstdout, hfork⟩ := result_launch_eq_nothing_iff.mp h
  refine ⟨_, _, _, _, piped_pipe (t.map Object.other) .stdin,
    piped_pipe (pipe (t.map Object.other) .stdin).2 .stdout, ?_, ?_, ?_, ?_⟩
  all_goals
    simp only [launch, hstdin, hstdout, hfork]

/-- `write_pipe_` is the read end of the pipe. -/
theorem entry_writePipe
    (h : (launch t c process args).result = .nothing) :
    (launch t c process args).parent.entry (launch t c process args).writePipe =
      some (.pipe .stdin .read) := by
  obtain ⟨stdinFds, stdoutFds, t₁, t₂, hl⟩ := succeeded_launch h
  obtain ⟨-, hne, hentry⟩ := hl.stdout.of_open hl.stdin.read
  rw [hl.parent, hl.writePipe, Table.entry_close_of_ne hne,
    Table.entry_close_of_ne hl.stdin.ne, hentry]

/-- The input of the child is not connected, whatever is open in the parent. -/
theorem launch_not_connected
    (t : Table α) (c : Calls) (process : StringView) (args : List StringView)
    (h : (launch t c process args).result = .nothing) :
    ¬ Connected (launch t c process args) := by
  rintro ⟨child, -, ⟨p, -, hwrite⟩, -⟩
  rw [entry_writePipe h] at hwrite
  simp at hwrite

/-- A table in which the descriptors 0, 1 and 2 are open. -/
def standardOpen : Table Unit where
  entry := fun fd => if fd < 3 then some () else none
  bound := 3
  closed := fun _ h => if_neg (Nat.not_lt.mpr h)

/-- All system calls succeed at once. -/
def callsSucceed : Calls where
  pipeStdin := none
  pipeStdout := none
  fork := none
  interrupts := (0, 0, 0)

/-- The string literal "a". -/
def literalA : StringView where
  buffer := [97, 0]
  offset := 0
  length := 1
  within := by decide

theorem launch_not_connected_standardOpen :
    ¬ Connected (launch standardOpen callsSucceed literalA []) :=
  launch_not_connected standardOpen callsSucceed literalA [] rfl

theorem not_launch_connected :
    ¬ ∀ (t : Table Unit) (c : Calls) (process : StringView) (args : List StringView),
      (launch t c process args).result = .nothing → Connected (launch t c process args) := by
  intro h
  obtain ⟨-, -, ⟨p, -, hwrite⟩, -⟩ := h standardOpen callsSucceed literalA [] rfl
  rw [entry_writePipe rfl] at hwrite
  simp at hwrite

/-- The ends of the pipes in the table of the child, if none of them is below 3. -/
theorem entry_childTable
    {t₂ : Table (Object α)} {stdinFds stdoutFds : Nat × Nat} {k : Nat}
    (interrupts : Nat × Nat × Nat)
    (hstdin : t₂.entry stdinFds.2 = some (.pipe .stdin .write))
    (hstdout : t₂.entry stdoutFds.2 = some (.pipe .stdout .write))
    (hlarge : 2 < stdinFds.1 ∧ 2 < stdinFds.2 ∧ 2 < stdoutFds.1 ∧ 2 < stdoutFds.2) :
    (childTable t₂ stdinFds stdoutFds interrupts).entry k =
      if k = 0 then some (.pipe .stdin .write)
      else if k = 1 ∨ k = 2 then some (.pipe .stdout .write)
      else if k = stdinFds.1 ∨ k = stdinFds.2 ∨ k = stdoutFds.1 ∨ k = stdoutFds.2 then none
      else t₂.entry k := by
  have hone : (t₂.dup2 stdinFds.2 0).entry stdoutFds.2 = some (.pipe .stdout .write) := by
    rw [Table.entry_dup2 hstdin, if_neg (by omega), hstdout]
  have htwo : ((t₂.dup2 stdinFds.2 0).dup2 stdoutFds.2 1).entry stdoutFds.2 =
      some (.pipe .stdout .write) := by
    rw [Table.entry_dup2 hone, if_neg (by omega), hone]
  simp only [childTable, dup2Loop_eq, Table.entry_close, Table.entry_dup2 htwo,
    Table.entry_dup2 hone, Table.entry_dup2 hstdin]
  grind

/-- An open descriptor below 3 keeps the ends of a pipe from being there. -/
theorem two_lt_of_fresh
    {t : Table (Object α)} {fd : Nat}
    (hopen : ∀ k, k < 3 → t.entry k ≠ none)
    (hfresh : t.entry fd = none) :
    2 < fd := by
  by_contra hle
  exact hopen fd (by omega) hfresh

/--
With 0, 1 and 2 open in the parent, the child writes to its own input, its output
reaches `read_pipe_`, and no other end of a pipe is open.
-/
theorem child_of_standard_open
    (h : (launch t c process args).result = .nothing)
    (hopen : ∀ k, k < 3 → t.entry k ≠ none) :
    ∃ child, (launch t c process args).child = some child ∧
      child.table.entry 0 = some (.pipe .stdin .write) ∧
      child.table.entry 1 = some (.pipe .stdout .write) ∧
      child.table.entry 2 = some (.pipe .stdout .write) ∧
      (launch t c process args).parent.entry (launch t c process args).readPipe =
        some (.pipe .stdout .read) ∧
      ∀ fd, 2 < fd → ∀ p e, child.table.entry fd ≠ some (.pipe p e) := by
  obtain ⟨stdinFds, stdoutFds, t₁, t₂, hl⟩ := succeeded_launch h
  have hopen₀ : ∀ k, k < 3 → (t.map Object.other).entry k ≠ none := by
    intro k hk hnone
    exact hopen k hk (Option.map_eq_none_iff.mp hnone)
  have hopen₁ : ∀ k, k < 3 → t₁.entry k ≠ none := by
    intro k hk
    obtain ⟨o, ho⟩ := Option.ne_none_iff_exists'.mp (hopen₀ k hk)
    rw [(hl.stdin.of_open ho).2.2]
    exact Option.some_ne_none o
  have hstdin := (hl.stdout.of_open hl.stdin.write).2.2
  have hentry := fun k => entry_childTable (k := k) c.interrupts hstdin hl.stdout.write
    ⟨two_lt_of_fresh hopen₀ hl.stdin.fresh₁, two_lt_of_fresh hopen₀ hl.stdin.fresh₂,
      two_lt_of_fresh hopen₁ hl.stdout.fresh₁, two_lt_of_fresh hopen₁ hl.stdout.fresh₂⟩
  refine ⟨_, hl.child, ?_, ?_, ?_, ?_, ?_⟩
  · exact hentry 0
  · exact hentry 1
  · exact hentry 2
  · have hne := (hl.stdout.of_open hl.stdin.write).1
    rw [hl.parent, hl.readPipe, Table.entry_close_of_ne hl.stdout.ne,
      Table.entry_close_of_ne hne.symm, hl.stdout.read]
  · intro fd hfd p e
    rw [hentry fd, if_neg (by omega), if_neg (by omega)]
    split
    · simp
    · next hfds =>
        rw [not_or, not_or, not_or] at hfds
        obtain ⟨h₁, h₂, h₃, h₄⟩ := hfds
        rw [hl.stdout.frame fd h₃ h₄, hl.stdin.frame fd h₁ h₂, Table.entry_map]
        cases t.entry fd <;> simp

/-- Closing two descriptors that another table does not have either. -/
theorem entry_close_close
    {t r : Table (Object α)} {fds : Nat × Nat} {k : Nat}
    (h₁ : r.entry fds.1 = none)
    (h₂ : r.entry fds.2 = none)
    (hother : k ≠ fds.1 → k ≠ fds.2 → t.entry k = r.entry k) :
    ((t.close fds.1).close fds.2).entry k = r.entry k := by
  rw [Table.entry_close, Table.entry_close]
  rcases eq_or_ne k fds.2 with rfl | hne₂
  · rw [if_pos rfl, h₂]
  rcases eq_or_ne k fds.1 with rfl | hne₁
  · rw [if_neg hne₂, if_pos rfl, h₁]
  · rw [if_neg hne₂, if_neg hne₁, hother hne₁ hne₂]

/-- A launch that fails has no child and changes no descriptor. -/
theorem entry_launch_failed
    (h : (launch t c process args).result ≠ .nothing) :
    (launch t c process args).child = none ∧
    ∀ fd, (launch t c process args).parent.entry fd = (t.entry fd).map Object.other := by
  have hstdin := piped_pipe (t.map Object.other) .stdin
  have hstdout := piped_pipe (pipe (t.map Object.other) .stdin).2 .stdout
  cases hc₁ : c.pipeStdin with
  | some errno =>
      simp only [launch, hc₁, failed]
      exact ⟨trivial, fun _ => rfl⟩
  | none =>
      cases hc₂ : c.pipeStdout with
      | some errno =>
          simp only [launch, hc₁, hc₂, failed]
          refine ⟨trivial, fun fd => ?_⟩
          exact entry_close_close hstdin.fresh₁ hstdin.fresh₂ (hstdin.frame fd)
      | none =>
          cases hc₃ : c.fork with
          | some errno =>
              simp only [launch, hc₁, hc₂, hc₃, failed]
              refine ⟨trivial, fun fd => ?_⟩
              refine entry_close_close (hstdin.entry_eq_none hstdout.fresh₁)
                (hstdin.entry_eq_none hstdout.fresh₂) fun h₃ h₄ => ?_
              refine entry_close_close hstdin.fresh₁ hstdin.fresh₂ fun h₁ h₂ => ?_
              exact (hstdout.frame fd h₃ h₄).trans (hstdin.frame fd h₁ h₂)
          | none =>
              exact absurd (result_launch_eq_nothing_iff.mpr ⟨hc₁, hc₂, hc₃⟩) h

end Launching

section Arguments

variable {t : Table α} {c : Calls} {process : StringView} {args : List StringView}

/-- What `execv` reads as the arguments, up to the first null pointer. -/
def argStrings : List (Option CharPtr) → List (Option (List Byte))
  | some p :: rest => p.cString :: argStrings rest
  | none :: _ => []
  | [] => []

/--
The path and the arguments are the views, and for each of them only its bytes and a
zero byte behind it are read.
-/
structure Exact (child : Child α) (process : StringView) (args : List StringView) : Prop where
  path : child.path.cString = some process.content
  argv : argStrings child.argv = (process :: args).map fun v => some v.content
  reads : ∀ v ∈ process :: args, ∀ k < v.data.reads,
    k < v.length ∨ (k = v.length ∧ v.Terminated)

theorem argStrings_append_none (views : List StringView) :
    argStrings (views.map (fun v => some v.data) ++ [none]) =
      views.map fun v => v.data.cString := by
  induction views with
  | nil =>
      rfl
  | cons v views ih =>
      exact congrArg (v.data.cString :: ·) ih

theorem StringView.length_le (v : StringView) :
    v.length ≤ v.data.bytes.length := by
  have hwithin := v.within
  rw [CharPtr.bytes, List.length_drop]
  exact Nat.le_sub_of_add_le (by rwa [Nat.add_comm])

/-- A view without zero bytes is a C string exactly if a zero byte follows. -/
theorem StringView.cString_eq_iff
    {v : StringView}
    (hzero : 0 ∉ v.content) :
    v.data.cString = some v.content ↔ v.Terminated :=
  cString_eq_take_iff v.length_le hzero

theorem StringView.reads_eq
    {v : StringView}
    (hzero : 0 ∉ v.content)
    (h : v.Terminated) :
    v.data.reads = v.length + 1 :=
  cStringReads_of_getElem? hzero h

/--
The child gets exactly the given arguments, and nothing else is read, exactly if each
of the views is followed by a zero byte in its buffer.
-/
theorem arguments_exact_iff
    {child : Child α}
    (hchild : (launch t c process args).child = some child)
    (hzero : ∀ v ∈ process :: args, 0 ∉ v.content) :
    Exact child process args ↔ ∀ v ∈ process :: args, v.Terminated := by
  have hresult : (launch t c process args).result = .nothing := by
    by_contra hfailed
    rw [(entry_launch_failed hfailed).1] at hchild
    exact absurd hchild (Option.some_ne_none child).symm
  obtain ⟨stdinFds, stdoutFds, t₁, t₂, hl⟩ := succeeded_launch hresult
  obtain rfl := Option.some.inj (hchild.symm.trans hl.child)
  have hargv := argStrings_append_none (process :: args)
  constructor
  · intro h v hv
    have hstrings : (process :: args).map (fun v => v.data.cString) =
        (process :: args).map fun v => some v.content := hargv.symm.trans h.argv
    exact (v.cString_eq_iff (hzero v hv)).mp (List.map_inj_left.mp hstrings v hv)
  · intro h
    have hstring : ∀ v ∈ process :: args, v.data.cString = some v.content := fun v hv =>
      (v.cString_eq_iff (hzero v hv)).mpr (h v hv)
    refine ⟨hstring process List.mem_cons_self, ?_, ?_⟩
    · exact hargv.trans (List.map_congr_left hstring)
    · intro v hv k hk
      rw [v.reads_eq (hzero v hv) (h v hv)] at hk
      rcases Nat.lt_or_eq_of_le (Nat.le_of_lt_succ hk) with hlt | heq
      · exact Or.inl hlt
      · exact Or.inr ⟨heq, h v hv⟩

/-- `launch("a", {"a"})` with literals. -/
theorem arguments_exact_literalA :
    Exact ((launch standardOpen callsSucceed literalA [literalA]).child.get (by rfl))
      literalA [literalA] := by
  refine (arguments_exact_iff (Option.some_get _).symm ?_).mpr ?_ <;>
    · intro v hv
      obtain rfl : v = literalA := by simpa using hv
      decide

/-- The first byte of "ab". -/
def partOfAB : StringView where
  buffer := [97, 98, 0]
  offset := 0
  length := 1
  within := by decide

theorem not_arguments_exact :
    ¬ ∀ (t : Table Unit) (c : Calls) (process : StringView) (args : List StringView)
      (child : Child Unit), (launch t c process args).child = some child →
      (∀ v ∈ process :: args, 0 ∉ v.content) → Exact child process args := by
  intro h
  have hexact := h standardOpen callsSucceed literalA [partOfAB] _ rfl (by decide)
  exact absurd hexact.argv (by decide)

end Arguments

end Launch
end Ptl

import Ptl.CasLoop
import Ptl.PackedPtr

/-!
# `AtomicPackedPtr`

A pointer and a value share one atomic word.  `set` and `set_value` replace their field
in a loop around `compare_exchange_weak`; `get` and `value` load the word once.  This
module embeds the primary template and the specialisation for `bool` as programs of any
number of threads.  The `reinterpret_cast` of the shifted word to the value type does not
compile; it is read as a conversion.

**Results.**
* `AtomicLayout.updates_not_lost`: every call takes effect exactly once, in its own
  field, and both getters return the argument of the last such step.
* `getAdd_never_adds`: `get_add` shifts an `int` by 48, which leaves the value of the
  expression open; whatever the word and the delta, the step may go wrong.
-/

namespace Ptl
namespace PackedPtr

open Words Transition CasLoop

/-- The two templates of `AtomicPackedPtr`. -/
inductive AtomicLayout where
  | value (V : ValueType)
  | bool

namespace AtomicLayout

def Value : AtomicLayout → Type
  | value V => BitVec V.bits
  | bool => Bool

/-- The position of the value, a literal in the sources. -/
def base : AtomicLayout → Nat
  | value _ => 48
  | bool => 63

/-- `(uintptr_t)v`. -/
def widen : (L : AtomicLayout) → L.Value → BitVec 64
  | value V, v => V.widen v
  | bool, b => boolWord b

/-- The conversion of the shifted word to the value type. -/
def narrow : (L : AtomicLayout) → BitVec 64 → L.Value
  | value V, x => V.narrow x
  | bool, x => decide (x ≠ 0)

/-- `-1ULL >> 16`. -/
def ptrMask : BitVec 64 :=
  ones >>> 16

/-- `-1ULL << 48`, or `-1ULL << 63`. -/
def highMask (L : AtomicLayout) : BitVec 64 :=
  ones <<< L.base

/-- `value()` for the loaded word. -/
def valueOf (L : AtomicLayout) (data : BitVec 64) : L.Value :=
  L.narrow (data >>> L.base)

/-- The word that `set_value` tries to store. -/
def setValueDesired (L : AtomicLayout) (v : L.Value) (expected : BitVec 64) : BitVec 64 :=
  (L.widen v <<< L.base) ||| (expected &&& ptrMask)

/-- `get()` for the loaded word. -/
def getOf (data : BitVec 64) : BitVec 64 :=
  data &&& ptrMask

/-- The word that `set` tries to store. -/
def setDesired (L : AtomicLayout) (ptr expected : BitVec 64) : BitVec 64 :=
  (ptr &&& ptrMask) ||| (expected &&& L.highMask)

theorem base_eq (L : AtomicLayout) :
    L.base = 48 ∨ L.base = 63 := by
  cases L <;> simp [base]

theorem highMask_and_ptrMask (L : AtomicLayout) :
    ptrMask &&& L.highMask = 0 := by
  rw [highMask]
  rcases L.base_eq with h | h
  · rw [h]
    decide
  · rw [h]
    decide

/-- A shifted value has no bit among those of the pointer. -/
theorem shift_and_ptrMask (L : AtomicLayout) (x : BitVec 64) :
    x <<< L.base &&& ptrMask = 0 := by
  have hbase : 48 ≤ L.base := by
    rcases L.base_eq with h | h <;> omega
  apply BitVec.eq_of_getLsbD_eq
  intro i hi
  simp only [ptrMask, BitVec.getLsbD_and, BitVec.getLsbD_shiftLeft, BitVec.getLsbD_ushiftRight,
    getLsbD_ones]
  rcases Nat.lt_or_ge i 48 with h | h
  · simp [show i < L.base by omega]
  · simp [show ¬16 + i < 64 by omega]

theorem setValueDesired_eq_store (L : AtomicLayout) (v : L.Value) (data : BitVec 64) :
    L.setValueDesired v data = store (~~~ptrMask) (L.widen v <<< L.base) data :=
  or_and_eq_store (L.shift_and_ptrMask (L.widen v)) data

theorem setDesired_eq_store (L : AtomicLayout) (ptr data : BitVec 64) :
    L.setDesired ptr data = store (~~~L.highMask) (ptr &&& ptrMask) data := by
  refine or_and_eq_store ?_ data
  rw [BitVec.and_assoc, L.highMask_and_ptrMask]
  exact BitVec.and_zero

theorem reads_valueOf (L : AtomicLayout) :
    Reads L.valueOf L.highMask := by
  intro data
  exact congrArg L.narrow (and_high_shift data L.base)

theorem reads_getOf :
    Reads getOf ptrMask := by
  intro data
  exact and_and data ptrMask

theorem narrow_widen (L : AtomicLayout) (v : L.Value) :
    L.narrow (L.widen v <<< L.base >>> L.base) = v := by
  cases L with
  | value V =>
      exact V.narrow_shift v
  | bool =>
      cases v <;> rfl

/-- The bits that a getter looks at. -/
def bits (L : AtomicLayout) : Half → BitVec 64
  | .ptr => ptrMask
  | .value => L.highMask

/-- The bits that an exchange replaces. -/
def written (L : AtomicLayout) : Half → BitVec 64
  | .ptr => ~~~L.highMask
  | .value => ~~~ptrMask

def encode (L : AtomicLayout) : (k : Half) → Half.Arg L.Value k → BitVec 64
  | .ptr, p => BitVec.and p ptrMask
  | .value, v => L.widen v <<< L.base

/-- The two fields of the word. -/
def fields (L : AtomicLayout) :
    Fields (BitVec 64) Half (Half.Arg L.Value) (Half.Arg L.Value) :=
  .ofStores
    (fun
      | .ptr => getOf
      | .value => L.valueOf)
    (fun
      | .ptr => L.setDesired
      | .value => L.setValueDesired)
    (fun _ a => a)
    (fun
      | .ptr => fun p => BitVec.toNat p < 2 ^ 48
      | .value => fun _ => True)
    L.encode
    L.bits
    L.written
    (fun
      | .ptr => L.setDesired_eq_store
      | .value => L.setValueDesired_eq_store)
    (fun
      | .ptr => reads_getOf
      | .value => L.reads_valueOf)
    (fun
      | .ptr => and_not_of_disjoint L.highMask_and_ptrMask
      | .value => and_not_of_disjoint (by rw [BitVec.and_comm]; exact L.highMask_and_ptrMask))
    (fun
      | .ptr, .value, _ => BitVec.and_not_self ptrMask
      | .value, .ptr, _ => BitVec.and_not_self L.highMask
      | .ptr, .ptr, h => absurd rfl h
      | .value, .value, h => absurd rfl h)
    (fun
      | .ptr, p, h => (reads_getOf p).trans (ExceptionBool.get_eq h)
      | .value, v, _ => L.narrow_widen v)

/-- `set` and `set_value`, called by any number of threads. -/
def system
    (L : AtomicLayout) (ι : Type) [DecidableEq ι] (word : BitVec 64) :
    System (Config ι (Control (Write (Half.Arg L.Value)) (BitVec 64)) (BitVec 64))
      (Event ι (Write (Half.Arg L.Value)) (BitVec 64)) :=
  CasLoop.system (fun c expected desired => desired = L.fields.set c.1 c.2 expected) word

instance decidableEqValue : (L : AtomicLayout) → DecidableEq L.Value
  | value V => inferInstanceAs (DecidableEq (BitVec V.bits))
  | bool => inferInstanceAs (DecidableEq Bool)

instance decidableSystemGuard
    (L : AtomicLayout) (ι : Type) [DecidableEq ι] (word : BitVec 64)
    (s : Config ι (Control (Write (Half.Arg L.Value)) (BitVec 64)) (BitVec 64))
    (e : Event ι (Write (Half.Arg L.Value)) (BitVec 64)) :
    Decidable ((L.system ι word).guard s e) :=
  CasLoop.decidableSystemGuard _ word s e

section Runs

variable {L : AtomicLayout} {ι : Type} [DecidableEq ι] {word : BitVec 64}
variable {tr : List (Event ι (Write (Half.Arg L.Value)) (BitVec 64))}
variable {s : Config ι (Control (Write (Half.Arg L.Value)) (BitVec 64)) (BitVec 64)}

/-- What a getter returns after the operations that a trace has applied. -/
def current
    (L : AtomicLayout) (word : BitVec 64)
    (tr : List (Event ι (Write (Half.Arg L.Value)) (BitVec 64)))
    (k : Half) : Half.Arg L.Value k :=
  (last k (applied tr)).getD (L.fields.get k word)

/-- The word holds the last pointer and the last value that were exchanged into it. -/
theorem get_shared
    (hrun : (L.system ι word).Run tr s)
    (hfits : ∀ c ∈ applied tr, L.fields.fits c.1 c.2)
    (k : Half) :
    L.fields.get k s.shared = current L word tr k := by
  have hword : s.shared = L.fields.run (applied tr) word :=
    word_eq_foldl (fun _ _ _ h => h) hrun
  rw [hword, L.fields.get_run k word fun c hc _ => hfits c hc, current]
  cases last k (applied tr) <;> rfl

omit [DecidableEq ι] in
theorem applied_subset
    {pre : List (Event ι (Write (Half.Arg L.Value)) (BitVec 64))}
    (h : pre <+: tr) :
    applied pre ⊆ applied tr :=
  (h.filterMap Event.applied).subset

/-- A completed call changes its own field in its only exchange, and nothing else. -/
theorem call_changes_field
    {pre mid : List (Event ι (Write (Half.Arg L.Value)) (BitVec 64))}
    {i : ι} {c : Write (Half.Arg L.Value)}
    {e : Event ι (Write (Half.Arg L.Value)) (BitVec 64)}
    (hcall : (loops fun c expected desired => desired = L.fields.set c.1 c.2 expected).Call
      .idle tr pre mid (.call i c) e)
    (hrun : (L.system ι word).Run tr s)
    (hfits : ∀ c ∈ applied tr, L.fields.fits c.1 c.2) :
    ∃ s₀ desired,
      (L.system ι word).Run (pre ++ [.call i c] ++ mid) s₀ ∧
      e = .exchange i c s₀.shared desired ∧
      (∀ f ∈ mid, f.actor = i → f.applied = none) ∧
      L.fields.get c.1 desired = c.2 ∧
      ∀ k, k ≠ c.1 → L.fields.get k desired = L.fields.get k s₀.shared := by
  obtain ⟨expected, desired, rfl, rfl, honly, s₀, hrun₀, rfl⟩ := call_exchanges_once hcall hrun
  obtain ⟨fs, rfl⟩ := hcall.trace
  have hmem : c ∈ applied (pre ++ [.call i c] ++ mid ++
      .exchange i c s₀.shared (L.fields.set c.1 c.2 s₀.shared) :: fs) :=
    List.mem_filterMap.mpr
      ⟨_, List.mem_append_right _ List.mem_cons_self, rfl⟩
  exact
    ⟨s₀, _, hrun₀, rfl, honly, L.fields.get_set c.1 c.2 s₀.shared (hfits c hmem),
      fun k hk => L.fields.get_set_of_ne k c.1 c.2 s₀.shared hk⟩

/--
In every interleaving of calls with pointers below 2^48: the word holds the last pointer
and the last value that were exchanged into it, the getters return them, and every
completed call has changed its own field exactly once, in its last step.
-/
theorem updates_not_lost
    (hrun : (L.system ι word).Run tr s)
    (hptr : ∀ p : BitVec 64,
      (⟨.ptr, p⟩ : Write (Half.Arg L.Value)) ∈ applied tr → p.toNat < 2 ^ 48) :
    (∀ k, L.fields.get k s.shared = current L word tr k) ∧
    (∀ pre i seen, pre ++ [.read i seen] <+: tr →
      ∀ k, L.fields.get k seen = current L word pre k) ∧
    ∀ pre mid i c e,
      (loops fun c expected desired => desired = L.fields.set c.1 c.2 expected).Call
        .idle tr pre mid (.call i c) e →
      ∃ s₀ desired,
        (L.system ι word).Run (pre ++ [.call i c] ++ mid) s₀ ∧
        e = .exchange i c s₀.shared desired ∧
        (∀ f ∈ mid, f.actor = i → f.applied = none) ∧
        L.fields.get c.1 desired = c.2 ∧
        ∀ k, k ≠ c.1 → L.fields.get k desired = L.fields.get k s₀.shared := by
  have hfits : ∀ c ∈ applied tr, L.fields.fits c.1 c.2 := by
    rintro ⟨k, a⟩ hc
    cases k with
    | ptr =>
        exact hptr a hc
    | value =>
        exact trivial
  refine ⟨get_shared hrun hfits, ?_, ?_⟩
  · rintro pre i seen ⟨fs, rfl⟩ k
    obtain ⟨s₁, hread, -, -⟩ := hrun.split
    obtain ⟨s₀, hrun₀, rfl⟩ := read_eq hread
    have hsub : applied pre ⊆ applied (pre ++ [.read i s₀.shared] ++ fs) :=
      applied_subset ⟨[.read i s₀.shared] ++ fs, by simp⟩
    exact get_shared hrun₀ (fun c hc => hfits c (hsub hc)) k
  · intro pre mid i c e hcall
    exact call_changes_field hcall hrun hfits

/-- Two threads; the exchange of the second one fails once. -/
def twoSetters : List (Event Bool (Write (Half.Arg (value .uint16).Value)) (BitVec 64)) :=
  [.call false ⟨.ptr, 0x1008#64⟩, .call true ⟨.value, 3#16⟩,
    .load false ⟨.ptr, 0x1008#64⟩ 0, .load true ⟨.value, 3#16⟩ 0,
    .exchange false ⟨.ptr, 0x1008#64⟩ 0 0x1008,
    .retry true ⟨.value, 3#16⟩ 0 0x1008,
    .exchange true ⟨.value, 3#16⟩ 0x1008 0x3000000001008,
    .read false 0x3000000001008]

theorem updates_not_lost_twoSetters :
    getOf 0x3000000001008 = 0x1008 ∧ (value .uint16).valueOf 0x3000000001008 = 3#16 := by
  have hrun : ((value .uint16).system Bool 0).Run twoSetters _ :=
    .of_enabled rfl (by decide +kernel)
  have hptr : ∀ p : BitVec 64,
      (⟨.ptr, p⟩ : Write (Half.Arg (value .uint16).Value)) ∈ applied twoSetters →
        p.toNat < 2 ^ 48 := by
    intro p hp
    rcases List.mem_cons.mp hp with h | h
    · cases h
      decide
    · cases List.mem_singleton.mp h
  obtain ⟨-, hread, -⟩ := updates_not_lost hrun hptr
  have hlast := hread (twoSetters.take 7) false 0x3000000001008 ⟨[], rfl⟩
  exact ⟨hlast .ptr, hlast .value⟩

end Runs

end AtomicLayout

section GetAdd

/-- The integral promotion of a value to `int`. -/
def ValueType.promote (V : ValueType) (v : BitVec V.bits) : BitVec 32 :=
  if V.signed then v.signExtend 32 else v.setWidth 32

/-- The value of `x << n` for an `int`; only a shift by less than the width is defined. -/
def ShiftsTo (x : BitVec 32) (n : Nat) (y : BitVec 32) : Prop :=
  n < 32 → y = x <<< n

namespace GetAdd

variable (V : ValueType)

/-- The value field of a word, which `get_add` reads as `value()` does. -/
def old (expected : BitVec 64) : BitVec V.bits :=
  V.narrow (expected >>> 48)

def newValue (delta : BitVec V.bits) (expected : BitVec 64) : BitVec V.bits :=
  old V expected + delta

/-- The word that is made of the pointer and an `int`, converted to `uintptr_t`. -/
def repack (expected : BitVec 64) (y : BitVec 32) : BitVec 64 :=
  (expected &&& AtomicLayout.ptrMask) ||| y.signExtend 64

/-- The words that `get_add` may try to store. -/
def Desired (delta : BitVec V.bits) (expected desired : BitVec 64) : Prop :=
  ∃ y, ShiftsTo (V.promote (newValue V delta expected)) 48 y ∧ desired = repack expected y

/-- The step from `before` to `after` leaves the pointer alone and adds to the value. -/
def FetchAdds (delta : BitVec V.bits) (before after : BitVec 64) : Prop :=
  AtomicLayout.getOf after = AtomicLayout.getOf before ∧
    old V after = old V before + delta

/-- Of an `int` only the sign reaches the bits of the value. -/
theorem old_repack (expected : BitVec 64) (y : BitVec 32) :
    old V (repack expected y) =
      if y.msb then BitVec.allOnes V.bits else 0#V.bits := by
  have hbits := V.bits_le
  apply BitVec.eq_of_getLsbD_eq
  intro i hi
  have hsign : (y.signExtend 64).getLsbD (48 + i) = y.msb := by
    rw [BitVec.getLsbD_signExtend, if_neg (by omega), decide_eq_true (by omega), Bool.true_and]
  have hmask : AtomicLayout.ptrMask.getLsbD (48 + i) = false := by
    rw [AtomicLayout.ptrMask, BitVec.getLsbD_ushiftRight, getLsbD_ones]
    exact decide_eq_false (by omega)
  rw [old, ValueType.narrow, BitVec.getLsbD_setWidth, decide_eq_true hi, Bool.true_and,
    BitVec.getLsbD_ushiftRight, repack, BitVec.getLsbD_or, BitVec.getLsbD_and, hmask, hsign,
    Bool.and_false, Bool.false_or]
  cases y.msb with
  | true =>
      simp [hi]
  | false =>
      simp

/-- A step can only be right if the new value is zero or has all bits set. -/
theorem FetchAdds.newValue_eq
    {delta : BitVec V.bits} {expected : BitVec 64} {y : BitVec 32}
    (h : FetchAdds V delta expected (repack expected y)) :
    newValue V delta expected = if y.msb then BitVec.allOnes V.bits else 0#V.bits := by
  rw [← old_repack V expected y]
  exact h.2.symm

/-- Some value of the shift makes the step wrong, whatever the word and the delta are. -/
theorem exists_not_fetchAdds (delta : BitVec V.bits) (expected : BitVec 64) :
    ∃ desired, Desired V delta expected desired ∧ ¬FetchAdds V delta expected desired := by
  rcases eq_or_ne (newValue V delta expected) 0#V.bits with hzero | hne
  · refine ⟨repack expected (-1), ⟨-1, fun h => absurd h (by decide), rfl⟩, ?_⟩
    intro h
    have hones := h.newValue_eq
    rw [if_pos (by decide), hzero] at hones
    have hbit := congrArg (fun x => x.getLsbD 0) hones
    have hpos : 0 < V.bits := by
      have hsize := V.size
      omega
    simp [hpos] at hbit
  · refine ⟨repack expected 0, ⟨0, fun h => absurd h (by decide), rfl⟩, ?_⟩
    intro h
    have hzero := h.newValue_eq
    rw [if_neg (by decide)] at hzero
    exact hne hzero

end GetAdd

/-- The calls that change the word. -/
inductive Operation (V : ValueType) where
  | write (c : Write (Half.Arg (BitVec V.bits)))
  | getAdd (delta : BitVec V.bits)

/-- The word that an operation tries to store. -/
def Operation.Computes (V : ValueType) : Operation V → BitVec 64 → BitVec 64 → Prop
  | write c, expected, desired => desired = (AtomicLayout.value V).fields.set c.1 c.2 expected
  | getAdd delta, expected, desired => GetAdd.Desired V delta expected desired

/-- `get_add`, `set` and `set_value`, called by any number of threads. -/
def getAddSystem
    (V : ValueType) (ι : Type) [DecidableEq ι] (word : BitVec 64) :
    System (Config ι (Control (Operation V) (BitVec 64)) (BitVec 64))
      (Event ι (Operation V) (BitVec 64)) :=
  CasLoop.system (Operation.Computes V) word

/--
In every interleaving, whatever the word and the delta are: where `get_add` makes its
exchange it may as well store a word that is not the fetch-add.
-/
theorem getAdd_never_adds
    {V : ValueType} {ι : Type} [DecidableEq ι] {word : BitVec 64}
    {pre : List (Event ι (Operation V) (BitVec 64))}
    {i : ι} {delta : BitVec V.bits} {expected desired : BitVec 64}
    {s : Config ι (Control (Operation V) (BitVec 64)) (BitVec 64)}
    (hrun : (getAddSystem V ι word).Run
      (pre ++ [.exchange i (.getAdd delta) expected desired]) s) :
    ∃ desired' s',
      (getAddSystem V ι word).Run
        (pre ++ [.exchange i (.getAdd delta) expected desired']) s' ∧
      ¬GetAdd.FetchAdds V delta expected s'.shared := by
  obtain ⟨s₀, hrun₀, ⟨⟨hpc, hword, -⟩, -⟩, -⟩ := hrun.split
  obtain ⟨desired', hdesired, hwrong⟩ := GetAdd.exists_not_fetchAdds V delta expected
  have hguard : (getAddSystem V ι word).guard s₀
      (.exchange i (.getAdd delta) expected desired') :=
    ⟨hpc, hword, hdesired⟩
  exact ⟨desired', _, hrun₀.step _ hguard, hwrong⟩

/-- One call for the word zero; the machine shifts by 48 modulo 32. -/
def addOne : List (Event Unit (Operation .uint16) (BitVec 64)) :=
  [.call () (.getAdd 1#16), .load () (.getAdd 1#16) 0]

theorem addOne_run :
    ∃ s, (getAddSystem .uint16 Unit 0).Run (addOne ++ [.exchange () (.getAdd 1#16) 0 0x10000]) s ∧
      s.shared = 0x10000 := by
  refine ⟨_, .of_enabled rfl ?_, rfl⟩
  refine ⟨⟨rfl, trivial⟩, ⟨rfl, rfl⟩, ⟨rfl, rfl, 1#32 <<< 16, ?_, by decide⟩, trivial⟩
  exact fun h => absurd h (by decide)

theorem getAdd_never_adds_addOne :
    ∃ desired s,
      (getAddSystem .uint16 Unit 0).Run (addOne ++ [.exchange () (.getAdd 1#16) 0 desired]) s ∧
        ¬GetAdd.FetchAdds .uint16 1#16 0 s.shared := by
  obtain ⟨s, hrun, -⟩ := addOne_run
  exact getAdd_never_adds hrun

/-- The value is still zero, and the pointer has changed. -/
theorem getAdd_moves_pointer :
    ∃ s, (getAddSystem .uint16 Unit 0).Run (addOne ++ [.exchange () (.getAdd 1#16) 0 0x10000]) s ∧
      AtomicLayout.getOf s.shared = 0x10000 ∧ GetAdd.old .uint16 s.shared = 0#16 ∧
      ¬GetAdd.FetchAdds .uint16 1#16 0 s.shared := by
  obtain ⟨s, hrun, hshared⟩ := addOne_run
  refine ⟨s, hrun, ?_⟩
  rw [hshared]
  exact ⟨by decide, rfl, fun h => (by decide : 0#16 ≠ 1#16) h.2⟩

end GetAdd

end PackedPtr
end Ptl

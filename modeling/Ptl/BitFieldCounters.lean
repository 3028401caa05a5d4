import Ptl.BitField
import Ptl.TransitionSystem
import Mathlib.Logic.Function.Basic

/-!
# Bit fields as counters

The members of a bit field type over an unsigned type share one word.  Beside the word, this
module keeps one natural number for every member, and applies every operation whose assertion
holds to both.

**Results.**
* `apply_spec`: an operation stays in its member, and changes it as the number, modulo `2 ^ w`.
* `counters_agree_iff`: the members read as the numbers throughout a run exactly if no `+=`
  is called with a sum that wraps around in `T`.
-/

namespace Ptl
namespace BitField

open Integers IntType BitRange Transition

universe u

/-- The operations, with the argument of type `T`. -/
inductive Operation (t : IntType) where
  | assign (v : t.Value)
  | increase (v : t.Value)
  | decrease (v : t.Value)
  | increment
  | decrement
deriving DecidableEq

namespace Operation

variable (int : Nat) {t : IntType} (m : Member t) (value : t.Value)

def asserted : Operation t → Option Bool
  | assign v => assignable int m v
  | increase v => increasable int m value v
  | decrease v => decreasable int m value v
  | increment => increasable int m value (t.ofInt 1)
  | decrement => decreasable int m value (t.ofInt 1)

def apply : Operation t → Option t.Value
  | assign v => BitField.assign int m value v
  | increase v => BitField.increase int m value v
  | decrease v => BitField.decrease int m value v
  | increment => BitField.increase int m value (t.ofInt 1)
  | decrement => BitField.decrease int m value (t.ofInt 1)

/-- The same operation on a natural number. -/
def onCounter : Operation t → Nat → Nat
  | assign v, _ => v.toNat
  | increase v, x => x + v.toNat
  | decrease v, x => x - v.toNat
  | increment, x => x + 1
  | decrement, x => x - 1

end Operation

section Steps

variable {int : Nat} {t : IntType} {m : Member t} {value : t.Value}

/-- The sum that the assertion of `+=` compares wraps around in a type that is not promoted. -/
theorem sum_mod_lt
    (hunsigned : t.signed = false)
    {x : Nat} {sum : (t.promote int).Value}
    (hsum : (t.promote int).result false x = some sum)
    (hlt : (t.promote int).toInt sum < 2 ^ m.bits) :
    x % 2 ^ t.bits < 2 ^ m.bits ∧ (t.bits < int → x < 2 ^ m.bits) := by
  have hval := result_eq_some hsum
  by_cases hint : t.bits < int
  · have hin : (t.promote int).InRange x := by
      rw [← isSome_result_iff (signed_promote_of_lt hint), hsum]
      rfl
    rw [hval, toInt_ofInt hin] at hlt
    have hx : x < 2 ^ m.bits := by exact_mod_cast hlt
    exact ⟨(Nat.mod_le _ _).trans_lt hx, fun _ => hx⟩
  · have hp := promote_of_not_lt hint
    have hbits : (t.promote int).bits = t.bits := congrArg IntType.bits hp
    rw [toInt_of_unsigned (by rw [hp, hunsigned]), hval, ofInt, BitVec.ofInt_natCast,
      BitVec.toNat_ofNat, hbits] at hlt
    exact ⟨by exact_mod_cast hlt, fun h => absurd h hint⟩

/-- A shifted argument that fits into the member keeps its value. -/
theorem shiftedValue_eq
    (hunsigned : t.signed = false)
    {v : t.Value}
    (hv : v.toNat < 2 ^ m.bits) :
    shiftedValue int m v = (v.toNat * 2 ^ m.offset : Nat) := by
  have hle := t.bits_le_promote int
  have hbound : v.toNat * 2 ^ m.offset < 2 ^ t.bits := by
    calc v.toNat * 2 ^ m.offset
        < 2 ^ m.bits * 2 ^ m.offset := Nat.mul_lt_mul_of_pos_right hv (Nat.two_pow_pos _)
      _ = 2 ^ (m.offset + m.bits) := by rw [← Nat.pow_add, Nat.add_comm]
      _ ≤ 2 ^ t.bits := Nat.pow_le_pow_right Nat.two_pos m.offset_add_bits_le
  have hpromoted : (promoted int v).toNat = v.toNat := by
    rw [promoted, convert, toInt_of_unsigned hunsigned, ofInt, BitVec.ofInt_natCast,
      BitVec.toNat_ofNat]
    exact Nat.mod_eq_of_lt (v.isLt.trans_le (Nat.pow_le_pow_right Nat.two_pos hle))
  have hpattern : (promoted int v <<< m.offset).toNat = v.toNat * 2 ^ m.offset := by
    rw [BitVec.toNat_shiftLeft, hpromoted, Nat.shiftLeft_eq]
    exact Nat.mod_eq_of_lt (hbound.trans_le (Nat.pow_le_pow_right Nat.two_pos hle))
  rw [shiftedValue, toInt_promote_of_unsigned hunsigned (by rwa [hpattern]), hpattern]

/-- The operation has a result that differs from the word in the member only, where it is `x`. -/
def Sets (m : Member t) (value : t.Value) (result : Option t.Value) (x : Nat) : Prop :=
  ∃ y, result = some y ∧ SameOutside m.offset m.bits value y ∧ field m.offset m.bits y = x

theorem assign_sets
    (hunsigned : t.signed = false)
    (hoffset : m.offset < t.bits)
    {v : t.Value}
    (h : assignable int m v = some true) :
    Sets m value (assign int m value v) v.toNat := by
  obtain ⟨hmask, hlt⟩ := assignable_iff.mp h
  rw [toInt_of_unsigned hunsigned] at hlt
  have hv : v.toNat < 2 ^ m.bits := by exact_mod_cast hlt
  exact ⟨_, assign_eq hmask (hoffset.trans_le (t.bits_le_promote int)),
    sameOutside_insert_of_lt hv, field_insert m.offset_add_bits_le hv⟩

/-- The sum wraps around at `2 ^ w`, and yet stays in the member. -/
theorem increase_sets
    (hunsigned : t.signed = false)
    {v : t.Value}
    (h : increasable int m value v = some true) :
    Sets m value (increase int m value v)
      ((field m.offset m.bits value + v.toNat) % 2 ^ t.bits) := by
  obtain ⟨-, hoffset, sum, hsum, hlt⟩ := increasable_iff.mp h
  rw [toInt_of_unsigned hunsigned] at hsum
  obtain ⟨hmod, hexact⟩ := sum_mod_lt hunsigned (by exact_mod_cast hsum) hlt
  have hfit := m.offset_add_bits_le
  have hmem : ((field m.offset m.bits value : Int) + v.toNat) % 2 ^ (t.bits - m.offset) =
      ((field m.offset m.bits value + v.toNat) % 2 ^ t.bits : Nat) := by
    have hdvd : (2 : Int) ^ (t.bits - m.offset) ∣ 2 ^ t.bits := pow_dvd_pow _ (Nat.sub_le ..)
    have hle : 2 ^ m.bits ≤ 2 ^ (t.bits - m.offset) :=
      Nat.pow_le_pow_right Nat.two_pos (by omega)
    rw [← Int.emod_emod_of_dvd _ hdvd]
    norm_cast
    exact Nat.mod_eq_of_lt (hmod.trans_le hle)
  have hdefined : ∃ z, (t.promote int).result false (t.toInt value + shiftedValue int m v) =
      some z := by
    by_cases hint : t.bits < int
    · have hcarry := hexact hint
      have hv : v.toNat < 2 ^ m.bits := by omega
      have hword := add_lt_of_field hfit hcarry
      rw [shiftedValue_eq hunsigned hv, toInt_of_unsigned hunsigned]
      exact ⟨_, result_promote (inRange_of_unsigned hunsigned (by omega) (by exact_mod_cast hword))⟩
    · exact ⟨_, result_of_unsigned (by rw [promote_of_not_lt hint, hunsigned]) _⟩
  obtain ⟨z, hz⟩ := hdefined
  refine ⟨_, by rw [increase_eq hoffset, hz, Option.map_some], ?_⟩
  rw [toInt_of_unsigned hunsigned]
  exact sameOutside_and_field_add hfit hmem hmod

theorem decrease_sets
    (hunsigned : t.signed = false)
    {v : t.Value}
    (h : decreasable int m value v = some true) :
    Sets m value (decrease int m value v) (field m.offset m.bits value - v.toNat) := by
  obtain ⟨-, hoffset, hle⟩ := decreasable_iff.mp h
  rw [toInt_of_unsigned hunsigned] at hle
  have hv : v.toNat ≤ field m.offset m.bits value := by exact_mod_cast hle
  have hbelow := field_lt m.offset m.bits value
  have hfit := m.offset_add_bits_le
  have hborrow := mul_le_of_le_field hv
  have hmem : ((field m.offset m.bits value : Int) + -(v.toNat : Int)) %
      2 ^ (t.bits - m.offset) = (field m.offset m.bits value - v.toNat : Nat) := by
    have hpow : 2 ^ m.bits ≤ 2 ^ (t.bits - m.offset) :=
      Nat.pow_le_pow_right Nat.two_pos (by omega)
    rw [← sub_eq_add_neg, ← Nat.cast_sub hv]
    exact_mod_cast Nat.mod_eq_of_lt (by omega : _ < 2 ^ (t.bits - m.offset))
  have hdefined : ∃ z, (t.promote int).result false (t.toInt value - shiftedValue int m v) =
      some z := by
    have hword := value.isLt
    rw [shiftedValue_eq hunsigned (hv.trans_lt hbelow), toInt_of_unsigned hunsigned]
    refine ⟨_, result_promote (inRange_of_unsigned hunsigned ?_ ?_)⟩
    · rw [Int.sub_nonneg]
      exact_mod_cast hborrow
    · have hcast : (value.toNat : Int) < 2 ^ t.bits := by exact_mod_cast hword
      omega
  obtain ⟨z, hz⟩ := hdefined
  refine ⟨_, by rw [decrease_eq hoffset, hz, Option.map_some], ?_⟩
  rw [toInt_of_unsigned hunsigned]
  exact sameOutside_and_field_add hfit hmem ((Nat.sub_le ..).trans_lt hbelow)

theorem field_lt_two_pow (m : Member t) (value : t.Value) :
    field m.offset m.bits value < 2 ^ t.bits :=
  (field_lt ..).trans (Nat.pow_lt_pow_right (by decide) m.bits_lt_bits)

/-- An operation changes its member as the natural number, modulo `2 ^ w`. -/
theorem apply_spec
    (hunsigned : t.signed = false)
    (hpos : 1 ≤ m.bits)
    {op : Operation t}
    (h : op.asserted int m value = some true) :
    Sets m value (op.apply int m value)
      (op.onCounter (field m.offset m.bits value) % 2 ^ t.bits) := by
  have hfit := m.offset_add_bits_le
  have hbelow := field_lt_two_pow m value
  have hone := toNat_one m.one_lt_bits
  cases op with
  | assign v =>
      rw [Operation.onCounter, Nat.mod_eq_of_lt v.isLt]
      exact assign_sets hunsigned (by omega) h
  | increase v =>
      exact increase_sets hunsigned h
  | decrease v =>
      rw [Operation.onCounter, Nat.mod_eq_of_lt ((Nat.sub_le ..).trans_lt hbelow)]
      exact decrease_sets hunsigned h
  | increment =>
      have hsets := increase_sets hunsigned h
      rwa [hone] at hsets
  | decrement =>
      have hsets := decrease_sets hunsigned h
      rw [hone] at hsets
      rwa [Operation.onCounter, Nat.mod_eq_of_lt ((Nat.sub_le ..).trans_lt hbelow)]

end Steps

/-- Disjoint members of at least one bit in a word of type `T`. -/
structure Layout (t : IntType) (ι : Type u) where
  member : ι → Member t
  bits_pos : ∀ i, 1 ≤ (member i).bits
  disjoint : ∀ i j, i ≠ j →
    (member i).offset + (member i).bits ≤ (member j).offset ∨
      (member j).offset + (member j).bits ≤ (member i).offset

/-- The word, and one number for every member. -/
structure State (t : IntType) (ι : Type u) where
  value : t.Value
  counters : ι → Nat

section Runs

variable (int : Nat) {t : IntType} {ι : Type u} (L : Layout t ι)

/-- Reading the member gives the number. -/
def Agrees (s : State t ι) : Prop :=
  ∀ i, (read int (L.member i) s.value).map BitVec.toNat = some (s.counters i)

/-- The numbers start with what the members read. -/
def start (word : t.Value) : State t ι where
  value := word
  counters i := ((read int (L.member i) word).map BitVec.toNat).getD 0

/-- Operations on the members, in any order, as long as their assertions hold. -/
def bitField [DecidableEq ι] (word : t.Value) : System (State t ι) (ι × Operation t) where
  init := fun s => s = start int L word
  guard := fun s e => e.2.asserted int (L.member e.1) s.value = some true
  next := fun s e =>
    { value := (e.2.apply int (L.member e.1) s.value).getD s.value
      counters := Function.update s.counters e.1 (e.2.onCounter (s.counters e.1)) }

/-- The sum that `operator+=` compares with its mask does not wrap around in `T`. -/
def NoWrap (s : State t ι) (e : ι × Operation t) : Prop :=
  match e.2 with
  | .increase v => field (L.member e.1).offset (L.member e.1).bits s.value + v.toNat < 2 ^ t.bits
  | _ => True

end Runs

section Correctness

variable {int : Nat} {t : IntType} {ι : Type u} {L : Layout t ι}

theorem Layout.offset_lt (L : Layout t ι) (i : ι) : (L.member i).offset < t.bits := by
  have hfit := (L.member i).offset_add_bits_le
  have hpos := L.bits_pos i
  omega

theorem read_toNat
    (hunsigned : t.signed = false)
    (i : ι) (value : t.Value) :
    (read int (L.member i) value).map BitVec.toNat =
      some (field (L.member i).offset (L.member i).bits value) := by
  have hoffset := (L.offset_lt i).trans_le (t.bits_le_promote int)
  rw [read_eq (mask0_of_unsigned hunsigned) hoffset, Option.map_some, BitVec.toNat_ofNat,
    Nat.mod_eq_of_lt (field_lt_two_pow ..)]

theorem agrees_iff
    (hunsigned : t.signed = false)
    (s : State t ι) :
    Agrees int L s ↔
      ∀ i, field (L.member i).offset (L.member i).bits s.value = s.counters i := by
  simp only [Agrees, read_toNat hunsigned, Option.some.injEq]

theorem agrees_start
    (hunsigned : t.signed = false)
    (word : t.Value) :
    Agrees int L (start int L word) := by
  intro i
  simp only [start, read_toNat hunsigned, Option.getD_some]

/-- Only the sum of `+=` can reach `2 ^ w`. -/
theorem onCounter_lt_iff (s : State t ι) (e : ι × Operation t) :
    e.2.onCounter (field (L.member e.1).offset (L.member e.1).bits s.value) < 2 ^ t.bits ↔
      NoWrap L s e := by
  obtain ⟨i, op⟩ := e
  have hbelow := field_lt_two_pow (L.member i) s.value
  cases op with
  | assign v => exact iff_of_true v.isLt trivial
  | increase v => exact Iff.rfl
  | decrease v => exact iff_of_true ((Nat.sub_le ..).trans_lt hbelow) trivial
  | increment =>
      have hbits := field_lt (L.member i).offset (L.member i).bits s.value
      have hpow : 2 ^ (L.member i).bits < 2 ^ t.bits :=
        Nat.pow_lt_pow_right (by decide) (L.member i).bits_lt_bits
      have hnext : field (L.member i).offset (L.member i).bits s.value + 1 < 2 ^ t.bits := by
        omega
      exact iff_of_true hnext trivial
  | decrement => exact iff_of_true ((Nat.sub_le ..).trans_lt hbelow) trivial

variable [DecidableEq ι] {word : t.Value} {s : State t ι} {e : ι × Operation t}

theorem agrees_next_iff
    (hunsigned : t.signed = false)
    (hagrees : Agrees int L s)
    (hguard : (bitField int L word).guard s e) :
    Agrees int L ((bitField int L word).next s e) ↔ NoWrap L s e := by
  obtain ⟨y, hy, houtside, hfield⟩ := apply_spec hunsigned (L.bits_pos e.1) hguard
  have hvalue : ((bitField int L word).next s e).value = y := by
    simp only [bitField, hy, Option.getD_some]
  have hcounters : ((bitField int L word).next s e).counters =
      Function.update s.counters e.1 (e.2.onCounter (s.counters e.1)) := rfl
  rw [agrees_iff hunsigned] at hagrees
  rw [agrees_iff hunsigned, ← onCounter_lt_iff, hvalue, hcounters]
  constructor
  · intro h
    have hown := h e.1
    rw [hfield, Function.update_self, ← hagrees e.1] at hown
    rw [← hown]
    exact Nat.mod_lt _ (Nat.two_pow_pos _)
  · intro h i
    rcases eq_or_ne i e.1 with rfl | hne
    · rw [hfield, Function.update_self, Nat.mod_eq_of_lt h, hagrees e.1]
    · rw [Function.update_of_ne hne, ← hagrees i]
      exact field_of_sameOutside houtside (L.disjoint i e.1 hne)

/-- After every part of the run, the members read as the numbers. -/
def AgreesThroughout
    (int : Nat) (L : Layout t ι) (word : t.Value) (tr : List (ι × Operation t)) : Prop :=
  ∀ es fs, tr = es ++ fs →
    Agrees int L ((bitField int L word).exec (start int L word) es)

theorem agreesThroughout_append_singleton (tr : List (ι × Operation t)) :
    AgreesThroughout int L word (tr ++ [e]) ↔
      AgreesThroughout int L word tr ∧
        Agrees int L ((bitField int L word).exec (start int L word) (tr ++ [e])) := by
  constructor
  · intro h
    refine ⟨?_, h (tr ++ [e]) [] (by simp)⟩
    rintro es fs rfl
    exact h es (fs ++ [e]) (by simp)
  · rintro ⟨hpast, hlast⟩ es fs heq
    rcases List.eq_nil_or_concat fs with rfl | ⟨gs, f, rfl⟩
    · rw [List.append_nil] at heq
      rwa [← heq]
    · rw [List.concat_eq_append, ← List.append_assoc] at heq
      exact hpast es gs (List.append_inj' heq rfl).1

/-- In every run, the operation has a result and stays in its member. -/
theorem confined_of_guard
    (hunsigned : t.signed = false)
    (hguard : (bitField int L word).guard s e) :
    Confined (L.member e.1) s.value (e.2.apply int (L.member e.1) s.value) := by
  obtain ⟨y, hy, houtside, -⟩ := apply_spec hunsigned (L.bits_pos e.1) hguard
  exact ⟨y, hy, houtside⟩

/-- Where `T` is promoted, the sum is computed in `int` and does not wrap around. -/
theorem noWrap_of_promoted
    (hunsigned : t.signed = false)
    (hint : t.bits < int)
    (hguard : (bitField int L word).guard s e) :
    NoWrap L s e := by
  obtain ⟨i, op⟩ := e
  cases op with
  | increase v =>
      obtain ⟨-, -, sum, hsum, hlt⟩ := increasable_iff.mp hguard
      rw [toInt_of_unsigned hunsigned] at hsum
      have hexact := (sum_mod_lt hunsigned (by exact_mod_cast hsum) hlt).2 hint
      exact hexact.trans (Nat.pow_lt_pow_right (by decide) (L.member i).bits_lt_bits)
  | assign v => trivial
  | decrease v => trivial
  | increment => trivial
  | decrement => trivial

variable {tr : List (ι × Operation t)}

/--
For every unsigned type, layout and run: the members read as the numbers throughout exactly
if no sum of `+=` wraps around, which does not happen in a type that is promoted; and no
operation changes a bit outside its member, in any case.
-/
theorem counters_agree_iff
    (hunsigned : t.signed = false)
    (hrun : (bitField int L word).Run tr s) :
    (AgreesThroughout int L word tr ↔
      (bitField int L word).Along (NoWrap L) (start int L word) tr) ∧
    (t.bits < int → AgreesThroughout int L word tr) ∧
    System.History (fun es e =>
      let value := ((bitField int L word).exec (start int L word) es).value
      Confined (L.member e.1) value (e.2.apply int (L.member e.1) value)) tr := by
  have hiff : AgreesThroughout int L word tr ↔
      (bitField int L word).Along (NoWrap L) (start int L word) tr := by
    refine System.Run.along_iff (fun _ h => h) ?_ ?_ hrun
    · intro es fs heq
      obtain ⟨rfl, -⟩ := List.append_eq_nil_iff.mp heq.symm
      exact agrees_start hunsigned word
    · intro tr s e hrun hguard
      rw [agreesThroughout_append_singleton, System.exec_append_singleton,
        ← hrun.eq_exec fun _ h => h]
      refine and_congr_right fun hpast => ?_
      have hagrees := hpast tr [] (List.append_nil tr).symm
      rw [← hrun.eq_exec fun _ h => h] at hagrees
      exact agrees_next_iff hunsigned hagrees hguard
  refine ⟨hiff, fun hint => ?_, ?_⟩
  · rw [hiff]
    have hall : True ↔ (bitField int L word).Along (NoWrap L) (start int L word) tr :=
      System.Run.along_iff (A := fun _ => True) (fun _ h => h) trivial
        (fun _ _ _ _ hguard =>
          iff_of_true trivial ⟨trivial, noWrap_of_promoted hunsigned hint hguard⟩) hrun
    exact hall.mp trivial
  · refine System.Run.history (fun tr s e hrun hguard => ?_) hrun
    rw [← hrun.eq_exec fun _ h => h]
    exact confined_of_guard hunsigned hguard

end Correctness

/-- Four bits, and the eight bits above them. -/
def nibbleAndByte : Layout uint32 Bool where
  member
    | false => ⟨0, 4, 4, rfl, by decide, by decide⟩
    | true => ⟨4, 8, 4, rfl, by decide, by decide⟩
  bits_pos i := by cases i <;> decide
  disjoint i j h := by cases i <;> cases j <;> first | exact absurd rfl h | decide

instance (word : uint32.Value) (s : State uint32 Bool) (e : Bool × Operation uint32) :
    Decidable ((bitField 32 nibbleAndByte word).guard s e) :=
  inferInstanceAs (Decidable (_ = some true))

theorem counters_agree_nibbleAndByte :
    ∃ s, (bitField 32 nibbleAndByte 0xFFF00000).Run
        [(true, .assign 200), (false, .increase 7), (false, .increment), (true, .decrease 50)] s ∧
      AgreesThroughout 32 nibbleAndByte 0xFFF00000
        [(true, .assign 200), (false, .increase 7), (false, .increment), (true, .decrease 50)] ∧
      s.counters true = 150 ∧ s.value = 0xFFF00968 := by
  have hrun : (bitField 32 nibbleAndByte 0xFFF00000).Run
      [(true, .assign 200), (false, .increase 7), (false, .increment), (true, .decrease 50)] _ :=
    .of_enabled rfl (by decide)
  refine ⟨_, hrun, (counters_agree_iff rfl hrun).1.mpr ?_, by decide, by decide⟩
  exact ⟨trivial, by change _ < _; decide, trivial, trivial, trivial⟩

/-- In `uint32_t`, the sum of `5` and `2 ^ 32 - 1` is `4`. -/
theorem not_counters_agree :
    ∃ s, (bitField 32 nibbleAndByte 5).Run [(false, .increase 0xFFFFFFFF)] s ∧
      read 32 (nibbleAndByte.member false) s.value = some 4 ∧
      s.counters false = 5 + 0xFFFFFFFF ∧ ¬Agrees 32 nibbleAndByte s := by
  have hrun : (bitField 32 nibbleAndByte 5).Run [(false, .increase 0xFFFFFFFF)] _ :=
    .of_enabled rfl (by decide)
  refine ⟨_, hrun, by decide, by decide, fun h => ?_⟩
  exact absurd (h false) (by decide)

end BitField
end Ptl

import Ptl.WeakReferences
import Mathlib.Data.Multiset.Basic

/-!
# The counts of an object are the numbers of its handles

`Counted` is the invariant of the word `references`: its low half is the number
of live strong handles, and its high half is the number of live weak handles,
plus one while a strong handle is alive.  `Owns` says which handle a thread
keeps alive during a call.  Both are proved with the proof outline rule, so the
only fact about other threads is that nobody removes a handle of another thread.

**Results.**
* `counted_of_run`: `Counted` and `Owns` hold in every configuration of a run.
* `strong_eq_zero_exec`: the strong count stays zero.
* `weakReferences_counts`: the counts are exact, no operation carries or
  borrows, `lock` decides correctly and fails for ever after the count is zero.
-/

namespace Ptl
namespace IntrusivePtr

open Transition

universe u

variable {ι : Type u}

/-- All strong handles together hold one weak reference. -/
def weakTotal (strong weak : Nat) : Nat :=
  if strong = 0 then weak else weak + 1

/-- The word holds the numbers of live handles. -/
structure Counted (m : Object ι) : Prop where
  few : FewHandles m
  packed :
    Packed m.references (Multiset.card m.strong)
      (weakTotal (Multiset.card m.strong) (Multiset.card m.weak))

/-- The handle that a thread uses at a control point. -/
def Owns (m : Object ι) (i : ι) : ControlPoint → Prop
  | .releaseLoad => i ∈ m.strong
  | .releaseCas _ => i ∈ m.strong
  | .releaseWeakLoad => i ∈ m.weak
  | .releaseWeakCas _ => i ∈ m.weak
  | .lockLoad => i ∈ m.strong ∨ i ∈ m.weak
  | .lockCas value => (i ∈ m.strong ∨ i ∈ m.weak) ∧ ¬ lockFails value
  | .lockReturn success => success = true → i ∈ m.strong
  | _ => True

@[simp] theorem weakTotal_zero (weak : Nat) :
    weakTotal 0 weak = weak := by
  rfl

@[simp] theorem weakTotal_succ (strong weak : Nat) :
    weakTotal (strong + 1) weak = weak + 1 := by
  rfl

@[simp] theorem weakTotal_weak_succ (strong weak : Nat) :
    weakTotal strong (weak + 1) = weakTotal strong weak + 1 := by
  cases strong <;> rfl

theorem weakTotal_of_ne_zero
    {strong : Nat} (weak : Nat)
    (h : strong ≠ 0) :
    weakTotal strong weak = weak + 1 :=
  if_neg h

theorem lt_two_pow_of_few
    {n : Nat}
    (h : n < 2 ^ 32 - 1) :
    n < 2 ^ 32 := by
  omega

/-- The weak count of few weak handles fits into its half. -/
theorem weakTotal_lt
    (strong : Nat) {weak : Nat}
    (h : weak < 2 ^ 32 - 1) :
    weakTotal strong weak < 2 ^ 32 := by
  cases strong with
  | zero =>
      rw [weakTotal_zero]
      omega
  | succ strong =>
      rw [weakTotal_succ]
      omega

theorem counted_newObject (creator : ι) :
    Counted (newObject creator) := by
  constructor
  · simp [FewHandles, newObject]
  · exact
      { strong := by simp [newObject]
        weak := by simp [newObject] }

theorem owns_afterRelease (m : Object ι) (i : ι) (desired : BitVec 64) :
    Owns m i (.afterRelease desired) := by
  unfold ControlPoint.afterRelease
  split
  · split <;> trivial
  · trivial

theorem owns_afterReleaseWeak (m : Object ι) (i : ι) (desired : BitVec 64) :
    Owns m i (.afterReleaseWeak desired) := by
  unfold ControlPoint.afterReleaseWeak
  split <;> trivial

theorem owns_lockLoop
    {m : Object ι} {i : ι} {value : BitVec 64}
    (h : i ∈ m.strong ∨ i ∈ m.weak) :
    Owns m i (.lockLoop value) := by
  unfold ControlPoint.lockLoop
  split
  next =>
    exact fun hs => absurd hs Bool.false_ne_true
  next hne =>
    exact ⟨h, hne⟩

theorem afterRelease_ne_lockReturn (desired : BitVec 64) (success : Bool) :
    ControlPoint.afterRelease desired ≠ .lockReturn success := by
  unfold ControlPoint.afterRelease
  split
  · split <;> simp
  · simp

theorem afterReleaseWeak_ne_lockReturn
    (desired : BitVec 64) (success : Bool) :
    ControlPoint.afterReleaseWeak desired ≠ .lockReturn success := by
  unfold ControlPoint.afterReleaseWeak
  split <;> simp

theorem lockLoop_eq_lockReturn_iff
    (value : BitVec 64) (success : Bool) :
    ControlPoint.lockLoop value = .lockReturn success ↔
      lockFails value ∧ success = false := by
  unfold ControlPoint.lockLoop
  split
  next h =>
    simp [h, eq_comm]
  next h =>
    simp [h]

section Step

variable [DecidableEq ι]

theorem card_erase
    {i : ι} {owners : Multiset ι}
    (h : i ∈ owners) :
    Multiset.card (owners.erase i) + 1 = Multiset.card owners := by
  have hpos := Multiset.card_pos_iff_exists_mem.mpr ⟨i, h⟩
  rw [Multiset.card_erase_of_mem h, Nat.pred_eq_sub_one]
  omega

/-- What an operation does to the number of strong handles. -/
def Event.strongChange : Event ι → Int
  | .addRef _ => 1
  | .releaseCas _ _ => -1
  | .lockCas _ _ => 1
  | _ => 0

/-- What an operation does to the number of weak handles. -/
def Event.weakChange : Event ι → Int
  | .addWeakRef _ => 1
  | .releaseWeakCas _ _ => -1
  | _ => 0

theorem card_strong_effect
    {m : Object ι} {e : Event ι}
    (howns : Owns m e.actor e.source)
    (hcheck : e.check m) :
    (Multiset.card (e.effect m).strong : Int) =
      Multiset.card m.strong + e.strongChange := by
  simp only [Event.effect]
  cases e with
  | giveStrong i j =>
      have hcard := card_erase (show i ∈ m.strong from hcheck)
      simp [Event.strongAfter, Event.strongChange, hcard]
  | releaseCas i value =>
      have hcard := card_erase (show i ∈ m.strong from howns)
      simp [Event.strongAfter, Event.strongChange, ← hcard]
  | _ =>
      simp [Event.strongAfter, Event.strongChange]

theorem card_weak_effect
    {m : Object ι} {e : Event ι}
    (howns : Owns m e.actor e.source)
    (hcheck : e.check m) :
    (Multiset.card (e.effect m).weak : Int) =
      Multiset.card m.weak + e.weakChange := by
  simp only [Event.effect]
  cases e with
  | giveWeak i j =>
      have hcard := card_erase (show i ∈ m.weak from hcheck)
      simp [Event.weakAfter, Event.weakChange, hcard]
  | releaseWeakCas i value =>
      have hcard := card_erase (show i ∈ m.weak from howns)
      simp [Event.weakAfter, Event.weakChange, ← hcard]
  | _ =>
      simp [Event.weakAfter, Event.weakChange]

/-- Each operation keeps the word equal to the numbers of handles. -/
theorem Counted.step
    {m : Object ι} {e : Event ι}
    (hm : Counted m)
    (howns : Owns m e.actor e.source)
    (hcheck : e.check m)
    (hfew : FewHandles (e.effect m)) :
    Counted (e.effect m) := by
  refine ⟨hfew, ?_⟩
  obtain ⟨hs, hw⟩ := hfew
  have hpacked := hm.packed
  simp only [Event.effect] at hs hw ⊢
  cases e with
  | addRef i =>
      have hi : i ∈ m.strong := hcheck
      have hne := (Multiset.card_pos_iff_exists_mem.mpr ⟨i, hi⟩).ne'
      simp only [Event.strongAfter, Multiset.card_cons] at hs ⊢
      rw [weakTotal_of_ne_zero _ hne] at hpacked
      rw [weakTotal_succ]
      exact hpacked.addRef (lt_two_pow_of_few hs)
  | addWeakRef i =>
      simp only [Event.weakAfter, Multiset.card_cons] at hw ⊢
      have hlt := weakTotal_lt (Multiset.card m.strong) hw
      rw [weakTotal_weak_succ] at hlt
      simp only [Event.strongAfter, weakTotal_weak_succ]
      exact hpacked.addWeakRef hlt
  | giveStrong i j =>
      have hcard := card_erase (show i ∈ m.strong from hcheck)
      simp only [Event.strongAfter, Multiset.card_cons, hcard]
      exact hpacked
  | giveWeak i j =>
      have hcard := card_erase (show i ∈ m.weak from hcheck)
      simp only [Event.weakAfter, Multiset.card_cons, hcard]
      exact hpacked
  | releaseCas i value =>
      obtain rfl : value = m.references := hcheck
      have hcard := card_erase (show i ∈ m.strong from howns)
      rw [← hcard, weakTotal_succ] at hpacked
      simp only [Event.strongAfter, Event.weakAfter]
      by_cases hlast : Multiset.card (m.strong.erase i) = 0
      · rw [hlast] at hpacked ⊢
        exact hpacked.releaseLast
      · rw [weakTotal_of_ne_zero _ hlast]
        exact hpacked.release hlast
  | releaseWeakCas i value =>
      obtain rfl : value = m.references := hcheck
      have hcard := card_erase (show i ∈ m.weak from howns)
      rw [← hcard, weakTotal_weak_succ] at hpacked
      exact hpacked.releaseWeak
  | lockCas i value =>
      obtain rfl : value = m.references := hcheck
      have hne : ¬ lockFails m.references := howns.2
      rw [hpacked.lockFails_iff] at hne
      simp only [Event.strongAfter, Multiset.card_cons] at hs ⊢
      rw [weakTotal_of_ne_zero _ hne] at hpacked
      rw [weakTotal_succ]
      exact hpacked.lock (lt_two_pow_of_few hs)
  | _ =>
      exact hpacked

/-- No thread removes a strong handle of another thread. -/
theorem mem_strong_effect
    {m : Object ι} {e : Event ι} {j : ι}
    (hj : j ≠ e.actor)
    (h : j ∈ m.strong) :
    j ∈ (e.effect m).strong := by
  simp only [Event.effect]
  cases e <;>
    simp_all [Event.strongAfter, Event.actor, Multiset.mem_erase_of_ne]

/-- No thread removes a weak handle of another thread. -/
theorem mem_weak_effect
    {m : Object ι} {e : Event ι} {j : ι}
    (hj : j ≠ e.actor)
    (h : j ∈ m.weak) :
    j ∈ (e.effect m).weak := by
  simp only [Event.effect]
  cases e <;>
    simp_all [Event.weakAfter, Event.actor, Multiset.mem_erase_of_ne]

/-- Interference freedom. -/
theorem Owns.other
    {m : Object ι} {e : Event ι} {j : ι} {p : ControlPoint}
    (hj : j ≠ e.actor)
    (h : Owns m j p) :
    Owns (e.effect m) j p := by
  have hstrong := @mem_strong_effect ι _ m e j hj
  have hweak := @mem_weak_effect ι _ m e j hj
  cases p with
  | releaseLoad =>
      exact hstrong h
  | releaseCas value =>
      exact hstrong h
  | releaseWeakLoad =>
      exact hweak h
  | releaseWeakCas value =>
      exact hweak h
  | lockLoad =>
      exact Or.imp hstrong hweak h
  | lockCas value =>
      exact ⟨h.1.imp hstrong hweak, h.2⟩
  | lockReturn success =>
      exact fun hs => hstrong (h hs)
  | _ =>
      trivial

/-- Local correctness. -/
theorem Owns.step
    {m : Object ι} {e : Event ι}
    (howns : Owns m e.actor e.source)
    (hcheck : e.check m) :
    Owns (e.effect m) e.actor e.target := by
  cases e with
  | releaseCas i value =>
      exact owns_afterRelease _ _ _
  | releaseWeakCas i value =>
      exact owns_afterReleaseWeak _ _ _
  | lockLoad i value =>
      exact owns_lockLoop howns
  | lockCasFail i value loaded =>
      exact owns_lockLoop howns.1
  | lockCas i value =>
      exact fun _ => Multiset.mem_cons_self i m.strong
  | callRelease i =>
      exact hcheck
  | callReleaseWeak i =>
      exact hcheck
  | callLock i =>
      exact hcheck
  | releaseLoad i value =>
      exact howns
  | releaseCasFail i value loaded =>
      exact howns
  | releaseWeakLoad i value =>
      exact howns
  | releaseWeakCasFail i value loaded =>
      exact howns
  | _ =>
      trivial

/-- The invariant of every run. -/
theorem counted_of_run
    {creator : ι} {tr : List (Event ι)}
    {s : Config ι ControlPoint (Object ι)}
    (hrun : (weakReferences creator).Run tr s) :
    Counted s.shared ∧ ∀ i, Owns s.shared i (s.pc i) := by
  refine Program.outline
    (P := boundedProgram) (B := fun _ => True) (G := fun _ m => Counted m)
    (A := fun _ m i p => Owns m i p)
    (fun _ _ h => h) ?_ ?_ ?_ ?_ hrun trivial
  · rintro _ rfl
    exact ⟨counted_newObject creator, fun _ => trivial⟩
  · rintro tr m e - hm howns ⟨hcheck, hfew⟩
    exact hm.step howns hcheck hfew
  · rintro tr m e - - howns ⟨hcheck, -⟩
    exact howns.step hcheck
  · rintro tr m e - - - - j p hj howns
    exact howns.other hj

/-- No operation creates a strong handle when none is alive. -/
theorem strong_eq_zero_effect
    {m : Object ι} {e : Event ι}
    (hm : Counted m)
    (howns : Owns m e.actor e.source)
    (hcheck : e.check m)
    (h : m.strong = 0) :
    (e.effect m).strong = 0 := by
  simp only [Event.effect]
  have hnone : ∀ i, i ∉ m.strong := by
    simp [h]
  cases e with
  | addRef i =>
      exact absurd hcheck (hnone i)
  | giveStrong i j =>
      exact absurd hcheck (hnone i)
  | releaseCas i value =>
      exact absurd howns (hnone i)
  | lockCas i value =>
      obtain rfl : value = m.references := hcheck
      have hne : ¬ lockFails m.references := howns.2
      rw [hm.packed.lockFails_iff, h] at hne
      exact absurd Multiset.card_zero hne
  | _ =>
      exact h

omit [DecidableEq ι] in
/-- The step at which `lock` takes its decision. -/
theorem lock_decides
    {m : Object ι} {e : Event ι} {success : Bool}
    (hm : Counted m)
    (howns : Owns m e.actor e.source)
    (hcheck : e.check m)
    (htarget : e.target = .lockReturn success) :
    success = true ↔ Multiset.card m.strong ≠ 0 := by
  have hfails := hm.packed.lockFails_iff
  cases e with
  | releaseCas i value =>
      exact absurd htarget (afterRelease_ne_lockReturn _ _)
  | releaseWeakCas i value =>
      exact absurd htarget (afterReleaseWeak_ne_lockReturn _ _)
  | lockLoad i value =>
      obtain rfl : value = m.references := hcheck
      obtain ⟨hf, rfl⟩ := (lockLoop_eq_lockReturn_iff _ _).mp htarget
      simp [hfails.mp hf]
  | lockCasFail i value loaded =>
      obtain rfl : loaded = m.references := hcheck
      obtain ⟨hf, rfl⟩ := (lockLoop_eq_lockReturn_iff _ _).mp htarget
      simp [hfails.mp hf]
  | lockCas i value =>
      obtain rfl : value = m.references := hcheck
      have hne : ¬ lockFails m.references := howns.2
      obtain rfl : true = success := by
        simpa [Event.target] using htarget
      simpa [hfails] using hne
  | _ =>
      simp [Event.target] at htarget

/-- The release that drops the strong count to zero, by the handles. -/
theorem dropper_eq
    {m : Object ι} {e : Event ι}
    (howns : Owns m e.actor e.source)
    (hm' : Counted (e.effect m)) :
    e.dropper? =
      if Multiset.card m.strong ≠ 0 ∧
        Multiset.card (e.effect m).strong = 0 then some e.actor else none := by
  have hpacked := hm'.packed
  simp only [Event.effect] at hpacked ⊢
  cases e with
  | releaseCas i value =>
      have hcard := card_erase (show i ∈ m.strong from howns)
      have hzero := hpacked.strongCount_eq_zero_iff
      simp only [Event.store, Event.strongAfter] at hzero
      simp only [Event.dropper?, Event.strongAfter, Event.actor, hzero]
      simp [← hcard]
  | _ =>
      simp [Event.dropper?, Event.strongAfter]

end Step

section Runs

variable [DecidableEq ι]
variable {creator : ι} {tr : List (Event ι)}
variable {s : Config ι ControlPoint (Object ι)}

/-- What an enabled step can rely on. -/
theorem facts_of_guard
    {e : Event ι}
    (hrun : (weakReferences creator).Run tr s)
    (hguard : (weakReferences creator).guard s e) :
    Counted s.shared ∧ Owns s.shared e.actor e.source ∧
      e.check s.shared ∧ FewHandles (e.effect s.shared) := by
  obtain ⟨hm, howns⟩ := counted_of_run hrun
  obtain ⟨hpc, hcheck, hfew⟩ := hguard
  refine ⟨hm, ?_, hcheck, hfew⟩
  have hactor := howns e.actor
  rwa [show s.pc e.actor = e.source from hpc] at hactor

/-- Once the last strong handle is gone, none comes back. -/
theorem strong_eq_zero_exec
    (hrun : (weakReferences creator).Run tr s)
    (h : s.shared.strong = 0)
    {es : List (Event ι)}
    (hes : (weakReferences creator).Enabled s es) :
    ((weakReferences creator).exec s es).shared.strong = 0 := by
  induction es generalizing tr s with
  | nil =>
      exact h
  | cons e es ih =>
      obtain ⟨hguard, hes⟩ := hes
      obtain ⟨hm, howns, hcheck, -⟩ := facts_of_guard hrun hguard
      exact ih (.step e hrun hguard)
        (strong_eq_zero_effect hm howns hcheck h) hes

/-- The two halves of the word against the live handles. -/
structure CountsExact (m : Object ι) : Prop where
  strong : (strongCount m.references).toNat = Multiset.card m.strong
  weak : (weakCount m.references).toNat =
    if Multiset.card m.strong = 0 then Multiset.card m.weak
    else Multiset.card m.weak + 1

/--
A step changes each half by what it does to the handles of that kind; only the
release that drops the strong count to zero also takes one off the weak count.
-/
structure HalvesChange (m : Object ι) (e : Event ι) : Prop where
  strong : ((strongCount (e.effect m).references).toNat : Int) =
    (strongCount m.references).toNat + e.strongChange
  weak : ((weakCount (e.effect m).references).toNat : Int) =
    (weakCount m.references).toNat + e.weakChange -
      if e.dropper? = none then 0 else 1

omit [DecidableEq ι] in
theorem Counted.exact
    {m : Object ι}
    (hm : Counted m) :
    CountsExact m where
  strong := hm.packed.strong
  weak := hm.packed.weak

/-- No update carries or borrows between the halves. -/
theorem halvesChange_of_step
    {m : Object ι} {e : Event ι}
    (hm : Counted m)
    (howns : Owns m e.actor e.source)
    (hcheck : e.check m)
    (hfew : FewHandles (e.effect m)) :
    HalvesChange m e := by
  have hm' := hm.step howns hcheck hfew
  have hstrong := card_strong_effect howns hcheck
  have hweak := card_weak_effect howns hcheck
  have hzero := strong_eq_zero_effect hm howns hcheck
  rw [← Multiset.card_eq_zero, ← Multiset.card_eq_zero] at hzero
  refine ⟨?_, ?_⟩
  · rw [hm'.packed.strong, hm.packed.strong]
    exact hstrong
  · rw [hm'.packed.weak, hm.packed.weak, dropper_eq howns hm']
    unfold weakTotal
    clear howns hcheck
    -- the weak count of the strong group ends with the last strong handle
    by_cases hs : Multiset.card m.strong = 0
    · have hs' := hzero hs
      simp [hs, hs', hweak]
    · by_cases hs' : Multiset.card (e.effect m).strong = 0
      · simp only [hs, hs', if_true, if_false, ne_eq, not_false_eq_true,
          and_self, reduceCtorEq]
        omega
      · simp only [hs, hs', if_true, if_false, ne_eq, not_false_eq_true,
          and_false]
        omega

/--
Counts of an object managed by `intrusive_weak_references`: in every run with
few live handles both halves of the word are exact, every enabled step changes
each half by what it does to the handles of that kind, `lock` succeeds exactly
when the strong count is not zero at its deciding step, and once the strong
count is zero it stays zero and no `lock` succeeds.
-/
theorem weakReferences_counts
    (hrun : (weakReferences creator).Run tr s) :
    CountsExact s.shared ∧
    (∀ e, (weakReferences creator).guard s e → HalvesChange s.shared e) ∧
    (∀ e success, (weakReferences creator).guard s e →
      e.target = .lockReturn success →
      (success = true ↔ strongCount s.shared.references ≠ 0)) ∧
    (strongCount s.shared.references = 0 →
      ∀ es, (weakReferences creator).Enabled s es →
        strongCount
          ((weakReferences creator).exec s es).shared.references = 0 ∧
        ∀ i, ((weakReferences creator).exec s es).pc i ≠
          .lockReturn true) := by
  have hm := (counted_of_run hrun).1
  refine ⟨hm.exact, ?_, ?_, ?_⟩
  · rintro e hguard
    obtain ⟨-, howns, hcheck, hfew⟩ := facts_of_guard hrun hguard
    exact halvesChange_of_step hm howns hcheck hfew
  · rintro e success hguard htarget
    obtain ⟨-, howns, hcheck, -⟩ := facts_of_guard hrun hguard
    rw [Ne, hm.packed.strongCount_eq_zero_iff]
    exact lock_decides hm howns hcheck htarget
  · rintro hzero es hes
    have hnone : s.shared.strong = 0 :=
      Multiset.card_eq_zero.mp (hm.packed.strongCount_eq_zero_iff.mp hzero)
    have hlater := strong_eq_zero_exec hrun hnone hes
    obtain ⟨hm', howns'⟩ := counted_of_run (hrun.extend hes)
    refine ⟨?_, ?_⟩
    · rw [hm'.packed.strongCount_eq_zero_iff, hlater]
      exact Multiset.card_zero
    · rintro i hpc
      have howns := howns' i
      rw [hpc] at howns
      have hmem := howns rfl
      rw [hlater] at hmem
      exact absurd hmem (Multiset.notMem_zero i)

end Runs

/-- Thread `true` locks a weak handle; the first exchange fails spuriously. -/
def lockSchedule : List (Event Bool) :=
  [.addWeakRef false,
    .giveWeak false true,
    .callLock true,
    .lockLoad true (referenceCount 1 2),
    .lockCasFail true (referenceCount 1 2) (referenceCount 1 2),
    .lockCas true (referenceCount 1 2),
    .lockReturn true true]

theorem weakReferences_counts_lockSchedule :
    CountsExact
      ((weakReferences false).exec (start false) lockSchedule).shared ∧
    ((weakReferences false).exec (start false) lockSchedule).shared.references =
      referenceCount 2 2 := by
  have hrun :
      (weakReferences false).Run lockSchedule
        ((weakReferences false).exec (start false) lockSchedule) :=
    .of_enabled rfl (by decide +kernel)
  exact ⟨(weakReferences_counts hrun).1, by decide +kernel⟩

end IntrusivePtr
end Ptl

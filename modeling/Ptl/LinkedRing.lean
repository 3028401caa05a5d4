import Mathlib.Data.List.Chain
import Mathlib.Data.List.Nodup
import Mathlib.Logic.Function.Basic

/-!
# Rings of nodes that are linked both ways

A circular doubly linked structure over arbitrary nodes.  The ring of a node `h`
and a list `t` is `h`, then `t`, then `h` again: each node is linked to the one
after it by `next`, and back by `prev`.

**Rules.**
* `Ring.frame`: links outside a ring may change.
* `Ring.insert`: two links that are set put a node between two neighbours.
* `Ring.unlink`: one link that is set takes a node out.
* `Ring.walk`: following `next` from `h` goes through `t` and ends at `h`.
-/

namespace Ptl

universe u

/-- The links of all nodes. -/
structure Links (α : Type u) where
  next : α → α
  prev : α → α

namespace Links

variable {α : Type u}

/-- The node `b` follows `a`. -/
def Linked (L : Links α) (a b : α) : Prop :=
  L.next a = b ∧ L.prev b = a

/-- The ring that starts at `h` and goes through `t`. -/
def Ring (L : Links α) (h : α) (t : List α) : Prop :=
  List.IsChain L.Linked (h :: (t ++ [h]))

/-- The node is a ring of its own. -/
def Alone (L : Links α) (a : α) : Prop :=
  L.Linked a a

/-- The nodes that `next` leads to from `a`, in `n` steps. -/
def walk (L : Links α) : Nat → α → List α
  | 0, _ => []
  | n + 1, a => L.next a :: walk L n (L.next a)

section Chains

variable {L L' : Links α} {a b h e : α} {t xs ys : List α}

/-- A chain depends on `next` of all nodes but the last, and dually. -/
theorem chain_congr
    (hnext : ∀ x ∈ t.dropLast, L'.next x = L.next x)
    (hprev : ∀ y ∈ t.tail, L'.prev y = L.prev y)
    (hchain : List.IsChain L.Linked t) :
    List.IsChain L'.Linked t := by
  induction t with
  | nil =>
      exact List.isChain_nil
  | cons x t ih =>
      cases t with
      | nil =>
          exact List.isChain_singleton x
      | cons y t =>
          obtain ⟨⟨hxy, hyx⟩, hrest⟩ := List.isChain_cons_cons.mp hchain
          refine List.isChain_cons_cons.mpr ⟨⟨?_, ?_⟩, ?_⟩
          · rw [hnext x (by simp), hxy]
          · rw [hprev y (by simp), hyx]
          · refine ih (fun z hz => hnext z ?_) (fun z hz => hprev z ?_) hrest
            · rw [List.dropLast_cons_cons]
              exact List.mem_cons_of_mem x hz
            · exact List.mem_of_mem_tail hz

/-- A walk along a chain. -/
theorem chain_walk
    (hchain : List.IsChain L.Linked (h :: t)) :
    L.walk t.length h = t := by
  induction t generalizing h with
  | nil =>
      rfl
  | cons a t ih =>
      obtain ⟨⟨hnext, -⟩, hrest⟩ := List.isChain_cons_cons.mp hchain
      rw [List.length_cons, walk, hnext, ih hrest]

theorem ring_nil_iff :
    L.Ring h [] ↔ L.Alone h := by
  simp [Ring, Alone]

theorem Ring.walk
    (hring : L.Ring h t) :
    L.walk (t.length + 1) h = t ++ [h] := by
  have hwalk := chain_walk hring
  rwa [List.length_append, List.length_singleton] at hwalk

theorem exists_concat_cons (h : α) (t : List α) :
    ∃ xs a, h :: t = xs ++ [a] := by
  rcases List.eq_nil_or_concat (h :: t) with hnil | ⟨xs, a, hxs⟩
  · cases hnil
  · exact ⟨xs, a, hxs.trans List.concat_eq_append⟩

/-- The first node of the ring. -/
theorem Ring.next_head
    (hring : L.Ring h t) :
    (t ++ [h]).head? = some (L.next h) := by
  cases t with
  | nil =>
      exact congrArg some (ring_nil_iff.mp hring).1.symm
  | cons a t =>
      exact congrArg some (List.isChain_cons_cons.mp hring).1.1.symm

/-- The last node of the ring. -/
theorem Ring.prev_head
    (hring : L.Ring h t) :
    (h :: t).getLast? = some (L.prev h) := by
  rcases List.eq_nil_or_concat t with rfl | ⟨xs, a, rfl⟩
  · exact congrArg some (ring_nil_iff.mp hring).2.symm
  · rw [Ring, List.concat_eq_append, List.append_assoc, List.singleton_append,
      ← List.cons_append, List.isChain_append_cons_cons] at hring
    rw [List.concat_eq_append, ← List.cons_append, List.getLast?_concat]
    exact congrArg some hring.2.1.2.symm

/-- On a ring `prev` is the inverse of `next`. -/
theorem Ring.inverse
    (hring : L.Ring h t)
    {x : α}
    (hx : x ∈ h :: t) :
    L.prev (L.next x) = x ∧ L.next (L.prev x) = x := by
  constructor
  · obtain ⟨xs, ys, hsplit⟩ := List.append_of_mem hx
    cases ys with
    | nil =>
        have hchain : List.IsChain L.Linked (xs ++ x :: h :: []) := by
          rw [Ring, ← List.cons_append, hsplit, List.append_assoc] at hring
          exact hring
        obtain ⟨hnext, hprev⟩ := (List.isChain_append_cons_cons.mp hchain).2.1
        rw [hnext, hprev]
    | cons y ys =>
        have hchain : List.IsChain L.Linked (xs ++ x :: y :: (ys ++ [h])) := by
          rw [Ring, ← List.cons_append, hsplit, List.append_assoc] at hring
          exact hring
        obtain ⟨hnext, hprev⟩ := (List.isChain_append_cons_cons.mp hchain).2.1
        rw [hnext, hprev]
  · have hx' : x ∈ t ++ [h] := by
      rw [List.mem_append, List.mem_singleton]
      exact (List.mem_cons.mp hx).symm
    obtain ⟨xs, ys, hsplit⟩ := List.append_of_mem hx'
    rw [Ring, hsplit] at hring
    rcases List.eq_nil_or_concat xs with rfl | ⟨zs, z, rfl⟩
    · obtain ⟨hnext, hprev⟩ := (List.isChain_cons_cons.mp hring).1
      rw [hprev, hnext]
    · rw [List.concat_eq_append, List.append_assoc, List.singleton_append,
        List.isChain_cons_append_cons_cons] at hring
      obtain ⟨hnext, hprev⟩ := hring.2.1
      rw [hprev, hnext]

end Chains

section Join

variable [DecidableEq α]

/-- Make `b` follow `a`. -/
def join (L : Links α) (a b : α) : Links α where
  next := Function.update L.next a b
  prev := Function.update L.prev b a

variable {L : Links α} {a b h e x : α} {t t₁ t₂ xs ys : List α}

@[simp] theorem join_next_self :
    (L.join a b).next a = b := by
  simp [join]

@[simp] theorem join_prev_self :
    (L.join a b).prev b = a := by
  simp [join]

theorem join_next_of_ne (hx : x ≠ a) :
    (L.join a b).next x = L.next x := by
  simp [join, hx]

theorem join_prev_of_ne (hx : x ≠ b) :
    (L.join a b).prev x = L.prev x := by
  simp [join, hx]

/-- A chain that neither gives up `next` of `a` nor `prev` of `b` is kept. -/
theorem chain_join_of_notMem
    (hchain : List.IsChain L.Linked t)
    (ha : a ∉ t.dropLast)
    (hb : b ∉ t.tail) :
    List.IsChain (L.join a b).Linked t := by
  refine chain_congr (fun x hx => ?_) (fun y hy => ?_) hchain
  · exact join_next_of_ne fun h => ha (h ▸ hx)
  · exact join_prev_of_ne fun h => hb (h ▸ hy)

/-- Two chains are put one behind the other. -/
theorem chain_join
    (hxs : List.IsChain L.Linked (xs ++ [a]))
    (hys : List.IsChain L.Linked (b :: ys))
    (ha : a ∉ xs) (ha' : a ∉ (b :: ys).dropLast)
    (hb : b ∉ (xs ++ [a]).tail) (hb' : b ∉ ys) :
    List.IsChain (L.join a b).Linked (xs ++ a :: b :: ys) := by
  refine List.isChain_append_cons_cons.mpr ⟨?_, ⟨?_, ?_⟩, ?_⟩
  · exact chain_join_of_notMem hxs (by rwa [List.dropLast_concat]) hb
  · exact join_next_self
  · exact join_prev_self
  · exact chain_join_of_notMem hys ha' hb'

/-- Links between nodes outside a ring may be set. -/
theorem Ring.frame
    (hring : L.Ring h t)
    (ha : a ∉ h :: t)
    (hb : b ∉ h :: t) :
    (L.join a b).Ring h t := by
  refine chain_join_of_notMem hring ?_ ?_
  · rwa [← List.cons_append, List.dropLast_concat]
  · rw [List.tail_cons, List.mem_append, List.mem_singleton]
    intro hmem
    exact hb (List.mem_cons.mpr hmem.symm)

omit [DecidableEq α] in
/-- The neighbours of a place in a ring. -/
theorem Ring.split
    (hring : L.Ring h (t₁ ++ t₂))
    (ha : (h :: t₁).getLast? = some a)
    (hb : (t₂ ++ [h]).head? = some b) :
    ∃ xs ys,
      h :: t₁ = xs ++ [a] ∧
      t₂ ++ [h] = b :: ys ∧
      List.IsChain L.Linked (xs ++ [a]) ∧
      List.IsChain L.Linked (b :: ys) := by
  obtain ⟨xs, hxs⟩ := List.getLast?_eq_some_iff.mp ha
  obtain ⟨ys, hys⟩ := List.head?_eq_some_iff.mp hb
  rw [Ring, List.append_assoc, hys, ← List.cons_append, hxs, List.append_assoc,
    List.singleton_append, List.isChain_append_cons_cons] at hring
  exact ⟨xs, ys, hxs, hys, hring.1, hring.2.2⟩

/-- What is distinct around a place in a ring. -/
structure Place (h a b : α) (t₁ t₂ xs ys : List α) : Prop where
  before : h :: t₁ = xs ++ [a]
  after : t₂ ++ [h] = b :: ys
  nodup : (h :: (t₁ ++ t₂)).Nodup

omit [DecidableEq α] in
theorem Place.notMem
    (hplace : Place h a b t₁ t₂ xs ys) :
    a ∉ xs ∧ a ∉ (b :: ys).dropLast ∧ b ∉ (xs ++ [a]).tail ∧ b ∉ ys := by
  have hnodup := hplace.nodup
  rw [← List.cons_append, List.nodup_append] at hnodup
  obtain ⟨hbefore, hafter, hdisjoint⟩ := hnodup
  have hends : h ∉ t₂ := fun hmem => hdisjoint h List.mem_cons_self h hmem rfl
  have hafter' : (t₂ ++ [h]).Nodup := by
    rw [List.nodup_append]
    refine ⟨hafter, by simp, fun x hx y hy hxy => ?_⟩
    obtain rfl := List.mem_singleton.mp hy
    exact hends (hxy ▸ hx)
  refine ⟨?_, ?_, ?_, ?_⟩
  · rw [hplace.before, List.nodup_append] at hbefore
    exact fun hmem => hbefore.2.2 a hmem a (by simp) rfl
  · rw [← hplace.after, List.dropLast_concat]
    refine fun hmem => hdisjoint a ?_ a hmem rfl
    rw [hplace.before]
    simp
  · rw [← hplace.before, List.tail_cons]
    intro hmem
    have hb : b ∈ t₂ ++ [h] := by simp [hplace.after]
    rcases List.mem_append.mp hb with hb | hb
    · exact hdisjoint b (List.mem_cons_of_mem h hmem) b hb rfl
    · obtain rfl := List.mem_singleton.mp hb
      exact (List.nodup_cons.mp hbefore).1 hmem
  · rw [hplace.after] at hafter'
    exact (List.nodup_cons.mp hafter').1

/-- A node is put between two neighbours. -/
theorem Ring.insert
    (hring : L.Ring h (t₁ ++ t₂))
    (hnodup : (h :: (t₁ ++ t₂)).Nodup)
    (he : e ∉ h :: (t₁ ++ t₂))
    (ha : (h :: t₁).getLast? = some a)
    (hb : (t₂ ++ [h]).head? = some b) :
    ((L.join a e).join e b).Ring h (t₁ ++ e :: t₂) := by
  obtain ⟨xs, ys, hxs, hys, hbefore, hafter⟩ := hring.split ha hb
  obtain ⟨ha₁, ha₂, hb₁, hb₂⟩ := Place.notMem ⟨hxs, hys, hnodup⟩
  have he₁ : e ∉ xs ++ [a] := by
    rw [← hxs]
    intro hmem
    exact he (List.mem_append_left t₂ hmem)
  have he₂ : e ∉ b :: ys := by
    rw [← hys, List.mem_append, List.mem_singleton]
    intro hmem
    rcases hmem with hmem | rfl
    · exact he (List.mem_cons_of_mem h (List.mem_append_right t₁ hmem))
    · exact he List.mem_cons_self
  have hmiddle : List.IsChain (L.join a e).Linked (xs ++ [a, e]) :=
    chain_join hbefore (List.isChain_singleton e) ha₁ (by simp)
      (fun hmem => he₁ (List.mem_of_mem_tail hmem)) List.not_mem_nil
  have hafter' : List.IsChain (L.join a e).Linked (b :: ys) :=
    chain_join_of_notMem hafter ha₂ fun hmem => he₂ (List.mem_of_mem_tail hmem)
  have hmiddle' : List.IsChain (L.join a e).Linked ((xs ++ [a]) ++ [e]) := by
    simpa using hmiddle
  have hchain := chain_join hmiddle' hafter' he₁
    (fun hmem => he₂ (List.dropLast_subset _ hmem))
    (fun hmem => ?_) hb₂
  · rw [Ring, List.append_assoc, List.cons_append, hys, ← List.cons_append, hxs]
    exact hchain
  · rw [List.tail_append_of_ne_nil (by simp), List.mem_append,
      List.mem_singleton] at hmem
    rcases hmem with hmem | rfl
    · exact hb₁ hmem
    · exact he₂ List.mem_cons_self

omit [DecidableEq α] in
/-- A node of a ring and its neighbours. -/
theorem Ring.split_node
    (hring : L.Ring h (t₁ ++ e :: t₂)) :
    ∃ xs ys,
      h :: t₁ = xs ++ [L.prev e] ∧
      t₂ ++ [h] = L.next e :: ys ∧
      List.IsChain L.Linked (xs ++ [L.prev e]) ∧
      List.IsChain L.Linked (L.next e :: ys) := by
  obtain ⟨xs, a, hxs⟩ := exists_concat_cons h t₁
  obtain ⟨b, ys, hys⟩ := List.exists_cons_of_ne_nil
    (List.append_ne_nil_of_right_ne_nil t₂ (List.cons_ne_nil h []))
  rw [Ring, List.append_assoc, List.cons_append, hys, ← List.cons_append, hxs,
    List.append_assoc, List.singleton_append, List.isChain_append_cons_cons,
    List.isChain_cons_cons] at hring
  obtain ⟨hbefore, ⟨-, hprev⟩, ⟨hnext, -⟩, hafter⟩ := hring
  subst hprev hnext
  exact ⟨xs, ys, hxs, hys, hbefore, hafter⟩

omit [DecidableEq α] in
/-- No node of a ring of several nodes follows itself. -/
theorem Ring.next_ne
    (hring : L.Ring h t)
    (hnodup : (h :: t).Nodup)
    (he : e ∈ t) :
    L.next e ≠ e := by
  obtain ⟨t₁, t₂, rfl⟩ := List.append_of_mem he
  obtain ⟨-, ys, -, hys, -⟩ := hring.split_node
  rw [← List.cons_append, List.nodup_append] at hnodup
  obtain ⟨-, hafter, hdisjoint⟩ := hnodup
  intro hself
  have hmem : e ∈ t₂ ++ [h] := by
    rw [hys, hself]
    exact List.mem_cons_self
  rcases List.mem_append.mp hmem with hmem | hmem
  · exact (List.nodup_cons.mp hafter).1 hmem
  · obtain rfl := List.mem_singleton.mp hmem
    exact hdisjoint e List.mem_cons_self e List.mem_cons_self rfl

omit [DecidableEq α] in
theorem Ring.prev_head_mem
    (hring : L.Ring h t) :
    L.prev h ∈ h :: t :=
  List.mem_of_getLast? hring.prev_head

omit [DecidableEq α] in
/-- The neighbours of a node of a ring are on it. -/
theorem Ring.neighbours_mem
    (hring : L.Ring h t)
    (he : e ∈ t) :
    L.prev e ∈ h :: t ∧ L.next e ∈ h :: t := by
  obtain ⟨t₁, t₂, rfl⟩ := List.append_of_mem he
  obtain ⟨xs, ys, hxs, hys, -⟩ := hring.split_node
  constructor
  · have hmem : L.prev e ∈ h :: t₁ := by simp [hxs]
    rw [← List.cons_append]
    exact List.mem_append_left _ hmem
  · have hmem : L.next e ∈ t₂ ++ [h] := by simp [hys]
    rcases List.mem_append.mp hmem with hmem | hmem
    · exact List.mem_cons_of_mem h
        (List.mem_append_right t₁ (List.mem_cons_of_mem e hmem))
    · rw [List.mem_singleton.mp hmem]
      exact List.mem_cons_self

theorem Alone.frame
    (hx : L.Alone x)
    (ha : x ≠ a)
    (hb : x ≠ b) :
    (L.join a b).Alone x :=
  ⟨(join_next_of_ne ha).trans hx.1, (join_prev_of_ne hb).trans hx.2⟩

theorem alone_join_self :
    (L.join e e).Alone e :=
  ⟨join_next_self, join_prev_self⟩

/-- A node is taken out of a ring. -/
theorem Ring.unlink
    (hring : L.Ring h (t₁ ++ e :: t₂))
    (hnodup : (h :: (t₁ ++ e :: t₂)).Nodup) :
    ((L.join (L.prev e) (L.next e)).join e e).Ring h (t₁ ++ t₂) := by
  obtain ⟨xs, ys, hxs, hys, hbefore, hafter⟩ := hring.split_node
  have hperm : (e :: h :: (t₁ ++ t₂)).Nodup := by
    refine (List.Perm.nodup_iff ?_).mp hnodup
    rw [← List.cons_append, ← List.cons_append]
    exact List.perm_middle
  obtain ⟨he, hrest⟩ := List.nodup_cons.mp hperm
  obtain ⟨ha₁, ha₂, hb₁, hb₂⟩ := Place.notMem ⟨hxs, hys, hrest⟩
  have hjoined : (L.join (L.prev e) (L.next e)).Ring h (t₁ ++ t₂) := by
    rw [Ring, List.append_assoc, hys, ← List.cons_append, hxs, List.append_assoc]
    exact chain_join hbefore hafter ha₁ ha₂ hb₁ hb₂
  exact hjoined.frame he he

end Join

end Links

end Ptl

import Mathlib.Data.Fintype.Card
import Mathlib.Data.Set.Finite.Basic
import Mathlib.Logic.Relation

/-!
# What keeps the nodes of a graph alive

A graph whose nodes may be alive, roots or linked to each other.  A node that is
alive without being a root has a predecessor that is alive.  If only finitely many
nodes depend on a predecessor, going back from a node ends in a root or turns
around in a cycle.

**Rule.**  `Supported.alive_iff`: the nodes that are alive are exactly those that can
be reached from a root or from a cycle.
-/

namespace Ptl
namespace Reachability

open Relation

universe u

variable {κ : Type u}

/-- The node can be reached from a root. -/
def Rooted (root : κ → Prop) (edge : κ → κ → Prop) (p : κ) : Prop :=
  ∃ r, root r ∧ ReflTransGen edge r p

/-- The node lies on a cycle or can be reached from one. -/
def Cyclic (edge : κ → κ → Prop) (p : κ) : Prop :=
  ∃ c, TransGen edge c c ∧ ReflTransGen edge c p

variable {root alive : κ → Prop} {edge : κ → κ → Prop}

/--
Roots and the targets of edges are alive, and a node that is alive is a root or one
of finitely many nodes with a predecessor that is alive.
-/
structure Supported
    (root alive : κ → Prop) (edge : κ → κ → Prop) (nodes : Finset κ) : Prop where
  alive_root : ∀ p, root p → alive p
  alive_target : ∀ p q, edge p q → alive q
  support : ∀ p, alive p → root p ∨ p ∈ nodes ∧ ∃ q, alive q ∧ edge q p

namespace Supported

variable {nodes : Finset κ} {p : κ}

theorem alive_of_path
    (h : Supported root alive edge nodes)
    {q : κ}
    (hq : alive q)
    (hpath : ReflTransGen edge q p) :
    alive p := by
  cases hpath with
  | refl =>
      exact hq
  | tail _ hedge =>
      exact h.alive_target _ _ hedge

/-- The ancestors of a node are finitely many, so without a cycle one has no predecessor. -/
theorem rooted_or_cyclic
    (h : Supported root alive edge nodes)
    (hp : alive p) :
    Rooted root edge p ∨ Cyclic edge p := by
  by_contra hneither
  obtain ⟨hrooted, hcyclic⟩ := not_or.mp hneither
  let Ancestor := { q : κ // alive q ∧ ReflTransGen edge q p }
  have hsupport : ∀ a : Ancestor, a.val ∈ nodes ∧ ∃ q, alive q ∧ edge q a.val := by
    rintro ⟨q, hq, hpath⟩
    refine (h.support q hq).resolve_left fun hroot => ?_
    exact hrooted ⟨q, hroot, hpath⟩
  have hfinite : Finite Ancestor := by
    refine Finite.of_injective (fun a : Ancestor => (⟨a.val, (hsupport a).1⟩ : nodes)) ?_
    intro a b hab
    exact Subtype.ext (Subtype.mk.inj hab)
  let before : Ancestor → Ancestor → Prop := fun a b => TransGen edge a.val b.val
  have htrans : IsTrans Ancestor before :=
    ⟨fun _ _ _ hab hbc => TransGen.trans hab hbc⟩
  have hirrefl : Std.Irrefl before :=
    ⟨fun a ha => hcyclic ⟨a.val, ha, a.property.2⟩⟩
  have hwf : WellFounded before :=
    Finite.wellFounded_of_trans_of_irrefl before
  have hnone : ∀ a : Ancestor, False := by
    intro a
    induction a using hwf.induction with
    | _ a ih =>
        obtain ⟨-, q, hq, hedge⟩ := hsupport a
        exact ih ⟨q, hq, .head hedge a.property.2⟩ (.single hedge)
  exact hnone ⟨p, hp, .refl⟩

theorem alive_iff
    (h : Supported root alive edge nodes) :
    alive p ↔ Rooted root edge p ∨ Cyclic edge p := by
  constructor
  · exact h.rooted_or_cyclic
  · rintro (⟨r, hr, hpath⟩ | ⟨c, hc, hpath⟩)
    · exact h.alive_of_path (h.alive_root r hr) hpath
    · obtain ⟨b, -, hedge⟩ := TransGen.tail'_iff.mp hc
      exact h.alive_of_path (h.alive_target _ _ hedge) hpath

end Supported

end Reachability
end Ptl

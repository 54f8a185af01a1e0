import Mathlib.Data.Set.Insert
import Mathlib.Logic.Function.Basic
import Mathlib.Logic.Relation

/-! A forest that grows at its leaves. A node settles once and for good, under a parent that has
settled before it or as a root. -/
namespace PeerConnect.Library

variable {ι : Type}

/-- No walk along the relation comes back to where it started. -/
def Acyclic (R : ι → ι → Prop) : Prop := ∀ x, ¬ Relation.TransGen R x x

/-- Edges out of a node that none leads to close no cycle. -/
theorem Acyclic.of_source {R R' : ι → ι → Prop} {x : ι} (h : Acyclic R) (hx : ∀ a, ¬ R' a x)
    (hR : ∀ a b, a ≠ x → R' a b → R a b) : Acyclic R' := by
  have hold : ∀ a b, a ≠ x → Relation.TransGen R' a b → Relation.TransGen R a b := by
    intro a b ha hab
    induction hab using Relation.TransGen.head_induction_on with
    | single hab => exact .single (hR _ _ ha hab)
    | head hac _ ih =>
      refine .head (hR _ _ ha hac) (ih ?_)
      rintro rfl
      exact hx _ hac
  intro y hy
  by_cases hyx : y = x
  · subst hyx
    cases hy with
    | single e => exact hx _ e
    | tail _ e => exact hx _ e
  · exact h y (hold y y hyx hy)

/-- The nodes that have settled, with the parents of those that have one. -/
structure Forest (ι : Type) where
  settled : Set ι
  parent : ι → Option ι
  parent_settled : ∀ x p, parent x = some p → x ∈ settled ∧ p ∈ settled
  acyclic : Acyclic fun x p => parent x = some p

namespace Forest

/-- Nobody has settled. -/
def empty : Forest ι where
  settled := ∅
  parent := fun _ => none
  parent_settled := by simp
  acyclic := by
    intro x h
    cases h with
    | single e => cases e
    | tail _ e => cases e

variable [DecidableEq ι]

/-- A new node settles. -/
def settle (F : Forest ι) (x : ι) (p : Option ι) (hx : x ∉ F.settled)
    (hp : ∀ q, p = some q → q ∈ F.settled) : Forest ι where
  settled := insert x F.settled
  parent := Function.update F.parent x p
  parent_settled := by
    intro y q h
    by_cases hy : y = x
    · subst hy
      rw [Function.update_self] at h
      exact ⟨Set.mem_insert _ _,Set.mem_insert_of_mem _ (hp q h)⟩
    · rw [Function.update_of_ne hy] at h
      have hs := F.parent_settled y q h
      exact ⟨Set.mem_insert_of_mem _ hs.1,Set.mem_insert_of_mem _ hs.2⟩
  acyclic := by
    refine F.acyclic.of_source (x := x) (fun a h => ?_) fun a b ha h => ?_
    · -- a parent has settled before, and the node has not
      by_cases ha : a = x
      · subst ha
        rw [Function.update_self] at h
        exact hx (hp _ h)
      · rw [Function.update_of_ne ha] at h
        exact hx (F.parent_settled a x h).2
    · rwa [Function.update_of_ne ha] at h

end Forest
end PeerConnect.Library

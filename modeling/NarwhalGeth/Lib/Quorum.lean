import Mathlib.Algebra.BigOperators.Group.Finset.Basic
import Mathlib.Algebra.Order.BigOperators.Group.Finset

/-!
# Weighted quorums

Two sets of voters that together weigh more than all voters plus a set of faulty ones share a voter
that is not faulty.
-/

namespace Quorum

variable {V : Type*} [DecidableEq V]

/-- Voters outside the roster weigh nothing, so the weight of any set is its weight in the
roster. -/
theorem sum_inter_roster (w : V → ℕ) (U A : Finset V) (hw : ∀ v, v ∉ U → w v = 0) :
    ∑ v ∈ A ∩ U, w v = ∑ v ∈ A, w v := by
  refine Finset.sum_subset Finset.inter_subset_left ?_
  intro v hv hnot
  exact hw v fun hu => hnot (Finset.mem_inter.mpr ⟨hv, hu⟩)

theorem exists_mem_inter_not_mem (w : V → ℕ) (U A B F : Finset V) (hw : ∀ v, v ∉ U → w v = 0)
    (h : ∑ v ∈ U, w v + ∑ v ∈ F, w v < ∑ v ∈ A, w v + ∑ v ∈ B, w v) :
    ∃ v ∈ A, v ∈ B ∧ v ∉ F ∧ v ∈ U := by
  have hsplit : ∑ v ∈ A ∩ U ∪ B ∩ U, w v + ∑ v ∈ A ∩ U ∩ (B ∩ U), w v =
      ∑ v ∈ A ∩ U, w v + ∑ v ∈ B ∩ U, w v := Finset.sum_union_inter
  rw [sum_inter_roster w U A hw, sum_inter_roster w U B hw] at hsplit
  have hunion : ∑ v ∈ A ∩ U ∪ B ∩ U, w v ≤ ∑ v ∈ U, w v :=
    Finset.sum_le_sum_of_subset
      (Finset.union_subset Finset.inter_subset_right Finset.inter_subset_right)
  have hheavy : ∑ v ∈ F, w v < ∑ v ∈ A ∩ U ∩ (B ∩ U), w v := by omega
  by_contra hnone
  push Not at hnone
  have hsub : A ∩ U ∩ (B ∩ U) ⊆ F := by
    intro v hv
    simp only [Finset.mem_inter] at hv
    by_contra hF
    exact hnone v hv.1.1 hv.2.1 hF hv.1.2
  exact absurd (Finset.sum_le_sum_of_subset hsub) (not_le.mpr hheavy)

end Quorum

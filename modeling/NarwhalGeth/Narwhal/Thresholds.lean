import NarwhalGeth.Narwhal.Messages

/-!
# Stake thresholds

The thresholds are computed on 64-bit stakes by truncating divisions. As long as twice the total
stake fits into 64 bits, they intersect as the protocol needs for every distribution of the stake.
-/

namespace Narwhal

variable {K D : Type} [DecidableEq K] [DecidableEq D] {names : Finset K}

namespace Committee

variable (committee : Committee K)

/-! ## Sets of authorities -/

/-- The stake of a set of names. Strangers have none. -/
def weight (names : Finset K) : ℕ := ∑ name ∈ names, committee.stake name

theorem weight_inter_roster (names : Finset K) :
    committee.weight (names ∩ committee.roster) = committee.weight names :=
  Quorum.sum_inter_roster committee.stake committee.roster names fun _ => committee.stake_eq_zero

theorem weight_mono {names' : Finset K} (h : names ⊆ names') :
    committee.weight names ≤ committee.weight names' :=
  Finset.sum_le_sum_of_subset h

theorem weight_add_le (names names' : Finset K) :
    committee.weight names + committee.weight names' ≤
      committee.allStake + committee.weight (names ∩ names') := by
  have hsplit : committee.weight (names ∪ names') + committee.weight (names ∩ names') =
      committee.weight names + committee.weight names' := Finset.sum_union_inter
  have hunion : committee.weight (names ∪ names') ≤ committee.allStake := committee.sum_stake_le _
  omega

theorem weight_compl (names : Finset K) :
    committee.weight (committee.roster \ names) + committee.weight names =
      committee.allStake := by
  rw [← committee.weight_inter_roster names, ← sum_roster_stake, Finset.inter_comm]
  rw [← Finset.sdiff_inter_self_left]
  exact Finset.sum_sdiff Finset.inter_subset_left

theorem exists_mem_of_weight_pos (h : 0 < committee.weight names) :
    ∃ name ∈ names, name ∈ committee.roster := by
  rw [← weight_inter_roster] at h
  obtain ⟨name, hname, -⟩ := Finset.exists_ne_zero_of_sum_ne_zero (Nat.ne_of_gt h)
  exact ⟨name, Finset.mem_inter.mp hname⟩

theorem lt_weight_inter (h : 2 * committee.allStake < 2 ^ 64) {A B : Finset K}
    (hA : committee.quorumThreshold ≤ committee.weight A)
    (hB : committee.quorumThreshold ≤ committee.weight B) :
    committee.allStake < committee.quorumThreshold + committee.weight (A ∩ B) := by
  have hle := committee.weight_add_le A B
  rw [quorumThreshold_eq h] at hA hB ⊢
  omega

/-- Quorums share more stake than a quorum leaves over, a validity quorum meets every quorum and is
in no set that a quorum can do without, and the authorities outside such a set are a quorum. -/
theorem thresholds_intersect (h : 2 * committee.allStake < 2 ^ 64) :
    let N : ℤ := committee.allStake
    let q : ℤ := committee.quorumThreshold
    let v : ℤ := committee.validityThreshold
    (∀ A B : Finset K, q ≤ committee.weight A → q ≤ committee.weight B →
      N - q < committee.weight (A ∩ B)) ∧
    (∀ A B : Finset K, v ≤ committee.weight A → q ≤ committee.weight B →
      ∃ name ∈ A ∩ B, name ∈ committee.roster) ∧
    (∀ A B : Finset K, v ≤ committee.weight A → committee.weight B ≤ N - q → ¬A ⊆ B) ∧
    ∀ A : Finset K, committee.weight A ≤ N - q → q ≤ committee.weight (committee.roster \ A) := by
  intro N q v
  have hlt := allStake_lt_validity_add_quorum h
  refine ⟨?_, ?_, ?_, ?_⟩
  · intro A B hA hB
    have hinter := committee.lt_weight_inter h (A := A) (B := B) (by omega) (by omega)
    omega
  · intro A B hA hB
    have hle := committee.weight_add_le A B
    exact committee.exists_mem_of_weight_pos (by omega)
  · intro A B hA hB hsub
    have hle := committee.weight_mono hsub
    omega
  · intro A hA
    have hcompl := committee.weight_compl A
    omega

/-- Stakes 1, 2, 5 and 9. -/
def Sample.uneven : Committee (Fin 4) where
  authorities := [⟨0, ⟨1, [0]⟩⟩, ⟨1, ⟨2, [1]⟩⟩, ⟨2, ⟨5, [2]⟩⟩, ⟨3, ⟨9, [3]⟩⟩].toAList
  epoch := 0

/-- A total of 17 gives the thresholds 12 and 6. -/
theorem thresholds_intersect_uneven :
    2 * Sample.uneven.allStake < 2 ^ 64 ∧ Sample.uneven.quorumThreshold = 12 ∧
      Sample.uneven.validityThreshold = 6 ∧
      (17 : ℤ) - 12 < Sample.uneven.weight ({2, 3} ∩ {0, 1, 3}) ∧
      (∃ name ∈ ({0, 2} : Finset (Fin 4)) ∩ {0, 1, 3}, name ∈ Sample.uneven.roster) ∧
      ¬({0, 2} : Finset (Fin 4)) ⊆ {2} ∧
        (12 : ℤ) ≤ Sample.uneven.weight (Sample.uneven.roster \ {2})
    := by
  obtain ⟨hquorums, hvalidity, hspare, hrest⟩ := thresholds_intersect Sample.uneven (by decide)
  exact ⟨by decide, by decide, by decide, hquorums _ _ (by decide) (by decide),
    hvalidity _ _ (by decide) (by decide), hspare _ _ (by decide) (by decide), hrest _ (by decide)⟩

end Committee

end Narwhal

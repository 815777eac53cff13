import NarwhalGeth.Lib.Quorum
import NarwhalGeth.Narwhal.Types

/-!
# The committee and its stake thresholds
-/

namespace Narwhal

structure Authority where
  stake : ℕ
  networkKey : NetworkPublicKey
deriving DecidableEq

structure Committee (K : Type) where
  authorities : Assoc K Authority
  epoch : ℕ

namespace Committee

variable {K : Type} [DecidableEq K] (committee : Committee K) {names names' : List K} {name : K}

/-- The voting power of an authority, zero for a stranger. -/
def stake (name : K) : ℕ :=
  match committee.authorities.lookup name with
  | some authority => authority.stake
  | none => 0

/-- The stake of all authorities. -/
def allStake : ℕ := (committee.authorities.values.map Authority.stake).sum

/-- The total stake as the thresholds compute it. Sums of stakes are `u64` and wrap around. -/
def totalStake : ℕ := committee.allStake % 2 ^ 64

/-- The stake required to reach a quorum (2f+1). -/
def quorumThreshold : ℕ := 2 * committee.totalStake % 2 ^ 64 / 3 + 1

/-- The stake required to reach availability (f+1). -/
def validityThreshold : ℕ := (committee.totalStake + 2) % 2 ^ 64 / 3

def authorityByNetworkKey (key : NetworkPublicKey) : Option K :=
  (committee.authorities.entries.find? fun e => e.2.networkKey = key).map fun e => e.1

theorem eq_of_authorityByNetworkKey {key key' : NetworkPublicKey}
    (h : committee.authorityByNetworkKey key = some name)
    (h' : committee.authorityByNetworkKey key' = some name) : key = key' := by
  obtain ⟨⟨_, authority⟩, hfind, rfl⟩ := Option.map_eq_some_iff.mp h
  obtain ⟨⟨_, authority'⟩, hfind', rfl⟩ := Option.map_eq_some_iff.mp h'
  have hlookup := Assoc.mem_entries_iff.mp (List.mem_of_find?_eq_some hfind)
  have hlookup' := Assoc.mem_entries_iff.mp (List.mem_of_find?_eq_some hfind')
  have heq : authority = authority' := Option.some.inj (hlookup.symm.trans hlookup')
  have hkey : authority.networkKey = key := by simpa using List.find?_some hfind
  have hkey' : authority'.networkKey = key' := by simpa using List.find?_some hfind'
  rw [← hkey, ← hkey', heq]

/-- The authorities of the committee as a set. -/
def roster : Finset K := committee.authorities.keys.toFinset

theorem stake_eq_zero (h : name ∉ committee.roster) : committee.stake name = 0 := by
  have hnone : committee.authorities.lookup name = none := by
    rw [AList.lookup_eq_none, AList.mem_keys]
    simpa [roster] using h
  rw [stake, hnone]

theorem sum_roster_stake :
    ∑ name ∈ committee.roster, committee.stake name = committee.allStake := by
  rw [roster, List.sum_toFinset _ committee.authorities.keys_nodup]
  simp only [allStake, Assoc.values, AList.keys, List.keys, List.map_map]
  congr 1
  refine List.map_congr_left ?_
  rintro ⟨name, authority⟩ h
  simp only [Function.comp_apply, stake, Assoc.mem_entries_iff.mp h]

theorem sum_stake_le (names : Finset K) :
    ∑ name ∈ names, committee.stake name ≤ committee.allStake := by
  rw [← sum_roster_stake, ← Quorum.sum_inter_roster committee.stake committee.roster names
    fun _ => committee.stake_eq_zero]
  exact Finset.sum_le_sum_of_subset Finset.inter_subset_right

/-- Two lists of distinct authorities that weigh more than the committee and the faulty ones
together share an authority that is not faulty. -/
theorem exists_mem_both (hnodup : names.Nodup) (hnodup' : names'.Nodup) (faulty : Finset K)
    (h : committee.allStake + ∑ name ∈ faulty, committee.stake name <
      (names.map committee.stake).sum + (names'.map committee.stake).sum) :
    ∃ name ∈ names, name ∈ names' ∧ name ∉ faulty ∧ name ∈ committee.roster := by
  rw [← List.sum_toFinset _ hnodup, ← List.sum_toFinset _ hnodup', ← sum_roster_stake] at h
  obtain ⟨name, hA, hB, hF, hU⟩ := Quorum.exists_mem_inter_not_mem committee.stake
    committee.roster names.toFinset names'.toFinset faulty
    (fun _ => committee.stake_eq_zero) h
  exact ⟨name, by simpa using hA, by simpa using hB, hF, hU⟩

/-! ## Without overflow -/

section NoOverflow

variable {committee} (h : 2 * committee.allStake < 2 ^ 64)
include h

section

omit [DecidableEq K]

theorem totalStake_eq : committee.totalStake = committee.allStake :=
  Nat.mod_eq_of_lt (by omega)

theorem quorumThreshold_eq : committee.quorumThreshold = 2 * committee.allStake / 3 + 1 := by
  rw [quorumThreshold, totalStake_eq h, Nat.mod_eq_of_lt h]

theorem validityThreshold_eq : committee.validityThreshold = (committee.allStake + 2) / 3 := by
  rw [validityThreshold, totalStake_eq h, Nat.mod_eq_of_lt (by omega)]

theorem allStake_lt_validity_add_quorum :
    committee.allStake < committee.validityThreshold + committee.quorumThreshold := by
  rw [validityThreshold_eq h, quorumThreshold_eq h]
  omega

theorem allStake_add_lt_quorum_add_quorum :
    committee.allStake + (committee.totalStake - committee.quorumThreshold) <
      committee.quorumThreshold + committee.quorumThreshold := by
  rw [totalStake_eq h, quorumThreshold_eq h]
  omega

end

/-- A sum of stakes of distinct authorities does not wrap around. -/
theorem sum_stake_mod (hnodup : names.Nodup) :
    (names.map committee.stake).sum % 2 ^ 64 = (names.map committee.stake).sum := by
  have hle : (names.map committee.stake).sum ≤ committee.allStake := by
    rw [← List.sum_toFinset _ hnodup]
    exact committee.sum_stake_le _
  exact Nat.mod_eq_of_lt (by omega)

theorem exists_mem_validity_quorum (hnodup : names.Nodup) (hnodup' : names'.Nodup)
    (hvalid : committee.validityThreshold ≤ (names.map committee.stake).sum)
    (hquorum : committee.quorumThreshold ≤ (names'.map committee.stake).sum) :
    ∃ name ∈ names, name ∈ names' := by
  have hlt := allStake_lt_validity_add_quorum h
  obtain ⟨name, hA, hB, -⟩ := committee.exists_mem_both hnodup hnodup' ∅
    (by rw [Finset.sum_empty]; omega)
  exact ⟨name, hA, hB⟩

end NoOverflow

end Committee

/-- The authorities of the sample are numbered. -/
instance Sample.neZero : NeZero 4 := ⟨by decide⟩

/-- Four authorities of stake one. -/
def Sample.committee : Committee (Fin 4) where
  authorities := [⟨0, ⟨1, [0]⟩⟩, ⟨1, ⟨1, [1]⟩⟩, ⟨2, ⟨1, [2]⟩⟩, ⟨3, ⟨1, [3]⟩⟩].toAList
  epoch := 0

theorem Sample.committee_stake : 2 * Sample.committee.allStake < 2 ^ 64 := by decide

/-- Twice the total stake wraps around, and any of the first three authorities is a quorum. -/
def Sample.overflowing : Committee (Fin 4) where
  authorities := [⟨0, ⟨2 ^ 62, [0]⟩⟩, ⟨1, ⟨2 ^ 62, [1]⟩⟩, ⟨2, ⟨2 ^ 62, [2]⟩⟩, ⟨3, ⟨1, [3]⟩⟩].toAList
  epoch := 0

end Narwhal

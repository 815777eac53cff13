import Mathlib.Logic.Function.Iterate
import NarwhalGeth.Clique.Production

/-!
# The course of the gas limit

Every block moves the gas limit towards the one that the miner desires, by at least three units and
by less than the verifier tolerates. So the limit gets there and stays.
-/

namespace Clique

variable {parent desired : ℕ}

/-- The limit that the miner heads for. -/
def gasTarget (desired : ℕ) : ℕ := max desired minGasLimit

/-- The way that is left from a limit to the target. -/
def gasGap (desired limit : ℕ) : ℕ := (limit - gasTarget desired) + (gasTarget desired - limit)

theorem gasGap_eq_zero : gasGap desired parent = 0 ↔ parent = gasTarget desired := by
  unfold gasGap
  omega

section Step

variable (hmin : minGasLimit ≤ parent) (hmax : parent ≤ maxGasLimit)
include hmin hmax

theorem calcGasLimit_between : min parent (gasTarget desired) ≤ calcGasLimit parent desired ∧
    calcGasLimit parent desired ≤ max parent (gasTarget desired) := by
  rw [calcGasLimit_eq hmin hmax]
  dsimp only
  rw [← gasTarget]
  split_ifs <;> omega

theorem gasGap_calcGasLimit :
    gasGap desired (calcGasLimit parent desired) ≤ gasGap desired parent - 3 := by
  have hdelta : 3 ≤ parent / gasLimitBoundDivisor - 1 := by
    unfold minGasLimit at hmin
    unfold gasLimitBoundDivisor
    omega
  rw [calcGasLimit_eq hmin hmax]
  dsimp only
  rw [← gasTarget, gasGap, gasGap]
  split_ifs <;> omega

theorem verifyGaslimit_calcGasLimit (hdesired : desired ≤ maxGasLimit) :
    verifyGaslimit parent (calcGasLimit parent desired) = .ok () := by
  obtain ⟨hlow, hhigh, hfloor, hroof⟩ := calcGasLimit_bounds hmin hmax hdesired
  exact verifyGaslimit_eq_ok hmax hroof hfloor hlow hhigh

end Step

/-- After `m` blocks the gap has become smaller by `3 * m`, and the limit is still in its range. -/
theorem iterate_calcGasLimit (hmin : minGasLimit ≤ parent) (hmax : parent ≤ maxGasLimit)
    (hdesired : desired ≤ maxGasLimit) (m : ℕ) :
    let limit := (fun limit => calcGasLimit limit desired)^[m] parent
    minGasLimit ≤ limit ∧ limit ≤ maxGasLimit ∧
      gasGap desired limit ≤ gasGap desired parent - 3 * m := by
  induction m with
  | zero => exact ⟨hmin, hmax, le_rfl⟩
  | succ m ih =>
    obtain ⟨hlow, hhigh, hgap⟩ := ih
    dsimp only
    rw [Function.iterate_succ_apply']
    obtain ⟨-, -, hfloor, hroof⟩ := calcGasLimit_bounds hlow hhigh hdesired
    have hstep : gasGap desired (calcGasLimit _ desired) ≤ _ := gasGap_calcGasLimit hlow hhigh
    exact ⟨hfloor, hroof, by omega⟩

/-- The limit chosen on a parent's, or on twice that at the London fork, is accepted against it and
lies between it and the target, which is reached in at most a third of the gap in blocks, and kept.
-/
theorem gas_limit_converges (hmin : minGasLimit ≤ parent) (hmax : parent ≤ maxGasLimit / 2)
    (hdesired : desired ≤ maxGasLimit) :
    (∀ base ∈ [parent, parent * elasticityMultiplier % 2 ^ 64],
      verifyGaslimit base (calcGasLimit base desired) = .ok () ∧
        min base (max desired minGasLimit) ≤ calcGasLimit base desired ∧
        calcGasLimit base desired ≤ max base (max desired minGasLimit)) ∧
    ∀ m, gasGap desired parent ≤ 3 * m →
      (fun limit => calcGasLimit limit desired)^[m] parent = max desired minGasLimit := by
  have hhalf : maxGasLimit / 2 * 2 ≤ maxGasLimit := Nat.div_mul_le_self _ _
  constructor
  · intro base hbase
    have hrange : minGasLimit ≤ base ∧ base ≤ maxGasLimit := by
      simp only [List.mem_cons, List.not_mem_nil, or_false, elasticityMultiplier] at hbase
      rcases hbase with rfl | rfl
      · omega
      · rw [Nat.mod_eq_of_lt (lt_of_le_of_lt (by omega : parent * 2 ≤ maxGasLimit) (by decide))]
        omega
    exact ⟨verifyGaslimit_calcGasLimit hrange.1 hrange.2 hdesired,
      calcGasLimit_between hrange.1 hrange.2⟩
  · intro m hm
    obtain ⟨-, -, hgap⟩ := iterate_calcGasLimit hmin (by omega) hdesired m
    exact gasGap_eq_zero.mp (by omega)

/-- From the limit of the genesis block, 4712388, up to thirty millions. -/
theorem gas_limit_converges_genesis :
    verifyGaslimit 4712388 (calcGasLimit 4712388 30000000) = .ok () ∧
      (fun limit => calcGasLimit limit 30000000)^[8429204] 4712388 = 30000000 := by
  obtain ⟨hvalid, hconverges⟩ := @gas_limit_converges 4712388 30000000 (by decide) (by decide)
    (by decide)
  exact ⟨(hvalid 4712388 (by decide)).1, hconverges 8429204 (by decide)⟩

end Clique

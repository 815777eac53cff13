import NarwhalGeth.Lib.Fallible
import NarwhalGeth.Narwhal.Bullshark

/-!
# The walk back through the leaders

`orderLeaders` is a loop over the even rounds between the last committed one and the new leader. Its
result is described by the relation `LeaderWalk`, with one constructor for each way an iteration can
end, and `electLeaders` by the conditions under which it commits.
-/

namespace Narwhal

variable {K D : Type} [DecidableEq K] [DecidableEq D]
  {acc acc' : List (Certificate K D) × Certificate K D} {leaders : List (Certificate K D)}
  {state : ConsensusState K D} {leaderAuthority : ℕ → K} {dag : Dag K D}

/-! ## The rounds visited -/

theorem stepByTwo_range' (m j : ℕ) :
    stepByTwo (List.range' (2 * m + 2) (2 * j - 1)).reverse =
      (List.range' (m + 1) j).reverse.map (2 * ·) := by
  induction j with
  | zero => rfl
  | succ j ih =>
    have htop : 2 * (j + 1) - 1 = 2 * j + 1 := by omega
    rw [htop, List.range'_1_concat, List.range'_1_concat, List.reverse_append, List.reverse_append]
    simp only [List.reverse_cons, List.reverse_nil, List.nil_append, List.cons_append,
      List.map_cons, ← ih]
    cases j with
    | zero =>
      have hround : 2 * m + 2 = 2 * (m + 1) := by omega
      simp [stepByTwo, hround]
    | succ j =>
      rw [show 2 * (j + 1) - 1 = 2 * j + 1 by omega, show 2 * (j + 1) = 2 * j + 1 + 1 by omega,
        List.range'_1_concat, List.reverse_append]
      simp only [List.reverse_cons, List.reverse_nil, List.nil_append, List.cons_append, stepByTwo]
      rw [show 2 * m + 2 + (2 * j + 1 + 1) = 2 * (m + 1 + (j + 1)) by omega]

theorem mem_of_mem_stepByTwo {xs : List ℕ} {r : ℕ} (h : r ∈ stepByTwo xs) : r ∈ xs := by
  induction xs using stepByTwo.induct with
  | case1 => exact h
  | case2 x => exact h
  | case3 x y xs ih =>
    rw [stepByTwo, List.mem_cons] at h
    rcases h with rfl | h
    · exact List.mem_cons_self
    · exact List.mem_cons_of_mem _ (List.mem_cons_of_mem _ (ih h))

/-- The walk visits the even rounds strictly between the last committed round and the leader's,
highest first. -/
theorem leaderRounds_eq (m j : ℕ) :
    leaderRounds (2 * m) (2 * (m + j + 1)) = (List.range' (m + 1) j).reverse.map (2 * ·) := by
  rw [leaderRounds, ← stepByTwo_range']
  congr 3
  omega

/-! ## The walk -/

/-- The leaders found by walking from `x` over the `j` even rounds above round `2 * m`, highest
first. -/
inductive LeaderWalk (leaderAuthority : ℕ → K) (dag : Dag K D) (m : ℕ) :
    ℕ → Certificate K D → List (Certificate K D) → Prop
  | stop (x : Certificate K D) : LeaderWalk leaderAuthority dag m 0 x []
  | missing {j : ℕ} {x : Certificate K D} {found : List (Certificate K D)}
      (hnone : leader leaderAuthority (2 * (m + j + 1)) dag = none)
      (rest : LeaderWalk leaderAuthority dag m j x found) :
      LeaderWalk leaderAuthority dag m (j + 1) x found
  | unlinked {j : ℕ} {x p : Certificate K D} {d : D} {found : List (Certificate K D)}
      (hsome : leader leaderAuthority (2 * (m + j + 1)) dag = some (d, p))
      (hlinked : linked x p dag = .ok false)
      (rest : LeaderWalk leaderAuthority dag m j x found) :
      LeaderWalk leaderAuthority dag m (j + 1) x found
  | linked {j : ℕ} {x p : Certificate K D} {d : D} {found : List (Certificate K D)}
      (hsome : leader leaderAuthority (2 * (m + j + 1)) dag = some (d, p))
      (hlinked : linked x p dag = .ok true)
      (rest : LeaderWalk leaderAuthority dag m j p found) :
      LeaderWalk leaderAuthority dag m (j + 1) x (p :: found)

theorem orderLeadersStep_cases {r : ℕ} (h : orderLeadersStep leaderAuthority dag acc r = .ok acc') :
    (leader leaderAuthority r dag = none ∧ acc' = acc) ∨
    ∃ d p, leader leaderAuthority r dag = some (d, p) ∧
      ((Narwhal.linked acc.2 p dag = .ok false ∧ acc' = acc) ∨
        (Narwhal.linked acc.2 p dag = .ok true ∧ acc' = (acc.1 ++ [p], p))) := by
  unfold orderLeadersStep at h
  cases hleader : leader leaderAuthority r dag with
  | none =>
    rw [hleader] at h
    cases h
    exact .inl ⟨rfl, rfl⟩
  | some entry =>
    obtain ⟨d, p⟩ := entry
    rw [hleader] at h
    obtain ⟨isLinked, hlinked, hrest⟩ := Except.eq_ok_of_bind h
    refine .inr ⟨d, p, rfl, ?_⟩
    cases isLinked with
    | false =>
      cases hrest
      exact .inl ⟨hlinked, rfl⟩
    | true =>
      cases hrest
      exact .inr ⟨hlinked, rfl⟩

theorem foldlM_orderLeadersStep (m j : ℕ) (h : ((List.range' (m + 1) j).reverse.map (2 * ·)).foldlM
      (orderLeadersStep leaderAuthority dag) acc = .ok acc') :
    ∃ found, acc'.1 = acc.1 ++ found ∧ LeaderWalk leaderAuthority dag m j acc.2 found := by
  induction j generalizing acc with
  | zero =>
    cases h
    exact ⟨[], by simp, .stop _⟩
  | succ j ih =>
    rw [List.range'_1_concat, List.reverse_append, Nat.add_right_comm] at h
    simp only [List.reverse_cons, List.reverse_nil, List.nil_append, List.cons_append,
      List.map_cons, List.foldlM_cons] at h
    obtain ⟨mid, hstep, hrest⟩ := Except.eq_ok_of_bind h
    obtain ⟨found, happ, hwalk⟩ := ih hrest
    rcases orderLeadersStep_cases hstep with
      ⟨hnone, rfl⟩ | ⟨d, p, hsome, ⟨hlinked, rfl⟩ | ⟨hlinked, rfl⟩⟩
    · exact ⟨found, happ, .missing hnone hwalk⟩
    · exact ⟨found, happ, .unlinked hsome hlinked hwalk⟩
    · exact ⟨p :: found, by simp [happ], .linked hsome hlinked hwalk⟩

theorem orderLeaders_walk {L : Certificate K D} {m j : ℕ} (hlast : state.lastCommittedRound = 2 * m)
    (hround : L.round = 2 * (m + j + 1)) (h : orderLeaders leaderAuthority L state = .ok leaders) :
    ∃ found, leaders = L :: found ∧ LeaderWalk leaderAuthority state.dag m j L found := by
  unfold orderLeaders at h
  have heven : ¬L.round % 2 ≠ 0 := by omega
  simp only [if_neg heven] at h
  rw [hlast, hround, leaderRounds_eq] at h
  obtain ⟨acc, hfold, hret⟩ := Except.eq_ok_of_bind h
  obtain ⟨found, happ, hwalk⟩ := foldlM_orderLeadersStep m j hfold
  cases hret
  exact ⟨found, happ, hwalk⟩

/-! ## Electing leaders -/

/-- Either no leader is committed, or the leader of the previous round is in the DAG with the
support of a validity quorum and the walk from it returns. -/
theorem Bullshark.electLeaders_cases {b : Bullshark K} {round : ℕ} {outcome : Outcome}
    (h : b.electLeaders state round = .ok (outcome, leaders)) :
    leaders = [] ∨ ∃ d L table newestFirst,
      (round - 1) % 2 = 0 ∧ state.lastCommittedRound < round - 1 ∧
      leader b.leaderAuthority (round - 1) state.dag = some (d, L) ∧
      state.dag.lookup round = some table ∧
      b.committee.validityThreshold ≤ b.supportStake table d ∧
      orderLeaders b.leaderAuthority L state = .ok newestFirst ∧
      leaders = newestFirst.reverse := by
  unfold electLeaders at h
  dsimp only at h
  split_ifs at h with hodd hlow
  · cases h
    exact .inl rfl
  · cases h
    exact .inl rfl
  · cases hleader : leader b.leaderAuthority (round - 1) state.dag with
    | none =>
      rw [hleader] at h
      cases h
      exact .inl rfl
    | some entry =>
      obtain ⟨d, L⟩ := entry
      rw [hleader] at h
      cases htable : state.dag.lookup round with
      | none =>
        rw [htable] at h
        cases h
      | some table =>
        rw [htable] at h
        dsimp only at h
        split_ifs at h with hsupport
        · cases h
          exact .inl rfl
        · cases horder : orderLeaders b.leaderAuthority L state with
          | error e =>
            rw [horder] at h
            cases h
          | ok newestFirst =>
            rw [horder] at h
            cases h
            exact .inr ⟨d, L, table, newestFirst, by omega, by omega, rfl, rfl, by omega, horder,
              rfl⟩

end Narwhal

import NarwhalGeth.Narwhal.Leaders
import NarwhalGeth.Narwhal.Refinement

/-!
# Every commit extends the ledger

The leaders that a certificate elects are delivered certificates of increasing even rounds above the
last committed one, so committing them appends their sub-dags to the ledger.
-/

namespace Narwhal

variable {K D : Type} [DecidableEq K] [DecidableEq D] {subDags : List (CommittedSubDag K D)}
  {leaders certificates found : List (Certificate K D)} {c L : Certificate K D}
  {core core' : Core K D} {outcome : Outcome} {round : ℕ}
variable {P : Pool K D} {b : Bullshark K} {delivered : Set (Certificate K D)}
  {state : ConsensusState K D} {A : Frontier K}

/-- Leaders that can be committed on top of a frontier, oldest first. -/
structure Committable (delivered : Set (Certificate K D)) (A : Frontier K)
    (leaders : List (Certificate K D)) : Prop where
  delivered : ∀ L ∈ leaders, L ∈ delivered
  even : ∀ L ∈ leaders, L.round % 2 = 0
  above : ∀ L ∈ leaders, A.lastCommittedRound < L.round
  increasing : leaders.Pairwise fun L L' => L.round < L'.round

omit [DecidableEq K] [DecidableEq D] in
theorem Committable.take (h : Committable delivered A leaders) (k : ℕ) :
    Committable delivered A (leaders.take k) where
  delivered L hL := h.delivered L (List.mem_of_mem_take hL)
  even L hL := h.even L (List.mem_of_mem_take hL)
  above L hL := h.above L (List.mem_of_mem_take hL)
  increasing := h.increasing.sublist (List.take_sublist k leaders)

/-- A leader with the support of a validity quorum, and the walk back from it to the last committed
round `2 * m`. -/
structure Elects (b : Bullshark K) (state : ConsensusState K D) (round : ℕ) (m j : ℕ)
    (L : Certificate K D) (found : List (Certificate K D)) : Prop where
  last : state.lastCommittedRound = 2 * m
  round_eq : round = 2 * (m + j + 1) + 1
  cell : leader b.leaderAuthority (2 * (m + j + 1)) state.dag = some (L.digest, L)
  support : ∃ table, state.dag.lookup round = some table ∧
    b.committee.validityThreshold ≤ b.supportStake table L.digest
  leaderRound : L.round = 2 * (m + j + 1)
  walk : LeaderWalk b.leaderAuthority state.dag m j L found

namespace Refines

/-! ## Elected leaders -/

omit [DecidableEq D] in
theorem leader_cell (h : Refines P b.gcDepth delivered state A) {r : ℕ} {d : D}
    {p : Certificate K D} (hsome : leader b.leaderAuthority r state.dag = some (d, p)) :
    p ∈ delivered ∧ p.round = r ∧ p.origin = b.leaderAuthority r ∧ d = p.digest := by
  obtain ⟨hmem, hround, horigin, hdigest, -⟩ := h.cells _ _ _ _ hsome
  exact ⟨hmem, hround, horigin, hdigest⟩

section

variable (h : Refines P b.gcDepth delivered state A)

include h

theorem walk_found {m j : ℕ} {x : Certificate K D}
    (hwalk : LeaderWalk b.leaderAuthority state.dag m j x found) :
    (∀ p ∈ found, p ∈ delivered ∧ p.round % 2 = 0 ∧ 2 * m < p.round ∧ p.round < 2 * (m + 1 + j)) ∧
      found.Pairwise fun p p' => p'.round < p.round := by
  induction hwalk with
  | stop => simp
  | missing _ _ ih | unlinked _ _ _ ih =>
    refine ⟨fun p hp => ?_, ih.2⟩
    obtain ⟨hdel, heven, hlow, hhigh⟩ := ih.1 p hp
    exact ⟨hdel, heven, hlow, by omega⟩
  | linked hsome _ _ ih =>
    obtain ⟨hdel, hround, -⟩ := h.leader_cell hsome
    refine ⟨?_, ?_⟩
    · intro p hp
      rcases List.mem_cons.mp hp with rfl | hp
      · exact ⟨hdel, by omega, by omega, by omega⟩
      · obtain ⟨hdel', heven, hlow, hhigh⟩ := ih.1 p hp
        exact ⟨hdel', heven, hlow, by omega⟩
    · refine List.pairwise_cons.mpr ⟨fun p hp => ?_, ih.2⟩
      have hhigh := (ih.1 p hp).2.2.2
      omega

theorem electLeaders_cases (heven : A.lastCommittedRound % 2 = 0)
    (helect : b.electLeaders state round = .ok (outcome, leaders)) :
    leaders = [] ∨ ∃ m j L found, Elects b state round m j L found ∧
      leaders = (L :: found).reverse := by
  rcases Bullshark.electLeaders_cases helect with
    hnil | ⟨d, L, table, newestFirst, hround, hlow, hleader, htable, hsupport, horder, rfl⟩
  · exact .inl hnil
  · right
    rw [h.lastCommittedRound] at hlow
    obtain ⟨hdel, hLround, horigin, rfl⟩ := h.leader_cell hleader
    obtain ⟨m, hm⟩ : ∃ m, A.lastCommittedRound = 2 * m := ⟨A.lastCommittedRound / 2, by omega⟩
    obtain ⟨j, hj⟩ : ∃ j, round - 1 = 2 * (m + j + 1) := ⟨(round - 1) / 2 - m - 1, by omega⟩
    rw [hj] at hleader hLround
    have hlast : state.lastCommittedRound = 2 * m := h.lastCommittedRound.trans hm
    obtain ⟨found, rfl, hwalk⟩ := orderLeaders_walk hlast hLround horder
    exact ⟨m, j, L, found, ⟨hlast, by omega, hleader, ⟨table, htable, hsupport⟩, hLround, hwalk⟩,
      rfl⟩

theorem committable {m j : ℕ} (he : Elects b state round m j L found) :
    Committable delivered A (L :: found).reverse := by
  have hL := h.leader_cell he.cell
  obtain ⟨hfound, hdecreasing⟩ := h.walk_found he.walk
  have hlast := h.lastCommittedRound.symm.trans he.last
  have hround := he.leaderRound
  refine ⟨?_, ?_, ?_, ?_⟩
  · intro p hp
    rcases List.mem_cons.mp (List.mem_reverse.mp hp) with rfl | hp
    · exact hL.1
    · exact (hfound p hp).1
  · intro p hp
    rcases List.mem_cons.mp (List.mem_reverse.mp hp) with rfl | hp
    · omega
    · exact (hfound p hp).2.1
  · intro p hp
    rcases List.mem_cons.mp (List.mem_reverse.mp hp) with rfl | hp
    · omega
    · have hlow := (hfound p hp).2.2.1
      omega
  · rw [List.pairwise_reverse, List.pairwise_cons]
    refine ⟨fun p hp => ?_, hdecreasing⟩
    have hhigh := (hfound p hp).2.2.2
    omega

end

/-! ## Committing leaders -/

theorem commitLeader (h : Refines P b.gcDepth delivered core.state A) (hL : L ∈ delivered)
    (habove : A.lastCommittedRound < L.round) :
    ∃ certificates, SubDagOf P b.gcDepth A L certificates ∧
      (b.commitLeader core L).1 = ⟨certificates, L, core.state.latestSubDagIndex + 1⟩ ∧
      (b.commitLeader core L).2.state.latestSubDagIndex = core.state.latestSubDagIndex + 1 ∧
      Refines P b.gcDepth delivered (b.commitLeader core L).2.state (A.commitAll certificates) := by
  refine ⟨_, h.subDagOf_orderDag hL habove, ?_, ?_, (h.foldl_update _).withIndex _⟩
  · simp only [Bullshark.commitLeader, ConsensusState.foldl_update_latestSubDagIndex]
  · simp only [Bullshark.commitLeader, ConsensusState.foldl_update_latestSubDagIndex]

theorem commitLeaders (h : Refines P b.gcDepth delivered core.state A)
    (hleaders : Committable delivered A leaders) :
    ∃ A', Ledger P b.gcDepth A core.state.latestSubDagIndex leaders
        (b.commitLeaders core leaders).1 A' ∧
      (b.commitLeaders core leaders).2.state.latestSubDagIndex =
        core.state.latestSubDagIndex + leaders.length ∧
      Refines P b.gcDepth delivered (b.commitLeaders core leaders).2.state A' := by
  induction leaders generalizing core A with
  | nil => exact ⟨A, .nil A _, rfl, h⟩
  | cons L leaders ih =>
    have hL := hleaders.delivered L List.mem_cons_self
    have habove := hleaders.above L List.mem_cons_self
    obtain ⟨certificates, hsub, hout, hindex, hnext⟩ := h.commitLeader (b := b) hL habove
    have hincreasing := List.pairwise_cons.mp hleaders.increasing
    have htop := hsub.lastCommittedRound_commitAll habove
    obtain ⟨A', hledger, hindex', hrefines⟩ := ih hnext
      ⟨fun p hp => hleaders.delivered p (List.mem_cons_of_mem _ hp),
        fun p hp => hleaders.even p (List.mem_cons_of_mem _ hp),
        fun p hp => htop.symm ▸ hincreasing.1 p hp, hincreasing.2⟩
    refine ⟨A', ?_, ?_, hrefines⟩
    · rw [hindex] at hledger
      have hcons := Ledger.cons (h.pool L hL) habove (hleaders.even L List.mem_cons_self) hsub
        hledger
      rw [← hout] at hcons
      exact hcons
    · rw [Bullshark.commitLeaders]
      rw [hindex', hindex, List.length_cons]
      omega

/-! ## Processing a certificate -/

end Refines

theorem Bullshark.processCertificate_cases
    (h : b.processCertificate core c = .ok (outcome, subDags, core')) :
    (∃ state, core.state.tryInsert c = .ok (state, false) ∧ subDags = [] ∧
      core' = { core with state }) ∨
    (∃ state leaders, core.state.tryInsert c = .ok (state, true) ∧
      b.electLeaders state c.round = .ok (outcome, leaders) ∧
      (subDags, core') = b.commitLeaders { core with state } leaders) := by
  obtain ⟨⟨state, inserted⟩, hinsert, hrest⟩ := Except.eq_ok_of_bind h
  cases inserted with
  | false =>
    cases hrest
    exact .inl ⟨state, hinsert, rfl, rfl⟩
  | true =>
    obtain ⟨⟨outcome', leaders⟩, helect, hcommit⟩ := Except.eq_ok_of_bind hrest
    obtain ⟨houtcome, hcommit⟩ := Prod.mk.inj (Except.ok.inj hcommit)
    exact .inr ⟨state, leaders, hinsert, houtcome ▸ helect, hcommit.symm⟩

namespace Refines

/-- Processing a certificate of the pool whose parents were delivered inserts it and then commits
nothing or the leaders it elects. -/
theorem processCertificate (h : Refines P b.gcDepth delivered core.state A)
    (heven : A.lastCommittedRound % 2 = 0) (hc : c ∈ P) (hparents : ∀ p ∈ P, p.IsParent c →
      p ∈ delivered ∨ p.round + b.gcDepth < A.lastCommittedRound)
    (hok : b.processCertificate core c = .ok (outcome, subDags, core')) :
    ∃ state leaders, Refines P b.gcDepth (insert c delivered) state A ∧
      state.lastCommitted = core.state.lastCommitted ∧
      state.latestSubDagIndex = core.state.latestSubDagIndex ∧
      (subDags, core') = b.commitLeaders { core with state } leaders ∧
      (leaders = [] ∨ ∃ m j L found, Elects b state c.round m j L found ∧
        leaders = (L :: found).reverse) := by
  rcases Bullshark.processCertificate_cases hok with
    ⟨state, hinsert, rfl, rfl⟩ | ⟨state, leaders, hinsert, helect, hcommit⟩
  · obtain ⟨hstate, hmap, hindex⟩ := h.tryInsert hc hparents hinsert
    exact ⟨state, [], hstate, hmap, hindex, rfl, .inl rfl⟩
  · obtain ⟨hstate, hmap, hindex⟩ := h.tryInsert hc hparents hinsert
    exact ⟨state, leaders, hstate, hmap, hindex, hcommit, hstate.electLeaders_cases heven helect⟩

end Refines

/-! ## A node's output is a ledger -/

/-- The sub-dags emitted so far are the ledger of `leaders`, and the memory refines its frontier. -/
structure Ledgered (P : Pool K D) (b : Bullshark K) (delivered : Set (Certificate K D))
    (state : ConsensusState K D) (emitted : List (CommittedSubDag K D))
    (leaders : List (Certificate K D)) (A : Frontier K) : Prop where
  refines : Refines P b.gcDepth delivered state A
  ledger : Ledger P b.gcDepth .start 0 leaders emitted A
  index : state.latestSubDagIndex = leaders.length

namespace Ledgered

variable {emitted : List (CommittedSubDag K D)} {leaders : List (Certificate K D)}

theorem new (hfits : ∀ c ∈ P, c.round + b.gcDepth < 2 ^ 64) :
    Ledgered P b ∅ .new [] [] .start :=
  ⟨.new hfits, .nil _ _, rfl⟩

theorem even (h : Ledgered P b delivered state emitted leaders A) :
    A.lastCommittedRound % 2 = 0 :=
  h.ledger.lastCommittedRound_even rfl

theorem commitLeaders (core : Core K D)
    (h : Ledgered P b delivered core.state emitted leaders A) {newLeaders : List (Certificate K D)}
    (hnew : Committable delivered A newLeaders) :
    ∃ A', Ledgered P b delivered (b.commitLeaders core newLeaders).2.state
      (emitted ++ (b.commitLeaders core newLeaders).1) (leaders ++ newLeaders) A' := by
  obtain ⟨A', hledger, hindex, hrefines⟩ := h.refines.commitLeaders hnew
  rw [h.index] at hledger hindex
  refine ⟨A', hrefines, h.ledger.append ?_, ?_⟩
  · rwa [Nat.zero_add]
  · rw [hindex, List.length_append]

/-- A processed certificate extends the ledger by the leaders that were elected, if any. -/
theorem processCertificate (h : Ledgered P b delivered core.state emitted leaders A) (hc : c ∈ P)
    (hparents : ∀ p ∈ P, p.IsParent c →
      p ∈ delivered ∨ p.round + b.gcDepth < A.lastCommittedRound)
    (hok : b.processCertificate core c = .ok (outcome, subDags, core')) :
    ∃ leaders' A', Ledgered P b (insert c delivered) core'.state (emitted ++ subDags) leaders' A' ∧
      (leaders' = leaders ∨ ∃ state m j L found,
        Ledgered P b (insert c delivered) state emitted leaders A ∧
          Elects b state c.round m j L found ∧ leaders' = leaders ++ (L :: found).reverse) := by
  obtain ⟨state, newLeaders, hrefines, -, hindex, hcommit, hnew⟩ :=
    h.refines.processCertificate h.even hc hparents hok
  have h' : Ledgered P b (insert c delivered) state emitted leaders A :=
    ⟨hrefines, h.ledger, hindex.trans h.index⟩
  rcases hnew with rfl | ⟨m, j, L, found, helects, rfl⟩
  · cases hcommit
    rw [List.append_nil]
    exact ⟨leaders, A, h', .inl rfl⟩
  · obtain ⟨A', hcommitted⟩ := Ledgered.commitLeaders ⟨state, core.store⟩ h'
      (hrefines.committable helects)
    rw [← hcommit] at hcommitted
    exact ⟨_, A', hcommitted, .inr ⟨state, m, j, L, found, h', helects, rfl⟩⟩

end Ledgered

/-! ## Runs -/

/-- Each certificate is delivered after those of its parents that are in the pool. -/
def ParentsFirst (P : Pool K D) (certificates : List (Certificate K D)) : Prop :=
  ∀ earlier c later, certificates = earlier ++ c :: later →
    ∀ p ∈ P, p.IsParent c → p ∈ earlier

section

omit [DecidableEq K] [DecidableEq D]

theorem ParentsFirst.of_append {later : List (Certificate K D)}
    (h : ParentsFirst P (certificates ++ later)) : ParentsFirst P certificates :=
  fun earlier x rest heq => h earlier x (rest ++ later) (by simp [heq])

theorem ParentsFirst.of_forall_fin
    (h : ∀ i : Fin certificates.length, ∀ p ∈ P, p.IsParent (certificates.get i) →
      p ∈ certificates.take i) : ParentsFirst P certificates := by
  rintro earlier c later rfl p hp hparent
  have hi := h ⟨earlier.length, by simp⟩ p hp (by simpa using hparent)
  simpa using hi

end

theorem Bullshark.run_append_singleton (certificates : List (Certificate K D))
    (c : Certificate K D) : b.run (certificates ++ [c]) = b.deliver (b.run certificates) c := by
  rw [Bullshark.run, List.foldl_append]
  rfl

/-- What a delivery can do to a node. -/
theorem Bullshark.deliver_cases (b : Bullshark K) (node : Node K D) (c : Certificate K D) :
    (node.halted = true ∧ b.deliver node c = node) ∨
    (node.halted = false ∧ ∃ fault, b.processCertificate node.core c = .error fault ∧
      b.deliver node c = { node with halted := true }) ∨
    (node.halted = false ∧ ∃ outcome subDags core,
      b.processCertificate node.core c = .ok (outcome, subDags, core) ∧
      b.deliver node c = { core, emitted := node.emitted ++ subDags, halted := false }) := by
  unfold Bullshark.deliver
  cases hhalted : node.halted with
  | true => exact .inl ⟨rfl, if_pos rfl⟩
  | false =>
    right
    cases hprocess : b.processCertificate node.core c with
    | error fault => exact .inl ⟨rfl, fault, rfl, rfl⟩
    | ok result =>
      obtain ⟨outcome, subDags, core⟩ := result
      exact .inr ⟨rfl, outcome, subDags, core, rfl, rfl⟩

/-- A run over a pool, parents first, emits a ledger. A property of the committed leaders that every
election preserves holds along the run. -/
theorem Bullshark.run_ledgered (Q : List (Certificate K D) → Prop) (hnil : Q [])
    (hstep : ∀ {delivered : Set (Certificate K D)} {state : ConsensusState K D} {emitted leaders A}
      {round m j L found}, Ledgered P b delivered state emitted leaders A → Q leaders →
      Elects b state round m j L found → Q (leaders ++ (L :: found).reverse))
    (hfits : ∀ c ∈ P, c.round + b.gcDepth < 2 ^ 64) (hpool : ∀ c ∈ certificates, c ∈ P)
    (hfirst : ParentsFirst P certificates) :
    ∃ delivered leaders A, Ledgered P b delivered (b.run certificates).core.state
        (b.run certificates).emitted leaders A ∧ Q leaders ∧
      ((b.run certificates).halted = false → delivered = {c | c ∈ certificates}) := by
  induction certificates using List.reverseRecOn with
  | nil =>
    refine ⟨∅, [], .start, .new hfits, hnil, fun _ => ?_⟩
    simp
  | append_singleton certificates c ih =>
    have hc : c ∈ P := hpool c (by simp)
    obtain ⟨delivered, leaders, A, h, hQ, hdelivered⟩ := ih
      (fun x hx => hpool x (List.mem_append_left _ hx))
      hfirst.of_append
    rw [run_append_singleton]
    rcases b.deliver_cases (b.run certificates) c with
      ⟨hhalted, heq⟩ | ⟨-, fault, -, heq⟩ | ⟨hrunning, outcome, subDags, core, hok, heq⟩
    · rw [heq]
      exact ⟨delivered, leaders, A, h, hQ, fun hfalse => by rw [hhalted] at hfalse; cases hfalse⟩
    · rw [heq]
      exact ⟨delivered, leaders, A, h, hQ, fun hfalse => by cases hfalse⟩
    · rw [heq]
      have hset : insert c delivered = {x | x ∈ certificates ++ [c]} := by
        rw [hdelivered hrunning]
        ext x
        simp [or_comm]
      have hparents : ∀ p ∈ P, p.IsParent c →
          p ∈ delivered ∨ p.round + b.gcDepth < A.lastCommittedRound := by
        intro p hp hparent
        rw [hdelivered hrunning]
        exact .inl (hfirst certificates c [] rfl p hp hparent)
      obtain ⟨leaders', A', h', hleaders⟩ := h.processCertificate hc hparents hok
      refine ⟨_, leaders', A', h', ?_, fun _ => hset⟩
      rcases hleaders with rfl | ⟨state, m, j, L, found, hbefore, helects, rfl⟩
      · exact hQ
      · exact hstep hbefore hQ helects

end Narwhal

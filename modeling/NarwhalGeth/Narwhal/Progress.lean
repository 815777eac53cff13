import NarwhalGeth.Narwhal.Agreement

/-!
# Supported leaders are committed

The child with which the support of a leader becomes a validity quorum elects the leader, and
leaders that were passed over before are ancestors of the elected one. So a validator commits every
leader with enough support among the certificates that it was given, in whatever order they came.
-/

namespace Narwhal

variable {K D : Type} [DecidableEq K] {leaders certificates : List (Certificate K D)}
  {subDags : List (CommittedSubDag K D)} {c : Certificate K D} {outcome : Outcome}
variable {P : Pool K D} {b : Bullshark K} {delivered : Set (Certificate K D)}
  {state : ConsensusState K D} {A : Frontier K} {L : Certificate K D}

/-- The leader of an even round, which a validity quorum of the certificates names as a parent. -/
structure Electable (P : Pool K D) (b : Bullshark K) (certs : Set (Certificate K D))
    (L : Certificate K D) : Prop where
  mem : L ∈ P
  even : L.round % 2 = 0
  origin : L.origin = b.leaderAuthority L.round
  support : ∃ children : List (Certificate K D),
    (∀ c ∈ children, c ∈ certs ∧ L.IsParent c) ∧ (children.map Certificate.origin).Nodup ∧
    b.committee.validityThreshold ≤ ((children.map Certificate.origin).map b.committee.stake).sum

theorem Electable.two_le (h : Electable P b delivered L) : 2 ≤ L.round := by
  have hpos := P.round_pos L h.mem
  have heven := h.even
  omega

/-- A validity quorum is not empty, since it meets the parents of the leader. -/
theorem Electable.exists_child (hq : P.Quorate b.committee) (h : Electable P b delivered L) :
    ∃ c ∈ delivered, L.IsParent c := by
  obtain ⟨children, hchildren, hnodup, hvalid⟩ := h.support
  obtain ⟨parents, -, hnodup', hquorum⟩ := hq.parents L h.mem h.two_le
  obtain ⟨name, hname, -⟩ :=
    Committee.exists_mem_validity_quorum hq.stake hnodup hnodup' hvalid hquorum
  obtain ⟨c, hc, -⟩ := List.mem_map.mp hname
  exact ⟨c, hchildren c hc⟩

/-- A certificate that is no child of the leader does not add to its support. -/
theorem Electable.of_insert (h : Electable P b (insert c delivered) L) (hc : ¬L.IsParent c) :
    Electable P b delivered L := by
  obtain ⟨children, hchildren, hrest⟩ := h.support
  refine ⟨h.mem, h.even, h.origin, children, fun x hx => ?_, hrest⟩
  obtain ⟨rfl | hmem, hparent⟩ := hchildren x hx
  · exact absurd hparent hc
  · exact ⟨hmem, hparent⟩

theorem Electable.anchor (h : Electable P b delivered L) (hpool : ∀ c ∈ delivered, c ∈ P) :
    P.Anchor b.committee b.leaderAuthority L := by
  have htwo := h.two_le
  have hslot : L.round = 2 * slot L := by
    have heven := h.even
    unfold slot
    omega
  refine ⟨?_, by omega, ?_⟩
  · rw [Pool.leaderAt_eq_some, ← hslot]
    exact ⟨h.mem, rfl, h.origin⟩
  · obtain ⟨children, hchildren, hrest⟩ := h.support
    exact ⟨children, fun c hc => ⟨hpool c (hchildren c hc).1, (hchildren c hc).2⟩, hrest⟩

theorem Pool.Anchor.electable (h : P.Anchor b.committee b.leaderAuthority L) :
    Electable P b P.certs L := by
  obtain ⟨hmem, hround, horigin⟩ := Pool.leaderAt_eq_some.mp h.mem
  exact ⟨hmem, by omega, hround ▸ horigin, h.supported⟩

/-- The part of a pool that was delivered. -/
def Pool.restrict (P : Pool K D) {certificates : List (Certificate K D)}
    (hpool : ∀ c ∈ certificates, c ∈ P) : Pool K D where
  certs := {c | c ∈ certificates}
  round_pos c hc := P.round_pos c (hpool c hc)
  eq_of_origin_round c hc c' hc' := P.eq_of_origin_round c (hpool c hc) c' (hpool c' hc')
  eq_of_digest c hc c' hc' := P.eq_of_digest c (hpool c hc) c' (hpool c' hc')

theorem Pool.Quorate.restrict (hq : P.Quorate b.committee) (hpool : ∀ c ∈ certificates, c ∈ P)
    (hfirst : ParentsFirst P certificates) :
    (P.restrict hpool).Quorate b.committee := by
  refine ⟨fun c hc hround => ?_, hq.stake⟩
  obtain ⟨parents, hparents, hrest⟩ := hq.parents c (hpool c hc) hround
  obtain ⟨earlier, later, heq⟩ := List.append_of_mem hc
  refine ⟨parents, fun p hp => ⟨?_, (hparents p hp).2⟩, hrest⟩
  have hmem := hfirst earlier c later heq p (hparents p hp).1 (hparents p hp).2
  show p ∈ certificates
  exact heq ▸ List.mem_append_left _ hmem

variable [DecidableEq D]

namespace Refines

section

variable (hstake : 2 * b.committee.allStake < 2 ^ 64)

include hstake

/-- Above the last committed round the DAG has all children that were delivered. -/
theorem le_supportStake (h : Refines P b.gcDepth delivered state A) (hL : Electable P b delivered L)
    (habove : A.lastCommittedRound < L.round) {table : RoundTable K D}
    (htable : state.dag.lookup (L.round + 1) = some table) :
    b.committee.validityThreshold ≤ b.supportStake table L.digest := by
  obtain ⟨children, hchildren, hnodup, hvalid⟩ := hL.support
  let entry (c : Certificate K D) : D × Certificate K D := (c.digest, c)
  have hmem : children.map entry ⊆ table.values.filter fun e => e.2.parents.contains L.digest := by
    intro e he
    obtain ⟨c, hc, rfl⟩ := List.mem_map.mp he
    obtain ⟨hdel, hround, hdigest⟩ := hchildren c hc
    have hbound := h.bound c.origin
    have hcell := h.complete c hdel ⟨by omega, by omega⟩
    rw [← hround, Dag.cell, htable, Option.bind_some] at hcell
    exact List.mem_filter.mpr ⟨Assoc.mem_values_iff.mpr ⟨c.origin, hcell⟩, by simpa using hdigest⟩
  have hentries : (children.map entry).Nodup :=
    List.Nodup.of_map (fun e => e.2.origin) (by rwa [List.map_map])
  obtain ⟨entries, hperm, hsub⟩ := List.subperm_of_subset hentries hmem
  have hmod := Committee.sum_stake_mod hstake
    (h.origins_nodup htable fun e => e.2.parents.contains L.digest)
  rw [List.map_map] at hmod
  refine (hvalid.trans ?_).trans_eq hmod.symm
  have hsum := (hperm.map fun e => b.committee.stake e.2.origin).sum_eq
  rw [List.map_map] at hsum
  rw [List.map_map]
  exact hsum.symm.le.trans ((hsub.map _).sum_le_sum fun _ _ => Nat.zero_le _)

/-- An elected leader is committed, or was passed over in favour of a later one. -/
theorem electLeaders_ne_nil (h : Refines P b.gcDepth delivered state A)
    (heven : A.lastCommittedRound % 2 = 0) (hL : Electable P b delivered L) (hdel : L ∈ delivered)
    (habove : A.lastCommittedRound < L.round)
    (hok : b.electLeaders state (L.round + 1) = .ok (outcome, leaders)) : leaders ≠ [] := by
  have htwo := hL.two_le
  have hcell := h.complete L hdel ⟨by have := h.bound L.origin; omega, by omega⟩
  rw [hL.origin] at hcell
  have hlow : ¬L.round ≤ state.lastCommittedRound := by
    rw [h.lastCommittedRound]
    omega
  have hodd : ¬(L.round % 2 ≠ 0 ∨ L.round < 2) := by
    have hLeven := hL.even
    omega
  unfold Bullshark.electLeaders at hok
  simp only [Nat.add_sub_cancel, if_neg hodd, if_neg hlow, leader, hcell] at hok
  cases htable : state.dag.lookup (L.round + 1) with
  | none =>
    rw [htable] at hok
    cases hok
  | some table =>
    rw [htable] at hok
    dsimp only at hok
    rw [if_neg (not_lt.mpr (h.le_supportStake hstake hL habove htable))] at hok
    obtain ⟨newestFirst, horder, heq⟩ := Except.eq_ok_of_map hok
    cases heq
    obtain ⟨m, hm⟩ : ∃ m, state.lastCommittedRound = 2 * m :=
      ⟨A.lastCommittedRound / 2, by rw [h.lastCommittedRound]; omega⟩
    obtain ⟨j, hj⟩ : ∃ j, L.round = 2 * (m + j + 1) :=
      ⟨L.round / 2 - m - 1, by have hLeven := hL.even; omega⟩
    obtain ⟨found, rfl, -⟩ := orderLeaders_walk hm hj horder
    simp

/-- A child with which its leader has enough support commits the leader or a later one. -/
theorem commits_of_electable {core core' : Core K D}
    (h : Refines P b.gcDepth delivered core.state A) (heven : A.lastCommittedRound % 2 = 0)
    (hc : c ∈ P)
    (hparents : ∀ p ∈ P, p.IsParent c → p ∈ delivered ∨ p.round + b.gcDepth < A.lastCommittedRound)
    (hok : b.processCertificate core c = .ok (outcome, subDags, core'))
    (hL : Electable P b (insert c delivered) L) (hchild : L.IsParent c) :
    L.round ≤ core'.state.lastCommittedRound := by
  have hround := hchild.1
  rcases Bullshark.processCertificate_cases hok with
    ⟨state, hinsert, rfl, rfl⟩ | ⟨state, leaders, hinsert, helect, hcommit⟩
  · -- The round of the child is committed for its origin.
    rcases h.tryInsert_cases hc with ⟨hle, heq⟩ | ⟨-, dag, heq, -⟩
    · rw [heq] at hinsert
      cases hinsert
      have hbound := h.completeAbove.bound c.origin
      dsimp only
      omega
    · rw [heq] at hinsert
      cases hinsert
  · obtain ⟨hstate, -, -⟩ := h.tryInsert hc hparents hinsert
    have hleaders := hstate.electLeaders_cases heven helect
    have hcommitted : Committable (insert c delivered) A leaders := by
      rcases hleaders with rfl | ⟨m, j, L', found, he, rfl⟩
      · exact ⟨by simp, by simp, by simp, List.Pairwise.nil⟩
      · exact hstate.committable he
    have hcore : Refines P b.gcDepth (insert c delivered) (Core.mk state core.store).state A :=
      hstate
    obtain ⟨A', hledger, -, hrefines⟩ := hcore.commitLeaders hcommitted
    rw [← hcommit] at hrefines
    rw [hrefines.lastCommittedRound]
    have hmono := hledger.lastCommittedRound_le
    by_cases habove : A.lastCommittedRound < L.round
    · have hdel : L ∈ insert c delivered := by
        rcases hparents L hL.mem hchild with hdel | hlow
        · exact .inr hdel
        · omega
      rw [← hround] at helect
      have hne := hstate.electLeaders_ne_nil hstake heven hL hdel habove helect
      obtain ⟨m, j, L', found, he, rfl⟩ := hleaders.resolve_left hne
      have hle := (hledger.leader_bounds L' (by simp)).2
      have hLround := he.leaderRound
      have hcround := he.round_eq
      omega
    · omega

end

end Refines

/-! ## Whole runs -/

theorem Ledger.map_leader {gcDepth n : ℕ} {A' : Frontier K}
    (h : Ledger P gcDepth A n leaders subDags A') :
    subDags.map (·.leader) = leaders := by
  induction h with
  | nil => rfl
  | cons _ _ _ _ _ ih => rw [List.map_cons, ih]

/-- No leader that has enough support waits for its commit. -/
theorem Bullshark.run_caughtUp (hq : P.Quorate b.committee)
    (hfits : ∀ c ∈ P, c.round + b.gcDepth < 2 ^ 64) (hpool : ∀ c ∈ certificates, c ∈ P)
    (hfirst : ParentsFirst P certificates) :
    (b.run certificates).halted = false ∧
      ∃ leaders A, Ledgered P b {c | c ∈ certificates} (b.run certificates).core.state
        (b.run certificates).emitted leaders A ∧
        P.Anchored b.committee b.leaderAuthority leaders ∧
        ∀ L, Electable P b {c | c ∈ certificates} L → L.round ≤ A.lastCommittedRound := by
  induction certificates using List.reverseRecOn with
  | nil =>
    refine ⟨rfl, [], .start, ?_, .inl rfl, fun L hL => ?_⟩
    · have hempty : {c : Certificate K D | c ∈ ([] : List (Certificate K D))} = ∅ := by simp
      rw [hempty]
      exact .new hfits
    · obtain ⟨c, hc, -⟩ := hL.exists_child hq
      cases hc
  | append_singleton certificates c ih =>
    have hc : c ∈ P := hpool c (by simp)
    obtain ⟨hrunning, leaders, A, h, hanchored, hcaught⟩ := ih
      (fun x hx => hpool x (List.mem_append_left _ hx)) hfirst.of_append
    have hparents : ∀ p ∈ P, p.IsParent c →
        p ∈ {x | x ∈ certificates} ∨ p.round + b.gcDepth < A.lastCommittedRound :=
      fun p hp hparent => .inl (hfirst certificates c [] rfl p hp hparent)
    have hset : {x | x ∈ certificates ++ [c]} = insert c {x | x ∈ certificates} := by
      ext x
      simp [or_comm]
    obtain ⟨⟨outcome, subDags, core⟩, hok⟩ := h.refines.processCertificate_ok hq hc hparents
    have hdeliver : b.run (certificates ++ [c]) =
        { core, emitted := (b.run certificates).emitted ++ subDags, halted := false } := by
      rw [run_append_singleton, deliver, hrunning, hok]
      rfl
    obtain ⟨leaders', A', h', hleaders⟩ := h.processCertificate hc hparents hok
    rw [hdeliver, hset]
    refine ⟨rfl, leaders', A', h', ?_, fun L hL => ?_⟩
    · rcases hleaders with rfl | ⟨state, m, j, L, found, hbefore, he, rfl⟩
      · exact hanchored
      · exact .inr ⟨L, hbefore.refines.anchor he,
          (hbefore.append_elected hq hanchored he).symm ▸ List.prefix_rfl⟩
    · by_cases hchild : L.IsParent c
      · rw [← h'.refines.lastCommittedRound]
        exact h.refines.commits_of_electable hq.stake h.even hc hparents hok hL hchild
      · have hle := hcaught L (hL.of_insert hchild)
        rcases hleaders with rfl | ⟨state, m, j, L', found, hbefore, he, rfl⟩
        · rwa [h'.ledger.lastCommittedRound_eq, ← h.ledger.lastCommittedRound_eq]
        · have hlast := hbefore.refines.lastCommittedRound.symm.trans he.last
          have hround := he.leaderRound
          have hle' := (h'.ledger.leader_bounds L' (by simp)).2
          omega

/-- A leader with enough support is among the committed ones, once they have reached its round. -/
theorem Ledgered.mem_leaders (hq : P.Quorate b.committee) {emitted : List (CommittedSubDag K D)}
    (h : Ledgered P b delivered state emitted leaders A)
    (hanchored : P.Anchored b.committee b.leaderAuthority leaders)
    (hanchor : P.Anchor b.committee b.leaderAuthority L) (hle : L.round ≤ A.lastCommittedRound) :
    L ∈ leaders := by
  have hchain : L ∈ (P.leaderChain b.leaderAuthority L).reverse := by
    rw [Pool.leaderChain, Descent.chain]
    exact List.mem_reverse.mpr List.mem_cons_self
  rcases hanchored.comparable hq (.inr ⟨L, hanchor, List.prefix_rfl⟩) with ⟨rest, hrest⟩ | hpre
  · rw [← hrest] at hchain
    refine (List.mem_append.mp hchain).resolve_right fun hmem => ?_
    -- What the chain has after the committed leaders is above the last committed round.
    have hincreasing := Pool.leaderChain_increasing hanchor.mem hanchor.pos
    rw [← hrest] at hincreasing
    have hpos (p : Certificate K D) (hp : p ∈ rest) : 0 < p.round := by
      have hp' : p ∈ P.leaderChain b.leaderAuthority L := by
        rw [← List.mem_reverse, ← hrest]
        exact List.mem_append_right _ hp
      have hslot := Pool.mem_leaderChain hanchor.mem hanchor.pos hp'
      omega
    have hlt := h.ledger.lt_of_append hincreasing hpos L hmem
    omega
  · exact hpre.subset hchain

/-- A validator that is given certificates of a quorate pool, parents first, has emitted the sub-dag
of every leader that a validity quorum of them names, if no round overflows with the depth. -/
theorem Bullshark.run_commits_supported (b : Bullshark K) (P : Pool K D)
    (hq : P.Quorate b.committee) (hfits : ∀ c ∈ P, c.round + b.gcDepth < 2 ^ 64)
    {certificates : List (Certificate K D)}
    (hpool : ∀ c ∈ certificates, c ∈ P) (hfirst : ParentsFirst P certificates)
    (hL : Electable P b {c | c ∈ certificates} L) :
    ∃ subDag ∈ (b.run certificates).emitted, subDag.leader = L := by
  obtain ⟨-, leaders, A, h, hanchored, hcaught⟩ := run_caughtUp hq hfits hpool hfirst
  have hmem := h.mem_leaders hq hanchored (hL.anchor hpool) (hcaught L hL)
  rw [← h.ledger.map_leader] at hmem
  exact List.mem_map.mp hmem

/-- The leader of round four with its two children. -/
theorem Bullshark.run_commits_supported_sample :
    ∃ subDag ∈ ((Sample.bullshark 50).run Sample.certificates).emitted,
      subDag.leader = Sample.certificate 0 4 [0, 1, 2] := by
  have hmem : ∀ c ∈ Sample.roundFive,
      c ∈ Sample.certificates ∧ (Sample.certificate 0 4 [0, 1, 2]).IsParent c := by decide +kernel
  refine Bullshark.run_commits_supported (Sample.bullshark 50) Sample.pool Sample.pool_quorate
    Sample.pool_fits (fun c hc => hc) (Sample.parentsFirst_of_forall_fin (by decide +kernel))
    ⟨?_, rfl, rfl, ?_⟩
  · have hL : Sample.certificate 0 4 [0, 1, 2] ∈ Sample.certificates := by decide +kernel
    exact hL
  · exact ⟨Sample.roundFive, hmem, by decide, by decide⟩

/-! ## Validators with the same certificates -/

/-- Nothing comes after leaders that include every anchor. -/
theorem Pool.Anchored.eq_of_prefix {leaders' : List (Certificate K D)}
    (h : P.Anchored b.committee b.leaderAuthority leaders')
    (hall : ∀ L, P.Anchor b.committee b.leaderAuthority L → L ∈ leaders)
    (hpre : leaders <+: leaders') : leaders = leaders' := by
  rcases h with rfl | ⟨L, hL, rest', hrest'⟩
  · exact List.prefix_nil.mp hpre
  obtain ⟨rest, rfl⟩ := hpre
  have hincreasing := Pool.leaderChain_increasing hL.mem hL.pos
  cases rest with
  | nil => exact (List.append_nil _).symm
  | cons x rest =>
    have hx : x ∈ P.leaderChain b.leaderAuthority L := by
      rw [← List.mem_reverse, ← hrest']
      simp
    have hle : x.round ≤ L.round := by
      rw [List.pairwise_reverse, Pool.leaderChain, Descent.chain] at hincreasing
      rcases List.mem_cons.mp hx with rfl | hx
      · exact le_rfl
      · exact ((List.pairwise_cons.mp hincreasing).1 x hx).le
    rw [← hrest', List.append_assoc] at hincreasing
    have hlt := (List.pairwise_append.mp hincreasing).2.2 L (hall L hL) x (by simp)
    omega

/-- Validators that were given the same certificates, each in some order with parents first, have
emitted the same sub-dags, if no round overflows with the depth. -/
theorem Bullshark.run_emitted_eq (b : Bullshark K) (P : Pool K D) (hq : P.Quorate b.committee)
    (hfits : ∀ c ∈ P, c.round + b.gcDepth < 2 ^ 64)
    {certificates certificates' : List (Certificate K D)} (hpool : ∀ c ∈ certificates, c ∈ P)
    (hfirst : ParentsFirst P certificates) (hfirst' : ParentsFirst P certificates')
    (hsame : ∀ c, c ∈ certificates' ↔ c ∈ certificates) :
    (b.run certificates).emitted = (b.run certificates').emitted := by
  -- What was delivered is a quorate pool itself, with the support that both validators see.
  have hS := hq.restrict hpool hfirst
  have hfits' : ∀ c ∈ P.restrict hpool, c.round + b.gcDepth < 2 ^ 64 :=
    fun c hc => hfits c (hpool c hc)
  obtain ⟨-, leaders, A, h, hanchored, hcaught⟩ := run_caughtUp hS hfits'
    (fun c hc => hc)
    fun earlier c later heq p hp => hfirst earlier c later heq p (hpool p hp)
  obtain ⟨-, leaders', A', h', hanchored', hcaught'⟩ := run_caughtUp hS hfits'
    (fun c hc => (hsame c).mp hc)
    fun earlier c later heq p hp => hfirst' earlier c later heq p (hpool p hp)
  have hset : {c | c ∈ certificates'} = (P.restrict hpool).certs := Set.ext hsame
  rw [hset] at hcaught'
  have hleaders : leaders = leaders' := by
    rcases hanchored.comparable hS hanchored' with hpre | hpre
    · exact hanchored'.eq_of_prefix
        (fun L hL => h.mem_leaders hS hanchored hL (hcaught L hL.electable)) hpre
    · exact (hanchored.eq_of_prefix
        (fun L hL => h'.mem_leaders hS hanchored' hL (hcaught' L hL.electable)) hpre).symm
  subst hleaders
  have hpre := h.ledger.prefix_of_prefix h'.ledger List.prefix_rfl
  exact hpre.eq_of_length_le (h'.ledger.prefix_of_prefix h.ledger List.prefix_rfl).length_le

/-- The certificates of round two come in another order. -/
theorem Bullshark.run_emitted_eq_sample :
    let reordered := Sample.roundOne ++ Sample.roundTwo.reverse ++
      Sample.certificates.drop (Sample.roundOne.length + Sample.roundTwo.length)
    ((Sample.bullshark 50).run Sample.certificates).emitted =
      ((Sample.bullshark 50).run reordered).emitted := by
  intro reordered
  have hsame : (∀ c ∈ reordered, c ∈ Sample.certificates) ∧
      ∀ c ∈ Sample.certificates, c ∈ reordered := by decide +kernel
  exact Bullshark.run_emitted_eq (Sample.bullshark 50) Sample.pool Sample.pool_quorate
    Sample.pool_fits (fun c hc => hc) (Sample.parentsFirst_of_forall_fin (by decide +kernel))
    (Sample.parentsFirst_of_forall_fin (by decide +kernel))
    fun c => ⟨hsame.1 c, hsame.2 c⟩

end Narwhal

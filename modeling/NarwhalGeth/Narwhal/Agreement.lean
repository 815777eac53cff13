import NarwhalGeth.Narwhal.LeaderChain
import NarwhalGeth.Narwhal.Linkage

/-!
# Agreement

Above the last committed round `linked` decides ancestry in the pool, and the walk of `orderLeaders`
is the top part of a leader chain. The leaders a validator commits are then a prefix of the chain of
some supported leader, read upwards, and any two such prefixes are comparable.
-/

namespace Narwhal

variable {K D : Type} [DecidableEq K] [DecidableEq D] {found : List (Certificate K D)}
  {x L p : Certificate K D} {table : RoundTable K D} {round m j : ℕ}
variable {P : Pool K D} {b : Bullshark K} {delivered : Set (Certificate K D)}
  {state : ConsensusState K D} {A : Frontier K}

namespace Refines

/-! ## Links are ancestry -/

section

omit [DecidableEq D]

section

variable (h : Refines P b.gcDepth delivered state A)

include h

theorem cell_of_parent (hx : x ∈ delivered) (hp : p ∈ P) (hparent : p.IsParent x)
    (habove : A.lastCommittedRound < p.round) :
    p ∈ delivered ∧ state.dag.cell p.round p.origin = some (p.digest, p) := by
  have hdel : p ∈ delivered := by
    rcases h.closed x hx p hp hparent with hdel | hlow
    · exact hdel
    · omega
  refine ⟨hdel, h.complete p hdel ⟨?_, by omega⟩⟩
  have hbound := h.bound p.origin
  omega

theorem delivered_of_reaches (hx : x ∈ delivered) (hreach : P.Reaches x p)
    (habove : A.lastCommittedRound < p.round) : p ∈ delivered := by
  obtain ⟨n, hn⟩ : ∃ n, x.round = p.round + n :=
    ⟨x.round - p.round, by have := hreach.round_le; omega⟩
  induction n generalizing x with
  | zero =>
    rcases hreach.eq_or_parent with rfl | ⟨q, -, hparent, hrest⟩
    · exact hx
    · have hle := hrest.round_le
      have hround := hparent.1
      omega
  | succ n ih =>
    rcases hreach.eq_or_parent with rfl | ⟨q, hq, hparent, hrest⟩
    · exact hx
    · have hround := hparent.1
      have hle := hrest.round_le
      exact ih (h.cell_of_parent hx hq hparent (by omega)).1 hrest (by omega)

theorem completeAbove : CompleteAbove delivered state where
  bound k := by
    rw [h.committedRound, h.lastCommittedRound]
    exact h.bound k
  cells r k d c hcell := by
    obtain ⟨hmem, hround, horigin, hdigest, -⟩ := h.cells r k d c hcell
    exact ⟨hmem, hround, horigin, hdigest⟩
  complete c hc habove := by
    rw [h.lastCommittedRound] at habove
    have hbound := h.bound c.origin
    exact h.complete c hc ⟨by omega, by omega⟩

/-- Above the last committed round, the paths of the pool are those along delivered
certificates. -/
theorem reachesIn_iff (hx : x ∈ delivered) (habove : A.lastCommittedRound < p.round) :
    ReachesIn delivered x p ↔ P.Reaches x p := by
  constructor
  · intro hreach
    refine Relation.ReflTransGen.mono ?_ _ _ hreach
    exact fun _ q hq => ⟨h.pool q hq.1, hq.2⟩
  · intro hreach
    induction hreach using Relation.ReflTransGen.head_induction_on with
    | refl => exact .refl
    | @head x q hstep hrest ih =>
      have hround := hstep.2.1
      have hle := Pool.Reaches.round_le hrest
      have hq := (h.cell_of_parent hx hstep.1 hstep.2 (by omega)).1
      exact .of_parent hq hstep.2 (ih hq)

end

end

/-- `linked` decides whether there is a path in the pool. -/
theorem linked_iff (h : Refines P b.gcDepth delivered state A) (hx : x ∈ delivered)
    (hp : p ∈ delivered) (habove : A.lastCommittedRound < p.round) (hle : p.round ≤ x.round)
    {result : Bool} (hok : linked x p state.dag = .ok result) :
    result = true ↔ P.Reaches x p := by
  rw [← h.reachesIn_iff hx habove]
  rw [← h.lastCommittedRound] at habove
  exact h.completeAbove.linked_iff hx hp habove hle hok

/-! ## The walk is a leader chain -/

/-- The walk over the slots above the last committed round is the top part of the descent. -/
theorem walk_below (h : Refines P b.gcDepth delivered state A)
    (hlast : A.lastCommittedRound = 2 * m) (hx : x ∈ delivered) (hround : 2 * (m + j) < x.round)
    (hwalk : LeaderWalk b.leaderAuthority state.dag m j x found) :
    ∃ y, Descent.below (P.leaderAt b.leaderAuthority) P.Reaches (m + j) x =
      found ++ Descent.below (P.leaderAt b.leaderAuthority) P.Reaches m y := by
  induction hwalk with
  | stop x => exact ⟨x, rfl⟩
  | @missing j x found hnone _ ih =>
    obtain ⟨y, hy⟩ := ih hx (by omega)
    refine ⟨y, ?_⟩
    rw [← hy, ← Nat.add_assoc]
    refine Descent.below_succ_of_not_link ?_
    intro p hp hreach
    -- A leader that `x` reaches is delivered, so its cell is not empty.
    obtain ⟨hpP, hpround, horigin⟩ := Pool.leaderAt_eq_some.mp hp
    have hdel := h.delivered_of_reaches hx hreach (by omega)
    have hcell := h.complete p hdel ⟨by have := h.bound p.origin; omega, by omega⟩
    rw [horigin, hpround] at hcell
    rw [leader, hcell] at hnone
    cases hnone
  | @unlinked j x p d found hsome hlinked _ ih =>
    obtain ⟨hdel, hpround, horigin, -⟩ := h.leader_cell hsome
    obtain ⟨y, hy⟩ := ih hx (by omega)
    refine ⟨y, ?_⟩
    rw [← hy, ← Nat.add_assoc]
    refine Descent.below_succ_of_not_link ?_
    intro q hq hreach
    obtain ⟨hqP, hqround, hqorigin⟩ := Pool.leaderAt_eq_some.mp hq
    have hsame : q = p := by
      refine P.eq_of_origin_round q hqP p (h.pool p hdel) ?_ (by omega)
      rw [hqorigin, horigin]
    rw [hsame, ← h.linked_iff hx hdel (by omega) (by omega) hlinked] at hreach
    cases hreach
  | @linked j x p d found hsome hlinked _ ih =>
    obtain ⟨hdel, hpround, horigin, -⟩ := h.leader_cell hsome
    obtain ⟨y, hy⟩ := ih hdel (by omega)
    refine ⟨y, ?_⟩
    rw [List.cons_append, ← hy, ← Nat.add_assoc]
    refine Descent.below_succ_of_link ?_ ?_
    · rw [Pool.leaderAt_eq_some]
      exact ⟨h.pool p hdel, hpround, horigin⟩
    · exact (h.linked_iff hx hdel (by omega) (by omega) hlinked).mp rfl

omit [DecidableEq D] in
/-- The certificates of a row are of distinct origins. -/
theorem origins_nodup (h : Refines P b.gcDepth delivered state A)
    (htable : state.dag.lookup round = some table) (p : D × Certificate K D → Bool) :
    ((table.values.filter p).map fun e => e.2.origin).Nodup := by
  have hnodup : (table.values.map fun e => e.2.origin).Nodup := by
    refine Assoc.values_map_nodup _ ?_
    rintro k ⟨d, c⟩ hk
    exact (h.cells round k d c (by rw [Dag.cell, htable, Option.bind_some, hk])).2.2.1
  exact hnodup.sublist (List.filter_sublist.map _)

/-- The supporting certificates in the DAG are a validity quorum of children in the pool. -/
theorem supported (h : Refines P b.gcDepth delivered state A) (hround : round = L.round + 1)
    (htable : state.dag.lookup round = some table)
    (hstake : b.committee.validityThreshold ≤ b.supportStake table L.digest) :
    P.Supported b.committee L := by
  have hcells : ∀ k e, table.lookup k = some e → e.2 ∈ P ∧ e.2.round = round := by
    rintro k ⟨d, c⟩ hk
    have hcell := h.cells round k d c (by rw [Dag.cell, htable, Option.bind_some, hk])
    exact ⟨h.pool c hcell.1, hcell.2.1⟩
  refine ⟨(table.values.filter fun e => e.2.parents.contains L.digest).map Prod.snd, ?_, ?_, ?_⟩
  · intro c hc
    obtain ⟨e, he, rfl⟩ := List.mem_map.mp hc
    obtain ⟨hmem, hcontains⟩ := List.mem_filter.mp he
    obtain ⟨k, hk⟩ := Assoc.mem_values_iff.mp hmem
    obtain ⟨hP, hr⟩ := hcells k e hk
    exact ⟨hP, by omega, by simpa using hcontains⟩
  · rw [List.map_map]
    exact h.origins_nodup htable _
  · rw [List.map_map, List.map_map]
    exact hstake.trans (Nat.mod_le _ _)

theorem anchor (h : Refines P b.gcDepth delivered state A) (he : Elects b state round m j L found) :
    P.Anchor b.committee b.leaderAuthority L := by
  obtain ⟨hdel, hround, horigin, -⟩ := h.leader_cell he.cell
  have hslot : slot L = m + j + 1 := by
    rw [slot, hround]
    omega
  obtain ⟨table, htable, hstake⟩ := he.support
  refine ⟨?_, by omega, h.supported ?_ htable hstake⟩
  · rw [hslot, Pool.leaderAt_eq_some]
    exact ⟨h.pool L hdel, hround, horigin⟩
  · rw [hround, he.round_eq]

end Refines

/-! ## Committed leaders are a chain -/

theorem eq_of_append_eq {α : Type} (p : α → Prop) [DecidablePred p] {xs ys xs' ys' : List α}
    (hxs : ∀ a ∈ xs, p a) (hys : ∀ a ∈ ys, ¬p a) (hxs' : ∀ a ∈ xs', p a) (hys' : ∀ a ∈ ys', ¬p a)
    (h : xs ++ ys = xs' ++ ys') : xs = xs' := by
  have hfilter : ∀ us vs : List α, (∀ a ∈ us, p a) → (∀ a ∈ vs, ¬p a) →
      (us ++ vs).filter p = us := by
    intro us vs hus hvs
    have hself : us.filter p = us := List.filter_eq_self.mpr (by simpa using hus)
    have hnil : vs.filter p = [] := List.filter_eq_nil_iff.mpr (by simpa using hvs)
    rw [List.filter_append, hself, hnil, List.append_nil]
  rw [← hfilter xs ys hxs hys, h, hfilter xs' ys' hxs' hys']

namespace Ledgered

variable {emitted : List (CommittedSubDag K D)} {leaders : List (Certificate K D)}

/-- The leaders committed so far are the first ones of the chain of the elected leader: otherwise it
would be among them. -/
theorem leaders_begin_chain (hq : P.Quorate b.committee)
    (h : Ledgered P b delivered state emitted leaders A)
    (hanchored : P.Anchored b.committee b.leaderAuthority leaders)
    (he : Elects b state round m j L found) :
    leaders <+: (P.leaderChain b.leaderAuthority L).reverse := by
  have hanchor := h.refines.anchor he
  refine (hanchored.comparable hq (.inr ⟨L, hanchor, List.prefix_rfl⟩)).resolve_right ?_
  intro hpre
  have hmem : L ∈ leaders := by
    refine hpre.subset (List.mem_reverse.mpr ?_)
    rw [Pool.leaderChain, Descent.chain]
    exact List.mem_cons_self
  have hle := (h.ledger.leader_bounds L hmem).2
  have hlast : A.lastCommittedRound = 2 * m := h.refines.lastCommittedRound.symm.trans he.last
  have hround := he.leaderRound
  omega

theorem lt_round_of_chain (h : Ledgered P b delivered state emitted leaders A)
    {rest : List (Certificate K D)} (he : Elects b state round m j L found)
    (hrest : leaders ++ rest = (P.leaderChain b.leaderAuthority L).reverse) :
    ∀ p ∈ rest, A.lastCommittedRound < p.round := by
  have hanchor := h.refines.anchor he
  refine h.ledger.lt_of_append ?_ fun p hp => ?_
  · rw [hrest]
    exact Pool.leaderChain_increasing hanchor.mem hanchor.pos
  · have hpchain : p ∈ P.leaderChain b.leaderAuthority L := by
      rw [← List.mem_reverse, ← hrest]
      exact List.mem_append_right _ hp
    obtain ⟨hpos, hpround⟩ := Pool.mem_leaderChain hanchor.mem hanchor.pos hpchain
    have hzero : (Frontier.start : Frontier K).lastCommittedRound = 0 := rfl
    omega

/-- The committed leaders followed by the newly elected ones are the whole chain of the elected
leader. -/
theorem append_elected (hq : P.Quorate b.committee)
    (h : Ledgered P b delivered state emitted leaders A)
    (hanchored : P.Anchored b.committee b.leaderAuthority leaders)
    (he : Elects b state round m j L found) :
    leaders ++ (L :: found).reverse = (P.leaderChain b.leaderAuthority L).reverse := by
  have hlast : A.lastCommittedRound = 2 * m := h.refines.lastCommittedRound.symm.trans he.last
  have hround := he.leaderRound
  have hslot : slot L = m + j + 1 := by
    rw [slot, hround]
    omega
  obtain ⟨y, hbelow⟩ := h.refines.walk_below hlast (h.refines.leader_cell he.cell).1 (by omega)
    he.walk
  have hchain : (P.leaderChain b.leaderAuthority L).reverse =
      (Descent.below (P.leaderAt b.leaderAuthority) P.Reaches m y).reverse ++
        (L :: found).reverse := by
    rw [Pool.leaderChain, Descent.chain, hslot, Nat.add_sub_cancel, hbelow, ← List.cons_append,
      List.reverse_append]
  obtain ⟨rest, hrest⟩ := h.leaders_begin_chain hq hanchored he
  have hhigh := h.lt_round_of_chain he hrest
  -- Both sides split the chain at the last committed round.
  have hsplit : leaders = (Descent.below (P.leaderAt b.leaderAuthority) P.Reaches m y).reverse := by
    refine eq_of_append_eq (fun p => p.round ≤ 2 * m) ?_ ?_ ?_ ?_ (hrest.trans hchain)
    · intro p hp
      have hle := (h.ledger.leader_bounds p hp).2
      omega
    · intro p hp
      have hlt := hhigh p hp
      omega
    · intro p hp
      obtain ⟨-, hle, hcand⟩ := Descent.slot_le_of_mem_below (P.slot_leaderAt b.leaderAuthority)
        (List.mem_reverse.mp hp)
      have hpround := (Pool.leaderAt_eq_some.mp hcand).2.1
      omega
    · intro p hp
      rcases List.mem_cons.mp (List.mem_reverse.mp hp) with rfl | hp
      · omega
      · have hlow := ((h.refines.walk_found he.walk).1 p hp).2.2.1
        omega
  rw [hchain, ← hsplit]

end Ledgered

/-! ## Agreement of two validators -/

theorem Bullshark.run_anchored (hq : P.Quorate b.committee)
    (hfits : ∀ c ∈ P, c.round + b.gcDepth < 2 ^ 64) {certificates : List (Certificate K D)}
    (hpool : ∀ c ∈ certificates, c ∈ P) (hfirst : ParentsFirst P certificates) :
    ∃ leaders A, Ledger P b.gcDepth .start 0 leaders (b.run certificates).emitted A ∧
      P.Anchored b.committee b.leaderAuthority leaders := by
  obtain ⟨delivered, leaders, A, h, hanchored, -⟩ := Bullshark.run_ledgered (b := b)
    (P.Anchored b.committee b.leaderAuthority) (.inl rfl)
    (fun h hanchored he => .inr ⟨_, h.refines.anchor he,
      (h.append_elected hq hanchored he).symm ▸ List.prefix_rfl⟩) hfits hpool hfirst
  exact ⟨leaders, A, h.ledger, hanchored⟩

theorem Ledger.comparable {gcDepth : ℕ} {A₀ A' : Frontier K} {n : ℕ}
    {leaders leaders' : List (Certificate K D)} {subDags subDags' : List (CommittedSubDag K D)}
    (h : Ledger P gcDepth A₀ n leaders subDags A) (h' : Ledger P gcDepth A₀ n leaders' subDags' A')
    (hcomparable : leaders <+: leaders' ∨ leaders' <+: leaders) :
    subDags <+: subDags' ∨ subDags' <+: subDags :=
  hcomparable.imp (h.prefix_of_prefix h') (h'.prefix_of_prefix h)

/-- Validators that are given certificates of one quorate pool, parents first and otherwise in any
orders and numbers, emit prefix-comparable sequences of sub-dags, if no round overflows with the
depth. -/
theorem Bullshark.run_emitted_comparable (b : Bullshark K) (P : Pool K D)
    (hq : P.Quorate b.committee) (hfits : ∀ c ∈ P, c.round + b.gcDepth < 2 ^ 64)
    {certificates certificates' : List (Certificate K D)}
    (hpool : ∀ c ∈ certificates, c ∈ P) (hpool' : ∀ c ∈ certificates', c ∈ P)
    (hfirst : ParentsFirst P certificates) (hfirst' : ParentsFirst P certificates') :
    (b.run certificates).emitted <+: (b.run certificates').emitted ∨
      (b.run certificates').emitted <+: (b.run certificates).emitted := by
  obtain ⟨leaders, A, hledger, hanchored⟩ := Bullshark.run_anchored hq hfits hpool hfirst
  obtain ⟨leaders', A', hledger', hanchored'⟩ := Bullshark.run_anchored hq hfits hpool' hfirst'
  exact hledger.comparable hledger' (hanchored.comparable hq hanchored')

namespace Sample

def pool : Pool (Fin 4) ℕ := .ofList certificates (by decide) (by decide) (by decide)

theorem pool_quorate : pool.Quorate committee :=
  ⟨Pool.namesQuorums_ofList (by decide), committee_stake⟩

theorem pool_fits : ∀ c ∈ pool, c.round + 50 < 2 ^ 64 := by
  have hfits : ∀ c ∈ certificates, c.round + 50 < 2 ^ 64 := by decide +kernel
  exact hfits

theorem parentsFirst_of_forall_fin {l : List (Certificate (Fin 4) ℕ)}
    (h : ∀ i : Fin l.length, ∀ p ∈ certificates, p.IsParent (l.get i) → p ∈ l.take i) :
    ParentsFirst pool l :=
  .of_forall_fin h

end Sample

/-- One validator is given the sample round by round, the other without the last certificate and
with the certificates of round two in another order. -/
theorem Bullshark.run_emitted_comparable_sample :
    let b := Sample.bullshark 50
    let early := Sample.roundOne ++ Sample.roundTwo.reverse ++ Sample.roundThree.take 2
    ((b.run Sample.certificates).emitted.length = 2 ∧ (b.run early).emitted.length = 1) ∧
      ((b.run Sample.certificates).emitted <+: (b.run early).emitted ∨
        (b.run early).emitted <+: (b.run Sample.certificates).emitted) := by
  intro b early
  refine ⟨by decide +kernel, Bullshark.run_emitted_comparable b Sample.pool Sample.pool_quorate
    Sample.pool_fits (fun c hc => hc) (fun c hc => ?_)
    (Sample.parentsFirst_of_forall_fin (by decide +kernel))
    (Sample.parentsFirst_of_forall_fin (by decide +kernel))⟩
  have hsub : ∀ c ∈ early, c ∈ Sample.certificates := by decide +kernel
  exact hsub c hc

namespace Sample

def laggingPool : Pool (Fin 4) ℕ :=
  .ofList (lagging [supporter] []) (by decide) (by decide) (by decide)

/-- The leader of round two with two children, and its ancestor. -/
def leftSide : List (Certificate (Fin 4) ℕ) :=
  [certificate 0 1 [], certificate 0 2 [0], certificate 0 3 [0], certificate 1 3 [0]]

/-- The leader of round four with two children, above the certificates of another authority. -/
def rightSide : List (Certificate (Fin 4) ℕ) :=
  [certificate 2 1 [], certificate 2 2 [2], certificate 2 3 [2], certificate 0 4 [2],
    certificate 0 5 [0], certificate 1 5 [0]]

def twoSides : Pool (Fin 4) ℕ :=
  .ofList (leftSide ++ rightSide) (by decide) (by decide) (by decide)

end Sample

/-- Both bounds are needed. With a depth of `2 ^ 64 - 4`, the commit of round two purges rounds four
and five if they are already in the DAG. With stakes of `2 ^ 62`, twice the total wraps around and a
single authority is a quorum. -/
theorem Bullshark.overflow_forks :
    (let b : Bullshark (Fin 4) := ⟨Sample.heavy, 2 ^ 64 - 4, fun _ => 0⟩
      let inTime := b.run (Sample.lagging [Sample.supporter] [])
      let late := b.run (Sample.lagging [] [Sample.supporter])
      Sample.laggingPool.Quorate b.committee ∧
        ParentsFirst Sample.laggingPool (Sample.lagging [Sample.supporter] []) ∧
        ParentsFirst Sample.laggingPool (Sample.lagging [] [Sample.supporter]) ∧
        ¬(inTime.emitted <+: late.emitted ∨ late.emitted <+: inTime.emitted)) ∧
    let b : Bullshark (Fin 4) := ⟨Sample.overflowing, 50, fun _ => 0⟩
    let left := b.run Sample.leftSide
    let right := b.run Sample.rightSide
    Sample.twoSides.NamesQuorums b.committee ∧ ParentsFirst Sample.twoSides Sample.leftSide ∧
      ParentsFirst Sample.twoSides Sample.rightSide ∧
      ¬(left.emitted <+: right.emitted ∨ right.emitted <+: left.emitted) := by
  have hlagging : ∀ l ∈ [Sample.lagging [Sample.supporter] [],
      Sample.lagging [] [Sample.supporter]], ∀ i : Fin l.length,
      ∀ p ∈ Sample.lagging [Sample.supporter] [], p.IsParent (l.get i) → p ∈ l.take i := by
    decide +kernel
  have hsides : ∀ l ∈ [Sample.leftSide, Sample.rightSide], ∀ i : Fin l.length,
      ∀ p ∈ Sample.leftSide ++ Sample.rightSide, p.IsParent (l.get i) → p ∈ l.take i := by
    decide +kernel
  exact ⟨⟨⟨Pool.namesQuorums_ofList (by decide +kernel), by decide⟩,
      .of_forall_fin (hlagging _ (by simp)), .of_forall_fin (hlagging _ (by simp)),
      by decide +kernel⟩,
    Pool.namesQuorums_ofList (by decide +kernel), .of_forall_fin (hsides _ (by simp)),
    .of_forall_fin (hsides _ (by simp)), by decide +kernel⟩

/-! ## Consensus never fails on a quorate pool -/

namespace Refines

omit [DecidableEq D] in
theorem rooted (hq : P.Quorate b.committee) (h : Refines P b.gcDepth delivered state A) :
    Rooted delivered state.lastCommittedRound := by
  intro c hc hround
  rw [h.lastCommittedRound] at hround
  obtain ⟨p, hp, hparent⟩ := hq.exists_parent (h.pool c hc) (by omega)
  have hparent' := hparent.1
  exact ⟨p, (h.cell_of_parent hc hp hparent (by omega)).1, hparent⟩

theorem processCertificate_ok (hq : P.Quorate b.committee) {core : Core K D}
    (h : Refines P b.gcDepth delivered core.state A) {c : Certificate K D} (hc : c ∈ P)
    (hparents : ∀ p ∈ P, p.IsParent c →
      p ∈ delivered ∨ p.round + b.gcDepth < A.lastCommittedRound) :
    ∃ result, b.processCertificate core c = .ok result := by
  unfold Bullshark.processCertificate
  rcases h.tryInsert_cases hc with ⟨-, heq⟩ | ⟨hlt, dag, heq, hwrite⟩
  · rw [heq]
    exact ⟨_, rfl⟩
  · have hstate := h.insert_written hc hlt hwrite hparents
    obtain ⟨⟨outcome, leaders⟩, hresult⟩ := hstate.completeAbove.electLeaders_ok (b := b)
      (hstate.rooted hq) ((hwrite _ _).trans (if_pos ⟨rfl, rfl⟩))
    refine ⟨(outcome, b.commitLeaders { core with state := { core.state with dag } } leaders), ?_⟩
    rw [heq]
    change (b.electLeaders { core.state with dag } c.round >>= _) = _
    rw [hresult]
    rfl

end Refines

end Narwhal

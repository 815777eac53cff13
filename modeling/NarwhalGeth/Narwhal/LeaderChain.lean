import NarwhalGeth.Lib.Descent
import NarwhalGeth.Narwhal.Committee
import NarwhalGeth.Narwhal.Ledger

/-!
# Leader chains over a quorate pool

Over a pool in which every certificate names a quorum of parents, a leader supported by a validity
quorum of the next round is an ancestor of every certificate two rounds above it or higher. The
chains of leaders that start at supported leaders are therefore suffixes of one another.
-/

namespace Narwhal

variable {K D : Type} {x L p c : Certificate K D} {leaders leaders' : List (Certificate K D)}

/-- A path from a certificate to an ancestor of it in the pool. -/
def Pool.Reaches (P : Pool K D) : Certificate K D → Certificate K D → Prop :=
  Relation.ReflTransGen fun x p => p ∈ P ∧ p.IsParent x

variable {P : Pool K D}

theorem Pool.Reaches.eq_or_parent (h : P.Reaches x p) :
    x = p ∨ ∃ q ∈ P, q.IsParent x ∧ P.Reaches q p :=
  ReachesIn.eq_or_parent h

theorem Pool.Reaches.of_parent {q : Certificate K D} (hq : q ∈ P) (hparent : q.IsParent x)
    (h : P.Reaches q p) : P.Reaches x p :=
  ReachesIn.of_parent hq hparent h

theorem Pool.Reaches.round_le (h : P.Reaches x p) :
    p.round ≤ x.round :=
  ReachesIn.round_le h

/-! ## Quorums of parents and support -/

variable [DecidableEq K]

/-- Every certificate above round one names a quorum of parents. -/
def Pool.NamesQuorums (P : Pool K D) (committee : Committee K) : Prop :=
  ∀ c ∈ P, 1 < c.round → ∃ parents : List (Certificate K D),
    (∀ p ∈ parents, p ∈ P ∧ p.IsParent c) ∧ (parents.map Certificate.origin).Nodup ∧
    committee.quorumThreshold ≤ ((parents.map Certificate.origin).map committee.stake).sum

/-- Every certificate above round one names a quorum of parents, and stakes are added without
overflow. -/
structure Pool.Quorate (P : Pool K D) (committee : Committee K) : Prop where
  parents : P.NamesQuorums committee
  stake : 2 * committee.allStake < 2 ^ 64

/-- A certificate of the pool that a validity quorum of certificates names as a parent. -/
def Pool.Supported (P : Pool K D) (committee : Committee K) (L : Certificate K D) : Prop :=
  ∃ children : List (Certificate K D),
    (∀ c ∈ children, c ∈ P ∧ L.IsParent c) ∧ (children.map Certificate.origin).Nodup ∧
    committee.validityThreshold ≤ ((children.map Certificate.origin).map committee.stake).sum

variable {committee : Committee K}

theorem Pool.Quorate.exists_parent (hq : P.Quorate committee) (hc : c ∈ P) (hround : 1 < c.round) :
    ∃ p ∈ P, p.IsParent c := by
  obtain ⟨parents, hparents, -, hstake⟩ := hq.parents c hc hround
  cases parents with
  | nil => simp [Committee.quorumThreshold] at hstake
  | cons p parents => exact ⟨p, hparents p List.mem_cons_self⟩

theorem Pool.Quorate.reaches_of_round_eq (hq : P.Quorate committee) (hL : L ∈ P)
    (hsupport : P.Supported committee L) (hx : x ∈ P) (hround : x.round = L.round + 2) :
    P.Reaches x L := by
  obtain ⟨children, hchildren, hnodup, hvalid⟩ := hsupport
  obtain ⟨parents, hparents, hnodup', hquorum⟩ := hq.parents x hx (by omega)
  obtain ⟨k, hk, hk'⟩ := Committee.exists_mem_validity_quorum hq.stake hnodup hnodup' hvalid hquorum
  obtain ⟨c, hc, rfl⟩ := List.mem_map.mp hk
  obtain ⟨p, hp, horigin⟩ := List.mem_map.mp hk'
  obtain ⟨hcP, hLc⟩ := hchildren c hc
  obtain ⟨hpP, hpx⟩ := hparents p hp
  have hsame : p = c := by
    refine P.eq_of_origin_round p hpP c hcP horigin ?_
    have h₁ := hpx.1
    have h₂ := hLc.1
    omega
  subst hsame
  exact .of_parent hpP hpx (.of_parent hL hLc .refl)

/-- A supported certificate is an ancestor of everything two rounds above it or higher. -/
theorem Pool.Quorate.reaches_of_supported (hq : P.Quorate committee) (hL : L ∈ P)
    (hsupport : P.Supported committee L) (hx : x ∈ P) (hround : L.round + 2 ≤ x.round) :
    P.Reaches x L := by
  obtain ⟨n, hn⟩ : ∃ n, x.round = L.round + 2 + n := ⟨x.round - (L.round + 2), by omega⟩
  induction n generalizing x with
  | zero => exact hq.reaches_of_round_eq hL hsupport hx hn
  | succ n ih =>
    obtain ⟨p, hp, hparent⟩ := hq.exists_parent hx (by omega)
    have hp' := hparent.1
    exact .of_parent hp hparent (ih hp (by omega) (by omega))

/-! ## Finite pools -/

section OfList

omit [DecidableEq K]

/-- The pool of the certificates of a list. -/
def Pool.ofList (certs : List (Certificate K D)) (hround : ∀ c ∈ certs, 1 ≤ c.round)
    (horigin : ∀ c ∈ certs, ∀ c' ∈ certs, c.origin = c'.origin → c.round = c'.round → c = c')
    (hdigest : ∀ c ∈ certs, ∀ c' ∈ certs, c.digest = c'.digest → c = c') : Pool K D :=
  ⟨{c | c ∈ certs}, hround, horigin, hdigest⟩

end OfList

theorem Pool.namesQuorums_ofList [DecidableEq D] {certs : List (Certificate K D)}
    {hround horigin hdigest}
    (h : ∀ c ∈ certs, 1 < c.round →
      ((certs.filter (·.IsParent c)).map Certificate.origin).Nodup ∧
      committee.quorumThreshold ≤
        (((certs.filter (·.IsParent c)).map Certificate.origin).map committee.stake).sum) :
    (Pool.ofList certs hround horigin hdigest).NamesQuorums committee := by
  intro c hc hlt
  refine ⟨certs.filter (·.IsParent c), fun p hp => ?_, h c hc hlt⟩
  obtain ⟨hmem, hparent⟩ := List.mem_filter.mp hp
  exact ⟨hmem, by simpa using hparent⟩

/-! ## Chains -/

omit [DecidableEq K] in
open scoped Classical in
/-- The certificate of the pool by the leader of round `2 * n`. -/
noncomputable def Pool.leaderAt (P : Pool K D) (leaderAuthority : ℕ → K) (n : ℕ) :
    Option (Certificate K D) :=
  if h : ∃ c ∈ P, c.round = 2 * n ∧ c.origin = leaderAuthority (2 * n) then some h.choose else none

/-- The leader rounds are numbered by halves. -/
def slot (c : Certificate K D) : ℕ := c.round / 2

/-- The chain of leaders that a leader commits from the beginning. -/
noncomputable def Pool.leaderChain (P : Pool K D) (leaderAuthority : ℕ → K)
    (L : Certificate K D) : List (Certificate K D) :=
  Descent.chain (P.leaderAt leaderAuthority) P.Reaches slot L

variable {leaderAuthority : ℕ → K}

omit [DecidableEq K] in
theorem Pool.leaderAt_eq_some {n : ℕ} :
    P.leaderAt leaderAuthority n = some c ↔
      c ∈ P ∧ c.round = 2 * n ∧ c.origin = leaderAuthority (2 * n) := by
  unfold leaderAt
  constructor
  · intro h
    split_ifs at h with hex
    rw [← Option.some_injective _ h]
    exact hex.choose_spec
  · intro hc
    have hex : ∃ c ∈ P, c.round = 2 * n ∧ c.origin = leaderAuthority (2 * n) := ⟨c, hc⟩
    rw [dif_pos hex, Option.some.injEq]
    obtain ⟨hmem, hround, horigin⟩ := hex.choose_spec
    exact P.eq_of_origin_round _ hmem _ hc.1 (horigin.trans hc.2.2.symm)
      (hround.trans hc.2.1.symm)

omit [DecidableEq K] in
theorem Pool.slot_leaderAt (P : Pool K D) (leaderAuthority : ℕ → K) (n : ℕ) (c : Certificate K D)
    (h : P.leaderAt leaderAuthority n = some c) : slot c = n := by
  obtain ⟨-, hround, -⟩ := leaderAt_eq_some.mp h
  rw [slot, hround]
  omega

/-- An elected leader of an even round with the support of a validity quorum. -/
structure Pool.Anchor (P : Pool K D) (committee : Committee K) (leaderAuthority : ℕ → K)
    (L : Certificate K D) : Prop where
  mem : P.leaderAt leaderAuthority (slot L) = some L
  pos : 1 ≤ slot L
  supported : P.Supported committee L

theorem Pool.Anchor.chain_suffix (hq : P.Quorate committee) {L' : Certificate K D}
    (hL : P.Anchor committee leaderAuthority L) (hL' : P.Anchor committee leaderAuthority L')
    (hle : slot L ≤ slot L') :
    P.leaderChain leaderAuthority L <:+ P.leaderChain leaderAuthority L' := by
  obtain ⟨hmem, hround, -⟩ := Pool.leaderAt_eq_some.mp hL.mem
  refine Descent.chain_suffix_chain (P.slot_leaderAt leaderAuthority) (G := (· ∈ P))
    (fun _ _ h => (Pool.leaderAt_eq_some.mp h).1) hL.mem hL'.mem hL.pos ?_ hle
  intro y hy hlt
  refine hq.reaches_of_supported hmem hL.supported hy ?_
  unfold slot at hlt hround
  omega

omit [DecidableEq K] in
theorem Pool.mem_leaderChain (hL : P.leaderAt leaderAuthority (slot L) = some L) (hpos : 1 ≤ slot L)
    (hp : p ∈ P.leaderChain leaderAuthority L) : 1 ≤ slot p ∧ p.round = 2 * slot p := by
  rcases List.mem_cons.mp hp with rfl | hp
  · exact ⟨hpos, (leaderAt_eq_some.mp hL).2.1⟩
  · obtain ⟨hpos', -, hcand⟩ := Descent.slot_le_of_mem_below (P.slot_leaderAt leaderAuthority) hp
    exact ⟨hpos', (leaderAt_eq_some.mp hcand).2.1⟩

omit [DecidableEq K] in
theorem Pool.leaderChain_increasing (hL : P.leaderAt leaderAuthority (slot L) = some L)
    (hpos : 1 ≤ slot L) :
    (P.leaderChain leaderAuthority L).reverse.Pairwise fun p q => p.round < q.round := by
  rw [List.pairwise_reverse]
  have hslots : (P.leaderChain leaderAuthority L).Pairwise fun p q => slot q < slot p :=
    Descent.chain_pairwise (P.slot_leaderAt leaderAuthority) hpos
  refine hslots.imp_of_mem ?_
  intro p q hp hq hlt
  have hpround := (mem_leaderChain hL hpos hp).2
  have hqround := (mem_leaderChain hL hpos hq).2
  omega

/-- Committed leaders, oldest first, as part of the chain of an anchor. -/
def Pool.Anchored (P : Pool K D) (committee : Committee K) (leaderAuthority : ℕ → K)
    (leaders : List (Certificate K D)) : Prop :=
  leaders = [] ∨ ∃ L, P.Anchor committee leaderAuthority L ∧
    leaders <+: (P.leaderChain leaderAuthority L).reverse

theorem Pool.Anchored.of_prefix (h : P.Anchored committee leaderAuthority leaders')
    (hpre : leaders <+: leaders') :
    P.Anchored committee leaderAuthority leaders := by
  rcases h with rfl | ⟨L, hL, hpre'⟩
  · exact .inl (List.prefix_nil.mp hpre)
  · exact .inr ⟨L, hL, hpre.trans hpre'⟩

theorem Pool.Anchored.comparable (hq : P.Quorate committee)
    (h : P.Anchored committee leaderAuthority leaders)
    (h' : P.Anchored committee leaderAuthority leaders') :
    leaders <+: leaders' ∨ leaders' <+: leaders := by
  rcases h with rfl | ⟨L, hL, hpre⟩
  · exact .inl List.nil_prefix
  rcases h' with rfl | ⟨L', hL', hpre'⟩
  · exact .inr List.nil_prefix
  rcases Nat.le_total (slot L) (slot L') with hle | hle
  · have hchain := List.reverse_prefix.mpr (hL.chain_suffix hq hL' hle)
    exact List.prefix_or_prefix_of_prefix (hpre.trans hchain) hpre'
  · have hchain := List.reverse_prefix.mpr (hL'.chain_suffix hq hL hle)
    exact List.prefix_or_prefix_of_prefix hpre (hpre'.trans hchain)

end Narwhal

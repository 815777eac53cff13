import NarwhalGeth.Lib.DepthFirst
import NarwhalGeth.Narwhal.Types

/-!
# The ledger determined by a sequence of leaders

What consensus is for, with no memory to manage: over a fixed pool of certificates, a sequence of
leaders determines a sequence of sub-dags. Each leader contributes the certificates of its causal
history above the frontier left by the earlier leaders, in the order of a depth-first traversal and
then by round.
-/

namespace Narwhal

variable {K D : Type} {c x p : Certificate K D} {subDags' : List (CommittedSubDag K D)}
  {cs leaders' : List (Certificate K D)}

/-- Certificates of positive rounds, each determined by its origin and round, and by its digest. -/
structure Pool (K D : Type) where
  certs : Set (Certificate K D)
  round_pos : ∀ c ∈ certs, 1 ≤ c.round
  eq_of_origin_round : ∀ c ∈ certs, ∀ c' ∈ certs, c.origin = c'.origin → c.round = c'.round → c = c'
  eq_of_digest : ∀ c ∈ certs, ∀ c' ∈ certs, c.digest = c'.digest → c = c'

instance : Membership (Certificate K D) (Pool K D) := ⟨fun P c => c ∈ P.certs⟩

/-! ## Ancestors -/

/-- A path from a certificate to an ancestor of it among some certificates. -/
def ReachesIn (certs : Set (Certificate K D)) : Certificate K D → Certificate K D → Prop :=
  Relation.ReflTransGen fun x p => p ∈ certs ∧ p.IsParent x

namespace ReachesIn

variable {certs : Set (Certificate K D)} {x p q : Certificate K D}

theorem eq_or_parent (h : ReachesIn certs x p) :
    x = p ∨ ∃ q ∈ certs, q.IsParent x ∧ ReachesIn certs q p := by
  rcases Relation.ReflTransGen.cases_head h with heq | ⟨q, ⟨hq, hparent⟩, hrest⟩
  · exact .inl heq
  · exact .inr ⟨q, hq, hparent, hrest⟩

theorem of_parent (hq : q ∈ certs) (hparent : q.IsParent x) (h : ReachesIn certs q p) :
    ReachesIn certs x p :=
  Relation.ReflTransGen.head ⟨hq, hparent⟩ h

theorem round_le (h : ReachesIn certs x p) : p.round ≤ x.round := by
  refine Relation.ReflTransGen.head_induction_on h le_rfl ?_
  rintro a c ⟨-, hround, -⟩ - hle
  omega

theorem mem (h : ReachesIn certs x p) (hx : x ∈ certs) : p ∈ certs := by
  rcases Relation.ReflTransGen.cases_tail h with rfl | ⟨_, -, hp, -⟩
  · exact hx
  · exact hp

end ReachesIn

/-! ## The commit frontier -/

/-- The last committed round of each authority and overall. -/
@[ext]
structure Frontier (K : Type) where
  committedRound : K → ℕ
  lastCommittedRound : ℕ

namespace Frontier

def start : Frontier K := ⟨fun _ => 0, 0⟩

variable [DecidableEq K]

def commit (A : Frontier K) (c : Certificate K D) : Frontier K where
  committedRound k := if k = c.origin then max (A.committedRound k) c.round else A.committedRound k
  lastCommittedRound := max A.lastCommittedRound c.round

def commitAll (A : Frontier K) (cs : List (Certificate K D)) : Frontier K := cs.foldl commit A

/-- A certificate that is neither committed or overtaken for its authority nor garbage
collected. -/
def Pending (A : Frontier K) (gcDepth : ℕ) (c : Certificate K D) : Prop :=
  A.committedRound c.origin < c.round ∧ A.lastCommittedRound ≤ c.round + gcDepth

theorem committedRound_commitAll_le (A : Frontier K) (cs : List (Certificate K D)) (k : K) :
    A.committedRound k ≤ (A.commitAll cs).committedRound k := by
  induction cs generalizing A with
  | nil => exact le_rfl
  | cons c cs ih =>
    refine le_trans ?_ (ih (A.commit c))
    simp only [commit]
    split_ifs <;> omega

theorem lastCommittedRound_commitAll_le (A : Frontier K) (cs : List (Certificate K D)) :
    A.lastCommittedRound ≤ (A.commitAll cs).lastCommittedRound := by
  induction cs generalizing A with
  | nil => exact le_rfl
  | cons c cs ih => exact le_trans (le_max_left _ _) (ih (A.commit c))

theorem round_le_committedRound_commitAll (A : Frontier K) (hc : c ∈ cs) :
    c.round ≤ (A.commitAll cs).committedRound c.origin := by
  induction cs generalizing A with
  | nil => simp at hc
  | cons x cs ih =>
    rcases List.mem_cons.mp hc with rfl | hc
    · refine le_trans ?_ (committedRound_commitAll_le (A.commit c) cs c.origin)
      simp [commit]
    · exact ih (A.commit x) hc

theorem committedRound_commitAll_eq (A : Frontier K) (cs : List (Certificate K D)) (k : K) :
    (A.commitAll cs).committedRound k = A.committedRound k ∨
      ∃ c ∈ cs, c.origin = k ∧ c.round = (A.commitAll cs).committedRound k := by
  induction cs generalizing A with
  | nil => exact .inl rfl
  | cons x cs ih =>
    rcases ih (A.commit x) with h | ⟨c, hc, ho, hr⟩
    · have hstep : (A.commitAll (x :: cs)).committedRound k =
          if k = x.origin then max (A.committedRound k) x.round else A.committedRound k := h
      by_cases hk : k = x.origin
      · rw [if_pos hk] at hstep
        rcases max_choice (A.committedRound k) x.round with hmax | hmax
        · exact .inl (hstep.trans hmax)
        · exact .inr ⟨x, List.mem_cons_self, hk.symm, (hstep.trans hmax).symm⟩
      · rw [if_neg hk] at hstep
        exact .inl hstep
    · exact .inr ⟨c, List.mem_cons_of_mem _ hc, ho, hr⟩

/-- Committing certificates up to a top round that is reached moves the last committed round
there. -/
theorem lastCommittedRound_commitAll (A : Frontier K) {top : ℕ} (hA : A.lastCommittedRound ≤ top)
    (hle : ∀ c ∈ cs, c.round ≤ top) (htop : A.lastCommittedRound = top ∨ ∃ c ∈ cs, c.round = top) :
    (A.commitAll cs).lastCommittedRound = top := by
  induction cs generalizing A with
  | nil => simpa [commitAll] using htop
  | cons x cs ih =>
    have hx := hle x List.mem_cons_self
    refine ih (A.commit x) (max_le hA hx) (fun c hc => hle c (List.mem_cons_of_mem _ hc)) ?_
    rcases htop with h | ⟨c, hc, hr⟩
    · exact .inl (by simp only [commit]; omega)
    · rcases List.mem_cons.mp hc with rfl | hc
      · exact .inl (by simp only [commit]; omega)
      · exact .inr ⟨c, hc, hr⟩

theorem committedRound_commit_le_last (A : Frontier K) (c : Certificate K D)
    (h : ∀ k, A.committedRound k ≤ A.lastCommittedRound) (k : K) :
    (A.commit c).committedRound k ≤ (A.commit c).lastCommittedRound := by
  have hk := h k
  simp only [commit]
  split_ifs <;> omega

theorem committedRound_commitAll_le_last (A : Frontier K) (cs : List (Certificate K D))
    (h : ∀ k, A.committedRound k ≤ A.lastCommittedRound) (k : K) :
    (A.commitAll cs).committedRound k ≤ (A.commitAll cs).lastCommittedRound := by
  induction cs generalizing A with
  | nil => exact h k
  | cons c cs ih => exact ih (A.commit c) (A.committedRound_commit_le_last c h)

end Frontier

/-! ## Sub-dags -/

section SubDag

open scoped Classical in
/-- The pool's parent of `x` with digest `d`, if it is still pending. -/
noncomputable def Pool.pendingParent (P : Pool K D) (gcDepth : ℕ) (A : Frontier K)
    (x : Certificate K D) (d : D) : Option (Certificate K D) :=
  if h : ∃ p ∈ P, p.digest = d ∧ p.round + 1 = x.round ∧ A.Pending gcDepth p then some h.choose
  else none

/-- The pending parents of a certificate, in the order in which it names them. -/
noncomputable def Pool.pendingParents (P : Pool K D) (gcDepth : ℕ) (A : Frontier K)
    (x : Certificate K D) : List (Certificate K D) :=
  x.parents.filterMap (P.pendingParent gcDepth A x)

variable {P : Pool K D} {gcDepth : ℕ} {A : Frontier K}

theorem Pool.pendingParent_eq_some {d : D} :
    P.pendingParent gcDepth A x d = some p ↔
      p ∈ P ∧ p.digest = d ∧ p.round + 1 = x.round ∧ A.Pending gcDepth p := by
  unfold pendingParent
  constructor
  · intro h
    split_ifs at h with hex
    rw [← Option.some_injective _ h]
    exact hex.choose_spec
  · intro hp
    have hex : ∃ p ∈ P, p.digest = d ∧ p.round + 1 = x.round ∧ A.Pending gcDepth p := ⟨p, hp⟩
    rw [dif_pos hex, Option.some.injEq]
    obtain ⟨hmem, hdigest, -⟩ := hex.choose_spec
    exact P.eq_of_digest _ hmem _ hp.1 (hdigest.trans hp.2.1.symm)

theorem Pool.mem_pendingParents :
    p ∈ P.pendingParents gcDepth A x ↔ p ∈ P ∧ p.IsParent x ∧ A.Pending gcDepth p := by
  simp only [pendingParents, List.mem_filterMap, pendingParent_eq_some, Certificate.IsParent]
  constructor
  · rintro ⟨d, hd, hmem, rfl, hround, hpending⟩
    exact ⟨hmem, ⟨hround, hd⟩, hpending⟩
  · rintro ⟨hmem, ⟨hround, hd⟩, hpending⟩
    exact ⟨_, hd, hmem, rfl, hround, hpending⟩

variable [DecidableEq D]

/-- The sub-dag that a leader commits on top of a frontier. -/
def SubDagOf (P : Pool K D) (gcDepth : ℕ) (A : Frontier K) (leader : Certificate K D)
    (certificates : List (Certificate K D)) : Prop :=
  ∃ out, DepthFirst.Visits Certificate.digest (P.pendingParents gcDepth A) [leader] [] out ∧
    certificates = out.insertionSort fun a b => a.round ≤ b.round

namespace SubDagOf

variable {leader : Certificate K D} {certificates : List (Certificate K D)}

section

variable (h : SubDagOf P gcDepth A leader certificates)

include h

theorem unique {certificates' : List (Certificate K D)}
    (h' : SubDagOf P gcDepth A leader certificates') : certificates = certificates' := by
  obtain ⟨out, hout, rfl⟩ := h
  obtain ⟨out', hout', rfl⟩ := h'
  rw [hout.unique hout']

theorem sorted : certificates.Pairwise fun a b => a.round ≤ b.round := by
  obtain ⟨out, -, rfl⟩ := h
  have : Std.Total fun a b : Certificate K D => a.round ≤ b.round := ⟨fun a b => le_total _ _⟩
  have : IsTrans (Certificate K D) fun a b => a.round ≤ b.round := ⟨fun _ _ _ => le_trans⟩
  exact List.pairwise_insertionSort _ out

theorem leader_mem : leader ∈ certificates := by
  obtain ⟨out, hout, rfl⟩ := h
  rw [List.mem_insertionSort]
  exact hout.stack_subset leader (by simp)

/-- The certificates of a sub-dag other than the leader are pending ones of lower rounds. -/
theorem mem_cases (hc : c ∈ certificates) :
    c = leader ∨ (c ∈ P ∧ c.round < leader.round ∧ A.Pending gcDepth c) := by
  obtain ⟨out, hout, rfl⟩ := h
  rw [List.mem_insertionSort] at hc
  refine hout.forall_mem
    (fun c => c = leader ∨ (c ∈ P ∧ c.round < leader.round ∧ A.Pending gcDepth c)) ?_ ?_ c hc
  · intro x hx y hy
    obtain ⟨hmem, ⟨hround, -⟩, hpending⟩ := Pool.mem_pendingParents.mp hy
    right
    rcases hx with rfl | ⟨-, hlt, -⟩
    · exact ⟨hmem, by omega, hpending⟩
    · exact ⟨hmem, by omega, hpending⟩
  · intro x hx
    exact .inl (by simpa using hx)

theorem mem_pool (hleader : leader ∈ P) (hc : c ∈ certificates) : c ∈ P := by
  rcases h.mem_cases hc with rfl | hc
  · exact hleader
  · exact hc.1

theorem parent_mem (hleader : leader ∈ P) (hc : c ∈ certificates) (hp : p ∈ P)
    (hparent : p.IsParent c) (hpending : A.Pending gcDepth p) : p ∈ certificates := by
  have hpool : ∀ z ∈ certificates, z ∈ P := fun z => h.mem_pool hleader
  obtain ⟨out, hout, rfl⟩ := h
  rw [List.mem_insertionSort] at hc ⊢
  have hnext := Pool.mem_pendingParents.mpr ⟨hp, hparent, hpending⟩
  rcases hout.next_mem c hc p hnext with hnil | ⟨z, hz, heq⟩
  · simp at hnil
  · have hzP := hpool z ((List.mem_insertionSort _).mpr hz)
    rwa [P.eq_of_digest z hzP p hp heq] at hz

end

theorem round_lt_of_mem_tail {out : List (Certificate K D)}
    (h : DepthFirst.Visits Certificate.digest (P.pendingParents gcDepth A) [leader] []
      (leader :: out)) (hx : x ∈ out) : x ∈ P ∧ x.round < leader.round := by
  have hlower : ∀ y, ∀ z ∈ P.pendingParents gcDepth A y, z ∈ P ∧ z.round < y.round := by
    intro y z hz
    obtain ⟨hmem, ⟨hround, -⟩, -⟩ := Pool.mem_pendingParents.mp hz
    exact ⟨hmem, by omega⟩
  cases h with
  | step rest =>
    refine rest.forall_mem (fun z => z ∈ P ∧ z.round < leader.round) ?_ ?_ x hx
    · intro y hy z hz
      have hzy := hlower y z hz
      exact ⟨hzy.1, by omega⟩
    · obtain ⟨pushed, happ, hnew, -⟩ := DepthFirst.pushNew_stack_append Certificate.digest [] []
        (P.pendingParents gcDepth A leader)
      intro z hz
      rw [happ, List.append_nil] at hz
      exact hlower leader z (hnew z hz).1

section

variable (h : SubDagOf P gcDepth A leader certificates)

include h

theorem nodup (hleader : leader ∈ P) : certificates.Nodup := by
  obtain ⟨out, hout, rfl⟩ := h
  refine (List.perm_insertionSort _ out).nodup_iff.mpr ?_
  cases hout with
  | step rest =>
    refine List.Nodup.of_map _ ((DepthFirst.Visits.step rest).nodup_of_root ?_)
    intro x hx heq
    obtain ⟨hxP, hlt⟩ := round_lt_of_mem_tail (DepthFirst.Visits.step rest) hx
    rw [P.eq_of_digest x hxP leader hleader heq] at hlt
    omega

theorem exists_eq_append (hleader : leader ∈ P) : ∃ init, certificates = init ++ [leader] := by
  obtain ⟨init, post, heq⟩ := List.append_of_mem h.leader_mem
  have hpost : post = [] := by
    rw [List.eq_nil_iff_forall_not_mem]
    intro z hz
    have hsorted := h.sorted
    have hnodup := h.nodup hleader
    rw [heq, List.pairwise_append, List.pairwise_cons] at hsorted
    rw [heq, List.nodup_append, List.nodup_cons] at hnodup
    have hle := hsorted.2.1.1 z hz
    have hmem : z ∈ certificates := by rw [heq]; simp [hz]
    rcases h.mem_cases hmem with rfl | ⟨-, hlt, -⟩
    · exact hnodup.2.1.1 hz
    · omega
  exact ⟨init, by rw [heq, hpost]⟩

theorem pairwise_round_lt (hleader : leader ∈ P) :
    certificates.Pairwise fun c c' => c.origin = c'.origin → c.round < c'.round := by
  have hboth := List.pairwise_and_iff.mpr ⟨h.sorted, h.nodup hleader⟩
  refine hboth.imp_of_mem ?_
  intro c c' hc hc' hcc horigin
  refine lt_of_le_of_ne hcc.1 fun hround => hcc.2 ?_
  exact P.eq_of_origin_round c (h.mem_pool hleader hc) c' (h.mem_pool hleader hc') horigin hround

end

end SubDagOf

theorem SubDagOf.lastCommittedRound_commitAll [DecidableEq K] {leader : Certificate K D}
    {certificates : List (Certificate K D)} (h : SubDagOf P gcDepth A leader certificates)
    (habove : A.lastCommittedRound < leader.round) :
    (A.commitAll certificates).lastCommittedRound = leader.round := by
  refine A.lastCommittedRound_commitAll habove.le ?_ (.inr ⟨leader, h.leader_mem, rfl⟩)
  intro c hc
  rcases h.mem_cases hc with rfl | ⟨-, hlt, -⟩
  · exact le_rfl
  · exact hlt.le

end SubDag

/-! ## The ledger -/

section Ledger

variable [DecidableEq K] [DecidableEq D] {A'' : Frontier K}

/-- Committing the leaders one by one from a frontier and a number of sub-dags yields the sub-dags
and the frontier. Leaders are of even rounds above what was committed. -/
inductive Ledger (P : Pool K D) (gcDepth : ℕ) :
    Frontier K → ℕ → List (Certificate K D) → List (CommittedSubDag K D) → Frontier K → Prop
  | nil (A : Frontier K) (n : ℕ) : Ledger P gcDepth A n [] [] A
  | cons {A A' : Frontier K} {n : ℕ} {leader : Certificate K D}
      {certificates leaders : List (Certificate K D)} {subDags : List (CommittedSubDag K D)}
      (mem : leader ∈ P) (above : A.lastCommittedRound < leader.round)
      (even : leader.round % 2 = 0) (subDag : SubDagOf P gcDepth A leader certificates)
      (rest : Ledger P gcDepth (A.commitAll certificates) (n + 1) leaders subDags A') :
      Ledger P gcDepth A n (leader :: leaders) (⟨certificates, leader, n + 1⟩ :: subDags) A'

namespace Ledger

variable {P : Pool K D} {gcDepth : ℕ} {A A' : Frontier K} {n : ℕ}
  {leaders : List (Certificate K D)} {subDags : List (CommittedSubDag K D)}

section

variable (h : Ledger P gcDepth A n leaders subDags A')

include h

theorem append (h' : Ledger P gcDepth A' (n + leaders.length) leaders' subDags' A'') :
    Ledger P gcDepth A n (leaders ++ leaders') (subDags ++ subDags') A'' := by
  induction h with
  | nil => exact h'
  | cons mem above even subDag _ ih =>
    refine .cons mem above even subDag (ih ?_)
    rwa [List.length_cons, Nat.add_comm _ 1, ← Nat.add_assoc] at h'

theorem lastCommittedRound_eq :
    A'.lastCommittedRound = (leaders.map Certificate.round).getLastD A.lastCommittedRound := by
  induction h with
  | nil => rfl
  | cons _ above _ subDag _ ih =>
    rw [ih, subDag.lastCommittedRound_commitAll above, List.map_cons, List.getLastD_cons]

theorem leader_even : ∀ L ∈ leaders, L.round % 2 = 0 := by
  induction h with
  | nil => simp
  | cons _ _ even _ _ ih => exact List.forall_mem_cons.mpr ⟨even, ih⟩

theorem lastCommittedRound_even (hA : A.lastCommittedRound % 2 = 0) :
    A'.lastCommittedRound % 2 = 0 := by
  rw [h.lastCommittedRound_eq, List.getLastD_eq_getLast?]
  cases hlast : (leaders.map Certificate.round).getLast? with
  | none => exact hA
  | some r =>
    obtain ⟨L, hL, rfl⟩ := List.mem_map.mp (List.mem_of_getLast? hlast)
    exact h.leader_even L hL

theorem lastCommittedRound_le : A.lastCommittedRound ≤ A'.lastCommittedRound := by
  induction h with
  | nil => exact le_rfl
  | cons _ above _ subDag _ ih =>
    rw [subDag.lastCommittedRound_commitAll above] at ih
    omega

theorem leader_bounds :
    ∀ L ∈ leaders, A.lastCommittedRound < L.round ∧ L.round ≤ A'.lastCommittedRound := by
  induction h with
  | nil => simp
  | cons _ above _ subDag rest ih =>
    have htop := subDag.lastCommittedRound_commitAll above
    have hle := rest.lastCommittedRound_le
    intro L hL
    rcases List.mem_cons.mp hL with rfl | hL
    · exact ⟨above, by omega⟩
    · have hbounds := ih L hL
      exact ⟨by omega, hbounds.2⟩

theorem leaders_increasing : leaders.Pairwise fun L L' => L.round < L'.round := by
  induction h with
  | nil => exact .nil
  | cons _ above _ subDag rest ih =>
    refine List.pairwise_cons.mpr ⟨fun L hL => ?_, ih⟩
    rw [← subDag.lastCommittedRound_commitAll above]
    exact (rest.leader_bounds L hL).1

theorem committedRound_le_last (hbound : ∀ k, A.committedRound k ≤ A.lastCommittedRound) :
    ∀ k, A'.committedRound k ≤ A'.lastCommittedRound := by
  induction h with
  | nil => exact hbound
  | cons _ _ _ _ _ ih => exact ih (Frontier.committedRound_commitAll_le_last _ _ hbound)

theorem exists_committedRound_eq (hbound : ∀ k, A.committedRound k ≤ A.lastCommittedRound)
    (hA : A.lastCommittedRound = 0 ∨ ∃ k, A.committedRound k = A.lastCommittedRound) :
    A'.lastCommittedRound = 0 ∨ ∃ k, A'.committedRound k = A'.lastCommittedRound := by
  induction h with
  | nil => exact hA
  | @cons A A' n leader certificates leaders subDags mem above even subDag rest ih =>
    have hbound' := A.committedRound_commitAll_le_last certificates hbound
    refine ih hbound' (.inr ⟨leader.origin, le_antisymm (hbound' _) ?_⟩)
    rw [subDag.lastCommittedRound_commitAll above]
    exact A.round_le_committedRound_commitAll subDag.leader_mem

/-- What follows the leaders in a list of increasing rounds is above the frontier they leave. -/
theorem lt_of_append {rest : List (Certificate K D)}
    (hpair : (leaders ++ rest).Pairwise fun L L' => L.round < L'.round)
    (hrest : ∀ p ∈ rest, A.lastCommittedRound < p.round) :
    ∀ p ∈ rest, A'.lastCommittedRound < p.round := by
  induction h with
  | nil => exact hrest
  | cons _ above _ subDag _ ih =>
    obtain ⟨hhead, htail⟩ := List.pairwise_cons.mp hpair
    refine ih htail fun p hp => ?_
    rw [subDag.lastCommittedRound_commitAll above]
    exact hhead p (List.mem_append_right _ hp)

theorem prefix_of_prefix (h' : Ledger P gcDepth A n leaders' subDags' A'')
    (hpre : leaders <+: leaders') : subDags <+: subDags' := by
  induction h generalizing leaders' subDags' with
  | nil => exact List.nil_prefix
  | cons _ _ _ subDag _ ih =>
    cases h' with
    | nil => simp at hpre
    | cons _ _ _ subDag' rest' =>
      obtain ⟨rfl, htail⟩ := List.cons_prefix_cons.mp hpre
      obtain rfl := subDag.unique subDag'
      rw [List.prefix_cons_inj]
      exact ih rest' htail

end

end Ledger

end Ledger

end Narwhal

import NarwhalGeth.Narwhal.Bullshark
import NarwhalGeth.Narwhal.Ledger

/-!
# The state of consensus refines the ledger

`Refines P gcDepth delivered state A` relates the memory of a validator that has been given the
certificates `delivered` of the pool `P` to a frontier `A` of the ledger. The DAG may hold more than
what is pending, and never less. Both operations on the state keep the relation, and under it
`orderDag` computes the sub-dag of the ledger.
-/

namespace Narwhal

variable {K D : Type} [DecidableEq K] {c x : Certificate K D} {e : D × Certificate K D}
  {dag : Dag K D}

/-- The certificates given to consensus and their relation to its memory. -/
structure Refines (P : Pool K D) (gcDepth : ℕ) (delivered : Set (Certificate K D))
    (state : ConsensusState K D) (A : Frontier K) : Prop where
  committedRound : ∀ k, state.committedRound k = A.committedRound k
  lastCommittedRound : state.lastCommittedRound = A.lastCommittedRound
  /-- No authority is ahead of the last committed round. -/
  bound : ∀ k, A.committedRound k ≤ A.lastCommittedRound
  /-- The garbage collection cut does not wrap around. -/
  fits : ∀ c ∈ P, c.round + gcDepth < 2 ^ 64
  pool : ∀ c ∈ delivered, c ∈ P
  /-- A cell of the DAG holds the delivered certificate of that round and origin. -/
  cells : ∀ r k d c, state.dag.cell r k = some (d, c) →
    c ∈ delivered ∧ c.round = r ∧ c.origin = k ∧ d = c.digest ∧ A.committedRound k < r
  /-- What is pending is in the DAG. -/
  complete : ∀ c ∈ delivered, A.Pending gcDepth c →
    state.dag.cell c.round c.origin = some (c.digest, c)
  /-- Parents are delivered first, up to the ones that are garbage collected. -/
  closed : ∀ c ∈ delivered, ∀ p ∈ P, p.IsParent c →
    p ∈ delivered ∨ p.round + gcDepth < A.lastCommittedRound

namespace Refines

variable {P : Pool K D} {gcDepth : ℕ} {delivered : Set (Certificate K D)}
  {state : ConsensusState K D} {A : Frontier K}

theorem new (hfits : ∀ c ∈ P, c.round + gcDepth < 2 ^ 64) :
    Refines P gcDepth ∅ .new .start where
  committedRound _ := rfl
  lastCommittedRound := rfl
  bound _ := le_rfl
  fits := hfits
  pool _ h := h.elim
  cells r k d c h := by simp [ConsensusState.new, Dag.cell] at h
  complete _ h := h.elim
  closed _ h := h.elim

/-! ## The operations keep the relation -/

section

variable (h : Refines P gcDepth delivered state A)

include h

theorem insert_skipped (hc : c ∈ P) (hle : c.round ≤ state.committedRound c.origin)
    (hparents : ∀ p ∈ P, p.IsParent c → p ∈ delivered ∨ p.round + gcDepth < A.lastCommittedRound) :
    Refines P gcDepth (insert c delivered) state A where
  committedRound := h.committedRound
  lastCommittedRound := h.lastCommittedRound
  bound := h.bound
  fits := h.fits
  pool := by
    rintro x (rfl | hx)
    · exact hc
    · exact h.pool x hx
  cells r k d x hx := by
    obtain ⟨hmem, hrest⟩ := h.cells r k d x hx
    exact ⟨.inr hmem, hrest⟩
  complete := by
    rintro x (rfl | hx) hpending
    · have hlt := hpending.1
      rw [← h.committedRound] at hlt
      omega
    · exact h.complete x hx hpending
  closed := by
    rintro x (rfl | hx) p hp hparent
    · exact (hparents p hp hparent).imp_left .inr
    · exact (h.closed x hx p hp hparent).imp_left .inr

theorem insert_written (hc : c ∈ P) (hlt : state.committedRound c.origin < c.round)
    (hdag : WritesCell state.dag dag c)
    (hparents : ∀ p ∈ P, p.IsParent c → p ∈ delivered ∨ p.round + gcDepth < A.lastCommittedRound) :
    Refines P gcDepth (insert c delivered) { state with dag } A where
  committedRound := h.committedRound
  lastCommittedRound := h.lastCommittedRound
  bound := h.bound
  fits := h.fits
  pool := by
    rintro x (rfl | hx)
    · exact hc
    · exact h.pool x hx
  cells r k d x hx := by
    change dag.cell r k = some (d, x) at hx
    rw [hdag] at hx
    split_ifs at hx with hcell
    · obtain ⟨rfl, rfl⟩ := hcell
      cases hx
      refine ⟨.inl rfl, rfl, rfl, rfl, ?_⟩
      rwa [← h.committedRound]
    · obtain ⟨hmem, hrest⟩ := h.cells r k d x hx
      exact ⟨.inr hmem, hrest⟩
  complete := by
    intro x hx hpending
    change dag.cell x.round x.origin = some (x.digest, x)
    rw [hdag]
    split_ifs with hcell
    · have hxP : x ∈ P := by
        rcases hx with rfl | hx
        · exact hc
        · exact h.pool x hx
      rw [P.eq_of_origin_round x hxP c hc hcell.2 hcell.1]
    · rcases hx with rfl | hx
      · exact absurd ⟨rfl, rfl⟩ hcell
      · exact h.complete x hx hpending
  closed := by
    rintro x (rfl | hx) p hp hparent
    · exact (hparents p hp hparent).imp_left .inr
    · exact (h.closed x hx p hp hparent).imp_left .inr

theorem update (c : Certificate K D) :
    Refines P gcDepth delivered (state.update c gcDepth) (A.commit c) where
  committedRound k := by
    rw [ConsensusState.update_committedRound, h.committedRound]
    rfl
  lastCommittedRound := by
    rw [ConsensusState.update_lastCommittedRound, h.lastCommittedRound]
    rfl
  bound := A.committedRound_commit_le_last c h.bound
  fits := h.fits
  pool := h.pool
  cells r k d x hx := by
    rw [ConsensusState.update_cell] at hx
    split_ifs at hx with hpurged
    obtain ⟨hmem, hround, horigin, hdigest, hlt⟩ := h.cells r k d x hx
    refine ⟨hmem, hround, horigin, hdigest, ?_⟩
    simp only [Frontier.commit]
    split_ifs with hk
    · have hr : ¬r ≤ c.round := fun hle => hpurged (.inr ⟨hle, hk⟩)
      omega
    · exact hlt
  complete := by
    rintro x hx ⟨hlt, hgc⟩
    have hpending : A.Pending gcDepth x := by
      refine ⟨?_, ?_⟩
      · simp only [Frontier.commit] at hlt
        split_ifs at hlt <;> omega
      · simp only [Frontier.commit] at hgc
        omega
    rw [ConsensusState.update_cell, if_neg, h.complete x hx hpending]
    rintro (hlow | ⟨hle, horigin⟩)
    · rw [h.lastCommittedRound, Nat.mod_eq_of_lt (h.fits x (h.pool x hx))] at hlow
      simp only [Frontier.commit] at hgc
      omega
    · simp only [Frontier.commit, if_pos horigin] at hlt
      omega
  closed x hx p hp hparent := by
    refine (h.closed x hx p hp hparent).imp_right fun hlt => ?_
    simp only [Frontier.commit]
    omega

theorem foldl_update (cs : List (Certificate K D)) :
    Refines P gcDepth delivered (cs.foldl (fun state x => state.update x gcDepth) state)
      (A.commitAll cs) := by
  induction cs generalizing state A with
  | nil => exact h
  | cons c cs ih => exact ih (h.update c)

theorem withIndex (n : ℕ) : Refines P gcDepth delivered { state with latestSubDagIndex := n } A :=
  ⟨h.committedRound, h.lastCommittedRound, h.bound, h.fits, h.pool, h.cells, h.complete, h.closed⟩

end

variable [DecidableEq D]

/-- Delivering a certificate whose parents were delivered raises no equivocation. -/
theorem tryInsert_cases (h : Refines P gcDepth delivered state A) (hc : c ∈ P) :
    (c.round ≤ state.committedRound c.origin ∧ state.tryInsert c = .ok (state, false)) ∨
    (state.committedRound c.origin < c.round ∧ ∃ dag,
      state.tryInsert c = .ok ({ state with dag }, true) ∧ WritesCell state.dag dag c) := by
  refine state.tryInsert_cases c ?_
  intro d existing hcell
  obtain ⟨hmem, hround, horigin, -⟩ := h.cells _ _ _ _ hcell
  rw [P.eq_of_origin_round existing (h.pool _ hmem) c hc horigin hround]

theorem tryInsert (h : Refines P gcDepth delivered state A) (hc : c ∈ P)
    (hparents : ∀ p ∈ P, p.IsParent c → p ∈ delivered ∨ p.round + gcDepth < A.lastCommittedRound)
    {state' : ConsensusState K D} {inserted : Bool}
    (hok : state.tryInsert c = .ok (state', inserted)) :
    Refines P gcDepth (insert c delivered) state' A ∧
      state'.lastCommitted = state.lastCommitted ∧
      state'.latestSubDagIndex = state.latestSubDagIndex := by
  rcases h.tryInsert_cases hc with ⟨hle, heq⟩ | ⟨hlt, dag, heq, hwrite⟩
  · rw [hok] at heq
    cases heq
    exact ⟨h.insert_skipped hc hle hparents, rfl, rfl⟩
  · rw [hok] at heq
    cases heq
    exact ⟨h.insert_written hc hlt hwrite hparents, rfl, rfl⟩

end Refines

/-! ## Flattening computes the sub-dag of the ledger -/

section OrderDag

variable [DecidableEq D] {P : Pool K D} {gcDepth : ℕ} {delivered : Set (Certificate K D)}
  {state : ConsensusState K D} {A : Frontier K}

/-- The certificate that `visitParent` pushes for a parent's digest that is not yet ordered. -/
def visibleParent (state : ConsensusState K D) (x : Certificate K D) (d : D) :
    Option (Certificate K D) :=
  (findParent state.dag x d).bind fun e => if state.isCommitted e.2 then none else some e.2

def visibleParents (state : ConsensusState K D) (x : Certificate K D) : List (Certificate K D) :=
  x.parents.filterMap (visibleParent state x)

theorem visitParent_eq (state : ConsensusState K D) (x : Certificate K D)
    (buffer : List (Certificate K D)) (seen : List D) (d : D)
    (hkey : ∀ e, findParent state.dag x d = some e → e.1 = e.2.digest) :
    visitParent state x (buffer, seen) d =
      DepthFirst.pushNew Certificate.digest buffer seen (visibleParent state x d).toList := by
  unfold visitParent visibleParent
  cases hfind : findParent state.dag x d with
  | none => rfl
  | some entry =>
    obtain ⟨digest, c⟩ := entry
    have hdigest : digest = c.digest := hkey _ hfind
    subst hdigest
    cases hcommitted : state.isCommitted c with
    | true => simp [hcommitted, DepthFirst.pushNew]
    | false => by_cases hmem : c.digest ∈ seen <;> simp [hcommitted, hmem, DepthFirst.pushNew]

theorem foldl_visitParent (state : ConsensusState K D) (x : Certificate K D)
    (hkey : ∀ d e, findParent state.dag x d = some e → e.1 = e.2.digest) (parents : List D)
    (buffer : List (Certificate K D)) (seen : List D) :
    parents.foldl (visitParent state x) (buffer, seen) =
      DepthFirst.pushNew Certificate.digest buffer seen
        (parents.filterMap (visibleParent state x)) := by
  induction parents generalizing buffer seen with
  | nil => rfl
  | cons d parents ih =>
    rw [List.foldl_cons, visitParent_eq state x buffer seen d (hkey d), ih]
    have hsplit : (d :: parents).filterMap (visibleParent state x) =
        (visibleParent state x d).toList ++ parents.filterMap (visibleParent state x) := by
      cases hv : visibleParent state x d <;> simp [hv]
    rw [hsplit, DepthFirst.pushNew_append]

theorem orderDagLoop_eq_preorder (state : ConsensusState K D)
    (hkey : ∀ x d e, findParent state.dag x d = some e → e.1 = e.2.digest) (fuel : ℕ)
    (buffer : List (Certificate K D)) (seen : List D) :
    orderDagLoop state fuel buffer seen =
      DepthFirst.preorder Certificate.digest (visibleParents state) fuel buffer seen := by
  induction fuel generalizing buffer seen with
  | zero => rfl
  | succ fuel ih =>
    cases buffer with
    | nil => rfl
    | cons x buffer =>
      simp only [orderDagLoop, DepthFirst.preorder, visibleParents]
      rw [foldl_visitParent state x (hkey x), ih]

/-- The digests of the DAG, which bound the traversal. -/
def Dag.digests (dag : Dag K D) : Finset D :=
  (dag.values.flatMap fun table => table.values.map Prod.fst).toFinset

omit [DecidableEq K] in
theorem Dag.card_digests_le (dag : Dag K D) : dag.digests.card ≤ dag.size := by
  refine (List.toFinset_card_le _).trans ?_
  simp [Dag.size, List.length_flatMap]

theorem findParent_cell {d : D} (h : findParent dag x d = some e) :
    e.1 = d ∧ ∃ k, dag.cell (x.round - 1) k = some e := by
  unfold findParent at h
  obtain ⟨table, htable, hfind⟩ := Option.bind_eq_some_iff.mp h
  obtain ⟨k, hk⟩ := Assoc.mem_values_iff.mp (List.mem_of_find?_eq_some hfind)
  refine ⟨by simpa using List.find?_some hfind, k, ?_⟩
  rw [Dag.cell, htable, Option.bind_some, hk]

theorem mem_digests_of_cell {r : ℕ} {k : K} (h : dag.cell r k = some e) : e.1 ∈ dag.digests := by
  obtain ⟨table, htable, hk⟩ := Option.bind_eq_some_iff.mp h
  simp only [Dag.digests, List.mem_toFinset, List.mem_flatMap, List.mem_map]
  exact ⟨table, Assoc.mem_values_iff.mpr ⟨r, htable⟩, e, Assoc.mem_values_iff.mpr ⟨k, hk⟩, rfl⟩

namespace Refines

theorem findParent_key (h : Refines P gcDepth delivered state A) (x : Certificate K D) (d : D)
    (e : D × Certificate K D) (hfind : findParent state.dag x d = some e) : e.1 = e.2.digest := by
  obtain ⟨-, k, hcell⟩ := findParent_cell hfind
  exact (h.cells _ _ _ _ hcell).2.2.2.1

/-- The search by digest finds the delivered parent, which is the only one with its digest. -/
theorem findParent_of_cell (h : Refines P gcDepth delivered state A) {p : Certificate K D}
    (hround : p.round + 1 = x.round) (hcell : state.dag.cell p.round p.origin = some (p.digest, p))
    :
    findParent state.dag x p.digest = some (p.digest, p) := by
  have hp := h.pool p (h.cells _ _ _ _ hcell).1
  obtain ⟨table, htable, hlook⟩ := Option.bind_eq_some_iff.mp hcell
  rw [findParent, show x.round - 1 = p.round by omega, htable, Option.bind_some]
  refine Assoc.find?_values_eq_some hlook (by simp) ?_
  rintro k ⟨d, c⟩ hk hd
  have hc := h.cells p.round k d c (by rw [Dag.cell, htable, Option.bind_some, hk])
  have hdigest : c.digest = p.digest := hc.2.2.2.1.symm.trans (by simpa using hd)
  rw [P.eq_of_digest c (h.pool c hc.1) p hp hdigest, show d = p.digest by simpa using hd]

omit [DecidableEq D] in
theorem isCommitted_iff (h : Refines P gcDepth delivered state A) (hc : c ∈ P) :
    state.isCommitted c = true ↔ c.round ≤ A.committedRound c.origin := by
  have hpos := P.round_pos c hc
  rw [← h.committedRound, ConsensusState.isCommitted, ConsensusState.committedRound]
  cases state.lastCommitted.lookup c.origin with
  | none => simp; omega
  | some r => simp

section

variable (h : Refines P gcDepth delivered state A)

include h

/-- Along delivered certificates, the visible parents above the garbage collection depth are the
pending parents of the pool. -/
theorem visibleParent_filter (hx : x ∈ delivered) (d : D) (hd : d ∈ x.parents) :
    (visibleParent state x d).filter (fun c => A.lastCommittedRound ≤ c.round + gcDepth) =
      P.pendingParent gcDepth A x d := by
  have hxpos := P.round_pos x (h.pool x hx)
  ext p
  rw [Pool.pendingParent_eq_some, Option.filter_eq_some_iff, visibleParent,
    Option.bind_eq_some_iff]
  constructor
  · rintro ⟨⟨⟨d', c⟩, hfind, hvisible⟩, hgc⟩
    obtain ⟨hd', k, hcell⟩ := findParent_cell hfind
    obtain ⟨hmem, hround, horigin, hdigest, hlt⟩ := h.cells _ _ _ _ hcell
    split_ifs at hvisible
    obtain rfl : c = p := Option.some_injective _ hvisible
    refine ⟨h.pool c hmem, hdigest.symm.trans hd', by omega, ?_, by simpa using hgc⟩
    rwa [horigin, hround]
  · rintro ⟨hp, rfl, hround, hpending⟩
    have hdelivered : p ∈ delivered := by
      rcases h.closed x hx p hp ⟨hround, hd⟩ with hdel | hlow
      · exact hdel
      · have hgc := hpending.2
        omega
    refine ⟨⟨(p.digest, p), h.findParent_of_cell hround (h.complete p hdelivered hpending), ?_⟩,
      by simpa using hpending.2⟩
    have hnot : ¬state.isCommitted p = true := by
      rw [h.isCommitted_iff hp]
      exact Nat.not_le.mpr hpending.1
    rw [if_neg hnot]

theorem visibleParents_filter (hx : x ∈ delivered) :
    P.pendingParents gcDepth A x = (visibleParents state x).filter
      (fun c => A.lastCommittedRound ≤ c.round + gcDepth) := by
  rw [visibleParents, List.filter_filterMap, Pool.pendingParents]
  refine List.filterMap_congr fun d hd => ?_
  rw [h.visibleParent_filter hx d hd]

theorem visible_mem {y : Certificate K D} (hy : y ∈ visibleParents state x) :
    y ∈ delivered ∧ y.round = x.round - 1 ∧ y.digest ∈ state.dag.digests := by
  obtain ⟨d, -, hvisible⟩ := List.mem_filterMap.mp hy
  obtain ⟨⟨d', c⟩, hfind, hite⟩ := Option.bind_eq_some_iff.mp hvisible
  obtain ⟨-, k, hcell⟩ := findParent_cell hfind
  obtain ⟨hmem, hround, -, hdigest, -⟩ := h.cells _ _ _ _ hcell
  split_ifs at hite
  obtain rfl : c = y := Option.some_injective _ hite
  exact ⟨hmem, hround, hdigest ▸ mem_digests_of_cell hcell⟩

/-- Flattening the DAG below a delivered leader computes the leader's sub-dag in the ledger. -/
theorem subDagOf_orderDag {leader : Certificate K D} (hleader : leader ∈ delivered)
    (habove : A.lastCommittedRound < leader.round) :
    SubDagOf P gcDepth A leader (orderDag gcDepth leader state) := by
  have hvisits := DepthFirst.visits_preorder Certificate.digest (visibleParents state)
    state.dag.digests (fun x y hy => (h.visible_mem hy).2.2) (state.dag.size + 1) [leader] [] (by
      have hcard := state.dag.card_digests_le
      simpa [Nat.add_comm] using hcard)
  rw [← orderDagLoop_eq_preorder state h.findParent_key] at hvisits
  have hfiltered : DepthFirst.Visits Certificate.digest (P.pendingParents gcDepth A)
      ([leader].filter fun c => A.lastCommittedRound ≤ c.round + gcDepth) []
      ((orderDagLoop state (state.dag.size + 1) [leader] []).filter
        fun c => A.lastCommittedRound ≤ c.round + gcDepth) := by
    refine hvisits.filter (U := (· ∈ delivered)) ?_ ?_ ?_ ?_ ?_ (by simp)
    · intro x y hx hy heq hpx
      rwa [← P.eq_of_digest x (h.pool x hx) y (h.pool y hy) heq]
    · exact fun x _ y hy => (h.visible_mem hy).1
    · exact fun x hx _ => h.visibleParents_filter hx
    · intro x _ hlow y hy
      have hround := (h.visible_mem hy).2.1
      omega
    · simpa using hleader
  have hcut : ∀ c ∈ orderDagLoop state (state.dag.size + 1) [leader] [],
      decide ((c.round + gcDepth) % 2 ^ 64 ≥ state.lastCommittedRound) =
        decide (A.lastCommittedRound ≤ c.round + gcDepth) := by
    intro c hc
    have hdel : c ∈ delivered := hvisits.forall_mem (· ∈ delivered)
      (fun x _ y hy => (h.visible_mem hy).1) (by simpa using hleader) c hc
    rw [h.lastCommittedRound, Nat.mod_eq_of_lt (h.fits c (h.pool c hdel))]
  refine ⟨_, ?_, by rw [orderDag, List.filter_congr hcut]⟩
  rwa [List.filter_cons_of_pos (by simp; omega), List.filter_nil] at hfiltered

end

end Refines

end OrderDag

end Narwhal

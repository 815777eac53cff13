import NarwhalGeth.Narwhal.Commit

/-!
# Links between leaders are paths

Pruning and garbage collection only touch the rounds up to the last committed one, as long as the
sum of a round and the garbage collection depth does not wrap around. Above it the DAG holds every
certificate that was delivered, and the frontier that `linked` moves down from a leader is the set
of the leader's ancestors.
-/

namespace Narwhal

variable {K D : Type} [DecidableEq K] {c x p : Certificate K D} {xs ys : List (Certificate K D)}
  {core : Core K D} {r gcDepth : ℕ}
variable {b : Bullshark K} {delivered : Set (Certificate K D)} {state : ConsensusState K D}

/-- The DAG holds delivered certificates, above the last committed round all of them. -/
structure CompleteAbove (delivered : Set (Certificate K D)) (state : ConsensusState K D) :
    Prop where
  bound : ∀ k, state.committedRound k ≤ state.lastCommittedRound
  cells : ∀ r k d c, state.dag.cell r k = some (d, c) →
    c ∈ delivered ∧ c.round = r ∧ c.origin = k ∧ d = c.digest
  complete : ∀ c ∈ delivered, state.lastCommittedRound < c.round →
    state.dag.cell c.round c.origin = some (c.digest, c)

/-- Every certificate whose parents are above a round has one of them among the certificates. -/
def Rooted (delivered : Set (Certificate K D)) (last : ℕ) : Prop :=
  ∀ c ∈ delivered, last + 1 < c.round → ∃ p ∈ delivered, p.IsParent c

namespace CompleteAbove

/-! ## The operations keep the DAG complete -/

theorem new : CompleteAbove ∅ (.new : ConsensusState K D) where
  bound _ := le_rfl
  cells r k d c h := by simp [ConsensusState.new, Dag.cell] at h
  complete _ h := h.elim

section

variable (h : CompleteAbove delivered state)

include h

theorem insert_skipped (hle : c.round ≤ state.committedRound c.origin) :
    CompleteAbove (insert c delivered) state where
  bound := h.bound
  cells r k d x hx := by
    obtain ⟨hmem, hrest⟩ := h.cells r k d x hx
    exact ⟨.inr hmem, hrest⟩
  complete := by
    rintro x (rfl | hx) habove
    · have hbound := h.bound x.origin
      omega
    · exact h.complete x hx habove

theorem insert_written (hsame : ∀ x ∈ delivered, x.digest = c.digest → x = c)
    (hcell : ∀ d x, state.dag.cell c.round c.origin = some (d, x) → x.digest = c.digest)
    {dag : Dag K D} (hdag : WritesCell state.dag dag c) :
    CompleteAbove (insert c delivered) { state with dag } where
  bound := h.bound
  cells r k d x hx := by
    change dag.cell r k = some (d, x) at hx
    rw [hdag] at hx
    split_ifs at hx with hcell'
    · obtain ⟨rfl, rfl⟩ := hcell'
      cases hx
      exact ⟨.inl rfl, rfl, rfl, rfl⟩
    · obtain ⟨hmem, hrest⟩ := h.cells r k d x hx
      exact ⟨.inr hmem, hrest⟩
  complete := by
    intro x hx habove
    change dag.cell x.round x.origin = some (x.digest, x)
    rw [hdag]
    rcases hx with rfl | hx
    · rw [if_pos ⟨rfl, rfl⟩]
    · have hold := h.complete x hx habove
      split_ifs with hcell'
      · rw [hcell'.1, hcell'.2] at hold
        rw [hsame x hx (hcell _ _ hold)]
      · exact hold

theorem update (hfits : ∀ c ∈ delivered, c.round + gcDepth < 2 ^ 64) (c : Certificate K D) :
    CompleteAbove delivered (state.update c gcDepth) where
  bound k := by
    have hbound := h.bound k
    rw [ConsensusState.update_committedRound, ConsensusState.update_lastCommittedRound]
    split_ifs <;> omega
  cells r k d x hx := by
    rw [ConsensusState.update_cell] at hx
    split_ifs at hx
    exact h.cells r k d x hx
  complete x hx habove := by
    rw [ConsensusState.update_lastCommittedRound] at habove
    rw [ConsensusState.update_cell, Nat.mod_eq_of_lt (hfits x hx), if_neg (by omega)]
    exact h.complete x hx (by omega)

theorem foldl_update (hfits : ∀ c ∈ delivered, c.round + gcDepth < 2 ^ 64)
    (cs : List (Certificate K D)) :
    CompleteAbove delivered (cs.foldl (fun state x => state.update x gcDepth) state) := by
  induction cs generalizing state with
  | nil => exact h
  | cons c cs ih => exact ih (h.update hfits c)

theorem withIndex (n : ℕ) : CompleteAbove delivered { state with latestSubDagIndex := n } :=
  ⟨h.bound, h.cells, h.complete⟩

end

variable [DecidableEq D]

theorem commitLeaders (h : CompleteAbove delivered state)
    (hfits : ∀ c ∈ delivered, c.round + b.gcDepth < 2 ^ 64) {store : ConsensusStore K D}
    (leaders : List (Certificate K D)) :
    CompleteAbove delivered (b.commitLeaders ⟨state, store⟩ leaders).2.state := by
  induction leaders generalizing state store with
  | nil => exact h
  | cons leader leaders ih =>
    exact ih ((h.foldl_update hfits (orderDag b.gcDepth leader state)).withIndex _)

theorem tryInsert (h : CompleteAbove delivered state)
    (hsame : ∀ x ∈ delivered, x.digest = c.digest → x = c) {state' : ConsensusState K D}
    {inserted : Bool} (hok : state.tryInsert c = .ok (state', inserted)) :
    CompleteAbove (insert c delivered) state' ∧
      state'.lastCommittedRound = state.lastCommittedRound ∧
      (inserted = true → state'.dag.cell c.round c.origin = some (c.digest, c)) := by
  unfold ConsensusState.tryInsert at hok
  obtain ⟨⟨dag, inserted'⟩, hinsert, heq⟩ := Except.eq_ok_of_map hok
  obtain ⟨rfl, rfl⟩ := Prod.mk.inj heq
  rcases tryInsertInDag_cases state.dag state.lastCommitted c with
    ⟨hle, hskip⟩ | ⟨-, d, existing, -, -, herror⟩ | ⟨-, hcell, dag', hwritten, hwrite⟩
  · rw [hskip] at hinsert
    cases hinsert
    exact ⟨h.insert_skipped hle, rfl, fun hfalse => by cases hfalse⟩
  · rw [herror] at hinsert
    cases hinsert
  · rw [hwritten] at hinsert
    cases hinsert
    exact ⟨h.insert_written hsame hcell hwrite, rfl,
      fun _ => (hwrite _ _).trans (if_pos ⟨rfl, rfl⟩)⟩

/-! ## No round is missing -/

omit [DecidableEq D] in
/-- Every round between the last committed one and a delivered certificate is in the DAG. -/
theorem exists_row (h : CompleteAbove delivered state)
    (hroot : Rooted delivered state.lastCommittedRound) (hx : x ∈ delivered)
    (habove : state.lastCommittedRound < r) (hr : r < x.round) :
    ∃ table, state.dag.lookup r = some table := by
  obtain ⟨n, hn⟩ : ∃ n, x.round = r + 1 + n := ⟨x.round - (r + 1), by omega⟩
  induction n generalizing x with
  | zero =>
    obtain ⟨p, hp, hparent⟩ := hroot x hx (by omega)
    have hround := hparent.1
    obtain ⟨table, htable, -⟩ := Option.bind_eq_some_iff.mp (h.complete p hp (by omega))
    exact ⟨table, by rwa [show r = p.round by omega]⟩
  | succ n ih =>
    obtain ⟨p, hp, hparent⟩ := hroot x hx (by omega)
    have hround := hparent.1
    exact ih hp (by omega) (by omega)

theorem linked_ok (h : CompleteAbove delivered state)
    (hroot : Rooted delivered state.lastCommittedRound) (hx : x ∈ delivered)
    (habove : state.lastCommittedRound < p.round) :
    ∃ result, linked x p state.dag = .ok result := by
  have hfold : ∀ (rounds : List ℕ) (xs : List (Certificate K D)),
      (∀ r ∈ rounds, ∃ table, state.dag.lookup r = some table) →
      ∃ ys, rounds.foldlM (linkedParents state.dag) xs = .ok ys := by
    intro rounds
    induction rounds with
    | nil => exact fun xs _ => ⟨xs, rfl⟩
    | cons r rounds ih =>
      intro xs hrows
      obtain ⟨table, htable⟩ := hrows r List.mem_cons_self
      rw [List.foldlM_cons, linkedParents, htable]
      exact ih _ fun r' hr' => hrows r' (List.mem_cons_of_mem _ hr')
  obtain ⟨ys, hys⟩ := hfold (List.range' p.round (x.round - p.round)).reverse [x] fun r hr => by
    rw [List.mem_reverse, List.mem_range'_1] at hr
    exact h.exists_row hroot hx (by omega) (by omega)
  exact ⟨_, by rw [linked, hys]; rfl⟩

theorem orderLeaders_ok (h : CompleteAbove delivered state)
    (hroot : Rooted delivered state.lastCommittedRound)
    {L : Certificate K D} (hL : L ∈ delivered) (heven : L.round % 2 = 0) :
    ∃ leaders, orderLeaders b.leaderAuthority L state = .ok leaders := by
  have hfold : ∀ (rounds : List ℕ) (acc : List (Certificate K D) × Certificate K D),
      acc.2 ∈ delivered → (∀ r ∈ rounds, state.lastCommittedRound < r) →
      ∃ acc', rounds.foldlM (orderLeadersStep b.leaderAuthority state.dag) acc = .ok acc' := by
    intro rounds
    induction rounds with
    | nil => exact fun acc _ _ => ⟨acc, rfl⟩
    | cons r rounds ih =>
      intro acc hacc hrounds
      have hr := hrounds r List.mem_cons_self
      have htail : ∀ r' ∈ rounds, state.lastCommittedRound < r' :=
        fun r' hr' => hrounds r' (List.mem_cons_of_mem _ hr')
      rw [List.foldlM_cons, orderLeadersStep]
      cases hleader : leader b.leaderAuthority r state.dag with
      | none => exact ih acc hacc htail
      | some entry =>
        obtain ⟨hdel, hround, -⟩ := h.cells _ _ _ _ hleader
        obtain ⟨result, hresult⟩ := h.linked_ok hroot hacc
          (show state.lastCommittedRound < entry.2.round by omega)
        dsimp only
        rw [hresult]
        cases result with
        | false => exact ih acc hacc htail
        | true => exact ih _ hdel htail
  have hrounds : ∀ r ∈ leaderRounds state.lastCommittedRound L.round,
      state.lastCommittedRound < r := by
    intro r hr
    have hmem := mem_of_mem_stepByTwo hr
    rw [List.mem_reverse, List.mem_range'_1] at hmem
    omega
  obtain ⟨acc, hacc⟩ := hfold _ ([L], L) hL hrounds
  have heven' : ¬L.round % 2 ≠ 0 := by omega
  refine ⟨acc.1, ?_⟩
  simp only [orderLeaders, if_neg heven']
  rw [hacc]
  rfl

theorem electLeaders_ok (h : CompleteAbove delivered state)
    (hroot : Rooted delivered state.lastCommittedRound)
    (hcell : state.dag.cell c.round c.origin = some (c.digest, c)) :
    ∃ result, b.electLeaders state c.round = .ok result := by
  obtain ⟨table, htable, -⟩ := Option.bind_eq_some_iff.mp hcell
  unfold Bullshark.electLeaders
  dsimp only
  split_ifs with hodd hlow
  · exact ⟨_, rfl⟩
  · exact ⟨_, rfl⟩
  · cases hleader : leader b.leaderAuthority (c.round - 1) state.dag with
    | none => exact ⟨_, rfl⟩
    | some entry =>
      obtain ⟨d, L⟩ := entry
      obtain ⟨hdel, hround, -⟩ := h.cells _ _ _ _ hleader
      obtain ⟨leaders, hleaders⟩ := h.orderLeaders_ok (b := b) hroot hdel (by omega)
      rw [htable]
      dsimp only
      split_ifs
      · exact ⟨_, rfl⟩
      · rw [hleaders]
        exact ⟨_, rfl⟩

/-- After the insertion of a certificate with a delivered parent, no `expect` fails. -/
theorem processCertificate_cases (h : CompleteAbove delivered core.state)
    (hsame : ∀ x ∈ delivered, x.digest = c.digest → x = c)
    (hfits : ∀ x ∈ insert c delivered, x.round + b.gcDepth < 2 ^ 64)
    (hroot : Rooted (insert c delivered) core.state.lastCommittedRound) :
    (∃ existing, b.processCertificate core c = .error (.certificateEquivocation c existing)) ∨
    ∃ outcome subDags core', b.processCertificate core c = .ok (outcome, subDags, core') ∧
      CompleteAbove (insert c delivered) core'.state := by
  unfold Bullshark.processCertificate
  cases hinsert : core.state.tryInsert c with
  | error fault =>
    rcases tryInsertInDag_cases core.state.dag core.state.lastCommitted c with
      ⟨-, heq⟩ | ⟨-, d, existing, -, -, heq⟩ | ⟨-, -, dag', heq, -⟩
    · rw [ConsensusState.tryInsert, heq] at hinsert
      cases hinsert
    · rw [ConsensusState.tryInsert, heq] at hinsert
      cases hinsert
      exact .inl ⟨existing, rfl⟩
    · rw [ConsensusState.tryInsert, heq] at hinsert
      cases hinsert
  | ok result =>
    obtain ⟨state, inserted⟩ := result
    obtain ⟨hstate, hlast, hcell⟩ := h.tryInsert hsame hinsert
    rw [← hlast] at hroot
    refine .inr ?_
    cases inserted with
    | false => exact ⟨_, _, _, rfl, hstate⟩
    | true =>
      obtain ⟨⟨outcome, leaders⟩, hresult⟩ := hstate.electLeaders_ok (b := b) hroot (hcell rfl)
      refine ⟨outcome, (b.commitLeaders { core with state } leaders).1,
        (b.commitLeaders { core with state } leaders).2, ?_,
        hstate.commitLeaders hfits leaders⟩
      change (b.electLeaders state c.round >>= _) = _
      rw [hresult]
      rfl

/-! ## Links are paths -/

theorem mem_linkedParents (h : CompleteAbove delivered state) (hxs : ∀ x ∈ xs, x.round = r + 1)
    (habove : state.lastCommittedRound < r) (hok : linkedParents state.dag xs r = .ok ys)
    (y : Certificate K D) :
    y ∈ ys ↔ y ∈ delivered ∧ ∃ x ∈ xs, y.IsParent x := by
  unfold linkedParents at hok
  cases htable : state.dag.lookup r with
  | none =>
    rw [htable] at hok
    cases hok
  | some table =>
    rw [htable] at hok
    cases hok
    have hcell : ∀ k, state.dag.cell r k = table.lookup k := by
      intro k
      rw [Dag.cell, htable, Option.bind_some]
    simp only [List.mem_map, List.mem_filter, Assoc.mem_values_iff, List.any_eq_true,
      List.contains_iff_mem, Prod.exists]
    constructor
    · rintro ⟨d, c, ⟨⟨k, hk⟩, x, hx, hd⟩, rfl⟩
      obtain ⟨hdel, hround, -, rfl⟩ := h.cells r k d c ((hcell k).trans hk)
      exact ⟨hdel, x, hx, by rw [hxs x hx, hround], hd⟩
    · rintro ⟨hy, x, hx, hparent⟩
      have hyround : y.round = r := by
        have hround := hparent.1
        have hx' := hxs x hx
        omega
      have hycell := h.complete y hy (by omega)
      rw [hyround, hcell] at hycell
      exact ⟨y.digest, y, ⟨⟨y.origin, hycell⟩, x, hx, hparent.2⟩, rfl⟩

theorem mem_foldlM_linkedParents (h : CompleteAbove delivered state)
    (habove : state.lastCommittedRound < r) (n : ℕ) (hxs : ∀ x ∈ xs, x.round = r + n)
    (hok : (List.range' r n).reverse.foldlM (linkedParents state.dag) xs = .ok ys)
    (y : Certificate K D) : y ∈ ys ↔ ∃ x ∈ xs, ReachesIn delivered x y ∧ y.round = r := by
  induction n generalizing xs with
  | zero =>
    cases hok
    constructor
    · exact fun hy => ⟨y, hy, .refl, hxs y hy⟩
    · rintro ⟨x, hx, hreach, hround⟩
      rcases hreach.eq_or_parent with rfl | ⟨q, -, hparent, hrest⟩
      · exact hx
      · have hle := hrest.round_le
        have h₁ := hparent.1
        have h₂ := hxs x hx
        omega
  | succ n ih =>
    rw [List.range'_1_concat, List.reverse_append] at hok
    simp only [List.reverse_cons, List.reverse_nil, List.nil_append, List.cons_append,
      List.foldlM_cons] at hok
    obtain ⟨mid, hstep, hrest⟩ := Except.eq_ok_of_bind hok
    have hmid := h.mem_linkedParents (r := r + n) hxs (by omega) hstep
    have hmid' : ∀ q ∈ mid, q.round = r + n := by
      intro q hq
      obtain ⟨-, x, hx, hparent⟩ := (hmid q).mp hq
      have h₁ := hparent.1
      have h₂ := hxs x hx
      omega
    rw [ih hmid' hrest]
    constructor
    · rintro ⟨q, hq, hreach, hround⟩
      obtain ⟨hdel, x, hx, hparent⟩ := (hmid q).mp hq
      exact ⟨x, hx, .of_parent hdel hparent hreach, hround⟩
    · rintro ⟨x, hx, hreach, hround⟩
      rcases hreach.eq_or_parent with rfl | ⟨q, hdel, hparent, hreach'⟩
      · have h₂ := hxs x hx
        omega
      · exact ⟨q, (hmid q).mpr ⟨hdel, x, hx, hparent⟩, hreach', hround⟩

/-- `linked` decides whether there is a path along delivered certificates. -/
theorem linked_iff (h : CompleteAbove delivered state) (hx : x ∈ delivered) (hp : p ∈ delivered)
    (habove : state.lastCommittedRound < p.round) (hle : p.round ≤ x.round) {result : Bool}
    (hok : linked x p state.dag = .ok result) :
    result = true ↔ ReachesIn delivered x p := by
  obtain ⟨ys, hfold, hresult⟩ := Except.eq_ok_of_bind hok
  have hmem := h.mem_foldlM_linkedParents habove (x.round - p.round)
    (by intro z hz; rw [List.mem_singleton.mp hz]; omega) hfold
  cases hresult
  rw [List.any_eq_true]
  constructor
  · rintro ⟨y, hy, heq⟩
    obtain ⟨z, hz, hreach, hround⟩ := (hmem y).mp hy
    rw [List.mem_singleton] at hz
    subst hz
    -- Equal certificates have the same cell, and the DAG holds both.
    simp only [Certificate.eq, decide_eq_true_eq] at heq
    have hycell := h.complete y (hreach.mem hx) (by omega)
    rw [hround, heq.2.2.2, h.complete p hp habove, Option.some.injEq, Prod.mk.injEq] at hycell
    rwa [hycell.2]
  · intro hreach
    exact ⟨p, (hmem p).mpr ⟨x, List.mem_singleton.mpr rfl, hreach, rfl⟩, p.eq_self⟩

end CompleteAbove

/-! ## Runs -/

/-- Each certificate above round one is delivered after a quorum of its parents. -/
def QuorumFirst (committee : Committee K) (certificates : List (Certificate K D)) : Prop :=
  ∀ earlier c later, certificates = earlier ++ c :: later → 1 < c.round →
    ∃ parents : List (Certificate K D), (∀ p ∈ parents, p ∈ earlier ∧ p.IsParent c) ∧
      (parents.map Certificate.origin).Nodup ∧
      committee.quorumThreshold ≤ ((parents.map Certificate.origin).map committee.stake).sum

namespace QuorumFirst

variable {committee : Committee K} {certificates : List (Certificate K D)}

theorem of_append {later : List (Certificate K D)}
    (h : QuorumFirst committee (certificates ++ later)) : QuorumFirst committee certificates :=
  fun earlier x rest heq => h earlier x (rest ++ later) (by simp [heq])

theorem rooted (h : QuorumFirst committee certificates) (last : ℕ) :
    Rooted {c | c ∈ certificates} last := by
  intro c hc hround
  obtain ⟨earlier, later, rfl⟩ := List.append_of_mem hc
  obtain ⟨parents, hparents, -, hstake⟩ := h earlier c later rfl (by omega)
  cases parents with
  | nil => simp [Committee.quorumThreshold] at hstake
  | cons p parents =>
    obtain ⟨hp, hparent⟩ := hparents p List.mem_cons_self
    exact ⟨p, List.mem_append_left _ hp, hparent⟩

theorem of_forall_fin [DecidableEq D]
    (h : ∀ i : Fin certificates.length, 1 < (certificates.get i).round →
      (((certificates.take i).filter (·.IsParent (certificates.get i))).map
        Certificate.origin).Nodup ∧
      committee.quorumThreshold ≤ ((((certificates.take i).filter
        (·.IsParent (certificates.get i))).map Certificate.origin).map committee.stake).sum) :
    QuorumFirst committee certificates := by
  rintro earlier c later rfl hround
  have hi := h ⟨earlier.length, by simp⟩
  simp only [List.get_eq_getElem, List.take_left',
    List.getElem_append_right le_rfl, Nat.sub_self, List.getElem_cons_zero] at hi
  refine ⟨earlier.filter (·.IsParent c), fun p hp => ?_, hi hround⟩
  obtain ⟨hmem, hparent⟩ := List.mem_filter.mp hp
  exact ⟨hmem, by simpa using hparent⟩

end QuorumFirst

variable [DecidableEq D]

theorem CompleteAbove.next {earlier : List (Certificate K D)}
    (h : CompleteAbove {x | x ∈ earlier} core.state)
    (hdigest : ∀ x ∈ earlier ++ [c], ∀ y ∈ earlier ++ [c], x.digest = y.digest → x = y)
    (hfits : ∀ x ∈ earlier ++ [c], x.round + b.gcDepth < 2 ^ 64)
    (hfirst : QuorumFirst b.committee (earlier ++ [c])) :
    (∃ existing, b.processCertificate core c = .error (.certificateEquivocation c existing)) ∨
    ∃ outcome subDags core', b.processCertificate core c = .ok (outcome, subDags, core') ∧
      CompleteAbove {x | x ∈ earlier ++ [c]} core'.state := by
  have hset : insert c {x | x ∈ earlier} = {x | x ∈ earlier ++ [c]} := by
    ext x
    simp [or_comm]
  rw [← hset]
  exact h.processCertificate_cases
    (fun x hx => hdigest x (List.mem_append_left _ hx) c (by simp))
    (fun x hx => hfits x (by rwa [hset] at hx)) (hset ▸ hfirst.rooted _)

/-- As long as no equivocation is reported, the DAG is complete above the last committed round. -/
theorem Bullshark.run_completeAbove {certificates : List (Certificate K D)}
    (hdigest : ∀ c ∈ certificates, ∀ c' ∈ certificates, c.digest = c'.digest → c = c')
    (hfits : ∀ c ∈ certificates, c.round + b.gcDepth < 2 ^ 64)
    (hfirst : QuorumFirst b.committee certificates)
    (hrunning : (b.run certificates).halted = false) :
    CompleteAbove {c | c ∈ certificates} (b.run certificates).core.state := by
  induction certificates using List.reverseRecOn with
  | nil =>
    have hnil : {c : Certificate K D | c ∈ []} = ∅ := by simp
    rw [hnil]
    exact .new
  | append_singleton certificates c ih =>
    rw [run_append_singleton] at hrunning ⊢
    rcases b.deliver_cases (b.run certificates) c with
      ⟨hhalted, heq⟩ | ⟨-, fault, -, heq⟩ | ⟨hbefore, outcome, subDags, core, hok, heq⟩
    · rw [heq, hhalted] at hrunning
      cases hrunning
    · rw [heq] at hrunning
      cases hrunning
    · have h := ih (fun x hx y hy => hdigest x (List.mem_append_left _ hx) y
        (List.mem_append_left _ hy)) (fun x hx => hfits x (List.mem_append_left _ hx))
        hfirst.of_append hbefore
      rw [heq]
      rcases h.next hdigest hfits hfirst with ⟨existing, herror⟩ | ⟨_, _, core', hok', hcomplete⟩
      · rw [hok] at herror
        cases herror
      · rw [hok] at hok'
        cases hok'
        exact hcomplete

/-- Of certificates with different digests and small rounds, each delivered after a quorum of its
parents, no call panics, and above the last committed round `linked` returns whether there is a path
of parents along the delivered certificates. -/
theorem Bullshark.linked_iff_path (b : Bullshark K) (certificates : List (Certificate K D))
    (hdigest : ∀ c ∈ certificates, ∀ c' ∈ certificates, c.digest = c'.digest → c = c')
    (hfits : ∀ c ∈ certificates, c.round + b.gcDepth < 2 ^ 64)
    (hfirst : QuorumFirst b.committee certificates) :
    (∀ earlier c later, certificates = earlier ++ c :: later → (b.run earlier).halted = false →
      ∀ message, b.processCertificate (b.run earlier).core c ≠ .error (.panic message)) ∧
    ((b.run certificates).halted = false →
      let state := (b.run certificates).core.state
      ∀ x p : Certificate K D, state.dag.cell x.round x.origin = some (x.digest, x) →
        state.dag.cell p.round p.origin = some (p.digest, p) →
        state.lastCommittedRound < p.round → p.round < x.round →
        ∃ result, linked x p state.dag = .ok result ∧
          (result = true ↔ ReachesIn {c | c ∈ certificates} x p)) := by
  constructor
  · rintro earlier c later rfl hrunning message herror
    rw [List.append_cons] at hdigest hfits hfirst
    have hfits' : ∀ x ∈ earlier ++ [c], x.round + b.gcDepth < 2 ^ 64 :=
      fun x hx => hfits x (List.mem_append_left _ hx)
    have hdigest' : ∀ x ∈ earlier ++ [c], ∀ y ∈ earlier ++ [c], x.digest = y.digest → x = y :=
      fun x hx y hy => hdigest x (List.mem_append_left _ hx) y (List.mem_append_left _ hy)
    have h := Bullshark.run_completeAbove (fun x hx y hy => hdigest' x (List.mem_append_left _ hx) y
      (List.mem_append_left _ hy)) (fun x hx => hfits' x (List.mem_append_left _ hx))
      hfirst.of_append.of_append hrunning
    rcases h.next hdigest' hfits' hfirst.of_append with ⟨existing, herror'⟩ | ⟨_, _, core, hok, -⟩
    · rw [herror'] at herror
      cases herror
    · rw [hok] at herror
      cases herror
  · intro hrunning state x p hx hp habove hlt
    have h := Bullshark.run_completeAbove hdigest hfits hfirst hrunning
    have hx := (h.cells _ _ _ _ hx).1
    have hp := (h.cells _ _ _ _ hp).1
    obtain ⟨result, hresult⟩ := h.linked_ok (hfirst.rooted _) hx habove
    exact ⟨result, hresult, h.linked_iff hx hp habove (Nat.le_of_lt hlt) hresult⟩

/-! ## A DAG of four authorities

The fourth authority is slow: its certificate of round one is referenced only by the certificate of
the second authority at round two, which the first leader does not reach. -/

namespace Sample

def bullshark (gcDepth : ℕ) : Bullshark (Fin 4) := ⟨committee, gcDepth, fun _ => 0⟩

/-- The certificate of an authority at a round, with the authorities of its parents. -/
def certificate (author : Fin 4) (round : ℕ) (parents : List ℕ) : Certificate (Fin 4) ℕ where
  header :=
    { author, round, epoch := 0, createdAt := 0, payload := [],
      parents := parents.map (10 * (round - 1) + ·), digest := 10 * round + author,
      signature := [] }

def roundOne : List (Certificate (Fin 4) ℕ) :=
  [certificate 0 1 [], certificate 1 1 [], certificate 2 1 [], certificate 3 1 []]

def roundTwo : List (Certificate (Fin 4) ℕ) :=
  [certificate 0 2 [0, 1, 2], certificate 1 2 [0, 1, 3], certificate 2 2 [0, 1, 2],
    certificate 3 2 [0, 1, 2]]

def roundThree : List (Certificate (Fin 4) ℕ) :=
  [certificate 0 3 [0, 2, 3], certificate 1 3 [0, 1, 2], certificate 2 3 [0, 2, 3]]

def roundFour : List (Certificate (Fin 4) ℕ) :=
  [certificate 0 4 [0, 1, 2], certificate 1 4 [0, 1, 2], certificate 2 4 [0, 1, 2]]

def roundFive : List (Certificate (Fin 4) ℕ) :=
  [certificate 0 5 [0, 1, 2], certificate 1 5 [0, 1, 2]]

def certificates : List (Certificate (Fin 4) ℕ) :=
  roundOne ++ roundTwo ++ roundThree ++ roundFour ++ roundFive

end Sample

/-- The second authority leads every round. The leader of round two finds no support, and that of
round four is linked to it. -/
theorem Bullshark.linked_iff_path_sample :
    let b : Bullshark (Fin 4) := ⟨Sample.committee, 50, fun _ => 1⟩
    let delivered := Sample.roundOne ++ Sample.roundTwo ++ Sample.roundThree ++ Sample.roundFour
    let state := (b.run delivered).core.state
    linked (Sample.certificate 1 4 [0, 1, 2]) (Sample.certificate 1 2 [0, 1, 3]) state.dag =
        .ok true ∧
      ReachesIn {c | c ∈ delivered} (Sample.certificate 1 4 [0, 1, 2])
        (Sample.certificate 1 2 [0, 1, 3]) := by
  intro b delivered state
  have hlinked : linked (Sample.certificate 1 4 [0, 1, 2]) (Sample.certificate 1 2 [0, 1, 3])
      state.dag = .ok true := by
    decide +kernel
  obtain ⟨result, hresult, hiff⟩ := (Bullshark.linked_iff_path b delivered (by decide +kernel)
    (by decide +kernel) (.of_forall_fin (by decide +kernel))).2 (by decide +kernel)
    (Sample.certificate 1 4 [0, 1, 2]) (Sample.certificate 1 2 [0, 1, 3]) (by decide +kernel)
    (by decide +kernel) (by decide +kernel)
    (by decide +kernel)
  rw [hlinked] at hresult
  cases hresult
  exact ⟨hlinked, hiff.mp rfl⟩

namespace Sample

/-- Stakes 1, 2 and 4: the third authority is a quorum with either of the others. -/
def heavy : Committee (Fin 4) where
  authorities := [⟨0, ⟨1, [0]⟩⟩, ⟨1, ⟨2, [1]⟩⟩, ⟨2, ⟨4, [2]⟩⟩].toAList
  epoch := 0

/-- The child with which the leader of round two has the support of a validity quorum. -/
def supporter : Certificate (Fin 4) ℕ := certificate 1 3 [0, 2]

/-- Seven rounds, with further certificates at round three and at round six. -/
def lagging (third sixth : List (Certificate (Fin 4) ℕ)) : List (Certificate (Fin 4) ℕ) :=
  [certificate 0 1 [], certificate 1 1 [], certificate 2 1 [], certificate 0 2 [0, 2],
    certificate 1 2 [0, 2], certificate 2 2 [0, 2], certificate 0 3 [0, 2]] ++ third ++
  [certificate 2 3 [1, 2], certificate 1 4 [0, 2], certificate 2 4 [0, 2], certificate 1 5 [1, 2],
    certificate 2 5 [1, 2], certificate 0 6 [1, 2]] ++ sixth ++
  [certificate 2 6 [1, 2], certificate 2 7 [0, 2]]

end Sample

/-- With a depth of `2 ^ 64 - 4` the sum with round four or five wraps around, and the late commit
of the leader of round two purges these rounds. Then the leader of round four arrives, and the next
commit looks for a path to it. -/
theorem Bullshark.overflow_panics :
    let b : Bullshark (Fin 4) := ⟨Sample.heavy, 2 ^ 64 - 4, fun _ => 0⟩
    let leaderFour := Sample.certificate 0 4 [0, 2]
    let leaderSix := Sample.certificate 0 6 [1, 2]
    let certificates := Sample.lagging [] [Sample.supporter, leaderFour]
    let state := (b.run certificates.dropLast).core.state
    (∀ c ∈ certificates, ∀ c' ∈ certificates, c.digest = c'.digest → c = c') ∧
      QuorumFirst b.committee certificates ∧
      (b.run certificates.dropLast).halted = false ∧ (b.run certificates).halted = true ∧
      state.dag.cell 6 0 = some (leaderSix.digest, leaderSix) ∧
      state.dag.cell 4 0 = some (leaderFour.digest, leaderFour) ∧ state.lastCommittedRound = 2 ∧
      linked leaderSix leaderFour state.dag =
        .error (.panic "We should have the whole history by now") := by
  intro b leaderFour leaderSix certificates state
  exact ⟨by decide +kernel, .of_forall_fin (by decide +kernel), by decide +kernel,
    by decide +kernel, by decide +kernel, by decide +kernel, by decide +kernel, by decide +kernel⟩

end Narwhal

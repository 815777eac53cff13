import NarwhalGeth.Narwhal.Agreement

/-!
# Integrity of the committed sequence

What every ledger guarantees about the sequence it commits, whatever the leaders: certificates are
committed once, in the order of their rounds, and causally. A run of consensus emits a ledger, so
its output has these properties without any assumption on quorums.
-/

namespace Narwhal

variable {K D : Type} {before after : List (CommittedSubDag K D)} {s : CommittedSubDag K D}

/-- The last committed round after a sequence of sub-dags. -/
def lastCommittedRound (subDags : List (CommittedSubDag K D)) : ℕ :=
  ((committedSequence subDags).map Certificate.round).foldl max 0

/-- The guarantees of consensus about its output, given the certificates delivered to it. -/
structure Integrity (gcDepth : ℕ) (delivered : List (Certificate K D))
    (emitted : List (CommittedSubDag K D)) : Prop where
  /-- No certificate is committed twice. -/
  nodup : (committedSequence emitted).Nodup
  /-- The certificates of one authority are committed in the order of their rounds. -/
  authority_increasing : (committedSequence emitted).Pairwise
    fun c c' => c.origin = c'.origin → c.round < c'.round
  /-- Sub-dags are numbered without gaps. -/
  index : emitted.map CommittedSubDag.subDagIndex = List.range' 1 emitted.length
  sorted : ∀ s ∈ emitted, s.certificates.Pairwise fun c c' => c.round ≤ c'.round
  ends_with_leader : ∀ s ∈ emitted, s.certificates.getLast? = some s.leader
  leader_even : ∀ s ∈ emitted, s.leader.round % 2 = 0
  leader_increasing : emitted.Pairwise fun s s' => s.leader.round < s'.leader.round
  /-- A delivered parent of a committed certificate is committed before it, unless its authority had
  moved on or it was garbage collected before the sub-dag. -/
  causal : ∀ before s after, emitted = before ++ s :: after →
    ∀ init c rest, s.certificates = init ++ c :: rest → ∀ p ∈ delivered, p.IsParent c →
      p ∈ committedSequence before ++ init ∨
      (∃ q ∈ committedSequence before, q.origin = p.origin ∧ p.round ≤ q.round) ∨
      p.round + gcDepth < lastCommittedRound before

variable [DecidableEq K]

namespace Frontier

theorem commitAll_append (A : Frontier K) (cs cs' : List (Certificate K D)) :
    A.commitAll (cs ++ cs') = (A.commitAll cs).commitAll cs' :=
  List.foldl_append

theorem lastCommittedRound_commitAll_eq (A : Frontier K) (cs : List (Certificate K D)) :
    (A.commitAll cs).lastCommittedRound =
      (cs.map Certificate.round).foldl max A.lastCommittedRound := by
  induction cs generalizing A with
  | nil => rfl
  | cons c cs ih => exact ih (A.commit c)

end Frontier

variable [DecidableEq D]

namespace Ledger

variable {P : Pool K D} {gcDepth : ℕ} {A A' : Frontier K} {n : ℕ}
  {leaders : List (Certificate K D)} {subDags : List (CommittedSubDag K D)}

section

variable (h : Ledger P gcDepth A n leaders subDags A')

include h

theorem leaders_eq : leaders = subDags.map CommittedSubDag.leader := by
  induction h with
  | nil => rfl
  | cons _ _ _ _ _ ih => rw [List.map_cons, ← ih]

theorem index_eq :
    subDags.map CommittedSubDag.subDagIndex = List.range' (n + 1) subDags.length := by
  induction h with
  | nil => rfl
  | cons _ _ _ _ _ ih => rw [List.map_cons, ih, List.length_cons, List.range'_succ]

/-- The sub-dag at any position is that of its leader on top of what was committed before. -/
theorem subDagOf_of_append (heq : subDags = before ++ s :: after) :
    SubDagOf P gcDepth (A.commitAll (committedSequence before)) s.leader s.certificates ∧
      s.leader ∈ P ∧
      (A.commitAll (committedSequence before)).lastCommittedRound < s.leader.round := by
  induction h generalizing before with
  | nil => simp at heq
  | cons mem above _ subDag _ ih =>
    cases before with
    | nil =>
      obtain ⟨rfl, -⟩ := List.cons.inj heq
      exact ⟨subDag, mem, above⟩
    | cons s' before =>
      obtain ⟨rfl, heq'⟩ := List.cons.inj heq
      have hrest := ih heq'
      rwa [← Frontier.commitAll_append] at hrest

theorem committedRound_lt (hbound : ∀ k, A.committedRound k ≤ A.lastCommittedRound) :
    ∀ c ∈ committedSequence subDags, A.committedRound c.origin < c.round := by
  induction h with
  | nil => simp
  | @cons A A' n leader certificates leaders subDags mem above even subDag rest ih =>
    intro c hc
    rcases List.mem_append.mp hc with hc | hc
    · rcases subDag.mem_cases hc with rfl | ⟨-, -, hpending⟩
      · exact lt_of_le_of_lt (hbound c.origin) above
      · exact hpending.1
    · exact lt_of_le_of_lt (A.committedRound_commitAll_le certificates c.origin)
        (ih (A.committedRound_commitAll_le_last certificates hbound) c hc)

theorem authority_increasing (hbound : ∀ k, A.committedRound k ≤ A.lastCommittedRound) :
    (committedSequence subDags).Pairwise fun c c' => c.origin = c'.origin → c.round < c'.round := by
  induction h with
  | nil => exact .nil
  | @cons A A' n leader certificates leaders subDags mem above even subDag rest ih =>
    have hbound' := A.committedRound_commitAll_le_last certificates hbound
    change (certificates ++ committedSequence subDags).Pairwise _
    refine List.pairwise_append.mpr ⟨subDag.pairwise_round_lt mem, ih hbound', ?_⟩
    intro c hc c' hc' horigin
    have hle := A.round_le_committedRound_commitAll hc
    have hlt := rest.committedRound_lt hbound' c' hc'
    rw [← horigin] at hlt
    omega

end

theorem causal (h : Ledger P gcDepth .start 0 leaders subDags A')
    (heq : subDags = before ++ s :: after) {init rest : List (Certificate K D)}
    {c p : Certificate K D} (hs : s.certificates = init ++ c :: rest) (hp : p ∈ P)
    (hparent : p.IsParent c) :
    p ∈ committedSequence before ++ init ∨
      (∃ q ∈ committedSequence before, q.origin = p.origin ∧ p.round ≤ q.round) ∨
      p.round + gcDepth < lastCommittedRound before := by
  obtain ⟨hsub, hmem, -⟩ := h.subDagOf_of_append heq
  set B := (Frontier.start : Frontier K).commitAll (committedSequence before) with hB
  by_cases hpending : B.Pending gcDepth p
  · left
    have hpmem := hsub.parent_mem hmem (by rw [hs]; simp : c ∈ s.certificates) hp hparent hpending
    have hsorted := hsub.sorted
    rw [hs, List.pairwise_append, List.pairwise_cons] at hsorted
    rw [hs, List.mem_append, List.mem_cons] at hpmem
    have hround := hparent.1
    rcases hpmem with hinit | rfl | hrest
    · exact List.mem_append_right _ hinit
    · omega
    · have hle := hsorted.2.1.1 p hrest
      omega
  · right
    rcases not_and_or.mp hpending with hcommitted | hgc
    · left
      have hpos := P.round_pos p hp
      rcases Frontier.start.committedRound_commitAll_eq (committedSequence before) p.origin with
        hzero | ⟨q, hq, horigin, hround⟩
      · have hstart : (Frontier.start : Frontier K).committedRound p.origin = 0 := rfl
        rw [← hB] at hzero
        omega
      · rw [← hB] at hround
        exact ⟨q, hq, horigin, by omega⟩
    · right
      rw [hB, Frontier.lastCommittedRound_commitAll_eq] at hgc
      exact Nat.lt_of_not_le hgc

theorem integrity (h : Ledger P gcDepth .start 0 leaders subDags A')
    {delivered : List (Certificate K D)} (hdelivered : ∀ c ∈ delivered, c ∈ P) :
    Integrity gcDepth delivered subDags := by
  have hincreasing := h.authority_increasing fun _ => le_rfl
  have hsub : ∀ s ∈ subDags, ∃ B : Frontier K, SubDagOf P gcDepth B s.leader s.certificates ∧
      s.leader ∈ P := by
    intro s hs
    obtain ⟨before, after, heq⟩ := List.append_of_mem hs
    obtain ⟨hs', hmem, -⟩ := h.subDagOf_of_append heq
    exact ⟨_, hs', hmem⟩
  refine ⟨?_, hincreasing, h.index_eq, ?_, ?_, ?_, ?_, ?_⟩
  · refine hincreasing.imp ?_
    rintro c c' hlt rfl
    exact absurd (hlt rfl) (lt_irrefl _)
  · intro s hs
    obtain ⟨B, hB, -⟩ := hsub s hs
    exact hB.sorted
  · intro s hs
    obtain ⟨B, hB, hmem⟩ := hsub s hs
    obtain ⟨init, hinit⟩ := hB.exists_eq_append hmem
    rw [hinit, List.getLast?_concat]
  · intro s hs
    refine h.leader_even s.leader ?_
    rw [h.leaders_eq]
    exact List.mem_map_of_mem hs
  · have hleaders := h.leaders_increasing
    rwa [h.leaders_eq, List.pairwise_map] at hleaders
  · intro before s after heq init c rest hs p hp hparent
    exact h.causal heq hs (hdelivered p hp) hparent

end Ledger

/-- A run on certificates of positive rounds that do not overflow with the depth, one for each
origin and round, parents first and possibly repeatedly, emits a sequence with integrity. -/
theorem Bullshark.run_integrity (b : Bullshark K) (certificates : List (Certificate K D))
    (hround : ∀ c ∈ certificates, 1 ≤ c.round)
    (horigin : ∀ c ∈ certificates, ∀ c' ∈ certificates,
      c.origin = c'.origin → c.round = c'.round → c = c')
    (hdigest : ∀ c ∈ certificates, ∀ c' ∈ certificates, c.digest = c'.digest → c = c')
    (hfits : ∀ c ∈ certificates, c.round + b.gcDepth < 2 ^ 64)
    (hfirst : ParentsFirst (.ofList certificates hround horigin hdigest) certificates) :
    Integrity b.gcDepth certificates (b.run certificates).emitted := by
  obtain ⟨delivered, leaders, A, h, -⟩ := Bullshark.run_ledgered (b := b) (fun _ => True) trivial
    (fun _ _ _ => trivial) hfits (fun c hc => hc) hfirst
  exact h.ledger.integrity fun c hc => hc

/-- The sample DAG, with its first certificates delivered twice. -/
theorem Bullshark.run_integrity_sample :
    let delivered := Sample.roundOne ++ Sample.certificates
    (committedSequence ((Sample.bullshark 50).run delivered).emitted).length = 12 ∧
      Integrity 50 delivered ((Sample.bullshark 50).run delivered).emitted := by
  intro delivered
  refine ⟨by decide +kernel, Bullshark.run_integrity (Sample.bullshark 50) delivered
    (by decide +kernel) (by decide +kernel) (by decide +kernel) (by decide +kernel)
    (.of_forall_fin ?_)⟩
  have hfin : ∀ i : Fin delivered.length, ∀ p ∈ delivered, p.IsParent (delivered.get i) →
      p ∈ delivered.take i := by decide +kernel
  exact hfin

/-- With a depth of `2 ^ 64 - 5`, the sum with round six wraps around to less than the commit round
two, and the sub-dag of the leader of round six lacks the leader. -/
theorem Bullshark.overflow_drops_leader :
    let b : Bullshark (Fin 4) := ⟨Sample.heavy, 2 ^ 64 - 5, fun _ => 0⟩
    let delivered := Sample.lagging [Sample.supporter] []
    ParentsFirst Sample.laggingPool delivered ∧
      ¬Integrity b.gcDepth delivered (b.run delivered).emitted := by
  intro b delivered
  have hfin : ∀ i : Fin delivered.length, ∀ p ∈ delivered, p.IsParent (delivered.get i) →
      p ∈ delivered.take i := by decide +kernel
  refine ⟨.of_forall_fin hfin, fun h => ?_⟩
  have hlast : ¬∀ s ∈ (b.run delivered).emitted, s.certificates.getLast? = some s.leader := by
    decide +kernel
  exact hlast h.ends_with_leader

end Narwhal

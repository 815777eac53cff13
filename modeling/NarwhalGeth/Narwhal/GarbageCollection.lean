import NarwhalGeth.Lib.Machine
import NarwhalGeth.Narwhal.Acceptance
import NarwhalGeth.Narwhal.Integrity

/-!
# Garbage collection across the synchronizer and consensus

The synchronizer turns away certificates at or below its garbage collection round. Consensus gives
up a certificate only once its round plus the depth is *below* the last committed round. A
certificate of exactly the round `lastCommittedRound - gcDepth` is turned away by the one and still
committed by the other. In runs where no such certificate is dropped, any two validators agree.
-/

namespace Narwhal

open Synchronizer

variable {K D : Type} [DecidableEq K] [DecidableEq D]

/-! ## What later sub-dags contain -/

section Ledger

variable {P : Pool K D} {A A' : Frontier K} {n gcDepth : ℕ} {leaders : List (Certificate K D)}
  {subDags subDags' : List (CommittedSubDag K D)}

omit [DecidableEq D] in
theorem commitAll_lastCommittedRound (subDags : List (CommittedSubDag K D)) :
    (Frontier.start.commitAll (committedSequence subDags)).lastCommittedRound =
      lastCommittedRound subDags :=
  Frontier.lastCommittedRound_commitAll_eq _ _

omit [DecidableEq D] in
theorem lastCommittedRound_le_append :
    lastCommittedRound subDags ≤ lastCommittedRound (subDags ++ subDags') := by
  rw [← commitAll_lastCommittedRound, ← commitAll_lastCommittedRound, committedSequence_append,
    Frontier.commitAll_append]
  exact Frontier.lastCommittedRound_commitAll_le _ _

theorem Ledger.frontier_eq (h : Ledger P gcDepth A n leaders subDags A') :
    A' = A.commitAll (committedSequence subDags) := by
  induction h with
  | nil => rfl
  | @cons A A' n leader certificates leaders subDags _ _ _ _ _ ih =>
    rw [ih]
    exact (Frontier.commitAll_append A certificates (committedSequence subDags)).symm

section

variable (h : Ledger P gcDepth .start 0 leaders subDags A)

include h

theorem Ledger.lastCommittedRound_emitted : A.lastCommittedRound = lastCommittedRound subDags := by
  rw [h.frontier_eq, commitAll_lastCommittedRound]

theorem Ledger.round_le {c : Certificate K D} (hc : c ∈ committedSequence subDags) :
    c.round ≤ A.lastCommittedRound := by
  have hround := (Frontier.start : Frontier K).round_le_committedRound_commitAll hc
  have hbound := (Frontier.start : Frontier K).committedRound_commitAll_le_last
    (committedSequence subDags) (fun _ => le_rfl) c.origin
  rw [h.lastCommittedRound_emitted, ← commitAll_lastCommittedRound]
  exact hround.trans hbound

/-- What is garbage collected for consensus after some sub-dags is below the later ones. -/
theorem Ledger.lt_round_of_collected {r : ℕ}
    (hr : r + gcDepth < lastCommittedRound (subDags.take n)) :
    ∀ s ∈ subDags.drop n, ∀ c ∈ s.certificates, r < c.round := by
  intro s hs c hc
  obtain ⟨before, after, hsplit⟩ := List.append_of_mem hs
  have heq : subDags = (subDags.take n ++ before) ++ s :: after := by
    rw [List.append_assoc, ← hsplit, List.take_append_drop]
  obtain ⟨hsub, -, habove⟩ := h.subDagOf_of_append heq
  have hle : lastCommittedRound (subDags.take n) ≤ lastCommittedRound (subDags.take n ++ before) :=
    lastCommittedRound_le_append
  rw [← commitAll_lastCommittedRound (subDags.take n ++ before)] at hle
  rcases hsub.mem_cases hc with rfl | ⟨-, -, -, hpending⟩
  · omega
  · omega

end

end Ledger

/-! ## The synchronizer and consensus together -/

/-- A certificate or missing parent that was given up, and how many sub-dags had been emitted. -/
structure Dropped (D : Type) where
  emitted : ℕ
  round : ℕ
  digest : D

/-- A primary with its consensus. `calls` are the calls of `processCertificateInternal` that wait
for the state lock, with their `earlySuspend`, and `collecting` is the round of a garbage collection
that waits for it. Consensus is about to publish the commit round `committing`, and last published
`consensusRound`. -/
structure Primary (K D : Type) where
  inner : Synchronizer.Inner K D
  calls : List (Certificate K D × Bool)
  collecting : Option ℕ
  consensus : Node K D
  committing : Option ℕ
  consensusRound : ℕ
  dropped : List (Dropped D)

inductive PrimaryEvent (K D : Type) where
  | receive (certificate : Certificate K D) (sanitize earlySuspend : Bool)
  | lock (certificate : Certificate K D) (earlySuspend : Bool)
  | storeGcRound
  | collectGarbage
  | consume
  | publish

namespace Primary

variable [SetOrder D]

def new : Primary K D := ⟨.new, [], none, .new, none, 0, []⟩

/-- What an event gives up: a certificate that is too old, or the missing parents of one that is
accepted. -/
def drops (config : Config K D) (p : Primary K D) : PrimaryEvent K D → List (ℕ × D)
  | .receive certificate sanitize earlySuspend =>
    match p.inner.beforeLock config certificate sanitize earlySuspend with
    | some (.error (.tooOld _ _ _)) =>
      if certificate.round ≤ p.inner.gcRound then [(certificate.round, certificate.digest)] else []
    | _ => []
  | .lock certificate earlySuspend =>
    if (earlySuspend ∧ p.inner.state.checkSuspended certificate.digest) ∨
        p.inner.gcRound + 1 < certificate.round then []
    else p.inner.missing config certificate
  | .collectGarbage =>
    match p.collecting with
    | some gcRound => p.inner.state.waivedByGc gcRound
    | none => []
  | .storeGcRound | .consume | .publish => []

/-- The highest round of the certificates that consensus has just committed. -/
def commitRound (before after : Node K D) : Option ℕ :=
  ((committedSequence (after.emitted.drop before.emitted.length)).map Certificate.round).max?

/-- The effect of an event on the tasks of the primary. -/
def advance (config : Config K D) (b : Bullshark K) (p : Primary K D) :
    PrimaryEvent K D → Option (Primary K D)
  | .receive certificate sanitize earlySuspend =>
    match p.inner.beforeLock config certificate sanitize earlySuspend with
    | none => some { p with calls := p.calls ++ [(certificate, earlySuspend)] }
    | some _ => some p
  | .lock certificate earlySuspend =>
    if (certificate, earlySuspend) ∈ p.calls then
      match p.inner.underLock config certificate earlySuspend with
      | .ok (_, inner) =>
        some { p with inner, calls := p.calls.erase (certificate, earlySuspend) }
      | .error _ => none
    else none
  | .storeGcRound =>
    match p.collecting with
    | none =>
      let gcRound := p.consensusRound - b.gcDepth
      some { p with inner := { p.inner with gcRound }, collecting := some gcRound }
    | some _ => none
  | .collectGarbage =>
    match p.collecting with
    | none => none
    | some gcRound =>
      match p.inner.collectGarbage gcRound with
      | .ok inner => some { p with inner, collecting := none }
      | .error _ => none
  | .consume =>
    match p.committing, p.inner.newCertificates with
    | none, certificate :: newCertificates =>
      let consensus := b.deliver p.consensus certificate
      some
        { p with
          inner := { p.inner with newCertificates }
          consensus
          committing := commitRound p.consensus consensus }
    | _, _ => none
  | .publish =>
    match p.committing with
    | some consensusRound => some { p with committing := none, consensusRound }
    | none => none

/-- A step of the primary, with what it gives up. -/
def step (config : Config K D) (b : Bullshark K) (p : Primary K D) (e : PrimaryEvent K D) :
    Option (Primary K D) :=
  (p.advance config b e).map fun p' =>
    { p' with
      dropped := p.dropped ++
        (p.drops config e).map fun x => ⟨p.consensus.emitted.length, x.1, x.2⟩ }

/-- The certificates received are those of the pool. -/
def Enabled (P : Pool K D) : PrimaryEvent K D → Prop
  | .receive certificate _ _ => certificate ∈ P
  | .lock _ _ | .storeGcRound | .collectGarbage | .consume | .publish => True

/-- Nothing is dropped at the one round where consensus may still commit it. -/
def SafeDrop (config : Config K D) (gcDepth : ℕ) (p : Primary K D) (e : PrimaryEvent K D) : Prop :=
  ∀ x ∈ p.drops config e, x.1 + gcDepth ≠ p.consensus.core.state.lastCommittedRound

def machine (config : Config K D) (b : Bullshark K) : Machine (Primary K D) (PrimaryEvent K D) where
  start := .new
  next := step config b

/-- The primaries reached by enabled events that all meet a condition. -/
def Execution (P : Pool K D) (config : Config K D) (b : Bullshark K)
    (condition : Primary K D → PrimaryEvent K D → Prop) : Primary K D → Prop :=
  (machine config b).Reached fun p e => Enabled P e ∧ condition p e

end Primary

/-! ## The invariant -/

/-- The invariant of the runs that drop nothing consensus may still commit. -/
structure Collected (P : Pool K D) (b : Bullshark K) (p : Primary K D)
    (delivered : Set (Certificate K D)) (leaders : List (Certificate K D)) (A : Frontier K) :
    Prop where
  ledgered : Ledgered P b delivered p.consensus.core.state p.consensus.emitted leaders A
  anchored : P.Anchored b.committee b.leaderAuthority leaders
  running : p.consensus.halted = false
  sound : Synchronizer.Inner.Sound P
    (fun x => x ∈ delivered ∨ x.round + b.gcDepth < A.lastCommittedRound) p.inner
  calls : ∀ call ∈ p.calls, call.1 ∈ P
  gcRound : p.inner.gcRound ≤ A.lastCommittedRound - b.gcDepth
  collecting : ∀ g, p.collecting = some g → g ≤ A.lastCommittedRound - b.gcDepth
  committing : ∀ r, p.committing = some r → r ≤ A.lastCommittedRound
  published : p.consensusRound ≤ A.lastCommittedRound

namespace Collected

variable {P : Pool K D} {config : Config K D} {b : Bullshark K} {p p' : Primary K D}
  {delivered : Set (Certificate K D)} {leaders : List (Certificate K D)} {A : Frontier K}
  {e : PrimaryEvent K D}

theorem new (hfits : ∀ c ∈ P, c.round + b.gcDepth < 2 ^ 64) :
    Collected P b .new ∅ [] .start where
  ledgered := .new hfits
  anchored := .inl rfl
  running := rfl
  sound := .new
  calls := nofun
  gcRound := Nat.zero_le _
  collecting := nofun
  committing := nofun
  published := le_rfl

variable [SetOrder D]

theorem drops_le (h : Collected P b p delivered leaders A) (henabled : Primary.Enabled P e)
    (hstep : (p.advance config b e).isSome) {x : ℕ × D} (hx : x ∈ p.drops config e) :
    1 ≤ x.1 ∧ x.1 + b.gcDepth ≤ A.lastCommittedRound := by
  have hgc := h.gcRound
  cases e with
  | receive c sanitize earlySuspend =>
    have hpos := P.round_pos c henabled
    unfold Primary.drops at hx
    dsimp only at hx
    split at hx
    · split_ifs at hx with hround
      · rw [List.mem_singleton.mp hx]
        exact ⟨hpos, by dsimp only; omega⟩
      · exact absurd hx List.not_mem_nil
    · exact absurd hx List.not_mem_nil
  | lock c earlySuspend =>
    unfold Primary.drops at hx
    dsimp only at hx
    split_ifs at hx with hif
    · exact absurd hx List.not_mem_nil
    · obtain ⟨hround, hone⟩ := Synchronizer.Inner.round_of_mem_missing hx
      have hc : c ∈ P := by
        unfold Primary.advance at hstep
        dsimp only at hstep
        split_ifs at hstep with hcall
        · exact h.calls _ hcall
        · cases hstep
      have hpos := P.round_pos c hc
      omega
  | collectGarbage =>
    unfold Primary.drops at hx
    dsimp only at hx
    cases hcollecting : p.collecting with
    | none =>
      rw [hcollecting] at hx
      exact absurd hx List.not_mem_nil
    | some g =>
      rw [hcollecting] at hx
      have hle := h.collecting g hcollecting
      obtain ⟨hround, hpos⟩ := State.round_of_mem_waivedByGc h.sound.covers h.sound.rounds hx
      omega
  | storeGcRound => exact absurd hx List.not_mem_nil
  | consume => exact absurd hx List.not_mem_nil
  | publish => exact absurd hx List.not_mem_nil

theorem consume (hq : P.Quorate b.committee) (h : Collected P b p delivered leaders A)
    (hadvance : p.advance config b .consume = some p') :
    ∃ delivered' leaders' A' subDags, Collected P b p' delivered' leaders' A' ∧
      p'.consensus.emitted = p.consensus.emitted ++ subDags ∧ p'.dropped = p.dropped := by
  unfold Primary.advance at hadvance
  dsimp only at hadvance
  split at hadvance
  case h_2 => cases hadvance
  rename_i c rest hcommitting hqueue
  have hc : c ∈ P := h.sound.pool c (by rw [hqueue]; exact List.mem_cons_self)
  have hparents : ∀ x ∈ P, x.IsParent c →
      x ∈ delivered ∨ x.round + b.gcDepth < A.lastCommittedRound := by
    have hcausal := h.sound.causal
    rw [hqueue] at hcausal
    exact fun x hx hparent => hcausal.1 x ⟨hx, hparent⟩
  rcases b.deliver_cases p.consensus c with
    ⟨hhalted, -⟩ | ⟨-, fault, herror, -⟩ | ⟨-, outcome, subDags, core, hok, heq⟩
  · rw [h.running] at hhalted
    cases hhalted
  · obtain ⟨result, hresult⟩ := h.ledgered.refines.processCertificate_ok hq hc hparents
    rw [hresult] at herror
    cases herror
  · rw [heq] at hadvance
    cases hadvance
    obtain ⟨leaders', A', h', hleaders⟩ := h.ledgered.processCertificate hc hparents hok
    have hle : A.lastCommittedRound ≤ A'.lastCommittedRound := by
      rw [h.ledgered.ledger.lastCommittedRound_emitted, h'.ledger.lastCommittedRound_emitted]
      exact lastCommittedRound_le_append
    have hgc := h.gcRound
    have hpublished := h.published
    refine ⟨_, leaders', A', subDags, ⟨h', ?_, rfl, ?_, h.calls, by dsimp only; omega, ?_, ?_,
      by dsimp only; omega⟩, rfl, rfl⟩
    · rcases hleaders with rfl | ⟨state, m, j, L, found, hbefore, helects, rfl⟩
      · exact h.anchored
      · exact .inr ⟨_, hbefore.refines.anchor helects,
          (hbefore.append_elected hq h.anchored helects).symm ▸ List.prefix_rfl⟩
    · refine h.sound.consume hqueue ?_
      rintro x ((hx | hx) | rfl)
      · exact .inl (Set.mem_insert_of_mem _ hx)
      · exact .inr (by omega)
      · exact .inl (Set.mem_insert _ _)
    · intro g hg
      have := h.collecting g hg
      omega
    · intro r hr
      obtain ⟨x, hx, rfl⟩ := List.mem_map.mp (List.max?_mem hr)
      rw [List.drop_left] at hx
      exact h'.ledger.round_le (by rw [committedSequence_append]; exact List.mem_append_right _ hx)

theorem advance (hq : P.Quorate b.committee) (h : Collected P b p delivered leaders A)
    (henabled : Primary.Enabled P e)
    (hsafe : ∀ x ∈ p.drops config e, x.1 + b.gcDepth < A.lastCommittedRound)
    (hadvance : p.advance config b e = some p') :
    ∃ delivered' leaders' A' subDags, Collected P b p' delivered' leaders' A' ∧
      p'.consensus.emitted = p.consensus.emitted ++ subDags ∧ p'.dropped = p.dropped := by
  cases e with
  | consume => exact h.consume hq hadvance
  | receive c sanitize earlySuspend =>
    unfold Primary.advance at hadvance
    dsimp only at hadvance
    split at hadvance <;> cases hadvance
    · refine ⟨_, leaders, A, [], ⟨h.ledgered, h.anchored, h.running, h.sound, fun call hcall => ?_,
        h.gcRound, h.collecting, h.committing, h.published⟩, (List.append_nil _).symm, rfl⟩
      rcases List.mem_append.mp hcall with hcall | hcall
      · exact h.calls call hcall
      · rw [List.mem_singleton.mp hcall]
        exact henabled
    · exact ⟨_, leaders, A, [], h, (List.append_nil _).symm, rfl⟩
  | lock c earlySuspend =>
    unfold Primary.advance at hadvance
    dsimp only at hadvance
    split_ifs at hadvance with hcall
    split at hadvance <;> cases hadvance
    rename_i answer inner hok
    obtain ⟨hsound, hround⟩ := h.sound.underLock (h.calls _ hcall) (fun hsuspended hle x hx hmem =>
      .inl (.inr (hsafe (x.round, x.digest) (by
        rw [Primary.drops, if_neg (by push Not; exact ⟨by simpa using hsuspended, hle⟩)]
        exact hmem)))) hok
    exact ⟨_, leaders, A, [], ⟨h.ledgered, h.anchored, h.running, hsound,
      fun call hcall => h.calls call (List.mem_of_mem_erase hcall), hround.le.trans h.gcRound,
      h.collecting, h.committing, h.published⟩, (List.append_nil _).symm, rfl⟩
  | storeGcRound =>
    unfold Primary.advance at hadvance
    dsimp only at hadvance
    have hpublished := h.published
    split at hadvance <;> cases hadvance
    refine ⟨_, leaders, A, [], ⟨h.ledgered, h.anchored, h.running, ⟨⟨h.sound.pool, h.sound.causal,
      h.sound.stored⟩, h.sound.covers, h.sound.rounds⟩, h.calls, by dsimp only; omega, ?_,
      h.committing, h.published⟩, (List.append_nil _).symm, rfl⟩
    intro g hg
    rw [← Option.some.inj hg]
    omega
  | collectGarbage =>
    unfold Primary.advance at hadvance
    dsimp only at hadvance
    split at hadvance
    case h_1 => cases hadvance
    rename_i g hcollecting
    split at hadvance <;> cases hadvance
    rename_i inner hok
    obtain ⟨hsound, hround⟩ := h.sound.collectGarbage (fun x hx hmem _ =>
      .inr (hsafe (x.round, x.digest) (by rw [Primary.drops, hcollecting]; exact hmem))) hok
    exact ⟨_, leaders, A, [], ⟨h.ledgered, h.anchored, h.running, hsound, h.calls,
      hround.le.trans h.gcRound, fun g hg => absurd hg.symm (Option.some_ne_none g), h.committing,
      h.published⟩, (List.append_nil _).symm, rfl⟩
  | publish =>
    unfold Primary.advance at hadvance
    dsimp only at hadvance
    split at hadvance <;> cases hadvance
    rename_i r hcommitting
    exact ⟨_, leaders, A, [], ⟨h.ledgered, h.anchored, h.running, h.sound, h.calls, h.gcRound,
      h.collecting, fun g hg => absurd hg.symm (Option.some_ne_none g),
      h.committing r hcommitting⟩, (List.append_nil _).symm, rfl⟩

end Collected

/-! ## Dropping certificates is safe below the boundary -/

section Execution

variable {P : Pool K D} {config : Config K D} {b : Bullshark K} {p : Primary K D}

/-- Whatever was dropped was already garbage collected for consensus. -/
def Primary.DroppedBelow (gcDepth : ℕ) (p : Primary K D) : Prop :=
  ∀ x ∈ p.dropped, x.emitted ≤ p.consensus.emitted.length ∧
    x.round + gcDepth < lastCommittedRound (p.consensus.emitted.take x.emitted)

variable [SetOrder D]

theorem Collected.step (hq : P.Quorate b.committee) {delivered : Set (Certificate K D)}
    {leaders : List (Certificate K D)} {A : Frontier K} (h : Collected P b p delivered leaders A)
    (hdropped : p.DroppedBelow b.gcDepth) {e : PrimaryEvent K D} (henabled : Primary.Enabled P e)
    (hsafe : p.SafeDrop config b.gcDepth e) {p' : Primary K D}
    (hstep : p.step config b e = some p') :
    (∃ delivered' leaders' A', Collected P b p' delivered' leaders' A') ∧
      p'.DroppedBelow b.gcDepth := by
  obtain ⟨next, hadvance, rfl⟩ := Option.map_eq_some_iff.mp hstep
  have hbelow : ∀ x ∈ p.drops config e, x.1 + b.gcDepth < A.lastCommittedRound := by
    intro x hx
    have hle := (h.drops_le henabled (by rw [hadvance]; rfl) hx).2
    have hne := hsafe x hx
    rw [h.ledgered.refines.lastCommittedRound] at hne
    omega
  obtain ⟨delivered', leaders', A', subDags, h', hemitted, hsame⟩ :=
    h.advance hq henabled hbelow hadvance
  refine ⟨⟨delivered', leaders', A', h'.ledgered, h'.anchored, h'.running, h'.sound, h'.calls,
    h'.gcRound, h'.collecting, h'.committing, h'.published⟩, fun x hx => ?_⟩
  change x.emitted ≤ next.consensus.emitted.length ∧
    x.round + b.gcDepth < lastCommittedRound (next.consensus.emitted.take x.emitted)
  rw [hemitted, List.length_append]
  rcases List.mem_append.mp hx with hx | hx
  · obtain ⟨hlen, hround⟩ := hdropped x hx
    rw [List.take_append_of_le_length hlen]
    exact ⟨by omega, hround⟩
  · obtain ⟨y, hy, rfl⟩ := List.mem_map.mp hx
    rw [List.take_left, ← h.ledgered.ledger.lastCommittedRound_emitted]
    exact ⟨by dsimp only; omega, hbelow y hy⟩

theorem Primary.Execution.collected (hq : P.Quorate b.committee)
    (hfits : ∀ c ∈ P, c.round + b.gcDepth < 2 ^ 64)
    (h : Execution P config b (SafeDrop config b.gcDepth) p) :
    (∃ delivered leaders A, Collected P b p delivered leaders A) ∧ p.DroppedBelow b.gcDepth := by
  refine Machine.Reached.invariant
    (I := fun p => (∃ delivered leaders A, Collected P b p delivered leaders A) ∧
      p.DroppedBelow b.gcDepth)
    ⟨⟨∅, [], .start, .new hfits⟩, fun x hx => absurd hx List.not_mem_nil⟩ ?_ h
  rintro p e p' ⟨⟨delivered, leaders, A, hp⟩, hdropped⟩ ⟨henabled, hsafe⟩ hstep
  exact hp.step hq hdropped henabled hsafe hstep

/-- If no certificate of exactly the round `lastCommittedRound - gcDepth` is dropped and no round
overflows with the depth, what the synchronizer gives up is below the rounds that consensus keeps
and below every sub-dag emitted later, and any two validators emit prefix-comparable sequences. -/
theorem Primary.Execution.dropped_below_committed (hq : P.Quorate b.committee)
    (hfits : ∀ c ∈ P, c.round + b.gcDepth < 2 ^ 64)
    (h : Execution P config b (SafeDrop config b.gcDepth) p) :
    (∀ x ∈ p.dropped, x.round + b.gcDepth < p.consensus.core.state.lastCommittedRound ∧
      ∀ s ∈ p.consensus.emitted.drop x.emitted, ∀ c ∈ s.certificates, x.round < c.round) ∧
    ∀ p', Execution P config b (SafeDrop config b.gcDepth) p' →
      p.consensus.emitted <+: p'.consensus.emitted ∨
        p'.consensus.emitted <+: p.consensus.emitted := by
  obtain ⟨⟨delivered, leaders, A, hp⟩, hdropped⟩ := collected hq hfits h
  refine ⟨fun x hx => ?_, fun p' h' => ?_⟩
  · obtain ⟨-, hround⟩ := hdropped x hx
    have hle : lastCommittedRound (p.consensus.emitted.take x.emitted) ≤
        lastCommittedRound p.consensus.emitted := by
      conv_rhs => rw [← List.take_append_drop x.emitted p.consensus.emitted]
      exact lastCommittedRound_le_append
    rw [hp.ledgered.refines.lastCommittedRound, hp.ledgered.ledger.lastCommittedRound_emitted]
    exact ⟨by omega, hp.ledgered.ledger.lt_round_of_collected hround⟩
  · obtain ⟨⟨delivered', leaders', A', hp'⟩, -⟩ := collected hq hfits h'
    exact hp.ledgered.ledger.comparable hp'.ledgered.ledger (hp.anchored.comparable hq hp'.anchored)

end Execution

/-! ## Concrete runs -/

instance [SetOrder D] (config : Config K D) (gcDepth : ℕ) (p : Primary K D) (e : PrimaryEvent K D) :
    Decidable (p.SafeDrop config gcDepth e) :=
  inferInstanceAs (Decidable (∀ x ∈ p.drops config e, _))

namespace Sample

instance decidableEnabledPrimary : ∀ e : PrimaryEvent (Fin 4) ℕ, Decidable (Primary.Enabled pool e)
  | .receive c _ _ => inferInstanceAs (Decidable (c ∈ certificates))
  | .lock _ _ | .storeGcRound | .collectGarbage | .consume | .publish => .isTrue trivial

def config : Config (Fin 4) ℕ := ⟨committee, [], fun _ => .ok ()⟩

/-- A certificate is received from a peer and goes through to consensus. -/
def receive (c : Certificate (Fin 4) ℕ) : List (PrimaryEvent (Fin 4) ℕ) :=
  [.receive c true true, .lock c true, .consume]

/-- The last commit round is published and the garbage collection task runs. -/
def collect : List (PrimaryEvent (Fin 4) ℕ) := [.publish, .storeGcRound, .collectGarbage]

/-- The first certificate of the slow authority arrives in time. -/
def inTime : List (PrimaryEvent (Fin 4) ℕ) :=
  (roundOne ++ roundTwo ++ roundThree.take 2).flatMap receive ++ collect ++
    (roundThree.drop 2 ++ roundFour ++ roundFive).flatMap receive

/-- The first certificate of the slow authority, and its child at round two, arrive after the first
commit. -/
def late (child : List (PrimaryEvent (Fin 4) ℕ)) : List (PrimaryEvent (Fin 4) ℕ) :=
  (roundOne.take 3 ++ [certificate 0 2 [0, 1, 2], certificate 2 2 [0, 1, 2],
      certificate 3 2 [0, 1, 2], certificate 0 3 [0, 2, 3], certificate 2 3 [0, 2, 3]]).flatMap
      receive ++ collect ++ [.receive (certificate 3 1 []) true true] ++ child ++
    (certificate 1 3 [0, 1, 2] :: roundFour ++ roundFive).flatMap receive

end Sample

/-- With a depth of zero, the first certificate of the slow authority is far enough below the commit
round to be dropped, and its child to be fetched without it. -/
theorem Primary.Execution.dropped_below_committed_sample :
    let b := Sample.bullshark 0
    let m := Primary.machine Sample.config b
    let child := Sample.certificate 1 2 [0, 1, 3]
    let late := m.after .new (Sample.late [.receive child false false, .lock child false, .consume])
    let inTime := m.after .new Sample.inTime
    (late.dropped.map (·.digest) = [13, 13] ∧ late.consensus.emitted.length = 2 ∧
        inTime.dropped.length = 0 ∧ inTime.consensus.emitted.length = 2) ∧
      (∀ x ∈ late.dropped, x.round + 0 < late.consensus.core.state.lastCommittedRound ∧
        ∀ s ∈ late.consensus.emitted.drop x.emitted, ∀ c ∈ s.certificates, x.round < c.round) ∧
      (late.consensus.emitted <+: inTime.consensus.emitted ∨
        inTime.consensus.emitted <+: late.consensus.emitted) := by
  intro b m child late inTime
  have hlate : Execution Sample.pool Sample.config b (SafeDrop Sample.config 0) late :=
    Machine.Reached.start.after (by decide +kernel)
  have hinTime : Execution Sample.pool Sample.config b (SafeDrop Sample.config 0) inTime :=
    Machine.Reached.start.after (by decide +kernel)
  obtain ⟨hdropped, hcomparable⟩ :=
    Primary.Execution.dropped_below_committed (b := b) Sample.pool_quorate
      (fun c hc => (Nat.le_add_right _ 50).trans_lt (Sample.pool_fits c hc)) hlate
  exact ⟨by decide +kernel, hdropped, hcomparable inTime hinTime⟩

/-- With a depth of one, the late validator rejects the first certificate of the slow authority as
too old and accepts its child without it, while the other one commits it. -/
theorem Primary.Execution.boundary_certificate_forks :
    let b := Sample.bullshark 1
    let m := Primary.machine Sample.config b
    let late := m.after .new (Sample.late (Sample.receive (Sample.certificate 1 2 [0, 1, 3])))
    let inTime := m.after .new Sample.inTime
    Execution Sample.pool Sample.config b (fun _ _ => True) late ∧
      Execution Sample.pool Sample.config b (fun _ _ => True) inTime ∧
      Sample.pool.Quorate b.committee ∧
      (∀ p ∈ [late, inTime], p.inner.gcRound = p.consensusRound - b.gcDepth) ∧
      (∃ x ∈ late.dropped, ∃ s ∈ inTime.consensus.emitted.drop x.emitted,
        ∃ c ∈ s.certificates, c.digest = x.digest ∧ c.round = x.round) ∧
      ¬(late.consensus.emitted <+: inTime.consensus.emitted ∨
        inTime.consensus.emitted <+: late.consensus.emitted) := by
  intro b m late inTime
  exact ⟨Machine.Reached.start.after (by decide +kernel),
    Machine.Reached.start.after (by decide +kernel), Sample.pool_quorate, by decide +kernel,
    by decide +kernel, by decide +kernel⟩

end Narwhal

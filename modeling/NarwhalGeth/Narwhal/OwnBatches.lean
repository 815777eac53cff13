import NarwhalGeth.Narwhal.Proposer

/-!
# Batches on their way through the proposer

The proposer answers a worker once it has queued the digest of a batch. From then on the digest is
in the queue, in the payload of a header that the proposer waits for, or in a header whose round
consensus has reported as committed.
-/

namespace Narwhal

variable {K D : Type} [DecidableEq K] [DecidableEq D] {header : Header K D} {round : ℕ}

/-- What the state handler reports: the commit round and the rounds of our own committed
certificates. -/
def StateHandler.handleSequenced (name : K) (commitRound : ℕ)
    (certificates : List (Certificate K D)) : ℕ × List ℕ :=
  (commitRound, certificates.filterMap fun cert =>
    if cert.header.author = name then some cert.header.round else none)

/-- The digests of a payload. -/
def batchDigests (payload : List (D × ℕ × ℕ)) : List D := payload.map (·.1)

/-- One lifetime of a proposer: the digests whose `ack_channel` was answered, the headers proposed
and the rounds reported as committed. -/
structure ProposerLifetime (K D : Type) where
  proposer : Proposer K D
  acknowledged : List D
  headers : List (Header K D)
  reported : List ℕ

inductive LifetimeEvent (K D : Type) where
  | proposer (e : ProposerEvent K D)
  | sequenced (commitRound : ℕ) (certificates : List (Certificate K D))

namespace ProposerLifetime

/-- A lifetime that starts with what is left in the store. -/
def spawn (config : ProposerConfig K D) (epoch : ℕ) (proposerStore : Option (Header K D)) :
    ProposerLifetime K D :=
  ⟨.spawn config epoch proposerStore [], [], [], []⟩

def step (config : ProposerConfig K D) (s : ProposerLifetime K D) :
    LifetimeEvent K D → Option (ProposerLifetime K D)
  | .sequenced commitRound certificates =>
    let (commitRound, rounds) := StateHandler.handleSequenced config.name commitRound certificates
    (s.proposer.step config (.committed commitRound rounds)).map fun proposer =>
      { s with proposer, reported := s.reported ++ rounds }
  | .proposer (.committed _ _) | .proposer (.restart _) => none
  | .proposer (.digest digest worker timestamp) =>
    (s.proposer.step config (.digest digest worker timestamp)).map fun proposer =>
      { s with proposer, acknowledged := s.acknowledged ++ [digest] }
  | .proposer (.makeHeader now) =>
    (s.proposer.step config (.makeHeader now)).map fun proposer =>
      { s with proposer, headers := s.headers ++ proposer.proposerStore.toList }
  | .proposer e => (s.proposer.step config e).map fun proposer => { s with proposer }

def machine (config : ProposerConfig K D) (epoch : ℕ) (proposerStore : Option (Header K D)) :
    Machine (ProposerLifetime K D) (LifetimeEvent K D) where
  start := spawn config epoch proposerStore
  next := step config

/-- The digest is queued, or in a header that is waited for, or in one whose round was reported as
committed. -/
def Holds (s : ProposerLifetime K D) (digest : D) : Prop :=
  digest ∈ batchDigests s.proposer.digests ∨
    (∃ round header, s.proposer.proposedHeaders.lookup round = some header ∧
      digest ∈ batchDigests header.payload) ∨
    ∃ header ∈ s.headers, header.round ∈ s.reported ∧ digest ∈ batchDigests header.payload

end ProposerLifetime

/-! ## Where digests go -/

omit [DecidableEq D] in
@[simp] theorem batchDigests_append (l l' : List (D × ℕ × ℕ)) :
    batchDigests (l ++ l') = batchDigests l ++ batchDigests l' :=
  List.map_append

theorem mem_batchDigests_collectPayload {digest : D} {l : List (D × ℕ × ℕ)}
    (h : digest ∈ batchDigests l) : digest ∈ batchDigests (collectPayload l) := by
  induction l using List.reverseRecOn with
  | nil => exact h
  | append_singleton l e ih =>
    rw [batchDigests_append, List.mem_append] at h
    unfold collectPayload at ih ⊢
    rw [List.foldl_append, List.foldl_cons, List.foldl_nil]
    split_ifs with hany
    · -- The entry of the digest is replaced by one of the same digest.
      have hsame : batchDigests ((l.foldl (fun payload e =>
          if payload.any fun x => x.1 = e.1 then payload.map fun x => if x.1 = e.1 then e else x
          else payload ++ [e]) []).map fun x => if x.1 = e.1 then e else x) =
          batchDigests (l.foldl (fun payload e =>
          if payload.any fun x => x.1 = e.1 then payload.map fun x => if x.1 = e.1 then e else x
          else payload ++ [e]) []) := by
        simp only [batchDigests, List.map_map]
        refine List.map_congr_left fun x _ => ?_
        simp only [Function.comp_apply]
        split_ifs with hx
        · exact hx.symm
        · rfl
      rw [hsame]
      rcases h with h | h
      · exact ih h
      · obtain ⟨x, hx, hxe⟩ := List.any_eq_true.mp hany
        have hdigest : digest = e.1 := by simpa [batchDigests] using h
        rw [hdigest, ← of_decide_eq_true hxe]
        exact List.mem_map_of_mem hx
    · rw [batchDigests_append, List.mem_append]
      exact h.imp ih id

namespace Proposer

variable {config : ProposerConfig K D} {p : Proposer K D}

section

omit [DecidableEq K] [DecidableEq D]

/-- A header that is removed was reported, or its digests are queued again. -/
theorem committedOwnHeaders_cases (commitRound : ℕ) (rounds : List ℕ)
    (h : p.proposedHeaders.lookup round = some header) :
    (p.committedOwnHeaders commitRound rounds).proposedHeaders.lookup round = some header ∨
      round ∈ rounds ∨
      ∀ e ∈ header.payload, e ∈ (p.committedOwnHeaders commitRound rounds).digests := by
  unfold committedOwnHeaders
  by_cases hrounds : round ∈ rounds
  · exact .inr (.inl hrounds)
  have hne : ∀ x ∈ rounds, x ≠ round := by
    rintro x hx rfl
    exact hrounds hx
  have hkept : (rounds.foldl (fun headers round => headers.erase round)
      p.proposedHeaders).lookup round = some header :=
    (Assoc.lookup_foldl_erase_ne (fun x => x) hne).trans h
  set proposed := rounds.foldl (fun headers round => headers.erase round) p.proposedHeaders
  set retransmit := (proposed.entries.insertionSort fun e e' => e.1 ≤ e'.1).takeWhile
    fun e => !decide (commitRound ≤ e.1 + 2)
  dsimp only
  split_ifs
  · exact .inl hkept
  · by_cases hagain : ∃ e ∈ retransmit, e.1 = round
    · obtain ⟨⟨_, header'⟩, he, rfl⟩ := hagain
      have hentry := List.mem_insertionSort _ |>.mp (List.takeWhile_subset _ he)
      obtain rfl : header' = header :=
        Option.some.inj ((Assoc.mem_entries_iff.mp hentry).symm.trans hkept)
      exact .inr (.inr fun e hmem =>
        List.mem_append_left _ (List.mem_flatMap.mpr ⟨_, he, hmem⟩))
    · refine .inl ((Assoc.lookup_foldl_erase_ne Sigma.fst fun e he heq => ?_).trans hkept)
      exact hagain ⟨e, he, heq⟩

theorem mem_digests_committedOwnHeaders (commitRound : ℕ) (rounds : List ℕ) {e : D × ℕ × ℕ}
    (h : e ∈ p.digests) : e ∈ (p.committedOwnHeaders commitRound rounds).digests := by
  unfold committedOwnHeaders
  dsimp only
  split_ifs
  · exact h
  · exact List.mem_append_right _ h

theorem lookup_of_committedOwnHeaders {commitRound : ℕ} {rounds : List ℕ}
    (h : (p.committedOwnHeaders commitRound rounds).proposedHeaders.lookup
      round = some header) : p.proposedHeaders.lookup round = some header := by
  unfold committedOwnHeaders at h
  dsimp only at h
  split_ifs at h
  · exact Assoc.lookup_of_lookup_foldl_erase (fun x => x) h
  · exact Assoc.lookup_of_lookup_foldl_erase (fun x => x)
      (Assoc.lookup_of_lookup_foldl_erase Sigma.fst h)

end

omit [DecidableEq K] in
/-- A new header takes digests from the queue, and the header that is sent again takes none. -/
theorem makeHeader_cases (config : ProposerConfig K D) (now : ℕ) (p : Proposer K D) :
    let p' := p.makeHeader config now
    p'.round = p.round + 1 ∧
      (p'.digests = p.digests ∧ p'.proposedHeaders = p.proposedHeaders ∨
        ∃ header, p'.proposerStore = some header ∧ header.round = p.round + 1 ∧
          p'.proposedHeaders = p.proposedHeaders.insert (p.round + 1) header ∧
          ∃ n, p'.digests = p.digests.drop n ∧
            header.payload = collectPayload (p.digests.take n)) := by
  unfold makeHeader createNewHeader
  dsimp only
  split
  · exact ⟨rfl, .inl ⟨rfl, rfl⟩⟩
  · exact ⟨rfl, .inr ⟨_, rfl, rfl, rfl, _, rfl, rfl⟩⟩

end Proposer

namespace ProposerLifetime

variable {config : ProposerConfig K D} {s s' : ProposerLifetime K D}

/-- Acknowledged digests are held, and the headers that are waited for are filed under rounds that
were reached. -/
structure Conserved (s : ProposerLifetime K D) : Prop where
  held : ∀ digest ∈ s.acknowledged, s.Holds digest
  filed : ∀ round header, s.proposer.proposedHeaders.lookup round = some header →
    header.round = round ∧ round ≤ s.proposer.round ∧ header ∈ s.headers

namespace Conserved

section

omit [DecidableEq K] [DecidableEq D]

theorem frame (h : Conserved s) {proposer : Proposer K D}
    (hdigests : proposer.digests = s.proposer.digests)
    (hproposed : proposer.proposedHeaders = s.proposer.proposedHeaders)
    (hround : s.proposer.round ≤ proposer.round) : Conserved { s with proposer } := by
  constructor
  · intro digest hdigest
    have hheld := h.held digest hdigest
    unfold Holds at hheld ⊢
    dsimp only
    rwa [hdigests, hproposed]
  · intro round header hlookup
    rw [hproposed] at hlookup
    obtain ⟨heq, hle, hmem⟩ := h.filed round header hlookup
    exact ⟨heq, hle.trans hround, hmem⟩

theorem digest (h : Conserved s) (digest : D) (worker timestamp : ℕ) :
    Conserved { s with
      proposer := { s.proposer with
        digests := s.proposer.digests ++ [(digest, worker, timestamp)] }
      acknowledged := s.acknowledged ++ [digest] } := by
  refine ⟨fun d hd => ?_, h.filed⟩
  rcases List.mem_append.mp hd with hd | hd
  · rcases h.held d hd with hqueued | hrest
    · exact .inl (by rw [batchDigests_append]; exact List.mem_append_left _ hqueued)
    · exact .inr hrest
  · refine .inl ?_
    rw [batchDigests_append]
    exact List.mem_append_right _ hd

end

omit [DecidableEq K] in
/-- The digests that leave the queue are in the payload of the new header, which takes no other
header's place. -/
theorem makeHeader (h : Conserved s) (now : ℕ) :
    Conserved { s with
      proposer := s.proposer.makeHeader config now
      headers := s.headers ++ (s.proposer.makeHeader config now).proposerStore.toList } := by
  obtain ⟨hround, hcases⟩ := s.proposer.makeHeader_cases config now
  set proposer := s.proposer.makeHeader config now
  rcases hcases with ⟨hdigests, hproposed⟩ |
    ⟨header, hstore, hheader, hproposed, n, hrest, hpayload⟩
  · have hframe : Conserved { s with proposer } := h.frame hdigests hproposed (by omega)
    refine ⟨fun d hd => ?_, fun round header hlookup => ?_⟩
    · rcases hframe.held d hd with hqueued | hwaiting | ⟨header, hmem, hreported⟩
      · exact .inl hqueued
      · exact .inr (.inl hwaiting)
      · exact .inr (.inr ⟨header, List.mem_append_left _ hmem, hreported⟩)
    · obtain ⟨heq, hle, hmem⟩ := hframe.filed round header hlookup
      exact ⟨heq, hle, List.mem_append_left _ hmem⟩
  · -- No header of the new round is filed yet.
    have hfresh : ∀ round header', s.proposer.proposedHeaders.lookup round = some header' →
        proposer.proposedHeaders.lookup round = some header' := by
      intro round header' hlookup
      have hle := (h.filed round header' hlookup).2.1
      rw [hproposed, AList.lookup_insert_ne (by omega)]
      exact hlookup
    have hnew : proposer.proposedHeaders.lookup (s.proposer.round + 1) = some header := by
      rw [hproposed, AList.lookup_insert]
    refine ⟨fun d hd => ?_, fun round header' hlookup => ?_⟩
    · rcases h.held d hd with hqueued | ⟨round, header', hlookup, hmem⟩ | ⟨header', hmem, hreported⟩
      · rw [← List.take_append_drop n s.proposer.digests, batchDigests_append,
          List.mem_append] at hqueued
        rcases hqueued with htaken | hleft
        · refine .inr (.inl ⟨_, header, hnew, ?_⟩)
          rw [hpayload]
          exact mem_batchDigests_collectPayload htaken
        · exact .inl (by rw [hrest]; exact hleft)
      · exact .inr (.inl ⟨round, header', hfresh round header' hlookup, hmem⟩)
      · exact .inr (.inr ⟨header', List.mem_append_left _ hmem, hreported⟩)
    · rw [hproposed] at hlookup
      rcases Assoc.lookup_insert_cases hlookup with ⟨rfl, rfl⟩ | hlookup
      · refine ⟨hheader, hround.ge, List.mem_append_right _ ?_⟩
        rw [hstore]
        exact List.mem_singleton_self _
      · obtain ⟨heq, hle, hmem⟩ := h.filed round header' hlookup
        exact ⟨heq, (hle.trans (Nat.le_succ _)).trans hround.ge, List.mem_append_left _ hmem⟩

omit [DecidableEq K] [DecidableEq D] in
theorem committed (h : Conserved s) (commitRound : ℕ) (rounds : List ℕ) :
    Conserved { s with
      proposer := s.proposer.committedOwnHeaders commitRound rounds
      reported := s.reported ++ rounds } := by
  refine ⟨fun d hd => ?_, fun round header hlookup => ?_⟩
  · rcases h.held d hd with hqueued | ⟨round, header, hlookup, hmem⟩ | ⟨header, hmem, hround, hd⟩
    · obtain ⟨e, he, rfl⟩ := List.mem_map.mp hqueued
      exact .inl (List.mem_map_of_mem
        (Proposer.mem_digests_committedOwnHeaders commitRound rounds he))
    · rcases Proposer.committedOwnHeaders_cases commitRound rounds hlookup with
        hkept | hreported | hagain
      · exact .inr (.inl ⟨round, header, hkept, hmem⟩)
      · obtain ⟨heq, -, hheader⟩ := h.filed round header hlookup
        refine .inr (.inr ⟨header, hheader, ?_, hmem⟩)
        rw [heq]
        exact List.mem_append_right _ hreported
      · obtain ⟨e, he, rfl⟩ := List.mem_map.mp hmem
        exact .inl (List.mem_map_of_mem (hagain e he))
    · exact .inr (.inr ⟨header, hmem, List.mem_append_left _ hround, hd⟩)
  · obtain ⟨heq, hle, hmem⟩ := h.filed round header (Proposer.lookup_of_committedOwnHeaders hlookup)
    exact ⟨heq, by rwa [(s.proposer.committedOwnHeaders_frame _ _).2.1], hmem⟩

theorem step (h : Conserved s) {e : LifetimeEvent K D} (hstep : s.step config e = some s') :
    Conserved s' := by
  cases e with
  | sequenced commitRound certificates =>
    obtain ⟨proposer, hproposer, rfl⟩ := Option.map_eq_some_iff.mp hstep
    rw [Proposer.eq_react_of_step hproposer]
    exact h.committed _ _
  | proposer e =>
    cases e with
    | committed commitRound rounds => cases hstep
    | restart epoch => cases hstep
    | digest digest worker timestamp =>
      obtain ⟨proposer, hproposer, rfl⟩ := Option.map_eq_some_iff.mp hstep
      rw [Proposer.eq_react_of_step hproposer]
      exact h.digest digest worker timestamp
    | makeHeader now =>
      obtain ⟨proposer, hproposer, rfl⟩ := Option.map_eq_some_iff.mp hstep
      rw [Proposer.eq_react_of_step hproposer]
      exact h.makeHeader now
    | parents parents round epoch =>
      obtain ⟨proposer, hproposer, rfl⟩ := Option.map_eq_some_iff.mp hstep
      rw [Proposer.eq_react_of_step hproposer]
      obtain ⟨⟨-, hdigests, hproposed⟩, hcases⟩ :=
        s.proposer.receiveParents_cases config parents round epoch
      refine h.frame hdigests hproposed ?_
      rcases hcases with ⟨-, hround, -⟩ | ⟨-, -, hround, -⟩ | ⟨-, hlt, hround, -⟩
      · exact hround.ge
      · exact hround.ge
      · exact hlt.le.trans hround.ge
    | send =>
      obtain ⟨proposer, hproposer, rfl⟩ := Option.map_eq_some_iff.mp hstep
      obtain ⟨header, -, rfl⟩ := Option.map_eq_some_iff.mp hproposer
      exact h.frame rfl rfl le_rfl
    | maxDelay | minDelay | resend =>
      obtain ⟨proposer, hproposer, rfl⟩ := Option.map_eq_some_iff.mp hstep
      rw [Proposer.eq_react_of_step hproposer]
      exact h.frame rfl rfl le_rfl

end Conserved

end ProposerLifetime

namespace Sample

end Sample

end Narwhal

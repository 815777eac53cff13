import NarwhalGeth.Lib.Machine
import NarwhalGeth.Narwhal.Messages

/-!
# The proposer

The last header is stored before it is sent, and a header of the stored round and epoch is sent
again instead of making another one. A restart begins at round zero with the genesis certificates,
so the proposer may find itself below the stored round and make new headers for rounds that it has
already proposed.
-/

namespace Narwhal

variable {K D : Type} [DecidableEq K] [DecidableEq D]

inductive NetworkModel where
  | partiallySynchronous
  | asynchronous
deriving DecidableEq

/-- What is fixed for a proposer across its restarts. -/
structure ProposerConfig (K D : Type) where
  name : K
  committees : ℕ → Committee K
  leader : ℕ → ℕ → K
  crypto : Crypto K D
  digestLe : D → D → Bool
  requestSignature : D → Signature
  headerNumOfBatchesThreshold : ℕ
  maxHeaderNumOfBatches : ℕ
  networkModel : NetworkModel

/-- The state of a proposer. The timers are represented by whether they have elapsed, and `sending`
is a header that was stored and is being sent. Only `proposerStore` survives a crash; `sent` records
the headers sent in all lifetimes. -/
structure Proposer (K D : Type) where
  epoch : ℕ
  round : ℕ
  lastParents : List (Certificate K D)
  lastLeader : Option (Certificate K D)
  digests : List (D × ℕ × ℕ)
  proposedHeaders : Assoc ℕ (Header K D)
  advance : Bool
  maxDelayElapsed : Bool
  minDelayElapsed : Bool
  optLatestHeader : Option (Header K D)
  sending : Option (Header K D)
  proposerStore : Option (Header K D)
  sent : List (Header K D)

/-- The branches of the proposer's loop, the making and the sending of a header, and a crash with a
restart. -/
inductive ProposerEvent (K D : Type) where
  | maxDelay
  | minDelay
  | makeHeader (now : ℕ)
  | send
  | resend
  | committed (commitRound : ℕ) (rounds : List ℕ)
  | parents (parents : List (Certificate K D)) (round epoch : ℕ)
  | digest (digest : D) (worker timestamp : ℕ)
  | restart (epoch : ℕ)

/-- Collects pairs into an `IndexMap`: a repeated key keeps its place and takes the new value. -/
def collectPayload (digests : List (D × ℕ × ℕ)) : List (D × ℕ × ℕ) :=
  digests.foldl (fun payload e =>
    if payload.any fun x => x.1 = e.1 then payload.map fun x => if x.1 = e.1 then e else x
    else payload ++ [e]) []

/-- A signed header. -/
def Header.new (config : ProposerConfig K D) (round epoch now : ℕ) (payload : List (D × ℕ × ℕ))
    (parents : List D) : Header K D :=
  let digest := config.crypto.hash config.name round epoch now payload parents
  { author := config.name, round, epoch, createdAt := now, payload, parents, digest,
    signature := config.requestSignature digest }

namespace Proposer

/-- A proposer that starts with what is left in the store. -/
def spawn (config : ProposerConfig K D) (epoch : ℕ) (proposerStore : Option (Header K D))
    (sent : List (Header K D)) : Proposer K D where
  epoch
  round := 0
  lastParents := Certificate.genesis config.crypto (config.committees epoch)
  lastLeader := none
  digests := []
  proposedHeaders := ∅
  advance := true
  maxDelayElapsed := false
  minDelayElapsed := false
  optLatestHeader := none
  sending := none
  proposerStore
  sent

/-- The condition at the head of the loop. -/
def canPropose (config : ProposerConfig K D) (p : Proposer K D) : Bool :=
  let enoughParents := !p.lastParents.isEmpty
  let enoughDigests := decide (config.headerNumOfBatchesThreshold ≤ p.digests.length)
  (p.maxDelayElapsed || ((enoughDigests || p.minDelayElapsed) && p.advance)) && enoughParents

/-- The stored header of this round and epoch, or a new one. -/
def createNewHeader (config : ProposerConfig K D) (now : ℕ) (p : Proposer K D) :
    Header K D × Proposer K D :=
  match p.proposerStore.filter fun last => last.round = p.round ∧ last.epoch = p.epoch with
  | some last => (last, { p with lastParents := [] })
  | none =>
    let numOfDigests := min p.digests.length config.maxHeaderNumOfBatches
    -- The parents are a `BTreeSet`.
    let parents := (p.lastParents.map Certificate.digest).dedup.insertionSort (config.digestLe · ·)
    let header := Header.new config p.round p.epoch now
      (collectPayload (p.digests.take numOfDigests)) parents
    (header,
      { p with
        digests := p.digests.drop numOfDigests
        lastParents := []
        proposedHeaders := p.proposedHeaders.insert p.round header })

/-- Advances to the next round, and creates and stores its header. -/
def makeHeader (config : ProposerConfig K D) (now : ℕ) (p : Proposer K D) : Proposer K D :=
  let (header, p) := createNewHeader config now { p with round := p.round + 1 }
  { p with proposerStore := some header, sending := some header }

/-- The header is sent, and the timers are scheduled again. -/
def send (p : Proposer K D) : Option (Proposer K D) :=
  p.sending.map fun header =>
    { p with
      sent := p.sent ++ [header]
      sending := none
      optLatestHeader := some header
      maxDelayElapsed := false
      minDelayElapsed := false }

/-- The last header is sent once more. -/
def resend (p : Proposer K D) : Proposer K D :=
  { p with sent := p.sent ++ p.optLatestHeader.toList }

/-- Own headers were committed. The batches of headers well below the commit round are queued again.
-/
def committedOwnHeaders (commitRound : ℕ) (rounds : List ℕ) (p : Proposer K D) : Proposer K D :=
  let proposedHeaders := rounds.foldl (fun headers round => headers.erase round) p.proposedHeaders
  let sorted := proposedHeaders.entries.insertionSort fun e e' => e.1 ≤ e'.1
  let retransmit := sorted.takeWhile fun e => !decide (commitRound ≤ e.1 + 2)
  if retransmit.isEmpty then { p with proposedHeaders }
  else
    { p with
      digests := retransmit.flatMap (fun e => e.2.payload) ++ p.digests
      proposedHeaders := retransmit.foldl (fun headers e => headers.erase e.1) proposedHeaders }

def updateLeader (config : ProposerConfig K D) (p : Proposer K D) : Bool × Proposer K D :=
  let lastLeader := p.lastParents.find? fun c => c.origin = config.leader p.epoch p.round
  (lastLeader.isSome, { p with lastLeader })

def enoughVotes (config : ProposerConfig K D) (p : Proposer K D) : Bool :=
  let committee := config.committees p.epoch
  if config.leader p.epoch (p.round + 1) = config.name then true
  else
    match p.lastLeader with
    | none => true
    | some leader =>
      let (votes, noVotes) := p.lastParents.partition fun c => c.parents.contains leader.digest
      let stake := fun certs : List (Certificate K D) =>
        (certs.map fun c => committee.stake c.origin).sum % 2 ^ 64
      decide (committee.validityThreshold ≤ stake votes) ||
        decide (committee.quorumThreshold ≤ stake noVotes)

/-- Whether the DAG can be advanced. -/
def ready (config : ProposerConfig K D) (p : Proposer K D) : Bool × Proposer K D :=
  match config.networkModel with
  | .asynchronous => (true, p)
  | .partiallySynchronous =>
    if p.round % 2 = 0 then p.updateLeader config else (p.enoughVotes config, p)

/-- Parents arrive, or a round to jump to. -/
def receiveParents (config : ProposerConfig K D) (parents : List (Certificate K D))
    (round epoch : ℕ) (p : Proposer K D) : Proposer K D :=
  if epoch ≠ p.epoch then p
  else if round < p.round then p
  else
    let p :=
      if p.round < round then
        { p with round, lastParents := parents, maxDelayElapsed := false, minDelayElapsed := false }
      else { p with lastParents := p.lastParents ++ parents }
    let (advance, p) := p.ready config
    { p with advance }

/-- A step of the proposer. The loop first makes a header if it can, and then waits for one of the
select branches. -/
def step (config : ProposerConfig K D) (p : Proposer K D) :
    ProposerEvent K D → Option (Proposer K D)
  | .restart epoch => some (spawn config epoch p.proposerStore p.sent)
  | .send => p.send
  | .makeHeader now =>
    if p.sending.isNone ∧ p.canPropose config then some (p.makeHeader config now) else none
  | e =>
    if p.sending.isSome ∨ p.canPropose config then none
    else
      match e with
      | .maxDelay => some { p with maxDelayElapsed := true }
      | .minDelay => some { p with minDelayElapsed := true }
      | .resend => some p.resend
      | .committed commitRound rounds => some (p.committedOwnHeaders commitRound rounds)
      | .parents parents round epoch => some (p.receiveParents config parents round epoch)
      | .digest digest worker timestamp =>
        some { p with digests := p.digests ++ [(digest, worker, timestamp)] }
      | .restart _ | .send | .makeHeader _ => none

def machine (config : ProposerConfig K D) (epoch : ℕ) :
    Machine (Proposer K D) (ProposerEvent K D) where
  start := spawn config epoch none []
  next := step config

/-- What a step does on an event that the proposer takes. -/
def react (config : ProposerConfig K D) (p : Proposer K D) : ProposerEvent K D → Proposer K D
  | .restart epoch => spawn config epoch p.proposerStore p.sent
  | .send => p.send.getD p
  | .makeHeader now => p.makeHeader config now
  | .maxDelay => { p with maxDelayElapsed := true }
  | .minDelay => { p with minDelayElapsed := true }
  | .resend => p.resend
  | .committed commitRound rounds => p.committedOwnHeaders commitRound rounds
  | .parents parents round epoch => p.receiveParents config parents round epoch
  | .digest digest worker timestamp =>
    { p with digests := p.digests ++ [(digest, worker, timestamp)] }

theorem eq_react_of_step {config : ProposerConfig K D} {p p' : Proposer K D}
    {e : ProposerEvent K D} (h : p.step config e = some p') : p' = p.react config e := by
  cases e with
  | restart epoch => exact (Option.some.inj h).symm
  | send =>
    have hsend : p.send = some p' := h
    rw [react, hsend, Option.getD_some]
  | _ =>
    simp only [step, Option.ite_none_right_eq_some, Option.ite_none_left_eq_some] at h
    exact (Option.some.inj h.2).symm

omit [DecidableEq K] [DecidableEq D] in
theorem committedOwnHeaders_frame (commitRound : ℕ) (rounds : List ℕ) (p : Proposer K D) :
    (p.committedOwnHeaders commitRound rounds).epoch = p.epoch ∧
      (p.committedOwnHeaders commitRound rounds).round = p.round ∧
      (p.committedOwnHeaders commitRound rounds).lastParents = p.lastParents := by
  unfold committedOwnHeaders
  dsimp only
  split_ifs <;> exact ⟨rfl, rfl, rfl⟩

/-- Parents of an older round or another epoch are ignored, those of the current round are added,
and those of a later round make the proposer jump there. -/
theorem receiveParents_cases (config : ProposerConfig K D) (parents : List (Certificate K D))
    (round epoch : ℕ) (p : Proposer K D) :
    let p' := p.receiveParents config parents round epoch
    (p'.epoch = p.epoch ∧ p'.digests = p.digests ∧ p'.proposedHeaders = p.proposedHeaders) ∧
      ((epoch ≠ p.epoch ∨ round < p.round) ∧ p'.round = p.round ∧ p'.lastParents = p.lastParents ∨
        epoch = p.epoch ∧ round = p.round ∧ p'.round = p.round ∧
          p'.lastParents = p.lastParents ++ parents ∨
        epoch = p.epoch ∧ p.round < round ∧ p'.round = round ∧ p'.lastParents = parents) := by
  unfold receiveParents ready updateLeader
  dsimp only
  split_ifs with hepoch hold hjump
  · exact ⟨⟨rfl, rfl, rfl⟩, .inl ⟨.inl hepoch, rfl, rfl⟩⟩
  · exact ⟨⟨rfl, rfl, rfl⟩, .inl ⟨.inr hold, rfl, rfl⟩⟩
  all_goals
    have hsame := not_not.mp hepoch
    split <;> first
      | exact ⟨⟨rfl, rfl, rfl⟩, .inr (.inr ⟨hsame, hjump, rfl, rfl⟩)⟩
      | exact ⟨⟨rfl, rfl, rfl⟩, .inr (.inl ⟨hsame, by omega, rfl, rfl⟩)⟩

/-! ## Headers that were sent are below the stored one -/

/-- The proposer does not make a header for a round and epoch below those of the stored header. -/
def NotBehind (p : Proposer K D) : ProposerEvent K D → Prop
  | .makeHeader _ => ∀ last ∈ p.proposerStore,
    last.epoch < p.epoch ∨ last.epoch = p.epoch ∧ last.round ≤ p.round + 1
  | _ => True

/-- A header is of an earlier round or epoch than another, or it is the other. -/
def UpTo (header last : Header K D) : Prop :=
  header.epoch < last.epoch ∨ header.epoch = last.epoch ∧ header.round < last.round ∨ header = last

section

omit [DecidableEq K] [DecidableEq D]

theorem UpTo.eq {header last : Header K D} (h : UpTo header last)
    (hepoch : header.epoch = last.epoch) (hround : header.round = last.round) : header = last := by
  rcases h with hlt | ⟨-, hlt⟩ | heq
  · omega
  · omega
  · exact heq

theorem UpTo.trans {x y z : Header K D} (h : UpTo x y) (h' : UpTo y z) : UpTo x z := by
  rcases h with hlt | ⟨heq, hlt⟩ | rfl
  · rcases h' with hlt' | ⟨heq', hlt'⟩ | rfl
    · exact .inl (hlt.trans hlt')
    · exact .inl (heq' ▸ hlt)
    · exact .inl hlt
  · rcases h' with hlt' | ⟨heq', hlt'⟩ | rfl
    · exact .inl (heq ▸ hlt')
    · exact .inr (.inl ⟨heq.trans heq', hlt.trans hlt'⟩)
    · exact .inr (.inl ⟨heq, hlt⟩)
  · exact h'

end

omit [DecidableEq K] in
/-- The stored header goes up to the created one, unless it is above the round of the proposer. -/
theorem upTo_createNewHeader (config : ProposerConfig K D) (now : ℕ) {p : Proposer K D}
    (hbehind : ∀ last ∈ p.proposerStore,
      last.epoch < p.epoch ∨ last.epoch = p.epoch ∧ last.round ≤ p.round) :
    ∀ last ∈ p.proposerStore, UpTo last (createNewHeader config now p).1 := by
  intro last hlast
  unfold createNewHeader
  rw [Option.mem_def.mp hlast, Option.filter_some]
  split_ifs with hsame
  · exact .inr (.inr rfl)
  · have hbelow := hbehind last hlast
    simp only [decide_eq_true_eq, not_and] at hsame
    rcases hbelow with hlt | ⟨hepoch, hle⟩
    · exact .inl hlt
    · exact .inr (.inl ⟨hepoch, lt_of_le_of_ne hle fun hround => hsame hround hepoch⟩)

omit [DecidableEq K] in
theorem createNewHeader_frame (config : ProposerConfig K D) (now : ℕ) (p : Proposer K D) :
    (createNewHeader config now p).2.sent = p.sent ∧
      (createNewHeader config now p).2.optLatestHeader = p.optLatestHeader := by
  unfold createNewHeader
  split <;> exact ⟨rfl, rfl⟩

/-- The headers sent go up to the stored one, and there is one for each round and epoch. -/
structure Consistent (p : Proposer K D) : Prop where
  stored : ∀ header ∈ p.sent, ∃ last, p.proposerStore = some last ∧ UpTo header last
  sending : ∀ header, p.sending = some header → p.proposerStore = some header
  latest : ∀ header, p.optLatestHeader = some header → header ∈ p.sent
  unique : ∀ header ∈ p.sent, ∀ header' ∈ p.sent, header.epoch = header'.epoch →
    header.round = header'.round → header = header'

namespace Consistent

variable {config : ProposerConfig K D} {p p' : Proposer K D}

section

omit [DecidableEq K] [DecidableEq D]

theorem congr (h : Consistent p) (hstore : p'.proposerStore = p.proposerStore)
    (hsent : p'.sent = p.sent) (hsending : p'.sending = p.sending)
    (hlatest : p'.optLatestHeader = p.optLatestHeader) : Consistent p' := by
  constructor
  · rw [hsent, hstore]
    exact h.stored
  · rw [hsending, hstore]
    exact h.sending
  · rw [hlatest, hsent]
    exact h.latest
  · rw [hsent]
    exact h.unique

theorem restart (h : Consistent p) (epoch : ℕ) :
    Consistent (spawn config epoch p.proposerStore p.sent) where
  stored := h.stored
  sending := nofun
  latest := nofun
  unique := h.unique

theorem send (h : Consistent p) (hsend : p.send = some p') : Consistent p' := by
  obtain ⟨header, hsending, rfl⟩ := Option.map_eq_some_iff.mp hsend
  have hstore := h.sending header hsending
  have hupTo : ∀ other ∈ p.sent, UpTo other header := by
    intro other hother
    obtain ⟨last, hlast, hupTo⟩ := h.stored other hother
    rw [hstore] at hlast
    rwa [Option.some.inj hlast]
  constructor
  · intro other hother
    refine ⟨header, hstore, ?_⟩
    rcases List.mem_append.mp hother with hother | hother
    · exact hupTo other hother
    · exact .inr (.inr (List.mem_singleton.mp hother))
  · exact nofun
  · intro other hother
    rw [← Option.some.inj hother]
    exact List.mem_append_right _ (List.mem_singleton_self _)
  · intro x hx y hy hepoch hround
    rcases List.mem_append.mp hx with hx | hx <;> rcases List.mem_append.mp hy with hy | hy
    · exact h.unique x hx y hy hepoch hround
    · rw [List.mem_singleton.mp hy] at hepoch hround ⊢
      exact (hupTo x hx).eq hepoch hround
    · rw [List.mem_singleton.mp hx] at hepoch hround ⊢
      exact ((hupTo y hy).eq hepoch.symm hround.symm).symm
    · rw [List.mem_singleton.mp hx, List.mem_singleton.mp hy]

theorem resend (h : Consistent p) : Consistent p.resend := by
  have hmem : ∀ header ∈ p.resend.sent, header ∈ p.sent := by
    intro header hheader
    rcases List.mem_append.mp hheader with hheader | hheader
    · exact hheader
    · exact h.latest header (Option.mem_toList.mp hheader)
  exact
    { stored := fun header hheader => h.stored header (hmem header hheader)
      sending := h.sending
      latest := fun header hheader => List.mem_append_left _ (h.latest header hheader)
      unique := fun x hx y hy => h.unique x (hmem x hx) y (hmem y hy) }

end

omit [DecidableEq K] in
theorem makeHeader (h : Consistent p) {now : ℕ} (hbehind : p.NotBehind (.makeHeader now)) :
    Consistent (p.makeHeader config now) := by
  obtain ⟨hsent, hlatest⟩ := createNewHeader_frame config now { p with round := p.round + 1 }
  constructor
  · intro header hheader
    rw [Proposer.makeHeader, hsent] at hheader
    obtain ⟨last, hlast, hupTo⟩ := h.stored header hheader
    have hcreated := upTo_createNewHeader config now (p := { p with round := p.round + 1 }) hbehind
    exact ⟨_, rfl, hupTo.trans (hcreated last hlast)⟩
  · exact fun header hheader => hheader
  · intro header hheader
    rw [Proposer.makeHeader, hlatest] at hheader
    rw [Proposer.makeHeader, hsent]
    exact h.latest header hheader
  · rw [Proposer.makeHeader, hsent]
    exact h.unique

theorem receiveParents (h : Consistent p) (parents : List (Certificate K D))
    (round epoch : ℕ) : Consistent (p.receiveParents config parents round epoch) := by
  unfold Proposer.receiveParents Proposer.ready Proposer.updateLeader
  dsimp only
  split_ifs
  · exact h
  · exact h
  all_goals split <;> exact h.congr rfl rfl rfl rfl

theorem step (h : Consistent p) {e : ProposerEvent K D} (hbehind : p.NotBehind e)
    (hstep : p.step config e = some p') : Consistent p' := by
  have heq := eq_react_of_step hstep
  cases e with
  | send => exact h.send hstep
  | restart epoch =>
    subst heq
    exact h.restart epoch
  | makeHeader now =>
    subst heq
    exact h.makeHeader hbehind
  | resend =>
    subst heq
    exact h.resend
  | committed commitRound rounds =>
    subst heq
    unfold react committedOwnHeaders
    dsimp only
    split_ifs <;> exact h.congr rfl rfl rfl rfl
  | parents parents round epoch =>
    subst heq
    exact h.receiveParents parents round epoch
  | maxDelay | minDelay | digest =>
    subst heq
    exact h.congr rfl rfl rfl rfl

end Consistent

/-- If the proposer makes no header below the stored one, two headers sent for the same epoch and
round are identical, after any number of restarts. -/
theorem sent_unique {config : ProposerConfig K D} {epoch : ℕ} {p : Proposer K D}
    (h : (machine config epoch).Reached NotBehind p) :
    ∀ header ∈ p.sent, ∀ header' ∈ p.sent, header.epoch = header'.epoch →
      header.round = header'.round → header = header' := by
  have hconsistent : Consistent p := Machine.Reached.invariant ⟨nofun, nofun, nofun, nofun⟩
    (fun _ _ _ hp hbehind hstep => hp.step hbehind hstep) h
  exact hconsistent.unique

instance decidableNotBehind (p : Proposer K D) : ∀ e, Decidable (p.NotBehind e)
  | .makeHeader _ => inferInstanceAs (Decidable (∀ last ∈ p.proposerStore,
      last.epoch < p.epoch ∨ last.epoch = p.epoch ∧ last.round ≤ p.round + 1))
  | .maxDelay | .minDelay | .send | .resend | .committed _ _ | .parents _ _ _ | .digest _ _ _
  | .restart _ => .isTrue trivial

end Proposer

namespace Sample

def proposerConfig : ProposerConfig (Fin 4) ℕ where
  name := 0
  committees epoch := { committee with epoch }
  leader _ _ := 1
  crypto :=
    { hash := fun author round _ now _ _ => 1000 * now + 10 * round + author
      verify := fun _ _ _ => true
      verifyAggregate := fun _ _ _ => true }
  digestLe d d' := d ≤ d'
  requestSignature _ := []
  headerNumOfBatchesThreshold := 1
  maxHeaderNumOfBatches := 10
  networkModel := .asynchronous

/-- The timer for new headers expires, and a header is made and sent. -/
def propose (now : ℕ) : List (ProposerEvent (Fin 4) ℕ) := [.minDelay, .makeHeader now, .send]

/-- The certificates of round one arrive. -/
def roundOneParents : ProposerEvent (Fin 4) ℕ :=
  .parents [⟨Header.new proposerConfig 1 0 5 [] []⟩] 1 0

def proposer (events : List (ProposerEvent (Fin 4) ℕ)) : Proposer (Fin 4) ℕ :=
  (Proposer.machine proposerConfig 0).after (.spawn proposerConfig 0 none []) events

end Sample

namespace Proposer

/-- Two rounds are proposed. After a restart the recovered parents arrive first, and the header of
the second round is sent again. -/
theorem sent_unique_recovered :
    let p := Sample.proposer (Sample.propose 5 ++ [Sample.roundOneParents] ++ Sample.propose 6 ++
      [.restart 0, Sample.roundOneParents] ++ Sample.propose 9)
    p.sent.map Header.round = [1, 2, 2] ∧
      ∀ header ∈ p.sent, ∀ header' ∈ p.sent, header.epoch = header'.epoch →
        header.round = header'.round → header = header' := by
  intro p
  exact ⟨by decide +kernel, sent_unique (Machine.Reached.start.after
    (m := machine Sample.proposerConfig 0) (by decide +kernel))⟩

/-- After a restart the timer expires before the recovered parents arrive, and another header of the
first round is sent. -/
theorem restart_equivocates :
    let p := Sample.proposer (Sample.propose 5 ++ [Sample.roundOneParents] ++ Sample.propose 6 ++
      [.restart 0] ++ Sample.propose 9)
    (machine Sample.proposerConfig 0).Reached (fun _ _ => True) p ∧
      ∃ header ∈ p.sent, ∃ header' ∈ p.sent, header.epoch = header'.epoch ∧
        header.round = header'.round ∧ header ≠ header' := by
  intro p
  exact ⟨Machine.Reached.start.after (by decide +kernel), by decide +kernel⟩

end Proposer

end Narwhal

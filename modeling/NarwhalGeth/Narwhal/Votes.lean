import NarwhalGeth.Lib.Fallible
import NarwhalGeth.Lib.Machine
import NarwhalGeth.Narwhal.Messages

/-!
# Votes and certificates never equivocate

A primary keeps, for each author, its last vote in a store that survives crashes. It votes only
above that vote, or for the same header again, and stores the vote before it is sent. So an honest
authority never signs two headers of one author, epoch and round, and quorum intersection extends
this to certificates.
-/

namespace Narwhal

variable {K D : Type} [DecidableEq K] [DecidableEq D] {peer : NetworkPublicKey} {u : Unit}

/-! ## Handling a vote request -/

/-- The last vote for an author. -/
structure VoteInfo (D : Type) where
  epoch : ℕ
  round : ℕ
  voteDigest : D
deriving DecidableEq

/-- The digest of a vote is the digest of the header. -/
def Header.voteInfo (header : Header K D) : VoteInfo D :=
  ⟨header.epoch, header.round, header.digest⟩

/-- What the handler of a vote request finds: the round of the primary, the stored and the missing
parents, whether the batches can be synchronised, and the time. -/
structure VoteContext (K D : Type) where
  narwhalRound : ℕ
  parents : List (Certificate K D)
  missing : List D
  syncBatches : Except (DagError K D) Unit
  now : ℕ

/-- How far a header may be behind the primary. -/
def headerAgeLimit : ℕ := 3

/-- How far in the future, in milliseconds, a header may be created. -/
def tolerance : ℕ := 15 * 1000

namespace VoteRequest

/-- The request must carry a valid header and come from its author. -/
def verify (crypto : Crypto K D) (workerCache : WorkerCache K) (committee : Committee K)
    (peer : NetworkPublicKey) (header : Header K D) : Except (DagError K D) Unit := do
  header.verify crypto workerCache committee
  match committee.authorityByNetworkKey peer with
  | none => .error (.networkError "Unable to find authority with network key")
  | some authority =>
    if header.author = authority then .ok ()
    else .error (.networkError "Header author must match requesting peer")

theorem verify_eq_ok {crypto : Crypto K D} {workerCache : WorkerCache K} {committee : Committee K}
    {header : Header K D} (h : verify crypto workerCache committee peer header = .ok u) :
    header.verify crypto workerCache committee = .ok () ∧
      committee.authorityByNetworkKey peer = some header.author := by
  obtain ⟨_, hheader, h⟩ := Except.eq_ok_of_bind h
  refine ⟨hheader, ?_⟩
  split at h
  · cases h
  · split_ifs at h with hauthor
    rwa [hauthor]

/-- The parents must be of the previous round and of distinct authors. Returns their stake. -/
def parentStake (committee : Committee K) (header : Header K D) :
    List (Certificate K D) → List K → ℕ → Except (DagError K D) ℕ
  | [], _, stake => .ok stake
  | parent :: parents, authorities, stake =>
    if parent.round + 1 ≠ header.round then
      .error (.headerHasInvalidParentRoundNumbers header.digest)
    else if parent.origin ∈ authorities then
      .error (.headerHasDuplicateParentAuthorities header.digest)
    else
      parentStake committee header parents (parent.origin :: authorities)
        ((stake + committee.stake parent.origin) % 2 ^ 64)

/-- The checks before the vote store is read. If parents are missing, the answer is without a vote.
-/
def check (committee : Committee K) (context : VoteContext K D) (header : Header K D) :
    Except (DagError K D) Bool := do
  if context.missing ≠ [] then return false
  if header.round < context.narwhalRound - headerAgeLimit then
    throw (.tooOld header.digest header.round context.narwhalRound)
  let stake ← parentStake committee header context.parents [] 0
  if stake < committee.quorumThreshold then throw (.headerRequiresQuorum header.digest)
  context.syncBatches
  if context.now + tolerance ≤ header.createdAt then
    throw (.invalidTimestamp header.createdAt context.now)
  return true

/-- Whether the last vote for the author permits a vote for the header. -/
def decide (context : VoteContext K D) (header : Header K D) :
    Option (VoteInfo D) → Except (DagError K D) Unit
  | none => .ok ()
  | some info =>
    if header.epoch < info.epoch ∨ header.epoch = info.epoch ∧ header.round < info.round then
      .error (.tooOld header.digest header.round context.narwhalRound)
    else if header.epoch = info.epoch ∧ header.round = info.round ∧
        header.digest ≠ info.voteDigest then
      .error (.alreadyVoted info.voteDigest header.round)
    else .ok ()

end VoteRequest

/-- A vote request in flight: verified, decided, or with the vote stored. -/
inductive VoteTask (K D : Type) where
  | requested (header : Header K D)
  | granted (header : Header K D)
  | stored (header : Header K D)

def VoteTask.header : VoteTask K D → Header K D
  | .requested header | .granted header | .stored header => header

/-- A primary as a voter: its epoch, its vote store, and the request in flight from each peer. Only
the store survives a crash. -/
structure Voter (K D : Type) where
  epoch : ℕ
  voteDigestStore : Assoc K (VoteInfo D)
  inflight : Assoc NetworkPublicKey (VoteTask K D)

/-! ## The authorities together -/

/-- What is fixed in a run: the cryptography, the workers and the committee of each epoch. -/
structure VoteSetup (K D : Type) where
  crypto : Crypto K D
  workerCache : WorkerCache K
  committees : ℕ → Committee K

/-- The primaries, and the signatures that were released: votes, and headers that were proposed. -/
structure VoteSystem (K D : Type) where
  voters : K → Voter K D
  signed : List (K × Header K D)

/-- The events at a primary. A request may be cancelled, and a restart, possibly into another epoch,
drops those in flight. -/
inductive VoteEvent (K D : Type) where
  | receive (name : K) (peer : NetworkPublicKey) (header : Header K D)
  | read (name : K) (peer : NetworkPublicKey) (context : VoteContext K D)
  | write (name : K) (peer : NetworkPublicKey)
  | reply (name : K) (peer : NetworkPublicKey)
  | cancel (name : K) (peer : NetworkPublicKey)
  | restart (name : K) (epoch : ℕ)
  | propose (name : K) (header : Header K D)

namespace Voter

/-- Takes up a vote request, unless one from the same peer is in flight. -/
def receive (setup : VoteSetup K D) (voter : Voter K D) (peer : NetworkPublicKey)
    (header : Header K D) : Voter K D :=
  match voter.inflight.lookup peer with
  | some _ => voter
  | none =>
    match VoteRequest.verify setup.crypto setup.workerCache (setup.committees voter.epoch) peer
        header with
    | .error _ => voter
    | .ok () => { voter with inflight := voter.inflight.insert peer (.requested header) }

/-- Reads the vote store and decides. -/
def read (setup : VoteSetup K D) (voter : Voter K D) (peer : NetworkPublicKey)
    (context : VoteContext K D) : Option (Voter K D) :=
  match voter.inflight.lookup peer with
  | some (.requested header) =>
    match VoteRequest.check (setup.committees voter.epoch) context header,
        VoteRequest.decide context header (voter.voteDigestStore.lookup header.author) with
    | .ok true, .ok () =>
      some { voter with inflight := voter.inflight.insert peer (.granted header) }
    | _, _ => some { voter with inflight := voter.inflight.erase peer }
  | _ => none

/-- Stores the vote. -/
def write (voter : Voter K D) (peer : NetworkPublicKey) : Option (Voter K D) :=
  match voter.inflight.lookup peer with
  | some (.granted header) =>
    some
      { voter with
        voteDigestStore := voter.voteDigestStore.insert header.author header.voteInfo
        inflight := voter.inflight.insert peer (.stored header) }
  | _ => none

def cancel (voter : Voter K D) (peer : NetworkPublicKey) : Voter K D :=
  { voter with inflight := voter.inflight.erase peer }

def restart (voter : Voter K D) (epoch : ℕ) : Voter K D :=
  { voter with epoch, inflight := ∅ }

end Voter

namespace VoteSystem

def new (epoch : ℕ) : VoteSystem K D := ⟨fun _ => ⟨epoch, ∅, ∅⟩, []⟩

def update (s : VoteSystem K D) (name : K) (voter : Voter K D) : VoteSystem K D :=
  { s with voters := fun k => if k = name then voter else s.voters k }

omit [DecidableEq D] in
theorem update_self (s : VoteSystem K D) (name : K) (voter : Voter K D) :
    (s.update name voter).voters name = voter :=
  if_pos rfl

def step (setup : VoteSetup K D) (s : VoteSystem K D) : VoteEvent K D → Option (VoteSystem K D)
  | .receive name peer header => some (s.update name ((s.voters name).receive setup peer header))
  | .read name peer context => ((s.voters name).read setup peer context).map (s.update name)
  | .write name peer => ((s.voters name).write peer).map (s.update name)
  | .reply name peer =>
    match (s.voters name).inflight.lookup peer with
    | some (.stored header) =>
      some
        { s.update name ((s.voters name).cancel peer) with
          signed := s.signed ++ [(name, header)] }
    | _ => none
  | .cancel name peer => some (s.update name ((s.voters name).cancel peer))
  | .restart name epoch => some (s.update name ((s.voters name).restart epoch))
  | .propose name header => some { s with signed := s.signed ++ [(name, header)] }

def machine (setup : VoteSetup K D) (epoch : ℕ) : Machine (VoteSystem K D) (VoteEvent K D) where
  start := new epoch
  next := step setup

/-- The authority has signed the digest. -/
def HasSigned (signed : List (K × Header K D)) (name : K) (digest : D) : Prop :=
  ∃ header, (name, header) ∈ signed ∧ header.digest = digest

/-- The authority signs no second header of its own for an epoch and round. -/
def SignsOnce (s : VoteSystem K D) (name : K) (header : Header K D) : Prop :=
  ∀ other, (name, other) ∈ s.signed → other.author = name → other.epoch = header.epoch →
    other.round = header.round → other.digest = header.digest

/-- Only honest authorities take steps, an honest author signs one header for each epoch and round,
and the signature of an honest author on a header is not forged. -/
def Honest (setup : VoteSetup K D) (byzantine : Finset K) (s : VoteSystem K D) :
    VoteEvent K D → Prop
  | .receive name _ header => name ∉ byzantine ∧
    (header.author ∉ byzantine →
      setup.crypto.verify header.author header.digest header.signature = true →
        HasSigned s.signed header.author header.digest)
  | .propose name header => name ∉ byzantine ∧ header.author = name ∧
    header.digest = header.hash setup.crypto ∧ s.SignsOnce name header
  | .read name _ _ | .write name _ | .reply name _ | .cancel name _ | .restart name _ =>
    name ∉ byzantine

end VoteSystem

omit [DecidableEq K] [DecidableEq D] in
/-- The digest of a header binds its author, epoch and round. -/
def Crypto.Binding (crypto : Crypto K D) : Prop :=
  ∀ header header' : Header K D, header.hash crypto = header'.hash crypto →
    header.author = header'.author ∧ header.epoch = header'.epoch ∧ header.round = header'.round

/-! ## What the vote store guarantees -/

namespace VoteInfo

/-- The stored vote is above a header, or for it. -/
def Covers (info : VoteInfo D) (header : Header K D) : Prop :=
  header.epoch < info.epoch ∨ header.epoch = info.epoch ∧
    (header.round < info.round ∨ header.round = info.round ∧ header.digest = info.voteDigest)

/-- The stored vote is below a header, or for it. -/
def Allows (info : VoteInfo D) (header : Header K D) : Prop :=
  info.epoch < header.epoch ∨ info.epoch = header.epoch ∧
    (info.round < header.round ∨ info.round = header.round ∧ header.digest = info.voteDigest)

variable {info : VoteInfo D} {header header' : Header K D}

section

omit [DecidableEq K] [DecidableEq D]

theorem covers_voteInfo (header : Header K D) : header.voteInfo.Covers header :=
  .inr ⟨rfl, .inr ⟨rfl, rfl⟩⟩

theorem digest_eq (hcovers : info.Covers header') (hallows : info.Allows header)
    (hepoch : header'.epoch = header.epoch) (hround : header'.round = header.round) :
    header'.digest = header.digest := by
  rcases hcovers with hlt | ⟨heq, hlt | ⟨heq', hdigest⟩⟩ <;>
    rcases hallows with hlt' | ⟨_, hlt' | ⟨_, hdigest'⟩⟩ <;> first | omega | skip
  rw [hdigest, hdigest']

theorem covers_trans (hcovers : info.Covers header') (hallows : info.Allows header) :
    header.voteInfo.Covers header' := by
  rcases hcovers with hlt | ⟨heq, hlt | ⟨heq', hdigest⟩⟩ <;>
    rcases hallows with hlt' | ⟨heq'', hlt' | ⟨hround, hdigest'⟩⟩ <;>
    simp only [Covers, Header.voteInfo] <;> first | omega | skip
  exact .inr ⟨by omega, .inr ⟨by omega, hdigest.trans hdigest'.symm⟩⟩

end

omit [DecidableEq K] in
theorem allows_of_decide {context : VoteContext K D} {stored : Option (VoteInfo D)}
    (h : VoteRequest.decide context header stored = .ok u) (hstored : stored = some info) :
    info.Allows header := by
  subst hstored
  unfold VoteRequest.decide at h
  dsimp only at h
  split_ifs at h with hold hvoted
  by_cases hepoch : header.epoch = info.epoch
  · by_cases hround : header.round = info.round
    · refine .inr ⟨hepoch.symm, .inr ⟨hround.symm, ?_⟩⟩
      by_contra hdigest
      exact hvoted ⟨hepoch, hround, hdigest⟩
    · exact .inr ⟨hepoch.symm, .inl (by omega)⟩
  · exact .inl (by omega)

end VoteInfo

/-! ## The invariant -/

/-- A verified request: it comes from the author of the header, who has signed it if honest. -/
structure VerifiedRequest (setup : VoteSetup K D) (byzantine : Finset K)
    (signed : List (K × Header K D)) (epoch : ℕ) (peer : NetworkPublicKey) (header : Header K D) :
    Prop where
  keyed : (setup.committees epoch).authorityByNetworkKey peer = some header.author
  hashed : header.digest = header.hash setup.crypto
  genuine : header.author ∉ byzantine → VoteSystem.HasSigned signed header.author header.digest

/-- The store of an honest voter covers every vote released for another author, and a vote about to
be released agrees with those. -/
structure Voter.Sound (setup : VoteSetup K D) (byzantine : Finset K)
    (signed : List (K × Header K D)) (name : K) (voter : Voter K D) : Prop where
  recorded : ∀ header, (name, header) ∈ signed → header.author ≠ name →
    ∃ info, voter.voteDigestStore.lookup header.author = some info ∧ info.Covers header
  verified : ∀ peer task, voter.inflight.lookup peer = some task →
    VerifiedRequest setup byzantine signed voter.epoch peer task.header
  granted : ∀ peer header, voter.inflight.lookup peer = some (.granted header) →
    ∀ info, voter.voteDigestStore.lookup header.author = some info → info.Allows header
  stored : ∀ peer header, voter.inflight.lookup peer = some (.stored header) →
    ∃ info, voter.voteDigestStore.lookup header.author = some info ∧ info.Covers header
  fresh : ∀ peer header, voter.inflight.lookup peer = some (.stored header) →
    header.author ≠ name → ∀ other, (name, other) ∈ signed → other.author = header.author →
      other.epoch = header.epoch → other.round = header.round → other.digest = header.digest

namespace Voter.Sound

variable {setup : VoteSetup K D} {byzantine : Finset K} {signed : List (K × Header K D)} {name : K}
  {voter voter' : Voter K D} {peer peer' : NetworkPublicKey} {task : VoteTask K D}

section

omit [DecidableEq D]

section

variable (h : voter.Sound setup byzantine signed name)

include h

theorem of_subset (hstore : voter'.voteDigestStore = voter.voteDigestStore)
    (hinflight : ∀ peer task, voter'.inflight.lookup peer = some task →
      voter'.epoch = voter.epoch ∧ voter.inflight.lookup peer = some task) :
    voter'.Sound setup byzantine signed name where
  recorded header hheader hne := by
    rw [hstore]
    exact h.recorded header hheader hne
  verified peer task htask := by
    obtain ⟨hepoch, htask⟩ := hinflight peer task htask
    rw [hepoch]
    exact h.verified peer task htask
  granted peer header htask := by
    rw [hstore]
    exact h.granted peer header (hinflight peer _ htask).2
  stored peer header htask := by
    rw [hstore]
    exact h.stored peer header (hinflight peer _ htask).2
  fresh peer header htask := h.fresh peer header (hinflight peer _ htask).2

theorem cancel (peer : NetworkPublicKey) : (voter.cancel peer).Sound setup byzantine signed name :=
  h.of_subset rfl fun _ _ htask => ⟨rfl, Assoc.lookup_of_lookup_erase htask⟩

theorem restart (epoch : ℕ) : (voter.restart epoch).Sound setup byzantine signed name :=
  h.of_subset rfl fun _ _ htask => by cases htask

theorem insert_unstored
    (hverified : VerifiedRequest setup byzantine signed voter.epoch peer task.header)
    (hgranted : ∀ header, task = .granted header → ∀ info,
      voter.voteDigestStore.lookup header.author = some info → info.Allows header)
    (hstored : ∀ header, task ≠ .stored header) :
    Voter.Sound setup byzantine signed name
      { voter with inflight := voter.inflight.insert peer task } where
  recorded := h.recorded
  verified peer' task' htask := by
    rcases Assoc.lookup_insert_cases htask with ⟨rfl, rfl⟩ | htask
    · exact hverified
    · exact h.verified peer' task' htask
  granted peer' header htask := by
    rcases Assoc.lookup_insert_cases htask with ⟨rfl, heq⟩ | htask
    · exact hgranted header heq.symm
    · exact h.granted peer' header htask
  stored peer' header htask := by
    rcases Assoc.lookup_insert_cases htask with ⟨rfl, heq⟩ | htask
    · exact absurd heq.symm (hstored header)
    · exact h.stored peer' header htask
  fresh peer' header htask := by
    rcases Assoc.lookup_insert_cases htask with ⟨rfl, heq⟩ | htask
    · exact absurd heq.symm (hstored header)
    · exact h.fresh peer' header htask

end

end

theorem receive (h : voter.Sound setup byzantine signed name) {header : Header K D}
    (hunforged : header.author ∉ byzantine →
      setup.crypto.verify header.author header.digest header.signature = true →
        VoteSystem.HasSigned signed header.author header.digest) :
    (voter.receive setup peer header).Sound setup byzantine signed name := by
  unfold Voter.receive
  split
  · exact h
  split
  · exact h
  rename_i hverify
  obtain ⟨hheader, hpeer⟩ := VoteRequest.verify_eq_ok hverify
  obtain ⟨-, hdigest, hsignature⟩ := Header.verify_eq_ok hheader
  exact h.insert_unstored ⟨hpeer, hdigest, fun hauthor => hunforged hauthor hsignature⟩ nofun nofun

theorem read (h : voter.Sound setup byzantine signed name) {context : VoteContext K D}
    (hread : voter.read setup peer context = some voter') :
    voter'.Sound setup byzantine signed name := by
  unfold Voter.read at hread
  split at hread
  case h_2 => cases hread
  rename_i header hlookup
  split at hread <;> cases hread
  case h_2 => exact h.cancel peer
  rename_i hdecide
  refine h.insert_unstored (h.verified peer (.requested header) hlookup) ?_ nofun
  intro header' heq info hinfo
  cases heq
  exact VoteInfo.allows_of_decide hdecide hinfo

section

omit [DecidableEq D]

section

variable (h : voter.Sound setup byzantine signed name)

include h

theorem author_ne {task' : VoteTask K D} (htask : voter.inflight.lookup peer = some task)
    (htask' : voter.inflight.lookup peer' = some task') (hne : peer' ≠ peer) :
    task'.header.author ≠ task.header.author := by
  intro heq
  have hkey := (h.verified peer task htask).keyed
  rw [← heq] at hkey
  exact hne (Committee.eq_of_authorityByNetworkKey _ (h.verified peer' task' htask').keyed hkey)

/-- The vote store is written while the requests in flight from other peers are for other authors.
-/
theorem write (hwrite : voter.write peer = some voter') :
    voter'.Sound setup byzantine signed name := by
  unfold Voter.write at hwrite
  split at hwrite <;> cases hwrite
  rename_i header hlookup
  have hcases : ∀ {peer' : NetworkPublicKey} {task : VoteTask K D},
      (voter.inflight.insert peer (.stored header)).lookup peer' = some task →
      (peer' = peer ∧ task = .stored header) ∨
        (voter.inflight.lookup peer' = some task ∧ task.header.author ≠ header.author) := by
    intro peer' task htask
    by_cases hpeer : peer' = peer
    · subst hpeer
      rw [AList.lookup_insert] at htask
      exact .inl ⟨rfl, (Option.some.inj htask).symm⟩
    · rw [AList.lookup_insert_ne hpeer] at htask
      exact .inr ⟨htask, h.author_ne hlookup htask hpeer⟩
  have hother : ∀ {other : Header K D}, other.author ≠ header.author →
      (voter.voteDigestStore.insert header.author header.voteInfo).lookup other.author =
        voter.voteDigestStore.lookup other.author := fun hne => AList.lookup_insert_ne hne
  constructor
  · intro other hvote hne
    obtain ⟨info, hinfo, hcovers⟩ := h.recorded other hvote hne
    by_cases hauthor : other.author = header.author
    · rw [hauthor, AList.lookup_insert]
      rw [hauthor] at hinfo
      exact ⟨_, rfl, VoteInfo.covers_trans hcovers (h.granted peer header hlookup info hinfo)⟩
    · exact ⟨info, (hother hauthor).trans hinfo, hcovers⟩
  · intro peer' task htask
    rcases hcases htask with ⟨rfl, rfl⟩ | ⟨htask, -⟩
    · exact h.verified peer' (.granted header) hlookup
    · exact h.verified peer' task htask
  · intro peer' other htask info hinfo
    rcases hcases htask with ⟨-, heq⟩ | ⟨htask, hne⟩
    · cases heq
    · exact h.granted peer' other htask info ((hother hne).symm.trans hinfo)
  · intro peer' other htask
    rcases hcases htask with ⟨-, heq⟩ | ⟨htask, hne⟩
    · cases heq
      exact ⟨_, AList.lookup_insert _, VoteInfo.covers_voteInfo header⟩
    · obtain ⟨info, hinfo, hcovers⟩ := h.stored peer' other htask
      exact ⟨info, (hother hne).trans hinfo, hcovers⟩
  · intro peer' other htask hname vote hvote hauthor hepoch hround
    rcases hcases htask with ⟨-, heq⟩ | ⟨htask, -⟩
    · cases heq
      obtain ⟨info, hinfo, hcovers⟩ := h.recorded vote hvote (by rwa [hauthor])
      rw [hauthor] at hinfo
      exact VoteInfo.digest_eq hcovers (h.granted peer header hlookup info hinfo) hepoch hround
    · exact h.fresh peer' other htask hname vote hvote hauthor hepoch hround

/-- A signature that is released by another authority, for an own header, or for a vote that is
stored and no longer in flight. -/
theorem sign {signer : K} {header : Header K D}
    (hcovers : signer = name → header.author ≠ name →
      (∃ info, voter.voteDigestStore.lookup header.author = some info ∧ info.Covers header) ∧
        ∀ peer task, voter.inflight.lookup peer = some task → task.header.author ≠ header.author) :
    voter.Sound setup byzantine (signed ++ [(signer, header)]) name where
  recorded other hother hne := by
    rcases List.mem_append.mp hother with hother | hother
    · exact h.recorded other hother hne
    · cases List.mem_singleton.mp hother
      exact (hcovers rfl hne).1
  verified peer task htask := by
    obtain ⟨hkeyed, hhashed, hgenuine⟩ := h.verified peer task htask
    refine ⟨hkeyed, hhashed, fun hauthor => ?_⟩
    obtain ⟨other, hother, hdigest⟩ := hgenuine hauthor
    exact ⟨other, List.mem_append_left _ hother, hdigest⟩
  granted := h.granted
  stored := h.stored
  fresh peer other htask hne vote hvote hauthor := by
    rcases List.mem_append.mp hvote with hvote | hvote
    · exact h.fresh peer other htask hne vote hvote hauthor
    · cases List.mem_singleton.mp hvote
      rw [← hauthor] at hne
      exact absurd hauthor.symm ((hcovers rfl hne).2 peer _ htask)

end

end

end Voter.Sound

namespace VoteSystem

/-- The honest voters are sound, and nobody honest has signed two headers of one author, epoch and
round. -/
structure Sound (setup : VoteSetup K D) (byzantine : Finset K) (s : VoteSystem K D) : Prop where
  voters : ∀ name ∉ byzantine, (s.voters name).Sound setup byzantine s.signed name
  hashed : ∀ name header, (name, header) ∈ s.signed → header.digest = header.hash setup.crypto
  unique : ∀ name header header', (name, header) ∈ s.signed → (name, header') ∈ s.signed →
    header.author = header'.author → header.epoch = header'.epoch →
      header.round = header'.round → header.digest = header'.digest

namespace Sound

variable {setup : VoteSetup K D} {byzantine : Finset K} {s s' : VoteSystem K D} {name : K}

section

omit [DecidableEq D]

theorem new (epoch : ℕ) : Sound setup byzantine (new epoch) where
  voters _ _ := ⟨nofun, nofun, nofun, nofun, nofun⟩
  hashed := nofun
  unique := nofun

theorem update (h : Sound setup byzantine s) {voter : Voter K D}
    (hvoter : voter.Sound setup byzantine s.signed name) :
    Sound setup byzantine (s.update name voter) where
  voters k hk := by
    change Voter.Sound _ _ _ _ (if k = name then voter else s.voters k)
    split_ifs with hname
    · rwa [hname]
    · exact h.voters k hk
  hashed := h.hashed
  unique := h.unique

theorem sign (h : Sound setup byzantine s) {header : Header K D}
    (hvoters : ∀ k ∉ byzantine, (s.voters k).Sound setup byzantine (s.signed ++ [(name, header)]) k)
    (hhashed : header.digest = header.hash setup.crypto)
    (hagrees : ∀ other, (name, other) ∈ s.signed → other.author = header.author →
      other.epoch = header.epoch → other.round = header.round → other.digest = header.digest) :
    Sound setup byzantine { s with signed := s.signed ++ [(name, header)] } where
  voters := hvoters
  hashed k other hother := by
    rcases List.mem_append.mp hother with hother | hother
    · exact h.hashed k other hother
    · cases List.mem_singleton.mp hother
      exact hhashed
  unique k x y hx hy hauthor hepoch hround := by
    rcases List.mem_append.mp hx with hx | hx <;> rcases List.mem_append.mp hy with hy | hy
    · exact h.unique k x y hx hy hauthor hepoch hround
    · cases List.mem_singleton.mp hy
      exact hagrees x hx hauthor hepoch hround
    · cases List.mem_singleton.mp hx
      exact (hagrees y hy hauthor.symm hepoch.symm hround.symm).symm
    · cases List.mem_singleton.mp hx
      cases List.mem_singleton.mp hy
      rfl

theorem reply (hbinding : setup.crypto.Binding) (h : Sound setup byzantine s)
    (hname : name ∉ byzantine) {header : Header K D}
    (htask : (s.voters name).inflight.lookup peer = some (.stored header)) :
    Sound setup byzantine
      { s.update name ((s.voters name).cancel peer) with
        signed := s.signed ++ [(name, header)] } := by
  have hvoter := h.voters name hname
  have hverified := hvoter.verified peer _ htask
  have hcancelled := h.update (hvoter.cancel peer)
  refine hcancelled.sign (fun k hk => ?_) hverified.hashed
    fun other hother hauthor hepoch hround => ?_
  · refine (hcancelled.voters k hk).sign fun hsigner hne => ?_
    subst hsigner
    rw [update_self]
    refine ⟨hvoter.stored peer header htask, fun peer' task htask' => ?_⟩
    by_cases hpeer : peer' = peer
    · rw [hpeer, Voter.cancel, AList.lookup_erase] at htask'
      cases htask'
    · exact hvoter.author_ne htask (Assoc.lookup_of_lookup_erase htask') hpeer
  · by_cases hown : header.author = name
    · -- A vote for an own header: the authority has signed this very header before.
      obtain ⟨mine, hmine, hdigest⟩ := hverified.genuine (by
        change header.author ∉ byzantine
        rwa [hown])
      change (header.author, mine) ∈ s.signed at hmine
      change mine.digest = header.digest at hdigest
      rw [hown] at hmine
      have hsame := hbinding mine header (by
        rw [← h.hashed name mine hmine, hdigest]
        exact hverified.hashed)
      rw [← hdigest]
      exact h.unique name other mine hother hmine (hauthor.trans hsame.1.symm)
        (hepoch.trans hsame.2.1.symm) (hround.trans hsame.2.2.symm)
    · exact hvoter.fresh peer header htask hown other hother hauthor hepoch hround

end

theorem step (hbinding : setup.crypto.Binding) (h : Sound setup byzantine s) {e : VoteEvent K D}
    (hhonest : s.Honest setup byzantine e) (hstep : s.step setup e = some s') :
    Sound setup byzantine s' := by
  cases e with
  | receive name peer header =>
    cases hstep
    exact h.update ((h.voters name hhonest.1).receive hhonest.2)
  | read name peer context =>
    obtain ⟨voter, hread, rfl⟩ := Option.map_eq_some_iff.mp hstep
    exact h.update ((h.voters name hhonest).read hread)
  | write name peer =>
    obtain ⟨voter, hwrite, rfl⟩ := Option.map_eq_some_iff.mp hstep
    exact h.update ((h.voters name hhonest).write hwrite)
  | reply name peer =>
    unfold VoteSystem.step at hstep
    dsimp only at hstep
    split at hstep <;> cases hstep
    exact h.reply hbinding hhonest (by assumption)
  | cancel name peer =>
    cases hstep
    exact h.update ((h.voters name hhonest).cancel peer)
  | restart name epoch =>
    cases hstep
    exact h.update ((h.voters name hhonest).restart epoch)
  | propose name header =>
    cases hstep
    obtain ⟨-, hauthor, hhashed, honce⟩ := hhonest
    refine h.sign (fun k hk => (h.voters k hk).sign fun hsigner hne => ?_) hhashed ?_
    · exact absurd (hauthor.trans hsigner) hne
    · exact fun other hother hother' => honce other hother (hother'.trans hauthor)

end Sound

/-! ## Certificates -/

section Certificates

variable {setup : VoteSetup K D} {byzantine : Finset K} {s : VoteSystem K D}

/-- Whoever honest is among the signers of the certificate has signed its digest. -/
def Unforged (setup : VoteSetup K D) (byzantine : Finset K) (s : VoteSystem K D)
    (certificate : SignedCertificate K D) : Prop :=
  ∀ names, setup.crypto.verifyAggregate names certificate.digest certificate.aggregatedSignature =
    true → ∀ name ∈ names, name ∉ byzantine → HasSigned s.signed name certificate.digest

omit [DecidableEq D] in
theorem Sound.digest_eq (hbinding : setup.crypto.Binding) (h : Sound setup byzantine s) {name : K}
    {c c' : Certificate K D} (hhash : c.digest = c.header.hash setup.crypto)
    (hhash' : c'.digest = c'.header.hash setup.crypto)
    (hsigned : HasSigned s.signed name c.digest) (hsigned' : HasSigned s.signed name c'.digest)
    (horigin : c.origin = c'.origin) (hepoch : c.epoch = c'.epoch) (hround : c.round = c'.round) :
    c.digest = c'.digest := by
  obtain ⟨header, hmem, hdigest⟩ := hsigned
  obtain ⟨header', hmem', hdigest'⟩ := hsigned'
  have hsame := hbinding header c.header (by rw [← h.hashed name header hmem, hdigest, hhash])
  have hsame' := hbinding header' c'.header
    (by rw [← h.hashed name header' hmem', hdigest', hhash'])
  rw [← hdigest, ← hdigest']
  exact h.unique name header header' hmem hmem' ((hsame.1.trans horigin).trans hsame'.1.symm)
    ((hsame.2.1.trans hepoch).trans hsame'.2.1.symm)
    ((hsame.2.2.trans hround).trans hsame'.2.2.symm)

/-- With a Byzantine stake of at most the total minus a quorum and no overflow, two certificates
that verify and have the same author, epoch and round certify the same header. -/
theorem certificates_agree (hbinding : setup.crypto.Binding)
    (hcommittees : ∀ e, (setup.committees e).epoch = e)
    (hstake : ∀ e, 2 * (setup.committees e).allStake < 2 ^ 64)
    (hbyzantine : ∀ e, ∑ name ∈ byzantine, (setup.committees e).stake name ≤
      (setup.committees e).totalStake - (setup.committees e).quorumThreshold)
    {epoch : ℕ} (hreached : (machine setup epoch).Reached (Honest setup byzantine) s)
    {c c' : SignedCertificate K D} {e e' : ℕ} (hunforged : Unforged setup byzantine s c)
    (hunforged' : Unforged setup byzantine s c')
    (hverify : c.verify setup.crypto setup.workerCache (setup.committees e) = .ok ())
    (hverify' : c'.verify setup.crypto setup.workerCache (setup.committees e') = .ok ())
    (hgenesis : ¬c.IsGenesis setup.crypto (setup.committees e))
    (hgenesis' : ¬c'.IsGenesis setup.crypto (setup.committees e'))
    (horigin : c.origin = c'.origin) (hepoch : c.epoch = c'.epoch) (hround : c.round = c'.round) :
    c.digest = c'.digest := by
  have hsound : Sound setup byzantine s := Machine.Reached.invariant (.new epoch)
    (fun _ _ _ hs hhonest hstep => hs.step hbinding hhonest hstep) hreached
  obtain ⟨hcepoch, hhash, hquorum, hsigners⟩ := SignedCertificate.verify_eq_ok hverify hgenesis
  obtain ⟨hcepoch', hhash', hquorum', hsigners'⟩ :=
    SignedCertificate.verify_eq_ok hverify' hgenesis'
  rw [hcommittees] at hcepoch hcepoch'
  have heq : e' = e := hcepoch'.symm.trans (hepoch.symm.trans hcepoch)
  subst heq
  have hbound := hbyzantine e'
  have hlarge := Committee.allStake_add_lt_quorum_add_quorum (hstake e')
  have hnodup : (c.signedBy (setup.committees e')).2.Nodup := SignedCertificate.signedBy_nodup
  have hnodup' : (c'.signedBy (setup.committees e')).2.Nodup := SignedCertificate.signedBy_nodup
  obtain ⟨name, hname, hname', hhonest, -⟩ := (setup.committees e').exists_mem_both hnodup hnodup'
    byzantine (by omega)
  exact hsound.digest_eq hbinding hhash hhash' (hunforged _ hsigners name hname hhonest)
    (hunforged' _ hsigners' name hname' hhonest) horigin hepoch hround

end Certificates

/-! ## A run in which the votes of a round are collected -/

instance (signed : List (K × Header K D)) (name : K) (digest : D) :
    Decidable (HasSigned signed name digest) :=
  decidable_of_iff (∃ e ∈ signed, e.1 = name ∧ e.2.digest = digest)
    ⟨fun ⟨e, he, hname, hdigest⟩ => ⟨e.2, hname ▸ he, hdigest⟩,
      fun ⟨_, hheader, hdigest⟩ => ⟨_, hheader, rfl, hdigest⟩⟩

instance (s : VoteSystem K D) (name : K) (header : Header K D) :
    Decidable (s.SignsOnce name header) :=
  decidable_of_iff (∀ e ∈ s.signed, e.1 = name → e.2.author = name → e.2.epoch = header.epoch →
    e.2.round = header.round → e.2.digest = header.digest)
    ⟨fun h _ hother => h _ hother rfl, fun h e he hname => h e.2 (hname ▸ he)⟩

instance (setup : VoteSetup K D) (byzantine : Finset K) (s : VoteSystem K D) :
    ∀ e, Decidable (s.Honest setup byzantine e)
  | .receive name _ header => inferInstanceAs (Decidable (name ∉ byzantine ∧
      (header.author ∉ byzantine →
        setup.crypto.verify header.author header.digest header.signature = true →
          HasSigned s.signed header.author header.digest)))
  | .propose name header => inferInstanceAs (Decidable (name ∉ byzantine ∧ header.author = name ∧
      header.digest = header.hash setup.crypto ∧ s.SignsOnce name header))
  | .read name _ _ | .write name _ | .reply name _ | .cancel name _ | .restart name _ =>
    inferInstanceAs (Decidable (name ∉ byzantine))

end VoteSystem

namespace Sample

/-- The digest of a header is its author, round and epoch. The fourth authority is Byzantine. -/
def voteSetup : VoteSetup (Fin 4) (Fin 4 × ℕ × ℕ) where
  crypto :=
    { hash := fun author round epoch _ _ _ => (author, round, epoch)
      verify := fun _ _ _ => true
      verifyAggregate := fun names _ _ => names.all (· ≠ 3) }
  workerCache _ := []
  committees epoch := { committee with epoch }

def voteHeader : Header (Fin 4) (Fin 4 × ℕ × ℕ) where
  author := 0
  round := 1
  epoch := 0
  createdAt := 0
  payload := []
  parents := [(0, 0, 0), (1, 0, 0), (2, 0, 0)]
  digest := (0, 1, 0)
  signature := []

/-- The genesis certificates of three authorities are known. -/
def voteContext : VoteContext (Fin 4) (Fin 4 × ℕ × ℕ) where
  narwhalRound := 0
  parents := (Certificate.genesis voteSetup.crypto committee).take 3
  missing := []
  syncBatches := .ok ()
  now := 0

/-- An authority votes for the header. -/
def vote (name : Fin 4) : List (VoteEvent (Fin 4) (Fin 4 × ℕ × ℕ)) :=
  [.receive name [0] voteHeader, .read name [0] voteContext, .write name [0], .reply name [0]]

/-- One authority votes for the header, restarts and votes again, another crashes before it has
replied and votes after its restart. -/
def votes : VoteSystem (Fin 4) (Fin 4 × ℕ × ℕ) :=
  (VoteSystem.machine voteSetup 0).after (.new 0) ([.propose 0 voteHeader] ++ vote 1 ++
    [.restart 1 0] ++ vote 1 ++ (vote 2).take 3 ++ [.restart 2 0] ++ vote 2)

def voteCertificate (signature : Signature) : SignedCertificate (Fin 4) (Fin 4 × ℕ × ℕ) where
  header := voteHeader
  aggregatedSignature := signature
  signedAuthorities := [0, 1, 2]

end Sample

namespace VoteSystem

/-- Two certificates of the same votes, with different bytes as their aggregated signatures. -/
theorem certificates_agree_sample :
    let c := Sample.voteCertificate [1]
    let c' := Sample.voteCertificate [2]
    c.verify Sample.voteSetup.crypto Sample.voteSetup.workerCache (Sample.voteSetup.committees 0) =
      .ok () ∧ c.digest = c'.digest := by
  intro c c'
  have hreached : (machine Sample.voteSetup 0).Reached (Honest Sample.voteSetup {3}) Sample.votes :=
    Machine.Reached.start.after (by decide +kernel)
  have hunforged : ∀ c : SignedCertificate (Fin 4) (Fin 4 × ℕ × ℕ), c.digest = (0, 1, 0) →
      Unforged Sample.voteSetup {3} Sample.votes c := by
    intro c hc names hnames name hname hhonest
    have hsigned : ∀ name : Fin 4, name ∉ ({3} : Finset (Fin 4)) →
        HasSigned Sample.votes.signed name (0, 1, 0) := by decide +kernel
    rw [hc]
    exact hsigned name hhonest
  have hverify : ∀ signature, (Sample.voteCertificate signature).verify Sample.voteSetup.crypto
      Sample.voteSetup.workerCache (Sample.voteSetup.committees 0) = .ok () := fun _ => rfl
  have hbinding : Sample.voteSetup.crypto.Binding := by
    intro header header' h
    simp only [Header.hash, Sample.voteSetup, Prod.mk.injEq] at h
    exact ⟨h.1, h.2.2, h.2.1⟩
  refine ⟨hverify [1], VoteSystem.certificates_agree hbinding (fun _ => rfl)
    (fun _ => Sample.committee_stake) ?_ hreached (hunforged c rfl) (hunforged c' rfl)
    (hverify [1]) (hverify [2]) ?_ ?_ rfl rfl rfl⟩
  · intro e
    change ∑ name ∈ {3}, Sample.committee.stake name ≤
      Sample.committee.totalStake - Sample.committee.quorumThreshold
    decide +kernel
  · rintro ⟨h, -⟩
    cases h
  · rintro ⟨h, -⟩
    cases h

end VoteSystem

namespace Sample

/-- The digest of a header is its author, round, epoch and time. The first authority is
Byzantine. -/
def overflowSetup : VoteSetup (Fin 4) (Fin 4 × ℕ × ℕ × ℕ) where
  crypto :=
    { hash := fun author round epoch createdAt _ _ => (author, round, epoch, createdAt)
      verify := fun _ _ _ => true
      verifyAggregate := fun names _ _ => names.all (· = 0) }
  workerCache _ := []
  committees epoch := { overflowing with epoch }

/-- A certificate with the signature of its author only. -/
def loneCertificate (createdAt : ℕ) : SignedCertificate (Fin 4) (Fin 4 × ℕ × ℕ × ℕ) where
  header :=
    { author := 0, round := 1, epoch := 0, createdAt, payload := [], parents := [],
      digest := (0, 1, 0, createdAt), signature := [] }
  aggregatedSignature := []
  signedAuthorities := [0]

end Sample

namespace VoteSystem

/-- The Byzantine authority certifies two headers of one round on its own, since twice the total
stake wraps around. -/
theorem overflow_equivocates :
    let setup := Sample.overflowSetup
    let c := Sample.loneCertificate 0
    let c' := Sample.loneCertificate 1
    setup.crypto.Binding ∧ (∀ e, (setup.committees e).epoch = e) ∧
      (∀ e, ∑ name ∈ {0}, (setup.committees e).stake name ≤
        (setup.committees e).totalStake - (setup.committees e).quorumThreshold) ∧
      (machine setup 0).Reached (Honest setup {0}) (new 0) ∧
      (∀ c, Unforged setup {0} (new 0) c) ∧
      c.verify setup.crypto setup.workerCache (setup.committees 0) = .ok () ∧
      c'.verify setup.crypto setup.workerCache (setup.committees 0) = .ok () ∧
      c.origin = c'.origin ∧ c.epoch = c'.epoch ∧ c.round = c'.round ∧ c.round = 1 ∧
      c.digest ≠ c'.digest := by
  intro setup c c'
  refine ⟨fun header header' h => ?_, fun _ => rfl, fun e => ?_, .start,
    fun c names hnames name hname => ?_, by decide +kernel, by decide +kernel, rfl, rfl, rfl, rfl,
    by decide⟩
  · simp only [Header.hash, setup, Sample.overflowSetup, Prod.mk.injEq] at h
    exact ⟨h.1, h.2.2.1, h.2.1⟩
  · change ∑ name ∈ {0}, Sample.overflowing.stake name ≤
      Sample.overflowing.totalStake - Sample.overflowing.quorumThreshold
    decide +kernel
  · have hzero : name = 0 := by simpa using List.all_eq_true.mp hnames name hname
    exact fun hhonest => absurd (Finset.mem_singleton.mpr hzero) hhonest

end VoteSystem

end Narwhal

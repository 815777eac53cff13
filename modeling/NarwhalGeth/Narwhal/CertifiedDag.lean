import NarwhalGeth.Narwhal.Digest
import NarwhalGeth.Narwhal.Votes

/-!
# The parents of certified headers

A primary votes for a header only if the certificates that it names as parents are of the previous
round, of distinct authors and hold a quorum. A certificate itself is not verified against its
parents: it has such parents because an honest authority signed its header, as far as the digest
binds them.
-/

namespace Narwhal

variable {K D : Type} [DecidableEq K] [DecidableEq D] {peer : NetworkPublicKey}
  {parent : Certificate K D} {header : Header K D} {voter : Voter K D} {name : K}

/-! ## The parents of a header in the store -/

/-- The certificate of a parent: a genesis certificate for a header of round one, and otherwise one
of the store. -/
def parentCertificate (crypto : Crypto K D) (committee : Committee K)
    (store : Assoc D (SignedCertificate K D)) (header : Header K D) (digest : D) :
    Option (Certificate K D) :=
  if header.round = 1 then
    (Certificate.genesis crypto committee).find? fun certificate => certificate.digest = digest
  else (store.lookup digest).map SignedCertificate.toCertificate

/-- The parents that are there, and the digests of those that are missing. -/
def getParents (crypto : Crypto K D) (committee : Committee K)
    (store : Assoc D (SignedCertificate K D)) (header : Header K D) :
    List (Certificate K D) × List D :=
  (header.parents.filterMap (parentCertificate crypto committee store header),
    header.parents.filter fun digest =>
      (parentCertificate crypto committee store header digest).isNone)

/-- No parent is missing, and they pass the check of rounds, authors and stake. -/
def checkParents (committee : Committee K) (header : Header K D)
    (found : List (Certificate K D) × List D) : Bool :=
  found.2.isEmpty &&
    match VoteRequest.parentStake committee header found.1 [] 0 with
    | .ok stake => decide (committee.quorumThreshold ≤ stake)
    | .error _ => false

/-! ## The primaries with their stores -/

/-- The primaries as voters, and their certificate stores. `accepted` records who wrote which
certificate. -/
structure DagSystem (K D : Type) where
  votes : VoteSystem K D
  stores : K → Assoc D (SignedCertificate K D)
  accepted : List (K × SignedCertificate K D)

/-- A primary takes a step as a voter, accepts a certificate or deletes one. -/
inductive DagEvent (K D : Type) where
  | vote (e : VoteEvent K D)
  | accept (name : K) (certificate : SignedCertificate K D)
  | delete (name : K) (digest : D)

namespace DagSystem

def new (epoch : ℕ) : DagSystem K D := ⟨.new epoch, fun _ => ∅, []⟩

def committeeOf (setup : VoteSetup K D) (s : DagSystem K D) (name : K) : Committee K :=
  setup.committees (s.votes.voters name).epoch

def parentsOf (setup : VoteSetup K D) (s : DagSystem K D) (name : K) (header : Header K D) :
    List (Certificate K D) × List D :=
  getParents setup.crypto (s.committeeOf setup name) (s.stores name) header

/-- What the handler of a vote request finds, with the parents from the store. -/
def context (setup : VoteSetup K D) (s : DagSystem K D) (name : K) (peer : NetworkPublicKey)
    (context : VoteContext K D) : VoteContext K D :=
  match (s.votes.voters name).inflight.lookup peer with
  | some task =>
    { context with
      parents := (s.parentsOf setup name task.header).1
      missing := (s.parentsOf setup name task.header).2 }
  | none => context

def voteEvent (setup : VoteSetup K D) (s : DagSystem K D) : VoteEvent K D → VoteEvent K D
  | .read name peer context => .read name peer (s.context setup name peer context)
  | e => e

/-- A certificate is verified before it is accepted. -/
def accept (setup : VoteSetup K D) (s : DagSystem K D) (name : K)
    (certificate : SignedCertificate K D) : Option (DagSystem K D) :=
  match certificate.verify setup.crypto setup.workerCache (s.committeeOf setup name) with
  | .error _ => none
  | .ok () =>
    some
      { s with
        stores := fun k =>
          if k = name then (s.stores name).insert certificate.digest certificate else s.stores k
        accepted := s.accepted ++ [(name, certificate)] }

def delete (s : DagSystem K D) (name : K) (digest : D) : DagSystem K D :=
  { s with stores := fun k => if k = name then (s.stores name).erase digest else s.stores k }

def step (setup : VoteSetup K D) (s : DagSystem K D) :
    DagEvent K D → Option (DagSystem K D)
  | .vote e => (s.votes.step setup (s.voteEvent setup e)).map fun votes => { s with votes }
  | .accept name certificate => s.accept setup name certificate
  | .delete name digest => some (s.delete name digest)

def machine (setup : VoteSetup K D) (epoch : ℕ) :
    Machine (DagSystem K D) (DagEvent K D) where
  start := new epoch
  next := step setup

/-- Only honest authorities take steps. What they vote for is decided by the handler of vote
requests, and what one of them proposes passes the same check. -/
def Honest (setup : VoteSetup K D) (byzantine : Finset K) (s : DagSystem K D) :
    DagEvent K D → Prop
  | .vote (.propose name header) => name ∉ byzantine ∧
    header.digest = header.hash setup.crypto ∧
    header.epoch = (s.votes.voters name).epoch ∧
    checkParents (s.committeeOf setup name) header (s.parentsOf setup name header) = true
  | .vote (.receive name _ _) | .vote (.read name _ _) | .vote (.write name _)
  | .vote (.reply name _) | .vote (.cancel name _) | .vote (.restart name _)
  | .accept name _ | .delete name _ => name ∉ byzantine

end DagSystem

/-! ## What the check of the parents establishes -/

/-- The parents are certificates of the previous round, of distinct authors and with a quorum, each
verified and stored by an honest authority. In round one they are genesis certificates. -/
structure QuorumOfParents (setup : VoteSetup K D) (byzantine : Finset K)
    (accepted : List (K × SignedCertificate K D)) (header : Header K D)
    (parents : List (Certificate K D)) : Prop where
  digests : parents.map Certificate.digest = header.parents
  rounds : ∀ parent ∈ parents, parent.round + 1 = header.round
  origins : (parents.map Certificate.origin).Nodup
  quorum : (setup.committees header.epoch).quorumThreshold ≤
    (parents.map fun parent => (setup.committees header.epoch).stake parent.origin).sum
  genesis : header.round = 1 → ∀ parent ∈ parents,
    parent ∈ Certificate.genesis setup.crypto (setup.committees header.epoch)
  stored : header.round ≠ 1 → ∀ parent ∈ parents, ∃ name ∉ byzantine, ∃ certificate,
    (name, certificate) ∈ accepted ∧ certificate.toCertificate = parent ∧
      ∃ e, certificate.verify setup.crypto setup.workerCache (setup.committees e) = .ok ()

/-- The header has such parents. -/
def Justified (setup : VoteSetup K D) (byzantine : Finset K)
    (accepted : List (K × SignedCertificate K D)) (header : Header K D) : Prop :=
  ∃ parents, QuorumOfParents setup byzantine accepted header parents

namespace VoteRequest

variable {committee : Committee K} {header : Header K D}

omit [DecidableEq D] in
theorem parentStake_eq_ok {parents : List (Certificate K D)} {authorities : List K}
    {stake total : ℕ} (h : parentStake committee header parents authorities stake = .ok total) :
    (∀ parent ∈ parents, parent.round + 1 = header.round) ∧
      (parents.map Certificate.origin).Nodup ∧
      (∀ parent ∈ parents, parent.origin ∉ authorities) ∧
      total ≤ stake + (parents.map fun parent => committee.stake parent.origin).sum := by
  induction parents generalizing authorities stake with
  | nil =>
    cases h
    simp
  | cons parent parents ih =>
    rw [parentStake] at h
    split_ifs at h with hround hused
    obtain ⟨hrounds, hnodup, hunused, htotal⟩ := ih h
    refine ⟨List.forall_mem_cons.mpr ⟨not_not.mp hround, hrounds⟩, ?_, ?_, ?_⟩
    · rw [List.map_cons, List.nodup_cons, List.mem_map]
      refine ⟨?_, hnodup⟩
      rintro ⟨other, hother, heq⟩
      exact hunused other hother (heq ▸ List.mem_cons_self)
    · refine List.forall_mem_cons.mpr ⟨hused, fun other hother hmem => ?_⟩
      exact hunused other hother (List.mem_cons_of_mem _ hmem)
    · have hle := Nat.mod_le (stake + committee.stake parent.origin) (2 ^ 64)
      rw [List.map_cons, List.sum_cons]
      omega

omit [DecidableEq D] in
theorem checkParents_of_check {context : VoteContext K D}
    (h : check committee context header = .ok true) :
    checkParents committee header (context.parents, context.missing) = true := by
  by_cases hmissing : context.missing = []
  · by_cases hage : header.round < context.narwhalRound - headerAgeLimit
    · simp [check, hmissing, hage, throw, throwThe, MonadExceptOf.throw, bind, Except.bind] at h
    · cases hstake : parentStake committee header context.parents [] 0 with
      | error e => simp [check, hmissing, hage, hstake, bind, Except.bind] at h
      | ok stake =>
        by_cases hquorum : stake < committee.quorumThreshold
        · simp [check, hmissing, hage, hstake, hquorum, throw, throwThe, MonadExceptOf.throw, bind,
            Except.bind] at h
        · simp [checkParents, hmissing, hstake, not_lt.mp hquorum]
  · simp [check, hmissing, pure, Except.pure] at h

end VoteRequest

section Parents

variable {crypto : Crypto K D} {committee : Committee K}
  {store : Assoc D (SignedCertificate K D)} {header : Header K D}

section

omit [DecidableEq K]

theorem digest_of_parentCertificate
    (hstore : ∀ digest certificate, store.lookup digest = some certificate →
      certificate.digest = digest) {digest : D}
    (h : parentCertificate crypto committee store header digest = some parent) :
    parent.digest = digest := by
  unfold parentCertificate at h
  split_ifs at h
  · simpa using List.find?_some h
  · obtain ⟨certificate, hlookup, rfl⟩ := Option.map_eq_some_iff.mp h
    exact hstore digest certificate hlookup

theorem map_digest_getParents
    (hstore : ∀ digest certificate, store.lookup digest = some certificate →
      certificate.digest = digest)
    (hmissing : (getParents crypto committee store header).2 = []) :
    (getParents crypto committee store header).1.map Certificate.digest = header.parents := by
  unfold getParents at hmissing ⊢
  simp only at hmissing ⊢
  rw [List.map_filterMap]
  rw [List.filter_eq_nil_iff] at hmissing
  conv_rhs => rw [← List.filterMap_some (l := header.parents)]
  refine List.filterMap_congr fun digest hdigest => ?_
  obtain ⟨parent, hparent⟩ := Option.ne_none_iff_exists'.mp
    (by simpa using hmissing digest hdigest)
  rw [hparent, Option.map_some, digest_of_parentCertificate hstore hparent]

theorem mem_getParents (h : parent ∈ (getParents crypto committee store header).1) :
    ∃ digest, parentCertificate crypto committee store header digest = some parent := by
  obtain ⟨digest, -, hparent⟩ := List.mem_filterMap.mp h
  exact ⟨digest, hparent⟩

end

end Parents

/-! ## Every signed header is justified -/

section Justified

variable {setup : VoteSetup K D} {byzantine : Finset K}
  {accepted accepted' : List (K × SignedCertificate K D)} {header header' : Header K D}

theorem Justified.mono (h : Justified setup byzantine accepted header)
    (hsubset : accepted ⊆ accepted') : Justified setup byzantine accepted' header := by
  obtain ⟨parents, hparents⟩ := h
  refine ⟨parents, { hparents with stored := fun hround parent hparent => ?_ }⟩
  obtain ⟨name, hname, certificate, hmem, heq, hverify⟩ := hparents.stored hround parent hparent
  exact ⟨name, hname, certificate, hsubset hmem, heq, hverify⟩

theorem Justified.congr (h : Justified setup byzantine accepted header)
    (hsame : header.SameContents header') : Justified setup byzantine accepted header' := by
  obtain ⟨parents, hparents⟩ := h
  have hround := hsame.round
  have hepoch := hsame.epoch
  refine ⟨parents, ⟨?_, ?_, hparents.origins, ?_, ?_, ?_⟩⟩
  · rw [hparents.digests, hsame.parents]
  · rw [← hround]
    exact hparents.rounds
  · rw [← hepoch]
    exact hparents.quorum
  · rw [← hround, ← hepoch]
    exact hparents.genesis
  · rw [← hround]
    exact hparents.stored

end Justified

namespace DagSystem

variable {setup : VoteSetup K D} {byzantine : Finset K} {s s' : DagSystem K D}

/-- What is known of the vote requests of a primary that are in flight. -/
structure VoterSound (setup : VoteSetup K D) (byzantine : Finset K)
    (accepted : List (K × SignedCertificate K D)) (voter : Voter K D) : Prop where
  verified : ∀ peer task, voter.inflight.lookup peer = some task →
    task.header.epoch = voter.epoch ∧ task.header.digest = task.header.hash setup.crypto
  granted : ∀ peer header, voter.inflight.lookup peer = some (.granted header) →
    Justified setup byzantine accepted header
  stored : ∀ peer header, voter.inflight.lookup peer = some (.stored header) →
    Justified setup byzantine accepted header

/-- Stored certificates were verified by honest primaries, and what is signed is justified. -/
structure Sound (setup : VoteSetup K D) (byzantine : Finset K) (s : DagSystem K D) : Prop where
  verified : ∀ name certificate, (name, certificate) ∈ s.accepted → name ∉ byzantine ∧
    ∃ e, certificate.verify setup.crypto setup.workerCache (setup.committees e) = .ok ()
  stores : ∀ name digest certificate, (s.stores name).lookup digest = some certificate →
    (name, certificate) ∈ s.accepted ∧ certificate.digest = digest
  voters : ∀ name, VoterSound setup byzantine s.accepted (s.votes.voters name)
  signed : ∀ name header, (name, header) ∈ s.votes.signed →
    header.digest = header.hash setup.crypto ∧ Justified setup byzantine s.accepted header

/-- The check of the parents against the store of an honest primary justifies a header. -/
theorem Sound.justified (h : Sound setup byzantine s)
    (hepoch : header.epoch = (s.votes.voters name).epoch)
    (hcheck : checkParents (s.committeeOf setup name) header (s.parentsOf setup name header) =
      true) : Justified setup byzantine s.accepted header := by
  have hstore := fun digest certificate hlookup => (h.stores name digest certificate hlookup).2
  rw [checkParents, Bool.and_eq_true, List.isEmpty_iff] at hcheck
  obtain ⟨hmissing, hcheck⟩ := hcheck
  split at hcheck
  · rename_i stake hstake
    obtain ⟨hrounds, hnodup, -, hsum⟩ := VoteRequest.parentStake_eq_ok hstake
    have hquorum := (of_decide_eq_true hcheck).trans hsum
    rw [Nat.zero_add, committeeOf, ← hepoch] at hquorum
    refine ⟨_, map_digest_getParents hstore hmissing, hrounds, hnodup, hquorum, ?_, ?_⟩
    · intro hround parent hparent
      obtain ⟨digest, hfound⟩ := mem_getParents hparent
      rw [parentCertificate, if_pos hround, committeeOf, ← hepoch] at hfound
      exact List.mem_of_find?_eq_some hfound
    · intro hround parent hparent
      obtain ⟨digest, hfound⟩ := mem_getParents hparent
      rw [parentCertificate, if_neg hround] at hfound
      obtain ⟨certificate, hlookup, heq⟩ := Option.map_eq_some_iff.mp hfound
      have hmem := (h.stores name digest certificate hlookup).1
      obtain ⟨hhonest, hverified⟩ := h.verified name certificate hmem
      exact ⟨name, hhonest, certificate, hmem, heq, hverified⟩
  · cases hcheck

namespace VoterSound

variable {accepted accepted' : List (K × SignedCertificate K D)} {voter voter' : Voter K D}

section

variable (h : VoterSound setup byzantine accepted voter)

include h

theorem mono (hsubset : accepted ⊆ accepted') : VoterSound setup byzantine accepted' voter where
  verified := h.verified
  granted peer header hlookup := (h.granted peer header hlookup).mono hsubset
  stored peer header hlookup := (h.stored peer header hlookup).mono hsubset

theorem erase (peer : NetworkPublicKey) :
    VoterSound setup byzantine accepted
      { voter with inflight := voter.inflight.erase peer } where
  verified other task hlookup := h.verified other task (Assoc.lookup_of_lookup_erase hlookup)
  granted other header hlookup := h.granted other header (Assoc.lookup_of_lookup_erase hlookup)
  stored other header hlookup := h.stored other header (Assoc.lookup_of_lookup_erase hlookup)

theorem insert (task : VoteTask K D) (hepoch : task.header.epoch = voter.epoch)
    (hdigest : task.header.digest = task.header.hash setup.crypto)
    (hjustified : (∃ header, task = .requested header) ∨
      Justified setup byzantine accepted task.header) (peer : NetworkPublicKey)
    (voteDigestStore : Assoc K (VoteInfo D)) :
    VoterSound setup byzantine accepted
      { voter with voteDigestStore, inflight := voter.inflight.insert peer task } := by
  have hlookup : ∀ other task', (voter.inflight.insert peer task).lookup other = some task' →
      task' = task ∨ voter.inflight.lookup other = some task' := by
    intro other task' hother
    by_cases heq : other = peer
    · subst heq
      rw [AList.lookup_insert] at hother
      exact .inl (Option.some.inj hother).symm
    · rw [AList.lookup_insert_ne heq] at hother
      exact .inr hother
  refine ⟨fun other task' hother => ?_, fun other header hother => ?_,
    fun other header hother => ?_⟩
  · rcases hlookup other task' hother with rfl | hold
    · exact ⟨hepoch, hdigest⟩
    · exact h.verified other task' hold
  · rcases hlookup other _ hother with rfl | hold
    · obtain ⟨_, heq⟩ | hjustified := hjustified
      · cases heq
      · exact hjustified
    · exact h.granted other header hold
  · rcases hlookup other _ hother with rfl | hold
    · obtain ⟨_, heq⟩ | hjustified := hjustified
      · cases heq
      · exact hjustified
    · exact h.stored other header hold

theorem receive (hcommittees : ∀ e, (setup.committees e).epoch = e) (peer : NetworkPublicKey)
    (header : Header K D) :
    VoterSound setup byzantine accepted (voter.receive setup peer header) := by
  unfold Voter.receive
  split
  · exact h
  · split
    · exact h
    · rename_i hverify
      obtain ⟨hheader, -⟩ := VoteRequest.verify_eq_ok hverify
      obtain ⟨hepoch, hdigest, -⟩ := Header.verify_eq_ok hheader
      rw [hcommittees] at hepoch
      exact h.insert (.requested header) hepoch hdigest (.inl ⟨header, rfl⟩) peer _

theorem write (hwrite : voter.write peer = some voter') :
    VoterSound setup byzantine accepted voter' := by
  unfold Voter.write at hwrite
  split at hwrite
  · rename_i header hlookup
    cases hwrite
    obtain ⟨hepoch, hdigest⟩ := h.verified peer _ hlookup
    exact h.insert (.stored header) hepoch hdigest (.inr (h.granted peer header hlookup)) peer _
  · cases hwrite

end

theorem restart (voter : Voter K D) (epoch : ℕ) :
    VoterSound setup byzantine accepted (voter.restart epoch) := by
  constructor <;>
  · intro peer _ hlookup
    rw [Voter.restart, AList.lookup_empty] at hlookup
    cases hlookup

end VoterSound

namespace Sound

theorem new (epoch : ℕ) : Sound setup byzantine (.new epoch) where
  verified _ _ hmem := by cases hmem
  stores _ _ _ hlookup := by
    rw [DagSystem.new, AList.lookup_empty] at hlookup
    cases hlookup
  voters name := VoterSound.restart ((VoteSystem.new epoch).voters name) epoch
  signed _ _ hmem := by cases hmem

section

variable (h : Sound setup byzantine s)

include h

theorem update (hvoter : VoterSound setup byzantine s.accepted voter) :
    Sound setup byzantine { s with votes := s.votes.update name voter } := by
  refine { h with voters := fun k => ?_ }
  change VoterSound setup byzantine s.accepted (if k = name then voter else s.votes.voters k)
  split_ifs
  · exact hvoter
  · exact h.voters k

theorem sign (hdigest : header.digest = header.hash setup.crypto)
    (hjustified : Justified setup byzantine s.accepted header) :
    Sound setup byzantine
      { s with votes := { s.votes with signed := s.votes.signed ++ [(name, header)] } } := by
  refine { h with signed := fun k other hmem => ?_ }
  rcases List.mem_append.mp hmem with hold | hnew
  · exact h.signed k other hold
  · cases List.mem_singleton.mp hnew
    exact ⟨hdigest, hjustified⟩

theorem read {context : VoteContext K D}
    (hread : (s.votes.voters name).read setup peer (s.context setup name peer context) = some voter)
    : VoterSound setup byzantine s.accepted voter := by
  unfold Voter.read at hread
  split at hread
  · rename_i header hlookup
    have hcontext : ((s.context setup name peer context).parents,
        (s.context setup name peer context).missing) = s.parentsOf setup name header := by
      rw [DagSystem.context, hlookup]
      rfl
    obtain ⟨hepoch, hdigest⟩ := (h.voters name).verified peer _ hlookup
    split at hread
    · rename_i hcheck _
      cases hread
      have hparents := VoteRequest.checkParents_of_check hcheck
      rw [hcontext] at hparents
      exact (h.voters name).insert (.granted header) hepoch hdigest
        (.inr (h.justified hepoch hparents)) peer _
    · cases hread
      exact (h.voters name).erase peer
  · cases hread

theorem accept (hname : name ∉ byzantine) {certificate : SignedCertificate K D}
    (haccept : s.accept setup name certificate = some s') : Sound setup byzantine s' := by
  unfold DagSystem.accept at haccept
  split at haccept
  · cases haccept
  · rename_i hverify
    cases haccept
    have hsubset : s.accepted ⊆ s.accepted ++ [(name, certificate)] :=
      List.subset_append_left _ _
    refine ⟨fun k other hmem => ?_, fun k digest other hlookup => ?_,
      fun k => (h.voters k).mono hsubset, fun k header hmem => ?_⟩
    · rcases List.mem_append.mp hmem with hold | hnew
      · exact h.verified k other hold
      · cases List.mem_singleton.mp hnew
        exact ⟨hname, _, hverify⟩
    · have hold : (s.stores k).lookup digest = some other → (k, other) ∈ s.accepted ++
          [(name, certificate)] ∧ other.digest = digest := fun hlookup =>
        ⟨hsubset (h.stores k digest other hlookup).1, (h.stores k digest other hlookup).2⟩
      dsimp only at hlookup
      split_ifs at hlookup with hk
      · subst hk
        by_cases hdigest : digest = certificate.digest
        · subst hdigest
          rw [AList.lookup_insert, Option.some_inj] at hlookup
          subst hlookup
          exact ⟨List.mem_append_right _ (List.mem_singleton_self _), rfl⟩
        · rw [AList.lookup_insert_ne hdigest] at hlookup
          exact hold hlookup
      · exact hold hlookup
    · exact ⟨(h.signed k header hmem).1, (h.signed k header hmem).2.mono hsubset⟩

theorem delete (name : K) (digest : D) : Sound setup byzantine (s.delete name digest) := by
  refine { h with stores := fun k other certificate hlookup => ?_ }
  dsimp only [DagSystem.delete] at hlookup
  split_ifs at hlookup with hk
  · subst hk
    exact h.stores k other certificate (Assoc.lookup_of_lookup_erase hlookup)
  · exact h.stores k other certificate hlookup

theorem vote (hcommittees : ∀ e, (setup.committees e).epoch = e) {e : VoteEvent K D}
    (hhonest : s.Honest setup byzantine (.vote e)) {votes : VoteSystem K D}
    (hstep : s.votes.step setup (s.voteEvent setup e) = some votes) :
    Sound setup byzantine { s with votes } := by
  cases e with
  | receive name peer header =>
    cases hstep
    exact h.update ((h.voters name).receive hcommittees peer header)
  | read name peer context =>
    obtain ⟨voter, hread, rfl⟩ := Option.map_eq_some_iff.mp hstep
    exact h.update (h.read hread)
  | write name peer =>
    obtain ⟨voter, hwrite, rfl⟩ := Option.map_eq_some_iff.mp hstep
    exact h.update ((h.voters name).write hwrite)
  | reply name peer =>
    dsimp only [voteEvent, VoteSystem.step] at hstep
    split at hstep
    · rename_i header hlookup
      cases hstep
      have hdigest := ((h.voters name).verified peer _ hlookup).2
      have hjustified := (h.voters name).stored peer header hlookup
      have hcancelled : VoterSound setup byzantine s.accepted
          ((s.votes.voters name).cancel peer) := (h.voters name).erase peer
      exact (h.update hcancelled).sign hdigest hjustified
    · cases hstep
  | cancel name peer =>
    cases hstep
    exact h.update ((h.voters name).erase peer)
  | restart name epoch =>
    cases hstep
    exact h.update (VoterSound.restart _ epoch)
  | propose name header =>
    cases hstep
    obtain ⟨-, hdigest, hepoch, hcheck⟩ := hhonest
    exact h.sign hdigest (h.justified hepoch hcheck)

theorem step (hcommittees : ∀ e, (setup.committees e).epoch = e) {e : DagEvent K D}
    (hhonest : s.Honest setup byzantine e) (hstep : s.step setup e = some s') :
    Sound setup byzantine s' := by
  cases e with
  | vote e =>
    obtain ⟨votes, hvotes, rfl⟩ := Option.map_eq_some_iff.mp hstep
    exact h.vote hcommittees hhonest hvotes
  | accept name certificate => exact h.accept hhonest hstep
  | delete name digest =>
    cases hstep
    exact h.delete name digest

end

end Sound

/-- In every run, what the primaries have signed is justified. -/
theorem sound_of_reached (hcommittees : ∀ e, (setup.committees e).epoch = e) {epoch : ℕ}
    (hreached : (machine setup epoch).Reached (Honest setup byzantine) s) :
    Sound setup byzantine s :=
  hreached.invariant (.new epoch) fun _ _ _ hs hhonest hstep => hs.step hcommittees hhonest hstep

/-! ## Certificates -/

theorem exists_honest_signer {c : SignedCertificate K D} {e : ℕ}
    (hstake : 2 * (setup.committees e).allStake < 2 ^ 64)
    (hbyzantine : ∑ name ∈ byzantine, (setup.committees e).stake name ≤
      (setup.committees e).totalStake - (setup.committees e).quorumThreshold)
    (hunforged : s.votes.Unforged setup byzantine c)
    (hverify : c.verify setup.crypto setup.workerCache (setup.committees e) = .ok ())
    (hround : c.round ≠ 0) : ∃ name, VoteSystem.HasSigned s.votes.signed name c.digest := by
  obtain ⟨-, -, hquorum, hsigners⟩ := SignedCertificate.verify_eq_ok hverify fun h => hround h.1
  have hlarge := Committee.allStake_add_lt_quorum_add_quorum hstake
  have hnodup : (c.signedBy (setup.committees e)).2.Nodup := SignedCertificate.signedBy_nodup
  obtain ⟨name, hname, -, hhonest, -⟩ := (setup.committees e).exists_mem_both hnodup hnodup
    byzantine (by omega)
  exact ⟨name, hunforged _ hsigners name hname hhonest⟩

/-- With a Byzantine stake of at most the total minus a quorum and no overflow, a certificate that
verifies has justified parents, if its header is not confusable with one that was signed. -/
theorem certificate_justified {setup : VoteSetup K Digest} {encode : K → List UInt8} {width : ℕ}
    (hencode : FixedWidth Set.univ width encode) {hash : List UInt8 → Digest}
    {verify : K → Digest → Signature → Bool} {verifyAggregate : List K → Digest → Signature → Bool}
    (hcrypto : setup.crypto = .ofHash encode hash verify verifyAggregate)
    (hcommittees : ∀ e, (setup.committees e).epoch = e)
    (hstake : ∀ e, 2 * (setup.committees e).allStake < 2 ^ 64)
    (hbyzantine : ∀ e, ∑ name ∈ byzantine, (setup.committees e).stake name ≤
      (setup.committees e).totalStake - (setup.committees e).quorumThreshold)
    {epoch : ℕ} {s : DagSystem K Digest}
    (hreached : (machine setup epoch).Reached (Honest setup byzantine) s)
    {c : SignedCertificate K Digest} {e : ℕ} (hunforged : s.votes.Unforged setup byzantine c)
    (hverify : c.verify setup.crypto setup.workerCache (setup.committees e) = .ok ())
    (hround : c.round ≠ 0) (hsized : c.header.IsSized)
    (hsigned : ∀ signature ∈ s.votes.signed, signature.2.IsSized ∧
      Set.InjOn hash {signature.2.hashedBytes encode, c.header.hashedBytes encode})
    (hcut : ∀ signature ∈ s.votes.signed, ¬signature.2.Confusable c.header) :
    Justified setup byzantine s.accepted c.header := by
  have hsound := sound_of_reached hcommittees hreached
  obtain ⟨name, header, hmem, hdigest⟩ :=
    exists_honest_signer (hstake e) (hbyzantine e) hunforged hverify hround
  obtain ⟨hcarried, hjustified⟩ := hsound.signed name header hmem
  obtain ⟨-, hcarried', -, -⟩ := SignedCertificate.verify_eq_ok hverify fun h => hround h.1
  obtain ⟨⟨sized, rfl⟩, hfree⟩ := hsigned _ hmem
  obtain ⟨sized', hsized'⟩ := hsized
  have hhash : hash (sized.hashedBytes encode) = hash (c.header.hashedBytes encode) := by
    rw [hcrypto] at hcarried hcarried'
    exact hcarried.symm.trans (hdigest.trans hcarried')
  have hbytes := hfree (by simp) (by simp) hhash
  have hcut := hcut _ hmem
  rw [← hsized'] at hbytes hcut ⊢
  exact hjustified.congr (SizedHeader.sameContents_of_hashedBytes hencode hcut hbytes)

end DagSystem

/-! ## A certificate that is moved to other parents -/

instance (setup : VoteSetup K D) (byzantine : Finset K) (s : DagSystem K D) :
    ∀ e, Decidable (s.Honest setup byzantine e)
  | .vote (.propose name header) => inferInstanceAs (Decidable (name ∉ byzantine ∧
      header.digest = header.hash setup.crypto ∧ header.epoch = (s.votes.voters name).epoch ∧
      checkParents (s.committeeOf setup name) header (s.parentsOf setup name header) = true))
  | .vote (.receive name _ _) | .vote (.read name _ _) | .vote (.write name _)
  | .vote (.reply name _) | .vote (.cancel name _) | .vote (.restart name _)
  | .accept name _ | .delete name _ => inferInstanceAs (Decidable (name ∉ byzantine))

namespace Sample

/-- A digest that shows the author and the round. -/
def dagDigest (bytes : List UInt8) : Digest :=
  ⟨[200, bytes.getD 0 0, bytes.getD 1 0] ++ List.replicate 29 0, by simp⟩

/-- The fourth authority is Byzantine. -/
def dagSetup : VoteSetup (Fin 4) Digest where
  crypto := .ofHash encodeKey dagDigest (fun _ _ _ => true) fun names _ _ => names.all (· ≠ 3)
  workerCache _ := [0, 2]
  committees epoch := { committee with epoch }

def genesisDigests : List Digest :=
  (Certificate.genesis dagSetup.crypto committee).map Certificate.digest

/-- A header of round one with the genesis certificates as parents. -/
def votedHeader : SizedHeader (Fin 4) where
  author := 3
  round := 1
  epoch := 0
  createdAt := 0
  payload := eightEntries
  parents := genesisDigests
  digest := dagDigest (headerBytes encodeKey 3 1 0 0 eightEntries genesisDigests)
  signature := []
  round_lt := by decide
  epoch_lt := zero_lt_word
  createdAt_lt := zero_lt_word
  payload_lt := eightEntries_lt
  payload_nodup := eightEntries_nodup
  parents_lt := by decide +kernel

/-- The same bytes with the payload read as eleven more parents. -/
def movedHeader : SizedHeader (Fin 4) where
  author := 3
  round := 1
  epoch := 0
  createdAt := 0
  payload := []
  parents := elevenParents ++ genesisDigests
  digest := dagDigest (headerBytes encodeKey 3 1 0 0 eightEntries genesisDigests)
  signature := []
  round_lt := by decide
  epoch_lt := zero_lt_word
  createdAt_lt := zero_lt_word
  payload_lt := noEntries_lt
  payload_nodup := noEntries_nodup
  parents_lt := by decide +kernel

/-- The other authorities vote for the header. -/
def dagVotes : DagSystem (Fin 4) Digest :=
  (DagSystem.machine dagSetup 0).after (.new 0) ([0, 1, 2].flatMap fun name =>
    [.vote (.receive name [3] votedHeader.toHeader),
      .vote (.read name [3] ⟨0, [], [], .ok (), 0⟩), .vote (.write name [3]),
      .vote (.reply name [3])])

/-- The votes as a certificate of a header. -/
def dagCertificate (header : Header (Fin 4) Digest) : SignedCertificate (Fin 4) Digest where
  header := header
  aggregatedSignature := []
  signedAuthorities := [0, 1, 2]

theorem reached_dagVotes :
    (DagSystem.machine dagSetup 0).Reached (DagSystem.Honest dagSetup {3}) dagVotes :=
  Machine.Reached.start.after (by decide +kernel)

theorem signed_dagVotes : dagVotes.votes.signed =
    [(0, votedHeader.toHeader), (1, votedHeader.toHeader), (2, votedHeader.toHeader)] := by
  decide +kernel

theorem byzantine_dagSetup (e : ℕ) : ∑ name ∈ {3}, (dagSetup.committees e).stake name ≤
    (dagSetup.committees e).totalStake - (dagSetup.committees e).quorumThreshold := by
  change ∑ name ∈ {3}, committee.stake name ≤ committee.totalStake - committee.quorumThreshold
  decide +kernel

theorem unforged_dagCertificate {header : Header (Fin 4) Digest}
    (hdigest : header.digest = votedHeader.digest) :
    dagVotes.votes.Unforged dagSetup {3} (dagCertificate header) := by
  intro names _ name _ hhonest
  have hnames : ∀ name : Fin 4, name ∉ ({3} : Finset (Fin 4)) →
      name ∈ ([0, 1, 2] : List (Fin 4)) := by decide
  refine ⟨votedHeader.toHeader, ?_, hdigest.symm⟩
  rw [signed_dagVotes]
  exact List.mem_map_of_mem (f := fun name => (name, votedHeader.toHeader)) (hnames name hhonest)

theorem verify_dagCertificate :
    (dagCertificate votedHeader.toHeader).verify dagSetup.crypto dagSetup.workerCache
        (dagSetup.committees 0) = .ok () ∧
      (dagCertificate movedHeader.toHeader).verify dagSetup.crypto dagSetup.workerCache
        (dagSetup.committees 0) = .ok () := by
  decide +kernel

end Sample

namespace DagSystem

/-- The certificate of the header that was voted for. -/
theorem certificate_justified_sample :
    Justified Sample.dagSetup {3} Sample.dagVotes.accepted Sample.votedHeader.toHeader := by
  have hsigned : ∀ signature ∈ Sample.dagVotes.votes.signed,
      signature.2 = Sample.votedHeader.toHeader := by
    rw [Sample.signed_dagVotes]
    simp
  refine certificate_justified Sample.fixedWidth_encodeKey rfl (fun _ => rfl)
    (fun _ => Sample.committee_stake) Sample.byzantine_dagSetup Sample.reached_dagVotes
    (Sample.unforged_dagCertificate rfl) Sample.verify_dagCertificate.1 (by decide) ⟨_, rfl⟩
    (fun signature hmem => ?_)
    fun signature hmem => ?_
  · rw [hsigned signature hmem]
    exact ⟨⟨_, rfl⟩, Set.injOn_pair.mpr fun _ => rfl⟩
  · rw [hsigned signature hmem]
    exact fun hconfusable => hconfusable.entries rfl

/-- The certificate with the header moved to other parents verifies as well. -/
theorem moved_certificate_not_justified :
    let c := Sample.dagCertificate Sample.movedHeader.toHeader
    (machine Sample.dagSetup 0).Reached (Honest Sample.dagSetup {3}) Sample.dagVotes ∧
      Sample.dagVotes.votes.Unforged Sample.dagSetup {3} c ∧
      c.verify Sample.dagSetup.crypto Sample.dagSetup.workerCache (Sample.dagSetup.committees 0) =
        .ok () ∧
      c.header.hashedBytes Sample.encodeKey = Sample.votedHeader.hashedBytes Sample.encodeKey ∧
      ¬Justified Sample.dagSetup {3} Sample.dagVotes.accepted c.header := by
  intro c
  refine ⟨Sample.reached_dagVotes, Sample.unforged_dagCertificate rfl,
    Sample.verify_dagCertificate.2, by decide +kernel, ?_⟩
  rintro ⟨parents, hparents⟩
  have hfirst : Sample.byteDigest 0 1 ∈ parents.map Certificate.digest := by
    rw [hparents.digests]
    decide +kernel
  have hgenesis : ∀ parent ∈ Certificate.genesis Sample.dagSetup.crypto
      (Sample.dagSetup.committees 0), parent.digest ≠ Sample.byteDigest 0 1 := by decide +kernel
  obtain ⟨parent, hparent, hdigest⟩ := List.mem_map.mp hfirst
  exact hgenesis parent (hparents.genesis rfl parent hparent) hdigest

end DagSystem

end Narwhal

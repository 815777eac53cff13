import NarwhalGeth.Narwhal.Committee

/-!
# Verification of headers and certificates

Hashing and signatures are parameters. Headers, votes and certificates are all signed over the
digest of the header, which binds its author, epoch and round. A certificate that verifies was
signed by distinct authorities of the committee that hold a quorum.
-/

namespace Narwhal

variable {K D : Type} [DecidableEq K] [DecidableEq D] {committee : Committee K}
  {header : Header K D} {u : Unit}

/-- The hash of the contents of a header, and the verification of signatures and aggregated
signatures over a digest. -/
structure Crypto (K D : Type) where
  hash : K → ℕ → ℕ → ℕ → List (D × ℕ × ℕ) → List D → D
  verify : K → D → Signature → Bool
  verifyAggregate : List K → D → Signature → Bool

/-- The workers of each authority, by their ids. -/
abbrev WorkerCache (K : Type) := K → List ℕ

/-! ## Headers -/

namespace Header

/-- The digest computed from the contents. -/
def hash (crypto : Crypto K D) (header : Header K D) : D :=
  crypto.hash header.author header.round header.epoch header.createdAt header.payload header.parents

def verify (crypto : Crypto K D) (workerCache : WorkerCache K) (committee : Committee K)
    (header : Header K D) : Except (DagError K D) Unit :=
  if header.epoch ≠ committee.epoch then .error (.invalidEpoch committee.epoch header.epoch)
  else if header.hash crypto ≠ header.digest then .error .invalidHeaderDigest
  else if committee.stake header.author = 0 then .error (.unknownAuthority header.author)
  else if ¬∀ entry ∈ header.payload, entry.2.1 ∈ workerCache header.author then
    .error (.headerHasBadWorkerIds header.digest)
  else if crypto.verify header.author header.digest header.signature then .ok ()
  else .error .invalidSignature

theorem verify_eq_ok {crypto : Crypto K D} {workerCache : WorkerCache K}
    (h : header.verify crypto workerCache committee = .ok u) :
    header.epoch = committee.epoch ∧ header.digest = header.hash crypto ∧
      crypto.verify header.author header.digest header.signature = true := by
  unfold verify at h
  split_ifs at h with hepoch hdigest hstake hworkers hsignature
  exact ⟨not_not.mp hepoch, (not_not.mp hdigest).symm, hsignature⟩

theorem verify_of_checks {crypto : Crypto K D} {workerCache : WorkerCache K}
    (hepoch : header.epoch = committee.epoch) (hdigest : header.hash crypto = header.digest)
    (hstake : committee.stake header.author ≠ 0)
    (hworkers : ∀ entry ∈ header.payload, entry.2.1 ∈ workerCache header.author)
    (hsignature : crypto.verify header.author header.digest header.signature = true) :
    header.verify crypto workerCache committee = .ok () := by
  unfold verify
  rw [if_neg (not_not.mpr hepoch), if_neg (not_not.mpr hdigest), if_neg hstake,
    if_neg (not_not.mpr hworkers), if_pos hsignature]

end Header

/-! ## Certificates -/

/-- A certificate as it is sent: the header, the aggregated signature and the bitmap of the signers,
as increasing indices in the committee. -/
structure SignedCertificate (K D : Type) extends Certificate K D where
  aggregatedSignature : Signature
  signedAuthorities : List ℕ

namespace Certificate

omit [DecidableEq K] [DecidableEq D] in
/-- The certificates of round zero, one for each authority. -/
def genesis (crypto : Crypto K D) (committee : Committee K) : List (Certificate K D) :=
  committee.authorities.keys.map fun name =>
    ⟨{ author := name, round := 0, epoch := committee.epoch, createdAt := 0, payload := [],
       parents := [], digest := crypto.hash name 0 committee.epoch 0 [] [], signature := [] }⟩

end Certificate

namespace SignedCertificate

/-- The walk through the authorities from index `i` on and through the remaining indices of the
bitmap. -/
def signedByFrom : List (Sigma fun _ : K => Authority) → ℕ → List ℕ → ℕ × List K
  | [], _, _ => (0, [])
  | _ :: authorities, i, [] => signedByFrom authorities (i + 1) []
  | authority :: authorities, i, index :: indexes =>
    if index = i then
      let rest := signedByFrom authorities (i + 1) indexes
      ((authority.2.stake + rest.1) % 2 ^ 64, authority.1 :: rest.2)
    else signedByFrom authorities (i + 1) (index :: indexes)

/-- The authorities that signed, and their stake, which wraps around. -/
def signedBy (certificate : SignedCertificate K D) (committee : Committee K) : ℕ × List K :=
  signedByFrom committee.authorities.entries 0 certificate.signedAuthorities

def verify (crypto : Crypto K D) (workerCache : WorkerCache K) (committee : Committee K)
    (certificate : SignedCertificate K D) : Except (DagError K D) Unit :=
  if certificate.epoch ≠ committee.epoch then
    .error (.invalidEpoch committee.epoch certificate.epoch)
  else if certificate.round = 0 ∧ (Certificate.genesis crypto committee).any
      certificate.toCertificate.eq then .ok ()
  else
    match certificate.header.verify crypto workerCache committee with
    | .error e => .error e
    | .ok () =>
      let (weight, names) := certificate.signedBy committee
      if weight < committee.quorumThreshold then .error .certificateRequiresQuorum
      else if crypto.verifyAggregate names certificate.digest certificate.aggregatedSignature then
        .ok ()
      else .error .invalidSignature

/-- A genesis certificate, which is valid without signatures. -/
def IsGenesis (crypto : Crypto K D) (committee : Committee K)
    (certificate : SignedCertificate K D) : Prop :=
  certificate.round = 0 ∧
    (Certificate.genesis crypto committee).any certificate.toCertificate.eq = true

omit [DecidableEq K] in
theorem signedByFrom_sublist (authorities : List (Sigma fun _ : K => Authority)) (i : ℕ)
    (indexes : List ℕ) : (signedByFrom authorities i indexes).2.Sublist authorities.keys := by
  induction authorities generalizing i indexes with
  | nil => exact List.Sublist.refl _
  | cons authority authorities ih =>
    cases indexes with
    | nil => exact (ih (i + 1) []).cons _
    | cons index indexes =>
      rw [signedByFrom]
      split_ifs
      · exact (ih (i + 1) indexes).cons_cons _
      · exact (ih (i + 1) (index :: indexes)).cons _

omit [DecidableEq K] in
theorem signedByFrom_weight (stake : K → ℕ) {authorities : List (Sigma fun _ : K => Authority)}
    (hstake : ∀ a ∈ authorities, stake a.1 = a.2.stake) (i : ℕ) (indexes : List ℕ) :
    (signedByFrom authorities i indexes).1 =
      ((signedByFrom authorities i indexes).2.map stake).sum % 2 ^ 64 := by
  induction authorities generalizing i indexes with
  | nil => rfl
  | cons authority authorities ih =>
    have ih := ih fun a ha => hstake a (List.mem_cons_of_mem _ ha)
    cases indexes with
    | nil => exact ih (i + 1) []
    | cons index indexes =>
      rw [signedByFrom]
      split_ifs
      · simp only [List.map_cons, List.sum_cons]
        rw [hstake authority List.mem_cons_self, ih (i + 1) indexes, Nat.add_mod_mod]
      · exact ih (i + 1) (index :: indexes)

variable {crypto : Crypto K D} {workerCache : WorkerCache K} {committee : Committee K}
  {certificate : SignedCertificate K D}

omit [DecidableEq K] [DecidableEq D] in
theorem signedBy_nodup : (certificate.signedBy committee).2.Nodup :=
  committee.authorities.keys_nodup.sublist (signedByFrom_sublist _ _ _)

omit [DecidableEq D] in
theorem signedBy_weight : (certificate.signedBy committee).1 =
    ((certificate.signedBy committee).2.map committee.stake).sum % 2 ^ 64 := by
  apply signedByFrom_weight
  rintro ⟨name, authority⟩ ha
  rw [Committee.stake, Assoc.mem_entries_iff.mp ha]

theorem verify_eq_ok (h : certificate.verify crypto workerCache committee = .ok u)
    (hgenesis : ¬certificate.IsGenesis crypto committee) :
    certificate.epoch = committee.epoch ∧
      certificate.digest = certificate.header.hash crypto ∧
      committee.quorumThreshold ≤
        ((certificate.signedBy committee).2.map committee.stake).sum ∧
      crypto.verifyAggregate (certificate.signedBy committee).2 certificate.digest
        certificate.aggregatedSignature = true := by
  unfold verify at h
  split_ifs at h with hepoch hround
  · exact absurd hround hgenesis
  split at h
  · cases h
  · rename_i hheader
    dsimp only at h
    split_ifs at h with hweight hsignature
    refine ⟨not_not.mp hepoch, (Header.verify_eq_ok hheader).2.1, ?_, hsignature⟩
    rw [signedBy_weight] at hweight
    exact (not_lt.mp hweight).trans (Nat.mod_le _ _)

end SignedCertificate

end Narwhal

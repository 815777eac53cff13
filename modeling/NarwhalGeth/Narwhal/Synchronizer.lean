import NarwhalGeth.Narwhal.CertificateStore
import NarwhalGeth.Narwhal.Committee
import NarwhalGeth.Narwhal.ConsensusState

/-!
# The synchronizer

The synchronizer decides which certificates enter the certificate store and reach consensus, and in
which order. A certificate with missing parents is suspended until they are accepted, or until they
fall to the garbage collection round.
-/

namespace Narwhal

namespace Synchronizer

/-- The order in which a set of digests is iterated, which can be any. -/
class SetOrder (D : Type) where
  order : List D → List D
  perm : ∀ digests, (order digests).Perm digests

namespace SetOrder

variable {D : Type} [SetOrder D] {digests : List D}

@[simp]
theorem mem_order {d : D} : d ∈ order digests ↔ d ∈ digests := (perm digests).mem_iff

theorem nodup_order : (order digests).Nodup ↔ digests.Nodup := (perm digests).nodup_iff

end SetOrder

/-- The samples iterate a set in the order of its list. -/
instance Sample.setOrder : SetOrder ℕ := ⟨id, .refl⟩

open SetOrder (order)

variable {K D : Type} [DecidableEq K] [DecidableEq D] [SetOrder D]

/-! ## Suspended certificates -/

/-- A certificate that can be accepted once `missingParents` is empty. -/
structure SuspendedCertificate (K D : Type) where
  certificate : Certificate K D
  missingParents : List D

/-- The suspended certificates by digest, and for each missing certificate, by round and digest, the
suspended ones that name it as a parent. -/
structure State (K D : Type) where
  suspended : Assoc D (SuspendedCertificate K D)
  missing : Assoc (ℕ × D) (List D)

namespace State

def empty : State K D := ⟨∅, ∅⟩

def checkSuspended (state : State K D) (digest : D) : Bool :=
  (state.suspended.lookup digest).isSome

/-- Records a child of a missing certificate, which must be new. -/
def insertMissing (missingRound : ℕ) (child : D) (missing : Assoc (ℕ × D) (List D)) (d : D) :
    Except (Fault K D) (Assoc (ℕ × D) (List D)) :=
  let children := (missing.lookup (missingRound, d)).getD []
  if child ∈ children then .error (.panic "assertion failed: missing.insert(digest)")
  else .ok (missing.insert (missingRound, d) (child :: children))

/-- Inserts a certificate with its missing parents. -/
def insert (state : State K D) (certificate : Certificate K D) (missingParents : List D)
    (allowReinsert : Bool) : Except (Fault K D) (State K D) :=
  let digest := certificate.digest
  match state.suspended.lookup digest with
  | some suspendedCert =>
    if allowReinsert then
      if suspendedCert.missingParents ⊆ missingParents ∧
          missingParents ⊆ suspendedCert.missingParents then .ok state
      else .error (.panic "Inconsistent missing parents!")
    else .error (.panic "assertion failed: suspended.insert(digest).is_none()")
  | none =>
    (missingParents.foldlM (insertMissing (certificate.round - 1) digest) state.missing).map
      fun missing =>
        { suspended := state.suspended.insert digest ⟨certificate, missingParents⟩, missing }

/-- The loop state of `acceptChildren`. -/
structure Traversal (K D : Type) where
  suspended : Assoc D (SuspendedCertificate K D)
  toTraverse : List (ℕ × D)
  toAccept : List (SuspendedCertificate K D)

/-- Removes an accepted parent from a suspended child, and releases the child if it was the last
one. -/
def acceptChild (digest : D) (t : Traversal K D) (child : D) :
    Except (Fault K D) (Traversal K D) :=
  match t.suspended.lookup child with
  | none => .error (.panic "Inconsistency found!")
  | some suspendedChild =>
    let missingParents := suspendedChild.missingParents.filter (· ≠ digest)
    let suspendedChild := { suspendedChild with missingParents }
    if missingParents.isEmpty then
      .ok
        { suspended := t.suspended.erase child
          toTraverse := t.toTraverse ++
            [(suspendedChild.certificate.round, suspendedChild.certificate.digest)]
          toAccept := t.toAccept ++ [suspendedChild] }
    else .ok { t with suspended := t.suspended.insert child suspendedChild }

/-- The loop of `acceptChildren` over the certificates to traverse, each of which was just accepted
or released. -/
def acceptChildrenLoop : ℕ → Assoc (ℕ × D) (List D) → Traversal K D →
    Except (Fault K D) (List (SuspendedCertificate K D) × State K D)
  | 0, _, _ => .error (.panic "out of fuel")
  | fuel + 1, missing, t =>
    match t.toTraverse with
    | [] => .ok (t.toAccept, ⟨t.suspended, missing⟩)
    | (round, digest) :: toTraverse =>
      match missing.lookup (round, digest) with
      | none => acceptChildrenLoop fuel missing { t with toTraverse }
      | some childDigests => do
        let t ← (order childDigests).foldlM (acceptChild digest) { t with toTraverse }
        acceptChildrenLoop fuel (missing.erase (round, digest)) t

/-- The suspended certificates that can be accepted after the given one, in causal order. -/
def acceptChildren (state : State K D) (round : ℕ) (digest : D) :
    Except (Fault K D) (List (SuspendedCertificate K D) × State K D) :=
  match state.suspended.lookup digest with
  | some _ => .error (.panic "Suspended certificate has no missing parent")
  | none =>
    acceptChildrenLoop (state.suspended.keys.length + 2) state.missing
      { suspended := state.suspended, toTraverse := [(round, digest)], toAccept := [] }

/-- The children of what is missing at the garbage collection round. -/
def certificatesAboveGcRound (state : State K D) (gcRound : ℕ) : List D :=
  order ((state.missing.entries.filter fun e => e.1.1 = gcRound).flatMap fun e => e.2).dedup

/-- Releases a certificate at the round above the garbage collection round. -/
def releaseAboveGc (acc : List (SuspendedCertificate K D) × Assoc D (SuspendedCertificate K D))
    (digest : D) :
    Except (Fault K D) (List (SuspendedCertificate K D) × Assoc D (SuspendedCertificate K D)) :=
  match acc.2.lookup digest with
  | none => .error (.panic "Inconsistency found!")
  | some suspendedCert =>
    .ok (acc.1 ++ [{ suspendedCert with missingParents := [] }], acc.2.erase digest)

/-- Drops what is missing up to the garbage collection round, and returns the suspended certificates
just above it. -/
def runGc (state : State K D) (gcRound : ℕ) :
    Except (Fault K D) (List (SuspendedCertificate K D) × State K D) :=
  let expired := state.missing.entries.filter fun e => e.1.1 ≤ gcRound
  let suspended := expired.foldl (fun suspended e => suspended.erase e.1.2) state.suspended
  let missing := state.missing.retain fun key children =>
    if key.1 ≤ gcRound then none else some children
  ((state.certificatesAboveGcRound gcRound).foldlM releaseAboveGc ([], suspended)).map
    fun acc => (acc.1, ⟨acc.2, missing⟩)

end State

/-! ## Accepting certificates -/

/-- What does not change while the primary runs. `verify` is the check of a certificate and its
signatures. -/
structure Config (K D : Type) [DecidableEq K] where
  committee : Committee K
  genesis : List D
  verify : Certificate K D → Except (DagError K D) Unit

/-- The data shared by the tasks. `newCertificates` is the queue of accepted certificates to
consensus. -/
structure Inner (K D : Type) where
  gcRound : ℕ
  certificateStore : CertificateStore K D
  state : State K D
  newCertificates : List (Certificate K D)

namespace Inner

def new : Inner K D := ⟨0, .empty, .empty, []⟩

/-- Stores a certificate and sends it to consensus. -/
def acceptCertificateInternal (inner : Inner K D) (certificate : Certificate K D) : Inner K D :=
  { inner with
    certificateStore := inner.certificateStore.write certificate
    newCertificates := inner.newCertificates ++ [certificate] }

def acceptSuspendedCertificate (inner : Inner K D) (suspended : SuspendedCertificate K D) :
    Inner K D :=
  inner.acceptCertificateInternal suspended.certificate

/-- Whether the certificate is valid and can potentially be accepted into the DAG. -/
def sanitizeCertificate (config : Config K D) (inner : Inner K D) (certificate : Certificate K D) :
    Except (DagError K D) Unit :=
  if config.committee.epoch ≠ certificate.epoch then
    .error (.invalidEpoch config.committee.epoch certificate.epoch)
  else if certificate.round ≤ inner.gcRound then
    .error (.tooOld certificate.digest certificate.round inner.gcRound)
  else config.verify certificate

/-- The parents that are not stored. The certificates of round one must name genesis. -/
def getMissingParents (config : Config K D) (inner : Inner K D) (certificate : Certificate K D) :
    Except (DagError K D) (List D) :=
  if certificate.round = 1 then
    match certificate.parents.find? (· ∉ config.genesis) with
    | some digest => .error (.invalidGenesisParent digest)
    | none => .ok []
  else .ok (certificate.parents.filter fun d => !inner.certificateStore.contains d)

/-- `processCertificateInternal` before the state lock is taken: either its answer, or the call goes
on. -/
def beforeLock (config : Config K D) (inner : Inner K D) (certificate : Certificate K D)
    (sanitize earlySuspend : Bool) : Option (Except (DagError K D) Unit) :=
  if inner.certificateStore.contains certificate.digest then some (.ok ())
  else if earlySuspend ∧ inner.state.checkSuspended certificate.digest then some (.error .suspended)
  else if sanitize then
    match inner.sanitizeCertificate config certificate with
    | .error e => some (.error e)
    | .ok () => none
  else none

/-- Accepts a certificate and the suspended certificates it releases. -/
def acceptWithChildren (inner : Inner K D) (certificate : Certificate K D) :
    Except (Fault K D) (Inner K D) := do
  let (suspendedCerts, state) ← inner.state.acceptChildren certificate.round certificate.digest
  let inner := ({ inner with state }).acceptCertificateInternal certificate
  return suspendedCerts.foldl acceptSuspendedCertificate inner

/-- The part of `processCertificateInternal` under the state lock. -/
def underLock (config : Config K D) (inner : Inner K D) (certificate : Certificate K D)
    (earlySuspend : Bool) : Except (Fault K D) (Except (DagError K D) Unit × Inner K D) :=
  if earlySuspend ∧ inner.state.checkSuspended certificate.digest then
    .ok (.error .suspended, inner)
  else if inner.gcRound + 1 < certificate.round then
    match inner.getMissingParents config certificate with
    | .error e => .ok (.error e, inner)
    | .ok [] => (inner.acceptWithChildren certificate).map fun inner => (.ok (), inner)
    | .ok (d :: ds) =>
      (inner.state.insert certificate (d :: ds) (!earlySuspend)).map fun state =>
        (.error .suspended, { inner with state })
  else (inner.acceptWithChildren certificate).map fun inner => (.ok (), inner)

/-- What the garbage collection task does under the state lock. -/
def collectGarbage (inner : Inner K D) (gcRound : ℕ) : Except (Fault K D) (Inner K D) := do
  let (released, state) ← inner.state.runGc gcRound
  released.foldlM (fun inner suspended => inner.acceptWithChildren suspended.certificate)
    { inner with state }

end Inner

end Synchronizer

end Narwhal

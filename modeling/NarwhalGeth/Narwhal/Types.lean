import Mathlib.Algebra.Order.BigOperators.Ring.Finset
import Mathlib.Data.List.Induction
import Mathlib.Data.List.Perm.Basic
import Mathlib.Data.List.Sort
import Mathlib.Logic.Relation
import NarwhalGeth.Lib.Assoc

/-!
# Narwhal's certificates and committed sub-dags

Public keys and digests are the type parameters `K` and `D`: the code only compares them. Rounds,
stakes, epochs and sequence numbers are `u64` in the code and `ℕ` here. Sums of stakes, of a round
and a setting, and of a round from a request are taken modulo `2 ^ 64`, as a release build computes
them. Counters that only grow by one, such as the sub-dag index, are not bounded.
-/

namespace Narwhal

abbrev Signature := List UInt8
abbrev NetworkPublicKey := List UInt8

/-- A header proposed by an authority. `parents` lists the digests in the order of the code's
`BTreeSet`, and `digest` is the digest that the header carries. -/
structure Header (K D : Type) where
  author : K
  round : ℕ
  epoch : ℕ
  createdAt : ℕ
  payload : List (D × ℕ × ℕ)
  parents : List D
  digest : D
  signature : Signature
deriving DecidableEq

/-- A certificate as consensus reads it: the header it certifies. -/
structure Certificate (K D : Type) where
  header : Header K D
deriving DecidableEq

namespace Certificate

variable {K D : Type}

def round (c : Certificate K D) : ℕ := c.header.round

def epoch (c : Certificate K D) : ℕ := c.header.epoch

def origin (c : Certificate K D) : K := c.header.author

/-- A certificate is identified by the digest of its header. -/
def digest (c : Certificate K D) : D := c.header.digest

def parents (c : Certificate K D) : List D := c.header.parents

/-- Equality of certificates as the code's `PartialEq` decides it. -/
def eq [DecidableEq K] [DecidableEq D] (c c' : Certificate K D) : Bool :=
  c.digest = c'.digest ∧ c.round = c'.round ∧ c.epoch = c'.epoch ∧ c.origin = c'.origin

theorem eq_self [DecidableEq K] [DecidableEq D] (c : Certificate K D) : c.eq c = true := by
  simp [eq]

/-- `p` is one of the certificates of the previous round that `c` names as parents. -/
def IsParent (p c : Certificate K D) : Prop :=
  p.round + 1 = c.round ∧ p.digest ∈ c.parents

instance [DecidableEq D] (p c : Certificate K D) : Decidable (p.IsParent c) :=
  inferInstanceAs (Decidable (_ ∧ _))

end Certificate

/-- Why a primary refuses a header, a vote request or a certificate. -/
inductive DagError (K D : Type) where
  | invalidEpoch (expected received : ℕ)
  | invalidHeaderDigest
  | unknownAuthority (name : K)
  | headerHasBadWorkerIds (digest : D)
  | invalidSignature
  | certificateRequiresQuorum
  | authorityReuse (name : K)
  | invalidBitmap (message : String)
  | tooOld (digest : D) (round current : ℕ)
  | invalidGenesisParent (digest : D)
  | suspended
  | networkError (message : String)
  | headerHasInvalidParentRoundNumbers (digest : D)
  | headerHasDuplicateParentAuthorities (digest : D)
  | headerRequiresQuorum (digest : D)
  | invalidTimestamp (createdTime localTime : ℕ)
  | alreadyVoted (voteDigest : D) (round : ℕ)
deriving DecidableEq

/-- The output of consensus for one committed leader. -/
structure CommittedSubDag (K D : Type) where
  certificates : List (Certificate K D)
  leader : Certificate K D
  subDagIndex : ℕ
deriving DecidableEq

/-- What the consensus store keeps of a committed sub-dag. -/
structure CommittedSubDagShell (D : Type) where
  certificates : List D
  leader : D
  subDagIndex : ℕ
deriving DecidableEq

/-- The certificates of a sequence of sub-dags in commit order. -/
def committedSequence {K D : Type} (subDags : List (CommittedSubDag K D)) :
    List (Certificate K D) :=
  subDags.flatMap CommittedSubDag.certificates

@[simp] theorem committedSequence_nil {K D : Type} :
    committedSequence ([] : List (CommittedSubDag K D)) = [] := rfl

@[simp] theorem committedSequence_append {K D : Type} (s t : List (CommittedSubDag K D)) :
    committedSequence (s ++ t) = committedSequence s ++ committedSequence t :=
  List.flatMap_append

/-- The rows of one round: at most one certificate per authority, next to its digest. -/
abbrev RoundTable (K D : Type) := Assoc K (D × Certificate K D)

/-- The representation of the DAG in memory. -/
abbrev Dag (K D : Type) := Assoc ℕ (RoundTable K D)

end Narwhal

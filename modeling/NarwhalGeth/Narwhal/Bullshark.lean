import NarwhalGeth.Narwhal.Committee
import NarwhalGeth.Narwhal.Utils

/-!
# Bullshark

`processCertificate` inserts a certificate into the DAG and commits the leader of the previous round
once its children carry a validity quorum, together with the earlier leaders it is linked to. A
`Node` is one validator's consensus: its memory, its disk, and what it has emitted.
-/

namespace Narwhal

variable {K D : Type} [DecidableEq K] [DecidableEq D]

inductive Outcome where
  | certificateBelowCommitRound
  | noLeaderElectedForOddRound
  | leaderBelowCommitRound
  | leaderNotFound
  | notEnoughSupportForLeader
  | commit
deriving DecidableEq

/-! ## The consensus store -/

/-- The persistent storage of the sequencer. -/
structure ConsensusStore (K D : Type) where
  lastCommitted : Assoc K ℕ
  committedSubDagsByIndex : Assoc ℕ (CommittedSubDagShell D)

omit [DecidableEq K] [DecidableEq D] in
def CommittedSubDagShell.fromSubDag (subDag : CommittedSubDag K D) : CommittedSubDagShell D where
  certificates := subDag.certificates.map Certificate.digest
  leader := subDag.leader.digest
  subDagIndex := subDag.subDagIndex

namespace ConsensusStore

def empty : ConsensusStore K D := ⟨∅, ∅⟩

/-- Persists the consensus state in one batch. -/
def writeConsensusState (store : ConsensusStore K D) (lastCommitted : Assoc K ℕ)
    (subDag : CommittedSubDag K D) : ConsensusStore K D where
  lastCommitted := lastCommitted ∪ store.lastCommitted
  committedSubDagsByIndex :=
    store.committedSubDagsByIndex.insert subDag.subDagIndex (.fromSubDag subDag)

def readLastCommitted (store : ConsensusStore K D) : Assoc K ℕ := store.lastCommitted

/-- The last index in key order, zero for an empty store. -/
def getLatestSubDagIndex (store : ConsensusStore K D) : ℕ :=
  store.committedSubDagsByIndex.keys.max?.getD 0

end ConsensusStore

/-! ## Processing a certificate -/

/-- The parameters of a Bullshark instance. The leader is drawn by an RNG seeded with the round. -/
structure Bullshark (K : Type) where
  committee : Committee K
  gcDepth : ℕ
  leaderAuthority : ℕ → K

/-- The memory and disk of consensus. -/
structure Core (K D : Type) where
  state : ConsensusState K D
  store : ConsensusStore K D

namespace Bullshark

variable (b : Bullshark K)

/-- Commits one leader: flattens its sub-dag, updates the state and persists the result. -/
def commitLeader (core : Core K D) (leader : Certificate K D) :
    CommittedSubDag K D × Core K D :=
  let sequence := orderDag b.gcDepth leader core.state
  let state := sequence.foldl (fun state x => state.update x b.gcDepth) core.state
  let nextSubDagIndex := state.latestSubDagIndex + 1
  let subDag := { certificates := sequence, leader, subDagIndex := nextSubDagIndex }
  let store := core.store.writeConsensusState state.lastCommitted subDag
  (subDag, { state := { state with latestSubDagIndex := nextSubDagIndex }, store })

/-- Commits a list of leaders, oldest first. -/
def commitLeaders (core : Core K D) :
    List (Certificate K D) → List (CommittedSubDag K D) × Core K D
  | [] => ([], core)
  | leader :: leaders =>
    let (subDag, core) := b.commitLeader core leader
    let (subDags, core) := commitLeaders core leaders
    (subDag :: subDags, core)

/-- The stake of the certificates of a round that name the leader as a parent. -/
def supportStake (table : RoundTable K D) (leaderDigest : D) : ℕ :=
  ((table.values.filter fun (_, x) => x.parents.contains leaderDigest).map
    fun (_, x) => b.committee.stake x.origin).sum % 2 ^ 64

/-- The leaders that a certificate triggers to commit, oldest first, or the reason why it commits
none. -/
def electLeaders (state : ConsensusState K D) (round : ℕ) :
    Except (Fault K D) (Outcome × List (Certificate K D)) :=
  let r := round - 1
  if r % 2 ≠ 0 ∨ r < 2 then .ok (.noLeaderElectedForOddRound, [])
  else if r ≤ state.lastCommittedRound then .ok (.leaderBelowCommitRound, [])
  else
    match leader b.leaderAuthority r state.dag with
    | none => .ok (.leaderNotFound, [])
    | some (leaderDigest, leader) =>
      match state.dag.lookup round with
      | none => .error (.panic "We should have the whole history by now")
      | some table =>
        if b.supportStake table leaderDigest < b.committee.validityThreshold then
          .ok (.notEnoughSupportForLeader, [])
        else
          (orderLeaders b.leaderAuthority leader state).map fun leaders =>
            (.commit, leaders.reverse)

def processCertificate (core : Core K D) (certificate : Certificate K D) :
    Except (Fault K D) (Outcome × List (CommittedSubDag K D) × Core K D) := do
  let (state, inserted) ← core.state.tryInsert certificate
  if !inserted then return (.certificateBelowCommitRound, [], { core with state })
  else
    let (outcome, leaders) ← b.electLeaders state certificate.round
    return (outcome, b.commitLeaders { core with state } leaders)

end Bullshark

/-! ## A validator's run -/

/-- A validator's consensus: memory and disk, the sub-dags it has emitted, and whether a fault has
ended it. -/
structure Node (K D : Type) where
  core : Core K D
  emitted : List (CommittedSubDag K D)
  halted : Bool

def Node.new : Node K D := ⟨⟨.new, .empty⟩, [], false⟩

namespace Bullshark

variable (b : Bullshark K)

/-- Feeds one certificate to the consensus task. -/
def deliver (node : Node K D) (certificate : Certificate K D) : Node K D :=
  if node.halted then node
  else
    match b.processCertificate node.core certificate with
    | .error _ => { node with halted := true }
    | .ok (_, subDags, core) => { core, emitted := node.emitted ++ subDags, halted := false }

/-- The validator after a sequence of deliveries to a fresh consensus task. -/
def run (certificates : List (Certificate K D)) : Node K D :=
  certificates.foldl b.deliver .new

end Bullshark

end Narwhal

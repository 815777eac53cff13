import NarwhalGeth.Lib.DepthFirst
import NarwhalGeth.Narwhal.ConsensusState

/-!
# Ordering leaders and flattening the DAG

`orderLeaders` walks back from a leader through the earlier leaders it is linked to, and `orderDag`
flattens the part of the DAG below a leader that is still to be committed.
-/

namespace Narwhal

variable {K D : Type} [DecidableEq K] [DecidableEq D]

/-- The certificate of the elected leader of a round, with its digest. -/
def leader (leaderAuthority : ℕ → K) (round : ℕ) (dag : Dag K D) : Option (D × Certificate K D) :=
  dag.cell round (leaderAuthority round)

/-! ## Links between leaders -/

/-- One iteration of `linked`: the certificates of round `r` that some certificate names as a
parent. -/
def linkedParents (dag : Dag K D) (parents : List (Certificate K D)) (r : ℕ) :
    Except (Fault K D) (List (Certificate K D)) :=
  match dag.lookup r with
  | none => .error (.panic "We should have the whole history by now")
  | some table =>
    .ok ((table.values.filter fun (digest, _) =>
      parents.any fun x => x.parents.contains digest).map fun (_, certificate) => certificate)

/-- Whether there is a path between two leaders. -/
def linked (leader prevLeader : Certificate K D) (dag : Dag K D) : Except (Fault K D) Bool := do
  let rounds := List.range' prevLeader.round (leader.round - prevLeader.round)
  let parents ← rounds.reverse.foldlM (linkedParents dag) [leader]
  return parents.any fun x => x.eq prevLeader

/-- Every second element, starting with the first. -/
def stepByTwo {α : Type} : List α → List α
  | [] => []
  | [x] => [x]
  | x :: _ :: xs => x :: stepByTwo xs

/-- The rounds at which `orderLeaders` looks for earlier leaders. -/
def leaderRounds (lastCommittedRound leaderRound : ℕ) : List ℕ :=
  stepByTwo (List.range' (lastCommittedRound + 2)
    (leaderRound - 2 + 1 - (lastCommittedRound + 2))).reverse

/-- One iteration of `orderLeaders`, on the leaders collected so far and the last one of them. -/
def orderLeadersStep (leaderAuthority : ℕ → K) (dag : Dag K D)
    (acc : List (Certificate K D) × Certificate K D) (r : ℕ) :
    Except (Fault K D) (List (Certificate K D) × Certificate K D) :=
  match leader leaderAuthority r dag with
  | none => .ok acc
  | some (_, prevLeader) => do
    if ← linked acc.2 prevLeader dag then
      return (acc.1 ++ [prevLeader], prevLeader)
    else return acc

/-- The past leaders that are not committed yet, the given one first. -/
def orderLeaders (leaderAuthority : ℕ → K) (leader : Certificate K D)
    (state : ConsensusState K D) : Except (Fault K D) (List (Certificate K D)) := do
  if leader.round % 2 ≠ 0 then
    throw (.panic "assertion failed: leader.round() % 2 == 0")
  let acc ← (leaderRounds state.lastCommittedRound leader.round).foldlM
    (orderLeadersStep leaderAuthority state.dag) ([leader], leader)
  return acc.1

/-! ## Flattening the DAG -/

/-- The entry of the previous round with the digest of a parent. -/
def findParent (dag : Dag K D) (x : Certificate K D) (parent : D) : Option (D × Certificate K D) :=
  (dag.lookup (x.round - 1)).bind fun table => table.values.find? fun (digest, _) => digest = parent

/-- Whether the round of the certificate is committed for its authority. -/
def ConsensusState.isCommitted (state : ConsensusState K D) (certificate : Certificate K D) :
    Bool :=
  match state.lastCommitted.lookup certificate.origin with
  | none => false
  | some r => certificate.round ≤ r

/-- One iteration over the parents of `x` in `orderDag`: pushes the parent unless it is missing,
already ordered, or already committed for its authority. -/
def visitParent (state : ConsensusState K D) (x : Certificate K D)
    (acc : List (Certificate K D) × List D) (parent : D) : List (Certificate K D) × List D :=
  match findParent state.dag x parent with
  | none => acc
  | some (digest, certificate) =>
    let skip := acc.2.contains digest || state.isCommitted certificate
    if skip then acc else (certificate :: acc.1, digest :: acc.2)

/-- The loop of `orderDag` over the buffer, with its last element first. Each certificate enters the
buffer at most once, so `fuel` suffices. -/
def orderDagLoop (state : ConsensusState K D) :
    ℕ → List (Certificate K D) → List D → List (Certificate K D)
  | 0, _, _ => []
  | _ + 1, [], _ => []
  | fuel + 1, x :: buffer, alreadyOrdered =>
    let acc := x.parents.foldl (visitParent state x) (buffer, alreadyOrdered)
    x :: orderDagLoop state fuel acc.1 acc.2

/-- The number of certificates in the DAG. -/
def Dag.size (dag : Dag K D) : ℕ := (dag.values.map fun table => table.values.length).sum

/-- The certificates below a leader in depth-first pre-order, without the garbage collected ones,
sorted by round. -/
def orderDag (gcDepth : ℕ) (leader : Certificate K D) (state : ConsensusState K D) :
    List (Certificate K D) :=
  let ordered := orderDagLoop state (state.dag.size + 1) [leader] []
  let ordered := ordered.filter fun x => (x.round + gcDepth) % 2 ^ 64 ≥ state.lastCommittedRound
  ordered.insertionSort fun a b => a.round ≤ b.round

end Narwhal

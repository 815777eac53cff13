import NarwhalGeth.Lib.Protobuf
import NarwhalGeth.Gateway.Relay

/-!
# Commit events on the wire

The gateway and geth compile the commit event from two schemas. The gateway has the DAG proof in
field four and the extensions in field five, geth the extensions in field four and the digest of the
leader's header in field five. All of these are bytes to the format.
-/

/-! ## The schema of the gateway -/

namespace GatewayProto

open Protobuf

structure DagProof where
  leaderCertificate : Bytes
  headerDigest : Bytes
deriving DecidableEq

def DagProof.encode (proof : DagProof) : Bytes :=
  encodeFields (bytesField 1 proof.leaderCertificate ++ bytesField 2 proof.headerDigest)

structure NarwhalCommitEvent where
  narwhalSequenceNumber : UInt64
  ethSequenceNumbers : List UInt64
  ethHeaderDigest : List Bytes
  dagProof : Option DagProof
  extensions : Bytes
deriving DecidableEq

def NarwhalCommitEvent.encode (event : NarwhalCommitEvent) : Bytes :=
  encodeFields (uint64Field 1 event.narwhalSequenceNumber ++
    packedField 2 event.ethSequenceNumbers ++ repeatedField 3 event.ethHeaderDigest ++
    messageField 4 (event.dagProof.map DagProof.encode) ++ bytesField 5 event.extensions)

/-- The event that the notifier of the gateway builds. -/
def narwhalCommitEvt (subDagIndex : UInt64) (headers : List Bytes) (subDag : Bytes)
    (dagProof : DagProof) : NarwhalCommitEvent where
  narwhalSequenceNumber := subDagIndex
  ethSequenceNumbers := [1, 2, 3]
  ethHeaderDigest := headers
  dagProof := some dagProof
  extensions := subDag

end GatewayProto

/-! ## The schema of geth -/

namespace GethProto

open Protobuf

structure NarwhalCommitEvent where
  narwhalSequenceNumber : UInt64 := 0
  ethSequenceNumbers : List UInt64 := []
  ethBlockDigest : List Bytes := []
  extensions : Bytes := []
  leaderHeaderDigest : Bytes := []
deriving DecidableEq

namespace NarwhalCommitEvent

/-- Reads a field into the message. A single value replaces an earlier one, repeated values are
collected, packed or not, and unknown fields are passed over. -/
def merge (event : NarwhalCommitEvent) : Field → Option NarwhalCommitEvent
  | (1, .varint n) => some { event with narwhalSequenceNumber := UInt64.ofNat n }
  | (2, .varint n) =>
    some { event with ethSequenceNumbers := event.ethSequenceNumbers ++ [UInt64.ofNat n] }
  | (2, .len bytes) => do
    let values ← readPacked bytes
    return { event with
      ethSequenceNumbers := event.ethSequenceNumbers ++ values.map UInt64.ofNat }
  | (3, .len bytes) => some { event with ethBlockDigest := event.ethBlockDigest ++ [bytes] }
  | (4, .len bytes) => some { event with extensions := bytes }
  | (5, .len bytes) => some { event with leaderHeaderDigest := bytes }
  | _ => some event

def decode (bytes : Bytes) : Option NarwhalCommitEvent := do
  let fields ← readFields bytes
  fields.foldlM merge {}

/-! ## What geth reads -/

variable {event : NarwhalCommitEvent}

theorem merge_uint64Field (n : UInt64) (h : event.narwhalSequenceNumber = 0) :
    (uint64Field 1 n).foldlM merge event = some { event with narwhalSequenceNumber := n } := by
  unfold uint64Field
  split_ifs with hn
  · subst hn
    rw [← h]
    rfl
  · simp [merge]

theorem merge_packedField (values : List UInt64) :
    (packedField 2 values).foldlM merge event =
      some { event with ethSequenceNumbers := event.ethSequenceNumbers ++ values } := by
  unfold packedField
  split_ifs with hvalues
  · simp [hvalues]
  · simp [merge, Function.comp_def]

theorem merge_repeatedField (headers : List Bytes) :
    (repeatedField 3 headers).foldlM merge event =
      some { event with ethBlockDigest := event.ethBlockDigest ++ headers } := by
  unfold repeatedField
  induction headers generalizing event with
  | nil => simp
  | cons bytes headers ih => simp [merge, ih]

theorem merge_messageField (encoded : Option Bytes) (h : event.extensions = []) :
    (messageField 4 encoded).foldlM merge event =
      some { event with extensions := encoded.getD [] } := by
  unfold messageField
  cases encoded with
  | none => simp [← h]
  | some bytes => simp [merge]

theorem merge_bytesField (bytes : Bytes) (h : event.leaderHeaderDigest = []) :
    (bytesField 5 bytes).foldlM merge event = some { event with leaderHeaderDigest := bytes } := by
  unfold bytesField
  split_ifs with hbytes
  · simp [hbytes, ← h]
  · simp [merge]

/-- Geth reads the DAG proof as the extensions, and the extensions as the digest of the leader's
header. -/
theorem decode_encode (sent : GatewayProto.NarwhalCommitEvent) :
    decode sent.encode = some
      { narwhalSequenceNumber := sent.narwhalSequenceNumber
        ethSequenceNumbers := sent.ethSequenceNumbers
        ethBlockDigest := sent.ethHeaderDigest
        extensions := (sent.dagProof.map GatewayProto.DagProof.encode).getD []
        leaderHeaderDigest := sent.extensions } := by
  unfold decode GatewayProto.NarwhalCommitEvent.encode
  rw [readFields_encodeFields]
  simp only [Option.bind_eq_bind, Option.bind_some, List.foldlM_append]
  simp [merge_uint64Field, merge_packedField, merge_repeatedField, merge_messageField,
    merge_bytesField]

/-- Every field has the value of the field of the same meaning. -/
def Agrees (sent : GatewayProto.NarwhalCommitEvent) (received : NarwhalCommitEvent) : Prop :=
  received.narwhalSequenceNumber = sent.narwhalSequenceNumber ∧
  received.ethSequenceNumbers = sent.ethSequenceNumbers ∧
  received.ethBlockDigest = sent.ethHeaderDigest ∧
  received.extensions = sent.extensions ∧
  some received.leaderHeaderDigest = sent.dagProof.map GatewayProto.DagProof.headerDigest

instance (sent : GatewayProto.NarwhalCommitEvent) (received : NarwhalCommitEvent) :
    Decidable (Agrees sent received) :=
  inferInstanceAs (Decidable (_ ∧ _ ∧ _ ∧ _ ∧ _))

/-- Geth reads the event of the gateway as it was meant exactly if there is neither a sub-dag nor a
proof in it. -/
theorem decode_agrees_iff (subDagIndex : UInt64) (headers : List Bytes) (subDag : Bytes)
    (proof : GatewayProto.DagProof) :
    let sent := GatewayProto.narwhalCommitEvt subDagIndex headers subDag proof
    (∃ received, decode sent.encode = some received ∧ Agrees sent received) ↔
      subDag = [] ∧ proof.leaderCertificate = [] ∧ proof.headerDigest = [] := by
  intro sent
  rw [decode_encode]
  constructor
  · rintro ⟨received, hreceived, -, -, -, hextensions, hleader⟩
    cases hreceived
    have hencoded : proof.encode = subDag := hextensions
    have hdigest : subDag = proof.headerDigest := Option.some.inj hleader
    -- the encoding of a proof is longer than each of its parts
    have hempty : proof.headerDigest = [] := by
      by_contra hne
      have hfield : (2, Value.len proof.headerDigest) ∈
          bytesField 1 proof.leaderCertificate ++ bytesField 2 proof.headerDigest := by
        simp [bytesField, hne]
      have hlength : proof.headerDigest.length < proof.encode.length :=
        length_lt_encodeFields hfield
      rw [hencoded, hdigest] at hlength
      exact lt_irrefl _ hlength
    rw [hempty] at hdigest
    refine ⟨hdigest, ?_, hempty⟩
    by_contra hne
    have hfield : (1, Value.len proof.leaderCertificate) ∈
        bytesField 1 proof.leaderCertificate ++ bytesField 2 proof.headerDigest := by
      simp [bytesField, hne]
    have hlength : proof.leaderCertificate.length < proof.encode.length :=
      length_lt_encodeFields hfield
    rw [hencoded, hdigest] at hlength
    exact absurd hlength (Nat.not_lt_zero _)
  · rintro ⟨rfl, hleader, hdigest⟩
    have hencoded : proof.encode = [] := by
      simp [GatewayProto.DagProof.encode, bytesField, hleader, hdigest, encodeFields]
    refine ⟨_, rfl, rfl, rfl, rfl, hencoded, ?_⟩
    exact congrArg some hdigest.symm

/-- Geth has the encoded proof for the sub-dag, and the sub-dag for the digest of the header. -/
theorem proof_read_as_extensions :
    let sent := GatewayProto.narwhalCommitEvt 7 [[1, 2]] [9] ⟨[123, 125], [97]⟩
    ∃ received, decode sent.encode = some received ∧
      received.extensions = [10, 2, 123, 125, 18, 1, 97] ∧ received.leaderHeaderDigest = [9] ∧
      ¬ Agrees sent received := by
  intro sent
  exact ⟨_, decode_encode sent, by decide +kernel, by decide +kernel, by decide +kernel⟩

/-- The part of the event that the adapter uses. -/
def toEvent (event : NarwhalCommitEvent) : Geth.NarwhalCommitEvent :=
  ⟨event.narwhalSequenceNumber.toNat, event.ethBlockDigest⟩

theorem decode_commitEvent {K D H : Type} (codec : Gateway.Codec K D H)
    (consensusOutput : Gateway.GatewayConsensusOutput) {subdag : Narwhal.CommittedSubDag K D}
    (hsubdag : codec.deserialize consensusOutput.subDag = some subdag)
    (hindex : subdag.subDagIndex < 2 ^ 64) (proof : GatewayProto.DagProof) :
    (decode (GatewayProto.narwhalCommitEvt (UInt64.ofNat subdag.subDagIndex)
      consensusOutput.batches consensusOutput.subDag proof).encode).map toEvent =
      Gateway.commitEvent codec consensusOutput := by
  unfold Gateway.commitEvent
  rw [decode_encode, hsubdag]
  simp [toEvent, GatewayProto.narwhalCommitEvt, UInt64.toNat_ofNat_of_lt' hindex]

end NarwhalCommitEvent

end GethProto

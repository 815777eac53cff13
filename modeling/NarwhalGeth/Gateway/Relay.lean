import NarwhalGeth.Lib.Fallible
import NarwhalGeth.Lib.Protobuf
import NarwhalGeth.Narwhal.Types
import NarwhalGeth.Geth.Adapter

/-!
# The relay of committed sub-dags

The executor of Narwhal fetches the batches of every committed sub-dag. The relay decodes the
proposals among their transactions and sends the headers to the gateway, which turns each message
into a commit event for the adapter of geth.
-/

namespace Narwhal

open Geth (Bytes)

variable {K D : Type}

/-! ## The executor -/

structure Batch where
  transactions : List Bytes

/-- A committed sub-dag with the batches of each of its certificates. -/
structure ConsensusOutput (K D : Type) where
  subDag : CommittedSubDag K D
  batches : List (Certificate K D × List Batch)

namespace CommittedSubDag

def numBatches (subDag : CommittedSubDag K D) : ℕ :=
  (subDag.certificates.map fun cert => cert.header.payload.length).sum

theorem numBatches_pos {subDag : CommittedSubDag K D} :
    0 < subDag.numBatches ↔ ∃ cert ∈ subDag.certificates, cert.header.payload ≠ [] := by
  simp [numBatches, List.sum_pos_iff_exists_pos_nat, List.length_pos_iff]

end CommittedSubDag

/-- Fetches the batches of a sub-dag. `fetchPayload` gives the batch that a worker returned for a
digest. -/
def fetchPayloads (fetchPayload : D → ℕ → Batch) (deliver : CommittedSubDag K D) :
    ConsensusOutput K D :=
  if deliver.numBatches = 0 then ⟨deliver, []⟩
  else
    ⟨deliver, deliver.certificates.map fun cert =>
      (cert, cert.header.payload.map fun (digest, workerId, _) => fetchPayload digest workerId)⟩

/-- The state of the execution that the node configures keeps no record of executed sub-dags. -/
def SimpleExecutionState.lastExecutedSubDagIndex : ℕ := 0

end Narwhal

namespace Gateway

open Narwhal
open Geth (Bytes NarwhalCommitEvent NarwhalOutput)

variable {K D H : Type} {subDag : CommittedSubDag K D} {fetchPayload : D → ℕ → Batch}

/-! ## Messages -/

/-- A proposal as geth submits it: a block and its header, encoded. -/
structure Proposal where
  ethereumBlock : Bytes
  ethereumHeader : Bytes
deriving DecidableEq

/-- A message of the relay to the gateway: the serialized sub-dag and the headers of its proposals.
-/
structure GatewayConsensusOutput where
  subDag : Bytes
  batches : List Bytes
deriving DecidableEq

/-- The encodings that the stages use: protobuf for proposals, `bincode` for sub-dags and RLP for
headers. -/
structure Codec (K D H : Type) where
  encodeProposal : Proposal → Bytes
  decodeProposal : Bytes → Option Proposal
  serialize : CommittedSubDag K D → Bytes
  deserialize : Bytes → Option (CommittedSubDag K D)
  decodeHeader : Bytes → Option (Geth.Header H)

/-! ## The relay -/

/-- Collects the headers of an output's proposals. The relay panics on a transaction that is not
one. -/
def headerBatches (codec : Codec K D H) (consensusOutput : ConsensusOutput K D) :
    Option (List Bytes) :=
  consensusOutput.batches.foldlM (fun headers (_, batches) =>
    batches.foldlM (fun headers batch =>
      batch.transactions.foldlM (fun headers transaction => do
        let data ← codec.decodeProposal transaction
        return headers ++ [data.ethereumHeader]) headers) headers) []

/-- The message sent for an output, if any: an output without batches is skipped. -/
def handleEthereumBlock (codec : Codec K D H) (consensusOutput : ConsensusOutput K D) :
    Option (Option GatewayConsensusOutput) :=
  if consensusOutput.batches.length = 0 then some none
  else do
    let headers ← headerBatches codec consensusOutput
    return some ⟨codec.serialize consensusOutput.subDag, headers⟩

/-- The commit event for a message. The notifier panics if the sub-dag does not deserialize. -/
def commitEvent (codec : Codec K D H) (consensusOutput : GatewayConsensusOutput) :
    Option NarwhalCommitEvent := do
  let subdag ← codec.deserialize consensusOutput.subDag
  return ⟨subdag.subDagIndex, consensusOutput.batches⟩

theorem fetchPayloads_subDag (fetchPayload : D → ℕ → Batch) (subDag : CommittedSubDag K D) :
    (fetchPayloads fetchPayload subDag).subDag = subDag := by
  unfold fetchPayloads
  split_ifs <;> rfl

theorem fetchPayloads_length_eq_zero :
    (fetchPayloads fetchPayload subDag).batches.length = 0 ↔ subDag.numBatches = 0 := by
  by_cases hbatches : subDag.numBatches = 0
  · simp [fetchPayloads, hbatches]
  · obtain ⟨cert, hcert, -⟩ := CommittedSubDag.numBatches_pos.mp (Nat.pos_of_ne_zero hbatches)
    simpa [fetchPayloads, hbatches] using List.ne_nil_of_mem hcert

/-- A sub-dag without batches is skipped, and the message of any other one has its serialization. -/
theorem handleEthereumBlock_cases {codec : Codec K D H} {request : Option GatewayConsensusOutput}
    (h : handleEthereumBlock codec (fetchPayloads fetchPayload subDag) = some request) :
    (request = none ∧ subDag.numBatches = 0) ∨
      ∃ message, request = some message ∧ message.subDag = codec.serialize subDag ∧
        0 < subDag.numBatches := by
  unfold handleEthereumBlock at h
  split_ifs at h with hempty
  · cases h
    exact .inl ⟨rfl, fetchPayloads_length_eq_zero.mp hempty⟩
  · obtain ⟨headers, -, heq⟩ := Option.bind_eq_some_iff.mp h
    cases heq
    refine .inr ⟨_, rfl, congrArg codec.serialize (fetchPayloads_subDag _ _), ?_⟩
    exact Nat.pos_of_ne_zero fun hzero => hempty (fetchPayloads_length_eq_zero.mpr hzero)

/-! ## The headers of a sub-dag -/

/-- The proposals of a sub-dag in commit order: by certificate, then by batch, then by transaction.
-/
def commitOrder (proposals : D → ℕ → List Proposal) (subDag : CommittedSubDag K D) :
    List Proposal :=
  subDag.certificates.flatMap fun cert =>
    cert.header.payload.flatMap fun (digest, workerId, _) => proposals digest workerId

/-- The batches of a sub-dag hold the encodings of the given proposals, each with the encoding of a
header. -/
structure Proposes (codec : Codec K D H) (fetchPayload : D → ℕ → Batch)
    (proposals : D → ℕ → List Proposal) (header : Proposal → Geth.Header H)
    (subDag : CommittedSubDag K D) : Prop where
  serialized : codec.deserialize (codec.serialize subDag) = some subDag
  transactions : ∀ cert ∈ subDag.certificates, ∀ entry ∈ cert.header.payload,
    (fetchPayload entry.1 entry.2.1).transactions =
      (proposals entry.1 entry.2.1).map codec.encodeProposal
  encoded : ∀ p ∈ commitOrder proposals subDag,
    codec.decodeProposal (codec.encodeProposal p) = some p
  decodable : ∀ p ∈ commitOrder proposals subDag,
    codec.decodeHeader p.ethereumHeader = some (header p)

/-- The message for a sub-dag with the given proposals. -/
def message (codec : Codec K D H) (proposals : D → ℕ → List Proposal)
    (subDag : CommittedSubDag K D) : GatewayConsensusOutput :=
  ⟨codec.serialize subDag, (commitOrder proposals subDag).map Proposal.ethereumHeader⟩

/-- The output that geth receives for a sub-dag with the given proposals. -/
def commitOutput (proposals : D → ℕ → List Proposal) (header : Proposal → Geth.Header H)
    (subDag : CommittedSubDag K D) : NarwhalOutput H :=
  ⟨(commitOrder proposals subDag).map header,
    ⟨subDag.subDagIndex, (commitOrder proposals subDag).map Proposal.ethereumHeader⟩⟩

namespace Proposes

variable {codec : Codec K D H} {fetchPayload : D → ℕ → Batch}
  {proposals : D → ℕ → List Proposal} {header : Proposal → Geth.Header H}
  {subDag : CommittedSubDag K D}

section

variable (h : Proposes codec fetchPayload proposals header subDag)

include h

theorem foldlM_transactions {cert : Certificate K D} (hcert : cert ∈ subDag.certificates)
    {entry : D × ℕ × ℕ} (hentry : entry ∈ cert.header.payload) (headers : List Bytes) :
    ((fetchPayload entry.1 entry.2.1).transactions.foldlM (fun headers transaction => do
      let data ← codec.decodeProposal transaction
      return headers ++ [data.ethereumHeader]) headers) =
      some (headers ++ (proposals entry.1 entry.2.1).map Proposal.ethereumHeader) := by
  rw [h.transactions cert hcert entry hentry, List.foldlM_map, List.map_eq_flatMap]
  apply List.foldlM_eq_some_append
  intro p hp acc
  have hcommit : p ∈ commitOrder proposals subDag :=
    List.mem_flatMap.mpr ⟨cert, hcert, List.mem_flatMap.mpr ⟨entry, hentry, hp⟩⟩
  rw [h.encoded p hcommit]
  rfl

theorem headerBatches_fetchPayloads (hbatches : subDag.numBatches ≠ 0) :
    headerBatches codec (fetchPayloads fetchPayload subDag) =
      some ((commitOrder proposals subDag).map Proposal.ethereumHeader) := by
  unfold headerBatches fetchPayloads commitOrder
  rw [if_neg hbatches, List.map_flatMap, ← List.nil_append (List.flatMap _ _)]
  dsimp only
  rw [List.foldlM_map]
  apply List.foldlM_eq_some_append
  intro cert hcert headers
  rw [List.foldlM_map, List.map_flatMap]
  apply List.foldlM_eq_some_append
  intro entry hentry headers
  exact h.foldlM_transactions hcert hentry headers

/-- The relay skips the sub-dags without batches, and sends one message for each other one. -/
theorem handleEthereumBlock_fetchPayloads :
    handleEthereumBlock codec (fetchPayloads fetchPayload subDag) =
      some (if subDag.numBatches = 0 then none else some (message codec proposals subDag)) := by
  by_cases hbatches : subDag.numBatches = 0
  · simp [handleEthereumBlock, fetchPayloads, hbatches]
  · have hlength : (fetchPayloads fetchPayload subDag).batches.length ≠ 0 :=
      fun hzero => hbatches (fetchPayloads_length_eq_zero.mp hzero)
    unfold handleEthereumBlock
    rw [if_neg hlength, h.headerBatches_fetchPayloads hbatches, if_neg hbatches,
      fetchPayloads_subDag]
    rfl

theorem commitEvent_message :
    commitEvent codec (message codec proposals subDag) =
      some (commitOutput proposals header subDag).evt := by
  unfold commitEvent message
  rw [h.serialized]
  rfl

theorem mapM_decodeHeader :
    (commitOutput proposals header subDag).evt.ethBlockDigest.mapM codec.decodeHeader =
      some (commitOutput proposals header subDag).headers := by
  unfold commitOutput
  rw [List.mapM_map]
  exact List.mapM_eq_some_map fun p hp => h.decodable p hp

end

end Proposes

/-! ## The loop of the relay -/

/-- The transactions of an output in commit order. -/
def transactions (output : ConsensusOutput K D) : List Bytes :=
  output.batches.flatMap fun (_, batches) => batches.flatMap Batch.transactions

/-- The headers of the transactions that decode as proposals. -/
def decodedHeaders (codec : Codec K D H) (output : ConsensusOutput K D) : List Bytes :=
  (transactions output).filterMap fun transaction =>
    (codec.decodeProposal transaction).map Proposal.ethereumHeader

/-- The relay: the messages it has sent, and whether its task still runs. -/
structure RelayEth where
  sent : List GatewayConsensusOutput
  running : Bool

/-- Handles the next output. A panic ends the task. -/
def RelayEth.next (codec : Codec K D H) (relay : RelayEth) (output : ConsensusOutput K D) :
    RelayEth :=
  if relay.running then
    match handleEthereumBlock codec output with
    | none => { relay with running := false }
    | some none => relay
    | some (some request) => { relay with sent := relay.sent ++ [request] }
  else relay

def relayEth (codec : Codec K D H) (outputs : List (ConsensusOutput K D)) : RelayEth :=
  outputs.foldl (RelayEth.next codec) ⟨[], true⟩

/-- The relay runs, and has sent the headers of every output that has a proposal. -/
structure Relays (codec : Codec K D H) (outputs : List (ConsensusOutput K D)) (relay : RelayEth) :
    Prop where
  running : relay.running = true
  sent : ∀ output ∈ outputs,
    (∃ transaction ∈ transactions output, (codec.decodeProposal transaction).isSome) →
    ⟨codec.serialize output.subDag, decodedHeaders codec output⟩ ∈ relay.sent

variable {codec : Codec K D H} {output : ConsensusOutput K D} {relay : RelayEth}
  {outputs : List (ConsensusOutput K D)}

theorem headerBatches_eq_mapM : headerBatches codec output =
    (transactions output).mapM fun transaction =>
      (codec.decodeProposal transaction).map Proposal.ethereumHeader := by
  have hcollect := List.foldlM_collect
    (fun transaction => (codec.decodeProposal transaction).map Proposal.ethereumHeader)
    (transactions output) []
  simp only [List.nil_append, Option.map_id_fun', id] at hcollect
  rw [← hcollect]
  unfold headerBatches transactions
  rw [← List.foldlM_foldlM]
  congr 1
  funext headers ⟨cert, batches⟩
  dsimp only
  rw [← List.foldlM_foldlM]
  congr 1
  funext headers batch
  congr 1
  funext headers transaction
  cases codec.decodeProposal transaction <;> rfl

/-- The relay panics on an output exactly if one of its transactions does not decode. -/
theorem handleEthereumBlock_eq_none_iff : handleEthereumBlock codec output = none ↔
    ∃ transaction ∈ transactions output, codec.decodeProposal transaction = none := by
  unfold handleEthereumBlock
  split_ifs with hempty
  · have hnone : transactions output = [] := by
      simp [transactions, List.eq_nil_of_length_eq_zero hempty]
    simp [hnone]
  · have hmapM : ((transactions output).mapM fun transaction =>
        (codec.decodeProposal transaction).map Proposal.ethereumHeader) = none ↔
        ∃ transaction ∈ transactions output, codec.decodeProposal transaction = none := by
      rw [List.mapM_eq_none_iff]
      simp only [Option.map_eq_none_iff]
    rw [headerBatches_eq_mapM, ← hmapM]
    cases (transactions output).mapM fun transaction =>
      (codec.decodeProposal transaction).map Proposal.ethereumHeader <;> simp

theorem handleEthereumBlock_of_decodes
    (hdecodes : ∀ transaction ∈ transactions output, (codec.decodeProposal transaction).isSome)
    (hne : transactions output ≠ []) : handleEthereumBlock codec output =
      some (some ⟨codec.serialize output.subDag, decodedHeaders codec output⟩) := by
  have hbatches : output.batches.length ≠ 0 := by
    intro hempty
    exact hne (by simp [transactions, List.eq_nil_of_length_eq_zero hempty])
  have hheaders : ∀ transaction ∈ transactions output,
      ((codec.decodeProposal transaction).map Proposal.ethereumHeader).isSome := by
    simpa using hdecodes
  unfold handleEthereumBlock
  rw [if_neg hbatches, headerBatches_eq_mapM, List.mapM_eq_some_filterMap hheaders]
  rfl

theorem foldl_next_of_stopped (hstopped : relay.running = false) :
    outputs.foldl (RelayEth.next codec) relay = relay := by
  induction outputs with
  | nil => rfl
  | cons output outputs ih =>
    have hnext : relay.next codec output = relay := by simp [RelayEth.next, hstopped]
    rw [List.foldl_cons, hnext, ih]

theorem ne_none_of_running (h : (outputs.foldl (RelayEth.next codec) relay).running = true) :
    ∀ output ∈ outputs, handleEthereumBlock codec output ≠ none := by
  induction outputs generalizing relay with
  | nil => simp
  | cons output outputs ih =>
    rw [List.foldl_cons] at h
    refine List.forall_mem_cons.mpr ⟨fun hnone => ?_, ih h⟩
    have hstopped : (relay.next codec output).running = false := by
      unfold RelayEth.next
      rw [hnone]
      split_ifs with hrunning
      · rfl
      · simpa using hrunning
    rw [foldl_next_of_stopped hstopped, hstopped] at h
    cases h

/-- The messages for the outputs are sent in their order, if the relay panics on none of them. -/
theorem foldl_next_of_forall (hrunning : relay.running = true)
    (h : ∀ output ∈ outputs, handleEthereumBlock codec output ≠ none) :
    outputs.foldl (RelayEth.next codec) relay =
      ⟨relay.sent ++ outputs.filterMap fun output => (handleEthereumBlock codec output).join,
        true⟩ := by
  induction outputs generalizing relay with
  | nil => simp [← hrunning]
  | cons output outputs ih =>
    obtain ⟨houtput, houtputs⟩ := List.forall_mem_cons.mp h
    cases hhandle : handleEthereumBlock codec output with
    | none => exact absurd hhandle houtput
    | some request =>
      cases request with
      | none =>
        have hnext : relay.next codec output = relay := by
          simp [RelayEth.next, hrunning, hhandle]
        rw [List.foldl_cons, hnext, ih hrunning houtputs]
        simp [hhandle]
      | some request =>
        have hnext : relay.next codec output = { relay with sent := relay.sent ++ [request] } := by
          simp [RelayEth.next, hrunning, hhandle]
        have hrest := @ih { relay with sent := relay.sent ++ [request] } hrunning houtputs
        rw [List.foldl_cons, hnext, hrest]
        simp [hhandle]

/-- The relay does what it should with a sequence of outputs exactly if all their transactions
decode. -/
theorem relayEth_relays_iff (codec : Codec K D H) (outputs : List (ConsensusOutput K D)) :
    Relays codec outputs (relayEth codec outputs) ↔
      ∀ output ∈ outputs, ∀ transaction ∈ transactions output,
        (codec.decodeProposal transaction).isSome := by
  constructor
  · intro h output houtput transaction htransaction
    have hne := ne_none_of_running h.running output houtput
    rw [Ne, handleEthereumBlock_eq_none_iff] at hne
    push Not at hne
    exact Option.isSome_iff_ne_none.mpr (hne transaction htransaction)
  · intro h
    have hne : ∀ output ∈ outputs, handleEthereumBlock codec output ≠ none := by
      intro output houtput
      rw [Ne, handleEthereumBlock_eq_none_iff]
      push Not
      intro transaction htransaction
      exact Option.isSome_iff_ne_none.mp (h output houtput transaction htransaction)
    have hrelay : relayEth codec outputs = ⟨outputs.filterMap fun output =>
        (handleEthereumBlock codec output).join, true⟩ := foldl_next_of_forall rfl hne
    rw [hrelay]
    refine ⟨rfl, ?_⟩
    rintro output houtput ⟨transaction, htransaction, -⟩
    have hhandle := handleEthereumBlock_of_decodes (h output houtput)
      (List.ne_nil_of_mem htransaction)
    exact List.mem_filterMap.mpr ⟨output, houtput, by rw [hhandle]; rfl⟩

namespace Sample

/-- Reads a field into a proposal. The fields that the schema has are bytes. -/
def mergeProposal (proposal : Proposal) : Protobuf.Field → Option Proposal
  | (1, .len bytes) => some { proposal with ethereumBlock := bytes }
  | (2, .len bytes) => some { proposal with ethereumHeader := bytes }
  | (1, .varint _) | (2, .varint _) => none
  | _ => some proposal

/-- A relay with the protobuf encoding of proposals. -/
def relayCodec : Codec ℕ ℕ ℕ where
  encodeProposal proposal := Protobuf.encodeFields
    (Protobuf.bytesField 1 proposal.ethereumBlock ++ Protobuf.bytesField 2 proposal.ethereumHeader)
  decodeProposal bytes := (Protobuf.readFields bytes).bind fun fields =>
    fields.foldlM mergeProposal ⟨[], []⟩
  serialize subDag := List.replicate subDag.subDagIndex 0
  deserialize _ := none
  decodeHeader _ := none

/-- An output with one certificate, of one batch. -/
def relayOutput (index : ℕ) (transactions : List Bytes) : ConsensusOutput ℕ ℕ :=
  let cert : Certificate ℕ ℕ := ⟨⟨0, 2 * index, 0, 0, [(index, 0, 0)], [], index, []⟩⟩
  ⟨⟨[cert], cert, index⟩, [(cert, [⟨transactions⟩])]⟩

end Sample

/-- The first output has a transaction that announces five bytes and ends. Neither its proposal nor
that of the second output is sent. -/
theorem malformed_transaction_stops_relay :
    let proposal := Sample.relayCodec.encodeProposal ⟨[1], [2]⟩
    let outputs := [Sample.relayOutput 1 [[10, 5], proposal], Sample.relayOutput 2 [proposal]]
    Sample.relayCodec.decodeProposal proposal = some ⟨[1], [2]⟩ ∧
      (relayEth Sample.relayCodec outputs).sent = [] ∧
      (relayEth Sample.relayCodec outputs).running = false ∧
      ¬ Relays Sample.relayCodec outputs (relayEth Sample.relayCodec outputs) := by
  intro proposal outputs
  have hstopped : (relayEth Sample.relayCodec outputs).running = false := by decide +kernel
  refine ⟨by decide +kernel, by decide +kernel, hstopped, fun h => ?_⟩
  have hrunning : (relayEth Sample.relayCodec outputs).running = true := h.running
  exact absurd (hstopped.symm.trans hrunning) Bool.false_ne_true

end Gateway

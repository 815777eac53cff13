import Mathlib.Data.List.Basic
import Mathlib.Logic.Basic

/-!
# The Narwhal adapter of geth

The adapter submits sealed blocks to the gateway and hands the commit events that the gateway
notifies to the miner, through a queue. A block is accepted against an event by its number only.
-/

namespace Geth

/-! ## Blocks -/

/-- A block header. `fields` stands for the sealed fields other than parent and number, `signature`
for the seal at the end of `Extra`. -/
structure Header (H : Type) where
  parentHash : H
  number : ℕ
  fields : H
  signature : H
deriving DecidableEq

/-- A block, with the hashes of its transactions. -/
structure Block (H : Type) where
  header : Header H
  transactions : List H
deriving DecidableEq

namespace Block

variable {H : Type}

def number (block : Block H) : ℕ := block.header.number

/-- The block with the given header. -/
def withSeal (block : Block H) (header : Header H) : Block H := { block with header }

end Block

abbrev Bytes := List UInt8

/-- The message by which the gateway notifies a committed sub-dag. -/
structure NarwhalCommitEvent where
  narwhalSequenceNumber : ℕ
  ethBlockDigest : List Bytes
deriving DecidableEq

/-- A commit event with its decoded headers. -/
structure NarwhalOutput (H : Type) where
  headers : List (Header H)
  evt : NarwhalCommitEvent
deriving DecidableEq

/-! ## The connection to the gateway -/

inductive Connectivity where
  | idle | connecting | ready | transientFailure | shutdown
deriving DecidableEq

/-- How one call of `broadcast` is answered: whether a dial succeeds, the health check, the state of
the connection and the reply to the submission. A reply is missing after an error or a timeout,
whether or not the gateway has accepted the proposal. -/
structure GatewayAnswer where
  dial : Bool
  serving : Option Bool
  state : Connectivity
  successOrFail : Option String

/-- The adapter: whether it has a connection, its queue of commit events and the sequence numbers it
has seen. -/
structure NarwhalAdapter (H : Type) where
  gatewayConn : Bool
  outc : List (NarwhalOutput H)
  committedSeqs : List ℕ

namespace NarwhalAdapter

variable {H : Type} {decode : Bytes → Option (Header H)} {req : NarwhalCommitEvent}

/-- The capacity of the queue of commit events. -/
def outcSize : ℕ := 100

def getNarwhalAdapter : NarwhalAdapter H := ⟨false, [], []⟩

/-- The `switch` has no fall-through, so that only a transient failure counts as a lost
connection. -/
def checkConnection (answer : GatewayAnswer) : Bool :=
  match answer.serving with
  | none => false
  | some false => false
  | some true =>
    match answer.state with
    | .idle => true
    | .shutdown => true
    | .transientFailure => false
    | .connecting | .ready => true

/-- Submits a block to the gateway. -/
def broadcast (adapter : NarwhalAdapter H) (answer : GatewayAnswer) :
    Except String Unit × NarwhalAdapter H :=
  if !adapter.gatewayConn && !answer.dial then (.error "Did not connect Narwhal Gateway", adapter)
  else
    let adapter := { adapter with gatewayConn := true }
    if !checkConnection answer then (.error "gateway connection lost!", adapter)
    else
      match answer.successOrFail with
      | none => (.error "could not request", adapter)
      | some "fail" => (.error "Failed to Submit Tx to narwhal gateway!", adapter)
      | some _ => (.ok (), adapter)

/-! ## Commit events -/

/-- Takes the next commit event, if there is one. -/
def waitForCommit (adapter : NarwhalAdapter H) : Option (NarwhalOutput H × NarwhalAdapter H) :=
  match adapter.outc with
  | [] => none
  | output :: outc => some (output, { adapter with outc })

/-- The block, if some header of the event has its number. -/
def rebuildHeaderWithNarwhalSig (block : Block H) (output : NarwhalOutput H) :
    Except (ℕ × List ℕ) (Block H) :=
  match output.headers.find? fun header => block.number = header.number with
  | some _ => .ok (block.withSeal block.header)
  | none => .error (block.number, output.headers.map Header.number)

/-- Handles a commit event. The sequence number is marked before the headers are decoded, and a
header that does not decode ends the process. -/
def notify (decode : Bytes → Option (Header H)) (adapter : NarwhalAdapter H)
    (req : NarwhalCommitEvent) : Option (String × NarwhalAdapter H) :=
  if req.narwhalSequenceNumber ∈ adapter.committedSeqs then
    some ("already got it, but thanks tho", adapter)
  else
    let committedSeqs := req.narwhalSequenceNumber :: adapter.committedSeqs
    match req.ethBlockDigest.mapM decode with
    | none => none
    | some headers =>
      some ("thanks", { adapter with committedSeqs, outc := adapter.outc ++ [⟨headers, req⟩] })

/-! ## Properties -/

variable {adapter adapter' : NarwhalAdapter H} {block : Block H} {output : NarwhalOutput H}

theorem rebuildHeaderWithNarwhalSig_eq_ok {block' : Block H} :
    rebuildHeaderWithNarwhalSig block output = .ok block' ↔
      block' = block ∧ ∃ header ∈ output.headers, header.number = block.number := by
  unfold rebuildHeaderWithNarwhalSig
  cases hfind : output.headers.find? fun header => block.number = header.number with
  | some header =>
    have hmem := List.mem_of_find?_eq_some hfind
    have hnumber : block.number = header.number := by simpa using List.find?_some hfind
    constructor
    · intro h
      exact ⟨(Except.ok.inj h).symm, header, hmem, hnumber.symm⟩
    · rintro ⟨rfl, -⟩
      rfl
  | none =>
    constructor
    · intro h
      cases h
    · rintro ⟨-, header, hmem, hnumber⟩
      exact absurd hnumber.symm (by simpa using List.find?_eq_none.mp hfind header hmem)

theorem rebuildHeaderWithNarwhalSig_eq_error {e : ℕ × List ℕ}
    (h : rebuildHeaderWithNarwhalSig block output = .error e) :
    ∀ header ∈ output.headers, header.number ≠ block.number := by
  intro header hmem hnumber
  have hok := rebuildHeaderWithNarwhalSig_eq_ok.mpr ⟨rfl, header, hmem, hnumber⟩
  rw [h] at hok
  cases hok

@[simp] theorem broadcast_outc (adapter : NarwhalAdapter H) (answer : GatewayAnswer) :
    (adapter.broadcast answer).2.outc = adapter.outc := by
  unfold broadcast
  dsimp only
  split_ifs
  · rfl
  · rfl
  · split <;> rfl

/-- A notification is ignored, or puts one event at the end of the queue. -/
theorem notify_cases {resp : String} (h : adapter.notify decode req = some (resp, adapter')) :
    (req.narwhalSequenceNumber ∈ adapter.committedSeqs ∧ adapter' = adapter) ∨
      ∃ headers, req.narwhalSequenceNumber ∉ adapter.committedSeqs ∧
        req.ethBlockDigest.mapM decode = some headers ∧
        adapter' =
          { adapter with
            committedSeqs := req.narwhalSequenceNumber :: adapter.committedSeqs
            outc := adapter.outc ++ [⟨headers, req⟩] } := by
  unfold notify at h
  split_ifs at h with hseen
  · cases h
    exact .inl ⟨hseen, rfl⟩
  · dsimp only at h
    cases hdecode : req.ethBlockDigest.mapM decode with
    | none =>
      rw [hdecode] at h
      cases h
    | some headers =>
      rw [hdecode] at h
      cases h
      exact .inr ⟨headers, hseen, rfl, rfl⟩

/-- An event whose headers decode is answered, and takes at most one place in the queue. -/
theorem exists_notify {headers : List (Header H)}
    (hdecode : req.ethBlockDigest.mapM decode = some headers) (adapter : NarwhalAdapter H) :
    ∃ resp adapter', adapter.notify decode req = some (resp, adapter') ∧
      adapter'.outc.length ≤ adapter.outc.length + 1 := by
  unfold notify
  split_ifs
  · exact ⟨_, _, rfl, Nat.le_succ _⟩
  · rw [hdecode]
    exact ⟨_, _, rfl, by simp⟩

end NarwhalAdapter

end Geth

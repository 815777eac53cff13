import Mathlib.Data.Set.Function
import NarwhalGeth.Lib.Machine
import NarwhalGeth.Gateway.Relay

/-!
# Fetching the batches of a certificate

The executor asks its own worker for the batch of a digest, and then the workers of the other
authorities, whose responses it checks against the digest. The digest is the hash of the
transactions one after the other, so that it does not tell where one ends and the next begins.
-/

namespace Narwhal

open Geth (Bytes)

variable {D : Type} [DecidableEq D] {hash : Bytes → D}

/-- The hash function is fed with each transaction in turn. -/
def Batch.digest (hash : Bytes → D) (batch : Batch) : D := hash batch.transactions.flatten

/-! ## The worker -/

/-- A worker: its batch store, and what each running call of `synchronize` still misses. -/
structure Worker (D : Type) where
  store : Assoc D Batch
  missing : List (List D)

/-- The batch maker seals a batch, another worker reports one, the primary asks to synchronize
digests, a running call receives a response or ends, batches are deleted, the worker restarts with
its store. -/
inductive WorkerEvent (D : Type) where
  | sealBatch (batch : Batch)
  | reportBatch (batch : Batch)
  | synchronize (digests : List D)
  | response (call : ℕ) (batch : Option Batch)
  | finish (call : ℕ)
  | deleteBatches (digests : List D)
  | restart

namespace Worker

def write (hash : Bytes → D) (worker : Worker D) (batch : Batch) : Worker D :=
  { worker with store := worker.store.insert (batch.digest hash) batch }

def reportBatch (hash : Bytes → D) (validateBatch : Batch → Bool) (worker : Worker D)
    (batch : Batch) : Worker D :=
  if validateBatch batch then worker.write hash batch else worker

/-- A call of `synchronize` looks for the digests that are not in the store. -/
def synchronize (worker : Worker D) (digests : List D) : Worker D :=
  { worker with
    missing := worker.missing ++
      [(digests.filter fun digest => (worker.store.lookup digest).isNone).dedup] }

/-- A call gets a response. A batch that is not valid ends it, and one that it misses is stored. -/
def response (hash : Bytes → D) (validateBatch : Batch → Bool) (worker : Worker D) (call : ℕ)
    (batch : Option Batch) : Option (Worker D) :=
  match worker.missing[call]?, batch with
  | none, _ => none
  | some _, none => some worker
  | some missing, some batch =>
    if !validateBatch batch then some { worker with missing := worker.missing.eraseIdx call }
    else if batch.digest hash ∈ missing then
      some
        { worker.write hash batch with
          missing := worker.missing.set call (missing.erase (batch.digest hash)) }
    else some worker

def deleteBatches (worker : Worker D) (digests : List D) : Worker D :=
  { worker with store := digests.foldl (fun store digest => store.erase digest) worker.store }

def step (hash : Bytes → D) (validateBatch : Batch → Bool) (worker : Worker D) :
    WorkerEvent D → Option (Worker D)
  | .sealBatch batch => some (worker.write hash batch)
  | .reportBatch batch => some (worker.reportBatch hash validateBatch batch)
  | .synchronize digests => some (worker.synchronize digests)
  | .response call batch => worker.response hash validateBatch call batch
  | .finish call => some { worker with missing := worker.missing.eraseIdx call }
  | .deleteBatches digests => some (worker.deleteBatches digests)
  | .restart => some { worker with missing := [] }

def machine (hash : Bytes → D) (validateBatch : Batch → Bool) :
    Machine (Worker D) (WorkerEvent D) :=
  ⟨⟨∅, []⟩, step hash validateBatch⟩

/-- Every batch is stored under its digest. -/
def Keyed (hash : Bytes → D) (worker : Worker D) : Prop :=
  ∀ digest batch, worker.store.lookup digest = some batch → batch.digest hash = digest

variable {worker worker' : Worker D} {validateBatch : Batch → Bool}

theorem Keyed.write (h : worker.Keyed hash) (batch : Batch) :
    (worker.write hash batch).Keyed hash := by
  intro digest stored hlookup
  by_cases hdigest : digest = batch.digest hash
  · subst hdigest
    rw [Worker.write, AList.lookup_insert, Option.some_inj] at hlookup
    rw [hlookup]
  · rw [Worker.write, AList.lookup_insert_ne hdigest] at hlookup
    exact h digest stored hlookup

theorem Keyed.deleteBatches (h : worker.Keyed hash) (digests : List D) :
    (worker.deleteBatches digests).Keyed hash := by
  unfold Worker.deleteBatches
  induction digests generalizing worker with
  | nil => exact h
  | cons digest digests ih =>
    have herased : Keyed hash { worker with store := worker.store.erase digest } :=
      fun other batch hlookup => h other batch (Assoc.lookup_of_lookup_erase hlookup)
    exact ih herased

theorem Keyed.response (h : worker.Keyed hash) {call : ℕ} {batch : Option Batch}
    (hstep : worker.response hash validateBatch call batch = some worker') :
    worker'.Keyed hash := by
  unfold Worker.response at hstep
  split at hstep
  · cases hstep
  · cases hstep
    exact h
  · rename_i batch _
    split_ifs at hstep <;> cases hstep
    · exact h
    · exact h.write batch
    · exact h

theorem Keyed.step (h : worker.Keyed hash) {e : WorkerEvent D}
    (hstep : worker.step hash validateBatch e = some worker') : worker'.Keyed hash := by
  cases e with
  | response call batch => exact h.response hstep
  | sealBatch batch =>
    cases hstep
    exact h.write batch
  | reportBatch batch =>
    cases hstep
    unfold Worker.reportBatch
    split_ifs
    · exact h.write batch
    · exact h
  | deleteBatches digests =>
    cases hstep
    exact h.deleteBatches digests
  | synchronize digests =>
    cases hstep
    exact h
  | finish call =>
    cases hstep
    exact h
  | restart =>
    cases hstep
    exact h

theorem keyed_of_reached
    (h : (machine hash validateBatch).Reached (fun _ _ => True) worker) : worker.Keyed hash := by
  refine h.invariant (I := Keyed hash) ?_ fun _ _ _ hkeyed _ hstep => hkeyed.step hstep
  intro digest batch hlookup
  rw [machine, AList.lookup_empty] at hlookup
  cases hlookup

end Worker

/-! ## The executor -/

/-- Why a request for a batch fails. -/
inductive FetchError (D : Type) where
  | network (message : String)
  | mismatchDigest (worker : NetworkPublicKey) (payloadDigest requested : D)
deriving DecidableEq

namespace Fetcher

/-- A response must have the digest that was requested. -/
def safeRequestBatch (hash : Bytes → D) (digest : D) (worker : NetworkPublicKey)
    (response : Except (FetchError D) (Option Batch)) : Except (FetchError D) (Option Batch) :=
  match response with
  | .error e => .error e
  | .ok none => .ok none
  | .ok (some payload) =>
    if payload.digest hash ≠ digest then
      .error (.mismatchDigest worker (payload.digest hash) digest)
    else .ok (some payload)

/-- The requests to the other workers are repeated until a batch comes back. `responses` lists the
answers in the order of arrival. -/
def fetchFromWorkers (hash : Bytes → D) (digest : D)
    (responses : List (NetworkPublicKey × Except (FetchError D) (Option Batch))) : Option Batch :=
  responses.findSome? fun (worker, response) =>
    match safeRequestBatch hash digest worker response with
    | .ok (some payload) => some payload
    | _ => none

/-- The own worker is trusted and asked first. -/
def fetchPayload (hash : Bytes → D) (digest : D) (own : Except (FetchError D) (Option Batch))
    (responses : List (NetworkPublicKey × Except (FetchError D) (Option Batch))) : Option Batch :=
  match own with
  | .ok (some payload) => some payload
  | _ => fetchFromWorkers hash digest responses

/-- An honest validator may execute the batch for the digest: its own worker answers from its store
or not at all, and the others give any responses. -/
def Executes (hash : Bytes → D) (validateBatch : Batch → Bool) (digest : D) (batch : Batch) :
    Prop :=
  ∃ worker own responses, (Worker.machine hash validateBatch).Reached (fun _ _ => True) worker ∧
    (own = .ok (worker.store.lookup digest) ∨ ∃ e, own = .error e) ∧
    fetchPayload hash digest own responses = some batch

variable {digest : D} {batch batch' : Batch} {validateBatch : Batch → Bool}

theorem digest_of_fetchFromWorkers
    {responses : List (NetworkPublicKey × Except (FetchError D) (Option Batch))}
    (h : fetchFromWorkers hash digest responses = some batch) : batch.digest hash = digest := by
  obtain ⟨⟨worker, response⟩, -, h⟩ := List.exists_of_findSome?_eq_some h
  match response with
  | .error e => cases h
  | .ok none => cases h
  | .ok (some payload) =>
    simp only [safeRequestBatch] at h
    split_ifs at h with hdigest
    cases h
    exact not_not.mp hdigest

theorem Executes.digest_eq (h : Executes hash validateBatch digest batch) :
    batch.digest hash = digest := by
  obtain ⟨worker, own, responses, hreached, hown, hfetch⟩ := h
  unfold fetchPayload at hfetch
  split at hfetch
  · rename_i payload
    cases hfetch
    obtain hown | ⟨e, he⟩ := hown
    · exact Worker.keyed_of_reached hreached digest batch (Except.ok.inj hown).symm
    · cases he
  · exact digest_of_fetchFromWorkers hfetch

theorem executes_digest (batch : Batch) :
    Executes hash validateBatch (batch.digest hash) batch := by
  refine ⟨⟨∅, []⟩, .ok none, [([], .ok (some batch))], .start, .inl ?_, ?_⟩
  · rw [AList.lookup_empty]
  · simp [fetchPayload, fetchFromWorkers, safeRequestBatch]

/-! ## What the digest of a batch binds -/

/-- The batches have the same bytes, cut into transactions of different lengths. -/
structure Confusable (batch batch' : Batch) : Prop where
  bytes : batch.transactions.flatten = batch'.transactions.flatten
  lengths : batch.transactions.map List.length ≠ batch'.transactions.map List.length

/-- The bytes can be cut into transactions of given lengths in one way. -/
theorem transactions_eq (hcut : ¬Confusable batch batch')
    (hbytes : batch.transactions.flatten = batch'.transactions.flatten) :
    batch.transactions = batch'.transactions := by
  have hlengths : batch.transactions.map List.length = batch'.transactions.map List.length := by
    by_contra hne
    exact hcut ⟨hbytes, hne⟩
  exact List.eq_iff_flatten_eq.mpr ⟨hbytes, hlengths⟩

/-- Batches with one digest have the same transactions, and so do those that two validators execute
for it. -/
structure BoundByDigest (hash : Bytes → D) (validateBatch : Batch → Bool) (batch batch' : Batch) :
    Prop where
  digest : batch.digest hash = batch'.digest hash → batch.transactions = batch'.transactions
  executed : ∀ digest, Executes hash validateBatch digest batch →
    Executes hash validateBatch digest batch' → batch.transactions = batch'.transactions

/-- If the hash function has no collision on their bytes, two batches are bound by their digest
exactly if they are not confusable. -/
theorem transactions_bound_iff (hash : Bytes → D) (validateBatch : Batch → Bool)
    (batch batch' : Batch)
    (hfree : Set.InjOn hash {batch.transactions.flatten, batch'.transactions.flatten}) :
    BoundByDigest hash validateBatch batch batch' ↔ ¬Confusable batch batch' := by
  constructor
  · intro hbound hconfusable
    refine hconfusable.lengths (congrArg (List.map List.length) (hbound.digest ?_))
    exact congrArg hash hconfusable.bytes
  · intro hcut
    have hdigest : batch.digest hash = batch'.digest hash →
        batch.transactions = batch'.transactions := fun h =>
      transactions_eq hcut (hfree (by simp) (by simp) h)
    refine ⟨hdigest, fun digest h h' => hdigest ?_⟩
    rw [h.digest_eq, h'.digest_eq]

/-- The bytes themselves as a hash, and two batches with different bytes. -/
theorem transactions_bound_iff_sample :
    BoundByDigest id (fun _ => true) ⟨[[1], [2]]⟩ ⟨[[1, 3]]⟩ :=
  (transactions_bound_iff id _ _ _ Function.injective_id.injOn).mpr fun h => by simpa using h.bytes

/-- Two transactions and their concatenation: two validators execute different lists. -/
theorem joined_transactions_executed :
    Executes id (fun _ => true) [1, 2] ⟨[[1], [2]]⟩ ∧
      Executes id (fun _ => true) [1, 2] ⟨[[1, 2]]⟩ ∧
      ¬BoundByDigest id (fun _ => true) ⟨[[1], [2]]⟩ ⟨[[1, 2]]⟩ := by
  have hexecutes : Executes id (fun _ => true) [1, 2] ⟨[[1], [2]]⟩ := executes_digest ⟨[[1], [2]]⟩
  have hexecutes' : Executes id (fun _ => true) [1, 2] ⟨[[1, 2]]⟩ := executes_digest ⟨[[1, 2]]⟩
  refine ⟨hexecutes, hexecutes', fun hbound => ?_⟩
  have hne : ([[1], [2]] : List Bytes) ≠ [[1, 2]] := by decide
  exact hne (hbound.executed _ hexecutes hexecutes')

end Fetcher

end Narwhal

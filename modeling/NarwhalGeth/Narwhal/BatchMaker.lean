import NarwhalGeth.Lib.EachAfter
import NarwhalGeth.Narwhal.Fetch

/-!
# The batch maker of a worker

Transactions are assembled into batches, which are sealed by their size or by the timer. A sealed
batch is stored, its digest is sent to the primary, and when the primary has acknowledged it the
digest is sent to the clients. The batches of the pipeline advance in any order.
-/

namespace Narwhal

open Geth (Bytes)

variable {D R : Type} [DecidableEq D] {n : ℕ} {response : R}

/-- How far the future of a sealed batch is. -/
inductive SealStage where
  | sealed
  | stored
  | broadcast
  | reported
  | acknowledged
  | finished
deriving DecidableEq

/-- A batch with the channels to the senders of its transactions. -/
structure SealedBatch (R : Type) where
  batch : Batch
  createdAt : ℕ
  responses : List R

structure WorkerOurBatchMessage (D : Type) where
  digest : D
  workerId : ℕ
  createdAt : ℕ
deriving DecidableEq

/-- What is done for the batch with a given place in the order of sealing, and the digests that
clients are sent. -/
inductive BatchOutput (D R : Type) where
  | stored (n : ℕ) (digest : D) (batch : Batch)
  | reported (n : ℕ) (message : WorkerOurBatchMessage D)
  | acknowledged (n : ℕ)
  | responded (response : R) (digest : D)

/-- What a client is sent. -/
def BatchOutput.answer : BatchOutput D R → Option (R × D)
  | .responded response digest => some (response, digest)
  | _ => none

structure BatchMakerConfig where
  id : ℕ
  batchSize : ℕ

/-- The state of the loop. The pipeline has the sealed batches from `consumed` on. -/
structure BatchMaker (D R : Type) where
  currentBatch : Batch
  currentResponses : List R
  currentBatchSize : ℕ
  sealed : List (SealedBatch R)
  consumed : ℕ
  stage : ℕ → SealStage
  store : Assoc D Batch
  received : List (Bytes × R)
  log : List (BatchOutput D R)

/-- A transaction is received or the timer fires, with whether a batch sealed by this can be sent to
the quorum waiter; the future of a sealed batch takes a step; the primary acknowledges a batch or
drops the channel; the pipeline gives its first batch. -/
inductive BatchMakerEvent (R : Type) where
  | receive (transaction : Bytes) (response : R) (delivered : Bool) (now : ℕ)
  | timer (delivered : Bool) (now : ℕ)
  | write (n : ℕ) (ok : Bool)
  | doneSending (n : ℕ)
  | report (n : ℕ) (ok : Bool)
  | acknowledge (n : ℕ)
  | dropResponse (n : ℕ)
  | respond (n : ℕ)
  | next

namespace BatchMaker

/-- The number of batches to store and transmit in parallel. -/
def maxParallelBatch : ℕ := 25

def start : BatchMaker D R where
  currentBatch := ⟨[]⟩
  currentResponses := []
  currentBatchSize := 0
  sealed := []
  consumed := 0
  stage _ := .sealed
  store := ∅
  received := []
  log := []

/-- Seals the current batch and begins a new one. Without a quorum waiter, the batch is dropped. -/
def sealBatch (delivered : Bool) (now : ℕ) (s : BatchMaker D R) : BatchMaker D R :=
  let sealed :=
    if delivered then s.sealed ++ [⟨s.currentBatch, now, s.currentResponses⟩] else s.sealed
  { s with sealed, currentBatch := ⟨[]⟩, currentResponses := [], currentBatchSize := 0 }

/-- A transaction is added to the current batch. -/
def push (transaction : Bytes) (response : R) (s : BatchMaker D R) : BatchMaker D R :=
  { s with
    currentBatchSize := s.currentBatchSize + transaction.length
    currentBatch := ⟨s.currentBatch.transactions ++ [transaction]⟩
    currentResponses := s.currentResponses ++ [response]
    received := s.received ++ [(transaction, response)] }

/-- The future of a batch goes on to the next stage, with some outputs. -/
def advance (n : ℕ) (stage : SealStage) (outputs : List (BatchOutput D R)) (s : BatchMaker D R) :
    BatchMaker D R :=
  { s with stage := Function.update s.stage n stage, log := s.log ++ outputs }

/-- The sealed batch at a place, if its future is at the given stage. -/
def atStage (s : BatchMaker D R) (n : ℕ) (stage : SealStage) : Option (SealedBatch R) :=
  if s.stage n = stage then s.sealed[n]? else none

def step (config : BatchMakerConfig) (hash : Bytes → D) (s : BatchMaker D R) :
    BatchMakerEvent R → Option (BatchMaker D R)
  | .receive transaction response delivered now =>
    if s.sealed.length - s.consumed < maxParallelBatch then
      let s := s.push transaction response
      some (if config.batchSize ≤ s.currentBatchSize then s.sealBatch delivered now else s)
    else none
  | .timer delivered now =>
    some (if s.currentBatch.transactions.isEmpty then s else s.sealBatch delivered now)
  | .write n ok => (s.atStage n .sealed).map fun b =>
    let digest := b.batch.digest hash
    if ok then
      { s.advance n .stored [.stored n digest b.batch] with
        store := s.store.insert digest b.batch }
    else s.advance n .finished []
  -- An error here is ignored, as other authorities can ask for the stored batch.
  | .doneSending n => (s.atStage n .stored).map fun _ => s.advance n .broadcast []
  | .report n ok => (s.atStage n .broadcast).map fun b =>
    if ok then
      s.advance n .reported [.reported n ⟨b.batch.digest hash, config.id, b.createdAt⟩]
    else s.advance n .finished []
  | .acknowledge n => (s.atStage n .reported).map fun _ =>
    s.advance n .acknowledged [.acknowledged n]
  | .dropResponse n => (s.atStage n .reported).map fun _ => s.advance n .finished []
  | .respond n => (s.atStage n .acknowledged).map fun b =>
    let digest := b.batch.digest hash
    s.advance n .finished (b.responses.map fun response => .responded response digest)
  | .next =>
    if s.consumed < s.sealed.length ∧ s.stage s.consumed = .finished then
      some { s with consumed := s.consumed + 1 }
    else none

def machine (config : BatchMakerConfig) (hash : Bytes → D) :
    Machine (BatchMaker D R) (BatchMakerEvent R) where
  start := start
  next := step config hash

/-- The quorum waiter is not shut down, and each transaction comes with a channel of its own. -/
def Running (s : BatchMaker D R) : BatchMakerEvent R → Prop
  | .receive _ response delivered _ => delivered = true ∧ response ∉ s.received.map Prod.snd
  | .timer delivered _ => delivered = true
  | _ => True

/-! ## What is kept of the received transactions -/

/-- Each output follows from those before it. -/
def Justified (hash : Bytes → D) (sealed : List (SealedBatch R)) (before : List (BatchOutput D R)) :
    BatchOutput D R → Prop
  | .reported n message => ∃ b, sealed[n]? = some b ∧ message.digest = b.batch.digest hash ∧
    .stored n (b.batch.digest hash) b.batch ∈ before
  | .responded response digest => ∃ n b, sealed[n]? = some b ∧ digest = b.batch.digest hash ∧
    response ∈ b.responses ∧ .acknowledged n ∈ before
  | _ => True

/-- What has been done for a batch at a stage. -/
def Done (hash : Bytes → D) (log : List (BatchOutput D R)) (n : ℕ) (b : SealedBatch R) :
    SealStage → Prop
  | .sealed | .finished => True
  | .stored | .broadcast | .reported => .stored n (b.batch.digest hash) b.batch ∈ log
  | .acknowledged => .acknowledged n ∈ log

/-- The transactions and channels are kept in the order in which they came, and every output follows
from earlier ones. -/
structure Conserved (hash : Bytes → D) (s : BatchMaker D R) : Prop where
  transactions : s.sealed.flatMap (fun b => b.batch.transactions) ++ s.currentBatch.transactions =
    s.received.map Prod.fst
  responses : s.sealed.flatMap (fun b => b.responses) ++ s.currentResponses =
    s.received.map Prod.snd
  lengths : ∀ b ∈ s.sealed, b.batch.transactions.length = b.responses.length
  current : s.currentBatch.transactions.length = s.currentResponses.length
  nodup : (s.received.map Prod.snd).Nodup
  fresh : ∀ n, s.sealed.length ≤ n → s.stage n = .sealed
  done : ∀ n b, s.sealed[n]? = some b → Done hash s.log n b (s.stage n)
  log : EachAfter (Justified hash s.sealed) s.log
  store : ∀ n digest batch, .stored n digest batch ∈ s.log →
    ∃ batch', s.store.lookup digest = some batch' ∧ batch'.digest hash = digest

variable {config : BatchMakerConfig} {hash : Bytes → D} {s s' : BatchMaker D R} {b : SealedBatch R}
  {outputs : List (BatchOutput D R)} {stage : SealStage}

omit [DecidableEq D] in
theorem Done.append {log : List (BatchOutput D R)} (h : Done hash log n b stage)
    (outputs : List (BatchOutput D R)) :
    Done hash (log ++ outputs) n b stage := by
  cases stage with
  | sealed | finished => trivial
  | stored | broadcast | reported | acknowledged => exact List.mem_append_left _ h

omit [DecidableEq D] in
theorem Justified.append {sealed : List (SealedBatch R)} {before : List (BatchOutput D R)}
    {output : BatchOutput D R} (h : Justified hash sealed before output) (b : SealedBatch R) :
    Justified hash (sealed ++ [b]) before output := by
  have hkept : ∀ n x, sealed[n]? = some x → (sealed ++ [b])[n]? = some x := fun n x hx => by
    rw [List.getElem?_append_left (List.getElem?_eq_some_iff.mp hx).1, hx]
  cases output with
  | stored | acknowledged => trivial
  | reported n message =>
    obtain ⟨x, hx, hrest⟩ := h
    exact ⟨x, hkept n x hx, hrest⟩
  | responded response digest =>
    obtain ⟨n, x, hx, hrest⟩ := h
    exact ⟨n, x, hkept n x hx, hrest⟩

namespace Conserved

section

variable (h : Conserved hash s)

include h

theorem push (transaction : Bytes) (hfresh : response ∉ s.received.map Prod.snd) :
    Conserved hash (s.push transaction response) where
  __ := h
  transactions := by
    simp only [BatchMaker.push, ← List.append_assoc, h.transactions, List.map_append, List.map_cons,
      List.map_nil]
  responses := by
    simp only [BatchMaker.push, ← List.append_assoc, h.responses, List.map_append, List.map_cons,
      List.map_nil]
  current := by simp [BatchMaker.push, h.current]
  nodup := by
    rw [BatchMaker.push, List.map_append]
    exact h.nodup.append (List.nodup_singleton _) (by simpa using hfresh)

theorem sealBatch (now : ℕ) : Conserved hash (s.sealBatch true now) where
  transactions := by simpa [BatchMaker.sealBatch] using h.transactions
  responses := by simpa [BatchMaker.sealBatch] using h.responses
  lengths b hb := by
    rcases List.mem_append.mp hb with hb | hb
    · exact h.lengths b hb
    · rw [List.mem_singleton.mp hb]
      exact h.current
  current := rfl
  nodup := h.nodup
  fresh n hn := h.fresh n (le_trans (by simp [BatchMaker.sealBatch]) hn)
  done n b hb := by
    rcases lt_or_ge n s.sealed.length with hlt | hge
    · refine h.done n b ?_
      rw [← hb]
      exact (List.getElem?_append_left hlt).symm
    · change Done hash s.log n b (s.stage n)
      rw [h.fresh n hge]
      trivial
  log := h.log.mono fun _ _ hx => hx.append _
  store := h.store

section

variable (hb : s.sealed[n]? = some b)

include hb

theorem advance {store : Assoc D Batch} (hdone : Done hash (s.log ++ outputs) n b stage)
    (houtputs : EachAfter (fun before => Justified hash s.sealed (s.log ++ before)) outputs)
    (hstore : ∀ n digest batch, .stored n digest batch ∈ s.log ++ outputs →
      ∃ batch', store.lookup digest = some batch' ∧ batch'.digest hash = digest) :
    Conserved hash { s.advance n stage outputs with store } where
  transactions := h.transactions
  responses := h.responses
  lengths := h.lengths
  current := h.current
  nodup := h.nodup
  fresh m hm := by
    have hlt := (List.getElem?_eq_some_iff.mp hb).1
    have hne : m ≠ n := (lt_of_lt_of_le hlt hm).ne'
    exact (Function.update_of_ne hne _ _).trans (h.fresh m hm)
  done m x hx := by
    change Done hash (s.log ++ outputs) m x (Function.update s.stage n stage m)
    by_cases hm : m = n
    · subst hm
      obtain rfl : b = x := Option.some.inj (hb.symm.trans hx)
      rwa [Function.update_self]
    · rw [Function.update_of_ne hm]
      exact (h.done m x hx).append outputs
  log := h.log.append houtputs
  store := hstore

theorem advance_frame (hdone : Done hash (s.log ++ outputs) n b stage)
    (houtputs : EachAfter (fun before => Justified hash s.sealed (s.log ++ before)) outputs)
    (hwrites : ∀ n digest batch, .stored n digest batch ∉ outputs) :
    Conserved hash (s.advance n stage outputs) := by
  refine h.advance hb hdone houtputs fun m digest batch hstored => ?_
  exact h.store m digest batch ((List.mem_append.mp hstored).resolve_right (hwrites m digest batch))

theorem write :
    Conserved hash { s.advance n .stored [.stored n (b.batch.digest hash) b.batch] with
      store := s.store.insert (b.batch.digest hash) b.batch } := by
  refine h.advance hb (List.mem_append_right _ List.mem_cons_self) (EachAfter.nil.concat trivial) ?_
  intro m digest batch hstored
  by_cases hdigest : digest = b.batch.digest hash
  · subst hdigest
    exact ⟨b.batch, AList.lookup_insert _, rfl⟩
  · rw [AList.lookup_insert_ne hdigest]
    refine h.store m digest batch ((List.mem_append.mp hstored).resolve_right fun hnew => ?_)
    cases List.mem_singleton.mp hnew
    exact hdigest rfl

theorem respond (hstage : s.stage n = .acknowledged) :
    Conserved hash (s.advance n .finished
      (b.responses.map fun response => .responded response (b.batch.digest hash))) := by
  have hacknowledged : .acknowledged n ∈ s.log := by
    have hdone := h.done n b hb
    rwa [hstage] at hdone
  refine h.advance_frame hb trivial (fun before x after hsplit => ?_) fun m digest batch hmem => ?_
  · have hx : x ∈ b.responses.map fun response =>
        BatchOutput.responded response (b.batch.digest hash) := by
      rw [hsplit]
      exact List.mem_append_right _ List.mem_cons_self
    obtain ⟨response, hresponse, rfl⟩ := List.mem_map.mp hx
    exact ⟨n, b, hb, rfl, hresponse, List.mem_append_left _ hacknowledged⟩
  · obtain ⟨response, -, heq⟩ := List.mem_map.mp hmem
    cases heq

end

theorem step {e : BatchMakerEvent R} (hrunning : Running s e)
    (hstep : s.step config hash e = some s') : Conserved hash s' := by
  have hstage : ∀ {n stage b}, s.atStage n stage = some b →
      s.stage n = stage ∧ s.sealed[n]? = some b := fun hat => Option.ite_none_right_eq_some.mp hat
  have hstored : ∀ {n b stage}, s.sealed[n]? = some b → s.stage n = stage →
      Done hash s.log n b stage := fun hb heq => heq ▸ h.done _ _ hb
  cases e with
  | receive transaction response delivered now =>
    obtain ⟨rfl, hfresh⟩ := hrunning
    simp only [BatchMaker.step, Option.ite_none_right_eq_some] at hstep
    obtain ⟨-, heq⟩ := hstep
    have hpush := h.push transaction hfresh
    cases heq
    split_ifs
    · exact hpush.sealBatch now
    · exact hpush
  | timer delivered now =>
    obtain rfl : delivered = true := hrunning
    cases hstep
    split_ifs
    · exact h
    · exact h.sealBatch now
  | write n ok =>
    obtain ⟨b, hat, rfl⟩ := Option.map_eq_some_iff.mp hstep
    obtain ⟨-, hb⟩ := hstage hat
    dsimp only
    split_ifs
    · exact h.write hb
    · exact h.advance_frame hb trivial .nil nofun
  | doneSending n =>
    obtain ⟨b, hat, rfl⟩ := Option.map_eq_some_iff.mp hstep
    obtain ⟨heq, hb⟩ := hstage hat
    exact h.advance_frame hb ((hstored hb heq).append []) .nil nofun
  | report n ok =>
    obtain ⟨b, hat, rfl⟩ := Option.map_eq_some_iff.mp hstep
    obtain ⟨heq, hb⟩ := hstage hat
    have hdone : .stored n (b.batch.digest hash) b.batch ∈ s.log := hstored hb heq
    split_ifs
    · refine h.advance_frame hb (List.mem_append_left _ hdone) (EachAfter.nil.concat ?_) ?_
      · exact ⟨b, hb, rfl, List.mem_append_left _ hdone⟩
      · exact fun m digest batch hmem => by cases List.mem_singleton.mp hmem
    · exact h.advance_frame hb trivial .nil nofun
  | acknowledge n =>
    obtain ⟨b, hat, rfl⟩ := Option.map_eq_some_iff.mp hstep
    obtain ⟨heq, hb⟩ := hstage hat
    refine h.advance_frame hb (List.mem_append_right _ List.mem_cons_self)
      (EachAfter.nil.concat trivial) ?_
    exact fun m digest batch hmem => by cases List.mem_singleton.mp hmem
  | dropResponse n =>
    obtain ⟨b, hat, rfl⟩ := Option.map_eq_some_iff.mp hstep
    exact h.advance_frame (hstage hat).2 trivial .nil nofun
  | respond n =>
    obtain ⟨b, hat, rfl⟩ := Option.map_eq_some_iff.mp hstep
    obtain ⟨heq, hb⟩ := hstage hat
    exact h.respond hb heq
  | next =>
    simp only [BatchMaker.step, Option.ite_none_right_eq_some] at hstep
    obtain ⟨-, heq⟩ := hstep
    cases heq
    exact ⟨h.transactions, h.responses, h.lengths, h.current, h.nodup, h.fresh, h.done, h.log,
      h.store⟩

end

end Conserved

/-! ## The batches of a run -/

/-- The number of transactions in the batches before a place. -/
def startOf (s : BatchMaker D R) (n : ℕ) : ℕ :=
  ((s.sealed.take n).flatMap fun b => b.batch.transactions).length

theorem getElem?_flatMap {α β : Type*} (f : α → List β) {l : List α} {i : ℕ} {x : α} {y : β}
    (hx : l[n]? = some x) (hy : (f x)[i]? = some y) :
    (l.flatMap f)[((l.take n).flatMap f).length + i]? = some y := by
  obtain ⟨hn, hx⟩ := List.getElem?_eq_some_iff.mp hx
  obtain ⟨hi, -⟩ := List.getElem?_eq_some_iff.mp hy
  have hsplit : l.flatMap f = (l.take n).flatMap f ++ (f x ++ (l.drop (n + 1)).flatMap f) := by
    conv_lhs => rw [← List.take_append_drop n l, List.drop_eq_getElem_cons hn, hx]
    rw [List.flatMap_append, List.flatMap_cons]
  rw [hsplit, List.getElem?_append_right (Nat.le_add_right _ _), Nat.add_sub_cancel_left,
    List.getElem?_append_left hi, hy]

theorem Conserved.received_of_mem_responses (h : Conserved hash s) (hb : s.sealed[n]? = some b)
    (hresponse : response ∈ b.responses) :
    ∃ i transaction, b.batch.transactions[i]? = some transaction ∧
      s.received[s.startOf n + i]? = some (transaction, response) := by
  obtain ⟨i, hi⟩ := List.mem_iff_getElem?.mp hresponse
  have hlength := h.lengths b (List.mem_of_getElem? hb)
  have hlt : i < b.batch.transactions.length := hlength ▸ (List.getElem?_eq_some_iff.mp hi).1
  obtain ⟨transaction, htransaction⟩ : ∃ t, b.batch.transactions[i]? = some t :=
    ⟨_, List.getElem?_eq_getElem hlt⟩
  have hstart : ((s.sealed.take n).flatMap fun b => b.responses).length = s.startOf n := by
    rw [startOf, List.length_flatMap, List.length_flatMap]
    refine congrArg List.sum (List.map_congr_left fun x hx => ?_)
    exact (h.lengths x (List.mem_of_mem_take hx)).symm
  have htx : (s.received.map Prod.fst)[s.startOf n + i]? = some transaction := by
    have hget := getElem?_flatMap (fun b => b.batch.transactions) hb htransaction
    rw [← h.transactions, startOf,
      List.getElem?_append_left (List.getElem?_eq_some_iff.mp hget).1]
    exact hget
  have hrx : (s.received.map Prod.snd)[s.startOf n + i]? = some response := by
    have hget := getElem?_flatMap (fun b => b.responses) hb hi
    rw [← h.responses, ← hstart, List.getElem?_append_left (List.getElem?_eq_some_iff.mp hget).1]
    exact hget
  rw [List.getElem?_map] at htx hrx
  obtain ⟨item, hitem, rfl⟩ := Option.map_eq_some_iff.mp htx
  obtain ⟨item', hitem', rfl⟩ := Option.map_eq_some_iff.mp hrx
  obtain rfl := Option.some.inj (hitem.symm.trans hitem')
  exact ⟨i, item.1, htransaction, hitem⟩

/-- In every run without a shutdown, whatever fails in the store or the primary, the batches have
the received transactions in their order and are stored before their digests are reported. A client
is sent the digest of the batch with its transaction, after the primary has acknowledged it. -/
theorem batches_in_order (h : (machine config hash).Reached Running s) :
    s.sealed.flatMap (fun b => b.batch.transactions) ++ s.currentBatch.transactions =
        s.received.map Prod.fst ∧
      (∀ before n message after, s.log = before ++ .reported n message :: after →
        ∃ b, s.sealed[n]? = some b ∧ message.digest = b.batch.digest hash ∧
          .stored n (b.batch.digest hash) b.batch ∈ before ∧
          ∃ batch, s.store.lookup message.digest = some batch ∧
            batch.digest hash = message.digest) ∧
      ∀ before response digest after, s.log = before ++ .responded response digest :: after →
        ∀ k transaction, s.received[k]? = some (transaction, response) →
          ∃ n b i, s.sealed[n]? = some b ∧ k = s.startOf n + i ∧
            b.batch.transactions[i]? = some transaction ∧ digest = b.batch.digest hash ∧
            .acknowledged n ∈ before := by
  have hconserved : Conserved hash s := Machine.Reached.invariant
    ⟨rfl, rfl, nofun, rfl, .nil, fun _ _ => rfl, nofun, .nil, nofun⟩
    (fun _ _ _ hs hrunning hstep => hs.step hrunning hstep) h
  refine ⟨hconserved.transactions, fun before n message after hsplit => ?_,
    fun before response digest after hsplit k transaction hk => ?_⟩
  · obtain ⟨b, hb, hdigest, hstored⟩ := hconserved.log before _ after hsplit
    refine ⟨b, hb, hdigest, hstored, ?_⟩
    rw [hdigest]
    refine hconserved.store n _ b.batch ?_
    rw [hsplit]
    exact List.mem_append_left _ hstored
  · obtain ⟨n, b, hb, hdigest, hresponse, hacknowledged⟩ := hconserved.log before _ after hsplit
    obtain ⟨i, transaction', hi, hplace⟩ := hconserved.received_of_mem_responses hb hresponse
    have hsame : (s.received.map Prod.snd)[k]? = (s.received.map Prod.snd)[s.startOf n + i]? := by
      rw [List.getElem?_map, List.getElem?_map, hk, hplace]
      rfl
    have hlt : k < (s.received.map Prod.snd).length := by
      rw [List.length_map]
      exact (List.getElem?_eq_some_iff.mp hk).1
    obtain rfl := (List.getElem?_inj hlt hconserved.nodup).mp hsame
    cases hk.symm.trans hplace
    exact ⟨n, b, i, hb, rfl, hi, hdigest, hacknowledged⟩

end BatchMaker

namespace Sample

/-- Two transactions are sealed by their size, a third one by the timer. The second batch is
acknowledged first. -/
def batchMakerEvents : List (BatchMakerEvent ℕ) :=
  [BatchMakerEvent.receive [1, 2] 0 true 5, BatchMakerEvent.receive [3] 1 true 5,
    BatchMakerEvent.receive [4] 2 true 6, BatchMakerEvent.timer true 7,
    BatchMakerEvent.write 1 true, BatchMakerEvent.write 0 true,
    BatchMakerEvent.doneSending 1, BatchMakerEvent.report 1 true,
    BatchMakerEvent.doneSending 0, BatchMakerEvent.acknowledge 1, BatchMakerEvent.respond 1,
    BatchMakerEvent.report 0 true, BatchMakerEvent.acknowledge 0, BatchMakerEvent.respond 0,
    BatchMakerEvent.next, BatchMakerEvent.receive [5] 3 true 8]

def batchMaker : BatchMaker Bytes ℕ :=
  (BatchMaker.machine ⟨0, 3⟩ id).after .start batchMakerEvents

instance decidableRunning (s : BatchMaker Bytes ℕ) : ∀ e, Decidable (BatchMaker.Running s e)
  | .receive _ _ _ _ => inferInstanceAs (Decidable (_ ∧ _))
  | .timer _ _ => inferInstanceAs (Decidable (_ = true))
  | .write _ _ | .doneSending _ | .report _ _ | .acknowledge _ | .dropResponse _ | .respond _
  | .next => .isTrue trivial

theorem reached_batchMaker :
    (BatchMaker.machine ⟨0, 3⟩ id).Reached BatchMaker.Running batchMaker :=
  Machine.Reached.start.after (by decide +kernel)

end Sample

/-- The client of the third transaction is answered first, with the digest of the second batch. -/
theorem BatchMaker.batches_in_order_sample :
    let s := Sample.batchMaker
    s.log.filterMap BatchOutput.answer = [(2, [4]), (0, [1, 2, 3]), (1, [1, 2, 3])] ∧
      s.sealed.flatMap (fun b => b.batch.transactions) ++ s.currentBatch.transactions =
        s.received.map Prod.fst ∧
      ∀ before response digest after, s.log = before ++ .responded response digest :: after →
        ∀ k transaction, s.received[k]? = some (transaction, response) →
          ∃ n b i, s.sealed[n]? = some b ∧ k = s.startOf n + i ∧
            b.batch.transactions[i]? = some transaction ∧ digest = b.batch.digest id ∧
            .acknowledged n ∈ before := by
  intro s
  obtain ⟨htransactions, -, hresponses⟩ := batches_in_order Sample.reached_batchMaker
  exact ⟨by decide +kernel, htransactions, hresponses⟩

end Narwhal

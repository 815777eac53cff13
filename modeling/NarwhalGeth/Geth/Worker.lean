import NarwhalGeth.Clique.Engine
import NarwhalGeth.Lib.Machine

/-!
# The sealing pipeline of the miner

Three goroutines of the worker and the sealing goroutines of the engine share the pending tasks and
the result channel. The task loop starts the sealing of each new task and interrupts the previous
one, and the result loop takes sealed blocks through the Narwhal adapter to the chain.
-/

namespace Geth

/-! ## The engine -/

/-- The proof-of-authority engine of a node. `full` is the header that a header of a block stands
for, and `signature` reads the seal in its extra data. -/
structure Engine (H : Type) where
  config : Clique.Config H
  chain : Clique.ChainReader H
  caches : Clique.Caches H
  author : Clique.LocalSigner H
  full : Header H → Clique.Header H
  full_number : ∀ header, (full header).number = header.number
  signature : Bytes → H

namespace Engine

variable {H : Type}

def hashHeader (engine : Engine H) (header : Header H) : H :=
  engine.config.hash (engine.full header)

def hash (engine : Engine H) (block : Block H) : H := engine.hashHeader block.header

def sealHash (engine : Engine H) (header : Header H) : H :=
  Clique.sealHash engine.config (engine.full header)

/-- Checks that the local signer may seal the block, and signs it. -/
def trySeal [DecidableEq H] (engine : Engine H) (block : Block H) :
    Except Clique.Error (Block H) :=
  let header := block.header
  (Clique.sealBlock engine.config engine.chain engine.caches engine.author
    block.transactions.length (engine.full header)).1.map fun sealed =>
      block.withSeal { header with signature := engine.signature sealed.extra }

end Engine

/-! ## The worker -/

/-- Where the result loop is with the block it has taken. -/
inductive Phase (H : Type) where
  | idle
  | broadcasting (block : Block H)
  | waiting (block : Block H)
  | writing (block : Block H)
  | panicked
deriving DecidableEq

namespace Phase

variable {H : Type}

/-- The block in the hands of the result loop. -/
def current : Phase H → List (Block H)
  | .broadcasting block | .waiting block | .writing block => [block]
  | .idle | .panicked => []

/-- The block that is submitted to the gateway. -/
def submitting : Phase H → Option (Block H)
  | .broadcasting block => some block
  | .idle | .waiting _ | .writing _ | .panicked => none

/-- The block for which a commit event is awaited. -/
def awaited : Phase H → List (Block H)
  | .waiting block => [block]
  | .idle | .broadcasting _ | .writing _ | .panicked => []

end Phase

/-- The worker of one node. `sealing` are the sealing goroutines, each with its block and whether it
was interrupted; `chain` are the blocks in the database. The last four fields record the blocks put
on the result channel, those submitted, the events queued by the adapter and the blocks handed to
the chain. -/
structure Worker (H : Type) where
  pendingTasks : Assoc H (Block H)
  prev : Option H
  sealing : List (Block H × Bool)
  resultCh : List (Block H)
  phase : Phase H
  adapter : NarwhalAdapter H
  chain : List (Block H)
  sealed : List (Block H)
  submitted : List (Block H)
  notified : List (NarwhalOutput H)
  written : List (Block H)

/-- A task is committed, a sealing goroutine sends its block or stops, a new head is announced, a
block is imported, the result loop takes a step, or the adapter is notified. -/
inductive WorkerEvent (H : Type) where
  | task (block : Block H)
  | sealed (i : ℕ)
  | stopped (i : ℕ)
  | newHead (number : ℕ)
  | imported (block : Block H)
  | takeResult
  | broadcast (answer : GatewayAnswer)
  | commit
  | write (stored : Bool)
  | notify (req : NarwhalCommitEvent)

namespace Worker

variable {H : Type} [DecidableEq H]

/-- The capacity of the result channel. -/
def resultQueueSize : ℕ := 10

/-- The depth below the head from which pending tasks are stale. -/
def staleThreshold : ℕ := 7

def new : Worker H := ⟨∅, none, [], [], .idle, .getNarwhalAdapter, [], [], [], [], []⟩

/-- The task loop: a task with the seal hash of the previous one is rejected, any other interrupts
the sealing in flight. -/
def taskLoop (engine : Engine H) (w : Worker H) (block : Block H) : Worker H :=
  let sealHash := engine.sealHash block.header
  if w.prev = some sealHash then w
  else
    let w :=
      { w with
        sealing := w.sealing.map fun s : Block H × Bool => (s.1, true)
        prev := some sealHash
        pendingTasks := w.pendingTasks.insert sealHash block }
    match engine.trySeal block with
    | .ok block => { w with sealing := w.sealing ++ [(block, false)] }
    | .error _ => { w with pendingTasks := w.pendingTasks.erase sealHash }

/-- A sealing goroutine after its delay: the block is sent to the result channel, or dropped if that
is full. If it was interrupted as well, either branch of its `select` may run. -/
def sendResult (w : Worker H) (i : ℕ) : Option (Worker H) :=
  match w.sealing[i]? with
  | none => none
  | some (block, _) =>
    let w := { w with sealing := w.sealing.eraseIdx i }
    if w.resultCh.length < resultQueueSize then
      some { w with resultCh := w.resultCh ++ [block], sealed := w.sealed ++ [block] }
    else some w

/-- An interrupted sealing goroutine returns. -/
def stopSealing (w : Worker H) (i : ℕ) : Option (Worker H) :=
  match w.sealing[i]? with
  | some (_, true) => some { w with sealing := w.sealing.eraseIdx i }
  | _ => none

/-- Clears the stale pending tasks. -/
def clearPending (w : Worker H) (number : ℕ) : Worker H :=
  { w with
    pendingTasks := w.pendingTasks.retain fun _ task =>
      if task.number + staleThreshold ≤ number then none else some task }

def hasBlock (engine : Engine H) (w : Worker H) (block : Block H) : Bool :=
  w.chain.any fun x => engine.hash x = engine.hash block ∧ x.number = block.number

/-- The result loop takes a sealed block. Blocks that are known, or have no pending task, are
skipped. -/
def takeResult (engine : Engine H) (w : Worker H) : Option (Worker H) :=
  match w.phase, w.resultCh with
  | .idle, block :: resultCh =>
    let w := { w with resultCh }
    if w.hasBlock engine block then some w
    else
      match w.pendingTasks.lookup (engine.sealHash block.header) with
      | none => some w
      | some _ => some { w with phase := .broadcasting block }
  | _, _ => none

/-- The block is submitted to the gateway. If that fails, the Narwhal operations are skipped. -/
def broadcast (w : Worker H) (answer : GatewayAnswer) : Option (Worker H) :=
  match w.phase with
  | .broadcasting block =>
    match w.adapter.broadcast answer with
    | (.ok (), adapter) =>
      some { w with adapter, phase := .waiting block, submitted := w.submitted ++ [block] }
    | (.error _, adapter) => some { w with adapter, phase := .writing block }
  | _ => none

/-- The result loop takes the next commit event, and panics if it is refused. -/
def commit (w : Worker H) : Option (Worker H) :=
  match w.phase with
  | .waiting block =>
    match w.adapter.waitForCommit with
    | none => none
    | some (output, adapter) =>
      match NarwhalAdapter.rebuildHeaderWithNarwhalSig block output with
      | .ok block => some { w with adapter, phase := .writing block }
      | .error _ => some { w with adapter, phase := .panicked }
  | _ => none

/-- The block is announced and handed to `WriteBlockAndSetHead`, which may fail to store it. -/
def write (w : Worker H) (stored : Bool) : Option (Worker H) :=
  match w.phase with
  | .writing block =>
    some
      { w with
        phase := .idle
        chain := if stored then w.chain ++ [block] else w.chain
        written := w.written ++ [block] }
  | _ => none

variable (engine : Engine H) (decode : Bytes → Option (Header H))

/-- The adapter is notified of a commit event; it waits while its queue is full. -/
def notify (w : Worker H) (req : NarwhalCommitEvent) : Option (Worker H) :=
  if NarwhalAdapter.outcSize ≤ w.adapter.outc.length then none
  else
    (w.adapter.notify decode req).map fun (_, adapter) =>
      { w with adapter, notified := w.notified ++ adapter.outc.drop w.adapter.outc.length }

def step (w : Worker H) : WorkerEvent H → Option (Worker H)
  | .task block => some (w.taskLoop engine block)
  | .sealed i => w.sendResult i
  | .stopped i => w.stopSealing i
  | .newHead number => some (w.clearPending number)
  | .imported block => some { w with chain := w.chain ++ [block] }
  | .takeResult => w.takeResult engine
  | .broadcast answer => w.broadcast answer
  | .commit => w.commit
  | .write stored => w.write stored
  | .notify req => w.notify decode req

def machine : Machine (Worker H) (WorkerEvent H) where
  start := .new
  next := step engine decode

/-! ## What the task loop leaves alone -/

/-- The result loop, the result channel, the adapter and the histories are the same. -/
structure Frame (w w' : Worker H) : Prop where
  resultCh : w'.resultCh = w.resultCh
  phase : w'.phase = w.phase
  adapter : w'.adapter = w.adapter
  sealed : w'.sealed = w.sealed
  submitted : w'.submitted = w.submitted
  notified : w'.notified = w.notified
  written : w'.written = w.written

theorem taskLoop_frame (engine : Engine H) (w : Worker H) (block : Block H) :
    Frame w (w.taskLoop engine block) := by
  unfold taskLoop
  dsimp only
  split_ifs
  · exact ⟨rfl, rfl, rfl, rfl, rfl, rfl, rfl⟩
  · split <;> exact ⟨rfl, rfl, rfl, rfl, rfl, rfl, rfl⟩

omit [DecidableEq H] in
theorem stopSealing_frame {w w' : Worker H} {i : ℕ} (h : w.stopSealing i = some w') :
    Frame w w' := by
  unfold stopSealing at h
  split at h
  · cases h
    exact ⟨rfl, rfl, rfl, rfl, rfl, rfl, rfl⟩
  · cases h

end Worker

/-! ## A sample node -/

namespace Sample

/-- The fields of a block are its root. -/
def full (header : Header ℕ) : Clique.Header ℕ where
  parentHash := header.parentHash
  uncleHash := 0
  coinbase := 0
  root := header.fields
  txHash := 0
  receiptHash := 0
  bloom := []
  difficulty := 2
  number := header.number
  gasLimit := 0
  gasUsed := 0
  time := 0
  extra := List.replicate 32 0 ++ UInt8.ofNat header.signature :: List.replicate 64 0
  mixDigest := 0
  nonce := 0
  baseFee := none

def signature (extra : Bytes) : ℕ := ((extra.drop 32).headD 0).toNat

/-- An engine with a single signer, which is always in turn. -/
def engine : Engine ℕ where
  config :=
    { period := 1
      epoch := 30000
      epoch_pos := Nat.succ_pos 29999
      hash header := 100 * header.number + 10 * header.root + signature header.extra
      sigHash header := 10 * header.number + header.root
      recover _ _ := some 0
      uncleHash := 0
      zeroHash := 0 }
  chain := ⟨⟨none, none, none⟩, fun _ _ => none, fun _ => none⟩
  caches := ⟨∅, AList.singleton 0 (.newSnapshot 0 0 [0])⟩
  author := ⟨0, fun _ => .ok [7], ∅⟩
  full := full
  full_number _ := rfl
  signature := signature

/-- Headers of small blocks are encoded by their number and fields. -/
def decode : Bytes → Option (Header ℕ)
  | [number, fields] => some ⟨0, number.toNat, fields.toNat, 7⟩
  | _ => none

def sealedBlock (number fields : ℕ) : Block ℕ := ⟨⟨0, number, fields, 7⟩, []⟩

/-- A task is committed and its block sealed. -/
def sealTask (number fields : ℕ) : List (WorkerEvent ℕ) :=
  [.task ⟨⟨0, number, fields, 0⟩, []⟩, .sealed 0]

/-- The result loop takes a block, which the gateway accepts. -/
def submit : List (WorkerEvent ℕ) :=
  [.takeResult, .broadcast ⟨true, some true, .ready, some "success"⟩]

def node (events : List (WorkerEvent ℕ)) : Worker ℕ :=
  (Worker.machine engine decode).after .new events

end Sample

end Geth

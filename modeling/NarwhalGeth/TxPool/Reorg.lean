import NarwhalGeth.TxPool.Pool

/-!
# Reorganisations of the pool

In the background, the pool promotes the executable transactions of the accounts that have sent new
ones. A new head resets it: the transactions that fell off the chain are injected again, all queues
are promoted and what cannot be executed any more is demoted. In the end the pool is cut down to its
limits.
-/

namespace TxPool

structure Header where
  hash : Hash
  parentHash : Hash
  number : ℕ
  root : Hash
  gasLimit : ℕ

structure Block where
  header : Header
  transactions : List Tx

/-- What the pool reads of the chain: the blocks, the states by their roots and, from the London
fork on, the base fee after a head. -/
structure Chain where
  getBlock : Hash → ℕ → Option Block
  stateAt : Hash → Option StateDB
  calcBaseFee : Header → Option ℕ

namespace Chain

variable (chain : Chain)

def parent (block : Block) : Option Block :=
  chain.getBlock block.header.parentHash (block.header.number - 1)

/-- Walks from a block down to a number and collects the transactions. Nothing is returned if a
block is missing. -/
def walkDown (number : ℕ) : ℕ → Block → List Tx → Option (Block × List Tx)
  | 0, _, _ => none
  | fuel + 1, block, txs =>
    if number < block.header.number then do
      let parent ← chain.parent block
      walkDown number fuel parent (txs ++ block.transactions)
    else some (block, txs)

/-- Walks from two blocks of the same number down to their common ancestor. -/
def walkToAncestor : ℕ → Block → Block → List Tx → List Tx → Option (List Tx × List Tx)
  | 0, _, _, _, _ => none
  | fuel + 1, rem, add, discarded, included =>
    if rem.header.hash = add.header.hash then some (discarded, included)
    else do
      let rem' ← chain.parent rem
      let add' ← chain.parent add
      walkToAncestor fuel rem' add' (discarded ++ rem.transactions) (included ++ add.transactions)

/-- `TxDifference`. -/
def txDifference (discarded included : List Tx) : List Tx :=
  discarded.filter fun tx => tx.hash ∉ included.map Tx.hash

/-- The transactions of the old chain that the new one does not have. -/
def discardedTxs (rem add : Block) : Option (List Tx) := do
  let (rem, discarded) ← chain.walkDown add.header.number (rem.header.number + 1) rem []
  let (add, included) ← chain.walkDown rem.header.number (add.header.number + 1) add []
  let (discarded, included) ←
    chain.walkToAncestor (rem.header.number + 1) rem add discarded included
  some (txDifference discarded included)

/-- The transactions to be injected again for a new head, or nothing if the pool is not reset
because blocks are missing. A deep reorganisation injects none, and neither does one whose old head
was discarded. -/
def reinjected (oldHead : Option Header) (newHead : Header) : Option (List Tx) :=
  match oldHead with
  | none => some []
  | some oldHead =>
    if oldHead.hash = newHead.parentHash then some []
    else if 64 < max oldHead.number newHead.number - min oldHead.number newHead.number then some []
    else
      match chain.getBlock oldHead.hash oldHead.number with
      | none => if oldHead.number ≤ newHead.number then none else some []
      | some rem => do
        -- The block of the new head is in the chain.
        let add ← chain.getBlock newHead.hash newHead.number
        chain.discardedTxs rem add

end Chain

/-- `txpoolResetRequest`. -/
structure Reset where
  oldHead : Option Header
  newHead : Header

namespace Pool

variable (config : Config) (order : MapOrder) (now : ℕ) (chain : Chain)

/-- Takes over the state of a new head and injects the transactions that fell off the chain. -/
def reset (request : Reset) (pool : Pool) : Pool :=
  match chain.reinjected request.oldHead request.newHead with
  | none => pool
  | some reinject =>
    match chain.stateAt request.newHead.root with
    | none => pool
    | some statedb =>
      addTxsLocked config order now reinject false { pool with
        currentState := statedb
        pendingNonces := .newNoncer statedb
        currentMaxGas := request.newHead.gasLimit }

/-- Drops transactions from the lookup. -/
def dropTxs (txs : List Tx) (pool : Pool) : Pool := { pool with all := pool.all.removeAll txs }

/-- Notifies the price heaps of transactions that were dropped. -/
def markRemoved (count : ℕ) (pool : Pool) : Pool :=
  { pool with priced := pool.priced.removed pool.all order count }

/-- Promotes the executable transactions of an account and drops those that are too old, too costly
or too many. -/
def promoteAccount (pool : Pool) (addr : Address) : Pool :=
  match pool.queue.lookup addr with
  | none => pool
  | some list =>
    let (forwards, list) := list.forward (pool.currentState.getNonce addr)
    let pool := pool.dropTxs forwards
    let (drops, _, list) := list.filter (pool.currentState.getBalance addr) pool.currentMaxGas
    let pool := pool.dropTxs drops
    let (readies, list) := list.ready (pool.pendingNonces.get addr)
    let pool := readies.foldl (promoteTx config order now addr) pool
    let (caps, list) := if addr ∈ pool.locals then ([], list) else list.cap config.accountQueue
    let pool := pool.dropTxs caps
    let pool := pool.markRemoved order (forwards.length + drops.length + caps.length)
    pool.setQueue addr list

def promoteExecutables (accounts : List Address) (pool : Pool) : Pool :=
  accounts.foldl (promoteAccount config order now) pool

/-- Drops transactions that are too old or too costly, and moves those behind them to the queue, or
all if there is a gap in front. -/
def demoteAccount (pool : Pool) (addr : Address) : Pool :=
  match pool.pending.lookup addr with
  | none => pool
  | some list =>
    let nonce := pool.currentState.getNonce addr
    let (olds, list) := list.forward nonce
    let pool := pool.dropTxs olds
    let (drops, invalids, list) :=
      list.filter (pool.currentState.getBalance addr) pool.currentMaxGas
    let pool := pool.dropTxs drops
    if !list.empty && (list.get nonce).isNone then
      let (gapped, list) := list.cap 0
      pool.demote config order now addr list (invalids ++ gapped)
    else pool.demote config order now addr list invalids

def demoteUnexecutables (pool : Pool) : Pool :=
  (order.order pool.pending.keys).foldl (demoteAccount config order now) pool

/-- The nonces after the last pending transactions. -/
def highestPending (pool : Pool) : Assoc Address ℕ :=
  (order.order pool.pending.entries).foldl (fun nonces e =>
    e.2.lastElement.elim nonces fun highest => nonces.insert e.1 highest.nextNonce) ∅

/-- Drops the last pending transaction of an account. -/
def capLast (pool : Pool) (addr : Address) : Pool :=
  match pool.pending.lookup addr with
  | none => pool
  | some list =>
    let (caps, list) := list.cap (list.len - 1)
    let pool := pool.dropTxs caps
    let pendingNonces := caps.foldl (fun nonces tx => nonces.setIfLower addr tx.nonce)
      pool.pendingNonces
    let pool := { pool with pending := pool.pending.insert addr list, pendingNonces }
    pool.markRemoved order caps.length

/-- Drops transactions of all offenders, one of each at a time, while the pool is above its limit
and the given account above the threshold. -/
def reduce (offenders : List Address) (addr : Address) (threshold : ℕ) :
    ℕ → ℕ × Pool → ℕ × Pool
  | 0, s => s
  | fuel + 1, (pending, pool) =>
    if config.globalSlots < pending ∧ threshold < (pool.pendingTxs addr).length then
      reduce offenders addr threshold fuel
        (offenders.foldl (fun s offender => (s.1 - 1, s.2.capLast order offender)) (pending, pool))
    else (pending, pool)

/-- Takes the accounts with the most transactions, and cuts those taken before to the length of the
next one. -/
def gatherOffenders : List Address → List Address → ℕ × Pool → List Address × ℕ × Pool
  | [], offenders, s => (offenders, s)
  | offender :: spammers, offenders, (pending, pool) =>
    if config.globalSlots < pending then
      let s := match offenders.getLast? with
        | none => (pending, pool)
        | some last =>
          reduce config order offenders last (pool.pendingTxs offender).length pending
            (pending, pool)
      gatherOffenders spammers (offenders ++ [offender]) s
    else (offenders, pending, pool)

/-- The remote accounts with more pending transactions than are guaranteed, from the largest on. -/
def spammers (pool : Pool) : List Address :=
  ((order.order pool.pending.keys).filter fun addr =>
    addr ∉ pool.locals ∧ config.accountSlots < (pool.pendingTxs addr).length).insertionSort
      fun addr other => (pool.pendingTxs other).length ≤ (pool.pendingTxs addr).length

def truncatePending (pool : Pool) : Pool :=
  let pending := (pool.pending.values.map TxList.len).sum
  if pending ≤ config.globalSlots then pool
  else
    let (offenders, pending, pool) :=
      gatherOffenders config order (pool.spammers config order) [] (pending, pool)
    match offenders.getLast? with
    | none => pool
    | some last =>
      (reduce config order offenders last config.accountSlots pending (pending, pool)).2

/-- Drops queued transactions of one account after the other. -/
def dropQueued : List Address → ℕ → Pool → Pool
  | [], _, pool => pool
  | addr :: addresses, drop, pool =>
    if drop = 0 then pool
    else
      let txs := pool.queuedTxs addr
      let dropped := if txs.length ≤ drop then txs else txs.reverse.take drop
      dropQueued addresses (drop - txs.length)
        (dropped.foldl (fun pool tx => (pool.removeTx config order now tx.hash true).2) pool)

/-- The remote accounts with queued transactions, from the one that was inactive for longest on. -/
def byHeartbeat (pool : Pool) : List Address :=
  ((order.order pool.queue.keys).filter fun addr => addr ∉ pool.locals).insertionSort
    fun addr other => (pool.beats.lookup addr).getD 0 ≤ (pool.beats.lookup other).getD 0

def truncateQueue (pool : Pool) : Pool :=
  let queued := (pool.queue.values.map TxList.len).sum
  if queued ≤ config.globalQueue then pool
  else dropQueued config order now (pool.byHeartbeat order) (queued - config.globalQueue) pool

/-- Promotes and demotes all accounts for a new head. -/
def runReset (request : Reset) (pool : Pool) : Pool :=
  let pool := pool.reset config order now chain request
  let pool := pool.promoteExecutables config order now (order.order pool.queue.keys)
  let pool := pool.demoteUnexecutables config order now
  let priced := match chain.calcBaseFee request.newHead with
    | none => pool.priced
    | some baseFee => pool.priced.setBaseFee pool.all order baseFee
  { pool with
    priced
    pendingNonces := pool.pendingNonces.setAll (pool.highestPending order) }

/-- Runs a reset, or else promotes the accounts that have sent new transactions. -/
def runReorg (request : Option Reset) (dirtyAccounts : List Address) (pool : Pool) : Pool :=
  let pool := match request with
    | none => pool.promoteExecutables config order now dirtyAccounts
    | some request => pool.runReset config order now chain request
  let pool := (pool.truncatePending config order).truncateQueue config order now
  { pool with changesSinceReorg := 0 }

end Pool

end TxPool

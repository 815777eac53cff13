import NarwhalGeth.TxPool.Priced

/-!
# The transaction pool

Transactions enter the pool through the queue of their account, unless they replace a pending one.
A full pool evicts its worst remote transactions first. Journal, events and metrics have no effect
on what the pool holds.
-/

namespace TxPool

/-- What the pool reads of the state of an account. -/
structure StateDB where
  getNonce : Address → ℕ
  getBalance : Address → ℕ

/-- The virtual nonces of the accounts, with those of the state as a fallback. -/
structure Noncer where
  fallback : Address → ℕ
  nonces : Assoc Address ℕ

namespace Noncer

def newNoncer (state : StateDB) : Noncer := ⟨state.getNonce, ∅⟩

variable (n : Noncer)

def get (addr : Address) : ℕ := (n.nonces.lookup addr).getD (n.fallback addr)

def set (addr : Address) (nonce : ℕ) : Noncer := { n with nonces := n.nonces.insert addr nonce }

def setIfLower (addr : Address) (nonce : ℕ) : Noncer :=
  if n.get addr ≤ nonce then n else n.set addr nonce

def setAll (all : Assoc Address ℕ) : Noncer := { n with nonces := all }

end Noncer

/-- The settings after they were sanitized. They are within the range of `int`. -/
structure Config where
  priceBump : ℕ
  accountSlots : ℕ
  globalSlots : ℕ
  accountQueue : ℕ
  globalQueue : ℕ
  lifetime : ℕ
  accountSlots_pos : 0 < accountSlots
  accountQueue_lt : accountQueue < 2 ^ 63
  global_lt : globalSlots + globalQueue < 2 ^ 63

inductive Error where
  | alreadyKnown
  | nonceTooLow
  | insufficientFunds
  | overdraft
  | underpriced
  | txPoolOverflow
  | futureReplacePending
  | replaceUnderpriced
deriving DecidableEq

structure Pool where
  gasPrice : ℕ
  currentState : StateDB
  pendingNonces : Noncer
  currentMaxGas : ℕ
  locals : Finset Address
  pending : Assoc Address (TxList true)
  queue : Assoc Address (TxList false)
  beats : Assoc Address ℕ
  all : Lookup
  priced : PricedList
  changesSinceReorg : ℕ

namespace Pool

/-- The transactions of an account in one of the two maps. -/
def txsIn {strict : Bool} (lists : Assoc Address (TxList strict)) (addr : Address) : List Tx :=
  match lists.lookup addr with
  | none => []
  | some list => list.txs

def pendingTxs (pool : Pool) (addr : Address) : List Tx := txsIn pool.pending addr

def queuedTxs (pool : Pool) (addr : Address) : List Tx := txsIn pool.queue addr

variable (config : Config) (order : MapOrder) (now : ℕ)

/-- The nonce is not below that of the account, which can pay for the transaction and the pending
ones. -/
def validateTx (tx : Tx) (pool : Pool) : Option Error :=
  let balance := pool.currentState.getBalance tx.sender
  if tx.nonce < pool.currentState.getNonce tx.sender then some .nonceTooLow
  else if balance < tx.cost then some .insufficientFunds
  else
    match pool.pending.lookup tx.sender with
    | none => none
    | some list =>
      let repl : ℤ := (list.get tx.nonce).elim 0 fun repl => repl.cost
      if (balance : ℤ) < tx.cost + list.totalcost - repl then some .overdraft else none

/-- Removes a transaction that was replaced. -/
def discardOld (old : Option Tx) (pool : Pool) : Pool :=
  match old with
  | none => pool
  | some old =>
    let all := pool.all.remove old.hash
    { pool with all, priced := pool.priced.removed all order 1 }

/-- Inserts a transaction into the queue. Returns whether an old one was replaced, unless the old
one is better. -/
def enqueueTx (tx : Tx) (isLocal addAll : Bool) (pool : Pool) : Option (Bool × Pool) :=
  let list := (pool.queue.lookup tx.sender).getD (.newList false)
  match list.add tx config.priceBump with
  | none => none
  | some (old, list) =>
    let pool := { pool with queue := pool.queue.insert tx.sender list }.discardOld order old
    let pool := if addAll then
        { pool with all := pool.all.add tx isLocal, priced := pool.priced.put tx isLocal }
      else pool
    let beats := if (pool.beats.lookup tx.sender).isSome then pool.beats
      else pool.beats.insert tx.sender now
    some (old.isSome, { pool with beats })

/-- Moves a transaction back to the queue. -/
def requeue (pool : Pool) (tx : Tx) : Pool :=
  match pool.enqueueTx config order now tx false false with
  | none => pool
  | some (_, pool) => pool

/-- Adds a transaction to the pending ones of its account. -/
def promoteTx (addr : Address) (pool : Pool) (tx : Tx) : Pool :=
  let list := (pool.pending.lookup addr).getD (.newList true)
  match list.add tx config.priceBump with
  | none => pool.discardOld order (some tx)
  | some (old, list) =>
    let pool := { pool with pending := pool.pending.insert addr list }.discardOld order old
    { pool with
      pendingNonces := pool.pendingNonces.set addr tx.nextNonce
      beats := pool.beats.insert addr now }

/-- Puts back the list of an account, or deletes the entry if nothing is left. -/
def putBack {strict : Bool} (lists : Assoc Address (TxList strict)) (addr : Address)
    (list : TxList strict) : Assoc Address (TxList strict) :=
  if list.empty then lists.erase addr else lists.insert addr list

def setPending (addr : Address) (list : TxList true) (pool : Pool) : Pool :=
  { pool with pending := putBack pool.pending addr list }

def setQueue (addr : Address) (list : TxList false) (pool : Pool) : Pool :=
  { pool with
    queue := putBack pool.queue addr list
    beats := if list.empty then pool.beats.erase addr else pool.beats }

/-- Keeps some of the pending transactions of an account and moves others back to the queue. -/
def demote (addr : Address) (kept : TxList true) (moved : List Tx) (pool : Pool) : Pool :=
  moved.foldl (requeue config order now) (pool.setPending addr kept)

/-- Removes a transaction, and moves the pending ones after it to the queue. Returns how many are
not pending any more. -/
def removeTx (hash : Hash) (outofbound : Bool) (pool : Pool) : ℕ × Pool :=
  match pool.all.get hash with
  | none => (0, pool)
  | some tx =>
    let all := pool.all.remove hash
    let priced := if outofbound then pool.priced.removed all order 1 else pool.priced
    let pool := { pool with all, priced }
    match (pool.pending.lookup tx.sender).bind fun pending => pending.remove tx with
    | some (invalids, pending) =>
      let pool := pool.demote config order now tx.sender pending invalids
      (1 + invalids.length, { pool with
        pendingNonces := pool.pendingNonces.setIfLower tx.sender tx.nonce })
    | none =>
      match pool.queue.lookup tx.sender with
      | none => (0, pool)
      | some future =>
        (0, pool.setQueue tx.sender ((future.remove tx).elim future fun removed => removed.2))

/-- Whether there is a gap in front of the transaction that the queue cannot fill. -/
def isGapped (tx : Tx) (pool : Pool) : Bool :=
  let next := pool.pendingNonces.get tx.sender
  if tx.nonce = next then false
  else
    match pool.queue.lookup tx.sender with
    | none => true
    | some queue => (List.range' next (tx.nonce - next)).any fun nonce => !queue.contains nonce

def isPending (tx : Tx) (pool : Pool) : Bool :=
  match pool.pending.lookup tx.sender with
  | none => false
  | some list => list.contains tx.nonce

/-- The number of slots that the transaction does not find in the pool. -/
def missingSlots (tx : Tx) (pool : Pool) : ℤ :=
  pool.all.slots + tx.numSlots - (config.globalSlots + config.globalQueue)

/-- Decides which transactions leave a full pool for a new one. -/
def makeRoom (tx : Tx) (isLocal : Bool) (pool : Pool) : Except Error (List Tx) × Pool :=
  if pool.missingSlots config tx ≤ 0 then (.ok [], pool)
  else
    let (underpriced, priced) :=
      if isLocal then (false, pool.priced) else pool.priced.underpriced pool.all tx
    if underpriced then (.error .underpriced, { pool with priced })
    else if config.globalSlots / 4 < pool.changesSinceReorg then
      (.error .txPoolOverflow, { pool with priced })
    else
      match priced.discard pool.all (pool.missingSlots config tx) isLocal with
      | (none, priced) => (.error .txPoolOverflow, { pool with priced })
      | (some drop, priced) =>
        if !isLocal ∧ pool.isGapped tx ∧ drop.any (fun dropTx => pool.isPending dropTx) then
          (.error .futureReplacePending, { pool with
            priced := drop.foldl (fun priced dropTx => priced.put dropTx false) priced })
        else (.ok drop, { pool with priced })

/-- Kicks out a transaction for a better one. -/
def evict (pool : Pool) (tx : Tx) : Pool :=
  let (dropped, pool) := pool.removeTx config order now tx.hash false
  { pool with changesSinceReorg := pool.changesSinceReorg + dropped }

/-- Marks the account of a first local transaction as a local one. -/
def markLocal (addr : Address) (pool : Pool) : Pool :=
  if addr ∈ pool.locals then pool
  else
    let locals := insert addr pool.locals
    let (migrated, all) := pool.all.remoteToLocals locals
    { pool with locals, all, priced := pool.priced.removed all order migrated }

/-- Replaces a pending transaction or inserts the new one into the queue. -/
def insertTx (tx : Tx) (fromLocal isLocal : Bool) (pool : Pool) : Except Error Bool × Pool :=
  match (pool.pending.lookup tx.sender).filter fun list => list.contains tx.nonce with
  | some list =>
    match list.add tx config.priceBump with
    | none => (.error .replaceUnderpriced, pool)
    | some (old, list) =>
      let pool := { pool with pending := pool.pending.insert tx.sender list }.discardOld order old
      (.ok old.isSome, { pool with
        all := pool.all.add tx isLocal
        priced := pool.priced.put tx isLocal
        beats := pool.beats.insert tx.sender now })
  | none =>
    match pool.enqueueTx config order now tx isLocal true with
    | none => (.error .replaceUnderpriced, pool)
    | some (replaced, pool) =>
      (.ok replaced, if fromLocal then pool.markLocal order tx.sender else pool)

/-- Validates a transaction and inserts it into the pool. -/
def add (tx : Tx) (fromLocal : Bool) (pool : Pool) : Except Error Bool × Pool :=
  if (pool.all.get tx.hash).isSome then (.error .alreadyKnown, pool)
  else
    let isLocal := fromLocal || tx.sender ∈ pool.locals
    match pool.validateTx tx with
    | some e => (.error e, pool)
    | none =>
      match pool.makeRoom config tx isLocal with
      | (.error e, pool) => (.error e, pool)
      | (.ok drop, pool) =>
        (drop.foldl (evict config order now) pool).insertTx config order now tx fromLocal isLocal

/-- Adds the transactions one after the other. -/
def addTxsLocked (txs : List Tx) (fromLocal : Bool) (pool : Pool) : Pool :=
  txs.foldl (fun pool tx => (pool.add config order now tx fromLocal).2) pool

/-- Raises or lowers the minimum tip. If it rises, the remote transactions below it are dropped. -/
def setGasPrice (price : ℕ) (pool : Pool) : Pool :=
  let raised := { pool with gasPrice := price }
  if pool.gasPrice < price then
    let drop := order.order (pool.all.remotesBelowTip price)
    let dropped := drop.foldl
      (fun pool tx => (pool.removeTx config order now tx.hash false).2) raised
    { dropped with priced := dropped.priced.removed dropped.all order drop.length }
  else raised

/-- Evicts the queue of an account that was inactive for too long. -/
def evictAccount (pool : Pool) (addr : Address) : Pool :=
  if addr ∉ pool.locals ∧
      ((pool.beats.lookup addr).all fun beat => config.lifetime < now - beat) then
    (pool.queuedTxs addr).foldl
      (fun pool tx => (pool.removeTx config order now tx.hash true).2) pool
  else pool

def evictInactive (pool : Pool) : Pool :=
  (order.order pool.queue.keys).foldl (evictAccount config order now) pool

end Pool

end TxPool

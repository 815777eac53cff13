import NarwhalGeth.Lib.Machine
import NarwhalGeth.TxPool.Admission
import NarwhalGeth.TxPool.Truncation

/-!
# Histories of the pool

Transactions are added, the pool is reorganised for new heads and new transactions, inactive
accounts are evicted and the minimum tip changes, in any order. What removals, insertions,
promotions, demotions and truncations keep is kept by all of these.
-/

namespace TxPool.Pool

/-- What can happen to the pool. Each event has its own order of map iterations and its time. -/
inductive Event
  | add (order : MapOrder) (now : ℕ) (tx : Tx) (fromLocal : Bool)
  | runReorg (order : MapOrder) (now : ℕ) (chain : Chain) (request : Option Reset)
      (dirtyAccounts : List Address)
  | evictInactive (order : MapOrder) (now : ℕ)
  | setGasPrice (order : MapOrder) (now : ℕ) (price : ℕ)

def next (config : Config) (pool : Pool) : Event → Option Pool
  | .add order now tx fromLocal => some (pool.add config order now tx fromLocal).2
  | .runReorg order now chain request dirtyAccounts =>
    some (pool.runReorg config order now chain request dirtyAccounts)
  | .evictInactive order now => some (pool.evictInactive config order now)
  | .setGasPrice order now price => some (pool.setGasPrice config order now price)

/-- The empty pool over the state of the current head. -/
def newTxPool (priceLimit : ℕ) (locals : Finset Address) (statedb : StateDB) (gasLimit : ℕ) :
    Pool where
  gasPrice := priceLimit
  currentState := statedb
  pendingNonces := .newNoncer statedb
  currentMaxGas := gasLimit
  locals := locals
  pending := ∅
  queue := ∅
  beats := ∅
  all := .newLookup
  priced := .newPricedList
  changesSinceReorg := 0

def machine (config : Config) (start : Pool) : Machine Pool Event := ⟨start, next config⟩

section Invariants

variable {pool pool' : Pool} {addr : Address} {tx : Tx} {config : Config} {order : MapOrder}
  {now : ℕ} {I : Pool → Prop}

/-! ## Rules -/

theorem evictInactive_invariant
    (hI : ∀ pool hash, I pool → I (pool.removeTx config order now hash true).2)
    (hpool : I pool) : I (pool.evictInactive config order now) := by
  refine List.foldlRecOn (motive := I) _ _ hpool fun pool hpool addr _ => ?_
  unfold evictAccount
  split_ifs
  · exact removeTxs_invariant hI _ hpool
  · exact hpool

theorem setGasPrice_invariant (hsame : ∀ pool pool', Same pool pool' → I pool → I pool')
    (hI : ∀ pool hash, I pool → I (pool.removeTx config order now hash false).2) (price : ℕ)
    (hpool : I pool) : I (pool.setGasPrice config order now price) := by
  have hraised : I { pool with gasPrice := price } :=
    hsame pool _ ⟨rfl, rfl, rfl, rfl, rfl, rfl⟩ hpool
  unfold setGasPrice
  dsimp only
  split_ifs
  · have hdropped := removeTxs_invariant hI
      (order.order (pool.all.remotesBelowTip price)) hraised
    generalize List.foldl _ _ (order.order (pool.all.remotesBelowTip price)) = dropped
      at hdropped ⊢
    exact hsame dropped _ ⟨rfl, rfl, rfl, rfl, rfl, rfl⟩ hdropped
  · exact hraised

theorem promoteExecutables_cons (config : Config) (order : MapOrder) (now : ℕ) (pool : Pool)
    (addr : Address) (accounts : List Address) :
    pool.promoteExecutables config order now (addr :: accounts) =
      (pool.promoteAccount config order now addr).promoteExecutables config order now accounts :=
  rfl

theorem promoteExecutables_invariant
    (hI : ∀ pool addr, I pool → I (pool.promoteAccount config order now addr))
    (accounts : List Address) (hpool : I pool) :
    I (pool.promoteExecutables config order now accounts) :=
  List.foldlRecOn (motive := I) _ _ hpool fun pool hpool addr _ => hI pool addr hpool

theorem demoteUnexecutables_invariant
    (hI : ∀ pool addr, I pool → I (pool.demoteAccount config order now addr)) (hpool : I pool) :
    I (pool.demoteUnexecutables config order now) :=
  List.foldlRecOn (motive := I) _ _ hpool fun pool hpool addr _ => hI pool addr hpool

theorem addTxsLocked_invariant {txs : List Tx} (fromLocal : Bool)
    (hI : ∀ pool, ∀ tx ∈ txs, I pool → I (pool.add config order now tx fromLocal).2)
    (hpool : I pool) : I (pool.addTxsLocked config order now txs fromLocal) :=
  List.foldlRecOn (motive := I) _ _ hpool fun pool hpool tx htx => hI pool tx htx hpool

/-! ## The partition -/

/-- The pool is a partition, the slots of the lookup are counted, and the virtual nonces fall back
on the current state. -/
structure Consistent (pool : Pool) : Prop where
  partition : pool.Partition
  counted : pool.all.Counted
  fallback : pool.pendingNonces.fallback = pool.currentState.getNonce

namespace Consistent

section

variable (h : pool.Consistent)

include h

theorem congr (hall : pool'.all = pool.all) (hpending : pool'.pending = pool.pending)
    (hqueue : pool'.queue = pool.queue)
    (hfallback : pool'.pendingNonces.fallback = pool'.currentState.getNonce) :
    pool'.Consistent := by
  refine ⟨h.partition.rearranged ((Rearranged.refl pool).congr hall hpending hqueue), ?_, hfallback⟩
  rw [hall]
  exact h.counted

theorem same (hsame : Same pool pool') : pool'.Consistent := by
  refine h.congr hsame.all hsame.pending hsame.queue ?_
  rw [hsame.nonces, hsame.state, h.fallback]

theorem rearranged {gone down up : List Tx} (hmoved : Rearranged pool pool' gone down up)
    (hframe : Frame pool pool') : pool'.Consistent := by
  obtain ⟨hashes, htrimmed⟩ := hframe.trimmed
  refine ⟨h.partition.rearranged hmoved, ?_, ?_⟩
  · rw [htrimmed]
    exact h.counted.foldl_remove h.partition.keyed hashes
  · rw [hframe.fallback, hframe.state, h.fallback]

theorem removeTx (hash : Hash) (outofbound : Bool) :
    (pool.removeTx config order now hash outofbound).2.Consistent := by
  cases hget : pool.all.get hash with
  | none =>
    rw [removeTx_of_get_eq_none hget]
    exact h
  | some tx =>
    obtain ⟨moved, hremoved⟩ := removeTx_spec h.partition hget outofbound
    exact h.rearranged hremoved.rearranged (removeTx_frame pool hash outofbound)

/-- It is enough to look at removals of transactions that the pool knows. -/
theorem removeTx_invariant (hpool : I pool)
    (hI : ∀ pool' tx moved, pool'.Consistent → Removed pool pool' tx moved → Frame pool pool' →
      I pool') (hash : Hash) (outofbound : Bool) :
    I (pool.removeTx config order now hash outofbound).2 := by
  cases hget : pool.all.get hash with
  | none =>
    rw [removeTx_of_get_eq_none hget]
    exact hpool
  | some tx =>
    obtain ⟨moved, hremoved⟩ := removeTx_spec h.partition hget outofbound
    exact hI _ tx moved (h.removeTx hash outofbound) hremoved (removeTx_frame pool hash outofbound)

theorem accepted (haccepted : Accepted pool pool' tx) : pool'.Consistent := by
  refine ⟨h.partition.inserted haccepted.inserted, haccepted.counted h.counted, ?_⟩
  rw [haccepted.nonces, haccepted.state, h.fallback]

theorem add (tx : Tx) (fromLocal : Bool) : (pool.add config order now tx fromLocal).2.Consistent :=
  add_invariant (fun _ h => h.partition) (fun _ _ hsame h => h.same hsame)
    (fun _ hash h => h.removeTx hash false) (fun _ _ haccepted h => h.accepted haccepted)
    fromLocal h

theorem promoteAccount (addr : Address) :
    (pool.promoteAccount config order now addr).Consistent := by
  obtain ⟨gone, hmoved, -⟩ := (promoteAccount_spec h.partition).rearranged
  exact h.rearranged hmoved (promoteAccount_frame pool addr)

theorem demoteAccount (addr : Address) : (pool.demoteAccount config order now addr).Consistent := by
  obtain ⟨gone, down, hmoved, -⟩ := (demoteAccount_spec h.partition).rearranged
  exact h.rearranged hmoved (demoteAccount_frame pool addr)

theorem promoteExecutables (accounts : List Address) :
    (pool.promoteExecutables config order now accounts).Consistent :=
  promoteExecutables_invariant (fun _ addr h => h.promoteAccount addr) accounts h

theorem demoteUnexecutables : (pool.demoteUnexecutables config order now).Consistent :=
  demoteUnexecutables_invariant (fun _ addr h => h.demoteAccount addr) h

theorem capLast (hlong : 1 < (pool.pendingTxs addr).length) :
    (pool.capLast order addr).Consistent := by
  obtain ⟨last, -, hcapped⟩ := exists_cappedLast order h.partition hlong
  exact h.rearranged hcapped.rearranged (hcapped.frame hlong)

theorem reset (chain : Chain) (request : Reset) :
    (pool.reset config order now chain request).Consistent := by
  unfold Pool.reset
  cases chain.reinjected request.oldHead request.newHead with
  | none => exact h
  | some reinject =>
    cases chain.stateAt request.newHead.root with
    | none => exact h
    | some statedb =>
      exact addTxsLocked_invariant false (fun pool tx _ h => h.add tx false)
        (h.congr rfl rfl rfl rfl)

theorem runReset (chain : Chain) (request : Reset) :
    (pool.runReset config order now chain request).Consistent := by
  have hreset : (pool.reset config order now chain request).Consistent := h.reset chain request
  unfold Pool.runReset
  dsimp only
  generalize pool.reset config order now chain request = reset at hreset ⊢
  have hdemoted : ((reset.promoteExecutables config order now
      (order.order reset.queue.keys)).demoteUnexecutables config order now).Consistent :=
    (hreset.promoteExecutables _).demoteUnexecutables
  generalize Pool.demoteUnexecutables _ _ _ _ = demoted at hdemoted ⊢
  exact hdemoted.congr rfl rfl rfl hdemoted.fallback

theorem truncated :
    ((pool.truncatePending config order).truncateQueue config order now).Consistent :=
  truncateQueue_invariant (fun _ hash h => h.removeTx hash true)
    (truncatePending_invariant (fun _ _ h hlong => h.capLast hlong) h)

theorem runReorg (chain : Chain) (request : Option Reset) (dirtyAccounts : List Address) :
    (pool.runReorg config order now chain request dirtyAccounts).Consistent := by
  unfold Pool.runReorg
  dsimp only
  cases request with
  | none =>
    have htruncated : (((pool.promoteExecutables config order now dirtyAccounts).truncatePending
        config order).truncateQueue config order now).Consistent :=
      (h.promoteExecutables dirtyAccounts).truncated
    generalize Pool.truncateQueue _ _ _ _ = truncated at htruncated ⊢
    exact htruncated.congr rfl rfl rfl htruncated.fallback
  | some request =>
    have htruncated : (((pool.runReset config order now chain request).truncatePending
        config order).truncateQueue config order now).Consistent :=
      (h.runReset chain request).truncated
    generalize Pool.truncateQueue _ _ _ _ = truncated at htruncated ⊢
    exact htruncated.congr rfl rfl rfl htruncated.fallback

theorem next {e : Event} (hnext : pool.next config e = some pool') : pool'.Consistent := by
  cases e with
  | add order now tx fromLocal =>
    obtain rfl := Option.some.inj hnext
    exact h.add tx fromLocal
  | runReorg order now chain request dirtyAccounts =>
    obtain rfl := Option.some.inj hnext
    exact h.runReorg chain request dirtyAccounts
  | evictInactive order now =>
    obtain rfl := Option.some.inj hnext
    exact evictInactive_invariant (fun _ hash h => h.removeTx hash true) h
  | setGasPrice order now price =>
    obtain rfl := Option.some.inj hnext
    exact setGasPrice_invariant (fun _ _ hsame h => h.same hsame)
      (fun _ hash h => h.removeTx hash false) price h

end

end Consistent

theorem consistent_newTxPool (priceLimit : ℕ) (locals : Finset Address) (statedb : StateDB)
    (gasLimit : ℕ) : (newTxPool priceLimit locals statedb gasLimit).Consistent := by
  refine ⟨⟨⟨?_, ?_, ?_⟩, ?_, ?_, ?_⟩, rfl, rfl⟩
  · exact fun _ _ hlookup => by cases hlookup
  · exact fun _ _ hlookup => by cases hlookup
  · exact fun _ _ hlookup => by cases hlookup
  · rintro addr tx (hmem | hmem) <;> cases hmem
  · exact fun _ _ hget => by cases hget
  · exact fun _ _ hmem => by cases hmem

theorem consistent_of_reached {priceLimit gasLimit : ℕ} {locals : Finset Address}
    {statedb : StateDB} {guard : Pool → Event → Prop}
    (h : (machine config (newTxPool priceLimit locals statedb gasLimit)).Reached guard pool) :
    pool.Consistent :=
  h.invariant (I := Consistent) (consistent_newTxPool priceLimit locals statedb gasLimit)
    fun _ _ _ hpool _ hnext => hpool.next hnext

/-- The lookup has exactly the transactions in one list of their sender, each as a local or a remote
one. -/
structure DisjointPartition (pool : Pool) : Prop where
  known : ∀ tx, pool.all.get tx.hash = some tx ↔
    Xor (tx ∈ pool.pendingTxs tx.sender) (tx ∈ pool.queuedTxs tx.sender)
  hashes : ∀ hash tx, pool.all.get hash = some tx → tx.hash = hash
  senders : ∀ addr tx, tx ∈ pool.pendingTxs addr ∨ tx ∈ pool.queuedTxs addr → tx.sender = addr
  nonces : ∀ addr, ∀ tx ∈ pool.pendingTxs addr, ∀ tx' ∈ pool.queuedTxs addr, tx.nonce ≠ tx'.nonce
  sides : ∀ hash, pool.all.locals.lookup hash = none ∨ pool.all.remotes.lookup hash = none
  slots : pool.all.slots = ((pool.all.locals.values ++ pool.all.remotes.values).map fun tx =>
    (tx.numSlots : ℤ)).sum

/-- Between operations, each transaction the pool knows is either pending or queued under its
sender, and on one side of the lookup, whose slots are those of its transactions. -/
theorem stays_partitioned {priceLimit gasLimit : ℕ} {locals : Finset Address} {statedb : StateDB}
    (h : (machine config (newTxPool priceLimit locals statedb gasLimit)).Reached
      (fun _ _ => True) pool) : pool.DisjointPartition := by
  obtain ⟨hpart, hcounted, -⟩ := consistent_of_reached h
  constructor
  case known =>
    intro tx
    constructor
    · intro hget
      rcases hpart.placed tx.hash tx hget with hpending | hqueued
      · exact .inl ⟨hpending, hpart.not_queued hpending⟩
      · exact .inr ⟨hqueued, fun hpending => hpart.not_queued hpending hqueued⟩
    · rintro (⟨hpending, -⟩ | ⟨hqueued, -⟩)
      · exact (hpart.known tx.sender tx (.inl hpending)).2
      · exact (hpart.known tx.sender tx (.inr hqueued)).2
  case hashes => exact fun hash tx hget => hpart.keyed.hash_of_get hget
  case senders => exact fun addr tx hmem => (hpart.known addr tx hmem).1
  case nonces => exact hpart.apart
  case sides =>
    intro hash
    cases hremote : pool.all.remotes.lookup hash with
    | none => exact .inr rfl
    | some tx => exact .inl (hpart.keyed.disjoint hash tx hremote)
  case slots => exact hcounted

end Invariants

namespace Sample

def order : MapOrder := ⟨fun xs => xs, fun xs => .refl xs⟩

def config : Config where
  priceBump := 10
  accountSlots := 2
  globalSlots := 4
  accountQueue := 4
  globalQueue := 4
  lifetime := 10
  accountSlots_pos := by decide
  accountQueue_lt := by decide
  global_lt := by decide

def tx (hash sender : ℕ) (nonce : UInt64) (gasFeeCap : ℕ) : Tx where
  hash := Fin.ofNat _ hash
  sender := Fin.ofNat _ sender
  nonce := nonce.toNat
  gas := 1
  gasFeeCap := gasFeeCap
  gasTipCap := gasFeeCap
  value := 0
  size := 100
  nonce_lt := nonce.toNat_lt

/-- All accounts have the same nonce and balance. -/
def statedb (nonce balance : ℕ) : StateDB := ⟨fun _ => nonce, fun _ => balance⟩

def start : Pool := newTxPool 1 ∅ (statedb 0 100) 10

/-- Two remote transactions with a gap and two local ones, of which the first ones are promoted. -/
def history : List Event :=
  [.add order 0 (tx 0 0 0 5) false, .add order 1 (tx 1 0 2 5) false,
    .add order 2 (tx 2 1 0 5) true, .add order 3 (tx 3 1 1 7) false,
    .runReorg order 4 ⟨fun _ _ => none, fun _ => none, fun _ => none⟩ none [0, 1]]

end Sample

theorem stays_partitioned_sample :
    ∃ pool, (machine Sample.config Sample.start).Reached (fun _ _ => True) pool ∧
      (pool.pendingTxs 0).map Tx.nonce = [0] ∧ (pool.queuedTxs 0).map Tx.nonce = [2] ∧
      (pool.pendingTxs 1).map Tx.nonce = [0, 1] ∧ pool.DisjointPartition := by
  have hreached : (machine Sample.config Sample.start).Reached (fun _ _ => True)
      ((machine Sample.config Sample.start).after Sample.start Sample.history) :=
    .after .start (by decide +kernel)
  exact ⟨_, hreached, by decide +kernel, by decide +kernel, by decide +kernel,
    stays_partitioned hreached⟩

end TxPool.Pool

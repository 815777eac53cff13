import NarwhalGeth.EvmState.Revert
import NarwhalGeth.Miner.Ordering

/-!
# Filling a block with transactions

The worker executes the best transaction of a set, one per turn of a loop, first of the local
accounts and then of the others. A transaction that fails is undone by a snapshot of the state and
the saved gas pool. The execution of a message by the virtual machine is a parameter.
-/

namespace Miner

/-! ## The environment of a block -/

inductive ApplyError where
  | nonceTooLow
  | invalid (text : String)
deriving DecidableEq

inductive Interrupt where
  | newHead
  | resubmit
  | timeout
deriving DecidableEq

structure Receipt (A H : Type) where
  txHash : H
  gasUsed : ℕ
  cumulativeGasUsed : ℕ
  transactionIndex : ℕ
  logs : List (EvmState.Log A H)

structure Header where
  number : UInt64
  gasLimit : ℕ
  gasUsed : ℕ
  baseFee : Option ℤ

/-- The block that is built. The gas pool is absent until the first set is committed. -/
structure Environment (A H : Type) where
  signer : Transaction H → A
  state : EvmState.StateDB A H
  tcount : ℕ
  gasPool : Option ℕ
  header : Header
  txs : List (Transaction H)
  receipts : List (Receipt A H)

/-- The environment of a new block. -/
def Environment.make {A H : Type} (signer : Transaction H → A) (state : EvmState.StateDB A H)
    (number : UInt64) (gasLimit : ℕ) (baseFee : Option ℤ) : Environment A H where
  signer := signer
  state := state
  tcount := 0
  gasPool := none
  header := { number, gasLimit, gasUsed := 0, baseFee }
  txs := []
  receipts := []

/-- What `ApplyTransaction` leaves. -/
structure Applied (A H : Type) where
  state : EvmState.StateDB A H
  gasPool : ℕ
  usedGas : ℕ
  result : Except ApplyError (Receipt A H)

/-- The chain that transactions are applied to. `applyMessage` runs a message on a state with some
gas, and gives the state and gas that are left, with the gas used unless it failed. `updateRoot` and
`updateTrie` write the tries. -/
structure Chain (A H M : Type) where
  env : EvmState.Env A H
  transactionToMessage : Transaction H → Header → Except ApplyError M
  applyMessage : M → Header → EvmState.StateDB A H → ℕ →
    EvmState.StateDB A H × ℕ × Except ApplyError ℕ
  headerHash : Header → H
  isByzantium : UInt64 → Bool
  isEIP158 : UInt64 → Bool
  isEIP155 : UInt64 → Bool
  updateRoot : A → EvmState.StateObject H → EvmState.StateObject H
  updateTrie : EvmState.StateDB A H → EvmState.Database A H

/-- The gas of a plain transfer. -/
def txGas : ℕ := 21000

variable {A H M : Type} [DecidableEq A] [DecidableEq H] [Zero H] {env' env : Environment A H}
  {txs : TransactionsByPriceAndNonce H A} {evm : EvmState.Env A H} {logs : List (EvmState.Log A H)}
  {state : EvmState.StateDB A H} {signal : Option Interrupt} {tx : Transaction H}
  {receipt : Receipt A H} {err : ApplyError} {isRunning : Bool} {gp : ℕ}

namespace Chain

variable (c : Chain A H M)

/-- Updates the state with the pending changes of a transaction. -/
def endTransaction (header : Header) (statedb : EvmState.StateDB A H) : EvmState.StateDB A H :=
  if c.isByzantium header.number then statedb.finalise c.env true
  else statedb.intermediateRoot c.env (c.isEIP158 header.number) c.updateRoot
    (c.updateTrie statedb)

def applyTransaction (msg : M) (gp : ℕ) (statedb : EvmState.StateDB A H) (header : Header)
    (tx : Transaction H) (usedGas : ℕ) : Applied A H :=
  match c.applyMessage msg header statedb gp with
  | (statedb, gp, .error err) => ⟨statedb, gp, usedGas, .error err⟩
  | (statedb, gp, .ok used) =>
    let statedb := c.endTransaction header statedb
    let usedGas := usedGas + used
    let (logs, statedb) := statedb.getLogs tx.hash header.number (c.headerHash header)
    ⟨statedb, gp, usedGas, .ok
      { txHash := tx.hash
        gasUsed := used
        cumulativeGasUsed := usedGas
        transactionIndex := statedb.txIndex
        logs }⟩

/-- `core.ApplyTransaction`, with the gas used in the header as the counter. -/
def applyTransactionWith (gp : ℕ) (statedb : EvmState.StateDB A H) (header : Header)
    (tx : Transaction H) : Applied A H :=
  match c.transactionToMessage tx header with
  | .error err => ⟨statedb, gp, header.gasUsed, .error err⟩
  | .ok msg => c.applyTransaction msg gp statedb header tx header.gasUsed

/-- Executes a transaction, or undoes it. Nothing is returned on a panic. -/
def commitTransaction (env : Environment A H) (tx : Transaction H) :
    Option (Environment A H × Except ApplyError (List (EvmState.Log A H))) := do
  let (snap, state) := env.state.snapshot
  let gp ← env.gasPool
  let applied := c.applyTransactionWith gp state env.header tx
  let header := { env.header with gasUsed := applied.usedGas }
  match applied.result with
  | .error err =>
    let state ← applied.state.revertToSnapshot snap
    some ({ env with state, gasPool := some gp, header }, .error err)
  | .ok receipt =>
    some ({ env with
      state := applied.state
      gasPool := some applied.gasPool
      header
      txs := env.txs ++ [tx]
      receipts := env.receipts ++ [receipt] }, .ok receipt.logs)

/-- Sets the context of a transaction before it is executed. -/
def setTxContext (env : Environment A H) (tx : Transaction H) : Environment A H :=
  { env with state := env.state.setTxContext tx.hash env.tcount }

/-- How a turn of the loop ends. -/
inductive Turn (A H : Type) where
  | returned (err : Interrupt)
  | broken
  | continued (env : Environment A H) (txs : TransactionsByPriceAndNonce H A)
      (coalescedLogs : List (EvmState.Log A H))

/-- One turn of the loop of `commitTransactions`, with the signal that it loads. -/
def turn (signal : Option Interrupt) (env : Environment A H)
    (txs : TransactionsByPriceAndNonce H A) (coalescedLogs : List (EvmState.Log A H)) :
    Option (Turn A H) :=
  match signal with
  | some err => some (.returned err)
  | none => do
    let gas ← env.gasPool
    if gas < txGas then some .broken
    else
      match txs.peek with
      | none => some .broken
      | some tx =>
        if tx.replayProtected ∧ ¬ c.isEIP155 env.header.number then
          let txs ← txs.pop
          some (.continued env txs coalescedLogs)
        else
          let (env, result) ← c.commitTransaction (setTxContext env tx) tx
          match result with
          | .error .nonceTooLow =>
            let txs ← txs.shift
            some (.continued env txs coalescedLogs)
          | .ok logs =>
            let txs ← txs.shift
            some (.continued { env with tcount := env.tcount + 1 } txs (coalescedLogs ++ logs))
          | .error (.invalid _) =>
            let txs ← txs.pop
            some (.continued env txs coalescedLogs)

end Chain

/-! ## Local and remote transactions -/

/-- Splits the pending transactions into those of local accounts and the others. -/
def splitLocals (pending : Assoc A (List (Transaction H))) (locals : List A) :
    Assoc A (List (Transaction H)) × Assoc A (List (Transaction H)) :=
  locals.foldl (fun split account =>
    match split.2.lookup account with
    | some (tx :: txs) => (split.1.insert account (tx :: txs), split.2.erase account)
    | _ => split) (∅, pending)

/-- The state of `fillTransactions`: the set in the loop with the logs so far, the sets still to
come, and the logs sent to subscribers. -/
structure Filling (A H : Type) where
  env : Environment A H
  current : Option (TransactionsByPriceAndNonce H A × List (EvmState.Log A H))
  queue : List (Assoc A (List (Transaction H)))
  err : Option Interrupt
  pendingLogsFeed : List (List (EvmState.Log A H))

inductive Progress where
  /-- The next set is made and `commitTransactions` is called on it. -/
  | commit
  /-- A turn of its loop, with the signal it loads and whether the worker is sealing. -/
  | turn (signal : Option Interrupt) (isRunning : Bool)
deriving DecidableEq

namespace Filling

def next (c : Chain A H M) (f : Filling A H) : Progress → Option (Filling A H)
  | .commit =>
    match f.current, f.queue with
    | none, txs :: queue =>
      if txs.entries.isEmpty then some { f with queue }
      else do
        let set ← TransactionsByPriceAndNonce.new f.env.signer txs f.env.header.baseFee
        some { f with
          env := { f.env with gasPool := some (f.env.gasPool.getD f.env.header.gasLimit) }
          current := some (set, [])
          queue }
    | _, _ => none
  | .turn signal isRunning => do
    let (txs, coalescedLogs) ← f.current
    match ← c.turn signal f.env txs coalescedLogs with
    | .returned err => some { f with current := none, queue := [], err := some err }
    | .broken =>
      some { f with
        current := none
        pendingLogsFeed :=
          if !isRunning && !coalescedLogs.isEmpty then f.pendingLogsFeed ++ [coalescedLogs]
          else f.pendingLogsFeed }
    | .continued env txs coalescedLogs => some { f with env, current := some (txs, coalescedLogs) }

/-- `fillTransactions` on a new environment. -/
def machine (c : Chain A H M) (env : Environment A H) (pending : Assoc A (List (Transaction H)))
    (locals : List A) : Machine (Filling A H) Progress where
  start :=
    let split := splitLocals pending locals
    { env, current := none, queue := [split.1, split.2], err := none, pendingLogsFeed := [] }
  next := next c

end Filling

/-! ## Executing a transaction -/

/-- What the virtual machine does to state and gas pool. A message that fails has made recorded
operations only, and reverted to its own snapshots only. One that is applied has charged the gas
that it used. -/
structure Chain.Contract (c : Chain A H M) : Prop where
  failed : ∀ msg header s gp s' gp' err, c.applyMessage msg header s gp = (s', gp', .error err) →
    ∃ ops, s.applyAll c.env ops = some s' ∧
      ∀ revid, EvmState.Op.revertToSnapshot revid ∈ ops → s.nextRevisionId ≤ revid
  applied : ∀ msg header s gp s' gp' used, c.applyMessage msg header s gp = (s', gp', .ok used) →
    gp' + used = gp ∧ s'.txIndex = s.txIndex ∧
      ∃ calls : List (EvmState.Call A H), calls.foldlM (EvmState.StateDB.call c.env) s = some s'

/-- A failed transaction leaves the accounts of the block alone, and everything that can be read
from the state. -/
structure Environment.Unchanged (evm : EvmState.Env A H) (env env' : Environment A H) : Prop where
  reads : EvmState.StateDB.SameReads evm env.state env'.state
  journal : env'.state.entries = env.state.entries
  dirty : env'.state.stateObjectsDirty = env.state.stateObjectsDirty
  gasPool : env'.gasPool = env.gasPool
  header : env'.header = env.header
  txs : env'.txs = env.txs
  receipts : env'.receipts = env.receipts
  tcount : env'.tcount = env.tcount

/-- What undoing a transaction leaves, with the state seen as a whole. -/
structure Environment.Undone (evm : EvmState.Env A H) (env env' : Environment A H) : Prop where
  view : env'.state.view evm EvmState.Log.plain = env.state.view evm EvmState.Log.plain
  journal : env'.state.entries = env.state.entries
  gasPool : env'.gasPool = env.gasPool
  header : env'.header = env.header
  txs : env'.txs = env.txs
  receipts : env'.receipts = env.receipts
  tcount : env'.tcount = env.tcount

theorem Environment.Undone.unchanged (h : env.Undone evm env') : env.Unchanged evm env' :=
  ⟨.of_view h.view, h.journal, congrArg EvmState.View.dirtyObjects h.view, h.gasPool, h.header,
    h.txs, h.receipts, h.tcount⟩

omit [DecidableEq A] in
theorem Environment.Undone.of_setTxContext (h : (Chain.setTxContext env tx).Undone evm env') :
    env.Undone evm env' :=
  ⟨h.view, h.journal, h.gasPool, h.header, h.txs, h.receipts, h.tcount⟩

/-- What an executed transaction adds. -/
structure Environment.Executed (env : Environment A H) (tx : Transaction H)
    (receipt : Receipt A H) (env' : Environment A H) : Prop where
  txs : env'.txs = env.txs ++ [tx]
  receipts : env'.receipts = env.receipts ++ [receipt]
  tcount : env'.tcount = env.tcount
  charged : ∃ gp gp', env.gasPool = some gp ∧ env'.gasPool = some gp' ∧ gp' + receipt.gasUsed = gp
  header : env'.header = { env.header with gasUsed := env.header.gasUsed + receipt.gasUsed }
  txHash : receipt.txHash = tx.hash
  index : receipt.transactionIndex = env.state.txIndex
  cumulative : receipt.cumulativeGasUsed = env.header.gasUsed + receipt.gasUsed

namespace Chain

variable {c : Chain A H M} {env env' : Environment A H} {tx : Transaction H}
  {s : EvmState.StateDB A H}

theorem wellFormed_foldlM_call {s' : EvmState.StateDB A H} (hs : s.WellFormed)
    {calls : List (EvmState.Call A H)} (h : calls.foldlM (EvmState.StateDB.call c.env) s = some s')
    : s'.WellFormed :=
  List.foldlM_some_invariant (I := EvmState.StateDB.WellFormed) (fun _ _ _ hs h => hs.call h) hs h

omit [DecidableEq A] [Zero H] in
theorem endTransaction_wellFormed (hs : s.WellFormed) (header : Header) :
    (c.endTransaction header s).WellFormed := by
  unfold endTransaction
  split_ifs
  · exact hs.finalise _ _
  · exact hs.intermediateRoot _ _ _ _

omit [DecidableEq A] [Zero H] in
theorem endTransaction_txIndex (header : Header) (s : EvmState.StateDB A H) :
    (c.endTransaction header s).txIndex = s.txIndex := by
  have hclear (s : EvmState.StateDB A H) : s.clearJournalAndRefund.txIndex = s.txIndex := by
    unfold EvmState.StateDB.clearJournalAndRefund
    dsimp only
    split_ifs <;> rfl
  unfold endTransaction
  split_ifs
  · exact hclear _
  · exact hclear _

theorem Contract.applyTransactionWith (hc : c.Contract) {header : Header} (hs : s.WellFormed)
    {applied : Applied A H} (h : c.applyTransactionWith gp s header tx = applied) :
    (∃ err ops, applied.result = .error err ∧ applied.usedGas = header.gasUsed ∧
      s.applyAll c.env ops = some applied.state ∧
      ∀ revid, EvmState.Op.revertToSnapshot revid ∈ ops → s.nextRevisionId ≤ revid) ∨
    ∃ receipt, applied.result = .ok receipt ∧
      applied.usedGas = header.gasUsed + receipt.gasUsed ∧
      applied.gasPool + receipt.gasUsed = gp ∧ applied.state.WellFormed ∧
      receipt.txHash = tx.hash ∧ receipt.transactionIndex = s.txIndex ∧
      receipt.cumulativeGasUsed = header.gasUsed + receipt.gasUsed := by
  subst h
  unfold Chain.applyTransactionWith
  cases c.transactionToMessage tx header with
  | error err => exact .inl ⟨err, [], rfl, rfl, rfl, fun _ hmem => by cases hmem⟩
  | ok msg =>
    dsimp only
    unfold applyTransaction
    rcases happly : c.applyMessage msg header s gp with ⟨s', gp', result⟩
    cases result with
    | error err =>
      obtain ⟨ops, hops, hnested⟩ := hc.failed _ _ _ _ _ _ _ happly
      exact .inl ⟨err, ops, rfl, rfl, hops, hnested⟩
    | ok used =>
      obtain ⟨hgas, hindex, calls, hcalls⟩ := hc.applied _ _ _ _ _ _ _ happly
      have hend : (c.endTransaction header s').WellFormed :=
        endTransaction_wellFormed (wellFormed_foldlM_call hs hcalls) header
      refine .inr ⟨_, rfl, rfl, hgas, ⟨⟨hend.sound.held, hend.sound.filled⟩, hend.ids⟩, rfl, ?_,
        rfl⟩
      exact (endTransaction_txIndex header s').trans hindex

section

variable {gp : ℕ} {applied : Applied A H}

omit [Zero H] in
theorem commitTransaction_of_error (hgas : env.gasPool = some gp)
    (happlied : c.applyTransactionWith gp env.state.snapshot.2 env.header tx = applied)
    (hresult : applied.result = .error err)
    (hrevert : applied.state.revertToSnapshot env.state.snapshot.1 = some state) :
    c.commitTransaction env tx = some ({ env with
      state
      gasPool := some gp
      header := { env.header with gasUsed := applied.usedGas } }, .error err) := by
  unfold Chain.commitTransaction
  simp only [hgas, Option.bind_eq_bind, Option.bind_some, happlied, hresult, hrevert]

omit [Zero H] in
theorem commitTransaction_of_ok (hgas : env.gasPool = some gp)
    (happlied : c.applyTransactionWith gp env.state.snapshot.2 env.header tx = applied)
    (hresult : applied.result = .ok receipt) :
    c.commitTransaction env tx = some ({ env with
      state := applied.state
      gasPool := some applied.gasPool
      header := { env.header with gasUsed := applied.usedGas }
      txs := env.txs ++ [tx]
      receipts := env.receipts ++ [receipt] }, .ok receipt.logs) := by
  unfold Chain.commitTransaction
  simp only [hgas, Option.bind_eq_bind, Option.bind_some, happlied, hresult]

end

theorem Contract.commitTransaction (hc : c.Contract) (hs : env.state.WellFormed)
    (hgas : env.gasPool = some gp) (tx : Transaction H) :
    ∃ env' result, c.commitTransaction env tx = some (env', result) ∧ env'.state.WellFormed ∧
      ((∃ err, result = .error err ∧ env.Undone c.env env') ∨
        ∃ receipt, result = .ok receipt.logs ∧ env.Executed tx receipt env') := by
  have htaken : env.state.apply c.env .snapshot = some env.state.snapshot.2 := rfl
  have hsnapshot := hs.apply htaken
  obtain ⟨applied, happlied⟩ :
      ∃ applied, c.applyTransactionWith gp env.state.snapshot.2 env.header tx = applied := ⟨_, rfl⟩
  obtain ⟨err, ops, hresult, hused, hops, hnested⟩ | ⟨receipt, hresult, hused, hpool, hwf, hhash,
    hindex, hcumulative⟩ := hc.applyTransactionWith hsnapshot happlied
  · -- Everything since the snapshot is undone.
    have hsince : EvmState.StateDB.Since c.env EvmState.Log.plain env.state.snapshot.2
        applied.state :=
      (EvmState.StateDB.Since.refl hsnapshot.sound).applyAll hsnapshot.ids hops hnested
        fun _ _ _ => EvmState.StateDB.plain_blind
    obtain ⟨t, hrevert, hrecorded⟩ := hsince.restored hs.ids
    have hfailed : applied.state.WellFormed :=
      List.foldlM_some_invariant (I := EvmState.StateDB.WellFormed) (fun _ _ _ hs h => hs.apply h)
        hsnapshot hops
    have ht : applied.state.apply c.env (.revertToSnapshot env.state.nextRevisionId) = some t :=
      hrevert
    refine ⟨_, _, commitTransaction_of_error hgas happlied hresult hrevert, hfailed.apply ht,
      .inl ⟨err, rfl, hrecorded.view_eq, ?_, hgas.symm, ?_, rfl, rfl, rfl⟩⟩
    · exact hrecorded.entries.trans (List.append_nil _)
    · rw [hused]
  · refine ⟨_, _, commitTransaction_of_ok hgas happlied hresult, hwf, .inr ⟨receipt, rfl, rfl, rfl,
      rfl, ⟨gp, _, hgas, rfl, hpool⟩, ?_, hhash, hindex, hcumulative⟩⟩
    rw [hused]

end Chain

/-! ## Turns of the loop -/

/-- The accounts of a block add up. -/
structure Environment.Balanced (env : Environment A H) : Prop where
  txs : env.txs.length = env.tcount
  receipts : env.receipts.length = env.tcount
  /-- Receipts and transactions correspond by their index. -/
  matching : ∀ (i : ℕ) (tx : Transaction H) (receipt : Receipt A H),
    env.txs[i]? = some tx → env.receipts[i]? = some receipt →
    receipt.txHash = tx.hash ∧ receipt.transactionIndex = i
  /-- The gas that was used and the pool make up the limit, which the first pool starts from. -/
  gas : env.header.gasUsed + env.gasPool.getD env.header.gasLimit = env.header.gasLimit
  cumulative : ∀ (i : ℕ) (receipt : Receipt A H), env.receipts[i]? = some receipt →
    receipt.cumulativeGasUsed = ((env.receipts.take (i + 1)).map (·.gasUsed)).sum
  total : env.header.gasUsed = (env.receipts.map (·.gasUsed)).sum

namespace Environment

variable {env env' : Environment A H} {tx : Transaction H}

omit [DecidableEq A] [DecidableEq H] [Zero H]

theorem getElem?_concat_eq_some {α : Type} {xs : List α} {x y : α} {i : ℕ}
    (h : (xs ++ [x])[i]? = some y) : xs[i]? = some y ∨ i = xs.length ∧ x = y := by
  rcases Nat.lt_or_ge i xs.length with hlt | hge
  · rw [List.getElem?_append_left hlt] at h
    exact .inl h
  · obtain ⟨hlt, -⟩ := List.getElem?_eq_some_iff.mp h
    rw [List.length_append, List.length_singleton] at hlt
    obtain rfl : i = xs.length := by omega
    rw [List.getElem?_concat_length] at h
    exact .inr ⟨rfl, Option.some.inj h⟩

theorem Balanced.undone [DecidableEq H] [Zero H] (h : env.Balanced) (hsame : env.Undone evm env') :
    env'.Balanced := by
  refine ⟨?_, ?_, ?_, ?_, ?_, ?_⟩
  · rw [hsame.txs, hsame.tcount, h.txs]
  · rw [hsame.receipts, hsame.tcount, h.receipts]
  · rw [hsame.txs, hsame.receipts]
    exact h.matching
  · rw [hsame.gasPool, hsame.header]
    exact h.gas
  · rw [hsame.receipts]
    exact h.cumulative
  · rw [hsame.header, hsame.receipts, h.total]

theorem Balanced.executed (h : env.Balanced) (hexec : env.Executed tx receipt env')
    (hindex : env.state.txIndex = env.tcount) :
    Balanced { env' with tcount := env'.tcount + 1 } := by
  have hsum : (env'.receipts.map (·.gasUsed)).sum =
      (env.receipts.map (·.gasUsed)).sum + receipt.gasUsed := by
    rw [hexec.receipts]
    simp
  refine ⟨?_, ?_, fun i tx' receipt' htx hreceipt => ?_, ?_,
    fun i receipt' hreceipt => ?_, ?_⟩
  · show env'.txs.length = env'.tcount + 1
    rw [hexec.txs, hexec.tcount, List.length_append, h.txs, List.length_singleton]
  · show env'.receipts.length = env'.tcount + 1
    rw [hexec.receipts, hexec.tcount, List.length_append, h.receipts, List.length_singleton]
  · replace htx : env'.txs[i]? = some tx' := htx
    replace hreceipt : env'.receipts[i]? = some receipt' := hreceipt
    rw [hexec.txs] at htx
    rw [hexec.receipts] at hreceipt
    have hlength : env.txs.length = env.receipts.length := h.txs.trans h.receipts.symm
    rcases getElem?_concat_eq_some htx with hold | ⟨rfl, rfl⟩
    · rcases getElem?_concat_eq_some hreceipt with hold' | ⟨rfl, -⟩
      · exact h.matching i tx' receipt' hold hold'
      · exact absurd (List.getElem?_eq_some_iff.mp hold).1 (by omega)
    · rcases getElem?_concat_eq_some hreceipt with hold' | ⟨-, rfl⟩
      · exact absurd (List.getElem?_eq_some_iff.mp hold').1 (by omega)
      · exact ⟨hexec.txHash, hexec.index.trans (hindex.trans h.txs.symm)⟩
  · obtain ⟨gp₀, gp', hbefore, hafter, hcharged⟩ := hexec.charged
    have hbalance := h.gas
    rw [hbefore, Option.getD_some] at hbalance
    show env'.header.gasUsed + env'.gasPool.getD _ = env'.header.gasLimit
    rw [hexec.header, hafter, Option.getD_some]
    dsimp only
    omega
  · replace hreceipt : env'.receipts[i]? = some receipt' := hreceipt
    show _ = ((env'.receipts.take (i + 1)).map _).sum
    rw [hexec.receipts] at hreceipt ⊢
    rcases getElem?_concat_eq_some hreceipt with hold | ⟨rfl, rfl⟩
    · have hlt := (List.getElem?_eq_some_iff.mp hold).1
      rw [List.take_append_of_le_length hlt]
      exact h.cumulative i receipt' hold
    · rw [List.take_of_length_le (by simp), ← hexec.receipts, hsum, hexec.cumulative, h.total]
  · show env'.header.gasUsed = (env'.receipts.map (·.gasUsed)).sum
    rw [hsum, hexec.header, h.total]

end Environment

namespace Chain

variable {c : Chain A H M} {env : Environment A H} {txs : TransactionsByPriceAndNonce H A}

/-- A turn that goes on has skipped the best transaction, undone it or executed it. -/
inductive Took (c : Chain A H M) (env : Environment A H) (txs : TransactionsByPriceAndNonce H A) :
    Environment A H → Prop
  | skipped : Took c env txs env
  | undone {tx : Transaction H} {env' : Environment A H} {err : ApplyError}
      (peeked : txs.peek = some tx)
      (committed : c.commitTransaction (setTxContext env tx) tx = some (env', .error err))
      (undone : (setTxContext env tx).Undone c.env env') : Took c env txs env'
  | executed {tx : Transaction H} {env' : Environment A H} {receipt : Receipt A H}
      (peeked : txs.peek = some tx)
      (committed : c.commitTransaction (setTxContext env tx) tx = some (env', .ok receipt.logs))
      (executed : (setTxContext env tx).Executed tx receipt env') :
      Took c env txs { env' with tcount := env'.tcount + 1 }

theorem Contract.turn (hc : c.Contract) (hs : env.state.WellFormed) (hgas : env.gasPool ≠ none)
    (signal : Option Interrupt) (txs : TransactionsByPriceAndNonce H A)
    (logs : List (EvmState.Log A H)) :
    ∃ t, c.turn signal env txs logs = some t ∧
      ∀ env' txs' logs', t = .continued env' txs' logs' →
        env'.state.WellFormed ∧ c.Took env txs env' := by
  obtain ⟨gp, hgp⟩ := Option.ne_none_iff_exists'.mp hgas
  unfold Chain.turn
  cases signal with
  | some err => exact ⟨_, rfl, fun _ _ _ h => by cases h⟩
  | none =>
    simp only [hgp, Option.bind_eq_bind, Option.bind_some]
    split_ifs with hlow
    · exact ⟨_, rfl, fun _ _ _ h => by cases h⟩
    · cases hpeek : txs.peek with
      | none => exact ⟨_, rfl, fun _ _ _ h => by cases h⟩
      | some tx =>
        obtain ⟨popped, hpop⟩ := TransactionsByPriceAndNonce.exists_pop_of_peek hpeek
        obtain ⟨shifted, hshift⟩ := TransactionsByPriceAndNonce.exists_shift_of_peek hpeek
        dsimp only
        split_ifs with hprotected
        · refine ⟨_, by rw [hpop]; rfl, fun env' _ _ h => ?_⟩
          cases h
          exact ⟨hs, .skipped⟩
        · have hcontext : (setTxContext env tx).state.WellFormed :=
            ⟨⟨hs.sound.held, hs.sound.filled⟩, hs.ids⟩
          obtain ⟨env'', result, hcommit, hwf, hresult⟩ :=
            hc.commitTransaction hcontext (show _ = some gp from hgp) tx
          rw [hcommit]
          obtain ⟨err, rfl, hundone⟩ | ⟨receipt, rfl, hexecuted⟩ := hresult
          · have htook : c.Took env txs env'' := .undone hpeek hcommit hundone
            cases err with
            | nonceTooLow =>
              refine ⟨_, by rw [Option.bind_some, hshift]; rfl, fun env' _ _ h => ?_⟩
              cases h
              exact ⟨hwf, htook⟩
            | invalid text =>
              refine ⟨_, by rw [Option.bind_some, hpop]; rfl, fun env' _ _ h => ?_⟩
              cases h
              exact ⟨hwf, htook⟩
          · refine ⟨_, by rw [Option.bind_some, hshift]; rfl, fun env' _ _ h => ?_⟩
            cases h
            exact ⟨hwf, .executed hpeek hcommit hexecuted⟩

theorem Took.balanced (h : c.Took env txs env') (henv : env.Balanced) :
    env'.Balanced := by
  cases h with
  | skipped => exact henv
  | undone _ _ hundone => exact henv.undone hundone.of_setTxContext
  | executed _ _ hexecuted =>
    have hcontext (tx : Transaction H) : (setTxContext env tx).Balanced :=
      ⟨henv.txs, henv.receipts, henv.matching, henv.gas, henv.cumulative, henv.total⟩
    exact (hcontext _).executed hexecuted rfl

theorem Took.gasPool_ne_none (h : c.Took env txs env') (hgas : env.gasPool ≠ none) :
    env'.gasPool ≠ none := by
  cases h with
  | skipped => exact hgas
  | undone _ _ hundone =>
    rw [hundone.gasPool]
    exact hgas
  | executed _ _ hexecuted =>
    obtain ⟨gp, gp', -, hgp', -⟩ := hexecuted.charged
    show _ ≠ none
    rw [hgp']
    exact Option.some_ne_none _

end Chain

/-! ## Every turn of both sets -/

namespace Filling

variable {c : Chain A H M} {f f' : Filling A H} {progress : Progress}

/-- The accounts add up, in a state that can be reverted. -/
structure Sound (f : Filling A H) : Prop where
  wellFormed : f.env.state.WellFormed
  balanced : f.env.Balanced
  ready : f.current ≠ none → f.env.gasPool ≠ none

omit [DecidableEq A] [DecidableEq H] [Zero H] in
theorem Sound.of_env_eq (hf : f.Sound) (henv : f'.env = f.env) (hcurrent : f'.current = none) :
    f'.Sound := by
  refine ⟨?_, ?_, fun h => absurd hcurrent h⟩
  · rw [henv]
    exact hf.wellFormed
  · rw [henv]
    exact hf.balanced

omit [Zero H] in
/-- A step makes a set, starts its loop, leaves the loop or goes on with a turn of it. -/
theorem next_cases (h : f.next c progress = some f') :
    (progress = .commit ∧ f'.env = f.env ∧ f'.current = none) ∨
    (progress = .commit ∧
      f'.env = { f.env with gasPool := some (f.env.gasPool.getD f.env.header.gasLimit) }) ∨
    ∃ signal isRunning txs logs, progress = .turn signal isRunning ∧ f.current = some (txs, logs) ∧
      ((f'.env = f.env ∧ f'.current = none) ∨
        ∃ txs' logs', c.turn signal f.env txs logs = some (.continued f'.env txs' logs')) := by
  cases progress with
  | commit =>
    simp only [next] at h
    cases hcurrent : f.current with
    | some current =>
      rw [hcurrent] at h
      cases h
    | none =>
      cases hqueue : f.queue with
      | nil =>
        rw [hcurrent, hqueue] at h
        cases h
      | cons txs queue =>
        rw [hcurrent, hqueue] at h
        dsimp only at h
        split_ifs at h
        · obtain rfl := Option.some.inj h
          exact .inl ⟨rfl, rfl, rfl⟩
        · obtain ⟨set, -, h⟩ := Option.bind_eq_some_iff.mp h
          obtain rfl := Option.some.inj h
          exact .inr (.inl ⟨rfl, rfl⟩)
  | turn signal isRunning =>
    obtain ⟨⟨txs, logs⟩, hcurrent, h⟩ := Option.bind_eq_some_iff.mp h
    obtain ⟨t, hturn, h⟩ := Option.bind_eq_some_iff.mp h
    refine .inr (.inr ⟨signal, isRunning, txs, logs, rfl, hcurrent, ?_⟩)
    cases t with
    | returned err =>
      obtain rfl := Option.some.inj h
      exact .inl ⟨rfl, rfl⟩
    | broken =>
      obtain rfl := Option.some.inj h
      exact .inl ⟨rfl, rfl⟩
    | continued env' txs' logs' =>
      obtain rfl := Option.some.inj h
      exact .inr ⟨txs', logs', hturn⟩

theorem Sound.turn (hc : c.Contract) (hf : f.Sound) (hcurrent : f.current = some (txs, logs))
    (h : f.next c (.turn signal isRunning) = some f') :
    (f'.env = f.env ∧ f'.current = none) ∨
      f'.env.state.WellFormed ∧ c.Took f.env txs f'.env := by
  obtain ⟨heq, -⟩ | ⟨heq, -⟩ | ⟨_, _, _, _, heq, hcurrent', hcase⟩ := next_cases h
  · cases heq
  · cases heq
  · cases heq
    cases hcurrent.symm.trans hcurrent'
    obtain hended | ⟨txs', logs', hturn⟩ := hcase
    · exact .inl hended
    · have hgas := hf.ready (by rw [hcurrent]; exact Option.some_ne_none _)
      obtain ⟨t, hturn', hcontinued⟩ := hc.turn hf.wellFormed hgas signal txs logs
      exact .inr (hcontinued _ _ _ (Option.some.inj (hturn'.symm.trans hturn)))

theorem Sound.next (hc : c.Contract) (hf : f.Sound) (h : f.next c progress = some f') :
    f'.Sound := by
  obtain ⟨-, henv, hcurrent⟩ | ⟨-, henv⟩ | ⟨signal, isRunning, txs, logs, rfl, hcurrent, -⟩ :=
    next_cases h
  · exact hf.of_env_eq henv hcurrent
  · have hbalanced := hf.balanced
    refine ⟨?_, ?_, fun _ => ?_⟩
    · rw [henv]
      exact hf.wellFormed
    · rw [henv]
      exact ⟨hbalanced.txs, hbalanced.receipts, hbalanced.matching, hbalanced.gas,
        hbalanced.cumulative, hbalanced.total⟩
    · rw [henv]
      exact Option.some_ne_none _
  · have hgas := hf.ready (by rw [hcurrent]; exact Option.some_ne_none _)
    obtain ⟨henv, hended⟩ | ⟨hwf, htook⟩ := hf.turn hc hcurrent h
    · exact hf.of_env_eq henv hended
    · exact ⟨hwf, htook.balanced hf.balanced, fun _ => htook.gasPool_ne_none hgas⟩

omit [Zero H] in
theorem Sound.start (hstate : state.WellFormed) (signer : Transaction H → A) (number : UInt64)
    (gasLimit : ℕ) (baseFee : Option ℤ) (pending : Assoc A (List (Transaction H))) (locals : List A)
    :
    (machine c (.make signer state number gasLimit baseFee) pending locals).start.Sound := by
  refine ⟨hstate, ⟨rfl, rfl, fun i tx _ htx _ => ?_, Nat.zero_add _, fun i receipt h => ?_, rfl⟩,
    fun h => absurd rfl h⟩
  · cases htx
  · cases h

theorem Sound.next_turn_ne_none (hc : c.Contract) (hf : f.Sound) (hcurrent : f.current ≠ none)
    (signal : Option Interrupt) (isRunning : Bool) : f.next c (.turn signal isRunning) ≠ none := by
  obtain ⟨⟨txs, logs⟩, hsome⟩ := Option.ne_none_iff_exists'.mp hcurrent
  obtain ⟨t, hturn, -⟩ := hc.turn hf.wellFormed (hf.ready hcurrent) signal txs logs
  unfold Filling.next
  simp only [hsome, Option.bind_eq_bind, Option.bind_some, hturn]
  cases t <;> exact Option.some_ne_none _

theorem Sound.unchanged (hc : c.Contract) (hf : f.Sound) (hcurrent : f.current = some (txs, logs))
    (hpeek : txs.peek = some tx)
    (hfailed : c.commitTransaction (Chain.setTxContext f.env tx) tx = some (env', .error err))
    (h : f.next c (.turn signal isRunning) = some f') : f.env.Unchanged c.env f'.env := by
  obtain ⟨henv, -⟩ | ⟨-, htook⟩ := hf.turn hc hcurrent h
  · rw [henv]
    exact ⟨.of_view rfl, rfl, rfl, rfl, rfl, rfl, rfl, rfl⟩
  · generalize f'.env = env'' at htook
    cases htook with
    | skipped => exact ⟨.of_view rfl, rfl, rfl, rfl, rfl, rfl, rfl, rfl⟩
    | undone _ _ hundone => exact hundone.of_setTxContext.unchanged
    | executed hpeek' hcommit _ =>
      cases hpeek.symm.trans hpeek'
      cases hfailed.symm.trans hcommit

/-- After every turn over both sets the accounts of the block add up, and a transaction that failed
has changed nothing. -/
theorem accounts_add_up (hc : c.Contract) {db : EvmState.Database A H}
    {state : EvmState.StateDB A H}
    (hstate : (EvmState.StateDB.machine c.env db).Reached (fun _ _ => True) state)
    (signer : Transaction H → A) (number : UInt64) (gasLimit : ℕ) (baseFee : Option ℤ)
    (pending : Assoc A (List (Transaction H))) (locals : List A)
    (hf : (machine c (.make signer state number gasLimit baseFee) pending locals).Reached
      (fun _ _ => True) f) :
    f.env.Balanced ∧
      (f.current ≠ none → f.env.gasPool ≠ none ∧
        ∀ signal isRunning, f.next c (.turn signal isRunning) ≠ none) ∧
      ∀ txs logs tx env' err, f.current = some (txs, logs) → txs.peek = some tx →
        c.commitTransaction (Chain.setTxContext f.env tx) tx = some (env', .error err) →
        ∀ signal isRunning f', f.next c (.turn signal isRunning) = some f' →
          f.env.Unchanged c.env f'.env := by
  have hsound : f.Sound :=
    hf.invariant (I := Sound) (Sound.start (EvmState.StateDB.wellFormed_of_reached hstate) ..)
      fun _ _ _ hf _ h => hf.next hc h
  exact ⟨hsound.balanced,
    fun hcurrent => ⟨hsound.ready hcurrent, hsound.next_turn_ne_none hc hcurrent⟩,
    fun txs logs tx env' err hcurrent hpeek hfailed signal isRunning f' h =>
      hsound.unchanged hc hcurrent hpeek hfailed h⟩

namespace Sample

/-- Runs a transfer of the account that signed: checks the nonce, buys the gas, and fails after
that if the account cannot pay. -/
def applyMessage (tx : Transaction ℕ) (_ : Header) (s : EvmState.StateDB ℕ ℕ) (gp : ℕ) :
    EvmState.StateDB ℕ ℕ × ℕ × Except ApplyError ℕ :=
  let sender := Miner.Sample.signer tx
  let nonce := (s.getNonce sender).1.toNat
  let s := (s.getNonce sender).2
  if tx.nonce < nonce then (s, gp, .error .nonceTooLow)
  else if nonce < tx.nonce then (s, gp, .error (.invalid "nonce too high"))
  else if gp < txGas then (s, gp, .error (.invalid "gas limit reached"))
  else
    let s := s.subBalance EvmState.StateDB.Sample.hashing sender 1
    if (s.getBalance sender).1 < 0 then
      ((s.getBalance sender).2, gp - txGas, .error (.invalid "insufficient funds for transfer"))
    else
      (s.setNonce EvmState.StateDB.Sample.hashing sender (UInt64.ofNat (nonce + 1)), gp - txGas,
        .ok txGas)

def chain : Chain ℕ ℕ (Transaction ℕ) where
  env := EvmState.StateDB.Sample.hashing
  transactionToMessage tx _ := .ok tx
  applyMessage := applyMessage
  headerHash header := header.gasUsed
  isByzantium _ := true
  isEIP158 _ := true
  isEIP155 _ := true
  updateRoot _ obj := obj
  updateTrie s := s.db

section

variable (s : EvmState.StateDB ℕ ℕ) (address : ℕ)

theorem getStateObject_txIndex : (s.getStateObject address).2.txIndex = s.txIndex := by
  unfold EvmState.StateDB.getStateObject EvmState.StateDB.getDeletedStateObject
  dsimp only
  split
  · rfl
  · split <;> rfl

theorem createObject_txIndex : (s.createObject chain.env address).2.2.txIndex = s.txIndex := by
  have hget := getStateObject_txIndex s address
  unfold EvmState.StateDB.getStateObject at hget
  unfold EvmState.StateDB.createObject
  dsimp only
  split
  next t heq =>
    rw [heq] at hget
    exact hget
  next prev t heq =>
    rw [heq] at hget
    exact hget

theorem getOrNewStateObject_txIndex :
    (s.getOrNewStateObject chain.env address).2.txIndex = s.txIndex := by
  have hget := getStateObject_txIndex s address
  unfold EvmState.StateDB.getOrNewStateObject
  split
  next obj t heq =>
    rw [heq] at hget
    exact hget
  next t heq =>
    rw [heq] at hget
    exact (createObject_txIndex t address).trans hget

end

theorem contract : chain.Contract where
  failed msg header s gp s' gp' err h := by
    replace h : applyMessage msg header s gp = (s', gp', .error err) := h
    unfold applyMessage at h
    dsimp only at h
    generalize Miner.Sample.signer msg = sender at h
    split_ifs at h
    · exact ⟨[.read (.getNonce sender)], congrArg some (congrArg Prod.fst h), by simp⟩
    · exact ⟨[.read (.getNonce sender)], congrArg some (congrArg Prod.fst h), by simp⟩
    · exact ⟨[.read (.getNonce sender)], congrArg some (congrArg Prod.fst h), by simp⟩
    · exact ⟨[.read (.getNonce sender), .subBalance sender 1, .read (.getBalance sender)],
        congrArg some (congrArg Prod.fst h), by simp⟩
    · cases congrArg (fun r => r.2.2) h
  applied msg header s gp s' gp' used h := by
    replace h : applyMessage msg header s gp = (s', gp', .ok used) := h
    unfold applyMessage at h
    dsimp only at h
    generalize Miner.Sample.signer msg = sender at h
    split_ifs at h with hlow hhigh hgas hfunds
    · cases congrArg (fun r => r.2.2) h
    · cases congrArg (fun r => r.2.2) h
    · cases congrArg (fun r => r.2.2) h
    · cases congrArg (fun r => r.2.2) h
    · have hleft : gp - txGas = gp' := congrArg (fun r => r.2.1) h
      have hused : txGas = used := Except.ok.inj (congrArg (fun r => r.2.2) h)
      refine ⟨by omega, ?_, [.op (.read (.getNonce sender)), .op (.subBalance sender 1),
        .op (.setNonce sender (UInt64.ofNat ((s.getNonce sender).1.toNat + 1)))],
        congrArg some (congrArg Prod.fst h)⟩
      have hs' : _ = s' := congrArg Prod.fst h
      rw [← hs']
      exact (getOrNewStateObject_txIndex _ _).trans
        ((getOrNewStateObject_txIndex _ _).trans (getStateObject_txIndex _ _))

/-- The two accounts have enough for one transaction and for none. -/
def db : EvmState.Database ℕ ℕ where
  account address := match address with
    | 0 => some ⟨0, 1, 1, EvmState.StateDB.Sample.hashing.emptyCodeHash⟩
    | 1 => some ⟨7, 0, 1, EvmState.StateDB.Sample.hashing.emptyCodeHash⟩
    | _ => none
  storage _ _ _ := 0
  contractCode _ := none

/-- The second account is a local one. -/
def filling : Machine (Filling ℕ ℕ) Progress :=
  machine chain (.make Miner.Sample.signer (.new db) 1 100000 (some 5)) Miner.Sample.txs [1]

/-- The local account fails, and the first transaction of the other one is executed. -/
def filled : Filling ℕ ℕ :=
  filling.after filling.start [.commit, .turn none false, .turn none false, .commit,
    .turn none false]

theorem reached : filling.Reached (fun _ _ => True) filled :=
  Machine.Reached.start.after (by decide +kernel)

end Sample

/-- One transaction was executed, and the next one fails after it has bought gas. -/
theorem accounts_add_up_sample :
    Sample.filled.env.Balanced ∧ Sample.filled.env.tcount = 1 ∧
      Sample.filled.env.header.gasUsed = 21000 ∧ Sample.filled.env.gasPool = some 79000 ∧
      ∃ f, Sample.filled.next Sample.chain (.turn none false) = some f ∧
        Sample.filled.env.Unchanged Sample.chain.env f.env := by
  obtain ⟨hbalanced, hlive, hunchanged⟩ := accounts_add_up Sample.contract .start
    Miner.Sample.signer 1 100000 (some 5) Miner.Sample.txs [1] Sample.reached
  -- The best transaction that is left, and how it ends.
  obtain ⟨⟨txs, logs⟩, hcurrent, hfails⟩ := (Option.any_eq_true _ _).mp (show
    Sample.filled.current.any (fun current => current.1.peek.any fun tx =>
      (Sample.chain.commitTransaction (Chain.setTxContext Sample.filled.env tx) tx).any
        fun outcome => !outcome.2.toBool) = true by decide +kernel)
  obtain ⟨tx, hpeek, hfails⟩ := (Option.any_eq_true _ _).mp hfails
  obtain ⟨⟨env', result⟩, hcommit, hfails⟩ := (Option.any_eq_true _ _).mp hfails
  refine ⟨hbalanced, by decide +kernel, by decide +kernel, by decide +kernel, ?_⟩
  obtain ⟨f, hf⟩ := Option.ne_none_iff_exists'.mp
    ((hlive (by rw [hcurrent]; exact Option.some_ne_none _)).2 none false)
  cases result with
  | error err => exact ⟨f, hf, hunchanged _ _ _ _ _ hcurrent hpeek hcommit _ _ _ hf⟩
  | ok logs => cases hfails

end Filling

end Miner

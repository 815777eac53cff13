import NarwhalGeth.TxPool.History

/-!
# Rejected transactions

A full pool evicts transactions before the new one is inserted. If the insertion then fails because
an old transaction with the same nonce is not outbid, the others were evicted in vain.
-/

namespace TxPool.Pool

section Evictions

variable {pool pool' : Pool} {addr : Address} {tx : Tx} {config : Config} {order : MapOrder}
  {now : ℕ} {drop : List Tx} {fromLocal : Bool}

/-- The lists of an account have the transactions of the lookup. -/
theorem Partition.mem_iff (h : pool.Partition) :
    tx ∈ pool.pendingTxs addr ∨ tx ∈ pool.queuedTxs addr ↔
      pool.all.get tx.hash = some tx ∧ tx.sender = addr := by
  constructor
  · exact fun hmem => ⟨(h.known addr tx hmem).2, (h.known addr tx hmem).1⟩
  · rintro ⟨hget, rfl⟩
    exact h.placed tx.hash tx hget

/-- Exactly the given transactions are evicted. -/
theorem evictions_spec (config : Config) (order : MapOrder) (now : ℕ) (drop : List Tx)
    (h : pool.Partition) :
    (drop.foldl (evict config order now) pool).Partition ∧
      ∀ hash tx, (drop.foldl (evict config order now) pool).all.get hash = some tx ↔
        pool.all.get hash = some tx ∧ hash ∉ drop.map Tx.hash := by
  induction drop generalizing pool with
  | nil => exact ⟨h, fun hash tx => by simp⟩
  | cons first drop ih =>
    have hfirst : (pool.evict config order now first).Partition ∧
        ∀ hash tx, (pool.evict config order now first).all.get hash = some tx ↔
          pool.all.get hash = some tx ∧ hash ≠ first.hash := by
      have hsame : Same (pool.removeTx config order now first.hash false).2
        (pool.evict config order now first) := ⟨rfl, rfl, rfl, rfl, rfl, rfl⟩
      rw [hsame.all]
      cases hget : pool.all.get first.hash with
      | none =>
        rw [removeTx_of_get_eq_none hget] at hsame ⊢
        refine ⟨hsame.partition h, fun hash tx => (and_iff_left_of_imp ?_).symm⟩
        rintro hsome rfl
        rw [hget] at hsome
        cases hsome
      | some old =>
        obtain ⟨moved, hremoved⟩ : ∃ moved, Removed pool
            (pool.removeTx config order now first.hash false).2 old moved :=
          removeTx_spec h hget false
        refine ⟨hsame.partition (h.rearranged hremoved.rearranged), fun hash tx => ?_⟩
        rw [hremoved.rearranged.get, List.mem_singleton]
        refine and_congr_right fun hsome => not_congr ⟨?_, ?_⟩
        · rintro rfl
          rw [← h.keyed.hash_of_get hsome, h.keyed.hash_of_get hget]
        · rintro rfl
          rw [hget] at hsome
          exact (Option.some.inj hsome).symm
    obtain ⟨hpart, hget⟩ := hfirst
    obtain ⟨hpart', hget'⟩ := ih hpart
    refine ⟨hpart', fun hash tx => ?_⟩
    rw [List.foldl_cons, hget', hget, List.map_cons, List.mem_cons, not_or, and_assoc]

/-- The same transactions in the lookup, the pending lists and the queues. -/
structure Unchanged (pool pool' : Pool) : Prop where
  all : ∀ hash, pool'.all.get hash = pool.all.get hash
  pending : ∀ addr, pool'.pendingTxs addr = pool.pendingTxs addr
  queued : ∀ addr, pool'.queuedTxs addr = pool.queuedTxs addr

theorem Same.unchanged (h : Same pool pool') : Unchanged pool pool' := by
  refine ⟨fun hash => ?_, fun addr => ?_, fun addr => ?_⟩
  · rw [h.all]
  · rw [pendingTxs, h.pending, pendingTxs]
  · rw [queuedTxs, h.queue, queuedTxs]

/-- Room has to be made, and an old transaction with the nonce that is not outbid is not among those
that leave. -/
def EvictsInVain (config : Config) (pool : Pool) (tx : Tx) (fromLocal : Bool) : Prop :=
  pool.all.get tx.hash = none ∧ pool.validateTx tx = none ∧
    ∃ drop, (pool.makeRoom config tx (fromLocal || decide (tx.sender ∈ pool.locals))).1 = .ok drop ∧
      drop ≠ [] ∧ ∃ old, (old ∈ pool.pendingTxs tx.sender ∨ old ∈ pool.queuedTxs tx.sender) ∧
        old.nonce = tx.nonce ∧ tx.outbids old config.priceBump = false ∧
        old.hash ∉ drop.map Tx.hash

/-- The pool between the evictions and the insertion. -/
structure Evicted (config : Config) (pool evicted : Pool) (tx : Tx) (drop : List Tx) : Prop where
  get : ∀ hash tx', evicted.all.get hash = some tx' ↔
    pool.all.get hash = some tx' ∧ hash ∉ drop.map Tx.hash
  same : drop = [] → Same pool evicted
  blocked : evicted.Blocked config tx ↔
    ∃ old, (old ∈ pool.pendingTxs tx.sender ∨ old ∈ pool.queuedTxs tx.sender) ∧
      old.nonce = tx.nonce ∧ tx.outbids old config.priceBump = false ∧
      old.hash ∉ drop.map Tx.hash

theorem add_after_room (h : pool.Partition) (hnew : pool.all.get tx.hash = none)
    (hvalid : pool.validateTx tx = none)
    (hdrop : (pool.makeRoom config tx (fromLocal || decide (tx.sender ∈ pool.locals))).1 =
      .ok drop) :
    ∃ evicted, Evicted config pool evicted tx drop ∧
      evicted.Decided config tx (pool.add config order now tx fromLocal) := by
  have hsame := makeRoom_same config pool tx (fromLocal || decide (tx.sender ∈ pool.locals))
  generalize hroom : (pool.makeRoom config tx _).2 = room at hsame
  have hpart := hsame.partition h
  obtain ⟨hpart', hget⟩ := evictions_spec config order now drop hpart
  rw [hsame.all] at hget
  refine ⟨_, ⟨hget, ?_, ?_⟩, ?_⟩
  · rintro rfl
    exact hsame
  · refine exists_congr fun old => ?_
    rw [hpart'.mem_iff, h.mem_iff, hget]
    tauto
  · rw [add_of_room hnew hvalid (Prod.ext hdrop hroom)]
    refine insertTx_spec fromLocal _ hpart' ?_
    rw [Option.eq_none_iff_forall_ne_some]
    intro tx' htx'
    have hold := ((hget _ _).mp htx').1
    rw [hnew] at hold
    cases hold

theorem EvictsInVain.rejected (hvain : pool.EvictsInVain config tx fromLocal) (h : pool.Partition) :
    (pool.add config order now tx fromLocal).1 = .error .replaceUnderpriced ∧
      ¬ Unchanged pool (pool.add config order now tx fromLocal).2 := by
  obtain ⟨hnew, hvalid, drop, hdrop, hne, hold⟩ := hvain
  obtain ⟨evicted, hevicted, hdecided⟩ := add_after_room h hnew hvalid hdrop
  rcases hdecided with ⟨-, hresult⟩ | ⟨hfree, -⟩
  swap
  · exact absurd (hevicted.blocked.mpr hold) hfree
  rw [hresult]
  refine ⟨rfl, fun hunchanged => ?_⟩
  -- Each transaction that was evicted had been in the lookup.
  obtain ⟨first, hfirst⟩ := List.exists_mem_of_ne_nil drop hne
  obtain ⟨old, hremote⟩ := Option.isSome_iff_exists.mp (mem_of_makeRoom hdrop hfirst)
  have hgone := hunchanged.all first.hash
  rw [h.keyed.get_remote hremote, hevicted.get] at hgone
  exact hgone.2 (List.mem_map_of_mem hfirst)

/-- For every reachable pool, a failed insertion changes nothing, unless it evicts in vain. -/
theorem failed_add_changes_nothing_iff {priceLimit gasLimit : ℕ} {locals : Finset Address}
    {statedb : StateDB}
    (h : (machine config (newTxPool priceLimit locals statedb gasLimit)).Reached
      (fun _ _ => True) pool) (order : MapOrder) (now : ℕ) (tx : Tx) (fromLocal : Bool) :
    ((∃ e, (pool.add config order now tx fromLocal).1 = .error e) →
      Unchanged pool (pool.add config order now tx fromLocal).2) ↔
      ¬ pool.EvictsInVain config tx fromLocal := by
  have hpart := (consistent_of_reached h).partition
  constructor
  · intro hkept hvain
    obtain ⟨herror, hchanged⟩ : (pool.add config order now tx fromLocal).1 = _ ∧ _ :=
      hvain.rejected hpart
    exact hchanged (hkept ⟨_, herror⟩)
  rintro hnot ⟨e, herror⟩
  rcases add_cases config order now pool tx fromLocal with
    ⟨-, -, hsame⟩ | ⟨drop, room, hnew, hvalid, hroom, -⟩
  · exact hsame.unchanged
  have hdrop := congrArg Prod.fst hroom
  obtain ⟨evicted, hevicted, hdecided⟩ : ∃ evicted, Evicted config pool evicted tx drop ∧
    evicted.Decided config tx (pool.add config order now tx fromLocal) :=
    add_after_room hpart hnew hvalid hdrop
  rcases hdecided with ⟨hblocked, hresult⟩ | ⟨-, replaced, pool', hresult, -⟩
  · rw [hresult]
    by_cases hnil : drop = []
    · exact (hevicted.same hnil).unchanged
    · exact absurd ⟨hnew, hvalid, drop, hdrop, hnil, hevicted.blocked.mp hblocked⟩ hnot
  · rw [hresult] at herror
    cases herror

end Evictions

namespace Sample

/-- There is room for two transactions. -/
def tinyConfig : Config :=
  { config with globalSlots := 1, globalQueue := 1, global_lt := by decide }

/-- The pool is full with one transaction each of two accounts. -/
def full : List Event := [.add order 0 (tx 0 0 0 10) false, .add order 1 (tx 1 1 0 1) false]

def fullPool : Pool := (machine tinyConfig start).after start full

end Sample

/-- A third account that pays as little as the second one does not get in. -/
theorem failed_add_changes_nothing_sample :
    (machine Sample.tinyConfig Sample.start).Reached (fun _ _ => True) Sample.fullPool ∧
      (Sample.fullPool.add Sample.tinyConfig Sample.order 2 (Sample.tx 2 2 0 1) false).1 =
        .error .underpriced ∧
      (((∃ e, (Sample.fullPool.add Sample.tinyConfig Sample.order 2 (Sample.tx 2 2 0 1)
          false).1 = .error e) →
        Unchanged Sample.fullPool (Sample.fullPool.add Sample.tinyConfig Sample.order 2
          (Sample.tx 2 2 0 1) false).2) ↔
        ¬ Sample.fullPool.EvictsInVain Sample.tinyConfig (Sample.tx 2 2 0 1) false) := by
  have hreached : (machine Sample.tinyConfig Sample.start).Reached (fun _ _ => True)
      Sample.fullPool := .after .start (by decide +kernel)
  exact ⟨hreached, by decide +kernel,
    failed_add_changes_nothing_iff hreached Sample.order 2 (Sample.tx 2 2 0 1) false⟩

/-- The first account sends a transaction that pays as much as its old one. When it is rejected, the
second account has lost its transaction. -/
theorem evicts_in_vain :
    (machine Sample.tinyConfig Sample.start).Reached (fun _ _ => True) Sample.fullPool ∧
      (Sample.fullPool.add Sample.tinyConfig Sample.order 2 (Sample.tx 2 0 0 10) false).1 =
        .error .replaceUnderpriced ∧
      (Sample.fullPool.queuedTxs 1).map Tx.hash = [1] ∧
      (Sample.fullPool.add Sample.tinyConfig Sample.order 2 (Sample.tx 2 0 0 10)
        false).2.queuedTxs 1 = [] ∧
      ¬ Unchanged Sample.fullPool (Sample.fullPool.add Sample.tinyConfig Sample.order 2
        (Sample.tx 2 0 0 10) false).2 := by
  have hreached : (machine Sample.tinyConfig Sample.start).Reached (fun _ _ => True)
      Sample.fullPool := .after .start (by decide +kernel)
  have hbefore : (Sample.fullPool.queuedTxs 1).map Tx.hash = [1] := by decide +kernel
  have hafter : (Sample.fullPool.add Sample.tinyConfig Sample.order 2 (Sample.tx 2 0 0 10)
      false).2.queuedTxs 1 = [] := by decide +kernel
  refine ⟨hreached, by decide +kernel, hbefore, hafter, fun hunchanged => ?_⟩
  rw [← hunchanged.queued, hafter] at hbefore
  cases hbefore

end TxPool.Pool

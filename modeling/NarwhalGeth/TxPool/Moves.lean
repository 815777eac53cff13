import NarwhalGeth.TxPool.Partition
import NarwhalGeth.TxPool.Reorg

/-!
# Promotions, demotions and removals

What the operations of a reorganisation do to the lists, the lookup and the virtual nonces of an
account, over a pool that is a partition.
-/

namespace TxPool.Pool

/-- No account has an empty pending list. -/
def NoEmpty (pool : Pool) : Prop :=
  ∀ addr list, pool.pending.lookup addr = some list → list.txs ≠ []

/-- The chain state stays, transactions only leave the lookup, and no list is left empty. -/
structure Frame (pool pool' : Pool) : Prop where
  state : pool'.currentState = pool.currentState
  maxGas : pool'.currentMaxGas = pool.currentMaxGas
  locals : pool'.locals = pool.locals
  fallback : pool'.pendingNonces.fallback = pool.pendingNonces.fallback
  trimmed : ∃ hashes : List Hash, pool'.all = hashes.foldl Lookup.remove pool.all
  held : pool.NoEmpty → pool'.NoEmpty

namespace Frame

variable {pool pool' pool'' : Pool}

theorem refl (pool : Pool) : Frame pool pool := ⟨rfl, rfl, rfl, rfl, ⟨[], rfl⟩, id⟩

theorem trans (h : Frame pool pool') (h' : Frame pool' pool'') : Frame pool pool'' := by
  obtain ⟨hashes, heq⟩ := h.trimmed
  obtain ⟨hashes', heq'⟩ := h'.trimmed
  refine ⟨h'.state.trans h.state, h'.maxGas.trans h.maxGas, h'.locals.trans h.locals,
    h'.fallback.trans h.fallback, ⟨hashes ++ hashes', ?_⟩, h'.held ∘ h.held⟩
  rw [heq', heq, List.foldl_append]

theorem foldl {α : Type*} {f : Pool → α → Pool} (hf : ∀ pool x, Frame pool (f pool x)) (xs : List α)
    (pool : Pool) : Frame pool (xs.foldl f pool) := by
  induction xs generalizing pool with
  | nil => exact refl pool
  | cons x xs ih => exact (hf pool x).trans (ih (f pool x))

theorem dropTxs (pool : Pool) (txs : List Tx) : Frame pool (pool.dropTxs txs) :=
  ⟨rfl, rfl, rfl, rfl, ⟨txs.map Tx.hash, (List.foldl_map ..).symm⟩, id⟩

theorem markRemoved (order : MapOrder) (pool : Pool) (count : ℕ) :
    Frame pool (pool.markRemoved order count) :=
  ⟨rfl, rfl, rfl, rfl, ⟨[], rfl⟩, id⟩

theorem setQueue (pool : Pool) (addr : Address) (list : TxList false) :
    Frame pool (pool.setQueue addr list) :=
  ⟨rfl, rfl, rfl, rfl, ⟨[], rfl⟩, id⟩

end Frame

section Frames

variable {config : Config} {order : MapOrder} {now : ℕ} {strict : Bool}
  {lists : Assoc Address (TxList strict)} {addr other : Address}

theorem noncer_setIfLower_fallback (n : Noncer) (addr : Address) (nonce : ℕ) :
    (n.setIfLower addr nonce).fallback = n.fallback := by
  unfold Noncer.setIfLower
  split_ifs <;> rfl

theorem dropTxs_state (txs : List Tx) (pool : Pool) :
    (pool.dropTxs txs).currentState = pool.currentState := rfl

theorem dropTxs_maxGas (txs : List Tx) (pool : Pool) :
    (pool.dropTxs txs).currentMaxGas = pool.currentMaxGas := rfl

theorem dropTxs_nonces (txs : List Tx) (pool : Pool) :
    (pool.dropTxs txs).pendingNonces = pool.pendingNonces := rfl

theorem discardOld_frame (pool : Pool) (old : Option Tx) :
    Frame pool (pool.discardOld order old) := by
  cases old with
  | none => exact .refl pool
  | some old => exact ⟨rfl, rfl, rfl, rfl, ⟨[old.hash], rfl⟩, id⟩

theorem discardOld_lists (order : MapOrder) (pool : Pool) (old : Option Tx) :
    (pool.discardOld order old).pending = pool.pending ∧
      (pool.discardOld order old).queue = pool.queue ∧
      (pool.discardOld order old).pendingNonces = pool.pendingNonces := by
  cases old with
  | none => exact ⟨rfl, rfl, rfl⟩
  | some old => exact ⟨rfl, rfl, rfl⟩

theorem requeue_frame (pool : Pool) (tx : Tx) : Frame pool (pool.requeue config order now tx) := by
  unfold requeue enqueueTx
  dsimp only
  cases TxList.add _ tx config.priceBump with
  | none => exact .refl pool
  | some added =>
    obtain ⟨old, list⟩ := added
    let queued : Pool := { pool with queue := pool.queue.insert tx.sender list }
    have hframe : Frame queued (queued.discardOld order old) := discardOld_frame queued old
    exact ⟨hframe.state, hframe.maxGas, hframe.locals, hframe.fallback, hframe.trimmed,
      hframe.held⟩

theorem putBack_nonempty {list : TxList strict}
    (h : ∀ addr list, lists.lookup addr = some list → list.txs ≠ []) {list' : TxList strict}
    (hlookup : (putBack lists addr list).lookup other = some list') : list'.txs ≠ [] := by
  unfold putBack at hlookup
  split_ifs at hlookup with hempty
  · exact h other list' (Assoc.lookup_of_lookup_erase hlookup)
  · rcases Assoc.lookup_insert_cases hlookup with ⟨-, rfl⟩ | hold
    · exact fun hnil => hempty (List.isEmpty_iff.mpr hnil)
    · exact h other list' hold

theorem setPending_frame (pool : Pool) (addr : Address) (list : TxList true) :
    Frame pool (pool.setPending addr list) :=
  ⟨rfl, rfl, rfl, rfl, ⟨[], rfl⟩, fun h _ _ hlookup => putBack_nonempty h hlookup⟩

theorem demote_frame (pool : Pool) (addr : Address) (kept : TxList true) (moved : List Tx) :
    Frame pool (pool.demote config order now addr kept moved) :=
  (setPending_frame pool addr kept).trans (.foldl (fun pool tx => requeue_frame pool tx) moved _)

theorem promoteTx_frame (addr : Address) (pool : Pool) (tx : Tx) :
    Frame pool (promoteTx config order now addr pool tx) := by
  unfold promoteTx
  dsimp only
  cases hadd : TxList.add _ tx config.priceBump with
  | none => exact discardOld_frame pool (some tx)
  | some added =>
    obtain ⟨old, list⟩ := added
    let promoted : Pool := { pool with pending := pool.pending.insert addr list }
    have hframe : Frame promoted (promoted.discardOld order old) := discardOld_frame promoted old
    refine ⟨hframe.state, hframe.maxGas, hframe.locals, hframe.fallback, hframe.trimmed,
      fun h other list' hlookup => ?_⟩
    have hlookup' : promoted.pending.lookup other = some list' := by
      rwa [← (discardOld_lists order promoted old).1]
    rcases Assoc.lookup_insert_cases hlookup' with ⟨-, rfl⟩ | hold
    · rw [(TxList.add_eq_some hadd).2]
      exact List.ne_nil_of_mem (TxList.mem_put.mpr (.inl rfl))
    · exact h other list' hold

theorem removeTx_frame (pool : Pool) (hash : Hash) (outofbound : Bool) :
    Frame pool (pool.removeTx config order now hash outofbound).2 := by
  unfold removeTx
  cases pool.all.get hash with
  | none => exact .refl pool
  | some tx =>
    dsimp only
    generalize (if outofbound = true then _ else pool.priced) = priced
    let base : Pool := { pool with all := pool.all.remove hash, priced }
    have hbase : Frame pool base := ⟨rfl, rfl, rfl, rfl, ⟨[hash], rfl⟩, id⟩
    cases (pool.pending.lookup tx.sender).bind fun pending => pending.remove tx with
    | some removed =>
      obtain ⟨invalids, kept⟩ := removed
      have hdemoted : Frame pool (base.demote config order now tx.sender kept invalids) :=
        hbase.trans (demote_frame base tx.sender kept invalids)
      refine ⟨hdemoted.state, hdemoted.maxGas, hdemoted.locals, ?_, hdemoted.trimmed,
        hdemoted.held⟩
      exact (noncer_setIfLower_fallback _ _ _).trans hdemoted.fallback
    | none =>
      cases pool.queue.lookup tx.sender with
      | none => exact hbase
      | some future => exact ⟨rfl, rfl, rfl, rfl, ⟨[hash], rfl⟩, id⟩

theorem evict_frame (pool : Pool) (tx : Tx) : Frame pool (pool.evict config order now tx) := by
  have h : Frame pool (pool.removeTx config order now tx.hash false).2 :=
    removeTx_frame pool tx.hash false
  exact ⟨h.state, h.maxGas, h.locals, h.fallback, h.trimmed, h.held⟩

theorem promoteAccount_frame (pool : Pool) (addr : Address) :
    Frame pool (pool.promoteAccount config order now addr) := by
  unfold promoteAccount
  cases pool.queue.lookup addr with
  | none => exact .refl pool
  | some list =>
    dsimp only
    generalize list.forward _ = forwarded
    generalize forwarded.2.filter _ _ = filtered
    generalize filtered.2.2.ready _ = ready
    have hdrops := (Frame.dropTxs pool forwarded.1).trans (.dropTxs _ filtered.1)
    generalize (pool.dropTxs forwarded.1).dropTxs filtered.1 = dropped at hdrops ⊢
    have hpromoted : Frame pool (ready.1.foldl (promoteTx config order now addr) dropped) :=
      hdrops.trans (.foldl (promoteTx_frame addr) ready.1 dropped)
    generalize ready.1.foldl _ dropped = promoted at hpromoted ⊢
    generalize (if addr ∈ promoted.locals then _ else _) = capped
    exact hpromoted.trans ((Frame.dropTxs _ _).trans ((Frame.markRemoved _ _ _).trans
      (.setQueue _ _ _)))

theorem demoteAccount_frame (pool : Pool) (addr : Address) :
    Frame pool (pool.demoteAccount config order now addr) := by
  unfold demoteAccount
  cases pool.pending.lookup addr with
  | none => exact .refl pool
  | some list =>
    dsimp only
    generalize list.forward _ = forwarded
    generalize forwarded.2.filter _ _ = filtered
    have hdrops := (Frame.dropTxs pool forwarded.1).trans (.dropTxs _ filtered.1)
    split_ifs
    · exact hdrops.trans (demote_frame _ addr _ _)
    · exact hdrops.trans (demote_frame _ addr _ _)

end Frames

variable {pool pool' base : Pool} {gone down up : List Tx} {addr : Address} {tx : Tx}
  {list kept : TxList true}

section Promotion

variable {config : Config} {order : MapOrder} {now : ℕ} {txs : List Tx}

/-- Transactions were added to the pending ones of an account, and its next nonce follows them. -/
structure Promoted (pool pool' : Pool) (addr : Address) (txs : List Tx) : Prop where
  all : pool'.all = pool.all
  queue : pool'.queue = pool.queue
  pending : ∀ other tx, tx ∈ pool'.pendingTxs other ↔
    tx ∈ pool.pendingTxs other ∨ tx ∈ txs ∧ other = addr
  nonces : ∀ other, pool'.pendingNonces.get other =
    if other = addr then txs.getLast?.elim (pool.pendingNonces.get addr) Tx.nextNonce
    else pool.pendingNonces.get other

theorem noncer_get_set (n : Noncer) (addr other : Address) (nonce : ℕ) :
    (n.set addr nonce).get other = if other = addr then nonce else n.get other := by
  unfold Noncer.get Noncer.set
  split_ifs with heq
  · subst heq
    simp
  · simp [AList.lookup_insert_ne heq]

theorem noncer_get_setIfLower (n : Noncer) (addr other : Address) (nonce : ℕ) :
    (n.setIfLower addr nonce).get other =
      if other = addr then min (n.get addr) nonce else n.get other := by
  unfold Noncer.setIfLower
  split_ifs with hle heq heq
  · rw [heq, min_eq_left hle]
  · rfl
  · rw [noncer_get_set, if_pos heq, min_eq_right (not_le.mp hle).le]
  · rw [noncer_get_set, if_neg heq]

theorem promoteTx_spec (hfree : ∀ tx' ∈ pool.pendingTxs addr, tx'.nonce ≠ tx.nonce) :
    Promoted pool (promoteTx config order now addr pool tx) addr [tx] := by
  have hnone : ((pool.pending.lookup addr).getD (.newList true)).get tx.nonce = none := by
    rw [TxList.get_eq_none_iff, txsIn_getD]
    exact hfree
  unfold promoteTx
  dsimp only
  rw [TxList.add_of_get_eq_none hnone]
  refine ⟨rfl, rfl, fun other tx' => ?_, fun other => noncer_get_set _ addr other _⟩
  change tx' ∈ txsIn (pool.pending.insert addr _) other ↔ _
  rw [txsIn_insert, List.mem_singleton]
  split_ifs with hother
  · rw [TxList.mem_put, txsIn_getD, hother]
    constructor
    · rintro (rfl | ⟨hmem, -⟩)
      · exact .inr ⟨rfl, rfl⟩
      · exact .inl hmem
    · rintro (hmem | ⟨rfl, -⟩)
      · exact .inr ⟨hmem, hfree tx' hmem⟩
      · exact .inl rfl
  · exact (or_iff_left fun hnew => hother hnew.2).symm

theorem foldl_promoteTx_spec (hnonces : txs.Pairwise fun tx tx' => tx.nonce ≠ tx'.nonce)
    (hfree : ∀ tx ∈ txs, ∀ tx' ∈ pool.pendingTxs addr, tx'.nonce ≠ tx.nonce) :
    Promoted pool (txs.foldl (promoteTx config order now addr) pool) addr txs := by
  induction txs generalizing pool with
  | nil =>
    refine ⟨rfl, rfl, by simp, fun other => ?_⟩
    split_ifs with hother
    · rw [hother]
      rfl
    · rfl
  | cons tx txs ih =>
    obtain ⟨hfirst, hrest⟩ := List.pairwise_cons.mp hnonces
    have hstep : Promoted pool (promoteTx config order now addr pool tx) addr [tx] :=
      promoteTx_spec (hfree tx List.mem_cons_self)
    have htail : Promoted (promoteTx config order now addr pool tx)
        (txs.foldl (promoteTx config order now addr) (promoteTx config order now addr pool tx))
        addr txs := by
      refine ih hrest fun tx' htx' tx'' htx'' => ?_
      rcases (hstep.pending _ _).mp htx'' with hmem | ⟨hmem, -⟩
      · exact hfree tx' (List.mem_cons_of_mem _ htx') tx'' hmem
      · rw [List.mem_singleton.mp hmem]
        exact hfirst tx' htx'
    refine ⟨htail.all.trans hstep.all, htail.queue.trans hstep.queue, fun other tx' => ?_,
      fun other => ?_⟩
    · rw [List.foldl_cons, htail.pending, hstep.pending, List.mem_singleton, List.mem_cons,
        or_and_right, or_assoc]
    · have hlast : (tx :: txs).getLast? = some (txs.getLast?.getD tx) := List.getLast?_cons
      rw [List.foldl_cons, htail.nonces, hstep.nonces, hstep.nonces, if_pos rfl, hlast]
      split_ifs with hother
      · cases txs.getLast? <;> rfl
      · rfl

/-- The account can pay for the transaction, and it fits in a block. -/
def payable (pool : Pool) (addr : Address) (tx : Tx) : Bool :=
  tx.cost ≤ pool.currentState.getBalance addr ∧ tx.gas ≤ pool.currentMaxGas

/-- The queued transactions of an account that are neither too old nor too costly. -/
def executable (pool : Pool) (addr : Address) : List Tx :=
  (pool.queuedTxs addr).filter fun tx =>
    pool.payable addr tx && !decide (tx.nonce < pool.currentState.getNonce addr)

theorem mem_executable (h : tx ∈ pool.executable addr) :
    tx ∈ pool.queuedTxs addr ∧ pool.currentState.getNonce addr ≤ tx.nonce := by
  obtain ⟨hqueued, hfresh⟩ := List.mem_filter.mp h
  exact ⟨hqueued, by simpa using (Bool.and_eq_true_iff.mp hfresh).2⟩

theorem executable_of_lookup {list : TxList false} (h : pool.queue.lookup addr = some list) :
    pool.executable addr = ((list.forward (pool.currentState.getNonce addr)).2.filter
      (pool.currentState.getBalance addr) pool.currentMaxGas).2.2.txs := by
  have hlist : pool.queuedTxs addr = list.txs := txsIn_of_lookup h
  rw [executable, hlist, TxList.filter_txs]
  exact (List.filter_filter ..).symm

/-- The run of executable transactions that is promoted. -/
def promotable (pool : Pool) (addr : Address) : List Tx :=
  TxList.readyRun (pool.pendingNonces.get addr) (pool.executable addr)

/-- The executable transactions that stay in the queue, which is limited for remote accounts. -/
def remaining (config : Config) (pool : Pool) (addr : Address) : List Tx :=
  let left := (pool.executable addr).drop (pool.promotable addr).length
  if addr ∈ pool.locals then left else left.take config.accountQueue

/-- The promotable transactions of an account have become pending, and others of its queue may be
gone. -/
structure PromotedAccount (config : Config) (pool pool' : Pool) (addr : Address) : Prop where
  rearranged : ∃ gone, Rearranged pool pool' gone [] (pool.promotable addr) ∧
    ∀ tx ∈ gone, tx ∈ pool.queuedTxs addr
  queued : ∀ other, pool'.queuedTxs other =
    if other = addr then pool.remaining config addr else pool.queuedTxs other
  nonces : ∀ other, pool'.pendingNonces.get other =
    if other = addr then
      (pool.promotable addr).getLast?.elim (pool.pendingNonces.get addr) Tx.nextNonce
    else pool.pendingNonces.get other

theorem Rearranged.refl (pool : Pool) : Rearranged pool pool [] [] [] where
  keyed := id
  get hash tx := by simp
  pending addr tx := by simp
  queued addr tx := by simp
  kept tx h := by simp

theorem removeAll_append (all : Lookup) (txs txs' : List Tx) :
    all.removeAll (txs ++ txs') = (all.removeAll txs).removeAll txs' := by
  rw [Lookup.removeAll, Lookup.removeAll, Lookup.removeAll, List.foldl_append]

/-- The queue of an account is split into those that are dropped, those that are ready and those
that are left, up to the limit. -/
theorem promotion_splits (list : TxList false) (nonce balance maxGas start cap : ℕ) :
    let forwarded := list.forward nonce
    let filtered := forwarded.2.filter balance maxGas
    let ready := filtered.2.2.ready start
    list.Splits (forwarded.1 ++ filtered.1 ++ ready.1) ready.2 ∧
      list.Splits (forwarded.1 ++ filtered.1 ++ (ready.2.cap cap).1 ++ ready.1)
        (ready.2.cap cap).2 := by
  intro forwarded filtered ready
  have hforward : list.Splits forwarded.1 forwarded.2 := list.take_splits _
  have hfilter := forwarded.2.filter_splits balance maxGas
  rw [TxList.filter_invalids_eq_nil, List.append_nil] at hfilter
  have hready := (hforward.trans hfilter).trans (filtered.2.2.ready_splits start)
  refine ⟨hready, (hready.trans (ready.2.cap_splits cap)).perm ?_⟩
  rw [List.append_assoc, List.append_assoc (forwarded.1 ++ filtered.1)]
  exact List.perm_append_comm.append_left _

/-- The ready transactions are promoted from a pool without those dropped before, and the rest is
put back without those above the limit. -/
theorem promotedAccount_of_splits {list left : TxList false} {dropped caps : List Tx} (count : ℕ)
    (h : pool.Partition) (hlookup : pool.queue.lookup addr = some list)
    (hall : base.all = pool.all.removeAll dropped) (hpending : base.pending = pool.pending)
    (hqueue : base.queue = pool.queue) (hnonces : base.pendingNonces = pool.pendingNonces)
    (hsplits : list.Splits (dropped ++ caps ++ pool.promotable addr) left)
    (hleft : left.txs = pool.remaining config addr) :
    PromotedAccount config pool
      ((((((pool.promotable addr).foldl (promoteTx config order now addr) base).dropTxs
        caps).markRemoved order count).setQueue addr left)) addr := by
  have hlist : pool.queuedTxs addr = list.txs := txsIn_of_lookup hlookup
  have htaken : ∀ tx ∈ dropped ++ caps ++ pool.promotable addr, tx ∈ pool.queuedTxs addr := by
    intro tx htx
    rw [hlist, hsplits.mem]
    exact .inl htx
  have hpromoted : Promoted base
      ((pool.promotable addr).foldl (promoteTx config order now addr) base) addr
      (pool.promotable addr) := by
    refine foldl_promoteTx_spec (List.pairwise_append.mp hsplits.nonces).2.1
      fun tx htx tx' htx' => ?_
    rw [pendingTxs, hpending] at htx'
    exact h.apart addr tx' htx' tx (htaken tx (List.mem_append_right _ htx))
  generalize (pool.promotable addr).foldl _ base = promoted at hpromoted ⊢
  refine ⟨⟨dropped ++ caps, ?_, fun tx htx => htaken tx (List.mem_append_left _ htx)⟩,
    fun other => ?_, fun other => ?_⟩
  · refine promote_spec h hlookup hsplits ?_ ?_ fun other tx => ?_
    · rw [removeAll_append, ← hall, ← hpromoted.all]
      rfl
    · rw [← hqueue, ← hpromoted.queue]
      rfl
    · have hmem := hpromoted.pending other tx
      rw [pendingTxs, pendingTxs, hpending, ← pendingTxs, ← pendingTxs] at hmem
      exact hmem
  · change txsIn (putBack promoted.queue addr left) other = _
    rw [txsIn_putBack, hleft, hpromoted.queue, hqueue, queuedTxs]
  · have hnext := hpromoted.nonces other
    rw [hnonces] at hnext
    exact hnext

theorem remaining_eq_nil (h : pool.queuedTxs addr = []) :
    pool.promotable addr = [] ∧ pool.remaining config addr = [] := by
  have hnone : pool.executable addr = [] := by rw [executable, h, List.filter_nil]
  have hrun : pool.promotable addr = [] := by rw [promotable, hnone, TxList.readyRun]
  exact ⟨hrun, by simp [remaining, hnone]⟩

theorem promoteAccount_spec (h : pool.Partition) :
    PromotedAccount config pool (pool.promoteAccount config order now addr) addr := by
  cases hlookup : pool.queue.lookup addr with
  | none =>
    have hnil : pool.queuedTxs addr = [] := by rw [queuedTxs, txsIn, hlookup]
    obtain ⟨hrun, hleft⟩ : _ ∧ pool.remaining config addr = [] := remaining_eq_nil hnil
    have hsame : pool.promoteAccount config order now addr = pool := by
      rw [promoteAccount, hlookup]
    rw [hsame]
    refine ⟨⟨[], by rw [hrun]; exact .refl pool, fun tx htx => by cases htx⟩, fun other => ?_,
      fun other => ?_⟩
    · split_ifs with hother
      · rw [hother, hnil, hleft]
      · rfl
    · rw [hrun]
      split_ifs with hother
      · rw [hother]
        rfl
      · rfl
  | some list =>
    obtain ⟨hready, hcapped⟩ := promotion_splits list (pool.currentState.getNonce addr)
      (pool.currentState.getBalance addr) pool.currentMaxGas (pool.pendingNonces.get addr)
      config.accountQueue
    have hexecutable := executable_of_lookup hlookup
    have hrun : pool.promotable addr =
        (((list.forward (pool.currentState.getNonce addr)).2.filter
          (pool.currentState.getBalance addr) pool.currentMaxGas).2.2.ready
            (pool.pendingNonces.get addr)).1 := by
      rw [promotable, hexecutable]
      rfl
    unfold promoteAccount
    rw [hlookup]
    dsimp only at hready hcapped ⊢
    rw [← hrun] at hready hcapped
    have hdrop : (pool.executable addr).drop (pool.promotable addr).length =
        (((list.forward (pool.currentState.getNonce addr)).2.filter
          (pool.currentState.getBalance addr) pool.currentMaxGas).2.2.ready
            (pool.pendingNonces.get addr)).2.txs := by
      rw [promotable, hexecutable]
      rfl
    have hall (forwards drops : List Tx) : ((pool.dropTxs forwards).dropTxs drops).all =
        pool.all.removeAll (forwards ++ drops) := (removeAll_append ..).symm
    have hlocals (txs : List Tx) (base : Pool) :
        (txs.foldl (promoteTx config order now addr) base).locals = base.locals :=
      (Frame.foldl (promoteTx_frame addr) txs base).locals
    split_ifs with hlocal <;> rw [hlocals] at hlocal <;>
      dsimp only [dropTxs_state, dropTxs_maxGas, dropTxs_nonces] <;> rw [← hrun]
    · refine promotedAccount_of_splits _ h hlookup (hall _ _) rfl rfl rfl ?_ ?_
      · rw [List.append_nil]
        exact hready
      · exact hdrop.symm.trans (if_pos hlocal).symm
    · refine promotedAccount_of_splits _ h hlookup (hall _ _) rfl rfl rfl hcapped ?_
      exact (congrArg (List.take _) hdrop.symm).trans (if_neg hlocal).symm

end Promotion

section Demotion

variable {config : Config} {order : MapOrder} {now : ℕ}

/-- The transaction is not too old, and all from the nonce of the account up to it are payable. -/
def Stays (pool : Pool) (addr : Address) (txs : List Tx) (tx : Tx) : Prop :=
  tx ∈ txs ∧ pool.currentState.getNonce addr ≤ tx.nonce ∧
    (∃ first ∈ txs, first.nonce = pool.currentState.getNonce addr) ∧
    ∀ tx' ∈ txs, pool.currentState.getNonce addr ≤ tx'.nonce → tx'.nonce ≤ tx.nonce →
      pool.payable addr tx'

/-- Of the pending transactions of an account, those in front stay that are not too old, unless they
do not start at its nonce. Those that are back in the queue do not follow them. -/
structure Demoted (pool pool' : Pool) (addr : Address) : Prop where
  kept : ∃ left, pool'.pendingTxs addr ++ left =
    (pool.pendingTxs addr).filter fun tx => !decide (tx.nonce < pool.currentState.getNonce addr)
  stays : ∀ tx, tx ∈ pool'.pendingTxs addr ↔ pool.Stays addr (pool.pendingTxs addr) tx
  queued : ∀ tx ∈ pool.queuedTxs addr, tx ∈ pool'.queuedTxs addr
  down : ∀ tx ∈ pool'.queuedTxs addr, tx ∈ pool.queuedTxs addr ∨
    pool.currentState.getNonce addr < tx.nonce ∧
      ∀ tx' ∈ pool'.pendingTxs addr, tx'.nonce + 1 < tx.nonce

structure DemotedAccount (pool pool' : Pool) (addr : Address) : Prop
    extends Demoted pool pool' addr where
  rearranged : ∃ gone down, Rearranged pool pool' gone down [] ∧
    ∀ tx ∈ gone ++ down, tx ∈ pool.pendingTxs addr
  nonces : pool'.pendingNonces = pool.pendingNonces

theorem pendingTxs_of_splits (hlookup : pool.pending.lookup addr = some list)
    (hsplits : list.Splits (gone ++ down) kept) (hmoved : Rearranged pool pool' gone down []) :
    pool'.pendingTxs addr = kept.txs := by
  have hlist : pool.pendingTxs addr = list.txs := txsIn_of_lookup hlookup
  refine (txsIn_sorted pool'.pending addr).ext kept.sorted fun tx => ?_
  have hmem := hmoved.pending addr tx
  have hsplit := hsplits.mem tx
  have hdisjoint := hsplits.disjoint tx
  rw [List.mem_append] at hsplit hdisjoint
  rw [hlist] at hmem
  simp only [List.not_mem_nil, and_false, or_false] at hmem
  change tx ∈ pool'.pendingTxs addr ↔ _
  tauto

theorem demotedAccount_of_splits (h : pool.Partition)
    (hlookup : pool.pending.lookup addr = some list) (hall : base.all = pool.all.removeAll gone)
    (hpending : base.pending = pool.pending) (hqueue : base.queue = pool.queue)
    (hnonces : base.pendingNonces = pool.pendingNonces) (hsplits : list.Splits (gone ++ down) kept)
    (hdown : ∀ tx ∈ down, pool.currentState.getNonce addr < tx.nonce ∧
      ∀ tx' ∈ kept.txs, tx'.nonce + 1 < tx.nonce) (hkept : ∃ left, kept.txs ++ left =
      list.txs.filter fun tx => !decide (tx.nonce < pool.currentState.getNonce addr))
    (hstays : ∀ tx, tx ∈ kept.txs ↔ pool.Stays addr list.txs tx) :
    DemotedAccount pool (base.demote config order now addr kept down) addr := by
  have hlist : pool.pendingTxs addr = list.txs := txsIn_of_lookup hlookup
  obtain ⟨hmoved, hsame, -⟩ : Rearranged pool (base.demote config order now addr kept down)
      gone down [] ∧ _ ∧ _ := demote_spec h hlookup hsplits hall hpending hqueue
  have hnew := pendingTxs_of_splits hlookup hsplits hmoved
  have htaken : ∀ tx ∈ gone ++ down, tx ∈ pool.pendingTxs addr := fun tx htx => by
    rw [hlist, hsplits.mem]
    exact .inl htx
  refine ⟨⟨?_, ?_, fun tx htx => ?_, fun tx htx => ?_⟩, ⟨gone, down, hmoved, htaken⟩,
    hsame.trans hnonces⟩
  · rw [hnew, hlist]
    exact hkept
  · rw [hnew, hlist]
    exact hstays
  · refine (hmoved.queued addr tx).mpr (.inl ⟨htx, fun hgone => ?_, List.not_mem_nil⟩)
    exact h.not_queued (htaken tx (List.mem_append_left _ hgone)) htx
  · rw [hnew]
    rcases (hmoved.queued addr tx).mp htx with ⟨hold, -⟩ | ⟨-, hin⟩
    · exact .inl hold
    · exact .inr (hdown tx hin)

/-- If those are kept up to which all are payable, they stay if the nonce of the account is kept. -/
theorem stays_iff {txs fresh kept : List Tx} (hfresh : ∀ tx, tx ∈ fresh ↔
      tx ∈ txs ∧ pool.currentState.getNonce addr ≤ tx.nonce) (hpayable : ∀ tx, tx ∈ kept ↔
      tx ∈ fresh ∧ ∀ tx' ∈ fresh, tx'.nonce ≤ tx.nonce → pool.payable addr tx') :
    pool.Stays addr txs tx ↔
      tx ∈ kept ∧ ∃ first ∈ kept, first.nonce = pool.currentState.getNonce addr := by
  constructor
  · rintro ⟨hmem, hle, ⟨first, hfirst, heq⟩, hpays⟩
    have hall : ∀ tx' ∈ fresh, tx'.nonce ≤ tx.nonce → pool.payable addr tx' :=
      fun tx' htx' => hpays tx' ((hfresh tx').mp htx').1 ((hfresh tx').mp htx').2
    exact ⟨(hpayable tx).mpr ⟨(hfresh tx).mpr ⟨hmem, hle⟩, hall⟩, first, (hpayable first).mpr
      ⟨(hfresh first).mpr ⟨hfirst, heq.ge⟩, fun tx' htx' hle' => hall tx' htx' (by omega)⟩, heq⟩
  · rintro ⟨hkept, first, hfirst, heq⟩
    obtain ⟨hmem, hpays⟩ := (hpayable tx).mp hkept
    obtain ⟨hold, hle⟩ := (hfresh tx).mp hmem
    exact ⟨hold, hle, ⟨first, ((hfresh first).mp ((hpayable first).mp hfirst).1).1, heq⟩,
      fun tx' htx' hle' => hpays tx' ((hfresh tx').mpr ⟨htx', hle'⟩)⟩

/-- The list is filtered, and all that is kept moves to the queue if there is a gap in front. -/
theorem demotedAccount_of_filtered {forwarded : TxList true} {olds drops invalids : List Tx}
    (h : pool.Partition) (hlookup : pool.pending.lookup addr = some list)
    (hforward : list.Splits olds forwarded) (hforwarded : forwarded.txs =
      list.txs.filter fun tx => !decide (tx.nonce < pool.currentState.getNonce addr))
    (hfilter : forwarded.Splits (drops ++ invalids) kept)
    (habove : ∀ tx ∈ invalids, ∃ low ∈ drops, low.nonce < tx.nonce)
    (hleft : ∃ left, kept.txs ++ left = forwarded.txs) (hpayable : ∀ tx, tx ∈ kept.txs ↔
      tx ∈ forwarded.txs ∧ ∀ tx' ∈ forwarded.txs, tx'.nonce ≤ tx.nonce → pool.payable addr tx') :
    let base := (pool.dropTxs olds).dropTxs drops
    DemotedAccount pool
      (if !kept.empty && (kept.get (pool.currentState.getNonce addr)).isNone then
        base.demote config order now addr (kept.cap 0).2 (invalids ++ (kept.cap 0).1)
      else base.demote config order now addr kept invalids) addr := by
  intro base
  have hnew : ∀ tx, tx ∈ forwarded.txs ↔
      tx ∈ list.txs ∧ pool.currentState.getNonce addr ≤ tx.nonce := by
    simp [hforwarded]
  have hinvalid : ∀ tx ∈ invalids, pool.currentState.getNonce addr < tx.nonce := by
    intro tx htx
    obtain ⟨low, hlow, hlt⟩ := habove tx htx
    have hmem := (hfilter.mem low).mpr (.inl (List.mem_append_left _ hlow))
    exact ((hnew low).mp hmem).2.trans_lt hlt
  have hall : base.all = pool.all.removeAll (olds ++ drops) := (removeAll_append ..).symm
  have hsplits : list.Splits (olds ++ drops ++ invalids) kept := by
    rw [List.append_assoc]
    exact hforward.trans hfilter
  split_ifs with hgapped
  · simp only [Bool.and_eq_true, Bool.not_eq_true', Option.isNone_iff_eq_none] at hgapped
    have hcapped := hsplits.trans (kept.cap_splits 0)
    rw [List.append_assoc] at hcapped
    refine demotedAccount_of_splits h hlookup hall rfl rfl rfl hcapped
      (fun tx htx => ⟨?_, fun tx' htx' => ?_⟩) ⟨_, List.nil_append _⟩
      fun tx => iff_of_false List.not_mem_nil ?_
    · rcases List.mem_append.mp htx with htx | htx
      · exact hinvalid tx htx
      · have hmem : tx ∈ kept.txs := List.mem_reverse.mp htx
        refine lt_of_le_of_ne ((hnew tx).mp ((hpayable tx).mp hmem).1).2 fun heq => ?_
        exact TxList.get_eq_none_iff.mp hgapped.2 tx hmem heq.symm
    · cases htx'
    · rw [stays_iff hnew hpayable]
      rintro ⟨-, first, hfirst, heq⟩
      exact TxList.get_eq_none_iff.mp hgapped.2 first hfirst heq
  · refine demotedAccount_of_splits h hlookup hall rfl rfl rfl hsplits
      (fun tx htx => ⟨hinvalid tx htx, fun tx' htx' => ?_⟩) (hforwarded ▸ hleft) fun tx => ?_
    · -- One that is not kept comes in between.
      obtain ⟨low, hlow, hlt⟩ := habove tx htx
      have hmem : low ∈ drops ++ invalids := List.mem_append_left _ hlow
      have hbetween : tx'.nonce < low.nonce := not_le.mp fun hle =>
        hfilter.disjoint low hmem ((hpayable low).mpr ⟨(hfilter.mem low).mpr (.inl hmem),
          fun other hother hle' => ((hpayable tx').mp htx').2 other hother (hle'.trans hle)⟩)
      omega
    rw [stays_iff hnew hpayable]
    refine (and_iff_left_of_imp fun hkept => ?_).symm
    have hempty : kept.empty = false := List.isEmpty_eq_false_iff.mpr (List.ne_nil_of_mem hkept)
    cases hget : kept.get (pool.currentState.getNonce addr) with
    | none =>
      rw [hempty, hget] at hgapped
      exact absurd rfl hgapped
    | some first => exact ⟨first, TxList.get_eq_some_iff.mp hget⟩

theorem demoteAccount_spec (h : pool.Partition) :
    DemotedAccount pool (pool.demoteAccount config order now addr) addr := by
  cases hlookup : pool.pending.lookup addr with
  | none =>
    have hnil : pool.pendingTxs addr = [] := by rw [pendingTxs, txsIn, hlookup]
    have hsame : pool.demoteAccount config order now addr = pool := by
      rw [demoteAccount, hlookup]
    rw [hsame]
    refine ⟨⟨⟨[], ?_⟩, fun tx => ?_, fun tx htx => htx, fun tx htx => .inl htx⟩,
      ⟨[], [], .refl pool, fun tx htx => by cases htx⟩, rfl⟩
    · rw [hnil]
      rfl
    · rw [hnil]
      exact iff_of_false List.not_mem_nil fun hstays => List.not_mem_nil hstays.1
  | some list =>
    have hfilter := (list.forward (pool.currentState.getNonce addr)).2.filter_splits
      (pool.currentState.getBalance addr) pool.currentMaxGas
    obtain ⟨hleft, hmem⟩ := (list.forward (pool.currentState.getNonce addr)).2.filter_strict
      (pool.currentState.getBalance addr) pool.currentMaxGas
    have hpays (tx : Tx) : tx.cost ≤ pool.currentState.getBalance addr ∧
        tx.gas ≤ pool.currentMaxGas ↔ pool.payable addr tx := decide_eq_true_iff.symm
    simp only [hpays] at hmem
    unfold demoteAccount
    rw [hlookup]
    exact demotedAccount_of_filtered h hlookup (list.take_splits _) rfl hfilter
      (fun tx htx => TxList.filter_invalids_above _ htx) hleft hmem

end Demotion

end TxPool.Pool

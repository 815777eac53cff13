import NarwhalGeth.TxPool.History

/-!
# Runs of nonces

The pending transactions of an account are meant to be a run, with one nonce after the other. A
removal cuts a run short, a replacement keeps its nonces, and a promotion can extend it.
-/

namespace TxPool

/-- The nonces follow one another from the given one on. -/
def IsRun (start : ℕ) (txs : List Tx) : Prop :=
  txs.map Tx.nonce = List.range' start txs.length

namespace IsRun

variable {start next nonce : ℕ} {tx : Tx} {txs txs' : List Tx}

theorem nil (start : ℕ) : IsRun start [] := rfl

theorem cons_iff : IsRun start (tx :: txs) ↔ tx.nonce = start ∧ IsRun (start + 1) txs := by
  simp [IsRun, List.range'_succ]

theorem append_iff :
    IsRun start (txs ++ txs') ↔ IsRun start txs ∧ IsRun (start + txs.length) txs' := by
  induction txs generalizing start with
  | nil => exact (and_iff_right (nil start)).symm
  | cons tx txs ih =>
    rw [List.cons_append, cons_iff, cons_iff, ih, List.length_cons, and_assoc, add_assoc,
      add_comm 1]

section

variable (h : IsRun start txs)

include h

theorem mem_iff : (∃ tx ∈ txs, tx.nonce = nonce) ↔ start ≤ nonce ∧ nonce < start + txs.length := by
  rw [← List.mem_range'_1, ← h, List.mem_map]

theorem bounds (htx : tx ∈ txs) : start ≤ tx.nonce ∧ tx.nonce < start + txs.length :=
  h.mem_iff.mp ⟨tx, htx, rfl⟩

theorem sorted : Sorted txs := by
  have hpairwise : (txs.map Tx.nonce).Pairwise (· < ·) := by
    rw [h]
    exact List.pairwise_lt_range'
  exact List.pairwise_map.mp hpairwise

theorem congr (heq : txs'.map Tx.nonce = txs.map Tx.nonce) : IsRun start txs' := by
  have hlength : txs'.length = txs.length := by simpa using congrArg List.length heq
  rw [IsRun, heq, hlength]
  exact h

theorem cut (htx : tx ∈ txs) :
    IsRun start (txs.filter fun tx' => tx'.nonce < tx.nonce) ∧
      start + (txs.filter fun tx' => tx'.nonce < tx.nonce).length = tx.nonce ∧
      IsRun tx.nonce (txs.filter fun tx' => !decide (tx'.nonce < tx.nonce)) := by
  have hsplit := h.sorted.filter_lt_append tx.nonce
  have hmem : tx ∈ txs.filter fun tx' => !decide (tx'.nonce < tx.nonce) :=
    List.mem_filter.mpr ⟨htx, by simp⟩
  have hback : ∀ tx' ∈ txs.filter fun tx' => !decide (tx'.nonce < tx.nonce),
      tx.nonce ≤ tx'.nonce := fun tx' htx' => by
    simpa using (List.mem_filter.mp htx').2
  rw [← hsplit, append_iff] at h
  obtain ⟨hfront, hrest⟩ := h
  generalize txs.filter (fun tx' => !decide (tx'.nonce < tx.nonce)) = back at hmem hback hrest ⊢
  -- The lowest one of the rest is the transaction.
  have hfirst : start + (txs.filter fun tx' => tx'.nonce < tx.nonce).length = tx.nonce := by
    have hlow := (hrest.bounds hmem).1
    obtain ⟨first, hfirst, hnonce⟩ := hrest.mem_iff.mpr
      ⟨le_rfl, Nat.lt_add_of_pos_right (List.length_pos_of_mem hmem)⟩
    have := hback first hfirst
    omega
  rw [hfirst] at hrest
  exact ⟨hfront, hfirst, hrest⟩

theorem from_nonce (hle : start ≤ nonce) :
    IsRun nonce (txs.filter fun tx => !decide (tx.nonce < nonce)) := by
  by_cases hmem : ∃ tx ∈ txs, tx.nonce = nonce
  · obtain ⟨tx, htx, rfl⟩ := hmem
    exact (h.cut htx).2.2
  · rw [h.mem_iff] at hmem
    have hnil : (txs.filter fun tx => !decide (tx.nonce < nonce)) = [] := by
      refine List.filter_eq_nil_iff.mpr fun tx htx => ?_
      have := (h.bounds htx).2
      simp only [Bool.not_eq_true', decide_eq_false_iff_not, not_not]
      omega
    rw [hnil]
    exact nil nonce

theorem getLast (hlast : txs.getLast? = some tx) : tx.nonce + 1 = start + txs.length := by
  obtain ⟨init, rfl⟩ := List.getLast?_eq_some_iff.mp hlast
  rw [append_iff, cons_iff] at h
  rw [List.length_append, List.length_singleton, h.2.1, add_assoc]

end

end IsRun

namespace TxList

variable {start : ℕ} {txs : List Tx}

theorem isRun_takeRun (start : ℕ) (txs : List Tx) : IsRun start (takeRun start txs) := by
  induction txs generalizing start with
  | nil => exact .nil start
  | cons tx txs ih =>
    unfold takeRun
    split_ifs with heq
    · exact IsRun.cons_iff.mpr ⟨heq, ih (start + 1)⟩
    · exact .nil start

theorem isRun_readyRun (hlow : ∀ tx ∈ txs, start ≤ tx.nonce) :
    IsRun start (readyRun start txs) := by
  cases txs with
  | nil => exact .nil start
  | cons first txs =>
    rw [readyRun]
    split_ifs with hlt
    · exact .nil start
    · have heq : first.nonce = start :=
        le_antisymm (not_lt.mp hlt) (hlow first List.mem_cons_self)
      rw [heq]
      exact isRun_takeRun start (first :: txs)

theorem readyRun_eq_nil (hlow : ∀ tx ∈ txs, start < tx.nonce) : readyRun start txs = [] := by
  cases txs with
  | nil => rfl
  | cons first txs => rw [readyRun, if_pos (hlow first List.mem_cons_self)]

end TxList

namespace Pool

variable {pool pool' : Pool} {addr other : Address} {tx : Tx} {moved : List Tx} {config : Config}
  {order : MapOrder} {now : ℕ}

/-! ## Pending lists after the operations -/

theorem pendingTxs_sorted (pool : Pool) (addr : Address) : Sorted (pool.pendingTxs addr) :=
  txsIn_sorted pool.pending addr

theorem Removed.pendingTxs (h : Removed pool pool' tx moved) (hpart : pool.Partition)
    (addr : Address) : pool'.pendingTxs addr =
      if tx ∈ pool.pendingTxs addr then
        (pool.pendingTxs addr).filter fun tx' => tx'.nonce < tx.nonce
      else pool.pendingTxs addr := by
  have hmem (tx' : Tx) := h.rearranged.pending addr tx'
  simp only [List.mem_singleton, List.not_mem_nil, and_false, or_false] at hmem
  split_ifs with htx
  · obtain rfl := (hpart.known addr tx (.inl htx)).1
    refine (pendingTxs_sorted pool' _).ext ((pendingTxs_sorted pool _).filter _) fun tx' => ?_
    rw [List.mem_filter, decide_eq_true_eq]
    constructor
    · exact fun htx' => ⟨((hmem tx').mp htx').1, (h.pending htx).2 tx' htx'⟩
    · rintro ⟨htx', hlt⟩
      refine (hmem tx').mpr ⟨htx', fun heq => ?_, fun hmoved => ?_⟩
      · rw [heq] at hlt
        exact lt_irrefl _ hlt
      · exact lt_asymm hlt (h.after tx' hmoved).2
  · refine (pendingTxs_sorted pool' _).ext (pendingTxs_sorted pool _) fun tx' => ?_
    rw [hmem]
    refine and_iff_left_of_imp fun htx' => ⟨fun heq => htx (heq ▸ htx'), fun hmoved => ?_⟩
    -- What has moved is of the same account as what was removed.
    have hsender := (hpart.known _ _ (.inl htx')).1
    have hafter := (h.after tx' hmoved).1
    have hsame : tx.sender = addr := (hpart.known _ _ (.inl hafter)).1.symm.trans hsender
    have hqueued : tx ∉ pool.pendingTxs tx.sender := by rwa [hsame]
    rw [(h.queued hqueued).2] at hmoved
    cases hmoved

theorem Removed.nonces_get (h : Removed pool pool' tx moved) (hpart : pool.Partition)
    (addr : Address) : pool'.pendingNonces.get addr =
      if tx ∈ pool.pendingTxs addr then min (pool.pendingNonces.get addr) tx.nonce
      else pool.pendingNonces.get addr := by
  by_cases hpending : tx ∈ pool.pendingTxs tx.sender
  · rw [(h.pending hpending).1, noncer_get_setIfLower]
    by_cases haddr : addr = tx.sender
    · rw [if_pos haddr, haddr, if_pos hpending]
    · rw [if_neg haddr, if_neg fun htx => haddr (hpart.known addr tx (.inl htx)).1.symm]
  · rw [(h.queued hpending).1, if_neg]
    intro htx
    rw [(hpart.known addr tx (.inl htx)).1] at hpending
    exact hpending htx

theorem Accepted.pending_nonces (h : Accepted pool pool' tx) (hpart : pool.Partition)
    (addr : Address) :
    (pool'.pendingTxs addr).map Tx.nonce = (pool.pendingTxs addr).map Tx.nonce := by
  have hsorted (pool : Pool) : ((pool.pendingTxs addr).map Tx.nonce).Pairwise (· < ·) :=
    List.pairwise_map.mpr (pendingTxs_sorted pool addr)
  refine (hsorted pool').eq_of_mem_iff (hsorted pool) fun {nonce} => ?_
  have hmem := h.inserted.pending addr
  simp only [List.mem_map]
  constructor
  · rintro ⟨tx', htx', rfl⟩
    rcases (hmem tx').mp htx' with ⟨hold, -⟩ | ⟨rfl, rfl, old, hold, heq⟩
    · exact ⟨tx', hold, rfl⟩
    · exact ⟨old, hold, heq⟩
  · rintro ⟨tx', htx', rfl⟩
    by_cases hsame : tx'.SameNonce tx
    · have hsender : addr = tx.sender := (hpart.known addr tx' (.inl htx')).1.symm.trans hsame.1
      refine ⟨tx, (hmem tx).mpr (.inr ⟨rfl, hsender, tx', hsender ▸ htx', hsame.2⟩), hsame.2.symm⟩
    · exact ⟨tx', (hmem tx').mpr (.inl ⟨htx', hsame⟩), rfl⟩

theorem mem_promotable (h : tx ∈ pool.promotable addr) : tx ∈ pool.executable addr := by
  rw [← TxList.readyRun_append (pool.pendingNonces.get addr) (pool.executable addr)]
  exact List.mem_append_left _ h

theorem PromotedAccount.pending_iff (h : PromotedAccount config pool pool' addr)
    (hpart : pool.Partition) (other : Address) (tx : Tx) : tx ∈ pool'.pendingTxs other ↔
      tx ∈ pool.pendingTxs other ∨ tx ∈ pool.promotable addr ∧ other = addr := by
  obtain ⟨gone, hmoved, hgone⟩ := h.rearranged
  rw [hmoved.pending]
  constructor
  · rintro (⟨htx, -, -⟩ | ⟨htx, hup⟩)
    · exact .inl htx
    · have hqueued := (mem_executable (mem_promotable hup)).1
      have hsender := (hpart.known other tx (.inr htx)).1
      exact .inr ⟨hup, hsender.symm.trans (hpart.known addr tx (.inr hqueued)).1⟩
  · rintro (htx | ⟨hup, rfl⟩)
    · refine .inl ⟨htx, fun hin => ?_, List.not_mem_nil⟩
      have hqueued := hgone tx hin
      have hsender := (hpart.known addr tx (.inr hqueued)).1
      rw [(hpart.known other tx (.inl htx)).1] at hsender
      exact hpart.not_queued htx (hsender ▸ hqueued)
    · exact .inr ⟨(mem_executable (mem_promotable hup)).1, hup⟩

theorem PromotedAccount.pendingTxs_of_ne (h : PromotedAccount config pool pool' addr)
    (hpart : pool.Partition) (hother : other ≠ addr) :
    pool'.pendingTxs other = pool.pendingTxs other :=
  (pendingTxs_sorted pool' other).ext (pendingTxs_sorted pool other) fun tx => by
    rw [h.pending_iff hpart, or_iff_left fun hup => hother hup.2]

/-! ## One account after the other -/

/-- The pools have the same lists and the same next pending nonce for the account. -/
structure Agrees (pool pool' : Pool) (addr : Address) : Prop where
  pending : pool'.pendingTxs addr = pool.pendingTxs addr
  queued : pool'.queuedTxs addr = pool.queuedTxs addr
  nonce : pool'.pendingNonces.get addr = pool.pendingNonces.get addr

theorem Agrees.refl (pool : Pool) (addr : Address) : Agrees pool pool addr := ⟨rfl, rfl, rfl⟩

theorem Agrees.trans {pool'' : Pool} (h : Agrees pool pool' addr) (h' : Agrees pool' pool'' addr) :
    Agrees pool pool'' addr :=
  ⟨h'.pending.trans h.pending, h'.queued.trans h.queued, h'.nonce.trans h.nonce⟩

section Accounts

variable {f : Pool → Address → Pool} {accounts : List Address}
  (hf : ∀ pool addr, pool.Consistent → (f pool addr).Consistent)
  (hothers : ∀ pool addr, pool.Consistent → ∀ other ≠ addr, Agrees pool (f pool addr) other)

include hf hothers

theorem foldl_agrees_of_not_mem (h : pool.Consistent) (haddr : addr ∉ accounts) :
    Agrees pool (accounts.foldl f pool) addr := by
  induction accounts generalizing pool with
  | nil => exact .refl pool addr
  | cons first accounts ih =>
    obtain ⟨hne, hrest⟩ := List.ne_and_not_mem_of_not_mem_cons haddr
    exact (hothers pool first h addr hne).trans (ih (hf pool first h) hrest)

/-- If an operation on an account leaves the others as they are, then operations on all accounts
do to each of them what a single one does to a pool that agrees with the first one. -/
theorem foldl_agrees (hframe : ∀ pool addr, Frame pool (f pool addr)) (hnodup : accounts.Nodup)
    (h : pool.Consistent) (addr : Address) (hskip : addr ∉ accounts → f pool addr = pool) :
    ∃ pool', pool'.Consistent ∧ Frame pool pool' ∧ Agrees pool pool' addr ∧
      Agrees (f pool' addr) (accounts.foldl f pool) addr := by
  by_cases haddr : addr ∈ accounts
  swap
  · refine ⟨pool, h, .refl pool, .refl pool addr, ?_⟩
    rw [hskip haddr]
    exact foldl_agrees_of_not_mem hf hothers h haddr
  clear hskip
  induction accounts generalizing pool with
  | nil => cases haddr
  | cons first accounts ih =>
    obtain ⟨hfirst, hrest⟩ := List.nodup_cons.mp hnodup
    by_cases heq : addr = first
    · subst heq
      exact ⟨pool, h, .refl pool, .refl pool addr,
        foldl_agrees_of_not_mem hf hothers (hf pool addr h) hfirst⟩
    · obtain ⟨pool', hpool', hframe', hagrees, hlast⟩ := ih hrest (hf pool first h)
        ((List.mem_cons.mp haddr).resolve_left heq)
      exact ⟨pool', hpool', (hframe pool first).trans hframe',
        (hothers pool first h addr heq).trans hagrees, hlast⟩

end Accounts

theorem promoteAccount_agrees (h : pool.Consistent) (hother : other ≠ addr) :
    Agrees pool (pool.promoteAccount config order now addr) other := by
  have hspec : PromotedAccount config pool (pool.promoteAccount config order now addr) addr :=
    promoteAccount_spec h.partition
  refine ⟨hspec.pendingTxs_of_ne h.partition hother, ?_, ?_⟩
  · rw [hspec.queued, if_neg hother]
  · rw [hspec.nonces, if_neg hother]

theorem Agrees.promoted (h : Agrees pool pool' addr) (hframe : Frame pool pool') :
    pool'.promotable addr = pool.promotable addr ∧
      pool'.remaining config addr = pool.remaining config addr := by
  have hexecutable : pool'.executable addr = pool.executable addr := by
    simp only [executable, payable, h.queued, hframe.state, hframe.maxGas]
  have hpromotable : pool'.promotable addr = pool.promotable addr := by
    rw [promotable, hexecutable, h.nonce, promotable]
  exact ⟨hpromotable, by rw [remaining, hexecutable, hpromotable, hframe.locals, remaining]⟩

theorem promoteExecutables_frame (pool : Pool) (accounts : List Address) :
    Frame pool (pool.promoteExecutables config order now accounts) :=
  .foldl promoteAccount_frame accounts pool

theorem demoteUnexecutables_frame (pool : Pool) :
    Frame pool (pool.demoteUnexecutables config order now) :=
  .foldl demoteAccount_frame _ pool

/-- Each account is promoted as in the pool before. -/
theorem promoteExecutables_spec (h : pool.Consistent) (addr : Address) :
    let promoted := pool.promoteExecutables config order now (order.order pool.queue.keys)
    (∀ tx, tx ∈ promoted.pendingTxs addr ↔
        tx ∈ pool.pendingTxs addr ∨ tx ∈ pool.promotable addr) ∧
      promoted.queuedTxs addr = pool.remaining config addr := by
  obtain ⟨pool', hpool', hframe, hbefore, hafter⟩ := foldl_agrees
    (f := promoteAccount config order now) (fun _ addr h => h.promoteAccount addr)
    (fun _ _ h _ hother => promoteAccount_agrees h hother)
    promoteAccount_frame ((order.perm _).nodup_iff.mpr pool.queue.keys_nodup) h addr
    fun haddr => by
      rw [MapOrder.mem_order] at haddr
      rw [promoteAccount, AList.lookup_eq_none.mpr haddr]
  have hspec : PromotedAccount config pool' (pool'.promoteAccount config order now addr) addr :=
    promoteAccount_spec hpool'.partition
  obtain ⟨hpromotable, hremaining⟩ : _ ∧ pool'.remaining config addr = _ :=
    hbefore.promoted hframe
  refine ⟨fun tx => ?_, ?_⟩
  · rw [promoteExecutables, hafter.pending, hspec.pending_iff hpool'.partition, hbefore.pending,
      hpromotable, and_iff_left rfl]
  · rw [promoteExecutables, hafter.queued, hspec.queued, if_pos rfl, hremaining]

theorem demoteAccount_agrees (h : pool.Consistent) (hother : other ≠ addr) :
    Agrees pool (pool.demoteAccount config order now addr) other := by
  have hspec : DemotedAccount pool (pool.demoteAccount config order now addr) addr :=
    demoteAccount_spec h.partition
  obtain ⟨gone, down, hmoved, htaken⟩ := hspec.rearranged
  have hnot : ∀ tx, tx ∈ pool.pendingTxs other ∨ tx ∈ pool.queuedTxs other →
      tx ∉ gone ∧ tx ∉ down := fun tx htx => by
    rw [← not_or, ← List.mem_append]
    intro hin
    have hsender := (h.partition.known addr tx (.inl (htaken tx hin))).1
    exact hother ((h.partition.known other tx htx).1.symm.trans hsender)
  refine ⟨(pendingTxs_sorted _ other).ext (pendingTxs_sorted pool other) fun tx => ?_,
    (txsIn_sorted _ other).ext (txsIn_sorted pool.queue other) fun tx => ?_, by rw [hspec.nonces]⟩
  · rw [hmoved.pending, or_iff_left fun hup => List.not_mem_nil hup.2]
    exact and_iff_left_of_imp fun htx => hnot tx (.inl htx)
  · refine (hmoved.queued other tx).trans ?_
    rw [or_iff_left fun hdown => (hnot tx (.inl hdown.1)).2 hdown.2]
    exact and_iff_left_of_imp fun htx => ⟨(hnot tx (.inr htx)).1, List.not_mem_nil⟩

theorem demoteUnexecutables_spec (h : pool.Consistent) (addr : Address) :
    Demoted pool (pool.demoteUnexecutables config order now) addr := by
  obtain ⟨pool', hpool', hframe, hbefore, hafter⟩ := foldl_agrees
    (f := demoteAccount config order now) (fun _ addr h => h.demoteAccount addr)
    (fun _ _ h _ hother => demoteAccount_agrees h hother)
    demoteAccount_frame ((order.perm _).nodup_iff.mpr pool.pending.keys_nodup) h addr
    fun haddr => by
      rw [MapOrder.mem_order] at haddr
      rw [demoteAccount, AList.lookup_eq_none.mpr haddr]
  have hspec : DemotedAccount pool' (pool'.demoteAccount config order now addr) addr :=
    demoteAccount_spec hpool'.partition
  obtain ⟨hkept, hstays, hqueued, hdown⟩ := hspec.toDemoted
  simp only [Stays, payable, hframe.state, hframe.maxGas, hbefore.pending, hbefore.queued,
    ← hafter.pending, ← hafter.queued] at hkept hstays hqueued hdown
  exact ⟨hkept, hstays, hqueued, hdown⟩

theorem lookup_highestPending (order : MapOrder) (pool : Pool) (addr : Address) :
    (pool.highestPending order).lookup addr =
      (pool.pendingTxs addr).getLast?.map Tx.nextNonce := by
  have hperm := order.perm pool.pending.entries
  have hnodup : (order.order pool.pending.entries).NodupKeys :=
    (List.perm_nodupKeys hperm).mpr pool.pending.nodupKeys
  unfold highestPending
  rw [Assoc.lookup_foldl_elim_insert hnodup, List.perm_dlookup addr hnodup hperm]
  change (((pool.pending.lookup addr).bind _).map _).or none = _
  rw [Option.or_none, pendingTxs, txsIn]
  cases pool.pending.lookup addr with
  | none => rfl
  | some list => rfl

end Pool

end TxPool

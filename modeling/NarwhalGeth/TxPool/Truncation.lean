import NarwhalGeth.TxPool.Moves

/-!
# Cutting the pool to its limits

The accounts with the most pending transactions lose their last ones, one of each at a time, and
keep at least one. Accounts that were inactive for long lose queued transactions.
-/

namespace TxPool.Pool

variable {pool pool' : Pool} {addr : Address} {tx last : Tx} {config : Config} {order : MapOrder}
  {now : ℕ} {init : List Tx}

/-! ## Pending transactions -/

theorem pendingTxs_capLast (order : MapOrder) (pool : Pool) (addr other : Address) :
    (pool.capLast order addr).pendingTxs other =
      if other = addr then (pool.pendingTxs addr).dropLast else pool.pendingTxs other := by
  unfold capLast
  cases hlookup : pool.pending.lookup addr with
  | none =>
    split_ifs with hother
    · rw [hother, pendingTxs, txsIn, hlookup]
      rfl
    · rfl
  | some list =>
    change txsIn (pool.pending.insert addr _) other = _
    rw [txsIn_insert, pendingTxs, txsIn_of_lookup hlookup, List.dropLast_eq_take]
    rfl

theorem cap_last {list : TxList true} (htxs : list.txs = init ++ [last]) :
    (list.cap (list.len - 1)).1 = [last] ∧ (list.cap (list.len - 1)).2.txs = init := by
  have hlen : list.len - 1 = init.length := by simp [TxList.len, htxs]
  unfold TxList.cap
  dsimp only
  rw [hlen, htxs]
  constructor
  · rw [List.drop_left]
    rfl
  · exact List.take_left

/-- The last pending transaction of an account is gone, and its next nonce is not above it. -/
structure CappedLast (pool pool' : Pool) (addr : Address) (last : Tx) : Prop where
  rearranged : Rearranged pool pool' [last] [] []
  queue : pool'.queue = pool.queue
  nonces : pool'.pendingNonces = pool.pendingNonces.setIfLower addr last.nonce
  state : pool'.currentState = pool.currentState
  maxGas : pool'.currentMaxGas = pool.currentMaxGas
  locals : pool'.locals = pool.locals
  all : pool'.all = pool.all.remove last.hash
  held : pool.NoEmpty → 1 < (pool.pendingTxs addr).length → pool'.NoEmpty

theorem capLast_spec (h : pool.Partition) (htxs : pool.pendingTxs addr = init ++ [last]) :
    CappedLast pool (pool.capLast order addr) addr last := by
  have hpending := pendingTxs_capLast order pool addr
  have hlast : last ∈ pool.pendingTxs addr := by
    rw [htxs]
    exact List.mem_append_right _ List.mem_cons_self
  unfold capLast at hpending ⊢
  cases hlookup : pool.pending.lookup addr with
  | none =>
    rw [pendingTxs, txsIn, hlookup] at hlast
    cases hlast
  | some list =>
    rw [hlookup] at hpending
    obtain ⟨hcaps, hinit⟩ := cap_last ((txsIn_of_lookup hlookup).symm.trans htxs)
    dsimp only at hpending ⊢
    rw [hcaps] at hpending ⊢
    refine ⟨?_, rfl, rfl, rfl, rfl, rfl, rfl, fun hheld hlong other list' hlist' => ?_⟩
    · refine h.rearranged_of_account addr rfl (fun other hother tx => ?_) (fun tx => ?_)
        (fun tx => ?_) (fun tx htx => ?_) (fun tx htx => by cases htx) fun tx htx => by cases htx
      · rw [hpending other, if_neg hother]
        exact ⟨Iff.rfl, Iff.rfl⟩
      · rw [hpending addr, if_pos rfl, htxs, List.dropLast_concat]
        have hsorted := txsIn_sorted pool.pending addr
        change Sorted (pool.pendingTxs addr) at hsorted
        rw [htxs] at hsorted
        have hlt := (List.pairwise_append.mp hsorted).2.2 tx
        simp only [List.mem_append, List.mem_singleton, List.not_mem_nil, not_false_eq_true,
          and_true, or_false]
        constructor
        · intro htx
          exact ⟨.inl htx, fun heq => lt_irrefl _ (heq ▸ hlt htx last List.mem_cons_self)⟩
        · rintro ⟨htx | htx, hne⟩
          · exact htx
          · exact absurd htx hne
      · simp only [List.mem_singleton, List.not_mem_nil, not_false_eq_true, and_true, or_false]
        refine ⟨fun htx => ⟨htx, ?_⟩, And.left⟩
        rintro rfl
        exact h.not_queued hlast htx
      · rw [List.mem_singleton.mp htx]
        exact .inl hlast
    · rcases Assoc.lookup_insert_cases hlist' with ⟨-, rfl⟩ | hold
      · rw [hinit]
        rw [htxs, List.length_append, List.length_singleton] at hlong
        exact List.ne_nil_of_length_pos (by omega)
      · exact hheld other list' hold

theorem exists_cappedLast (order : MapOrder) (h : pool.Partition)
    (hlong : 1 < (pool.pendingTxs addr).length) :
    ∃ last, (pool.pendingTxs addr).getLast? = some last ∧
      CappedLast pool (pool.capLast order addr) addr last := by
  have hne : pool.pendingTxs addr ≠ [] := List.ne_nil_of_length_pos (by omega)
  exact ⟨_, List.getLast?_eq_some_getLast hne,
    capLast_spec h (List.dropLast_append_getLast hne).symm⟩

theorem CappedLast.frame (h : CappedLast pool pool' addr last)
    (hlong : 1 < (pool.pendingTxs addr).length) : Frame pool pool' where
  state := h.state
  maxGas := h.maxGas
  locals := h.locals
  fallback := by rw [h.nonces, noncer_setIfLower_fallback]
  trimmed := ⟨[last.hash], h.all⟩
  held hheld := h.held hheld hlong

/-- All the accounts have the same number of pending transactions. -/
def Level (pool : Pool) (accounts : List Address) (n : ℕ) : Prop :=
  ∀ addr ∈ accounts, (pool.pendingTxs addr).length = n

section Invariant

variable {I : Pool → Prop} {offenders : List Address} {n : ℕ}
  (hI : ∀ pool addr, I pool → 1 < (pool.pendingTxs addr).length → I (pool.capLast order addr))

include hI

/-- One round drops one transaction of each offender. -/
theorem round_invariant (pending : ℕ) (hpool : I pool) (hnodup : offenders.Nodup)
    (hlevel : pool.Level offenders (n + 1)) (hn : 1 ≤ n) :
    let result := offenders.foldl (fun s offender => (s.1 - 1, s.2.capLast order offender))
      (pending, pool)
    I result.2 ∧ result.1 = pending - offenders.length ∧ result.2.Level offenders n ∧
      ∀ addr ∉ offenders, (result.2.pendingTxs addr).length = (pool.pendingTxs addr).length := by
  induction offenders generalizing pool pending with
  | nil => exact ⟨hpool, rfl, fun addr haddr => (by cases haddr), fun _ _ => rfl⟩
  | cons first offenders ih =>
    obtain ⟨hfirst, hrest⟩ := List.nodup_cons.mp hnodup
    have hlength := hlevel first List.mem_cons_self
    have hstep := hI pool first hpool (by omega)
    have hother (addr : Address) := pendingTxs_capLast order pool first addr
    have hlevel₁ : (pool.capLast order first).Level offenders (n + 1) := by
      intro addr haddr
      have hne : addr ≠ first := fun heq => hfirst (heq ▸ haddr)
      rw [hother, if_neg hne]
      exact hlevel addr (List.mem_cons_of_mem _ haddr)
    obtain ⟨hresult, hcount, hlevel', hsame⟩ := ih (pending - 1) hstep hrest hlevel₁
    dsimp only at hresult hcount hlevel' hsame ⊢
    refine ⟨hresult, ?_, fun addr haddr => ?_, fun addr haddr => ?_⟩
    · rw [List.foldl_cons, hcount, List.length_cons]
      omega
    · rcases List.mem_cons.mp haddr with rfl | haddr
      · rw [List.foldl_cons, hsame addr hfirst, hother, if_pos rfl, List.length_dropLast]
        omega
      · exact hlevel' addr haddr
    · rw [List.mem_cons, not_or] at haddr
      rw [List.foldl_cons, hsame addr haddr.2, hother, if_neg haddr.1]

/-- The rounds end at the threshold, unless the pool falls to its limit before. -/
theorem reduce_invariant {addr : Address} {threshold fuel pending : ℕ} (hpool : I pool)
    (hnodup : offenders.Nodup) (haddr : addr ∈ offenders) (hlevel : pool.Level offenders n)
    (hthreshold : 1 ≤ threshold) (hn : threshold ≤ n) (hfuel : pending ≤ fuel) :
    let result := reduce config order offenders addr threshold fuel (pending, pool)
    I result.2 ∧ (config.globalSlots < result.1 → result.2.Level offenders threshold) ∧
      ∀ other ∉ offenders, (result.2.pendingTxs other).length = (pool.pendingTxs other).length := by
  induction fuel generalizing pool pending n with
  | zero =>
    refine ⟨hpool, fun hlimit => ?_, fun _ _ => rfl⟩
    have : config.globalSlots < pending := hlimit
    omega
  | succ fuel ih =>
    unfold reduce
    dsimp only
    have hlength := hlevel addr haddr
    split_ifs with hmore
    · obtain ⟨m, rfl⟩ : ∃ m, n = m + 1 := Nat.exists_eq_add_one_of_ne_zero (by omega)
      have hpos := List.length_pos_of_mem haddr
      obtain ⟨hround, hcount, hlevel', hsame⟩ :=
        round_invariant hI pending hpool hnodup hlevel (by omega)
      generalize offenders.foldl _ (pending, pool) = s at hround hcount hlevel' hsame ⊢
      obtain ⟨hresult, hlimit, hothers⟩ := ih hround hlevel' (by omega)
        (show s.1 ≤ fuel by omega)
      exact ⟨hresult, hlimit, fun other hother => (hothers other hother).trans (hsame other hother)⟩
    · refine ⟨hpool, fun hlimit => ?_, fun _ _ => rfl⟩
      have hle : n ≤ threshold := by
        rw [hlength] at hmore
        exact not_lt.mp fun hlt => hmore ⟨hlimit, hlt⟩
      rwa [le_antisymm hle hn] at hlevel

/-- The offenders are at one level while the pool is above its limit. -/
theorem gatherOffenders_invariant {spammers : List Address} (pending : ℕ) (hpool : I pool)
    (hnodup : (offenders ++ spammers).Nodup)
    (hslots : ∀ addr ∈ spammers, config.accountSlots < (pool.pendingTxs addr).length)
    (hsorted : spammers.Pairwise fun addr other =>
      (pool.pendingTxs other).length ≤ (pool.pendingTxs addr).length)
    (hlevel : config.globalSlots < pending → ∃ n, pool.Level offenders n ∧
      config.accountSlots ≤ n ∧ ∀ addr ∈ spammers, (pool.pendingTxs addr).length ≤ n) :
    let result := gatherOffenders config order spammers offenders (pending, pool)
    I result.2.2 ∧ result.1.Nodup ∧ (config.globalSlots < result.2.1 →
      ∃ n, result.2.2.Level result.1 n ∧ config.accountSlots ≤ n) := by
  induction spammers generalizing pool pending offenders with
  | nil =>
    rw [List.append_nil] at hnodup
    refine ⟨hpool, hnodup, fun hlimit => ?_⟩
    obtain ⟨n, hlevel', hn, -⟩ := hlevel hlimit
    exact ⟨n, hlevel', hn⟩
  | cons offender spammers ih =>
    obtain ⟨hfirst, hrest⟩ := List.pairwise_cons.mp hsorted
    have hassoc : ((offenders ++ [offender]) ++ spammers).Nodup := by
      rwa [List.append_assoc]
    have hoff := List.nodup_append.mp hnodup
    have hnot : ∀ addr ∈ offender :: spammers, addr ∉ offenders := fun addr haddr hmem =>
      hoff.2.2 addr hmem addr haddr rfl
    have hoffender := hslots offender List.mem_cons_self
    unfold gatherOffenders
    dsimp only
    split_ifs with hlimit
    swap
    · exact ⟨hpool, hoff.1, fun hlimit' => absurd hlimit' hlimit⟩
    obtain ⟨n, hlevel', hn, hmax⟩ := hlevel hlimit
    cases hlast : offenders.getLast? with
    | none =>
      obtain rfl := List.getLast?_eq_none_iff.mp hlast
      refine ih pending hpool hassoc (fun addr haddr => hslots addr (List.mem_cons_of_mem _ haddr))
        hrest fun _ => ⟨_, fun addr haddr => ?_, hoffender.le, hfirst⟩
      rw [List.mem_singleton.mp haddr]
    | some last =>
      obtain ⟨hresult, hdone, hsame⟩ := reduce_invariant hI hpool hoff.1
        (List.mem_of_getLast? hlast) hlevel' (by omega) (hmax offender List.mem_cons_self) le_rfl
      dsimp only
      generalize reduce config order offenders last (pool.pendingTxs offender).length pending
        (pending, pool) = s at hresult hdone hsame ⊢
      have hsame' : ∀ addr ∈ offender :: spammers,
          (s.2.pendingTxs addr).length = (pool.pendingTxs addr).length := fun addr haddr =>
        hsame addr (hnot addr haddr)
      refine ih s.1 hresult hassoc (fun addr haddr => ?_) ?_ fun hlimit' => ?_
      · rw [hsame' addr (List.mem_cons_of_mem _ haddr)]
        exact hslots addr (List.mem_cons_of_mem _ haddr)
      · refine hrest.imp_of_mem fun {addr other} haddr hother hle => ?_
        rw [hsame' addr (List.mem_cons_of_mem _ haddr),
          hsame' other (List.mem_cons_of_mem _ hother)]
        exact hle
      · refine ⟨(pool.pendingTxs offender).length, fun addr haddr => ?_, hoffender.le,
          fun addr haddr => ?_⟩
        · rcases List.mem_append.mp haddr with haddr | haddr
          · exact hdone hlimit' addr haddr
          · rw [List.mem_singleton.mp haddr]
            exact hsame' offender List.mem_cons_self
        · rw [hsame' addr (List.mem_cons_of_mem _ haddr)]
          exact hfirst addr haddr

/-- Truncation only drops transactions of accounts that have others left. -/
theorem truncatePending_invariant (hpool : I pool) : I (pool.truncatePending config order) := by
  unfold truncatePending
  dsimp only
  split_ifs with hlimit
  · exact hpool
  have hslots := config.accountSlots_pos
  let atLeast : Address → Address → Prop := fun addr other =>
    (pool.pendingTxs other).length ≤ (pool.pendingTxs addr).length
  have : Std.Total atLeast := ⟨fun addr other => le_total _ _⟩
  have : IsTrans _ atLeast := ⟨fun _ _ _ h h' => le_trans h' h⟩
  have hspammers : ∀ addr ∈ pool.spammers config order,
      config.accountSlots < (pool.pendingTxs addr).length := by
    intro addr haddr
    have hmem := List.mem_filter.mp ((List.mem_insertionSort _).mp haddr)
    exact (of_decide_eq_true hmem.2).2
  have hsorted : (pool.spammers config order).Pairwise atLeast :=
    List.pairwise_insertionSort atLeast _
  have hnodup : (pool.spammers config order).Nodup := by
    refine (List.perm_insertionSort _ _).nodup_iff.mpr (List.Nodup.filter _ ?_)
    exact (order.perm _).nodup_iff.mpr pool.pending.keys_nodup
  have hbound : ∃ n, config.accountSlots ≤ n ∧
      ∀ addr ∈ pool.spammers config order, (pool.pendingTxs addr).length ≤ n := by
    cases hcases : pool.spammers config order with
    | nil => exact ⟨_, le_rfl, fun addr haddr => by cases haddr⟩
    | cons first rest =>
      rw [hcases] at hsorted hspammers
      refine ⟨_, (hspammers first List.mem_cons_self).le, fun addr haddr => ?_⟩
      rcases List.mem_cons.mp haddr with rfl | haddr
      · exact le_rfl
      · exact (List.pairwise_cons.mp hsorted).1 addr haddr
  obtain ⟨n, hn, hmax⟩ := hbound
  obtain ⟨hgathered, hnodup', hlevel⟩ := gatherOffenders_invariant hI
    (pool.pending.values.map TxList.len).sum hpool
    (show ([] ++ pool.spammers config order).Nodup from hnodup) hspammers hsorted
    fun _ => ⟨n, fun addr haddr => (by cases haddr), hn, hmax⟩
  generalize gatherOffenders config order (pool.spammers config order) [] _ = s
    at hgathered hnodup' hlevel ⊢
  cases hlast : s.1.getLast? with
  | none => exact hgathered
  | some last =>
    dsimp only
    by_cases hlimit' : config.globalSlots < s.2.1
    · obtain ⟨n, hlevel', hn⟩ := hlevel hlimit'
      exact (reduce_invariant hI hgathered hnodup' (List.mem_of_getLast? hlast) hlevel' hslots hn
        le_rfl).1
    · cases hfuel : s.2.1 with
      | zero => exact hgathered
      | succ fuel =>
        rw [reduce, if_neg fun hmore => hlimit' (hfuel ▸ hmore.1)]
        exact hgathered

end Invariant

/-! ## Queued transactions -/

section Removals

variable {I : Pool → Prop}

theorem removeTxs_invariant {outofbound : Bool}
    (hI : ∀ pool hash, I pool → I (pool.removeTx config order now hash outofbound).2)
    (txs : List Tx) (hpool : I pool) :
    I (txs.foldl (fun pool tx => (pool.removeTx config order now tx.hash outofbound).2) pool) := by
  induction txs generalizing pool with
  | nil => exact hpool
  | cons tx txs ih => exact ih (hI pool tx.hash hpool)

theorem truncateQueue_invariant
    (hI : ∀ pool hash, I pool → I (pool.removeTx config order now hash true).2)
    (hpool : I pool) : I (pool.truncateQueue config order now) := by
  have hdrop : ∀ (addresses : List Address) (drop : ℕ) (pool : Pool), I pool →
      I (dropQueued config order now addresses drop pool) := by
    intro addresses
    induction addresses with
    | nil => exact fun _ _ hpool => hpool
    | cons addr addresses ih =>
      intro drop pool hpool
      unfold dropQueued
      split_ifs
      · exact hpool
      · exact ih _ _ (removeTxs_invariant hI _ hpool)
  unfold truncateQueue
  dsimp only
  split_ifs
  · exact hpool
  · exact hdrop _ _ pool hpool

end Removals

end TxPool.Pool

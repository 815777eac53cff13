import NarwhalGeth.TxPool.Runs

/-!
# Pending lists without gaps

Between resets the pending transactions of an account are a run from its nonce in the current state,
and its next pending nonce follows them. A reset can bring back a lower nonce, and it depends on the
transactions that are then promoted whether the gap is filled.
-/

namespace TxPool.Pool

section Invariants

variable {pool pool' : Pool} {addr : Address} {tx : Tx} {moved : List Tx} {config : Config}
  {order : MapOrder} {now start : ℕ} {accounts : List Address}

/-- No pending list is empty, and no transaction has the last nonce of all. -/
structure Grounded (pool : Pool) : Prop extends Consistent pool where
  held : pool.NoEmpty
  small : ∀ hash tx, pool.all.get hash = some tx → tx.nonce + 1 < 2 ^ 64

namespace Grounded

theorem same (h : pool.Grounded) (hsame : Same pool pool') : pool'.Grounded := by
  refine ⟨h.toConsistent.same hsame, ?_, ?_⟩
  · rw [NoEmpty, hsame.pending]
    exact h.held
  · rw [hsame.all]
    exact h.small

theorem framed (h : pool.Grounded) (hconsistent : pool'.Consistent) (hframe : Frame pool pool') :
    pool'.Grounded where
  toConsistent := hconsistent
  held := hframe.held h.held
  small hash tx hget := by
    obtain ⟨hashes, htrimmed⟩ := hframe.trimmed
    rw [htrimmed] at hget
    exact h.small hash tx (get_of_get_foldl_remove hget)

theorem accepted (h : pool.Grounded) (haccepted : Accepted pool pool' tx)
    (hsmall : tx.nonce + 1 < 2 ^ 64) : pool'.Grounded where
  toConsistent := h.toConsistent.accepted haccepted
  held := haccepted.held h.held
  small hash tx' hget := by
    rcases (haccepted.inserted.get hash tx').mp hget with ⟨-, rfl⟩ | ⟨hold, -⟩
    · exact hsmall
    · exact h.small hash tx' hold

theorem nextNonce (h : pool.Grounded)
    (htx : tx ∈ pool.pendingTxs addr ∨ tx ∈ pool.queuedTxs addr) : tx.nextNonce = tx.nonce + 1 :=
  Nat.mod_eq_of_lt (h.small tx.hash tx (h.partition.known addr tx htx).2)

end Grounded

/-! ## Between resets -/

/-- The pending transactions of an account are a run from its nonce, and its next pending nonce
follows them. -/
structure Continuous (pool : Pool) : Prop extends Grounded pool where
  runs : ∀ addr, IsRun (pool.currentState.getNonce addr) (pool.pendingTxs addr)
  nonces : ∀ addr, pool.pendingNonces.get addr =
    pool.currentState.getNonce addr + (pool.pendingTxs addr).length

namespace Continuous

section

variable (h : pool.Continuous)

include h

theorem same (hsame : Same pool pool') : pool'.Continuous := by
  refine ⟨h.toGrounded.same hsame, fun addr => ?_, fun addr => ?_⟩
  · rw [pendingTxs, hsame.pending, hsame.state]
    exact h.runs addr
  · rw [pendingTxs, hsame.pending, hsame.state, hsame.nonces]
    exact h.nonces addr

theorem removeTx (hash : Hash) (outofbound : Bool) :
    (pool.removeTx config order now hash outofbound).2.Continuous := by
  refine h.removeTx_invariant h (fun pool' tx moved hconsistent hremoved hframe => ?_) hash
    outofbound
  refine ⟨h.toGrounded.framed hconsistent hframe, fun addr => ?_, fun addr => ?_⟩
  · rw [hremoved.pendingTxs h.partition, hframe.state]
    split_ifs with htx
    · exact ((h.runs addr).cut htx).1
    · exact h.runs addr
  · rw [hremoved.pendingTxs h.partition, hremoved.nonces_get h.partition, hframe.state]
    split_ifs with htx
    · rw [((h.runs addr).cut htx).2.1, h.nonces addr]
      exact min_eq_right ((h.runs addr).bounds htx).2.le
    · exact h.nonces addr

theorem accepted (haccepted : Accepted pool pool' tx) (hsmall : tx.nonce + 1 < 2 ^ 64) :
    pool'.Continuous := by
  have hsame := haccepted.pending_nonces h.partition
  refine ⟨h.toGrounded.accepted haccepted hsmall, fun addr => ?_, fun addr => ?_⟩
  · rw [haccepted.state]
    exact (h.runs addr).congr (hsame addr)
  · have hlength : (pool'.pendingTxs addr).length = (pool.pendingTxs addr).length := by
      simpa using congrArg List.length (hsame addr)
    rw [haccepted.nonces, haccepted.state, hlength]
    exact h.nonces addr

theorem add (fromLocal : Bool) (hsmall : tx.nonce + 1 < 2 ^ 64) :
    (pool.add config order now tx fromLocal).2.Continuous :=
  add_invariant (fun _ h => h.partition) (fun _ _ hsame h => h.same hsame)
    (fun _ hash h => h.removeTx hash false)
    (fun _ _ haccepted h => h.accepted haccepted hsmall) fromLocal h

theorem promoteAccount (addr : Address) :
    (pool.promoteAccount config order now addr).Continuous := by
  have hspec : PromotedAccount config pool (pool.promoteAccount config order now addr) addr :=
    promoteAccount_spec h.partition
  have hframe : Frame pool (pool.promoteAccount config order now addr) :=
    promoteAccount_frame pool addr
  have hconsistent : (pool.promoteAccount config order now addr).Consistent :=
    h.toConsistent.promoteAccount addr
  generalize pool.promoteAccount config order now addr = pool' at hspec hframe hconsistent ⊢
  have hlow : ∀ tx ∈ pool.executable addr, pool.pendingNonces.get addr ≤ tx.nonce := by
    intro tx htx
    obtain ⟨hqueued, hnonce⟩ := mem_executable htx
    rw [h.nonces]
    by_contra hlt
    obtain ⟨tx', htx', heq⟩ := (h.runs addr).mem_iff.mpr ⟨hnonce, not_le.mp hlt⟩
    exact h.partition.apart addr tx' htx' tx hqueued heq
  have hrun : IsRun (pool.pendingNonces.get addr) (pool.promotable addr) :=
    TxList.isRun_readyRun hlow
  have hextended : IsRun (pool.currentState.getNonce addr)
      (pool.pendingTxs addr ++ pool.promotable addr) := by
    rw [IsRun.append_iff, ← h.nonces]
    exact ⟨h.runs addr, hrun⟩
  have hpending : pool'.pendingTxs addr = pool.pendingTxs addr ++ pool.promotable addr := by
    refine (pendingTxs_sorted pool' addr).ext hextended.sorted fun tx => ?_
    rw [hspec.pending_iff h.partition, List.mem_append, and_iff_left rfl]
  have hnext : (pool.promotable addr).getLast?.elim (pool.pendingNonces.get addr) Tx.nextNonce =
      pool.pendingNonces.get addr + (pool.promotable addr).length := by
    cases hlast : (pool.promotable addr).getLast? with
    | none =>
      rw [List.getLast?_eq_none_iff.mp hlast]
      rfl
    | some last =>
      have hmem := mem_executable (mem_promotable (List.mem_of_getLast? hlast))
      rw [← hrun.getLast hlast]
      exact h.nextNonce (.inr hmem.1)
  refine ⟨h.toGrounded.framed hconsistent hframe, fun other => ?_, fun other => ?_⟩
  · rw [hframe.state]
    by_cases hother : other = addr
    · rw [hother, hpending]
      exact hextended
    · rw [hspec.pendingTxs_of_ne h.partition hother]
      exact h.runs other
  · rw [hframe.state, hspec.nonces]
    split_ifs with hother
    · rw [hother, hpending, hnext, h.nonces, List.length_append, add_assoc]
    · rw [hspec.pendingTxs_of_ne h.partition hother]
      exact h.nonces other

theorem capLast (hlong : 1 < (pool.pendingTxs addr).length) :
    (pool.capLast order addr).Continuous := by
  obtain ⟨last, hlast, hcapped⟩ := exists_cappedLast order h.partition hlong
  have hnonce := (h.runs addr).getLast hlast
  have hinit := h.runs addr
  rw [← List.dropLast_append_getLast? last hlast, IsRun.append_iff] at hinit
  refine ⟨h.toGrounded.framed (h.toConsistent.capLast hlong) (hcapped.frame hlong),
    fun other => ?_, fun other => ?_⟩
  · rw [hcapped.state, pendingTxs_capLast]
    split_ifs with hother
    · rw [hother]
      exact hinit.1
    · exact h.runs other
  · rw [hcapped.state, hcapped.nonces, pendingTxs_capLast, noncer_get_setIfLower]
    split_ifs with hother
    · rw [hother, h.nonces, List.length_dropLast]
      omega
    · exact h.nonces other

theorem promoteExecutables (accounts : List Address) :
    (pool.promoteExecutables config order now accounts).Continuous :=
  promoteExecutables_invariant (fun _ addr h => h.promoteAccount addr) accounts h

theorem truncated :
    ((pool.truncatePending config order).truncateQueue config order now).Continuous :=
  truncateQueue_invariant (fun _ hash h => h.removeTx hash true)
    (truncatePending_invariant (fun _ _ h hlong => h.capLast hlong) h)

end

end Continuous

/-! ## Resets -/

/-- The pending transactions of an account are a run, and its next pending nonce is not above that
of the state. -/
structure Rebased (pool : Pool) : Prop extends Grounded pool where
  runs : ∀ addr, ∃ start, IsRun start (pool.pendingTxs addr)
  nonces : ∀ addr, pool.pendingNonces.get addr ≤ pool.currentState.getNonce addr

namespace Rebased

theorem same (h : pool.Rebased) (hsame : Same pool pool') : pool'.Rebased := by
  refine ⟨h.toGrounded.same hsame, fun addr => ?_, fun addr => ?_⟩
  · rw [pendingTxs, hsame.pending]
    exact h.runs addr
  · rw [hsame.state, hsame.nonces]
    exact h.nonces addr

theorem removeTx (h : pool.Rebased) (hash : Hash) (outofbound : Bool) :
    (pool.removeTx config order now hash outofbound).2.Rebased := by
  refine h.removeTx_invariant h (fun pool' tx moved hconsistent hremoved hframe => ?_) hash
    outofbound
  refine ⟨h.toGrounded.framed hconsistent hframe, fun addr => ?_, fun addr => ?_⟩
  · obtain ⟨start, hrun⟩ := h.runs addr
    refine ⟨start, ?_⟩
    rw [hremoved.pendingTxs h.partition]
    split_ifs with htx
    · exact (hrun.cut htx).1
    · exact hrun
  · rw [hremoved.nonces_get h.partition, hframe.state]
    split_ifs with htx
    · exact (min_le_left _ _).trans (h.nonces addr)
    · exact h.nonces addr

theorem accepted (h : pool.Rebased) (haccepted : Accepted pool pool' tx)
    (hsmall : tx.nonce + 1 < 2 ^ 64) : pool'.Rebased := by
  refine ⟨h.toGrounded.accepted haccepted hsmall, fun addr => ?_, fun addr => ?_⟩
  · obtain ⟨start, hrun⟩ := h.runs addr
    exact ⟨start, hrun.congr (haccepted.pending_nonces h.partition addr)⟩
  · rw [haccepted.nonces, haccepted.state]
    exact h.nonces addr

theorem add (h : pool.Rebased) (fromLocal : Bool) (hsmall : tx.nonce + 1 < 2 ^ 64) :
    (pool.add config order now tx fromLocal).2.Rebased :=
  add_invariant (fun _ h => h.partition) (fun _ _ hsame h => h.same hsame)
    (fun _ hash h => h.removeTx hash false)
    (fun _ _ haccepted h => h.accepted haccepted hsmall) fromLocal h

end Rebased

theorem Continuous.reset (h : pool.Continuous) (chain : Chain) (request : Reset)
    (hsmall : ∀ reinject, chain.reinjected request.oldHead request.newHead = some reinject →
      ∀ tx ∈ reinject, tx.nonce + 1 < 2 ^ 64) :
    pool.reset config order now chain request = pool ∨
      (pool.reset config order now chain request).Rebased := by
  unfold Pool.reset
  cases hreinject : chain.reinjected request.oldHead request.newHead with
  | none => exact .inl rfl
  | some reinject =>
    cases chain.stateAt request.newHead.root with
    | none => exact .inl rfl
    | some statedb =>
      refine .inr (addTxsLocked_invariant false
        (fun pool tx htx h => h.add false (hsmall reinject hreinject tx htx)) ?_)
      exact ⟨⟨h.toConsistent.congr rfl rfl rfl rfl, h.held, h.small⟩,
        fun addr => ⟨_, h.runs addr⟩, fun addr => le_rfl⟩

/-- The promotable transactions of an account fill the gap in front of its pending ones, or there
are none. -/
def FillsGap (pool : Pool) (addr : Address) : Prop :=
  ∀ first ∈ (pool.pendingTxs addr).head?, pool.currentState.getNonce addr < first.nonce →
    pool.promotable addr = [] ∨
      pool.currentState.getNonce addr + (pool.promotable addr).length = first.nonce

/-- The pending transactions that are not old are a run from the nonce of the account, or lack it.
-/
def Settles (pool : Pool) (addr : Address) : Prop :=
  (∀ tx ∈ pool.pendingTxs addr, tx.nonce ≠ pool.currentState.getNonce addr) ∨
    IsRun (pool.currentState.getNonce addr)
      ((pool.pendingTxs addr).filter fun tx => !decide (tx.nonce < pool.currentState.getNonce addr))

theorem settles_of_isRun (h : IsRun start (pool.pendingTxs addr)) : pool.Settles addr := by
  by_cases hle : start ≤ pool.currentState.getNonce addr
  · exact .inr (h.from_nonce hle)
  · refine .inl fun tx htx => ?_
    have := (h.bounds htx).1
    omega

theorem isRun_promotable (hle : pool.pendingNonces.get addr ≤ pool.currentState.getNonce addr) :
    IsRun (pool.currentState.getNonce addr) (pool.promotable addr) := by
  have hlow : ∀ tx ∈ pool.executable addr, pool.currentState.getNonce addr ≤ tx.nonce :=
    fun tx htx => (mem_executable htx).2
  unfold promotable
  rcases hle.lt_or_eq with hlt | heq
  · rw [TxList.readyRun_eq_nil fun tx htx => hlt.trans_le (hlow tx htx)]
    exact .nil _
  · rw [heq]
    exact TxList.isRun_readyRun hlow

theorem settles_of_promoted (h : pool.Partition)
    (hstate : pool'.currentState = pool.currentState)
    (hmem : ∀ tx, tx ∈ pool'.pendingTxs addr ↔
      tx ∈ pool.pendingTxs addr ∨ tx ∈ pool.promotable addr)
    (hpending : IsRun start (pool.pendingTxs addr))
    (hnonce : pool.pendingNonces.get addr ≤ pool.currentState.getNonce addr)
    (hfills : pool.FillsGap addr) : pool'.Settles addr := by
  have hrun := isRun_promotable hnonce
  have hsorted := pendingTxs_sorted pool' addr
  by_cases hnil : pool.promotable addr = []
  · have hsame : pool'.pendingTxs addr = pool.pendingTxs addr :=
      hsorted.ext hpending.sorted fun tx => by simp [hmem, hnil]
    rw [← hsame] at hpending
    exact settles_of_isRun hpending
  -- The first promotable transaction has the nonce of the state, so that no pending one has it.
  have hfree : ∀ tx ∈ pool.pendingTxs addr, tx.nonce ≠ pool.currentState.getNonce addr := by
    intro tx htx heq
    obtain ⟨tx', htx', heq'⟩ := hrun.mem_iff.mpr
      ⟨le_rfl, Nat.lt_add_of_pos_right (List.length_pos_iff.mpr hnil)⟩
    have hqueued := (mem_executable (mem_promotable htx')).1
    exact h.apart addr tx htx tx' hqueued (heq.trans heq'.symm)
  unfold Settles
  rw [hstate]
  by_cases hle : start ≤ pool.currentState.getNonce addr
  · have hold : ∀ tx ∈ pool.pendingTxs addr, tx.nonce < pool.currentState.getNonce addr := by
      intro tx htx
      by_contra hge
      have hbounds := hpending.bounds htx
      obtain ⟨tx', htx', heq⟩ := hpending.mem_iff.mpr ⟨hle, by omega⟩
      exact hfree tx' htx' heq
    have hnew : (pool'.pendingTxs addr).filter
        (fun tx => !decide (tx.nonce < pool.currentState.getNonce addr)) =
          pool.promotable addr := by
      refine (hsorted.filter _).ext hrun.sorted fun tx => ?_
      have hlt := hold tx
      simp only [List.mem_filter, hmem, Bool.not_eq_true', decide_eq_false_iff_not, not_lt]
      constructor
      · rintro ⟨htx | htx, hle⟩
        · exact absurd (hlt htx) (not_lt.mpr hle)
        · exact htx
      · exact fun htx => ⟨.inr htx, (hrun.bounds htx).1⟩
    rw [hnew]
    exact .inr hrun
  · have hall : IsRun (pool.currentState.getNonce addr)
        (pool.promotable addr ++ pool.pendingTxs addr) := by
      rw [IsRun.append_iff]
      refine ⟨hrun, ?_⟩
      cases hhead : (pool.pendingTxs addr).head? with
      | none =>
        rw [List.head?_eq_none_iff.mp hhead]
        exact .nil _
      | some first =>
        obtain ⟨rest, hrest⟩ := List.head?_eq_some_iff.mp hhead
        rw [hrest, IsRun.cons_iff] at hpending
        have hgap := (hfills first hhead (by omega)).resolve_left hnil
        rw [hgap, hrest, IsRun.cons_iff, hpending.1]
        exact ⟨rfl, hpending.2⟩
    have hnew : pool'.pendingTxs addr = pool.promotable addr ++ pool.pendingTxs addr :=
      hsorted.ext hall.sorted fun tx => by rw [hmem, List.mem_append, or_comm]
    rw [hnew]
    exact .inr (hall.from_nonce le_rfl)

theorem Settles.demoted (h : pool.Settles addr) (hdemoted : Demoted pool pool' addr) :
    IsRun (pool.currentState.getNonce addr) (pool'.pendingTxs addr) := by
  rcases h with hfree | hrun
  · have hnil : pool'.pendingTxs addr = [] := List.eq_nil_iff_forall_not_mem.mpr fun tx htx => by
      obtain ⟨-, -, ⟨first, hfirst, heq⟩, -⟩ := (hdemoted.stays tx).mp htx
      exact hfree first hfirst heq
    rw [hnil]
    exact .nil _
  · obtain ⟨left, hkept⟩ := hdemoted.kept
    rw [← hkept, IsRun.append_iff] at hrun
    exact hrun.1

theorem demoteUnexecutables_run (h : pool.Grounded) (hsettles : ∀ addr, pool.Settles addr) :
    let demoted := pool.demoteUnexecutables config order now
    demoted.Grounded ∧
      ∀ addr, IsRun (demoted.currentState.getNonce addr) (demoted.pendingTxs addr) := by
  have hframe : Frame pool (pool.demoteUnexecutables config order now) :=
    demoteUnexecutables_frame pool
  refine ⟨h.framed h.demoteUnexecutables hframe, fun addr => ?_⟩
  rw [hframe.state]
  exact (hsettles addr).demoted (demoteUnexecutables_spec h.toConsistent addr)

theorem continuous_of_highestPending (h : pool.Grounded)
    (hruns : ∀ addr, IsRun (pool.currentState.getNonce addr) (pool.pendingTxs addr))
    (priced : PricedList) :
    Continuous { pool with
      priced, pendingNonces := pool.pendingNonces.setAll (pool.highestPending order) } := by
  refine ⟨⟨h.toConsistent.congr rfl rfl rfl h.fallback, h.held, h.small⟩, hruns, fun addr => ?_⟩
  change ((pool.highestPending order).lookup addr).getD (pool.pendingNonces.fallback addr) =
    pool.currentState.getNonce addr + (pool.pendingTxs addr).length
  rw [lookup_highestPending, h.fallback]
  cases hlast : (pool.pendingTxs addr).getLast? with
  | none =>
    rw [List.getLast?_eq_none_iff.mp hlast]
    rfl
  | some last =>
    rw [← (hruns addr).getLast hlast]
    exact h.nextNonce (.inl (List.mem_of_getLast? hlast))

/-- All gaps are filled that a reset opens in front of pending transactions. -/
def FillsGaps (pool : Pool) : Prop := ∀ addr ∈ pool.pending.keys, pool.FillsGap addr

theorem FillsGaps.fillsGap (h : pool.FillsGaps) (addr : Address) : pool.FillsGap addr := by
  by_cases haddr : addr ∈ pool.pending.keys
  · exact h addr haddr
  · intro first hfirst
    rw [pendingTxs, txsIn, AList.lookup_eq_none.mpr haddr] at hfirst
    cases hfirst

theorem Continuous.runReset (h : pool.Continuous) (chain : Chain) (request : Reset)
    (hsmall : ∀ reinject, chain.reinjected request.oldHead request.newHead = some reinject →
      ∀ tx ∈ reinject, tx.nonce + 1 < 2 ^ 64)
    (hfills : (pool.reset config order now chain request).FillsGaps) :
    (pool.runReset config order now chain request).Continuous := by
  have hreset : pool.reset config order now chain request = pool ∨
      (pool.reset config order now chain request).Rebased := h.reset chain request hsmall
  unfold Pool.runReset
  dsimp only
  have hpromoted : let reset := pool.reset config order now chain request
      let promoted := reset.promoteExecutables config order now (order.order reset.queue.keys)
      promoted.Grounded ∧ ∀ addr, promoted.Settles addr := by
    rcases hreset with hearly | hrebased
    · rw [hearly]
      have hcontinuous : (pool.promoteExecutables config order now
        (order.order pool.queue.keys)).Continuous := h.promoteExecutables _
      exact ⟨hcontinuous.toGrounded, fun addr => settles_of_isRun (hcontinuous.runs addr)⟩
    · refine ⟨hrebased.toGrounded.framed (hrebased.toConsistent.promoteExecutables _)
        (promoteExecutables_frame _ _), fun addr => ?_⟩
      obtain ⟨start, hrun⟩ := hrebased.runs addr
      exact settles_of_promoted hrebased.partition (promoteExecutables_frame _ _).state
        (promoteExecutables_spec hrebased.toConsistent addr).1 hrun (hrebased.nonces addr)
        (hfills.fillsGap addr)
  generalize pool.reset config order now chain request = reset at hpromoted ⊢
  obtain ⟨hgrounded, hsettles⟩ := hpromoted
  generalize reset.promoteExecutables config order now _ = promoted at hgrounded hsettles ⊢
  obtain ⟨hgrounded', hruns⟩ : (promoted.demoteUnexecutables config order now).Grounded ∧ _ :=
    demoteUnexecutables_run hgrounded hsettles
  generalize promoted.demoteUnexecutables config order now = demoted at hgrounded' hruns ⊢
  exact continuous_of_highestPending hgrounded' hruns _

/-- A reset fills the gaps it opens, and no transaction comes with the last nonce of all. -/
def NoGapOpens (config : Config) (pool : Pool) : Event → Prop
  | .add _ _ tx _ => tx.nonce + 1 < 2 ^ 64
  | .runReorg order now chain (some request) _ =>
    (∀ tx ∈ (chain.reinjected request.oldHead request.newHead).getD [], tx.nonce + 1 < 2 ^ 64) ∧
      (pool.reset config order now chain request).FillsGaps
  | .runReorg _ _ _ none _ | .evictInactive _ _ | .setGasPrice _ _ _ => True

theorem Continuous.next {e : Event} (h : pool.Continuous) (hguard : pool.NoGapOpens config e)
    (hnext : pool.next config e = some pool') : pool'.Continuous := by
  cases e with
  | add order now tx fromLocal =>
    obtain rfl := Option.some.inj hnext
    exact h.add fromLocal hguard
  | runReorg order now chain request dirtyAccounts =>
    obtain rfl := Option.some.inj hnext
    unfold Pool.runReorg
    dsimp only
    cases request with
    | none =>
      have htruncated : (((pool.promoteExecutables config order now dirtyAccounts).truncatePending
          config order).truncateQueue config order now).Continuous :=
        (h.promoteExecutables dirtyAccounts).truncated
      generalize Pool.truncateQueue _ _ _ _ = truncated at htruncated ⊢
      exact htruncated.same ⟨rfl, rfl, rfl, rfl, rfl, rfl⟩
    | some request =>
      obtain ⟨hsmall, hfills⟩ := hguard
      have hreset : (pool.runReset config order now chain request).Continuous :=
        h.runReset chain request (fun reinject heq => by rwa [heq] at hsmall) hfills
      have htruncated : (((pool.runReset config order now chain request).truncatePending
          config order).truncateQueue config order now).Continuous := hreset.truncated
      generalize Pool.truncateQueue _ _ _ _ = truncated at htruncated ⊢
      exact htruncated.same ⟨rfl, rfl, rfl, rfl, rfl, rfl⟩
  | evictInactive order now =>
    obtain rfl := Option.some.inj hnext
    exact evictInactive_invariant (fun _ hash h => h.removeTx hash true) h
  | setGasPrice order now price =>
    obtain rfl := Option.some.inj hnext
    exact setGasPrice_invariant (fun _ _ hsame h => h.same hsame)
      (fun _ hash h => h.removeTx hash false) price h

theorem continuous_newTxPool (priceLimit : ℕ) (locals : Finset Address) (statedb : StateDB)
    (gasLimit : ℕ) : (newTxPool priceLimit locals statedb gasLimit).Continuous := by
  refine ⟨⟨consistent_newTxPool priceLimit locals statedb gasLimit, ?_, ?_⟩, fun addr => .nil _,
    fun addr => rfl⟩
  · exact fun _ _ hlookup => by cases hlookup
  · exact fun _ _ hget => by cases hget

/-- Every pending list is a run from the nonce of its account, and the next pending nonce follows
its last one. -/
def GapFree (pool : Pool) : Prop :=
  ∀ addr list, pool.pending.lookup addr = some list → list.txs ≠ [] ∧
    list.txs.map Tx.nonce = List.range' (pool.currentState.getNonce addr) list.txs.length ∧
    ∀ last ∈ list.txs.getLast?, pool.pendingNonces.get addr = last.nonce + 1

/-- If the resets fill the gaps they open, the pending transactions of an account have the nonces
from its nonce in the state on without a gap, and the virtual nonce is the next. -/
theorem pending_gap_free {priceLimit gasLimit : ℕ} {locals : Finset Address} {statedb : StateDB}
    (h : (machine config (newTxPool priceLimit locals statedb gasLimit)).Reached
      (NoGapOpens config) pool) : pool.GapFree := by
  have hcontinuous : pool.Continuous :=
    h.invariant (I := Continuous) (continuous_newTxPool priceLimit locals statedb gasLimit)
      fun _ _ _ hpool hguard hnext => hpool.next hguard hnext
  intro addr list hlookup
  have hlist : pool.pendingTxs addr = list.txs := txsIn_of_lookup hlookup
  have hrun := hcontinuous.runs addr
  rw [hlist] at hrun
  refine ⟨hcontinuous.held addr list hlookup, hrun, fun last hlast => ?_⟩
  rw [hcontinuous.nonces, hlist, hrun.getLast hlast]

end Invariants

namespace Sample

def genesis : Header := ⟨0, 0, 0, 0, 10⟩

def oldHead : Header := ⟨1, 0, 1, 1, 10⟩

def newHead : Header := ⟨2, 0, 1, 2, 10⟩

/-- Two blocks after the same one. The first has the first two transactions of an account, and the
second is empty. -/
def forked (balance : ℕ) : Chain where
  getBlock hash _ :=
    if hash = 1 then some ⟨oldHead, [tx 0 0 0 5, tx 1 0 1 50]⟩
    else if hash = 2 then some ⟨newHead, []⟩
    else some ⟨genesis, []⟩
  stateAt root := some (statedb (if root = 1 then 2 else 0) balance)
  calcBaseFee _ := none

/-- Empty over the state of the first block. -/
def afterBlock : Pool := newTxPool 1 ∅ (statedb 2 100) 10

/-- A third transaction is pending when the chain is reorganised. -/
def reorganised (balance : ℕ) : List Event :=
  [.add order 0 (tx 2 0 2 5) false, .runReorg order 1 (forked balance) none [0],
    .runReorg order 2 (forked balance) (some ⟨some oldHead, newHead⟩) []]

end Sample

instance decidableFillsGap (pool : Pool) (addr : Address) : Decidable (pool.FillsGap addr) :=
  inferInstanceAs (Decidable (∀ first ∈ (pool.pendingTxs addr).head?, _ < _ → _ ∨ _))

instance decidableFillsGaps (pool : Pool) : Decidable pool.FillsGaps :=
  List.decidableBAll (fun addr => pool.FillsGap addr) pool.pending.keys

instance decidableNoGapOpens (config : Config) (pool : Pool) :
    (e : Event) → Decidable (pool.NoGapOpens config e)
  | .add _ _ tx _ => inferInstanceAs (Decidable (tx.nonce + 1 < 2 ^ 64))
  | .runReorg order now chain (some request) _ =>
    inferInstanceAs (Decidable (_ ∧ (pool.reset config order now chain request).FillsGaps))
  | .runReorg _ _ _ none _ | .evictInactive _ _ | .setGasPrice _ _ _ => isTrue trivial

/-- Both transactions of the first block are injected again and fill the gap. -/
theorem pending_gap_free_sample :
    ∃ pool, (machine Sample.config Sample.afterBlock).Reached (NoGapOpens Sample.config) pool ∧
      pool.currentState.getNonce 0 = 0 ∧ (pool.pendingTxs 0).map Tx.nonce = [0, 1, 2] ∧
      pool.GapFree := by
  have hreached : (machine Sample.config Sample.afterBlock).Reached (NoGapOpens Sample.config)
      ((machine Sample.config Sample.afterBlock).after Sample.afterBlock
        (Sample.reorganised 100)) := .after .start (by decide +kernel)
  exact ⟨_, hreached, by decide +kernel, by decide +kernel, pending_gap_free hreached⟩

/-- The second transaction of the block cannot be paid any more, and the third one stays pending
behind the first one. -/
theorem pending_gap :
    ∃ pool, (machine Sample.config Sample.afterBlock).Reached (fun _ _ => True) pool ∧
      (pool.pendingTxs 0).map Tx.nonce = [0, 2] ∧ ¬ pool.GapFree := by
  have hreached : (machine Sample.config Sample.afterBlock).Reached (fun _ _ => True)
      ((machine Sample.config Sample.afterBlock).after Sample.afterBlock
        (Sample.reorganised 20)) := .after .start (by decide +kernel)
  generalize hpool : (machine Sample.config Sample.afterBlock).after Sample.afterBlock
    (Sample.reorganised 20) = pool at hreached
  have hpending : (pool.pendingTxs 0).map Tx.nonce = [0, 2] := by
    rw [← hpool]
    decide +kernel
  refine ⟨pool, hreached, hpending, fun hgapFree => ?_⟩
  unfold pendingTxs txsIn at hpending
  cases hlookup : pool.pending.lookup 0 with
  | none =>
    rw [hlookup] at hpending
    cases hpending
  | some list =>
    rw [hlookup] at hpending
    obtain ⟨-, hrun, -⟩ := hgapFree 0 list hlookup
    have hlength : list.txs.length = 2 := by simpa using congrArg List.length hpending
    rw [hpending, hlength] at hrun
    simp only [List.range'_succ, List.cons.injEq] at hrun
    omega

end TxPool.Pool

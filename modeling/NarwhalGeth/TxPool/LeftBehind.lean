import NarwhalGeth.TxPool.Runs

/-!
# Transactions left behind in the queue

A promotion takes all transactions that follow the pending ones of its account out of the queue. For
a reset the virtual nonces are first those of the state, so that what follows pending transactions
is not seen to be executable.
-/

namespace TxPool.Pool

section Invariants

variable {pool pool' : Pool} {addr other : Address} {tx : Tx} {moved : List Tx} {config : Config}
  {order : MapOrder} {now : ℕ} {accounts : List Address}

/-- No transaction in the queue of the account has its next pending nonce. -/
def LeavesNone (pool : Pool) (addr : Address) : Prop :=
  ∀ tx ∈ pool.queuedTxs addr, tx.nonce ≠ pool.pendingNonces.get addr

/-! ## Promotions -/

theorem executable_sorted (pool : Pool) (addr : Address) : Sorted (pool.executable addr) :=
  (txsIn_sorted pool.queue addr).filter _

theorem mem_remaining (htx : tx ∈ pool.remaining config addr) : tx ∈ pool.executable addr ∧
    (∀ up ∈ pool.promotable addr, up.nonce + 1 < tx.nonce) ∧
    (pool.promotable addr = [] → pool.pendingNonces.get addr < tx.nonce) := by
  have hleft : tx ∈ (pool.executable addr).drop (pool.promotable addr).length := by
    unfold remaining at htx
    dsimp only at htx
    split_ifs at htx
    · exact htx
    · exact List.mem_of_mem_take htx
  obtain ⟨hcontinues, hstart⟩ := TxList.readyRun_maximal (pool.executable_sorted addr) hleft
  refine ⟨List.mem_of_mem_drop hleft, fun up hup => ?_, hstart⟩
  have hsorted : Sorted (pool.promotable addr ++
      (pool.executable addr).drop (pool.promotable addr).length) := by
    unfold promotable
    rw [TxList.readyRun_append]
    exact pool.executable_sorted addr
  have hlt := (List.pairwise_append.mp hsorted).2.2 up hup tx hleft
  have hne := hcontinues up hup
  omega

theorem ne_nextNonce {last : Tx} (hne : tx.nonce ≠ last.nonce + 1) (hpos : 0 < tx.nonce) :
    tx.nonce ≠ last.nextNonce := by
  have hbound := last.nonce_lt
  unfold Tx.nextNonce
  omega

theorem PromotedAccount.leavesNone (h : PromotedAccount config pool pool' addr) :
    pool'.LeavesNone addr := by
  intro tx htx
  rw [h.queued, if_pos rfl] at htx
  obtain ⟨-, hafter, hstart⟩ := mem_remaining htx
  rw [h.nonces, if_pos rfl]
  cases hlast : (pool.promotable addr).getLast? with
  | none => exact (hstart (List.getLast?_eq_none_iff.mp hlast)).ne'
  | some last =>
    have hlt := hafter last (List.mem_of_getLast? hlast)
    exact ne_nextNonce hlt.ne' (by omega)

theorem Agrees.leavesNone_iff (h : Agrees pool pool' addr) :
    pool'.LeavesNone addr ↔ pool.LeavesNone addr := by
  rw [LeavesNone, h.queued, h.nonce, LeavesNone]

/-- Nothing is left behind in the accounts that are promoted, and the others stay as they are. -/
theorem promoteExecutables_leavesNone_iff (h : pool.Consistent) (addr : Address) :
    (pool.promoteExecutables config order now accounts).LeavesNone addr ↔
      addr ∈ accounts ∨ pool.LeavesNone addr := by
  induction accounts generalizing pool with
  | nil => simp [promoteExecutables]
  | cons first accounts ih =>
    rw [promoteExecutables_cons, ih (h.promoteAccount first), List.mem_cons, or_assoc]
    by_cases heq : addr = first
    · subst heq
      simp [(promoteAccount_spec h.partition).leavesNone]
    · rw [(promoteAccount_agrees h heq).leavesNone_iff]
      simp [heq]

/-! ## Truncation -/

/-- Nothing is left behind in any account of a consistent pool. -/
structure NoneLeft (pool : Pool) : Prop extends Consistent pool where
  leavesNone : ∀ addr, pool.LeavesNone addr

namespace NoneLeft

theorem removeTx (h : pool.NoneLeft) (hash : Hash) (outofbound : Bool) :
    (pool.removeTx config order now hash outofbound).2.NoneLeft := by
  refine h.removeTx_invariant h (fun pool' tx moved hconsistent hremoved _ =>
    ⟨hconsistent, fun addr tx' htx' => ?_⟩) hash outofbound
  rw [hremoved.nonces_get h.partition]
  rcases (hremoved.rearranged.queued addr tx').mp htx' with ⟨hqueued, -, -⟩ | ⟨hpending, hmoved⟩
  · have hne := h.leavesNone addr tx' hqueued
    split_ifs with htx
    · have hapart := h.partition.apart addr tx htx tx' hqueued
      omega
    · exact hne
  · -- What has moved to the queue comes after what was removed.
    obtain ⟨hsame, hlt⟩ := hremoved.after tx' hmoved
    have hsender : tx.sender = addr :=
      (h.partition.known _ _ (.inl hsame)).1.symm.trans (h.partition.known _ _ (.inl hpending)).1
    have htx : tx ∈ pool.pendingTxs addr := by
      by_contra hnot
      rw [(hremoved.queued (hsender ▸ hnot)).2] at hmoved
      cases hmoved
    rw [if_pos htx]
    omega

theorem capLast (h : pool.NoneLeft) (hlong : 1 < (pool.pendingTxs addr).length) :
    (pool.capLast order addr).NoneLeft := by
  refine ⟨h.toConsistent.capLast hlong, fun other tx htx => ?_⟩
  obtain ⟨last, hlast, hcapped⟩ := exists_cappedLast order h.partition hlong
  have hqueued : tx ∈ pool.queuedTxs other := by
    rwa [queuedTxs, hcapped.queue] at htx
  have hnone := h.leavesNone other tx hqueued
  rw [hcapped.nonces, noncer_get_setIfLower]
  split_ifs with hother
  · subst hother
    have hapart := h.partition.apart other last (List.mem_of_getLast? hlast) tx hqueued
    omega
  · exact hnone

theorem truncated (h : pool.NoneLeft) :
    ((pool.truncatePending config order).truncateQueue config order now).NoneLeft :=
  truncateQueue_invariant (fun _ hash h => h.removeTx hash true)
    (truncatePending_invariant (fun _ _ h hlong => h.capLast hlong) h)

end NoneLeft

/-! ## Resets -/

/-- The transaction is pending or promoted, and it stays so for the new state. -/
def StaysPending (pool : Pool) (addr : Address) (tx : Tx) : Prop :=
  pool.Stays addr (pool.pendingTxs addr ++ pool.promotable addr) tx

/-- What can be executed and is not promoted neither has the nonce of the state nor follows the last
one of those that stay pending. -/
def SeesNext (config : Config) (pool : Pool) (addr : Address) : Prop :=
  ∀ tx ∈ pool.remaining config addr, tx.nonce ≠ pool.currentState.getNonce addr ∧
    ∀ tx', pool.StaysPending addr tx' → tx.nonce = tx'.nonce + 1 →
      ∃ tx'', pool.StaysPending addr tx'' ∧ tx'.nonce < tx''.nonce

theorem le_of_getLast {txs : List Tx} {last : Tx} (hsorted : Sorted txs)
    (hlast : txs.getLast? = some last) (htx : tx ∈ txs) : tx.nonce ≤ last.nonce := by
  obtain ⟨init, rfl⟩ := List.getLast?_eq_some_iff.mp hlast
  rcases List.mem_append.mp htx with hinit | hmem
  · exact ((List.pairwise_append.mp hsorted).2.2 tx hinit last List.mem_cons_self).le
  · rw [List.mem_singleton.mp hmem]

/-- What is left behind for the pending lists that stay is what the promotion does not see. -/
theorem leavesNone_iff_seesNext {next : ℕ} {promoted demoted : Pool} (h : promoted.Consistent)
    (hframe : Frame pool promoted)
    (hpending : ∀ tx, tx ∈ promoted.pendingTxs addr ↔
      tx ∈ pool.pendingTxs addr ∨ tx ∈ pool.promotable addr)
    (hqueued : promoted.queuedTxs addr = pool.remaining config addr)
    (hdemoted : Demoted promoted demoted addr)
    (hnext : next = ((demoted.pendingTxs addr).getLast?.map Tx.nextNonce).getD
      (pool.currentState.getNonce addr)) :
    (∀ tx ∈ demoted.queuedTxs addr, tx.nonce ≠ next) ↔ pool.SeesNext config addr := by
  have hstays : ∀ tx, tx ∈ demoted.pendingTxs addr ↔ pool.StaysPending addr tx := fun tx => by
    rw [hdemoted.stays, StaysPending]
    simp only [Stays, payable, hpending, List.mem_append, hframe.state, hframe.maxGas]
  have hsorted := pendingTxs_sorted demoted addr
  have hdown := hdemoted.down
  rw [hframe.state, hqueued] at hdown
  constructor
  · intro hnone tx htx
    have hne := hnone tx (hdemoted.queued tx (hqueued ▸ htx))
    rw [hnext] at hne
    refine ⟨fun heq => ?_, fun tx' htx' heq => ?_⟩
    · cases hlast : (demoted.pendingTxs addr).getLast? with
      | none =>
        rw [hlast] at hne
        exact hne heq
      | some last =>
        -- The nonce of the state is pending, and so not queued.
        obtain ⟨-, -, ⟨first, hfirst, hnonce⟩, -⟩ :=
          (hdemoted.stays last).mp (List.mem_of_getLast? hlast)
        rw [hframe.state] at hnonce
        exact h.partition.apart addr first hfirst tx (hqueued ▸ htx) (hnonce.trans heq.symm)
    · have hmem := (hstays tx').mpr htx'
      obtain ⟨last, hlast⟩ : ∃ last, (demoted.pendingTxs addr).getLast? = some last :=
        ⟨_, List.getLast?_eq_some_getLast (List.ne_nil_of_mem hmem)⟩
      refine ⟨last, (hstays last).mp (List.mem_of_getLast? hlast),
        lt_of_le_of_ne (le_of_getLast hsorted hlast hmem) fun hsame => ?_⟩
      have hbound := tx.nonce_lt
      rw [hlast, Option.map_some, Option.getD_some, Tx.nextNonce, ← hsame,
        Nat.mod_eq_of_lt (heq ▸ hbound)] at hne
      exact hne heq
  · intro hsees tx htx
    rw [hnext]
    have hfollows : pool.currentState.getNonce addr < tx.nonce ∧
        ∀ last ∈ (demoted.pendingTxs addr).getLast?, tx.nonce ≠ last.nonce + 1 := by
      rcases hdown tx htx with hleft | ⟨hlow, hgap⟩
      · obtain ⟨hne, hlasts⟩ := hsees tx hleft
        refine ⟨lt_of_le_of_ne (mem_executable (mem_remaining hleft).1).2 hne.symm,
          fun last hlast heq => ?_⟩
        obtain ⟨tx', htx', hlt⟩ := hlasts last ((hstays last).mp (List.mem_of_getLast? hlast)) heq
        exact absurd (le_of_getLast hsorted hlast ((hstays tx').mpr htx')) (not_le.mpr hlt)
      · exact ⟨hlow, fun last hlast => (hgap last (List.mem_of_getLast? hlast)).ne'⟩
    cases hlast : (demoted.pendingTxs addr).getLast? with
    | none => exact hfollows.1.ne'
    | some last => exact ne_nextNonce (hfollows.2 last hlast) (Nat.zero_lt_of_lt hfollows.1)

theorem runReset_leavesNone_iff (h : pool.Consistent) (chain : Chain) (request : Reset)
    (addr : Address) : (pool.runReset config order now chain request).LeavesNone addr ↔
      (pool.reset config order now chain request).SeesNext config addr := by
  have hreset : (pool.reset config order now chain request).Consistent := h.reset chain request
  unfold Pool.runReset
  dsimp only
  generalize pool.reset config order now chain request = reset at hreset ⊢
  have hpromoted : (reset.promoteExecutables config order now
      (order.order reset.queue.keys)).Consistent := hreset.promoteExecutables _
  have hframe : Frame reset (reset.promoteExecutables config order now
      (order.order reset.queue.keys)) := promoteExecutables_frame reset _
  obtain ⟨hpending, hqueued⟩ : _ ∧ (reset.promoteExecutables config order now
    (order.order reset.queue.keys)).queuedTxs addr = _ := promoteExecutables_spec hreset addr
  generalize reset.promoteExecutables config order now _ = promoted
    at hpromoted hframe hpending hqueued ⊢
  have hdemoted : (promoted.demoteUnexecutables config order now).Consistent :=
    hpromoted.demoteUnexecutables
  have hframe' : Frame promoted (promoted.demoteUnexecutables config order now) :=
    demoteUnexecutables_frame promoted
  have hkept : Demoted promoted (promoted.demoteUnexecutables config order now) addr :=
    demoteUnexecutables_spec hpromoted addr
  generalize promoted.demoteUnexecutables config order now = demoted at hdemoted hframe' hkept ⊢
  have hnext : ((demoted.highestPending order).lookup addr).getD
      (demoted.pendingNonces.fallback addr) =
        ((demoted.pendingTxs addr).getLast?.map Tx.nextNonce).getD
          (reset.currentState.getNonce addr) := by
    rw [lookup_highestPending, hdemoted.fallback, hframe'.state, hframe.state]
  have hiff := leavesNone_iff_seesNext hpromoted hframe hpending hqueued hkept hnext
  exact hiff

/-- Without a reset, nothing was left behind in the accounts that are not promoted. With one, which
may have failed, the promotion sees the next transactions of all accounts. -/
def SeesAll (config : Config) (order : MapOrder) (now : ℕ) (chain : Chain) (request : Option Reset)
    (dirtyAccounts : List Address) (pool : Pool) : Prop :=
  match request with
  | none => ∀ addr ∈ pool.queue.keys, addr ∈ dirtyAccounts ∨ pool.LeavesNone addr
  | some request => ∀ addr ∈ (pool.reset config order now chain request).queue.keys,
    (pool.reset config order now chain request).SeesNext config addr

/-- The pool of a run before it is cut down to its limits. -/
def untruncated (config : Config) (order : MapOrder) (now : ℕ) (chain : Chain)
    (request : Option Reset) (dirtyAccounts : List Address) (pool : Pool) : Pool :=
  match request with
  | none => pool.promoteExecutables config order now dirtyAccounts
  | some request => pool.runReset config order now chain request

/-- Nothing is truncated. -/
def WithinLimits (config : Config) (pool : Pool) : Prop :=
  (pool.pending.values.map TxList.len).sum ≤ config.globalSlots ∧
    (pool.queue.values.map TxList.len).sum ≤ config.globalQueue

theorem WithinLimits.truncated (h : pool.WithinLimits config) :
    (pool.truncatePending config order).truncateQueue config order now = pool := by
  have hpending : pool.truncatePending config order = pool := if_pos h.1
  rw [hpending]
  exact if_pos h.2

theorem leavesNone_of_not_mem (h : addr ∉ pool.queue.keys) : pool.LeavesNone addr := by
  intro tx htx
  rw [queuedTxs, txsIn, AList.lookup_eq_none.mpr h] at htx
  cases htx

theorem untruncated_consistent (h : pool.Consistent) (chain : Chain) (request : Option Reset)
    (dirtyAccounts : List Address) :
    (pool.untruncated config order now chain request dirtyAccounts).Consistent := by
  cases request with
  | none => exact h.promoteExecutables dirtyAccounts
  | some request => exact h.runReset chain request

theorem untruncated_leavesNone_iff (h : pool.Consistent) (chain : Chain) (request : Option Reset)
    (dirtyAccounts : List Address) :
    (∀ addr, (pool.untruncated config order now chain request dirtyAccounts).LeavesNone addr) ↔
      pool.SeesAll config order now chain request dirtyAccounts := by
  cases request with
  | none =>
    refine (forall_congr' fun addr => promoteExecutables_leavesNone_iff h addr).trans
      ⟨fun hall addr _ => hall addr, fun hsees addr => ?_⟩
    by_cases haddr : addr ∈ pool.queue.keys
    · exact hsees addr haddr
    · exact .inr (leavesNone_of_not_mem haddr)
  | some request =>
    refine (forall_congr' fun addr => runReset_leavesNone_iff h chain request addr).trans
      ⟨fun hall addr _ => hall addr, fun hsees addr => ?_⟩
    by_cases haddr : addr ∈ (pool.reset config order now chain request).queue.keys
    · exact hsees addr haddr
    · intro tx htx
      have hnil : (pool.reset config order now chain request).queuedTxs addr = [] := by
        rw [queuedTxs, txsIn, AList.lookup_eq_none.mpr haddr]
      rw [(remaining_eq_nil hnil).2] at htx
      cases htx

/-- For every reachable pool, nothing is left behind before the truncations just if the run sees
all. Then nothing is left behind at the end either, and if nothing is truncated only then. -/
theorem none_left_behind {priceLimit gasLimit : ℕ} {locals : Finset Address} {statedb : StateDB}
    (h : (machine config (newTxPool priceLimit locals statedb gasLimit)).Reached
      (fun _ _ => True) pool) (order : MapOrder) (now : ℕ) (chain : Chain)
    (request : Option Reset) (dirtyAccounts : List Address) :
    ((∀ addr, (pool.untruncated config order now chain request dirtyAccounts).LeavesNone addr) ↔
      pool.SeesAll config order now chain request dirtyAccounts) ∧
    (pool.SeesAll config order now chain request dirtyAccounts →
      ∀ addr, (pool.runReorg config order now chain request dirtyAccounts).LeavesNone addr) ∧
    ((pool.untruncated config order now chain request dirtyAccounts).WithinLimits config →
      (∀ addr, (pool.runReorg config order now chain request dirtyAccounts).LeavesNone addr) →
      pool.SeesAll config order now chain request dirtyAccounts) := by
  have hconsistent := consistent_of_reached h
  have hiff : _ ↔ pool.SeesAll config order now chain request dirtyAccounts :=
    untruncated_leavesNone_iff hconsistent chain request dirtyAccounts
  have hrun : pool.runReorg config order now chain request dirtyAccounts =
      { ((pool.untruncated config order now chain request dirtyAccounts).truncatePending
        config order).truncateQueue config order now with changesSinceReorg := 0 } := rfl
  refine ⟨hiff, fun hsees addr => ?_, fun hlimits hnone => hiff.mp fun addr => ?_⟩
  · have hnone : (pool.untruncated config order now chain request dirtyAccounts).NoneLeft :=
      ⟨untruncated_consistent hconsistent chain request dirtyAccounts, hiff.mpr hsees⟩
    have htruncated : (((pool.untruncated config order now chain request
      dirtyAccounts).truncatePending config order).truncateQueue config order now).NoneLeft :=
      hnone.truncated
    rw [hrun]
    generalize Pool.truncateQueue _ _ _ _ = truncated at htruncated ⊢
    exact htruncated.leavesNone addr
  · have hresult := hnone addr
    rw [hrun, hlimits.truncated] at hresult
    exact hresult

end Invariants

namespace Sample

/-- No block is added, and the state stays. -/
def unchanged : Chain where
  getBlock _ _ := none
  stateAt _ := some (statedb 0 100)
  calcBaseFee _ := none

/-- The states are missing. -/
def stateless : Chain := { unchanged with stateAt := fun _ => none }

/-- A transaction is pending, and the next one was added after it. -/
def followed : Pool := (machine config start).after start
  [.add order 0 (tx 0 0 0 5) false, .runReorg order 1 unchanged none [0],
    .add order 2 (tx 1 0 1 5) false]

/-- The request for a reset that comes with the new transaction. -/
def request : Reset := ⟨none, ⟨1, 0, 1, 1, 10⟩⟩

end Sample

instance decidableLeavesNone (pool : Pool) (addr : Address) : Decidable (pool.LeavesNone addr) :=
  inferInstanceAs (Decidable (∀ tx ∈ pool.queuedTxs addr, _ ≠ _))

/-- Without a reset the new transaction is promoted, and also if the new state is missing. -/
theorem none_left_behind_sample :
    (machine Sample.config Sample.start).Reached (fun _ _ => True) Sample.followed ∧
      (Sample.followed.queuedTxs 0).map Tx.nonce = [1] ∧
      (∀ addr, (Sample.followed.runReorg Sample.config Sample.order 3 Sample.unchanged none
        [0]).LeavesNone addr) ∧
      ∀ addr, (Sample.followed.runReorg Sample.config Sample.order 3 Sample.stateless
        (some Sample.request) [0]).LeavesNone addr := by
  have hreached : (machine Sample.config Sample.start).Reached (fun _ _ => True)
      Sample.followed := .after .start (by decide +kernel)
  have hkeys : Sample.followed.queue.keys = [0] := by decide +kernel
  refine ⟨hreached, by decide +kernel, (none_left_behind hreached Sample.order 3 Sample.unchanged
    none [0]).2.1 fun addr haddr => .inl ?_, (none_left_behind hreached Sample.order 3
    Sample.stateless (some Sample.request) [0]).2.1 fun addr haddr tx htx => ?_⟩
  · rwa [hkeys] at haddr
  · have hnil : Sample.followed.remaining Sample.config 0 = [] := by decide +kernel
    have haddr : addr ∈ Sample.followed.queue.keys := haddr
    rw [hkeys, List.mem_singleton] at haddr
    subst haddr
    exact absurd htx (hnil ▸ List.not_mem_nil)

/-- If both requests come together, the new transaction stays in the queue. -/
theorem leaves_one_behind :
    (machine Sample.config Sample.start).Reached (fun _ _ => True) Sample.followed ∧
      let pool := Sample.followed.runReorg Sample.config Sample.order 3 Sample.unchanged
        (some Sample.request) [0]
      (pool.pendingTxs 0).map Tx.nonce = [0] ∧ (pool.queuedTxs 0).map Tx.nonce = [1] ∧
        ¬ pool.LeavesNone 0 :=
  ⟨.after .start (by decide +kernel), by decide +kernel, by decide +kernel, by decide +kernel⟩

end TxPool.Pool

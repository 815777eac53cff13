import NarwhalGeth.TxPool.Pool

/-!
# The pool is a partition

The lookup has exactly the transactions of the pending lists and the queues, and no nonce of an
account is in both of its lists. What the pool does with its transactions is to drop some and to
move others between the two lists of their account.
-/

namespace TxPool.Pool

structure Partition (pool : Pool) : Prop where
  keyed : pool.all.Keyed
  known : ∀ addr tx, tx ∈ pool.pendingTxs addr ∨ tx ∈ pool.queuedTxs addr →
    tx.sender = addr ∧ pool.all.get tx.hash = some tx
  placed : ∀ hash tx, pool.all.get hash = some tx →
    tx ∈ pool.pendingTxs tx.sender ∨ tx ∈ pool.queuedTxs tx.sender
  apart : ∀ addr, ∀ tx ∈ pool.pendingTxs addr, ∀ tx' ∈ pool.queuedTxs addr, tx.nonce ≠ tx'.nonce

/-- Some transactions are gone, and others have moved from a pending list down to the queue or up
from there. -/
structure Rearranged (pool pool' : Pool) (gone down up : List Tx) : Prop where
  keyed : pool.all.Keyed → pool'.all.Keyed
  get : ∀ hash tx, pool'.all.get hash = some tx ↔ pool.all.get hash = some tx ∧ tx ∉ gone
  pending : ∀ addr tx, tx ∈ pool'.pendingTxs addr ↔
    tx ∈ pool.pendingTxs addr ∧ tx ∉ gone ∧ tx ∉ down ∨ tx ∈ pool.queuedTxs addr ∧ tx ∈ up
  queued : ∀ addr tx, tx ∈ pool'.queuedTxs addr ↔
    tx ∈ pool.queuedTxs addr ∧ tx ∉ gone ∧ tx ∉ up ∨ tx ∈ pool.pendingTxs addr ∧ tx ∈ down
  kept : ∀ tx, tx ∈ down ∨ tx ∈ up → tx ∉ gone

theorem Rearranged.congr {pool pool' pool'' : Pool} {gone down up : List Tx}
    (h : Rearranged pool pool' gone down up) (hall : pool''.all = pool'.all)
    (hpending : pool''.pending = pool'.pending) (hqueue : pool''.queue = pool'.queue) :
    Rearranged pool pool'' gone down up where
  keyed := hall ▸ h.keyed
  get := hall ▸ h.get
  pending addr tx := by
    rw [pendingTxs, hpending]
    exact h.pending addr tx
  queued addr tx := by
    rw [queuedTxs, hqueue]
    exact h.queued addr tx
  kept := h.kept

variable {pool pool' : Pool} {gone down up : List Tx} {addr : Address} {tx tx' : Tx}

section Lists

variable {strict : Bool} {lists : Assoc Address (TxList strict)} {list : TxList strict}

theorem txsIn_sorted (lists : Assoc Address (TxList strict)) (addr : Address) :
    Sorted (txsIn lists addr) := by
  unfold txsIn
  cases lists.lookup addr with
  | none => exact .nil
  | some list => exact list.sorted

theorem txsIn_insert (other : Address) : txsIn (lists.insert addr list) other =
    if other = addr then list.txs else txsIn lists other := by
  unfold txsIn
  split_ifs with heq
  · subst heq
    rw [AList.lookup_insert]
  · rw [AList.lookup_insert_ne heq]

theorem txsIn_erase (other : Address) : txsIn (lists.erase addr) other =
    if other = addr then [] else txsIn lists other := by
  unfold txsIn
  split_ifs with heq
  · subst heq
    rw [AList.lookup_erase]
  · rw [AList.lookup_erase_ne heq]

theorem txsIn_putBack (other : Address) : txsIn (putBack lists addr list) other =
    if other = addr then list.txs else txsIn lists other := by
  unfold putBack
  by_cases hempty : list.empty = true
  · rw [if_pos hempty, txsIn_erase, List.isEmpty_iff.mp hempty]
  · rw [if_neg hempty, txsIn_insert]

theorem txsIn_of_lookup (h : lists.lookup addr = some list) : txsIn lists addr = list.txs := by
  rw [txsIn, h]

theorem txsIn_getD :
    ((lists.lookup addr).getD (.newList strict)).txs = txsIn lists addr := by
  unfold txsIn
  cases lists.lookup addr with
  | none => rfl
  | some list => rfl

end Lists

namespace Partition

theorem eq_of_nonce (h : pool.Partition)
    (htx : tx ∈ pool.pendingTxs addr ∨ tx ∈ pool.queuedTxs addr)
    (htx' : tx' ∈ pool.pendingTxs addr ∨ tx' ∈ pool.queuedTxs addr)
    (hnonce : tx.nonce = tx'.nonce) : tx = tx' := by
  rcases htx with htx | htx <;> rcases htx' with htx' | htx'
  · exact (txsIn_sorted pool.pending addr).eq_of_nonce htx htx' hnonce
  · exact absurd hnonce (h.apart addr tx htx tx' htx')
  · exact absurd hnonce.symm (h.apart addr tx' htx' tx htx)
  · exact (txsIn_sorted pool.queue addr).eq_of_nonce htx htx' hnonce

theorem not_queued (h : pool.Partition) (htx : tx ∈ pool.pendingTxs addr) :
    tx ∉ pool.queuedTxs addr :=
  fun hqueued => h.apart addr tx htx tx hqueued rfl

theorem rearranged (h : pool.Partition) (hstep : Rearranged pool pool' gone down up) :
    pool'.Partition := by
  have hunion : ∀ addr tx, tx ∈ pool'.pendingTxs addr ∨ tx ∈ pool'.queuedTxs addr →
      (tx ∈ pool.pendingTxs addr ∨ tx ∈ pool.queuedTxs addr) ∧ tx ∉ gone := by
    intro addr tx htx
    rw [hstep.pending, hstep.queued] at htx
    have := hstep.kept tx
    tauto
  constructor
  case keyed => exact hstep.keyed h.keyed
  case known =>
    intro addr tx htx
    obtain ⟨hmem, hkept⟩ := hunion addr tx htx
    obtain ⟨hsender, hget⟩ := h.known addr tx hmem
    exact ⟨hsender, (hstep.get _ _).mpr ⟨hget, hkept⟩⟩
  case placed =>
    intro hash tx hget
    obtain ⟨hold, hkept⟩ := (hstep.get _ _).mp hget
    have hmem := h.placed hash tx hold
    rw [hstep.pending, hstep.queued]
    tauto
  case apart =>
    intro addr tx htx tx' htx' hnonce
    have hsame := h.eq_of_nonce (hunion addr tx (.inl htx)).1 (hunion addr tx' (.inr htx')).1 hnonce
    subst hsame
    -- A transaction that is now in both lists would have been in both before.
    rw [hstep.pending] at htx
    rw [hstep.queued] at htx'
    have : tx ∈ pool.pendingTxs addr → tx ∉ pool.queuedTxs addr := h.not_queued
    tauto

/-- Only the lists of one account have changed, and what is gone was removed from the lookup. -/
theorem rearranged_of_account (h : pool.Partition) (addr : Address)
    (hall : pool'.all = pool.all.removeAll gone)
    (hothers : ∀ other ≠ addr, ∀ tx, (tx ∈ pool'.pendingTxs other ↔ tx ∈ pool.pendingTxs other) ∧
      (tx ∈ pool'.queuedTxs other ↔ tx ∈ pool.queuedTxs other))
    (hpending : ∀ tx, tx ∈ pool'.pendingTxs addr ↔
      tx ∈ pool.pendingTxs addr ∧ tx ∉ gone ∧ tx ∉ down ∨ tx ∈ up)
    (hqueued : ∀ tx, tx ∈ pool'.queuedTxs addr ↔
      tx ∈ pool.queuedTxs addr ∧ tx ∉ gone ∧ tx ∉ up ∨ tx ∈ down)
    (hgone : ∀ tx ∈ gone, tx ∈ pool.pendingTxs addr ∨ tx ∈ pool.queuedTxs addr)
    (hdown : ∀ tx ∈ down, tx ∈ pool.pendingTxs addr ∧ tx ∉ gone)
    (hup : ∀ tx ∈ up, tx ∈ pool.queuedTxs addr ∧ tx ∉ gone) :
    Rearranged pool pool' gone down up := by
  have hsender : ∀ tx, tx ∈ gone ∨ tx ∈ down ∨ tx ∈ up → tx.sender = addr := by
    rintro tx (htx | htx | htx)
    · exact (h.known addr tx (hgone tx htx)).1
    · exact (h.known addr tx (.inl (hdown tx htx).1)).1
    · exact (h.known addr tx (.inr (hup tx htx).1)).1
  constructor
  case keyed =>
    intro hkeyed
    rw [hall]
    exact hkeyed.removeAll gone
  case get =>
    intro hash tx
    rw [hall]
    exact h.keyed.get_removeAll_iff fun tx htx => (h.known addr tx (hgone tx htx)).2
  case pending =>
    intro other tx
    by_cases hother : other = addr
    · subst hother
      rw [hpending]
      have := hup tx
      tauto
    · rw [(hothers other hother tx).1]
      have hself : tx ∈ pool.pendingTxs other ∨ tx ∈ pool.queuedTxs other → tx.sender = other :=
        fun hmem => (h.known other tx hmem).1
      have := hsender tx
      grind
  case queued =>
    intro other tx
    by_cases hother : other = addr
    · subst hother
      rw [hqueued]
      have := hdown tx
      tauto
    · rw [(hothers other hother tx).2]
      have hself : tx ∈ pool.pendingTxs other ∨ tx ∈ pool.queuedTxs other → tx.sender = other :=
        fun hmem => (h.known other tx hmem).1
      have := hsender tx
      grind
  case kept =>
    rintro tx (htx | htx)
    · exact (hdown tx htx).2
    · exact (hup tx htx).2

end Partition

/-! ## Moving back to the queue -/

section Requeue

variable {config : Config} {order : MapOrder} {now : ℕ} {txs : List Tx}

/-- Only transactions were added to the queues. -/
structure Requeued (pool pool' : Pool) (txs : List Tx) : Prop where
  all : pool'.all = pool.all
  pending : pool'.pending = pool.pending
  nonces : pool'.pendingNonces = pool.pendingNonces
  state : pool'.currentState = pool.currentState
  queued : ∀ addr tx, tx ∈ pool'.queuedTxs addr ↔
    tx ∈ pool.queuedTxs addr ∨ tx ∈ txs ∧ tx.sender = addr

theorem requeue_spec (hfree : ∀ tx' ∈ pool.queuedTxs tx.sender, tx'.nonce ≠ tx.nonce) :
    Requeued pool (pool.requeue config order now tx) [tx] := by
  have hnone : ((pool.queue.lookup tx.sender).getD (.newList false)).get tx.nonce = none := by
    rw [TxList.get_eq_none_iff, txsIn_getD]
    exact hfree
  unfold requeue enqueueTx
  dsimp only
  rw [TxList.add_of_get_eq_none hnone]
  constructor
  case all => rfl
  case pending => rfl
  case nonces => rfl
  case state => rfl
  case queued =>
    intro addr tx'
    change tx' ∈ txsIn (pool.queue.insert tx.sender _) addr ↔ _
    rw [txsIn_insert, List.mem_singleton]
    split_ifs with haddr
    · subst haddr
      rw [TxList.mem_put, txsIn_getD]
      constructor
      · rintro (rfl | ⟨hmem, -⟩)
        · exact .inr ⟨rfl, rfl⟩
        · exact .inl hmem
      · rintro (hmem | ⟨rfl, -⟩)
        · exact .inr ⟨hmem, hfree tx' hmem⟩
        · exact .inl rfl
    · constructor
      · exact .inl
      · rintro (hmem | ⟨rfl, hsender⟩)
        · exact hmem
        · exact absurd hsender.symm haddr

theorem foldl_requeue_spec (hnonces : txs.Pairwise fun tx tx' => tx.nonce ≠ tx'.nonce)
    (hfree : ∀ tx ∈ txs, ∀ tx' ∈ pool.queuedTxs tx.sender, tx'.nonce ≠ tx.nonce) :
    Requeued pool (txs.foldl (requeue config order now) pool) txs := by
  induction txs generalizing pool with
  | nil => exact ⟨rfl, rfl, rfl, rfl, by simp⟩
  | cons tx txs ih =>
    obtain ⟨hfirst, hrest⟩ := List.pairwise_cons.mp hnonces
    have hstep : Requeued pool (pool.requeue config order now tx) [tx] :=
      requeue_spec (hfree tx List.mem_cons_self)
    have htail : Requeued (pool.requeue config order now tx)
        (txs.foldl (requeue config order now) (pool.requeue config order now tx)) txs := by
      refine ih hrest fun tx' htx' tx'' htx'' => ?_
      rcases (hstep.queued _ _).mp htx'' with hmem | ⟨hmem, -⟩
      · exact hfree tx' (List.mem_cons_of_mem _ htx') tx'' hmem
      · rw [List.mem_singleton.mp hmem]
        exact hfirst tx' htx'
    refine ⟨htail.all.trans hstep.all, htail.pending.trans hstep.pending,
      htail.nonces.trans hstep.nonces, htail.state.trans hstep.state, fun addr tx' => ?_⟩
    rw [List.foldl_cons, htail.queued, hstep.queued, List.mem_singleton, List.mem_cons,
      or_and_right, or_assoc]

end Requeue

/-! ## Removal -/

section Removal

variable {config : Config} {order : MapOrder} {now : ℕ} {hash : Hash} {list kept : TxList true}

/-- The pending transactions of an account are split into those that are gone, those that move to
the queue and those that are kept. -/
theorem demote_spec {base : Pool} (h : pool.Partition)
    (hlookup : pool.pending.lookup addr = some list) (hsplits : list.Splits (gone ++ down) kept)
    (hall : base.all = pool.all.removeAll gone) (hpending : base.pending = pool.pending)
    (hqueue : base.queue = pool.queue) :
    let pool' := base.demote config order now addr kept down
    Rearranged pool pool' gone down [] ∧ pool'.pendingNonces = base.pendingNonces ∧
      pool'.currentState = base.currentState := by
  intro pool'
  have hlist : pool.pendingTxs addr = list.txs := txsIn_of_lookup hlookup
  have hdown : ∀ tx ∈ down, tx ∈ pool.pendingTxs addr := fun tx htx => by
    rw [hlist, hsplits.mem]
    exact .inl (List.mem_append_right gone htx)
  obtain ⟨-, hnonces, hcross⟩ := List.pairwise_append.mp hsplits.nonces
  have hrequeued : Requeued (base.setPending addr kept) pool' down := by
    refine foldl_requeue_spec hnonces fun tx htx tx' htx' => ?_
    rw [(h.known addr tx (.inl (hdown tx htx))).1] at htx'
    rw [queuedTxs, setPending, hqueue] at htx'
    exact (h.apart addr tx (hdown tx htx) tx' htx').symm
  have hkept : ∀ other, pool'.pendingTxs other =
      if other = addr then kept.txs else pool.pendingTxs other := fun other => by
    rw [pendingTxs, hrequeued.pending, setPending, txsIn_putBack, hpending, ← pendingTxs]
  have hqueued : ∀ other tx, tx ∈ pool'.queuedTxs other ↔
      tx ∈ pool.queuedTxs other ∨ tx ∈ down ∧ tx.sender = other := fun other tx => by
    rw [hrequeued.queued]
    rw [queuedTxs, setPending, hqueue, ← queuedTxs]
  have hgone : ∀ tx ∈ gone, tx ∈ pool.pendingTxs addr := fun tx htx => by
    rw [hlist, hsplits.mem]
    exact .inl (List.mem_append_left down htx)
  refine ⟨h.rearranged_of_account addr (hrequeued.all.trans hall) ?_ ?_ ?_ ?_ ?_ ?_,
    hrequeued.nonces, hrequeued.state⟩
  · intro other hother tx
    rw [hkept, if_neg hother, hqueued]
    refine ⟨Iff.rfl, or_iff_left ?_⟩
    rintro ⟨htx, hsender⟩
    exact hother (hsender.symm.trans (h.known addr tx (.inl (hdown tx htx))).1)
  · intro tx
    have hmem := hsplits.mem tx
    have hdisjoint := hsplits.disjoint tx
    rw [List.mem_append] at hmem hdisjoint
    rw [hkept, if_pos rfl, hlist]
    simp only [List.not_mem_nil, or_false]
    tauto
  · intro tx
    rw [hqueued]
    constructor
    · rintro (htx | ⟨htx, -⟩)
      · exact .inl ⟨htx, fun hin => h.not_queued (hgone tx hin) htx, List.not_mem_nil⟩
      · exact .inr htx
    · rintro (⟨htx, -, -⟩ | htx)
      · exact .inl htx
      · exact .inr ⟨htx, (h.known addr tx (.inl (hdown tx htx))).1⟩
  · exact fun tx htx => .inl (hgone tx htx)
  · exact fun tx htx => ⟨hdown tx htx, fun hin => hcross tx hin tx htx rfl⟩
  · exact fun tx htx => by cases htx

/-- The queue of an account is split into those that are gone, those that become pending and those
that are kept. -/
theorem promote_spec {queued left : TxList false} (h : pool.Partition)
    (hlookup : pool.queue.lookup addr = some queued) (hsplits : queued.Splits (gone ++ up) left)
    (hall : pool'.all = pool.all.removeAll gone)
    (hqueue : pool'.queue = putBack pool.queue addr left)
    (hpending : ∀ other tx, tx ∈ pool'.pendingTxs other ↔
      tx ∈ pool.pendingTxs other ∨ tx ∈ up ∧ other = addr) :
    Rearranged pool pool' gone [] up := by
  have hlist : pool.queuedTxs addr = queued.txs := txsIn_of_lookup hlookup
  have hleft : ∀ other, pool'.queuedTxs other =
      if other = addr then left.txs else pool.queuedTxs other := fun other => by
    rw [queuedTxs, hqueue, txsIn_putBack, ← queuedTxs]
  have htaken : ∀ tx ∈ gone ++ up, tx ∈ pool.queuedTxs addr := fun tx htx => by
    rw [hlist, hsplits.mem]
    exact .inl htx
  obtain ⟨-, -, hcross⟩ := List.pairwise_append.mp hsplits.nonces
  refine h.rearranged_of_account addr hall ?_ ?_ ?_ ?_ ?_ ?_
  · intro other hother tx
    rw [hleft, if_neg hother, hpending]
    exact ⟨or_iff_left fun hup => hother hup.2, Iff.rfl⟩
  · intro tx
    rw [hpending]
    constructor
    · rintro (htx | ⟨htx, -⟩)
      · refine .inl ⟨htx, fun hin => ?_, List.not_mem_nil⟩
        exact h.not_queued htx (htaken tx (List.mem_append_left up hin))
      · exact .inr htx
    · rintro (⟨htx, -, -⟩ | htx)
      · exact .inl htx
      · exact .inr ⟨htx, rfl⟩
  · intro tx
    have hmem := hsplits.mem tx
    have hdisjoint := hsplits.disjoint tx
    rw [List.mem_append] at hmem hdisjoint
    rw [hleft, if_pos rfl, hlist]
    simp only [List.not_mem_nil, or_false]
    tauto
  · exact fun tx htx => .inr (htaken tx (List.mem_append_left up htx))
  · exact fun tx htx => by cases htx
  · exact fun tx htx => ⟨htaken tx (List.mem_append_right gone htx),
      fun hin => hcross tx hin tx htx rfl⟩

/-- The removed transaction is gone, and what was pending after it is queued. -/
structure Removed (pool pool' : Pool) (tx : Tx) (moved : List Tx) : Prop where
  rearranged : Rearranged pool pool' [tx] moved []
  after : ∀ tx' ∈ moved, tx' ∈ pool.pendingTxs tx.sender ∧ tx.nonce < tx'.nonce
  state : pool'.currentState = pool.currentState
  pending : tx ∈ pool.pendingTxs tx.sender →
    pool'.pendingNonces = pool.pendingNonces.setIfLower tx.sender tx.nonce ∧
      ∀ tx' ∈ pool'.pendingTxs tx.sender, tx'.nonce < tx.nonce
  queued : tx ∉ pool.pendingTxs tx.sender → pool'.pendingNonces = pool.pendingNonces ∧ moved = []

theorem removeTx_spec (h : pool.Partition) (hget : pool.all.get hash = some tx)
    (outofbound : Bool) :
    ∃ moved, Removed pool (pool.removeTx config order now hash outofbound).2 tx moved := by
  have hmem := h.placed hash tx hget
  obtain rfl := h.keyed.hash_of_get hget
  unfold removeTx
  rw [hget]
  dsimp only
  generalize hpriced : (if outofbound = true then _ else pool.priced) = priced
  cases hremove : (pool.pending.lookup tx.sender).bind fun pending => pending.remove tx with
  | some removed =>
    obtain ⟨invalids, kept⟩ := removed
    obtain ⟨list, hlookup, hremoved⟩ := Option.bind_eq_some_iff.mp hremove
    obtain ⟨old, hold, hnonce, hsplits, hafter, hbelow, -⟩ := TxList.remove_eq_some hremoved
    have hlist : pool.pendingTxs tx.sender = list.txs := txsIn_of_lookup hlookup
    obtain rfl : old = tx := h.eq_of_nonce (.inl (hlist ▸ hold)) hmem hnonce
    let base : Pool := { pool with all := pool.all.remove old.hash, priced }
    obtain ⟨hrearranged, hnonces, hstate⟩ :
        Rearranged pool (base.demote config order now old.sender kept invalids) [old] invalids [] ∧
          _ ∧ _ :=
      demote_spec h hlookup hsplits rfl rfl rfl
    refine ⟨invalids, hrearranged.congr rfl rfl rfl, fun tx' htx' => ⟨?_, hafter tx' htx'⟩, hstate,
      fun _ => ⟨?_, fun tx' htx' => hbelow rfl tx' ?_⟩, fun hnot => absurd (hlist ▸ hold) hnot⟩
    · rw [hlist, hsplits.mem]
      exact .inl (List.mem_cons_of_mem _ htx')
    · exact congrArg (Noncer.setIfLower · old.sender old.nonce) hnonces
    · have hmem' := (hrearranged.pending old.sender tx').mp htx'
      rw [hlist, hsplits.mem] at hmem'
      simp only [List.mem_cons, List.not_mem_nil, or_false, and_false] at hmem'
      tauto
  | none =>
    -- The transaction is not pending, so that it is in the queue.
    have hnot : ∀ tx' ∈ pool.pendingTxs tx.sender, tx'.nonce ≠ tx.nonce := by
      unfold pendingTxs txsIn
      cases hlookup : pool.pending.lookup tx.sender with
      | none => exact fun tx' htx' => by cases htx'
      | some list =>
        rw [hlookup] at hremove
        exact TxList.remove_eq_none_iff.mp hremove
    have hqueued := hmem.resolve_left fun hpending => hnot tx hpending rfl
    unfold queuedTxs txsIn at hqueued
    dsimp only
    cases hlookup : pool.queue.lookup tx.sender with
    | none =>
      rw [hlookup] at hqueued
      cases hqueued
    | some future =>
      rw [hlookup] at hqueued
      cases hremoved : future.remove tx with
      | none => exact absurd rfl (TxList.remove_eq_none_iff.mp hremoved tx hqueued)
      | some removed =>
        obtain ⟨invalids, left⟩ := removed
        obtain ⟨old, hold, hnonce, hsplits, -, -, hnone⟩ := TxList.remove_eq_some hremoved
        obtain rfl := future.sorted.eq_of_nonce hold hqueued hnonce
        rw [hnone rfl] at hsplits
        dsimp only
        rw [hremoved]
        refine ⟨[], promote_spec h hlookup hsplits rfl rfl fun other tx' => ?_,
          fun tx' htx' => (by cases htx'), rfl, fun hpending => ?_, fun _ => ⟨rfl, rfl⟩⟩
        · exact (or_iff_left fun hup => List.not_mem_nil hup.1).symm
        · exact absurd rfl (hnot _ hpending)

theorem removeTx_of_get_eq_none (h : pool.all.get hash = none) (outofbound : Bool) :
    (pool.removeTx config order now hash outofbound).2 = pool := by
  rw [removeTx, h]

end Removal

/-! ## Insertion -/

section Insertion

variable {config : Config} {order : MapOrder} {now : ℕ}

/-- A transaction has come into one of the lists of its account, in place of the old one with its
nonce. -/
structure Inserted (pool pool' : Pool) (tx : Tx) (toPending : Prop) : Prop where
  keyed : pool'.all.Keyed
  get : ∀ hash tx', pool'.all.get hash = some tx' ↔
    hash = tx.hash ∧ tx' = tx ∨ pool.all.get hash = some tx' ∧ ¬ tx'.SameNonce tx
  pending : ∀ addr tx', tx' ∈ pool'.pendingTxs addr ↔
    tx' ∈ pool.pendingTxs addr ∧ ¬ tx'.SameNonce tx ∨ tx' = tx ∧ addr = tx.sender ∧ toPending
  queued : ∀ addr tx', tx' ∈ pool'.queuedTxs addr ↔
    tx' ∈ pool.queuedTxs addr ∧ ¬ tx'.SameNonce tx ∨ tx' = tx ∧ addr = tx.sender ∧ ¬ toPending

theorem Partition.inserted {toPending : Prop} (h : pool.Partition)
    (hstep : Inserted pool pool' tx toPending) : pool'.Partition := by
  have hunion : ∀ addr tx', tx' ∈ pool'.pendingTxs addr ∨ tx' ∈ pool'.queuedTxs addr →
      (tx' ∈ pool.pendingTxs addr ∨ tx' ∈ pool.queuedTxs addr) ∧ ¬ tx'.SameNonce tx ∨
        tx' = tx ∧ addr = tx.sender := by
    intro addr tx' htx'
    rw [hstep.pending, hstep.queued] at htx'
    tauto
  constructor
  case keyed => exact hstep.keyed
  case known =>
    intro addr tx' htx'
    rcases hunion addr tx' htx' with ⟨hmem, hold⟩ | ⟨rfl, rfl⟩
    · obtain ⟨hsender, hget⟩ := h.known addr tx' hmem
      exact ⟨hsender, (hstep.get _ _).mpr (.inr ⟨hget, hold⟩)⟩
    · exact ⟨rfl, (hstep.get _ _).mpr (.inl ⟨rfl, rfl⟩)⟩
  case placed =>
    intro hash tx' hget
    rw [hstep.pending, hstep.queued]
    rcases (hstep.get hash tx').mp hget with ⟨-, rfl⟩ | ⟨hold, hne⟩
    · by_cases hto : toPending
      · exact .inl (.inr ⟨rfl, rfl, hto⟩)
      · exact .inr (.inr ⟨rfl, rfl, hto⟩)
    · exact (h.placed hash tx' hold).imp (fun hmem => .inl ⟨hmem, hne⟩) fun hmem => .inl ⟨hmem, hne⟩
  case apart =>
    intro addr tx₁ htx₁ tx₂ htx₂ hnonce
    rcases (hstep.pending addr tx₁).mp htx₁ with ⟨hmem₁, hne₁⟩ | ⟨rfl, haddr, hto⟩ <;>
      rcases (hstep.queued addr tx₂).mp htx₂ with ⟨hmem₂, hne₂⟩ | ⟨rfl, haddr', hnot⟩
    · exact h.apart addr tx₁ hmem₁ tx₂ hmem₂ hnonce
    · exact hne₁ ⟨(h.known addr tx₁ (.inl hmem₁)).1.trans haddr', hnonce⟩
    · exact hne₂ ⟨(h.known addr tx₂ (.inr hmem₂)).1.trans haddr, hnonce.symm⟩
    · exact hnot hto

end Insertion

end TxPool.Pool

import Mathlib.Algebra.BigOperators.Group.List.Basic
import NarwhalGeth.TxPool.Moves

/-!
# Admission to the pool

A new transaction is inserted after room was made for it. The insertion is the last step, and it
fails if an old transaction with the same nonce is not outbid.
-/

namespace TxPool

/-! ## Slots -/

namespace Lookup

variable {t t' : Lookup} {tx : Tx}

def contents (t : Lookup) : List Tx := t.locals.values ++ t.remotes.values

def totalSlots (t : Lookup) : ℤ := (t.contents.map fun tx => (tx.numSlots : ℤ)).sum

/-- The slots are those of all the transactions. -/
def Counted (t : Lookup) : Prop := t.slots = t.totalSlots

theorem Keyed.mem_contents (h : t.Keyed) : tx ∈ t.contents ↔ t.get tx.hash = some tx := by
  rw [contents, List.mem_append, Assoc.mem_values_iff, Assoc.mem_values_iff, get_eq_some_iff]
  constructor
  · rintro (⟨hash, hlocal⟩ | ⟨hash, hremote⟩)
    · rw [h.locals hash tx hlocal]
      exact .inl hlocal
    · rw [h.remotes hash tx hremote]
      exact .inr ⟨h.disjoint hash tx hremote, hremote⟩
  · rintro (hlocal | ⟨-, hremote⟩)
    · exact .inl ⟨tx.hash, hlocal⟩
    · exact .inr ⟨tx.hash, hremote⟩

theorem Keyed.contents_nodup (h : t.Keyed) : t.contents.Nodup := by
  have hlocals := (Assoc.values_map_nodup Tx.hash h.locals).of_map
  have hremotes := (Assoc.values_map_nodup Tx.hash h.remotes).of_map
  refine List.nodup_append.mpr ⟨hlocals, hremotes, fun tx htx tx' htx' heq => ?_⟩
  subst heq
  obtain ⟨hash, hlocal⟩ := Assoc.mem_values_iff.mp htx
  obtain ⟨hash', hremote⟩ := Assoc.mem_values_iff.mp htx'
  have hnone := h.disjoint hash' tx hremote
  rw [← h.remotes hash' tx hremote, h.locals hash tx hlocal, hlocal] at hnone
  cases hnone

theorem Keyed.totalSlots_congr (h : t.Keyed) (h' : t'.Keyed)
    (hget : ∀ hash, t'.get hash = t.get hash) : t'.totalSlots = t.totalSlots := by
  have hperm : t'.contents.Perm t.contents :=
    (List.perm_ext_iff_of_nodup h'.contents_nodup h.contents_nodup).mpr fun tx => by
      rw [h'.mem_contents, h.mem_contents, hget]
  exact (hperm.map _).sum_eq

theorem Keyed.totalSlots_insert (h : t.Keyed) (h' : t'.Keyed) (hnew : t.get tx.hash = none)
    (hget : ∀ hash, t'.get hash = if hash = tx.hash then some tx else t.get hash) :
    t'.totalSlots = tx.numSlots + t.totalSlots := by
  have hfresh : tx ∉ t.contents := fun hmem => by
    rw [h.mem_contents, hnew] at hmem
    cases hmem
  have hperm : t'.contents.Perm (tx :: t.contents) := by
    refine (List.perm_ext_iff_of_nodup h'.contents_nodup
      (List.nodup_cons.mpr ⟨hfresh, h.contents_nodup⟩)).mpr fun tx' => ?_
    rw [h'.mem_contents, List.mem_cons, h.mem_contents, hget]
    split_ifs with heq
    · rw [heq, hnew]
      simp [eq_comm]
    · exact (or_iff_right fun hsame => heq (congrArg Tx.hash hsame)).symm
  unfold totalSlots
  rw [(hperm.map _).sum_eq, List.map_cons, List.sum_cons]

theorem Counted.add (h : t.Counted) (hkeyed : t.Keyed) (hnew : t.get tx.hash = none)
    (isLocal : Bool) : (t.add tx isLocal).Counted := by
  have hslots : (t.add tx isLocal).slots = t.slots + tx.numSlots := by
    unfold Lookup.add
    split_ifs <;> rfl
  unfold Counted
  have htotal := hkeyed.totalSlots_insert (hkeyed.add hnew isLocal) hnew fun hash =>
    get_add hnew isLocal
  rw [hslots, htotal, h, add_comm]

theorem Counted.remove (h : t.Counted) (hkeyed : t.Keyed) (hash : Hash) :
    (t.remove hash).Counted := by
  cases hget : t.get hash with
  | none =>
    have hsame : t.remove hash = t := by rw [Lookup.remove, hget]
    rwa [hsame]
  | some tx =>
    obtain rfl := hkeyed.hash_of_get hget
    have hslots : (t.remove tx.hash).slots = t.slots - tx.numSlots := by
      rw [Lookup.remove, hget]
    have htotal := (hkeyed.remove tx.hash).totalSlots_insert hkeyed
      (get_remove.trans (if_pos rfl)) fun other => ?_
    · unfold Counted
      rw [hslots, h, htotal, add_sub_cancel_left]
    · rw [get_remove]
      split_ifs with heq
      · rw [heq, hget]
      · rfl

theorem Counted.foldl_remove (h : t.Counted) (hkeyed : t.Keyed) (hashes : List Hash) :
    (hashes.foldl Lookup.remove t).Counted := by
  induction hashes generalizing t with
  | nil => exact h
  | cons hash hashes ih => exact ih (h.remove hkeyed hash) (hkeyed.remove hash)

theorem Counted.remoteToLocals (h : t.Counted) (hkeyed : t.Keyed) (locals : Finset Address) :
    (t.remoteToLocals locals).2.Counted := by
  obtain ⟨hkeyed', hget⟩ := hkeyed.remoteToLocals locals
  exact h.trans (hkeyed.totalSlots_congr hkeyed' hget).symm

end Lookup

namespace Pool

variable {pool pool' : Pool} {addr : Address} {tx tx' : Tx} {config : Config} {order : MapOrder}
  {now : ℕ} {I : Pool → Prop} {drop : List Tx} {all' : Lookup}

/-! ## Insertion -/

/-- The lookup with a transaction in place of the old one with its nonce. -/
structure Entered (all all' : Lookup) (tx : Tx) : Prop where
  keyed : all'.Keyed
  get : ∀ hash tx', all'.get hash = some tx' ↔
    hash = tx.hash ∧ tx' = tx ∨ all.get hash = some tx' ∧ ¬ tx'.SameNonce tx
  counted : all.Counted → all'.Counted

theorem Entered.remoteToLocals {all : Lookup} (h : Entered all all' tx) (locals : Finset Address) :
    Entered all (all'.remoteToLocals locals).2 tx := by
  obtain ⟨hkeyed, hget⟩ := h.keyed.remoteToLocals locals
  refine ⟨hkeyed, fun hash tx' => ?_, fun hcounted => ?_⟩
  · rw [hget]
    exact h.get hash tx'
  · exact (h.counted hcounted).remoteToLocals h.keyed locals

theorem entered_of_old {old : Option Tx} (h : pool.Partition) (hnew : pool.all.get tx.hash = none)
    (hold : ∀ tx', old = some tx' ↔
      (tx' ∈ pool.pendingTxs tx.sender ∨ tx' ∈ pool.queuedTxs tx.sender) ∧ tx'.nonce = tx.nonce)
    (isLocal : Bool) (hall : all' = (old.elim pool.all fun old => pool.all.remove old.hash).add tx
      isLocal) : Entered pool.all all' tx := by
  have hsame : ∀ hash tx', pool.all.get hash = some tx' → (tx'.SameNonce tx ↔ old = some tx') := by
    intro hash tx' hget
    rw [hold]
    constructor
    · rintro ⟨hsender, hnonce⟩
      exact ⟨hsender ▸ h.placed hash tx' hget, hnonce⟩
    · rintro ⟨hmem, hnonce⟩
      exact ⟨(h.known _ _ hmem).1, hnonce⟩
  subst hall
  cases old with
  | none =>
    refine ⟨h.keyed.add hnew isLocal, fun hash tx' => ?_, fun hcounted =>
      hcounted.add h.keyed hnew isLocal⟩
    change (pool.all.add tx isLocal).get hash = _ ↔ _
    rw [Lookup.get_add hnew]
    have := hsame hash tx'
    split_ifs with heq
    · rw [heq, hnew]
      simp [eq_comm]
    · simp only [heq, false_and, false_or]
      exact (and_iff_left_of_imp fun hget hnonce => by cases (this hget).mp hnonce).symm
  | some old =>
    have hget : pool.all.get old.hash = some old := (h.known _ _ ((hold old).mp rfl).1).2
    have hnew' : (pool.all.remove old.hash).get tx.hash = none := by
      rw [Lookup.get_remove]
      split_ifs
      · rfl
      · exact hnew
    have hkeyed := h.keyed.remove old.hash
    refine ⟨hkeyed.add hnew' isLocal, fun hash tx' => ?_, fun hcounted =>
      (hcounted.remove h.keyed old.hash).add hkeyed hnew' isLocal⟩
    change ((pool.all.remove old.hash).add tx isLocal).get hash = _ ↔ _
    rw [Lookup.get_add hnew', Lookup.get_remove]
    have := hsame hash tx'
    split_ifs with heq heq'
    · rw [heq, hnew]
      simp [eq_comm]
    · rw [heq', hget]
      rw [heq', hget] at this
      grind
    · have hhash : pool.all.get hash = some tx' → tx'.hash = hash := h.keyed.hash_of_get
      grind

/-- An old transaction of the same nonce is not outbid. -/
def Blocked (config : Config) (pool : Pool) (tx : Tx) : Prop :=
  ∃ old, (old ∈ pool.pendingTxs tx.sender ∨ old ∈ pool.queuedTxs tx.sender) ∧
    old.nonce = tx.nonce ∧ tx.outbids old config.priceBump = false

/-- The transaction has come into the pending list of its account if this had the nonce, and into
its queue otherwise. -/
structure Accepted (pool pool' : Pool) (tx : Tx) : Prop where
  inserted : Inserted pool pool' tx (∃ old ∈ pool.pendingTxs tx.sender, old.nonce = tx.nonce)
  counted : pool.all.Counted → pool'.all.Counted
  state : pool'.currentState = pool.currentState
  maxGas : pool'.currentMaxGas = pool.currentMaxGas
  nonces : pool'.pendingNonces = pool.pendingNonces
  held : pool.NoEmpty → pool'.NoEmpty

section Lists

variable {strict : Bool} {lists lists' : Assoc Address (TxList strict)} {list : TxList strict}

theorem mem_txsIn_put (hlist : list.txs = txsIn lists tx.sender)
    (hsender : ∀ addr, ∀ tx' ∈ txsIn lists addr, tx'.sender = addr) (addr : Address) (tx' : Tx) :
    tx' ∈ txsIn (lists.insert tx.sender (list.put tx)) addr ↔
      tx' ∈ txsIn lists addr ∧ ¬ tx'.SameNonce tx ∨ tx' = tx ∧ addr = tx.sender := by
  have hmem := hsender addr tx'
  rw [txsIn_insert]
  split_ifs with haddr
  · rw [TxList.mem_put, hlist, haddr]
    rw [haddr] at hmem
    unfold Tx.SameNonce
    tauto
  · unfold Tx.SameNonce
    constructor
    · exact fun htx => .inl ⟨htx, fun hsame => haddr ((hmem htx).symm.trans hsame.1)⟩
    · rintro (⟨htx, -⟩ | ⟨-, heq⟩)
      · exact htx
      · exact absurd heq haddr

theorem mem_txsIn_free (hsender : ∀ addr, ∀ tx' ∈ txsIn lists addr, tx'.sender = addr)
    (hfree : ∀ tx' ∈ txsIn lists tx.sender, tx'.nonce ≠ tx.nonce) (addr : Address) (tx' : Tx) :
    tx' ∈ txsIn lists addr ↔ tx' ∈ txsIn lists addr ∧ ¬ tx'.SameNonce tx := by
  refine (and_iff_left_of_imp fun htx hsame => ?_).symm
  obtain rfl : addr = tx.sender := (hsender addr tx' htx).symm.trans hsame.1
  exact hfree tx' htx hsame.2

end Lists

theorem discardOld_all (order : MapOrder) (pool : Pool) (old : Option Tx) :
    (pool.discardOld order old).all = old.elim pool.all fun old => pool.all.remove old.hash := by
  cases old with
  | none => rfl
  | some old => rfl

/-- The insertion fails and leaves the pool as it is, or the transaction is accepted. -/
def Decided (config : Config) (pool : Pool) (tx : Tx) (result : Except Error Bool × Pool) : Prop :=
  pool.Blocked config tx ∧ result = (.error .replaceUnderpriced, pool) ∨
    ¬ pool.Blocked config tx ∧ ∃ replaced pool', result = (.ok replaced, pool') ∧
      Accepted pool pool' tx

theorem insertTx_pending {list : TxList true} (fromLocal isLocal : Bool) (h : pool.Partition)
    (hnew : pool.all.get tx.hash = none) (hlookup : pool.pending.lookup tx.sender = some list)
    (hcontains : list.contains tx.nonce = true) :
    pool.Decided config tx (pool.insertTx config order now tx fromLocal isLocal) := by
  have hlist : pool.pendingTxs tx.sender = list.txs := txsIn_of_lookup hlookup
  obtain ⟨first, hfirst, hnonce⟩ := TxList.contains_iff.mp hcontains
  have hpending : first ∈ pool.pendingTxs tx.sender := hlist ▸ hfirst
  have honly : ∀ old, (old ∈ pool.pendingTxs tx.sender ∨ old ∈ pool.queuedTxs tx.sender) →
      old.nonce = tx.nonce → old = first := fun old hold heq =>
    h.eq_of_nonce hold (.inl hpending) (heq.trans hnonce.symm)
  have hexists : ∃ old ∈ pool.pendingTxs tx.sender, old.nonce = tx.nonce :=
    ⟨first, hpending, hnonce⟩
  unfold insertTx
  rw [hlookup, Option.filter_some, if_pos hcontains]
  dsimp only
  cases hadd : list.add tx config.priceBump with
  | none =>
    obtain ⟨old, hold, hsame, hlow⟩ := TxList.add_eq_none_iff.mp hadd
    exact .inl ⟨⟨old, .inl (hlist ▸ hold), hsame, hlow⟩, rfl⟩
  | some added =>
    obtain ⟨old, list'⟩ := added
    obtain ⟨hold, hput⟩ := TxList.add_eq_some hadd
    rw [TxList.get_eq_some_iff.mpr ⟨hfirst, hnonce⟩] at hold
    subst hold hput
    have hentered : Entered pool.all ((pool.all.remove first.hash).add tx isLocal) tx := by
      have hold : ∀ tx', some first = some tx' ↔
          (tx' ∈ pool.pendingTxs tx.sender ∨ tx' ∈ pool.queuedTxs tx.sender) ∧
            tx'.nonce = tx.nonce := fun tx' => ?_
      · exact entered_of_old h hnew hold isLocal rfl
      constructor
      · rintro ⟨⟩
        exact ⟨.inl hpending, hnonce⟩
      · rintro ⟨hmem, heq⟩
        rw [honly tx' hmem heq]
    have hfree : ∀ tx' ∈ pool.queuedTxs tx.sender, tx'.nonce ≠ tx.nonce := fun tx' htx' heq =>
      h.apart _ first hpending tx' htx' (hnonce.trans heq.symm)
    refine .inr ⟨?_, _, _, rfl, ⟨hentered.keyed, hentered.get, fun addr tx' => ?_,
      fun addr tx' => ?_⟩, hentered.counted, rfl, rfl, rfl, fun hheld other list' hother => ?_⟩
    · rintro ⟨old, hmem, hsame, hlow⟩
      rw [honly old hmem hsame] at hlow
      rw [TxList.add_eq_none_iff.mpr ⟨first, hfirst, hnonce, hlow⟩] at hadd
      cases hadd
    · rw [and_iff_left hexists]
      exact mem_txsIn_put hlist.symm (fun addr tx' htx' => (h.known addr tx' (.inl htx')).1) addr
        tx'
    · rw [or_iff_left fun hqueued => hqueued.2.2 hexists]
      exact mem_txsIn_free (fun addr tx' htx' => (h.known addr tx' (.inr htx')).1) hfree addr tx'
    · rcases Assoc.lookup_insert_cases hother with ⟨-, rfl⟩ | hprev
      · exact List.ne_nil_of_mem (TxList.mem_put.mpr (.inl rfl))
      · exact hheld other list' hprev

theorem markLocal_frame (pool : Pool) (addr : Address) :
    let pool' := pool.markLocal order addr
    (pool'.all = pool.all ∨ ∃ locals, pool'.all = (pool.all.remoteToLocals locals).2) ∧
      pool'.pending = pool.pending ∧ pool'.queue = pool.queue ∧
      pool'.pendingNonces = pool.pendingNonces ∧ pool'.currentState = pool.currentState ∧
      pool'.currentMaxGas = pool.currentMaxGas := by
  unfold markLocal
  split_ifs
  · exact ⟨.inl rfl, rfl, rfl, rfl, rfl, rfl⟩
  · exact ⟨.inr ⟨_, rfl⟩, rfl, rfl, rfl, rfl, rfl⟩

theorem Accepted.markLocal (h : Accepted pool pool' tx) (addr : Address) :
    Accepted pool (pool'.markLocal order addr) tx := by
  obtain ⟨hall, hpending, hqueue, hnonces, hstate, hmaxGas⟩ := markLocal_frame pool' addr
  have hentered : Entered pool.all (pool'.markLocal order addr).all tx := by
    have hbefore : Entered pool.all pool'.all tx := ⟨h.inserted.keyed, h.inserted.get, h.counted⟩
    rcases hall with hall | ⟨locals, hall⟩
    · rwa [hall]
    · rw [hall]
      exact hbefore.remoteToLocals locals
  refine ⟨⟨hentered.keyed, hentered.get, fun addr tx' => ?_, fun addr tx' => ?_⟩, hentered.counted,
    hstate.trans h.state, hmaxGas.trans h.maxGas, hnonces.trans h.nonces, fun hheld => ?_⟩
  · rw [pendingTxs, hpending]
    exact h.inserted.pending addr tx'
  · rw [queuedTxs, hqueue]
    exact h.inserted.queued addr tx'
  · rw [NoEmpty, hpending]
    exact h.held hheld

theorem insertTx_queue (fromLocal isLocal : Bool) (h : pool.Partition)
    (hnew : pool.all.get tx.hash = none)
    (hfree : ∀ tx' ∈ pool.pendingTxs tx.sender, tx'.nonce ≠ tx.nonce) :
    pool.Decided config tx (pool.insertTx config order now tx fromLocal isLocal) := by
  have hnone : ((pool.pending.lookup tx.sender).filter fun list => list.contains tx.nonce) =
      none := by
    cases hlookup : pool.pending.lookup tx.sender with
    | none => rfl
    | some list =>
      rw [Option.filter_some, if_neg]
      intro hcontains
      obtain ⟨old, hold, heq⟩ := TxList.contains_iff.mp hcontains
      rw [pendingTxs, txsIn_of_lookup hlookup] at hfree
      exact hfree old hold heq
  have hlist : ((pool.queue.lookup tx.sender).getD (.newList false)).txs =
      pool.queuedTxs tx.sender := txsIn_getD
  unfold insertTx enqueueTx
  rw [hnone]
  dsimp only
  generalize (pool.queue.lookup tx.sender).getD (.newList false) = list at hlist ⊢
  cases hadd : list.add tx config.priceBump with
  | none =>
    obtain ⟨old, hold, hsame, hlow⟩ := TxList.add_eq_none_iff.mp hadd
    exact .inl ⟨⟨old, .inr (hlist ▸ hold), hsame, hlow⟩, rfl⟩
  | some added =>
    obtain ⟨old, list'⟩ := added
    obtain ⟨hold, rfl⟩ := TxList.add_eq_some hadd
    have hentered : Entered pool.all ((old.elim pool.all fun old => pool.all.remove old.hash).add tx
        isLocal) tx := by
      refine entered_of_old h hnew (fun tx' => ?_) isLocal rfl
      rw [hold, TxList.get_eq_some_iff, hlist]
      constructor
      · exact fun hmem => ⟨.inr hmem.1, hmem.2⟩
      · rintro ⟨hmem | hmem, heq⟩
        · exact absurd heq (hfree tx' hmem)
        · exact ⟨hmem, heq⟩
    have hnot : ¬ pool.Blocked config tx := by
      rintro ⟨old, hmem | hmem, hsame, hlow⟩
      · exact hfree old hmem hsame
      · rw [TxList.add_eq_none_iff.mpr ⟨old, hlist ▸ hmem, hsame, hlow⟩] at hadd
        cases hadd
    have hnotPending : ¬ ∃ old ∈ pool.pendingTxs tx.sender, old.nonce = tx.nonce := by
      rintro ⟨old, hmem, heq⟩
      exact hfree old hmem heq
    let queued : Pool := { pool with queue := pool.queue.insert tx.sender (list.put tx) }
    have hframe : Frame queued (queued.discardOld order old) := discardOld_frame queued old
    obtain ⟨hpending, hqueue, hnonces⟩ := discardOld_lists order queued old
    have hall : (queued.discardOld order old).all =
      old.elim pool.all fun old => pool.all.remove old.hash := discardOld_all order queued old
    rw [← hall] at hentered
    have haccepted : ∀ priced beats, Accepted pool { queued.discardOld order old with
        all := (queued.discardOld order old).all.add tx isLocal, priced, beats } tx := by
      intro priced beats
      refine ⟨⟨hentered.keyed, hentered.get, fun addr tx' => ?_, fun addr tx' => ?_⟩,
        hentered.counted, hframe.state, hframe.maxGas, hnonces, hframe.held⟩
      · rw [or_iff_left fun hpending => hnotPending hpending.2.2]
        change tx' ∈ txsIn (queued.discardOld order old).pending addr ↔ _
        rw [hpending]
        exact mem_txsIn_free (fun addr tx' htx' => (h.known addr tx' (.inl htx')).1) hfree addr tx'
      · rw [and_iff_left hnotPending]
        change tx' ∈ txsIn (queued.discardOld order old).queue addr ↔ _
        rw [hqueue]
        exact mem_txsIn_put hlist (fun addr tx' htx' => (h.known addr tx' (.inr htx')).1) addr tx'
    cases fromLocal with
    | false => exact .inr ⟨hnot, _, _, rfl, haccepted _ _⟩
    | true => exact .inr ⟨hnot, _, _, rfl, (haccepted _ _).markLocal tx.sender⟩

theorem insertTx_spec (fromLocal isLocal : Bool) (h : pool.Partition)
    (hnew : pool.all.get tx.hash = none) :
    pool.Decided config tx (pool.insertTx config order now tx fromLocal isLocal) := by
  by_cases hpending : ∃ old ∈ pool.pendingTxs tx.sender, old.nonce = tx.nonce
  · obtain ⟨old, hold, heq⟩ := hpending
    unfold pendingTxs txsIn at hold
    cases hlookup : pool.pending.lookup tx.sender with
    | none =>
      rw [hlookup] at hold
      cases hold
    | some list =>
      rw [hlookup] at hold
      exact insertTx_pending fromLocal isLocal h hnew hlookup
        (TxList.contains_iff.mpr ⟨old, hold, heq⟩)
  · push Not at hpending
    exact insertTx_queue fromLocal isLocal h hnew hpending

/-! ## Room for a transaction -/

/-- Price heaps, heartbeats, local accounts and counters aside, the pool is the same. -/
structure Same (pool pool' : Pool) : Prop where
  all : pool'.all = pool.all
  pending : pool'.pending = pool.pending
  queue : pool'.queue = pool.queue
  nonces : pool'.pendingNonces = pool.pendingNonces
  state : pool'.currentState = pool.currentState
  maxGas : pool'.currentMaxGas = pool.currentMaxGas

theorem Same.refl (pool : Pool) : Same pool pool := ⟨rfl, rfl, rfl, rfl, rfl, rfl⟩

theorem Same.partition (hsame : Same pool pool') (h : pool.Partition) : pool'.Partition :=
  h.rearranged ((Rearranged.refl pool).congr hsame.all hsame.pending hsame.queue)

theorem makeRoom_same (config : Config) (pool : Pool) (tx : Tx) (isLocal : Bool) :
    Same pool (pool.makeRoom config tx isLocal).2 := by
  unfold makeRoom
  by_cases hroom : pool.missingSlots config tx ≤ 0
  · rw [if_pos hroom]
    exact .refl pool
  rw [if_neg hroom]
  dsimp only
  generalize (if isLocal = true then (false, pool.priced) else _) = checked
  split_ifs
  · exact ⟨rfl, rfl, rfl, rfl, rfl, rfl⟩
  · exact ⟨rfl, rfl, rfl, rfl, rfl, rfl⟩
  · generalize checked.2.discard pool.all _ isLocal = discarded
    obtain ⟨drop, priced⟩ := discarded
    cases drop with
    | none => exact ⟨rfl, rfl, rfl, rfl, rfl, rfl⟩
    | some drop =>
      dsimp only
      split_ifs
      · exact ⟨rfl, rfl, rfl, rfl, rfl, rfl⟩
      · exact ⟨rfl, rfl, rfl, rfl, rfl, rfl⟩

theorem mem_of_makeRoom {isLocal : Bool} (h : (pool.makeRoom config tx isLocal).1 = .ok drop)
    (htx' : tx' ∈ drop) :
    (pool.all.getRemote tx'.hash).isSome := by
  unfold makeRoom at h
  by_cases hroom : pool.missingSlots config tx ≤ 0
  · rw [if_pos hroom] at h
    obtain rfl := Except.ok.inj h
    cases htx'
  rw [if_neg hroom] at h
  dsimp only at h
  generalize (if isLocal = true then (false, pool.priced) else _) = checked at h
  split_ifs at h
  generalize hdiscard : checked.2.discard pool.all _ isLocal = discarded at h
  obtain ⟨dropped, priced⟩ := discarded
  cases dropped with
  | none => cases h
  | some dropped =>
    dsimp only at h
    split_ifs at h
    obtain rfl := Except.ok.inj h
    exact PricedList.mem_of_discard hdiscard htx'

theorem add_of_room {fromLocal : Bool} {room : Pool} (hnew : pool.all.get tx.hash = none)
    (hvalid : pool.validateTx tx = none)
    (hroom : pool.makeRoom config tx (fromLocal || decide (tx.sender ∈ pool.locals)) =
      (.ok drop, room)) :
    pool.add config order now tx fromLocal =
      (drop.foldl (evict config order now) room).insertTx config order now tx fromLocal
        (fromLocal || decide (tx.sender ∈ pool.locals)) := by
  unfold add
  rw [hnew, hvalid]
  dsimp only
  rw [hroom]
  rfl

/-- A transaction is rejected before room was made for it, or it is inserted after that. -/
theorem add_cases (config : Config) (order : MapOrder) (now : ℕ) (pool : Pool) (tx : Tx)
    (fromLocal : Bool) :
    (∃ e, (pool.add config order now tx fromLocal).1 = .error e ∧
      Same pool (pool.add config order now tx fromLocal).2) ∨
    ∃ drop room, let isLocal := fromLocal || decide (tx.sender ∈ pool.locals)
      pool.all.get tx.hash = none ∧ pool.validateTx tx = none ∧
      pool.makeRoom config tx isLocal = (.ok drop, room) ∧
      pool.add config order now tx fromLocal =
        (drop.foldl (evict config order now) room).insertTx config order now tx fromLocal
          isLocal := by
  unfold add
  split_ifs with hknown
  · exact .inl ⟨_, rfl, .refl pool⟩
  dsimp only
  cases hvalid : pool.validateTx tx with
  | some e => exact .inl ⟨e, rfl, .refl pool⟩
  | none =>
    have hsame := makeRoom_same config pool tx (fromLocal || decide (tx.sender ∈ pool.locals))
    dsimp only
    generalize hroom : pool.makeRoom config tx _ = room at hsame ⊢
    obtain ⟨drop, room⟩ := room
    cases drop with
    | error e => exact .inl ⟨e, rfl, hsame⟩
    | ok drop => exact .inr ⟨drop, room, by simpa using hknown, rfl, rfl, rfl⟩

theorem get_of_get_foldl_remove {t : Lookup} {hash : Hash} {hashes : List Hash}
    (h : (hashes.foldl Lookup.remove t).get hash = some tx) : t.get hash = some tx := by
  induction hashes generalizing t with
  | nil => exact h
  | cons first hashes ih =>
    have hget := ih h
    rw [Lookup.get_remove] at hget
    split_ifs at hget
    exact hget

theorem evictions_invariant (hsame : ∀ pool pool', Same pool pool' → I pool → I pool')
    (hremove : ∀ pool hash, I pool → I (pool.removeTx config order now hash false).2)
    (drop : List Tx) (hpool : I pool) : I (drop.foldl (evict config order now) pool) := by
  induction drop generalizing pool with
  | nil => exact hpool
  | cons tx drop ih =>
    have hsame' : Same (pool.removeTx config order now tx.hash false).2
        (pool.evict config order now tx) := ⟨rfl, rfl, rfl, rfl, rfl, rfl⟩
    exact ih (hsame _ _ hsame' (hremove pool tx.hash hpool))

/-- An invariant is kept that survives evictions and accepted transactions. -/
theorem add_invariant (hpart : ∀ pool, I pool → pool.Partition)
    (hsame : ∀ pool pool', Same pool pool' → I pool → I pool')
    (hremove : ∀ pool hash, I pool → I (pool.removeTx config order now hash false).2)
    (hinsert : ∀ pool pool', Accepted pool pool' tx → I pool → I pool') (fromLocal : Bool)
    (hpool : I pool) : I (pool.add config order now tx fromLocal).2 := by
  rcases add_cases config order now pool tx fromLocal with
    ⟨e, -, hrejected⟩ | ⟨drop, room, hnew, -, hroom, hadd⟩
  · exact hsame pool _ hrejected hpool
  have hroomSame := makeRoom_same config pool tx (fromLocal || decide (tx.sender ∈ pool.locals))
  rw [hroom] at hroomSame
  have hevicted := evictions_invariant hsame hremove drop (hsame pool room hroomSame hpool)
  obtain ⟨hashes, htrimmed⟩ := (Frame.foldl evict_frame drop room).trimmed
  have hnew' : (drop.foldl (evict config order now) room).all.get tx.hash = none := by
    rw [htrimmed]
    refine Option.eq_none_iff_forall_ne_some.mpr fun tx' hget => ?_
    have hold := get_of_get_foldl_remove hget
    rw [hroomSame.all, hnew] at hold
    cases hold
  rw [hadd]
  rcases insertTx_spec fromLocal (fromLocal || decide (tx.sender ∈ pool.locals))
    (hpart _ hevicted) hnew' with ⟨-, hresult⟩ | ⟨-, replaced, pool', hresult, haccepted⟩
  · rw [hresult]
    exact hevicted
  · rw [hresult]
    exact hinsert _ _ haccepted hevicted

end Pool

end TxPool

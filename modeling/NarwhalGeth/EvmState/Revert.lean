import Mathlib.Algebra.Order.Ring.Nat
import NarwhalGeth.EvmState.Journal
import NarwhalGeth.Lib.Fallible
import NarwhalGeth.Lib.Machine

/-!
# Reverting to a snapshot

After any operations of the virtual machine, reverting to a snapshot gives back everything that
could be read when it was taken, and the dirty accounts, though the RIPEMD address may stay dirty.
The state before the snapshot is any that can be reached.
-/

namespace EvmState

open UndoLog

variable {A H : Type} [DecidableEq A] [DecidableEq H] [Zero H] {base : StateDB A H}
  {es : List (JournalEntry A H)} {list : List (A × List H)} {dst : Option A} {precompiles : List A}
  {isShanghai : Bool} {revid : ℕ} {sender coinbase : A}

/-! ## Operations -/

/-- The reads that leave something in the caches, or annotate logs. -/
inductive Read (A H : Type) where
  | exist (address : A)
  | isEmpty (address : A)
  | getBalance (address : A)
  | getNonce (address : A)
  | getCode (address : A)
  | getCodeSize (address : A)
  | getCodeHash (address : A)
  | getState (address : A) (key : H)
  | getCommittedState (address : A) (key : H)
  | hasSuicided (address : A)
  | getLogs (hash : H) (blockNumber : UInt64) (blockHash : H)

/-- The operations between a snapshot and a revert. -/
inductive Op (A H : Type) where
  | read (read : Read A H)
  | getOrNewStateObject (address : A)
  | createAccount (address : A)
  | addBalance (address : A) (amount : ℤ)
  | subBalance (address : A) (amount : ℤ)
  | setBalance (address : A) (amount : ℤ)
  | setNonce (address : A) (nonce : UInt64)
  | setCode (address : A) (code : Option Bytes)
  | setState (address : A) (key value : H)
  | setTransientState (address : A) (key value : H)
  | suicide (address : A)
  | addLog (log : Log A H)
  | addPreimage (hash : H) (preimage : Bytes)
  | addRefund (gas : UInt64)
  | subRefund (gas : UInt64)
  | addAddressToAccessList (address : A)
  | addSlotToAccessList (address : A) (slot : H)
  | snapshot
  | revertToSnapshot (revid : ℕ)

/-- Whether an operation annotates logs. -/
def Op.annotates : Op A H → Bool
  | .read (.getLogs ..) => true
  | _ => false

/-- A call of the state, recorded or not. -/
inductive Call (A H : Type) where
  | op (op : Op A H)
  | setTxContext (thash : H) (txIndex : ℕ)
  | setStorage (address : A) (storage : List (H × H))
  | prepare (isBerlin isShanghai : Bool) (sender coinbase : A) (dst : Option A)
      (precompiles : List A) (list : List (A × List H))
  | finalise (deleteEmptyObjects : Bool)
  | intermediateRoot (deleteEmptyObjects : Bool) (updateRoot : A → StateObject H → StateObject H)
      (db : Database A H)
  | commit (deleteEmptyObjects : Bool) (updateRoot commitTrie : A → StateObject H → StateObject H)
      (db : Database A H)
  | copy

namespace StateDB

variable (env : Env A H) {op : Op A H}

/-- The state after a read. -/
def afterRead (s : StateDB A H) : Read A H → StateDB A H
  | .exist address => (s.exist address).2
  | .isEmpty address => (s.isEmpty env address).2
  | .getBalance address => (s.getBalance address).2
  | .getNonce address => (s.getNonce address).2
  | .getCode address => (s.getCode env address).2
  | .getCodeSize address => (s.getCodeSize env address).2
  | .getCodeHash address => (s.getCodeHash address).2
  | .getState address key => (s.getState address key).2
  | .getCommittedState address key => (s.getCommittedState address key).2
  | .hasSuicided address => (s.hasSuicided address).2
  | .getLogs hash blockNumber blockHash => (s.getLogs hash blockNumber blockHash).2

/-- The state after an operation, unless it panics. -/
def apply (s : StateDB A H) : Op A H → Option (StateDB A H)
  | .read read => some (s.afterRead env read)
  | .getOrNewStateObject address => some (s.getOrNewStateObject env address).2
  | .createAccount address => some (s.createAccount env address)
  | .addBalance address amount => some (s.addBalance env address amount)
  | .subBalance address amount => some (s.subBalance env address amount)
  | .setBalance address amount => some (s.setBalance env address amount)
  | .setNonce address nonce => some (s.setNonce env address nonce)
  | .setCode address code => some (s.setCode env address code)
  | .setState address key value => some (s.setState env address key value)
  | .setTransientState address key value => some (s.setTransientState address key value)
  | .suicide address => some (s.suicide address).2
  | .addLog log => some (s.addLog log)
  | .addPreimage hash preimage => some (s.addPreimage hash preimage)
  | .addRefund gas => some (s.addRefund gas)
  | .subRefund gas => s.subRefund gas
  | .addAddressToAccessList address => some (s.addAddressToAccessList address)
  | .addSlotToAccessList address slot => s.addSlotToAccessList address slot
  | .snapshot => some s.snapshot.2
  | .revertToSnapshot revid => s.revertToSnapshot revid

def applyAll (s : StateDB A H) (ops : List (Op A H)) : Option (StateDB A H) :=
  ops.foldlM (apply env) s

def call (s : StateDB A H) : Call A H → Option (StateDB A H)
  | .op op => s.apply env op
  | .setTxContext thash txIndex => some (s.setTxContext thash txIndex)
  | .setStorage address storage => some (s.setStorage env address storage)
  | .prepare isBerlin isShanghai sender coinbase dst precompiles list =>
    s.prepare isBerlin isShanghai sender coinbase dst precompiles list
  | .finalise deleteEmptyObjects => some (s.finalise env deleteEmptyObjects)
  | .intermediateRoot deleteEmptyObjects updateRoot db =>
    some (s.intermediateRoot env deleteEmptyObjects updateRoot db)
  | .commit deleteEmptyObjects updateRoot commitTrie db =>
    some (s.commit env deleteEmptyObjects updateRoot commitTrie db)
  | .copy => some s.copy

/-- The states over a database. -/
def machine (db : Database A H) : Machine (StateDB A H) (Call A H) := ⟨new db, call env⟩

variable {env} {seen : Log A H → Log A H} {s s' t : StateDB A H} {address : A}

/-! ### What reads leave -/

theorem getStateObject_journals (env : Env A H) (hs : s.Sound) (address : A) :
    Journals env seen s (s.getStateObject address).2 :=
  (s.getStateObject_spec env address).2.1.journals hs

theorem kept_journals (hs : s.Sound) {obj obj' : StateObject H}
    (hget : s.getStateObject address = (some obj, t))
    (hview : t.objectView env address obj' = t.objectView env address obj) :
    Journals env seen s (t.setStateObject address obj') := by
  obtain ⟨hloads, hset, -, -⟩ := getStateObject_eq_some env hget
  have hobj : t.object address = some obj := by simp [object, hset]
  exact (hloads.trans (.set hobj hview)).journals hs

theorem getCode_journals (hs : s.Sound) : Journals env seen s (s.getCode env address).2 := by
  unfold getCode
  split
  next t hget => exact (getStateObject_eq_none env hget).1.journals hs
  next obj t hget => exact kept_journals hs hget (StateObject.getCode_view env)

theorem getState_journals (hs : s.Sound) (key : H) :
    Journals env seen s (s.getState address key).2 := by
  unfold getState
  split
  next t hget => exact (getStateObject_eq_none env hget).1.journals hs
  next obj t hget => exact kept_journals hs hget (StateObject.getState_view env)

theorem getCommittedState_journals (hs : s.Sound) (key : H) :
    Journals env seen s (s.getCommittedState address key).2 := by
  unfold getCommittedState
  split
  next t hget => exact (getStateObject_eq_none env hget).1.journals hs
  next obj t hget => exact kept_journals hs hget (StateObject.getCommittedState_view env)

/-- The block a log is annotated with is not seen. -/
def Blind (seen : Log A H → Log A H) : Prop :=
  ∀ log blockNumber blockHash, seen { log with blockNumber, blockHash } = seen log

theorem getLogs_journals (hs : s.Sound) (hseen : Blind seen) {hash : H} {blockNumber : UInt64}
    {blockHash : H} : Journals env seen s (s.getLogs hash blockNumber blockHash).2 := by
  refine Quiet.journals hs ⟨rfl, rfl, rfl, rfl, rfl, fun hs => ⟨hs.held, hs.filled⟩⟩
    (View.ext rfl rfl rfl rfl (funext fun x => ?_) rfl rfl rfl rfl)
  by_cases hx : x = hash
  · subst hx
    have hmap : (s.logs x).map (seen ∘ fun log => { log with blockNumber, blockHash }) =
        (s.logs x).map seen := List.map_congr_left fun log _ => hseen log blockNumber blockHash
    simpa [view, getLogs] using hmap
  · simp [view, getLogs, hx]

theorem afterRead_journals (hs : s.Sound) {read : Read A H}
    (hseen : (Op.read read).annotates = true → Blind seen) :
    Journals env seen s (s.afterRead env read) := by
  cases read with
  | exist address | isEmpty address | getBalance address | getNonce address | getCodeSize address
  | getCodeHash address | hasSuicided address => exact getStateObject_journals env hs address
  | getCode address => exact getCode_journals hs
  | getState address key => exact getState_journals hs key
  | getCommittedState address key => exact getCommittedState_journals hs key
  | getLogs hash blockNumber blockHash => exact getLogs_journals hs (hseen rfl)

/-! ### One operation -/

/-- An operation records its changes, takes a snapshot or reverts to one. -/
theorem apply_cases (hs : s.Sound) (h : s.apply env op = some s')
    (hseen : op.annotates = true → Blind seen) :
    Journals env seen s s' ∨ op = .snapshot ∧ s' = s.snapshot.2 ∨
      ∃ revid, op = .revertToSnapshot revid ∧ s.revertToSnapshot revid = some s' := by
  cases op with
  | snapshot => exact .inr (.inl ⟨rfl, (Option.some.inj h).symm⟩)
  | revertToSnapshot revid => exact .inr (.inr ⟨revid, rfl, h⟩)
  | subRefund gas => exact .inl (subRefund_journals hs h)
  | addSlotToAccessList address slot => exact .inl (addSlotToAccessList_journals hs h)
  | read read => exact .inl (Option.some.inj h ▸ afterRead_journals hs hseen)
  | getOrNewStateObject address =>
    exact .inl (Option.some.inj h ▸ (getOrNewStateObject_journals env hs rfl).1)
  | createAccount address => exact .inl (Option.some.inj h ▸ createAccount_journals hs)
  | addBalance address amount => exact .inl (Option.some.inj h ▸ addBalance_journals hs amount)
  | subBalance address amount => exact .inl (Option.some.inj h ▸ subBalance_journals hs amount)
  | setBalance address amount => exact .inl (Option.some.inj h ▸ setBalance_journals hs amount)
  | setNonce address nonce => exact .inl (Option.some.inj h ▸ setNonce_journals hs nonce)
  | setCode address code => exact .inl (Option.some.inj h ▸ setCode_journals hs code)
  | setState address key value => exact .inl (Option.some.inj h ▸ setState_journals hs key value)
  | setTransientState address key value =>
    exact .inl (Option.some.inj h ▸ setTransientState_journals hs key value)
  | suicide address => exact .inl (Option.some.inj h ▸ suicide_journals hs)
  | addLog log => exact .inl (Option.some.inj h ▸ addLog_journals hs log)
  | addPreimage hash preimage =>
    exact .inl (Option.some.inj h ▸ addPreimage_journals hs hash preimage)
  | addRefund gas => exact .inl (Option.some.inj h ▸ addRefund_journals hs gas)
  | addAddressToAccessList address =>
    exact .inl (Option.some.inj h ▸ addAddressToAccessList_journals hs)

/-! ### Undoing the journal -/

/-- What undoing entries leaves, apart from the view. -/
structure Unwound (s s' : StateDB A H) (es : List (JournalEntry A H)) : Prop where
  db : s'.db = s.db
  nextRevisionId : s'.nextRevisionId = s.nextRevisionId
  dirties : ∀ address, s'.dirties address = s.dirties address - changes address es
  sound : s.Sound → s'.Sound

theorem undoEntry_unwound (env : Env A H) {entry : JournalEntry A H}
    (h : undoEntry entry s = some s') : Unwound s s' [entry] := by
  obtain ⟨t, hrevert, h⟩ := Option.bind_eq_some_iff.mp h
  obtain ⟨hdb, -, hdirties, -, hnext, hsound⟩ := revertEntry_quiet env hrevert
  cases hdirtied : entry.dirtied with
  | none =>
    rw [hdirtied] at h
    obtain rfl := Option.some.inj h
    exact ⟨hdb, hnext, fun address => by simp [changes, hdirtied, hdirties], hsound⟩
  | some dirtied =>
    rw [hdirtied] at h
    obtain rfl := Option.some.inj h
    refine ⟨hdb, hnext, fun address => ?_, fun hs => ⟨(hsound hs).held, (hsound hs).filled⟩⟩
    by_cases heq : address = dirtied
    · simp [changes, hdirtied, hdirties, heq]
    · have hne : dirtied ≠ address := fun h => heq h.symm
      simp [changes, hdirtied, hdirties, heq, hne]

theorem undoAll_unwound (env : Env A H) (h : undoAll undoEntry es s = some s') :
    Unwound s s' es := by
  induction es generalizing s' with
  | nil =>
    obtain rfl := Option.some.inj h
    exact ⟨rfl, rfl, fun _ => rfl, id⟩
  | cons entry es ih =>
    obtain ⟨t, ht, hundo⟩ := Option.bind_eq_some_iff.mp h
    have hrest := ih ht
    have hentry := undoEntry_unwound env hundo
    refine ⟨hentry.db.trans hrest.db, hentry.nextRevisionId.trans hrest.nextRevisionId,
      fun address => ?_, fun hs => hentry.sound (hrest.sound hs)⟩
    rw [hentry.dirties, hrest.dirties, Nat.sub_sub, Nat.add_comm, ← changes_append]
    rfl

theorem map_view_undoEntry (s : StateDB A H) (entry : JournalEntry A H) :
    (undoEntry entry s).map (view env seen) = (s.view env seen).undoChange env s.db entry := by
  rw [← map_view_revertEntry]
  unfold undoEntry
  cases s.revertEntry entry with
  | none => rfl
  | some t => cases entry.dirtied <;> rfl

theorem map_view_undoAll (s : StateDB A H) (es : List (JournalEntry A H)) :
    (undoAll undoEntry es s).map (view env seen) =
      undoAll (View.undoChange env s.db) es (s.view env seen) := by
  induction es with
  | nil => rfl
  | cons entry es ih =>
    rw [undoAll, undoAll, ← ih]
    cases hundo : undoAll undoEntry es s with
    | none => rfl
    | some t =>
      rw [← (undoAll_unwound env hundo).db]
      exact map_view_undoEntry t entry

omit [DecidableEq A] [DecidableEq H] [Zero H] in
theorem findIdx_append_cons {front back : List Revision} {revision : Revision}
    (hfront : ∀ earlier ∈ front, earlier.id < revid) (hrevision : revid ≤ revision.id) :
    (front ++ revision :: back).findIdx (fun revision => revid ≤ revision.id) = front.length := by
  induction front with
  | nil => simp [List.findIdx_cons, hrevision]
  | cons earlier front ih =>
    rw [List.forall_mem_cons] at hfront
    simp [List.findIdx_cons, Nat.not_le.mpr hfront.1, ih hfront.2]

omit [Zero H] in
/-- Reverting goes back to a snapshot that is still valid, and drops those after it. -/
theorem revertToSnapshot_eq_some_iff : s.revertToSnapshot revid = some s' ↔
    ∃ front revision back t, s.validRevisions = front ++ revision :: back ∧
      (∀ earlier ∈ front, earlier.id < revid) ∧ revision.id = revid ∧
      undoAll undoEntry (s.entries.drop revision.journalIndex) s = some t ∧
      s' = { t with
        entries := s.entries.take revision.journalIndex
        validRevisions := front } := by
  constructor
  · intro h
    obtain ⟨revision, hrevision, h⟩ := Option.bind_eq_some_iff.mp h
    split_ifs at h with hid
    obtain ⟨u, hjournal, h⟩ := Option.bind_eq_some_iff.mp h
    obtain ⟨t, hundo, hu⟩ := Option.bind_eq_some_iff.mp hjournal
    obtain rfl := Option.some.inj hu
    obtain ⟨hlt, hget⟩ := List.getElem?_eq_some_iff.mp hrevision
    refine ⟨_, revision, s.validRevisions.drop
      (s.validRevisions.findIdx (fun revision => revid ≤ revision.id) + 1), t, ?_,
      fun earlier hearlier => ?_, not_not.mp hid, hundo, (Option.some.inj h).symm⟩
    · rw [← hget, List.getElem_cons_drop, List.take_append_drop]
    · obtain ⟨i, hi, rfl⟩ := List.mem_take_iff_getElem.mp hearlier
      have hnot := List.not_of_lt_findIdx (hi.trans_le (Nat.min_le_left ..))
      exact Nat.not_le.mp (of_decide_eq_false hnot)
  · rintro ⟨front, revision, back, t, hrevisions, hfront, rfl, hundo, rfl⟩
    have hidx : (front ++ revision :: back).findIdx _ = _ := findIdx_append_cons hfront le_rfl
    have hjournal : s.revertJournal revision.journalIndex =
        some { t with entries := s.entries.take revision.journalIndex } := by
      simp [revertJournal, hundo]
    simp [revertToSnapshot, hrevisions, hidx, hjournal]

/-! ## Runs -/

/-- What has happened since a state: changes that can be undone, and snapshots. -/
structure Since (env : Env A H) (seen : Log A H → Log A H) (base s : StateDB A H) : Prop where
  recorded : ∃ es, Recorded env seen base s es
  snapshots : ∃ revisions, s.validRevisions = base.validRevisions ++ revisions ∧
    ∀ revision ∈ revisions, base.entries.length ≤ revision.journalIndex
  nextRevisionId : base.nextRevisionId ≤ s.nextRevisionId

theorem Since.refl (hs : s.Sound) : Since env seen s s :=
  ⟨⟨[], (Quiet.refl s).recorded hs rfl⟩, ⟨[], (List.append_nil _).symm, by simp⟩, le_rfl⟩

theorem Since.journals (h : Since env seen base s) (h' : Journals env seen s s') :
    Since env seen base s' := by
  obtain ⟨es, hrecorded⟩ := h.recorded
  obtain ⟨es', hrecorded'⟩ := h'.recorded
  refine ⟨⟨es ++ es', hrecorded.trans hrecorded'⟩, ?_, ?_⟩
  · rw [h'.validRevisions]
    exact h.snapshots
  · rw [h'.nextRevisionId]
    exact h.nextRevisionId

theorem Since.snapshot (h : Since env seen base s) :
    Since env seen base s.snapshot.2 := by
  obtain ⟨es, hrecorded⟩ := h.recorded
  obtain ⟨revisions, hrevisions, hindex⟩ := h.snapshots
  refine ⟨⟨es, { hrecorded with sound := ⟨hrecorded.sound.held, hrecorded.sound.filled⟩ }⟩,
    ⟨revisions ++ [⟨s.nextRevisionId, s.entries.length⟩], ?_, fun revision hmem => ?_⟩,
    h.nextRevisionId.trans (Nat.le_succ _)⟩
  · rw [← List.append_assoc, ← hrevisions]
    rfl
  · rcases List.mem_append.mp hmem with hmem | hmem
    · exact hindex revision hmem
    · rw [List.mem_singleton.mp hmem, hrecorded.entries, List.length_append]
      exact Nat.le_add_right ..

theorem Recorded.undo {es' : List (JournalEntry A H)} (h : Recorded env seen base s (es ++ es')) :
    ∃ t, undoAll undoEntry es' s = some t ∧
      ∀ revisions, Recorded env seen base
        { t with entries := base.entries ++ es, validRevisions := revisions } es := by
  obtain ⟨v, hundo, hlogged⟩ := h.logged.undo_suffix
  rw [← h.db, ← map_view_undoAll] at hundo
  obtain ⟨t, ht, rfl⟩ := Option.map_eq_some_iff.mp hundo
  have hunwound := undoAll_unwound env ht
  refine ⟨t, ht, fun revisions => ⟨hunwound.db.trans h.db, rfl, fun address => ?_,
    fun address hne => ?_, ?_, hlogged⟩⟩
  · have hle := h.dirties address
    rw [changes_append] at hle
    have hdirties := hunwound.dirties address
    show _ ≤ t.dirties address
    omega
  · have heq := h.exact_dirties address hne
    rw [changes_append] at heq
    have hdirties := hunwound.dirties address
    show t.dirties address = _
    omega
  · have hsound := hunwound.sound h.sound
    exact ⟨hsound.held, hsound.filled⟩

section

variable (hbase : ∀ revision ∈ base.validRevisions, revision.id < base.nextRevisionId)

include hbase

theorem Since.revertToSnapshot (h : Since env seen base s) (hrevid : base.nextRevisionId ≤ revid)
    (hrevert : s.revertToSnapshot revid = some s') : Since env seen base s' := by
  obtain ⟨front, revision, back, t, hrevisions, hfront, hid, hundo, rfl⟩ :=
    revertToSnapshot_eq_some_iff.mp hrevert
  obtain ⟨es, hrecorded⟩ := h.recorded
  obtain ⟨revisions, hsince, hindex⟩ := h.snapshots
  -- The snapshot is not one of those before.
  obtain ⟨revisions', rfl, rfl⟩ : ∃ revisions', front = base.validRevisions ++ revisions' ∧
      revisions = revisions' ++ revision :: back := by
    rcases List.append_eq_append_iff.mp (hsince.symm.trans hrevisions) with
      h | ⟨both, hfirst, hlast⟩
    · exact h
    · cases both with
      | nil => exact ⟨[], by simpa using hfirst.symm, by simpa using hlast.symm⟩
      | cons other both =>
        obtain ⟨rfl, -⟩ := List.cons.inj hlast
        have hlt := hbase revision (by simp [hfirst])
        omega
  have hj := hindex revision (by simp)
  have hdrop : s.entries.drop revision.journalIndex =
      es.drop (revision.journalIndex - base.entries.length) := by
    rw [hrecorded.entries, List.drop_append, List.drop_eq_nil_of_le hj, List.nil_append]
  have htake : s.entries.take revision.journalIndex =
      base.entries ++ es.take (revision.journalIndex - base.entries.length) := by
    rw [hrecorded.entries, List.take_append, List.take_of_length_le hj]
  rw [← List.take_append_drop (revision.journalIndex - base.entries.length) es] at hrecorded
  obtain ⟨t', ht', hkept⟩ := hrecorded.undo
  rw [hdrop, ht'] at hundo
  obtain rfl := Option.some.inj hundo
  refine ⟨⟨_, htake ▸ hkept _⟩, ⟨revisions', rfl, fun r hr => hindex r (by simp [hr])⟩, ?_⟩
  exact h.nextRevisionId.trans_eq (undoAll_unwound env ht').nextRevisionId.symm

theorem Since.apply (h : Since env seen base s) (happly : s.apply env op = some s')
    (hnested : ∀ revid, op = .revertToSnapshot revid → base.nextRevisionId ≤ revid)
    (hseen : op.annotates = true → Blind seen) : Since env seen base s' := by
  obtain ⟨es, hrecorded⟩ := h.recorded
  obtain hjournals | ⟨-, rfl⟩ | ⟨revid, hop, hrevert⟩ := apply_cases hrecorded.sound happly hseen
  · exact h.journals hjournals
  · exact h.snapshot
  · exact h.revertToSnapshot hbase (hnested revid hop) hrevert

theorem Since.applyAll (h : Since env seen base s) {ops : List (Op A H)}
    (hrun : s.applyAll env ops = some s')
    (hnested : ∀ revid, Op.revertToSnapshot revid ∈ ops → base.nextRevisionId ≤ revid)
    (hseen : ∀ op ∈ ops, op.annotates = true → Blind seen) : Since env seen base s' := by
  induction ops generalizing s with
  | nil =>
    obtain rfl := Option.some.inj hrun
    exact h
  | cons op ops ih =>
    obtain ⟨t, happly, hrest⟩ := Option.bind_eq_some_iff.mp hrun
    rw [List.forall_mem_cons] at hseen
    exact ih (h.apply hbase happly (fun revid hop => hnested revid (by simp [hop])) hseen.1) hrest
      (fun revid hmem => hnested revid (List.mem_cons_of_mem op hmem)) hseen.2

end

theorem Recorded.view_eq (h : Recorded env seen s s' []) : s'.view env seen = s.view env seen :=
  Option.some.inj h.logged.undo_all

theorem Since.restored (hids : ∀ revision ∈ s.validRevisions, revision.id < s.nextRevisionId)
    (h : Since env seen s.snapshot.2 s') :
    ∃ t, s'.revertToSnapshot s.nextRevisionId = some t ∧ Recorded env seen s t [] := by
  obtain ⟨es, hes⟩ := h.recorded
  obtain ⟨revisions, hrevisions, -⟩ := h.snapshots
  have hrecorded : Recorded env seen s s' ([] ++ es) :=
    ⟨hes.db, hes.entries, hes.dirties, hes.exact_dirties, hes.sound, hes.logged⟩
  obtain ⟨t, ht, hkept⟩ := hrecorded.undo
  refine ⟨_, revertToSnapshot_eq_some_iff.mpr ⟨s.validRevisions,
    ⟨s.nextRevisionId, s.entries.length⟩, revisions, t, ?_, hids, rfl, ?_, rfl⟩, ?_⟩
  · rw [hrevisions]
    exact List.append_assoc ..
  · rw [hes.entries]
    exact (congrArg (undoAll undoEntry · s') List.drop_left).trans ht
  · have htake : s'.entries.take s.entries.length = s.entries ++ [] := by
      rw [hes.entries, List.append_nil]
      exact List.take_left
    exact htake ▸ hkept s.validRevisions

/-! ## Reached states -/

/-- The snapshots come before the next one. -/
structure WellFormed (s : StateDB A H) : Prop where
  sound : s.Sound
  ids : ∀ revision ∈ s.validRevisions, revision.id < s.nextRevisionId

omit [DecidableEq A] [DecidableEq H] in
theorem plain_blind : Blind (Log.plain : Log A H → Log A H) := fun _ _ _ => rfl

theorem WellFormed.journals (hs : s.WellFormed) (h : Journals env seen s s') : s'.WellFormed := by
  refine ⟨h.sound, ?_⟩
  rw [h.validRevisions, h.nextRevisionId]
  exact hs.ids

theorem WellFormed.apply (hs : s.WellFormed) (h : s.apply env op = some s') :
    s'.WellFormed := by
  obtain hjournals | ⟨-, rfl⟩ | ⟨revid, -, hrevert⟩ :=
    apply_cases hs.sound h fun _ => plain_blind
  · exact hs.journals hjournals
  · refine ⟨⟨hs.sound.held, hs.sound.filled⟩, fun revision hmem => ?_⟩
    rcases List.mem_append.mp hmem with hmem | hmem
    · exact (hs.ids revision hmem).trans (Nat.lt_succ_self _)
    · rw [List.mem_singleton.mp hmem]
      exact Nat.lt_succ_self _
  · obtain ⟨front, revision, back, t, hrevisions, -, -, hundo, rfl⟩ :=
      revertToSnapshot_eq_some_iff.mp hrevert
    obtain ⟨-, hnext, -, hsound⟩ := undoAll_unwound env hundo
    have ht := hsound hs.sound
    refine ⟨⟨ht.held, ht.filled⟩, fun earlier hmem => ?_⟩
    exact (hs.ids earlier (by simp [hrevisions, hmem])).trans_eq hnext.symm

theorem WellFormed.setStorage (hs : s.WellFormed) (storage : List (H × H)) :
    (s.setStorage env address storage).WellFormed := by
  have hflag : WellFormed { s with
      stateObjectsDestruct := Function.update s.stateObjectsDestruct address true } :=
    ⟨⟨hs.sound.held, hs.sound.filled⟩, hs.ids⟩
  have hnew : Journals env Log.plain _ (getOrNewStateObject env _ address).2 :=
    (getOrNewStateObject_journals env hflag.sound rfl).1
  have hobject := hflag.journals hnew
  unfold StateDB.setStorage
  dsimp only
  generalize (getOrNewStateObject env _ address).2 = t at hobject
  induction storage generalizing t with
  | nil => exact hobject
  | cons value storage ih =>
    have hset : Journals env Log.plain t (t.setState env address value.1 value.2) :=
      setState_journals hobject.sound value.1 value.2
    exact ih _ (hobject.journals hset)

omit [Zero H] in
theorem preparedAccessList_filled {al : AccessList A H}
    (h : preparedAccessList sender coinbase dst precompiles list isShanghai = some al) :
    al.Filled := by
  obtain ⟨al', hlist, h⟩ := Option.bind_eq_some_iff.mp h
  have hnew : (AccessList.new : AccessList A H).Filled :=
    fun _ hmem => absurd hmem List.not_mem_nil
  have hdst : ∀ al : AccessList A H, al.Filled →
      (dst.elim al fun dst => (al.addAddress dst).2).Filled := by
    cases dst with
    | none => exact fun _ h => h
    | some dst => exact fun _ h => h.addAddress dst
  have hprecompiles := List.foldlRecOn (motive := AccessList.Filled) precompiles
    (fun al address => (al.addAddress address).2) (hdst _ (hnew.addAddress sender))
    fun al hal address _ => hal.addAddress address
  have hal' : al'.Filled := by
    refine List.foldlM_some_invariant (I := AccessList.Filled) (fun al al' el hal hel => ?_)
      hprecompiles hlist
    refine List.foldlM_some_invariant (I := AccessList.Filled) (fun al al' key hal hkey => ?_)
      (hal.addAddress el.1) hel
    obtain ⟨⟨addrMod, slotMod, added⟩, hadd, rfl⟩ := Option.map_eq_some_iff.mp hkey
    exact AccessList.addSlot_filled hal hadd
  obtain rfl := Option.some.inj h
  split_ifs
  · exact hal'.addAddress coinbase
  · exact hal'

theorem WellFormed.prepare (hs : s.WellFormed) {isBerlin : Bool}
    (h : s.prepare isBerlin isShanghai sender coinbase dst precompiles list = some s') :
    s'.WellFormed := by
  cases isBerlin with
  | false =>
    obtain rfl := Option.some.inj h
    exact ⟨⟨hs.sound.held, hs.sound.filled⟩, hs.ids⟩
  | true =>
    obtain ⟨al, hal, h⟩ := Option.bind_eq_some_iff.mp h
    obtain rfl := Option.some.inj h
    exact ⟨⟨hs.sound.held, preparedAccessList_filled hal⟩, hs.ids⟩

omit [DecidableEq A] [DecidableEq H] [Zero H] in
theorem WellFormed.clearJournalAndRefund (hs : s.Sound) :
    s.clearJournalAndRefund.WellFormed := by
  unfold StateDB.clearJournalAndRefund
  dsimp only
  split_ifs <;> exact ⟨⟨hs.held, hs.filled⟩, by simp⟩

omit [DecidableEq A] [Zero H] in
theorem WellFormed.finalise (hs : s.WellFormed) (env : Env A H) (deleteEmptyObjects : Bool) :
    (s.finalise env deleteEmptyObjects).WellFormed := by
  refine WellFormed.clearJournalAndRefund ⟨fun x hx => ?_, hs.sound.filled⟩
  have hheld := hs.sound.held x
  dsimp only at hx ⊢
  split
  next hnone =>
    rw [hnone] at hx
    exact hheld (by simpa using hx)
  next => rfl

omit [DecidableEq A] [Zero H] in
theorem WellFormed.intermediateRoot (hs : s.WellFormed) (env : Env A H)
    (deleteEmptyObjects : Bool) (updateRoot : A → StateObject H → StateObject H)
    (db : Database A H) :
    (s.intermediateRoot env deleteEmptyObjects updateRoot db).WellFormed := by
  have hfinal := hs.finalise env deleteEmptyObjects
  refine ⟨⟨fun x hx => ?_, hfinal.sound.filled⟩, hfinal.ids⟩
  simpa [StateDB.intermediateRoot] using hfinal.sound.held x hx

omit [DecidableEq A] [DecidableEq H] in
theorem WellFormed.copy (hs : s.WellFormed) : s.copy.WellFormed := by
  refine ⟨⟨fun x hx => ?_, hs.sound.filled⟩, by simp [StateDB.copy]⟩
  have hheld := hs.sound.held x
  simp only [StateDB.copy, Bool.or_eq_true, decide_eq_true_eq] at hx ⊢
  rcases hx with hdirty | ⟨hdirty, hsome⟩
  · rw [if_pos (.inr hdirty)]
    exact hheld hdirty
  · rw [if_pos (.inl (.inl ⟨hdirty, hsome⟩))]
    exact hsome

theorem WellFormed.call (hs : s.WellFormed) {call : Call A H} (h : s.call env call = some s') :
    s'.WellFormed := by
  cases call with
  | op op => exact hs.apply h
  | setTxContext thash txIndex =>
    obtain rfl := Option.some.inj h
    exact ⟨⟨hs.sound.held, hs.sound.filled⟩, hs.ids⟩
  | setStorage address storage =>
    obtain rfl := Option.some.inj h
    exact hs.setStorage storage
  | prepare isBerlin isShanghai sender coinbase dst precompiles list => exact hs.prepare h
  | finalise deleteEmptyObjects =>
    obtain rfl := Option.some.inj h
    exact hs.finalise env deleteEmptyObjects
  | intermediateRoot deleteEmptyObjects updateRoot db =>
    obtain rfl := Option.some.inj h
    exact hs.intermediateRoot env deleteEmptyObjects updateRoot db
  | commit deleteEmptyObjects updateRoot commitTrie db =>
    obtain rfl := Option.some.inj h
    have hroot := hs.intermediateRoot env deleteEmptyObjects updateRoot db
    exact ⟨⟨fun x hx => absurd hx Bool.false_ne_true, hroot.sound.filled⟩, hroot.ids⟩
  | copy =>
    obtain rfl := Option.some.inj h
    exact hs.copy

theorem wellFormed_of_reached {db : Database A H}
    (h : (machine env db).Reached (fun _ _ => True) s) : s.WellFormed := by
  refine h.invariant ⟨⟨fun _ hx => absurd hx Bool.false_ne_true, ?_⟩, ?_⟩
    fun s call s' hs _ hcall => hs.call hcall
  · exact fun _ hmem => absurd hmem List.not_mem_nil
  · exact fun _ hmem => absurd hmem List.not_mem_nil

/-- Reverting to a snapshot gives back all that could be read when it was taken, and the dirty
accounts but for the RIPEMD address. The logs are the same unless they were annotated since. -/
theorem revertToSnapshot_restores {db : Database A H}
    (hs : (machine env db).Reached (fun _ _ => True) s) {ops : List (Op A H)}
    (hrun : s.snapshot.2.applyAll env ops = some s')
    (hnested : ∀ revid, Op.revertToSnapshot revid ∈ ops → s.snapshot.1 < revid) :
    ∃ t, s'.revertToSnapshot s.snapshot.1 = some t ∧ SameReads env s t ∧
      ((∀ op ∈ ops, op.annotates = false) → t.logs = s.logs) ∧
      t.stateObjectsDirty = s.stateObjectsDirty ∧
      (∀ address ≠ env.ripemd, t.dirties address ≠ 0 ↔ s.dirties address ≠ 0) ∧
      (s.dirties env.ripemd ≠ 0 → t.dirties env.ripemd ≠ 0) := by
  have hwf := wellFormed_of_reached hs
  have htaken : s.apply env .snapshot = some s.snapshot.2 := rfl
  have hsnapshot := hwf.apply htaken
  have hsince : ∀ seen, (∀ op ∈ ops, op.annotates = true → Blind seen) →
      Since env seen s.snapshot.2 s' := fun seen hseen =>
    (Since.refl hsnapshot.sound).applyAll hsnapshot.ids hrun hnested hseen
  obtain ⟨t, ht, hrecorded⟩ := (hsince Log.plain fun _ _ _ => plain_blind).restored hwf.ids
  refine ⟨t, ht, .of_view hrecorded.view_eq, fun hops => ?_,
    congrArg View.dirtyObjects hrecorded.view_eq, fun address hne => ?_, fun hdirty => ?_⟩
  · -- Nothing annotates the logs, so they can be seen as they are.
    obtain ⟨t', ht', hrecorded'⟩ := (hsince id fun op hop hannotates =>
      absurd hannotates (by simp [hops op hop])).restored hwf.ids
    obtain rfl := Option.some.inj (ht.symm.trans ht')
    have hlogs := congrArg View.logs hrecorded'.view_eq
    simpa [view] using hlogs
  · rw [hrecorded.exact_dirties address hne]
    rfl
  · have hle := hrecorded.dirties env.ripemd
    omega

namespace Sample

/-- Bytes are hashed to the number they write to the base 257. -/
def hashing : Env ℕ ℕ where
  keccak256 bytes := bytes.foldl (fun n byte => 257 * n + byte.toNat + 1) 0
  emptyRootHash := 1
  ripemd := 3

/-- A single account, with a balance and some code. -/
def db : Database ℕ ℕ where
  account address := if address = 7 then some ⟨1, 5, 1, 2⟩ else none
  storage _ _ _ := 0
  contractCode hash := if hash = 2 then some [1] else none

def before : StateDB ℕ ℕ :=
  (machine hashing db).after (new db) [.op (.addBalance 8 1), .finalise true, .setTxContext 9 0,
    .op (.setState 7 1 4), .op (.addLog ⟨7, [], [], 0, 0, 0, 0, 0, false⟩), .op .snapshot]

/-- Every kind of change, a revert in between and a suicide after it. -/
def ops : List (Op ℕ ℕ) :=
  [.addBalance 3 0, .addBalance 7 2, .setNonce 7 2, .setCode 7 (some []), .setState 7 1 6,
    .read (.getLogs 9 1 1), .snapshot, .createAccount 7, .setState 7 1 5, .suicide 7,
    .revertToSnapshot 2, .suicide 8, .createAccount 8, .subBalance 6 1, .setTransientState 7 1 1,
    .addLog ⟨8, [], [], 0, 0, 0, 0, 0, false⟩, .addPreimage 4 [4], .addRefund 2, .subRefund 1,
    .addAddressToAccessList 7, .addSlotToAccessList 8 1, .addSlotToAccessList 8 2]

theorem reached : (machine hashing db).Reached (fun _ _ => True) before :=
  Machine.Reached.start.after (by decide +kernel)

end Sample

theorem revertToSnapshot_restores_sample :
    ∃ s t, Sample.before.snapshot.2.applyAll Sample.hashing Sample.ops = some s ∧
      (s.getBalance 7).1 = 7 ∧ (s.getState 7 1).1 = 6 ∧ s.refund = 1 ∧ s.logSize = 2 ∧
      s.revertToSnapshot Sample.before.snapshot.1 = some t ∧
      SameReads Sample.hashing Sample.before t ∧
      (t.getBalance 7).1 = 5 ∧ (t.getState 7 1).1 = 4 ∧ t.refund = 0 ∧ t.logSize = 1 := by
  obtain ⟨s, hrun, hchanged⟩ := (Option.any_eq_true _ _).mp (show
    (Sample.before.snapshot.2.applyAll Sample.hashing Sample.ops).any (fun s =>
      (s.getBalance 7).1 = 7 ∧ (s.getState 7 1).1 = 6 ∧ s.refund = 1 ∧ s.logSize = 2) = true by
    decide +kernel)
  obtain ⟨hbalance, hstate, hrefund, hlogs⟩ := of_decide_eq_true hchanged
  obtain ⟨t, ht, hreads, -⟩ :=
    revertToSnapshot_restores Sample.reached hrun (by simp [Sample.ops]; decide +kernel)
  exact ⟨s, t, hrun, hbalance, hstate, hrefund, hlogs, ht, hreads,
    (hreads.balance 7).trans (by decide +kernel), (hreads.state 7 1).trans (by decide +kernel),
    hreads.refund.trans (by decide +kernel), hreads.logSize.trans (by decide +kernel)⟩

end StateDB

end EvmState

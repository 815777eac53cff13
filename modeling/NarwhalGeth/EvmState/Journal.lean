import NarwhalGeth.EvmState.View

/-!
# What the operations record

An operation appends entries to the journal from which its change of the view can be undone, one
entry after the other. Reads append nothing.
-/

namespace EvmState

open UndoLog

variable {A H : Type} {obj : StateObject H} {s'' : StateDB A H} {addrMod slotMod : Bool} {slot : H}

variable [DecidableEq A] [DecidableEq H]

/-! ## The access list -/

namespace AccessList

variable {al al' : AccessList A H} {address : A} {slot : H}

/-- No set of slots is empty. -/
def Filled (al : AccessList A H) : Prop := ∀ slotmap ∈ al.slots, slotmap ≠ ∅

theorem deleteSlot_filled (hfilled : al.Filled) (h : al.deleteSlot address slot = some al') :
    al'.Filled := by
  unfold deleteSlot at h
  split at h
  next idx haddress =>
    split at h
    next => cases h
    next slotmap hslotmap =>
      dsimp only at h
      split_ifs at h with hempty
      · obtain rfl := Option.some.inj h
        intro slots hslots
        rw [List.take_set_of_le (Nat.le_refl idx)] at hslots
        exact hfilled slots (List.mem_of_mem_take hslots)
      · obtain rfl := Option.some.inj h
        intro slots hslots
        rcases List.mem_or_eq_of_mem_set hslots with hmem | rfl
        · exact hfilled slots hmem
        · exact hempty
  next => cases h

theorem addSlot_filled (hfilled : al.Filled)
    (h : al.addSlot address slot = some (addrMod, slotMod, al')) : al'.Filled := by
  unfold addSlot at h
  split at h
  next idx haddress =>
    split at h
    next => cases h
    next slotmap hslotmap =>
      split_ifs at h
      · cases h
        exact hfilled
      · cases h
        intro slots hslots
        rcases List.mem_or_eq_of_mem_set hslots with hmem | rfl
        · exact hfilled slots hmem
        · exact Finset.insert_ne_empty slot slotmap
  next =>
    cases h
    intro slots hslots
    rcases List.mem_append.mp hslots with hmem | hmem
    · exact hfilled slots hmem
    · rw [List.mem_singleton.mp hmem]
      exact Finset.singleton_ne_empty slot

omit [DecidableEq H] in
theorem Filled.addAddress (hfilled : al.Filled) (address : A) :
    (al.addAddress address).2.Filled := by
  unfold AccessList.addAddress
  split <;> exact hfilled

omit [DecidableEq H] in
theorem deleteAddress_addAddress (h : al.addresses address = none) :
    (al.addAddress address).2.deleteAddress address = al := by
  simp only [addAddress, h, deleteAddress, Function.update_idem]
  rw [← h, Function.update_eq_self]

/-- Deleting a slot that was added gives the list before it was. The address stays if it came with
the slot, and has an entry of its own. -/
theorem addSlot_cases (hfilled : al.Filled)
    (h : al.addSlot address slot = some (addrMod, slotMod, al')) :
    addrMod = false ∧ slotMod = false ∧ al' = al ∨
    addrMod = false ∧ slotMod = true ∧ al'.deleteSlot address slot = some al ∨
    addrMod = true ∧ slotMod = true ∧ al.addresses address = none ∧
      al'.deleteSlot address slot = some (al.addAddress address).2 := by
  unfold addSlot at h
  split at h
  next idx haddress =>
    split at h
    next => cases h
    next slotmap hslotmap =>
      split_ifs at h with hmem
      · cases h
        exact .inl ⟨rfl, rfl, rfl⟩
      · cases h
        have hidx : idx < al.slots.length := (List.getElem?_eq_some_iff.mp hslotmap).1
        have hne : slotmap ≠ ∅ := hfilled slotmap (List.mem_of_getElem? hslotmap)
        refine .inr (.inl ⟨rfl, rfl, ?_⟩)
        have hslots : al.slots.set idx slotmap = al.slots := by
          rw [← (List.getElem?_eq_some_iff.mp hslotmap).2, List.set_getElem_self]
        simp [deleteSlot, haddress, hidx, Finset.erase_insert hmem, hne, hslots]
  next present hpresent =>
    cases h
    have hdelete : deleteSlot ⟨Function.update al.addresses address (some (some al.slots.length)),
        al.slots ++ [{slot}]⟩ address slot =
        some { al with addresses := Function.update al.addresses address (some none) } := by
      simp [deleteSlot]
    cases hnone : al.addresses address with
    | none =>
      refine .inr (.inr ⟨rfl, rfl, rfl, ?_⟩)
      simpa [addAddress, hnone] using hdelete
    | some index =>
      cases index with
      | some idx => exact absurd hnone (hpresent idx)
      | none =>
        refine .inr (.inl ⟨rfl, rfl, ?_⟩)
        rw [hdelete, ← hnone, Function.update_eq_self]

end AccessList

/-! ## Changes that are not recorded -/

namespace StateDB

section

omit [DecidableEq A] [DecidableEq H]

variable {s s' : StateDB A H}

/-- Every object that has to be written at the commit is held, and so is a slot for every index of
the access list. -/
structure Sound (s : StateDB A H) : Prop where
  held : ∀ address, s.stateObjectsDirty address = true → (s.stateObjects address).isSome
  filled : s.accessList.Filled

/-- The database, the journal and the snapshots stay. -/
structure Quiet (s s' : StateDB A H) : Prop where
  db : s'.db = s.db
  entries : s'.entries = s.entries
  dirties : s'.dirties = s.dirties
  validRevisions : s'.validRevisions = s.validRevisions
  nextRevisionId : s'.nextRevisionId = s.nextRevisionId
  sound : s.Sound → s'.Sound

theorem Quiet.refl (s : StateDB A H) : Quiet s s := ⟨rfl, rfl, rfl, rfl, rfl, id⟩

theorem Quiet.trans (h : Quiet s s') (h' : Quiet s' s'') : Quiet s s'' where
  db := h'.db.trans h.db
  entries := h'.entries.trans h.entries
  dirties := h'.dirties.trans h.dirties
  validRevisions := h'.validRevisions.trans h.validRevisions
  nextRevisionId := h'.nextRevisionId.trans h.nextRevisionId
  sound hs := h'.sound (h.sound hs)

end

variable [Zero H]

variable {env : Env A H} {seen : Log A H → Log A H} {s s' t : StateDB A H} {address : A}
  {entry : JournalEntry A H} {es es' : List (JournalEntry A H)}

omit [DecidableEq A] in
theorem Loads.quiet (h : Loads env s s') : Quiet s s' := by
  obtain ⟨-, ⟨objects, rfl⟩, hheld⟩ := h
  exact ⟨rfl, rfl, rfl, rfl, rfl, fun hs => ⟨fun x hx => hheld x (hs.held x hx), hs.filled⟩⟩

omit [DecidableEq H] [Zero H] in
theorem setStateObject_quiet (s : StateDB A H) (address : A) (obj : StateObject H) :
    Quiet s (s.setStateObject address obj) := by
  refine ⟨rfl, rfl, rfl, rfl, rfl, fun hs => ⟨fun x hx => ?_, hs.filled⟩⟩
  by_cases hxa : x = address
  · simp [setStateObject, hxa]
  · simpa [setStateObject, hxa] using hs.held x hx

theorem changeObject_quiet (env : Env A H) {f : StateObject H → StateObject H}
    (h : s.changeObject address f = some s') : Quiet s s' := by
  unfold changeObject at h
  split at h
  next => cases h
  next obj t hget =>
    cases h
    exact (getStateObject_eq_some env hget).1.quiet.trans (t.setStateObject_quiet address (f obj))

theorem revertEntry_quiet (env : Env A H) (h : s.revertEntry entry = some s') : Quiet s s' := by
  cases entry with
  | createObjectChange account =>
    cases h
    refine ⟨rfl, rfl, rfl, rfl, rfl, fun hs => ⟨fun x hx => ?_, hs.filled⟩⟩
    by_cases hxa : x = account
    · simp [hxa] at hx
    · simpa [hxa] using hs.held x (by simpa [hxa] using hx)
  | resetObjectChange account prev prevdestruct =>
    have hsound := (s.setStateObject_quiet account prev).sound
    cases prevdestruct <;> cases h <;>
      exact ⟨rfl, rfl, rfl, rfl, rfl, fun hs => ⟨(hsound hs).held, hs.filled⟩⟩
  | suicideChange account prev prevbalance =>
    simp only [revertEntry] at h
    split at h
    next t hget =>
      cases h
      exact (getStateObject_eq_none env hget).1.quiet
    next obj t hget =>
      cases h
      exact (getStateObject_eq_some env hget).1.quiet.trans (t.setStateObject_quiet account _)
  | balanceChange | nonceChange | codeChange | storageChange => exact changeObject_quiet env h
  | addLogChange txhash =>
    simp only [revertEntry] at h
    split_ifs at h
    cases h
    exact ⟨rfl, rfl, rfl, rfl, rfl, fun hs => ⟨hs.held, hs.filled⟩⟩
  | accessListAddSlotChange address slot =>
    obtain ⟨accessList, hdelete, h⟩ := Option.bind_eq_some_iff.mp h
    cases h
    exact ⟨rfl, rfl, rfl, rfl, rfl, fun hs =>
      ⟨hs.held, AccessList.deleteSlot_filled hs.filled hdelete⟩⟩
  | touchChange | refundChange | addPreimageChange | accessListAddAccountChange
  | transientStorageChange =>
    cases h
    exact ⟨rfl, rfl, rfl, rfl, rfl, fun hs => ⟨hs.held, hs.filled⟩⟩

/-! ## Recorded changes -/

/-- The number of entries that make an account dirty. -/
def changes (address : A) (es : List (JournalEntry A H)) : ℕ :=
  es.countP fun entry => entry.dirtied = some address

omit [DecidableEq H] [Zero H] in
theorem changes_append (address : A) (es es' : List (JournalEntry A H)) :
    changes address (es ++ es') = changes address es + changes address es' :=
  List.countP_append

/-- The state after the entries were recorded. They can be undone one by one, and the dirty accounts
are counted, with possibly more for the RIPEMD address. -/
structure Recorded (env : Env A H) (seen : Log A H → Log A H) (base s : StateDB A H)
    (es : List (JournalEntry A H)) : Prop where
  db : s.db = base.db
  entries : s.entries = base.entries ++ es
  dirties : ∀ address, base.dirties address + changes address es ≤ s.dirties address
  exact_dirties : ∀ address ≠ env.ripemd,
    s.dirties address = base.dirties address + changes address es
  sound : s.Sound
  logged : Logged (View.undoChange env base.db) (fun v => v.accessList.Filled)
    (base.view env seen) es (s.view env seen)

theorem Recorded.trans (h : Recorded env seen s s' es) (h' : Recorded env seen s' s'' es') :
    Recorded env seen s s'' (es ++ es') where
  db := h'.db.trans h.db
  entries := by rw [h'.entries, h.entries, List.append_assoc]
  dirties address := by
    have h₁ := h.dirties address
    have h₂ := h'.dirties address
    rw [changes_append]
    omega
  exact_dirties address hne := by
    rw [h'.exact_dirties address hne, h.exact_dirties address hne, Nat.add_assoc, changes_append]
  sound := h'.sound
  logged := h.logged.append (h.db ▸ h'.logged)

theorem Quiet.recorded (hs : s.Sound) (h : Quiet s s')
    (hview : s'.view env seen = s.view env seen) : Recorded env seen s s' [] where
  db := h.db
  entries := by rw [h.entries, List.append_nil]
  dirties address := (congrFun h.dirties address).ge
  exact_dirties address _ := congrFun h.dirties address
  sound := h.sound hs
  logged := by
    rw [hview]
    exact .nil hs.filled

theorem view_append (s : StateDB A H) (entry : JournalEntry A H) :
    (s.append entry).view env seen = s.view env seen := by
  unfold append
  cases entry.dirtied <;> rfl

theorem Quiet.recorded_append (hs : s.Sound) (h : Quiet s s')
    (hundo : (s'.view env seen).undoChange env s.db entry = some (s.view env seen)) :
    Recorded env seen s (s'.append entry) [entry] := by
  have hdirties : ∀ address, (s'.append entry).dirties address =
      s.dirties address + changes address [entry] := by
    intro address
    rw [← h.dirties, changes, List.countP_singleton]
    cases hdirtied : entry.dirtied with
    | none => simp [append, hdirtied]
    | some dirtied =>
      by_cases heq : address = dirtied
      · simp [append, hdirtied, dirty, heq]
      · have hne : dirtied ≠ address := fun h => heq h.symm
        simp [append, hdirtied, dirty, heq, hne]
  have hentries : (s'.append entry).entries = s'.entries ++ [entry] := by
    unfold append
    cases entry.dirtied <;> rfl
  refine ⟨?_, ?_, fun address => (hdirties address).ge, fun address _ => hdirties address, ?_, ?_⟩
  · rw [← h.db]
    unfold append
    cases entry.dirtied <;> rfl
  · rw [hentries, h.entries]
  · have hsound := h.sound hs
    unfold append
    cases entry.dirtied <;> exact ⟨hsound.held, hsound.filled⟩
  · rw [view_append]
    exact .single hs.filled hundo (h.sound hs).filled

/-- A change that is recorded, between two snapshots. -/
structure Journals (env : Env A H) (seen : Log A H → Log A H) (s s' : StateDB A H) : Prop where
  recorded : ∃ es, Recorded env seen s s' es
  validRevisions : s'.validRevisions = s.validRevisions
  nextRevisionId : s'.nextRevisionId = s.nextRevisionId

theorem Journals.trans (h : Journals env seen s s') (h' : Journals env seen s' s'') :
    Journals env seen s s'' := by
  obtain ⟨es, hrecorded⟩ := h.recorded
  obtain ⟨es', hrecorded'⟩ := h'.recorded
  exact ⟨⟨es ++ es', hrecorded.trans hrecorded'⟩, h'.validRevisions.trans h.validRevisions,
    h'.nextRevisionId.trans h.nextRevisionId⟩

theorem Journals.sound (h : Journals env seen s s') : s'.Sound := by
  obtain ⟨es, hrecorded⟩ := h.recorded
  exact hrecorded.sound

theorem Quiet.journals (hs : s.Sound) (h : Quiet s s')
    (hview : s'.view env seen = s.view env seen) : Journals env seen s s' :=
  ⟨⟨[], h.recorded hs hview⟩, h.validRevisions, h.nextRevisionId⟩

theorem Loads.journals (hs : s.Sound) (h : Loads env s s') : Journals env seen s s' :=
  h.quiet.journals hs (h.view seen)

theorem Quiet.journals_append (hs : s.Sound) (h : Quiet s s')
    (hundo : (s'.view env seen).undoChange env s.db entry = some (s.view env seen)) :
    Journals env seen s (s'.append entry) := by
  refine ⟨⟨[entry], h.recorded_append hs hundo⟩, ?_, ?_⟩
  · rw [← h.validRevisions]
    unfold append
    cases entry.dirtied <;> rfl
  · rw [← h.nextRevisionId]
    unfold append
    cases entry.dirtied <;> rfl

/-! ## Accounts -/

theorem changed_journals (hs : s.Sound) {obj' : StateObject H} (hobj : s.object address = some obj)
    (hdeleted : obj'.deleted = false) {g : AccountView H → AccountView H}
    (hundo : ∀ v v' : View A H, v.change address g = some v' →
      v.undoChange env s.db entry = some v')
    (hg : g (s.objectView env address obj') = s.objectView env address obj) :
    Journals env seen s ((s.setStateObject address obj').append entry) := by
  refine (s.setStateObject_quiet address obj').journals_append hs (hundo _ _ ?_)
  have haccount : (s.view env seen).account address = some (s.objectView env address obj) := by
    rw [view_account, hobj]
    rfl
  rw [view_setStateObject, View.change_eq_some (Function.update_self ..) hdeleted, hg]
  simp only [Function.update_idem, ← haccount, Function.update_eq_self]

theorem created_journals (hs : s.Sound) (hnone : s.object address = none) (obj : StateObject H) :
    Journals env seen s ((s.setStateObject address obj).append (.createObjectChange address)) := by
  obtain ⟨hlive, hdb⟩ := Option.or_eq_none_iff.mp hnone
  refine (s.setStateObject_quiet address obj).journals_append hs (congrArg some
    (View.ext (Function.update_eq_iff.2 ⟨?_, fun x hx => ?_⟩) rfl ?_ rfl rfl rfl rfl rfl rfl))
  · rw [view_account, hnone, Option.map_eq_none_iff.mp hdb]
    rfl
  · exact view_account_congr (Function.update_of_ne hx ..) rfl rfl
  · -- An account without an object has nothing to be written.
    refine Function.update_eq_iff.2 ⟨?_, fun _ _ => rfl⟩
    cases hdirty : s.stateObjectsDirty address with
    | false => exact hdirty.symm
    | true =>
      have hsome := hs.held address hdirty
      rw [hlive] at hsome
      cases hsome

theorem reset_journals (hs : s.Sound) {prev : StateObject H}
    (hprev : s.object address = some prev) (obj : StateObject H) :
    Journals env seen s (({ s with
        stateObjectsDestruct := Function.update s.stateObjectsDestruct address true
      }.setStateObject address obj).append
        (.resetObjectChange address prev (s.stateObjectsDestruct address))) := by
  have hquiet : Quiet s { s with
      stateObjectsDestruct := Function.update s.stateObjectsDestruct address true } :=
    ⟨rfl, rfl, rfl, rfl, rfl, fun hs => ⟨hs.held, hs.filled⟩⟩
  have hflag : (s.stateObjectsDestruct address &&
      Function.update s.stateObjectsDestruct address true address) =
      s.stateObjectsDestruct address := by
    rw [Function.update_self, Bool.and_true]
  refine (hquiet.trans (setStateObject_quiet ..)).journals_append hs (congrArg some
    (View.ext (Function.update_eq_iff.2 ⟨?_, fun x hx => ?_⟩)
      (Function.update_eq_iff.2 ⟨hflag, fun x hx => Function.update_of_ne hx ..⟩)
      rfl rfl rfl rfl rfl rfl rfl))
  · rw [view_account, hprev]
    exact congrArg (fun flag => some (prev.view env s.db address flag)) hflag
  · exact view_account_congr (Function.update_of_ne hx ..) rfl (Function.update_of_ne hx ..)

omit [DecidableEq A] in
theorem Loads.object_eq (h : Loads env s s') (hset : s'.stateObjects address = s.object address) :
    s'.object address = s.object address := by
  unfold object
  rw [hset, h.quiet.db]
  unfold object
  rw [Option.or_assoc, Option.or_self]

omit [DecidableEq H] [Zero H] in
theorem setStateObject_setStateObject (s : StateDB A H) (obj obj' : StateObject H) :
    (s.setStateObject address obj).setStateObject address obj' =
      s.setStateObject address obj' := by
  unfold setStateObject
  simp only [Function.update_idem]

theorem createObject_journals (hs : s.Sound) (address : A) (obj : StateObject H) :
    Journals env seen s ((s.createObject env address).2.2.setStateObject address obj) := by
  obtain ⟨hobject, hloads, hset⟩ := s.getDeletedStateObject_spec env address
  have hjournals : Journals env seen s (s.getDeletedStateObject address).2 := hloads.journals hs
  have hsame := hloads.object_eq hset
  unfold createObject
  split
  next t hget =>
    rw [hget] at hobject hjournals hsame
    have hnone : t.object address = none := hsame.trans hobject.symm
    have hcreated := hjournals.trans (created_journals hjournals.sound hnone obj)
    rw [setStateObject_setStateObject]
    exact hcreated
  next prev t hget =>
    rw [hget] at hobject hjournals hsame
    have hprev : t.object address = some prev := hsame.trans hobject.symm
    have hreset := hjournals.trans (reset_journals hjournals.sound hprev obj)
    dsimp only
    rw [setStateObject_setStateObject]
    exact hreset

omit [DecidableEq H] [Zero H] in
theorem createObject_fst (s : StateDB A H) : (s.createObject env address).1 = .blank env := by
  unfold createObject
  split <;> rfl

omit [DecidableEq H] [Zero H] in
theorem createObject_self (s : StateDB A H) :
    (s.createObject env address).2.2.setStateObject address (.blank env) =
      (s.createObject env address).2.2 := by
  unfold createObject
  split <;> exact setStateObject_setStateObject ..

theorem createAccount_journals (hs : s.Sound) :
    Journals env seen s (s.createAccount env address) := by
  unfold createAccount
  split
  next newObj prev t hcreate =>
    have hjournals : Journals env seen s _ :=
      createObject_journals hs address (newObj.setBalance prev.data.balance)
    rw [hcreate] at hjournals
    exact hjournals
  next newObj t hcreate =>
    have hjournals : Journals env seen s _ := createObject_journals hs address (.blank env)
    rw [createObject_self, hcreate] at hjournals
    exact hjournals

theorem getOrNewStateObject_journals (env : Env A H) (hs : s.Sound)
    (h : s.getOrNewStateObject env address = (obj, t)) :
    Journals env seen s t ∧ t.object address = some obj ∧ obj.deleted = false := by
  unfold getOrNewStateObject at h
  split at h
  next obj t hget =>
    cases h
    obtain ⟨hloads, hset, -, hdeleted⟩ := getStateObject_eq_some env hget
    exact ⟨hloads.journals hs, by simp [object, hset], hdeleted⟩
  next u hget =>
    have hloads : Journals env seen s u := (getStateObject_eq_none env hget).1.journals hs
    have hcreate : Journals env seen u _ :=
      createObject_journals hloads.sound address (.blank env)
    have hfst : (u.createObject env address).1 = obj := congrArg Prod.fst h
    have hsnd : (u.createObject env address).2.2 = t := congrArg Prod.snd h
    rw [createObject_self, hsnd] at hcreate
    rw [createObject_fst] at hfst
    refine ⟨hloads.trans hcreate, ?_, hfst ▸ rfl⟩
    rw [← hsnd, ← createObject_self, hfst]
    simp [object, setStateObject]

section

variable (hs : s.Sound)

include hs

theorem objectSetBalance_journals (hobj : s.object address = some obj)
    (hdeleted : obj.deleted = false) (amount : ℤ) :
    Journals env seen s (s.objectSetBalance address obj amount) := by
  show Journals env seen s ((s.setStateObject address (obj.setBalance amount)).append
    (.balanceChange address obj.data.balance))
  exact changed_journals hs hobj hdeleted (fun _ _ h => h) rfl

theorem setBalance_journals (amount : ℤ) :
    Journals env seen s (s.setBalance env address amount) := by
  obtain ⟨hjournals, hobj, hdeleted⟩ := getOrNewStateObject_journals env hs rfl
  exact hjournals.trans (objectSetBalance_journals hjournals.sound hobj hdeleted amount)

theorem subBalance_journals (amount : ℤ) :
    Journals env seen s (s.subBalance env address amount) := by
  obtain ⟨hjournals, hobj, hdeleted⟩ := getOrNewStateObject_journals env hs rfl
  unfold subBalance
  dsimp only
  split_ifs
  · exact hjournals
  · exact hjournals.trans (objectSetBalance_journals hjournals.sound hobj hdeleted _)

theorem touch_journals : Journals env seen s (s.touch env address) := by
  have hjournals : Journals env seen s (s.append (.touchChange address)) :=
    (Quiet.refl s).journals_append hs rfl
  unfold touch
  dsimp only
  split_ifs with hripemd
  · obtain ⟨es, hrecorded⟩ := hjournals.recorded
    refine ⟨⟨es, { hrecorded with
      dirties := fun x => ?_
      exact_dirties := fun x hx => ?_
      sound := ⟨hrecorded.sound.held, hrecorded.sound.filled⟩ }⟩,
      hjournals.validRevisions, hjournals.nextRevisionId⟩
    · refine (hrecorded.dirties x).trans ?_
      by_cases hx : x = address
      · simp [dirty, hx]
      · simp [dirty, hx]
    · have hxa : x ≠ address := fun heq => hx (heq.trans hripemd)
      exact (Function.update_of_ne hxa ..).trans (hrecorded.exact_dirties x hx)
  · exact hjournals

theorem addBalance_journals (amount : ℤ) :
    Journals env seen s (s.addBalance env address amount) := by
  obtain ⟨hjournals, hobj, hdeleted⟩ := getOrNewStateObject_journals env hs rfl
  unfold addBalance
  dsimp only
  split_ifs
  · exact hjournals.trans (touch_journals hjournals.sound)
  · exact hjournals
  · exact hjournals.trans (objectSetBalance_journals hjournals.sound hobj hdeleted _)

theorem setNonce_journals (nonce : UInt64) :
    Journals env seen s (s.setNonce env address nonce) := by
  obtain ⟨hjournals, hobj, hdeleted⟩ := getOrNewStateObject_journals env hs rfl
  refine hjournals.trans ?_
  show Journals env seen _ ((setStateObject _ address (StateObject.setNonce _ nonce)).append
    (.nonceChange address _))
  exact changed_journals hjournals.sound hobj hdeleted (fun _ _ h => h) rfl

theorem setCode_journals (code : Option Bytes) :
    Journals env seen s (s.setCode env address code) := by
  unfold setCode
  generalize hget : s.getOrNewStateObject env address = r
  obtain ⟨obj, t⟩ := r
  obtain ⟨hjournals, hobj, hdeleted⟩ := getOrNewStateObject_journals env hs hget
  refine hjournals.trans ?_
  dsimp only
  -- The code is loaded before it is set.
  generalize hload : obj.getCode env t.db = loaded
  obtain ⟨prevcode, obj'⟩ := loaded
  have hview : t.objectView env address (obj.getCode env t.db).2 = t.objectView env address obj :=
    StateObject.getCode_view env
  have hprev : (obj.getCode env t.db).1 = obj.codeValue env t.db := StateObject.getCode_fst env
  rw [hload] at hview hprev
  replace hprev : prevcode = obj'.codeValue env t.db :=
    hprev.trans (congrArg AccountView.code hview).symm
  show Journals env seen t ((t.setStateObject address
    (obj'.setCode (env.keccak256 (code.getD [])) code)).append
      (.codeChange address prevcode obj'.data.codeHash))
  refine changed_journals hjournals.sound hobj
    ((congrArg AccountView.deleted hview).trans hdeleted) (fun _ _ h => h) ?_
  rw [← hview, hprev, StateObject.codeValue, Option.or_assoc, Option.or_self]
  rfl

theorem setState_journals (key value : H) :
    Journals env seen s (s.setState env address key value) := by
  unfold setState
  generalize hget : s.getOrNewStateObject env address = r
  obtain ⟨obj, t⟩ := r
  obtain ⟨hjournals, hobj, hdeleted⟩ := getOrNewStateObject_journals env hs hget
  refine hjournals.trans ?_
  dsimp only
  generalize hload : obj.getState t.db address (t.stateObjectsDestruct address) key = loaded
  obtain ⟨prev, obj'⟩ := loaded
  have hview : t.objectView env address
      (obj.getState t.db address (t.stateObjectsDestruct address) key).2 =
      t.objectView env address obj := StateObject.getState_view env
  have hprev : (obj.getState t.db address (t.stateObjectsDestruct address) key).1 =
      obj.stateValue t.db address (t.stateObjectsDestruct address) key := StateObject.getState_fst
  rw [hload] at hview hprev
  replace hprev : prev = obj'.stateValue t.db address (t.stateObjectsDestruct address) key :=
    hprev.trans (congrFun (congrArg AccountView.state hview) key).symm
  dsimp only
  split_ifs with heq
  · exact (Loads.set hobj hview).journals hjournals.sound
  · show Journals env seen t ((t.setStateObject address (obj'.setState key value)).append
      (.storageChange address key prev))
    refine changed_journals hjournals.sound hobj
      ((congrArg AccountView.deleted hview).trans hdeleted) (fun _ _ h => h) ?_
    rw [← hview, objectView, StateObject.setState_view, hprev]
    simp only [Function.update_idem, Function.update_eq_self]
    rfl

theorem suicide_journals : Journals env seen s (s.suicide address).2 := by
  unfold suicide
  split
  next t hget => exact (getStateObject_eq_none env hget).1.journals hs
  next obj t hget =>
    obtain ⟨hloads, hset, -, hdeleted⟩ := getStateObject_eq_some env hget
    have hobj : t.object address = some obj := by simp [object, hset]
    have hjournals : Journals env seen s t := hloads.journals hs
    refine hjournals.trans ?_
    show Journals env seen t ((t.setStateObject address
      { obj.setBalance 0 with suicided := true }).append
        (.suicideChange address obj.suicided obj.data.balance))
    refine changed_journals hjournals.sound hobj hdeleted
      (g := fun a => { a with suicided := obj.suicided, balance := obj.data.balance })
      (fun v v' h => ?_) rfl
    simp only [View.undoChange, h, Option.getD_some]

end

/-! ## The rest of the state -/

section

variable (hs : s.Sound)

include hs

theorem addLog_journals (log : Log A H) : Journals env seen s (s.addLog log) := by
  let log' := { log with txHash := s.thash, txIndex := s.txIndex, index := s.logSize }
  show Journals env seen s (append { s with
    logs := Function.update s.logs s.thash (s.logs s.thash ++ [log'])
    logSize := s.logSize + 1 } (.addLogChange s.thash))
  refine Quiet.journals_append hs ⟨rfl, rfl, rfl, rfl, rfl, fun hs => ⟨hs.held, hs.filled⟩⟩ ?_
  refine (if_neg ?_).trans (congrArg some (View.ext rfl rfl rfl rfl
    (Function.update_eq_iff.2 ⟨?_, fun x hx => ?_⟩) (UInt64.add_sub_cancel ..) rfl rfl rfl))
  · simp [view]
  · simp [view]
  · simp [view, hx]

theorem addPreimage_journals (hash : H) (preimage : Bytes) :
    Journals env seen s (s.addPreimage hash preimage) := by
  unfold addPreimage
  split
  next => exact (Loads.refl s).journals hs
  next hnone =>
    show Journals env seen s (append { s with
      preimages := Function.update s.preimages hash (some preimage) } (.addPreimageChange hash))
    refine Quiet.journals_append hs ⟨rfl, rfl, rfl, rfl, rfl, fun hs => ⟨hs.held, hs.filled⟩⟩
      (congrArg some (View.ext rfl rfl rfl rfl rfl rfl
        (Function.update_eq_iff.2 ⟨hnone.symm, fun x hx => ?_⟩) rfl rfl))
    exact Function.update_of_ne hx ..

theorem addRefund_journals (gas : UInt64) : Journals env seen s (s.addRefund gas) := by
  show Journals env seen s (append { s with refund := s.refund + gas } (.refundChange s.refund))
  exact Quiet.journals_append hs ⟨rfl, rfl, rfl, rfl, rfl, fun hs => ⟨hs.held, hs.filled⟩⟩ rfl

theorem subRefund_journals {gas : UInt64} (h : s.subRefund gas = some s') :
    Journals env seen s s' := by
  unfold subRefund at h
  dsimp only at h
  split_ifs at h
  obtain rfl := Option.some.inj h
  show Journals env seen s (append { s with refund := s.refund - gas } (.refundChange s.refund))
  exact Quiet.journals_append hs ⟨rfl, rfl, rfl, rfl, rfl, fun hs => ⟨hs.held, hs.filled⟩⟩ rfl

theorem setTransientState_journals (key value : H) :
    Journals env seen s (s.setTransientState address key value) := by
  unfold setTransientState
  dsimp only
  split_ifs
  · exact (Loads.refl s).journals hs
  · show Journals env seen s ((s.storeTransientState address key value).append
      (.transientStorageChange address key (s.transientStorage address key)))
    refine Quiet.journals_append hs ⟨rfl, rfl, rfl, rfl, rfl, fun hs => ⟨hs.held, hs.filled⟩⟩ ?_
    refine congrArg some (View.ext rfl rfl rfl rfl rfl rfl rfl rfl
      (Function.update_eq_iff.2 ⟨?_, fun x hx => Function.update_of_ne hx ..⟩))
    simp [view, storeTransientState]

theorem addedAddress_journals (hnone : s.accessList.addresses address = none) :
    Journals env seen s (append { s with accessList := (s.accessList.addAddress address).2 }
      (.accessListAddAccountChange address)) := by
  refine Quiet.journals_append hs ⟨rfl, rfl, rfl, rfl, rfl, fun hs => ?_⟩
    (congrArg some (View.ext rfl rfl rfl rfl rfl rfl rfl
      (AccessList.deleteAddress_addAddress hnone) rfl))
  exact ⟨hs.held, hs.filled.addAddress address⟩

theorem addedSlot_journals {accessList : AccessList A H} (hfilled : accessList.Filled)
    (hdelete : accessList.deleteSlot address slot = some s.accessList) :
    Journals env seen s (append { s with accessList } (.accessListAddSlotChange address slot)) := by
  refine Quiet.journals_append hs ⟨rfl, rfl, rfl, rfl, rfl, fun hs => ⟨hs.held, hfilled⟩⟩ ?_
  show (accessList.deleteSlot address slot).map _ = _
  rw [hdelete]
  rfl

theorem addAddressToAccessList_journals :
    Journals env seen s (s.addAddressToAccessList address) := by
  unfold addAddressToAccessList AccessList.addAddress
  cases hpresent : s.accessList.addresses address with
  | some index => exact (Loads.refl s).journals hs
  | none =>
    have hadded : Journals env seen s _ := addedAddress_journals hs hpresent
    simp only [AccessList.addAddress, hpresent] at hadded
    exact hadded

theorem addSlotToAccessList_journals (h : s.addSlotToAccessList address slot = some s') :
    Journals env seen s s' := by
  obtain ⟨⟨addrMod, slotMod, accessList⟩, hadd, h⟩ := Option.bind_eq_some_iff.mp h
  obtain rfl := Option.some.inj h
  have hfilled := AccessList.addSlot_filled hs.filled hadd
  obtain ⟨rfl, rfl, rfl⟩ | ⟨rfl, rfl, hdelete⟩ | ⟨rfl, rfl, hnone, hdelete⟩ :=
    AccessList.addSlot_cases hs.filled hadd
  · exact (Loads.refl s).journals hs
  · exact addedSlot_journals hs hfilled hdelete
  · have haddress : Journals env seen s _ := addedAddress_journals hs hnone
    exact haddress.trans (addedSlot_journals haddress.sound hfilled hdelete)

end

end StateDB

end EvmState

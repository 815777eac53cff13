import NarwhalGeth.EvmState.StateDB

/-!
# What can be seen of the state

The view of a state leaves out what is only cached. Reads do not change it, and reverting a journal
entry acts on the view alone. How much of a log is seen is a parameter, since `GetLogs` annotates
the logs in place.
-/

namespace EvmState

variable {A H : Type} [DecidableEq A] [DecidableEq H] [Zero H] (env : Env A H)
  {obj obj' : StateObject H} {t : StateDB A H} {key : H} {address : A}

/-! ## Objects -/

structure AccountView (H : Type) where
  nonce : UInt64
  balance : ℤ
  codeHash : H
  code : Option Bytes
  suicided : Bool
  deleted : Bool
  state : H → H
  committed : H → H

def AccountView.isEmpty (account : AccountView H) : Bool :=
  account.nonce = 0 ∧ account.balance = 0 ∧ account.codeHash = env.emptyCodeHash

namespace StateObject

variable (db : Database A H) (address : A) (destructed : Bool) (obj : StateObject H)

def codeValue : Option Bytes :=
  obj.code.or (if obj.data.codeHash = env.emptyCodeHash then none
    else db.contractCode obj.data.codeHash)

def committedValue (key : H) : H :=
  ((obj.pendingStorage key).or (obj.originStorage key)).getD
    (if destructed = true then 0 else db.storage address obj.data.root key)

def stateValue (key : H) : H :=
  (obj.dirtyStorage key).getD (obj.committedValue db address destructed key)

def view : AccountView H where
  nonce := obj.data.nonce
  balance := obj.data.balance
  codeHash := obj.data.codeHash
  code := obj.codeValue env db
  suicided := obj.suicided
  deleted := obj.deleted
  state := obj.stateValue db address destructed
  committed := obj.committedValue db address destructed

variable {db address destructed obj}

omit [DecidableEq A] [Zero H] in
theorem getCode_fst : (obj.getCode env db).1 = obj.codeValue env db := by
  unfold getCode codeValue
  cases obj.code with
  | some code => rfl
  | none =>
    dsimp only
    split_ifs <;> rfl

omit [DecidableEq A] [Zero H] in
theorem codeSize_eq : obj.codeSize env db = ((obj.codeValue env db).getD []).length := by
  unfold codeSize codeValue
  cases obj.code with
  | some code => rfl
  | none =>
    dsimp only
    split_ifs <;> rfl

section

omit [DecidableEq A]

theorem getCode_view :
    (obj.getCode env db).2.view env db address destructed = obj.view env db address destructed := by
  have hcode : (obj.getCode env db).2.codeValue env db = obj.codeValue env db := by
    unfold getCode codeValue
    cases hcode : obj.code with
    | some code => simp [hcode]
    | none =>
      dsimp only
      split_ifs with hempty
      · simp [hcode]
      · cases db.contractCode obj.data.codeHash <;> simp
  unfold view
  rw [hcode]
  unfold getCode
  cases obj.code with
  | some code => rfl
  | none =>
    dsimp only
    split_ifs <;> rfl

theorem getCommittedState_fst : (obj.getCommittedState db address destructed key).1 =
    obj.committedValue db address destructed key := by
  unfold getCommittedState committedValue
  cases obj.pendingStorage key with
  | some value => rfl
  | none =>
    cases obj.originStorage key with
    | some value => rfl
    | none =>
      dsimp only
      split_ifs <;> rfl

theorem getState_fst :
    (obj.getState db address destructed key).1 = obj.stateValue db address destructed key := by
  unfold getState stateValue
  cases obj.dirtyStorage key with
  | some value => rfl
  | none => exact getCommittedState_fst

theorem getCommittedState_view :
    (obj.getCommittedState db address destructed key).2.view env db address destructed =
      obj.view env db address destructed := by
  unfold getCommittedState
  cases hpending : obj.pendingStorage key with
  | some value => rfl
  | none =>
    cases horigin : obj.originStorage key with
    | some value => rfl
    | none =>
      dsimp only
      split_ifs with hdestructed
      · rfl
      · have hcommitted : ∀ key', committedValue db address destructed { obj with
            originStorage := Function.update obj.originStorage key
              (some (db.storage address obj.data.root key)) } key' =
            obj.committedValue db address destructed key' := by
          intro key'
          unfold committedValue
          by_cases hkey : key' = key
          · subst hkey
            simp [hpending, horigin, hdestructed]
          · simp [Function.update_of_ne hkey]
        unfold view stateValue
        simp only [funext hcommitted, hcommitted]
        rfl

theorem getState_view :
    (obj.getState db address destructed key).2.view env db address destructed =
      obj.view env db address destructed := by
  unfold getState
  cases obj.dirtyStorage key with
  | some value => rfl
  | none => exact getCommittedState_view env

theorem setState_view (key value : H) :
    (obj.setState key value).view env db address destructed =
      { obj.view env db address destructed with
        state := Function.update (obj.stateValue db address destructed) key value } := by
  have hstate : (obj.setState key value).stateValue db address destructed =
      Function.update (obj.stateValue db address destructed) key value := by
    funext key'
    unfold setState stateValue
    by_cases hkey : key' = key
    · subst hkey
      simp
    · simp only [Function.update_of_ne hkey]
      rfl
  unfold view
  rw [hstate]
  rfl

end

end StateObject

/-! ## The state -/

@[ext]
structure View (A H : Type) where
  account : A → Option (AccountView H)
  destruct : A → Bool
  dirtyObjects : A → Bool
  refund : UInt64
  logs : H → List (Log A H)
  logSize : UInt64
  preimages : H → Option Bytes
  accessList : AccessList A H
  transientStorage : A → H → H

/-- A log without the block it is annotated with. -/
def Log.plain (log : Log A H) : Log A H := { log with blockNumber := 0, blockHash := 0 }

/-- The view of an account that is not deleted. -/
def View.existing (v : View A H) (address : A) : Option (AccountView H) :=
  (v.account address).filter fun account => !account.deleted

namespace StateDB

variable {env} {seen : Log A H → Log A H} {s s' : StateDB A H} {address : A}

/-- The object of an account, loaded or not. -/
def object (s : StateDB A H) (address : A) : Option (StateObject H) :=
  (s.stateObjects address).or ((s.db.account address).map StateObject.newObject)

variable (env) in
def objectView (s : StateDB A H) (address : A) (obj : StateObject H) : AccountView H :=
  obj.view env s.db address (s.stateObjectsDestruct address)

variable (env) in
def view (seen : Log A H → Log A H) (s : StateDB A H) : View A H where
  account address := (s.object address).map (s.objectView env address)
  destruct := s.stateObjectsDestruct
  dirtyObjects := s.stateObjectsDirty
  refund := s.refund
  logs hash := (s.logs hash).map seen
  logSize := s.logSize
  preimages := s.preimages
  accessList := s.accessList
  transientStorage := s.transientStorage

omit [DecidableEq A] in
theorem view_account (s : StateDB A H) (address : A) :
    (s.view env seen).account address = (s.object address).map (s.objectView env address) :=
  rfl

theorem view_setStateObject (s : StateDB A H) (address : A) (obj : StateObject H) :
    (s.setStateObject address obj).view env seen = { s.view env seen with
      account := Function.update (s.view env seen).account address
        (some (s.objectView env address obj)) } := by
  refine View.ext (funext fun x => ?_) rfl rfl rfl rfl rfl rfl rfl rfl
  by_cases hx : x = address
  · subst hx
    simp [view, object, setStateObject, objectView]
  · have hobject : (s.setStateObject address obj).object x = s.object x := by
      simp [object, setStateObject, hx]
    rw [view_account, hobject]
    exact Eq.trans rfl (Function.update_of_ne hx _ (s.view env seen).account).symm

theorem view_setStateObject_self (h : s.object address = some obj)
    (hview : s.objectView env address obj' = s.objectView env address obj) :
    (s.setStateObject address obj').view env seen = s.view env seen := by
  rw [view_setStateObject, hview]
  have haccount : (s.view env seen).account address = some (s.objectView env address obj) := by
    rw [view_account, h]
    rfl
  rw [← haccount, Function.update_eq_self]

/-- The objects may be loaded, and the rest is the same. -/
structure Loads (env : Env A H) (s s' : StateDB A H) : Prop where
  view : ∀ seen, s'.view env seen = s.view env seen
  rest : ∃ stateObjects, s' = { s with stateObjects }
  held : ∀ x, (s.stateObjects x).isSome → (s'.stateObjects x).isSome

omit [DecidableEq A] in
theorem Loads.refl (s : StateDB A H) : Loads env s s := ⟨fun _ => rfl, ⟨_, rfl⟩, fun _ h => h⟩

omit [DecidableEq A] in
theorem Loads.trans {s'' : StateDB A H} (h : Loads env s s') (h' : Loads env s' s'') :
    Loads env s s'' := by
  obtain ⟨objects, rfl⟩ := h.rest
  obtain ⟨objects', rfl⟩ := h'.rest
  exact ⟨fun seen => (h'.view seen).trans (h.view seen), ⟨objects', rfl⟩,
    fun x hx => h'.held x (h.held x hx)⟩

theorem Loads.set (h : s.object address = some obj)
    (hview : s.objectView env address obj' = s.objectView env address obj) :
    Loads env s (s.setStateObject address obj') := by
  refine ⟨fun _ => view_setStateObject_self h hview, ⟨_, rfl⟩, fun x hx => ?_⟩
  by_cases hxa : x = address
  · simp [setStateObject, hxa]
  · simpa [setStateObject, hxa] using hx

/-- The object of an account is loaded. -/
theorem getDeletedStateObject_spec (env : Env A H) (s : StateDB A H) (address : A) :
    (s.getDeletedStateObject address).1 = s.object address ∧
      Loads env s (s.getDeletedStateObject address).2 ∧
      (s.getDeletedStateObject address).2.stateObjects address = s.object address := by
  unfold getDeletedStateObject
  cases hlive : s.stateObjects address with
  | some obj =>
    have hobject : s.object address = some obj := by simp [object, hlive]
    exact ⟨hobject.symm, .refl s, hlive.trans hobject.symm⟩
  | none =>
    cases hdb : s.db.account address with
    | none =>
      have hobject : s.object address = none := by simp [object, hlive, hdb]
      exact ⟨hobject.symm, .refl s, hlive.trans hobject.symm⟩
    | some data =>
      have hobject : s.object address = some (.newObject data) := by simp [object, hlive, hdb]
      exact ⟨hobject.symm, .set hobject rfl, by simp [setStateObject, hobject]⟩

theorem getStateObject_spec (env : Env A H) (s : StateDB A H) (address : A) :
    (s.getStateObject address).1 = (s.object address).filter (fun obj => !obj.deleted) ∧
      Loads env s (s.getStateObject address).2 ∧
      (s.getStateObject address).2.stateObjects address = s.object address := by
  obtain ⟨hobject, hloads, hset⟩ := s.getDeletedStateObject_spec env address
  exact ⟨congrArg (Option.filter fun obj : StateObject H => !obj.deleted) hobject, hloads, hset⟩

theorem getStateObject_eq_some (env : Env A H) (h : s.getStateObject address = (some obj, t)) :
    Loads env s t ∧ t.stateObjects address = some obj ∧ s.object address = some obj ∧
      obj.deleted = false := by
  obtain ⟨hobj, hloads, hset⟩ := s.getStateObject_spec env address
  rw [h] at hobj hloads hset
  obtain ⟨hobject, hdeleted⟩ := Option.filter_eq_some_iff.mp hobj.symm
  exact ⟨hloads, hset.trans hobject, hobject, by simpa using hdeleted⟩

theorem getStateObject_eq_none (env : Env A H) (h : s.getStateObject address = (none, t)) :
    Loads env s t ∧ t.stateObjects address = s.object address ∧
      ∀ obj, s.object address = some obj → obj.deleted = true := by
  obtain ⟨hobj, hloads, hset⟩ := s.getStateObject_spec env address
  rw [h] at hobj hloads hset
  refine ⟨hloads, hset, fun obj hobject => ?_⟩
  rw [hobject] at hobj
  simpa [Option.filter] using hobj.symm

/-! ### Reads -/

variable (env seen s address)

theorem getStateObject_map :
    (s.getStateObject address).1.map (s.objectView env address) =
      (s.view env seen).existing address := by
  rw [(s.getStateObject_spec env address).1, View.existing, view_account]
  cases s.object address with
  | none => rfl
  | some obj => cases hdeleted : obj.deleted <;>
      simp [Option.filter, objectView, StateObject.view, hdeleted]

theorem getStateObject_elim {β : Type*} (default : β)
    {f : StateObject H → β} {g : AccountView H → β}
    (h : ∀ obj, g (s.objectView env address obj) = f obj) :
    (s.getStateObject address).1.elim default f =
      ((s.view env seen).existing address).elim default g := by
  rw [← getStateObject_map]
  cases (s.getStateObject address).1 with
  | none => rfl
  | some obj => exact (h obj).symm

theorem exist_fst :
    (s.exist address).1 = ((s.view env seen).existing address).isSome := by
  rw [← getStateObject_map, Option.isSome_map]
  rfl

theorem isEmpty_fst : (s.isEmpty env address).1 =
    ((s.view env seen).existing address).all fun account => account.isEmpty env := by
  rw [← getStateObject_map, Option.all_map]
  rfl

theorem hasSuicided_fst : (s.hasSuicided address).1 =
    ((s.view env seen).existing address).any AccountView.suicided := by
  rw [← getStateObject_map, Option.any_map]
  rfl

theorem getBalance_fst : (s.getBalance address).1 =
    ((s.view env seen).existing address).elim 0 AccountView.balance :=
  getStateObject_elim env seen s address 0 fun _ => rfl

theorem getNonce_fst : (s.getNonce address).1 =
    ((s.view env seen).existing address).elim 0 AccountView.nonce :=
  getStateObject_elim env seen s address 0 fun _ => rfl

theorem getCodeHash_fst : (s.getCodeHash address).1 =
    ((s.view env seen).existing address).elim 0 AccountView.codeHash :=
  getStateObject_elim env seen s address 0 fun _ => rfl

theorem getCode_fst : (s.getCode env address).1 =
    ((s.view env seen).existing address).elim none AccountView.code := by
  rw [← getStateObject_elim env seen s address none (f := fun obj => obj.codeValue env s.db)
    fun _ => rfl]
  unfold getCode
  split
  next t hget => rw [hget]; rfl
  next obj t hget =>
    obtain ⟨hloads, -⟩ := getStateObject_eq_some env hget
    obtain ⟨objects, rfl⟩ := hloads.rest
    rw [hget]
    exact StateObject.getCode_fst env

theorem getCodeSize_fst : (s.getCodeSize env address).1 =
    ((s.view env seen).existing address).elim 0 fun account => (account.code.getD []).length := by
  obtain ⟨objects, hrest⟩ := (s.getStateObject_spec env address).2.1.rest
  rw [← getStateObject_elim env seen s address 0 (f := fun obj => obj.codeSize env s.db)
    fun obj => (StateObject.codeSize_eq env).symm]
  unfold getCodeSize
  dsimp only
  rw [hrest]

theorem getState_fst (key : H) : (s.getState address key).1 =
    ((s.view env seen).existing address).elim 0 fun account => account.state key := by
  rw [← getStateObject_elim env seen s address 0
    (f := fun obj => obj.stateValue s.db address (s.stateObjectsDestruct address) key) fun _ => rfl]
  unfold getState
  split
  next t hget => rw [hget]; rfl
  next obj t hget =>
    obtain ⟨hloads, -⟩ := getStateObject_eq_some env hget
    obtain ⟨objects, rfl⟩ := hloads.rest
    rw [hget]
    exact StateObject.getState_fst

theorem getCommittedState_fst (key : H) :
    (s.getCommittedState address key).1 =
      ((s.view env seen).existing address).elim 0 fun account => account.committed key := by
  rw [← getStateObject_elim env seen s address 0
    (f := fun obj => obj.committedValue s.db address (s.stateObjectsDestruct address) key)
    fun _ => rfl]
  unfold getCommittedState
  split
  next t hget => rw [hget]; rfl
  next obj t hget =>
    obtain ⟨hloads, -⟩ := getStateObject_eq_some env hget
    obtain ⟨objects, rfl⟩ := hloads.rest
    rw [hget]
    exact StateObject.getCommittedState_fst

variable {s address}

/-- What can be read of a state, with the logs as `GetLogs` annotates them. -/
structure SameReads (env : Env A H) (s s' : StateDB A H) : Prop where
  exist : ∀ address, (s'.exist address).1 = (s.exist address).1
  isEmpty : ∀ address, (s'.isEmpty env address).1 = (s.isEmpty env address).1
  balance : ∀ address, (s'.getBalance address).1 = (s.getBalance address).1
  nonce : ∀ address, (s'.getNonce address).1 = (s.getNonce address).1
  code : ∀ address, (s'.getCode env address).1 = (s.getCode env address).1
  codeSize : ∀ address, (s'.getCodeSize env address).1 = (s.getCodeSize env address).1
  codeHash : ∀ address, (s'.getCodeHash address).1 = (s.getCodeHash address).1
  state : ∀ address key, (s'.getState address key).1 = (s.getState address key).1
  committedState : ∀ address key,
    (s'.getCommittedState address key).1 = (s.getCommittedState address key).1
  suicided : ∀ address, (s'.hasSuicided address).1 = (s.hasSuicided address).1
  refund : s'.refund = s.refund
  logs : ∀ hash blockNumber blockHash,
    (s'.getLogs hash blockNumber blockHash).1 = (s.getLogs hash blockNumber blockHash).1
  logSize : s'.logSize = s.logSize
  preimages : s'.preimages = s.preimages
  accessList : s'.accessList = s.accessList
  transientStorage : s'.transientStorage = s.transientStorage

omit [DecidableEq A] in
theorem getLogs_congr {hash : H} {blockNumber : UInt64} {blockHash : H}
    (h : (s'.logs hash).map Log.plain = (s.logs hash).map Log.plain) :
    (s'.getLogs hash blockNumber blockHash).1 = (s.getLogs hash blockNumber blockHash).1 := by
  have hannotate : ∀ logs : List (Log A H),
      logs.map (fun log => { log with blockNumber, blockHash }) =
        (logs.map Log.plain).map fun log => { log with blockNumber, blockHash } := by
    intro logs
    rw [List.map_map]
    rfl
  simp only [getLogs]
  rw [hannotate, h, ← hannotate]

variable {env}

theorem SameReads.of_existing
    (h : (s'.view env Log.plain).existing = (s.view env Log.plain).existing)
    (hrefund : s'.refund = s.refund)
    (hlogs : ∀ hash, (s'.logs hash).map Log.plain = (s.logs hash).map Log.plain)
    (hlogSize : s'.logSize = s.logSize) (hpreimages : s'.preimages = s.preimages)
    (haccessList : s'.accessList = s.accessList)
    (htransientStorage : s'.transientStorage = s.transientStorage) : SameReads env s s' where
  exist address := by rw [exist_fst env Log.plain, h, ← exist_fst]
  isEmpty address := by rw [isEmpty_fst env Log.plain, h, ← isEmpty_fst]
  balance address := by rw [getBalance_fst env Log.plain, h, ← getBalance_fst]
  nonce address := by rw [getNonce_fst env Log.plain, h, ← getNonce_fst]
  code address := by rw [getCode_fst env Log.plain, h, ← getCode_fst]
  codeSize address := by rw [getCodeSize_fst env Log.plain, h, ← getCodeSize_fst]
  codeHash address := by rw [getCodeHash_fst env Log.plain, h, ← getCodeHash_fst]
  state address key := by rw [getState_fst env Log.plain, h, ← getState_fst]
  committedState address key := by
    rw [getCommittedState_fst env Log.plain, h, ← getCommittedState_fst]
  suicided address := by rw [hasSuicided_fst env Log.plain, h, ← hasSuicided_fst]
  refund := hrefund
  logs hash _ _ := getLogs_congr (hlogs hash)
  logSize := hlogSize
  preimages := hpreimages
  accessList := haccessList
  transientStorage := htransientStorage

theorem SameReads.of_view (h : s'.view env Log.plain = s.view env Log.plain) :
    SameReads env s s' :=
  .of_existing (congrArg View.existing h) (congrArg View.refund h)
    (fun hash => congrFun (congrArg View.logs h) hash) (congrArg View.logSize h)
    (congrArg View.preimages h) (congrArg View.accessList h) (congrArg View.transientStorage h)

end StateDB

/-! ## Undoing a change -/

namespace View

/-- Changes an account that exists. -/
def change (v : View A H) (address : A) (f : AccountView H → AccountView H) :
    Option (View A H) :=
  (v.existing address).map fun account =>
    { v with account := Function.update v.account address (some (f account)) }

omit [DecidableEq H] [Zero H] in
theorem change_eq_some {v : View A H} {account : AccountView H}
    (h : v.account address = some account) (hdeleted : account.deleted = false)
    (f : AccountView H → AccountView H) : v.change address f =
      some { v with account := Function.update v.account address (some (f account)) } := by
  simp [change, existing, h, hdeleted]

omit [DecidableEq H] [Zero H] in
theorem change_eq_none {v : View A H}
    (h : ∀ account, v.account address = some account → account.deleted = true)
    (f : AccountView H → AccountView H) : v.change address f = none := by
  cases haccount : v.account address with
  | none => simp [change, existing, haccount]
  | some account => simp [change, existing, haccount, h account haccount]

/-- What reverting an entry does to the view. -/
def undoChange (db : Database A H) (entry : JournalEntry A H) (v : View A H) : Option (View A H) :=
  match entry with
  | .createObjectChange account => some { v with
      account := Function.update v.account account ((db.account account).map fun data =>
        (StateObject.newObject data).view env db account (v.destruct account))
      dirtyObjects := Function.update v.dirtyObjects account false }
  | .resetObjectChange account prev prevdestruct =>
    let destructed := prevdestruct && v.destruct account
    some { v with
      account := Function.update v.account account (some (prev.view env db account destructed))
      destruct := Function.update v.destruct account destructed }
  | .suicideChange account prev prevbalance =>
    some ((v.change account fun a => { a with suicided := prev, balance := prevbalance }).getD v)
  | .touchChange _ => some v
  | .balanceChange account prev => v.change account fun a => { a with balance := prev }
  | .nonceChange account prev => v.change account fun a => { a with nonce := prev }
  | .codeChange account prevcode prevhash => v.change account fun a => { a with
      codeHash := prevhash
      code := prevcode.or (if prevhash = env.emptyCodeHash then none
        else db.contractCode prevhash) }
  | .storageChange account key prevalue => v.change account fun a => { a with
      state := Function.update a.state key prevalue }
  | .transientStorageChange account key prevalue => some { v with
      transientStorage := Function.update v.transientStorage account
        (Function.update (v.transientStorage account) key prevalue) }
  | .refundChange prev => some { v with refund := prev }
  | .addLogChange txhash =>
    if (v.logs txhash).isEmpty then none
    else some { v with
      logs := Function.update v.logs txhash (v.logs txhash).dropLast
      logSize := v.logSize - 1 }
  | .addPreimageChange hash => some { v with preimages := Function.update v.preimages hash none }
  | .accessListAddAccountChange address =>
    some { v with accessList := v.accessList.deleteAddress address }
  | .accessListAddSlotChange address slot =>
    (v.accessList.deleteSlot address slot).map fun accessList => { v with accessList }

end View

namespace StateDB

variable {env} {seen : Log A H → Log A H} {s s' : StateDB A H}

theorem Loads.view_setStateObject (h : Loads env s s') (address : A) (obj : StateObject H) :
    (s'.setStateObject address obj).view env seen = { s.view env seen with
      account := Function.update (s.view env seen).account address
        (some (s.objectView env address obj)) } := by
  obtain ⟨objects, rfl⟩ := h.rest
  rw [StateDB.view_setStateObject, h.view seen]
  rfl

theorem deleted_of_getStateObject_eq_none (h : s.getStateObject address = (none, t)) :
    ∀ account, (s.view env seen).account address = some account → account.deleted = true := by
  obtain ⟨-, -, hdeleted⟩ := getStateObject_eq_none env h
  intro account haccount
  obtain ⟨obj, hobject, rfl⟩ := Option.map_eq_some_iff.mp haccount
  exact hdeleted obj hobject

theorem map_view_changeObject {f : StateObject H → StateObject H}
    {g : AccountView H → AccountView H}
    (h : ∀ obj, s.objectView env address (f obj) = g (s.objectView env address obj)) :
    (s.changeObject address f).map (view env seen) = (s.view env seen).change address g := by
  unfold changeObject
  split
  next t hget => exact (View.change_eq_none (deleted_of_getStateObject_eq_none hget) g).symm
  next obj t hget =>
    obtain ⟨hloads, -, hobject, hdeleted⟩ := getStateObject_eq_some env hget
    have haccount : (s.view env seen).account address = some (s.objectView env address obj) := by
      rw [view_account, hobject]
      rfl
    rw [View.change_eq_some haccount hdeleted, ← h obj, Option.map_some, hloads.view_setStateObject]

omit [DecidableEq A] in
theorem view_account_congr {x : A} (hobjects : s'.stateObjects x = s.stateObjects x)
    (hdb : s'.db = s.db) (hdestruct : s'.stateObjectsDestruct x = s.stateObjectsDestruct x) :
    (s'.view env seen).account x = (s.view env seen).account x := by
  rw [view_account, view_account, object, object, hobjects, hdb]
  unfold objectView
  rw [hdb, hdestruct]

theorem map_view_revertEntry (s : StateDB A H) (entry : JournalEntry A H) :
    (s.revertEntry entry).map (view env seen) = (s.view env seen).undoChange env s.db entry := by
  cases entry with
  | createObjectChange account =>
    refine congrArg some (View.ext (Function.eq_update_iff.2 ⟨?_, fun x hx => ?_⟩)
      rfl rfl rfl rfl rfl rfl rfl rfl)
    · rw [view_account, object]
      simp only [Function.update_self, Option.none_or, Option.map_map]
      rfl
    · exact view_account_congr (Function.update_of_ne hx ..) rfl rfl
  | resetObjectChange account prev prevdestruct =>
    cases prevdestruct with
    | true =>
      simp only [revertEntry, if_true, Option.map_some, view_setStateObject, View.undoChange,
        Bool.true_and, Function.update_eq_self]
      rfl
    | false =>
      refine congrArg some (View.ext (Function.eq_update_iff.2 ⟨?_, fun x hx => ?_⟩)
        rfl rfl rfl rfl rfl rfl rfl rfl)
      · simp only [setStateObject, Bool.false_eq_true, if_false, view_account, object, objectView,
          Function.update_self, Option.some_or, Option.map_some, Bool.false_and]
      · exact view_account_congr (Function.update_of_ne hx ..) rfl (Function.update_of_ne hx ..)
  | suicideChange account prev prevbalance =>
    simp only [revertEntry, View.undoChange]
    split
    next t hget =>
      obtain ⟨hloads, -⟩ := getStateObject_eq_none env hget
      rw [View.change_eq_none (deleted_of_getStateObject_eq_none hget)]
      exact congrArg some (hloads.view seen)
    next obj t hget =>
      obtain ⟨hloads, -, hobject, hdeleted⟩ := getStateObject_eq_some env hget
      have haccount : (s.view env seen).account account = some (s.objectView env account obj) := by
        rw [view_account, hobject]
        rfl
      rw [View.change_eq_some haccount hdeleted, Option.map_some, hloads.view_setStateObject]
      rfl
  | balanceChange account prev => exact map_view_changeObject fun _ => rfl
  | nonceChange account prev => exact map_view_changeObject fun _ => rfl
  | storageChange account key prevalue =>
    exact map_view_changeObject fun obj => StateObject.setState_view env key prevalue
  | codeChange account prevcode prevhash => exact map_view_changeObject fun _ => rfl
  | addLogChange txhash =>
    have hlogs : ((s.view env seen).logs txhash).isEmpty = (s.logs txhash).isEmpty :=
      List.isEmpty_map
    simp only [revertEntry, View.undoChange, hlogs]
    split_ifs
    · rfl
    · refine congrArg some (View.ext rfl rfl rfl rfl (funext fun hash => ?_) rfl rfl rfl rfl)
      by_cases hhash : hash = txhash
      · subst hhash
        simp [view, List.map_dropLast]
      · simp [view, hhash]
  | accessListAddSlotChange address slot =>
    simp only [revertEntry, View.undoChange]
    show _ = ((s.accessList.deleteSlot address slot).map _ : Option (View A H))
    cases s.accessList.deleteSlot address slot <;> rfl
  | refundChange | addPreimageChange | touchChange | accessListAddAccountChange
  | transientStorageChange => rfl

end StateDB

end EvmState

import Mathlib.Data.Finset.Basic
import NarwhalGeth.Lib.Machine
import NarwhalGeth.Lib.UndoLog

/-!
# The state of the virtual machine

`StateDB` caches the accounts of the state trie as objects that are changed in place. Every change
is recorded in a journal, from which `RevertToSnapshot` undoes it. An object is modelled without its
address, and the tries and the snapshot of the flat state are a database that answers reads.
-/

namespace EvmState

abbrev Bytes := List UInt8

structure StateAccount (H : Type) where
  nonce : UInt64
  balance : ℤ
  root : H
  codeHash : H

/-- What the tries, the flat snapshot and the code store answer. A failed read answers nothing. -/
structure Database (A H : Type) where
  account : A → Option (StateAccount H)
  storage : A → H → H → H
  contractCode : H → Option Bytes

/-- The hash function, and the address of the RIPEMD precompile. -/
structure Env (A H : Type) where
  keccak256 : Bytes → H
  emptyRootHash : H
  ripemd : A

def Env.emptyCodeHash {A H : Type} (env : Env A H) : H := env.keccak256 []

structure Log (A H : Type) where
  address : A
  topics : List H
  data : Bytes
  blockNumber : UInt64
  txHash : H
  txIndex : ℕ
  blockHash : H
  index : UInt64
  removed : Bool

/-! ## State objects -/

abbrev Storage (H : Type) := H → Option H

structure StateObject (H : Type) where
  data : StateAccount H
  code : Option Bytes
  originStorage : Storage H
  pendingStorage : Storage H
  dirtyStorage : Storage H
  dirtyCode : Bool
  suicided : Bool
  deleted : Bool

namespace StateObject

variable {A H : Type} [DecidableEq H] [Zero H]

def newObject (data : StateAccount H) : StateObject H where
  data := data
  code := none
  originStorage _ := none
  pendingStorage _ := none
  dirtyStorage _ := none
  dirtyCode := false
  suicided := false
  deleted := false

/-- The object of an account that does not exist yet. -/
def blank (env : Env A H) : StateObject H :=
  newObject ⟨0, 0, env.emptyRootHash, env.emptyCodeHash⟩

def isEmpty (env : Env A H) (obj : StateObject H) : Bool :=
  obj.data.nonce = 0 ∧ obj.data.balance = 0 ∧ obj.data.codeHash = env.emptyCodeHash

def setBalance (obj : StateObject H) (amount : ℤ) : StateObject H :=
  { obj with data := { obj.data with balance := amount } }

def setNonce (obj : StateObject H) (nonce : UInt64) : StateObject H :=
  { obj with data := { obj.data with nonce } }

def setCode (obj : StateObject H) (codeHash : H) (code : Option Bytes) : StateObject H :=
  { obj with code, data := { obj.data with codeHash }, dirtyCode := true }

def setState (obj : StateObject H) (key value : H) : StateObject H :=
  { obj with dirtyStorage := Function.update obj.dirtyStorage key (some value) }

/-- `Code`, which keeps the code it loads. -/
def getCode (env : Env A H) (db : Database A H) (obj : StateObject H) :
    Option Bytes × StateObject H :=
  match obj.code with
  | some code => (some code, obj)
  | none =>
    if obj.data.codeHash = env.emptyCodeHash then (none, obj)
    else
      let code := db.contractCode obj.data.codeHash
      (code, { obj with code })

def codeSize (env : Env A H) (db : Database A H) (obj : StateObject H) : ℕ :=
  match obj.code with
  | some code => code.length
  | none =>
    if obj.data.codeHash = env.emptyCodeHash then 0
    else ((db.contractCode obj.data.codeHash).getD []).length

/-- `GetCommittedState` of the object of an address, which keeps the value it loads. -/
def getCommittedState (db : Database A H) (address : A) (destructed : Bool) (obj : StateObject H)
    (key : H) : H × StateObject H :=
  match obj.pendingStorage key with
  | some value => (value, obj)
  | none =>
    match obj.originStorage key with
    | some value => (value, obj)
    | none =>
      if destructed = true then (0, obj)
      else
        let value := db.storage address obj.data.root key
        (value, { obj with originStorage := Function.update obj.originStorage key (some value) })

def getState (db : Database A H) (address : A) (destructed : Bool) (obj : StateObject H)
    (key : H) : H × StateObject H :=
  match obj.dirtyStorage key with
  | some value => (value, obj)
  | none => obj.getCommittedState db address destructed key

/-- `finalise`: the dirty slots become pending. -/
def finalise (obj : StateObject H) : StateObject H :=
  { obj with
    pendingStorage := fun key => (obj.dirtyStorage key).or (obj.pendingStorage key)
    dirtyStorage := fun _ => none }

end StateObject

/-! ## The access list -/

/-- The index `-1` of an address without slots is `none`. -/
structure AccessList (A H : Type) where
  addresses : A → Option (Option ℕ)
  slots : List (Finset H)

namespace AccessList

variable {A H : Type} [DecidableEq A] [DecidableEq H]

def new : AccessList A H := ⟨fun _ => none, []⟩

def addAddress (al : AccessList A H) (address : A) : Bool × AccessList A H :=
  match al.addresses address with
  | some _ => (false, al)
  | none => (true, { al with addresses := Function.update al.addresses address (some none) })

/-- Whether the address and the slot were added. An index out of range panics. -/
def addSlot (al : AccessList A H) (address : A) (slot : H) :
    Option (Bool × Bool × AccessList A H) :=
  match al.addresses address with
  | some (some idx) =>
    match al.slots[idx]? with
    | none => none
    | some slotmap =>
      if slot ∈ slotmap then some (false, false, al)
      else some (false, true, { al with slots := al.slots.set idx (insert slot slotmap) })
  | present => some (present.isNone, true,
    ⟨Function.update al.addresses address (some (some al.slots.length)), al.slots ++ [{slot}]⟩)

def deleteSlot (al : AccessList A H) (address : A) (slot : H) : Option (AccessList A H) :=
  match al.addresses address with
  | some (some idx) =>
    match al.slots[idx]? with
    | none => none
    | some slotmap =>
      let slots := al.slots.set idx (slotmap.erase slot)
      if slotmap.erase slot = ∅ then
        some ⟨Function.update al.addresses address (some none), slots.take idx⟩
      else some { al with slots }
  | _ => none

def deleteAddress (al : AccessList A H) (address : A) : AccessList A H :=
  { al with addresses := Function.update al.addresses address none }

end AccessList

/-! ## The journal -/

/-- The entries, each with what it needs to be undone. -/
inductive JournalEntry (A H : Type) where
  | createObjectChange (account : A)
  | resetObjectChange (account : A) (prev : StateObject H) (prevdestruct : Bool)
  | suicideChange (account : A) (prev : Bool) (prevbalance : ℤ)
  | balanceChange (account : A) (prev : ℤ)
  | nonceChange (account : A) (prev : UInt64)
  | storageChange (account : A) (key prevalue : H)
  | codeChange (account : A) (prevcode : Option Bytes) (prevhash : H)
  | refundChange (prev : UInt64)
  | addLogChange (txhash : H)
  | addPreimageChange (hash : H)
  | touchChange (account : A)
  | accessListAddAccountChange (address : A)
  | accessListAddSlotChange (address : A) (slot : H)
  | transientStorageChange (account : A) (key prevalue : H)

def JournalEntry.dirtied {A H : Type} : JournalEntry A H → Option A
  | createObjectChange account | suicideChange account _ _ | balanceChange account _
  | nonceChange account _ | storageChange account _ _ | codeChange account _ _
  | touchChange account => some account
  | _ => none

structure Revision where
  id : ℕ
  journalIndex : ℕ

/-- The state. The dirty accounts come with the number of their entries, zero for the others. -/
structure StateDB (A H : Type) where
  db : Database A H
  stateObjects : A → Option (StateObject H)
  stateObjectsPending : A → Bool
  stateObjectsDirty : A → Bool
  stateObjectsDestruct : A → Bool
  refund : UInt64
  thash : H
  txIndex : ℕ
  logs : H → List (Log A H)
  logSize : UInt64
  preimages : H → Option Bytes
  accessList : AccessList A H
  transientStorage : A → H → H
  entries : List (JournalEntry A H)
  dirties : A → ℕ
  validRevisions : List Revision
  nextRevisionId : ℕ

namespace StateDB

variable {A H : Type} [DecidableEq A] [DecidableEq H] [Zero H] (env : Env A H)

def new (db : Database A H) : StateDB A H where
  db := db
  stateObjects _ := none
  stateObjectsPending _ := false
  stateObjectsDirty _ := false
  stateObjectsDestruct _ := false
  refund := 0
  thash := 0
  txIndex := 0
  logs _ := []
  logSize := 0
  preimages _ := none
  accessList := .new
  transientStorage _ _ := 0
  entries := []
  dirties _ := 0
  validRevisions := []
  nextRevisionId := 0

variable (s : StateDB A H) (address : A)

/-- `journal.dirty`. -/
def dirty : StateDB A H :=
  { s with dirties := Function.update s.dirties address (s.dirties address + 1) }

/-- `journal.append`. -/
def append (entry : JournalEntry A H) : StateDB A H :=
  let s := { s with entries := s.entries ++ [entry] }
  match entry.dirtied with
  | some address => s.dirty address
  | none => s

def setStateObject (obj : StateObject H) : StateDB A H :=
  { s with stateObjects := Function.update s.stateObjects address (some obj) }

/-- The object of an account, which is kept if it is loaded. -/
def getDeletedStateObject : Option (StateObject H) × StateDB A H :=
  match s.stateObjects address with
  | some obj => (some obj, s)
  | none =>
    match s.db.account address with
    | none => (none, s)
    | some data =>
      let obj := StateObject.newObject data
      (some obj, s.setStateObject address obj)

def getStateObject : Option (StateObject H) × StateDB A H :=
  let (obj, s) := s.getDeletedStateObject address
  (obj.filter fun obj => !obj.deleted, s)

/-! ### Reads -/

def exist : Bool × StateDB A H :=
  let (obj, s) := s.getStateObject address
  (obj.isSome, s)

def isEmpty : Bool × StateDB A H :=
  let (obj, s) := s.getStateObject address
  (obj.all fun obj => obj.isEmpty env, s)

def getBalance : ℤ × StateDB A H :=
  let (obj, s) := s.getStateObject address
  (obj.elim 0 fun obj => obj.data.balance, s)

def getNonce : UInt64 × StateDB A H :=
  let (obj, s) := s.getStateObject address
  (obj.elim 0 fun obj => obj.data.nonce, s)

def getCode : Option Bytes × StateDB A H :=
  match s.getStateObject address with
  | (none, s) => (none, s)
  | (some obj, s) =>
    let (code, obj) := obj.getCode env s.db
    (code, s.setStateObject address obj)

def getCodeSize : ℕ × StateDB A H :=
  let (obj, s) := s.getStateObject address
  (obj.elim 0 fun obj => obj.codeSize env s.db, s)

def getCodeHash : H × StateDB A H :=
  let (obj, s) := s.getStateObject address
  (obj.elim 0 fun obj => obj.data.codeHash, s)

def getState (key : H) : H × StateDB A H :=
  match s.getStateObject address with
  | (none, s) => (0, s)
  | (some obj, s) =>
    let (value, obj) := obj.getState s.db address (s.stateObjectsDestruct address) key
    (value, s.setStateObject address obj)

def getCommittedState (key : H) : H × StateDB A H :=
  match s.getStateObject address with
  | (none, s) => (0, s)
  | (some obj, s) =>
    let (value, obj) := obj.getCommittedState s.db address (s.stateObjectsDestruct address) key
    (value, s.setStateObject address obj)

def hasSuicided : Bool × StateDB A H :=
  let (obj, s) := s.getStateObject address
  (obj.any fun obj => obj.suicided, s)

/-- The logs of a transaction, which are annotated in place. -/
def getLogs (hash : H) (blockNumber : UInt64) (blockHash : H) : List (Log A H) × StateDB A H :=
  let logs := (s.logs hash).map fun log => { log with blockNumber, blockHash }
  (logs, { s with logs := Function.update s.logs hash logs })

/-! ### Setters -/

/-- `createObject`: the new object and the previous one, unless it was deleted. -/
def createObject : StateObject H × Option (StateObject H) × StateDB A H :=
  let newobj := StateObject.blank env
  match s.getDeletedStateObject address with
  | (none, s) =>
    (newobj, none, (s.append (.createObjectChange address)).setStateObject address newobj)
  | (some prev, s) =>
    let prevdestruct := s.stateObjectsDestruct address
    let s := { s with
      stateObjectsDestruct := Function.update s.stateObjectsDestruct address true }
    (newobj, if prev.deleted then none else some prev,
      (s.append (.resetObjectChange address prev prevdestruct)).setStateObject address newobj)

def getOrNewStateObject : StateObject H × StateDB A H :=
  match s.getStateObject address with
  | (some obj, s) => (obj, s)
  | (none, s) =>
    let (obj, _, s) := s.createObject env address
    (obj, s)

def createAccount : StateDB A H :=
  match s.createObject env address with
  | (newObj, some prev, s) => s.setStateObject address (newObj.setBalance prev.data.balance)
  | (_, none, s) => s

/-- `SetBalance` of an object. -/
def objectSetBalance (obj : StateObject H) (amount : ℤ) : StateDB A H :=
  (s.append (.balanceChange address obj.data.balance)).setStateObject address
    (obj.setBalance amount)

def touch : StateDB A H :=
  let s := s.append (.touchChange address)
  if address = env.ripemd then s.dirty address else s

def addBalance (amount : ℤ) : StateDB A H :=
  let (obj, s) := s.getOrNewStateObject env address
  if amount = 0 then if obj.isEmpty env then s.touch env address else s
  else s.objectSetBalance address obj (obj.data.balance + amount)

def subBalance (amount : ℤ) : StateDB A H :=
  let (obj, s) := s.getOrNewStateObject env address
  if amount = 0 then s else s.objectSetBalance address obj (obj.data.balance - amount)

def setBalance (amount : ℤ) : StateDB A H :=
  let (obj, s) := s.getOrNewStateObject env address
  s.objectSetBalance address obj amount

def setNonce (nonce : UInt64) : StateDB A H :=
  let (obj, s) := s.getOrNewStateObject env address
  (s.append (.nonceChange address obj.data.nonce)).setStateObject address (obj.setNonce nonce)

def setCode (code : Option Bytes) : StateDB A H :=
  let (obj, s) := s.getOrNewStateObject env address
  let (prevcode, obj) := obj.getCode env s.db
  (s.append (.codeChange address prevcode obj.data.codeHash)).setStateObject address
    (obj.setCode (env.keccak256 (code.getD [])) code)

def setState (key value : H) : StateDB A H :=
  let (obj, s) := s.getOrNewStateObject env address
  let (prev, obj) := obj.getState s.db address (s.stateObjectsDestruct address) key
  if prev = value then s.setStateObject address obj
  else (s.append (.storageChange address key prev)).setStateObject address (obj.setState key value)

def suicide : Bool × StateDB A H :=
  match s.getStateObject address with
  | (none, s) => (false, s)
  | (some obj, s) =>
    (true, (s.append (.suicideChange address obj.suicided obj.data.balance)).setStateObject address
      { obj.setBalance 0 with suicided := true })

def addLog (log : Log A H) : StateDB A H :=
  let log := { log with txHash := s.thash, txIndex := s.txIndex, index := s.logSize }
  let s := s.append (.addLogChange s.thash)
  { s with
    logs := Function.update s.logs s.thash (s.logs s.thash ++ [log])
    logSize := s.logSize + 1 }

def addPreimage (hash : H) (preimage : Bytes) : StateDB A H :=
  match s.preimages hash with
  | some _ => s
  | none =>
    let s := s.append (.addPreimageChange hash)
    { s with preimages := Function.update s.preimages hash (some preimage) }

def addRefund (gas : UInt64) : StateDB A H :=
  let s := s.append (.refundChange s.refund)
  { s with refund := s.refund + gas }

/-- `SubRefund` panics below zero. -/
def subRefund (gas : UInt64) : Option (StateDB A H) :=
  let s := s.append (.refundChange s.refund)
  if gas > s.refund then none else some { s with refund := s.refund - gas }

/-- `setTransientState`, also called during a revert. -/
def storeTransientState (key value : H) : StateDB A H :=
  let storage := Function.update (s.transientStorage address) key value
  { s with transientStorage := Function.update s.transientStorage address storage }

def setTransientState (key value : H) : StateDB A H :=
  let prev := s.transientStorage address key
  if prev = value then s
  else (s.append (.transientStorageChange address key prev)).storeTransientState address key value

def addAddressToAccessList : StateDB A H :=
  let (added, accessList) := s.accessList.addAddress address
  let s := { s with accessList }
  if added then s.append (.accessListAddAccountChange address) else s

def addSlotToAccessList (slot : H) : Option (StateDB A H) := do
  let (addrMod, slotMod, accessList) ← s.accessList.addSlot address slot
  let s := { s with accessList }
  let s := if addrMod then s.append (.accessListAddAccountChange address) else s
  some (if slotMod then s.append (.accessListAddSlotChange address slot) else s)

/-! ### Snapshots -/

/-- Changes the object of an account that exists; there is a panic if it does not. -/
def changeObject (change : StateObject H → StateObject H) : Option (StateDB A H) :=
  match s.getStateObject address with
  | (none, _) => none
  | (some obj, s) => some (s.setStateObject address (change obj))

/-- `revert` of an entry. -/
def revertEntry : JournalEntry A H → Option (StateDB A H)
  | .createObjectChange account => some { s with
      stateObjects := Function.update s.stateObjects account none
      stateObjectsDirty := Function.update s.stateObjectsDirty account false }
  | .resetObjectChange account prev prevdestruct =>
    let s := s.setStateObject account prev
    some (if prevdestruct then s
      else { s with
        stateObjectsDestruct := Function.update s.stateObjectsDestruct account false })
  | .suicideChange account prev prevbalance =>
    match s.getStateObject account with
    | (none, s) => some s
    | (some obj, s) =>
      some (s.setStateObject account { obj.setBalance prevbalance with suicided := prev })
  | .touchChange _ => some s
  | .balanceChange account prev => s.changeObject account fun obj => obj.setBalance prev
  | .nonceChange account prev => s.changeObject account fun obj => obj.setNonce prev
  | .codeChange account prevcode prevhash =>
    s.changeObject account fun obj => obj.setCode prevhash prevcode
  | .storageChange account key prevalue =>
    s.changeObject account fun obj => obj.setState key prevalue
  | .transientStorageChange account key prevalue =>
    some (s.storeTransientState account key prevalue)
  | .refundChange prev => some { s with refund := prev }
  | .addLogChange txhash =>
    if (s.logs txhash).isEmpty then none
    else some { s with
      logs := Function.update s.logs txhash (s.logs txhash).dropLast
      logSize := s.logSize - 1 }
  | .addPreimageChange hash =>
    some { s with preimages := Function.update s.preimages hash none }
  | .accessListAddAccountChange address =>
    some { s with accessList := s.accessList.deleteAddress address }
  | .accessListAddSlotChange address slot => do
    let accessList ← s.accessList.deleteSlot address slot
    some { s with accessList }

/-- An entry is reverted and its address has one change less. -/
def undoEntry (entry : JournalEntry A H) (s : StateDB A H) : Option (StateDB A H) := do
  let s ← s.revertEntry entry
  match entry.dirtied with
  | some address =>
    some { s with dirties := Function.update s.dirties address (s.dirties address - 1) }
  | none => some s

/-- `journal.revert`. -/
def revertJournal (snapshot : ℕ) : Option (StateDB A H) := do
  let s' ← UndoLog.undoAll undoEntry (s.entries.drop snapshot) s
  some { s' with entries := s.entries.take snapshot }

def snapshot : ℕ × StateDB A H :=
  (s.nextRevisionId, { s with
    nextRevisionId := s.nextRevisionId + 1
    validRevisions := s.validRevisions ++ [⟨s.nextRevisionId, s.entries.length⟩] })

/-- `RevertToSnapshot` panics if the snapshot is not valid any more. -/
def revertToSnapshot (revid : ℕ) : Option (StateDB A H) := do
  let idx := s.validRevisions.findIdx fun revision => revid ≤ revision.id
  let revision ← s.validRevisions[idx]?
  if revision.id ≠ revid then none
  else
    let s' ← s.revertJournal revision.journalIndex
    some { s' with validRevisions := s.validRevisions.take idx }

/-! ### Operations that are not in the journal -/

def setTxContext (thash : H) (txIndex : ℕ) : StateDB A H :=
  { s with thash, txIndex }

/-- `SetStorage`, for the values in some order. -/
def setStorage (storage : List (H × H)) : StateDB A H :=
  let s := { s with
    stateObjectsDestruct := Function.update s.stateObjectsDestruct address true }
  let (_, s) := s.getOrNewStateObject env address
  storage.foldl (fun s value => s.setState env address value.1 value.2) s

/-- The access list of a transaction after the Berlin fork. -/
def preparedAccessList (sender coinbase : A) (dst : Option A) (precompiles : List A)
    (list : List (A × List H)) (isShanghai : Bool) : Option (AccessList A H) := do
  let al := (AccessList.new.addAddress sender).2
  let al := dst.elim al fun dst => (al.addAddress dst).2
  let al := precompiles.foldl (fun al address => (al.addAddress address).2) al
  let al ← list.foldlM (fun al el =>
    el.2.foldlM (fun al key => (al.addSlot el.1 key).map fun added => added.2.2)
      (al.addAddress el.1).2) al
  some (if isShanghai then (al.addAddress coinbase).2 else al)

def prepare (isBerlin isShanghai : Bool) (sender coinbase : A)
    (dst : Option A) (precompiles : List A) (list : List (A × List H)) :
    Option (StateDB A H) := do
  let accessList ←
    if isBerlin then preparedAccessList sender coinbase dst precompiles list isShanghai
    else some s.accessList
  some { s with accessList, transientStorage := fun _ _ => 0 }

/-- Whether `Finalise` deletes an object. -/
def destructs (deleteEmptyObjects : Bool) (obj : StateObject H) : Bool :=
  obj.suicided || deleteEmptyObjects && obj.isEmpty env

def clearJournalAndRefund : StateDB A H :=
  let s := { s with validRevisions := [] }
  if s.entries.isEmpty then s else { s with entries := [], dirties := fun _ => 0, refund := 0 }

def finalise (deleteEmptyObjects : Bool) : StateDB A H :=
  -- The dirty accounts that have an object.
  let touched (address : A) : Option (StateObject H) :=
    if s.dirties address = 0 then none else s.stateObjects address
  clearJournalAndRefund { s with
    stateObjects := fun address =>
      match touched address with
      | none => s.stateObjects address
      | some obj => some (if destructs env deleteEmptyObjects obj then { obj with deleted := true }
        else obj.finalise)
    stateObjectsDestruct := fun address => s.stateObjectsDestruct address ||
      (touched address).any (destructs env deleteEmptyObjects)
    stateObjectsPending := fun address =>
      s.stateObjectsPending address || (touched address).isSome
    stateObjectsDirty := fun address =>
      s.stateObjectsDirty address || (touched address).isSome }

/-- `IntermediateRoot` with what it writes to the tries: the root and the storage caches of an
object, and the database after it. -/
def intermediateRoot (deleteEmptyObjects : Bool)
    (updateRoot : A → StateObject H → StateObject H) (db : Database A H) : StateDB A H :=
  let s := s.finalise env deleteEmptyObjects
  { s with
    db
    stateObjects := fun address => (s.stateObjects address).map fun obj =>
      if s.stateObjectsPending address && !obj.deleted then updateRoot address obj else obj
    stateObjectsPending := fun _ => false }

/-- `Commit`, with the same writes, and those to the disk. -/
def commit (deleteEmptyObjects : Bool)
    (updateRoot commitTrie : A → StateObject H → StateObject H) (db : Database A H) :
    StateDB A H :=
  let s := s.intermediateRoot env deleteEmptyObjects updateRoot db
  { s with
    stateObjects := fun address => (s.stateObjects address).map fun obj =>
      if s.stateObjectsDirty address && !obj.deleted then
        commitTrie address { obj with dirtyCode := obj.dirtyCode && obj.code.isNone }
      else obj
    stateObjectsDirty := fun _ => false
    stateObjectsDestruct := fun _ => false }

/-- `Copy`, with the objects that have changed and an empty journal. -/
def copy : StateDB A H :=
  let touched (address : A) : Bool :=
    s.dirties address ≠ 0 ∧ (s.stateObjects address).isSome
  { s with
    stateObjects := fun address =>
      if touched address || s.stateObjectsPending address || s.stateObjectsDirty address then
        s.stateObjects address
      else none
    stateObjectsPending := fun address => s.stateObjectsPending address || touched address
    stateObjectsDirty := fun address => s.stateObjectsDirty address || touched address
    thash := 0
    txIndex := 0
    entries := []
    dirties := fun _ => 0
    validRevisions := []
    nextRevisionId := 0 }

end StateDB

end EvmState

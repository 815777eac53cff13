import Mathlib.Data.Finset.Insert
import NarwhalGeth.Lib.Heap
import NarwhalGeth.TxPool.List

/-!
# The lookup and the price heaps

All transactions of the pool are in the lookup, as local or remote ones. Two heaps hold the remote
ones by their price, with stale entries for those that have left the pool since. A transaction that
is to be discarded moves from the urgent heap to the floating one first.
-/

namespace TxPool

/-- The order in which a map is iterated, which can be any. -/
structure MapOrder where
  order : {α : Type} → List α → List α
  perm : ∀ {α : Type} (xs : List α), (order xs).Perm xs

theorem MapOrder.mem_order (order : MapOrder) {α : Type} {xs : List α} {x : α} :
    x ∈ order.order xs ↔ x ∈ xs :=
  (order.perm xs).mem_iff

structure Lookup where
  slots : ℤ
  locals : Assoc Hash Tx
  remotes : Assoc Hash Tx

namespace Lookup

def newLookup : Lookup := ⟨0, ∅, ∅⟩

variable (t : Lookup)

def get (hash : Hash) : Option Tx :=
  match t.locals.lookup hash with
  | some tx => some tx
  | none => t.remotes.lookup hash

def getRemote (hash : Hash) : Option Tx := t.remotes.lookup hash

def add (tx : Tx) (isLocal : Bool) : Lookup :=
  if isLocal then { t with slots := t.slots + tx.numSlots, locals := t.locals.insert tx.hash tx }
  else { t with slots := t.slots + tx.numSlots, remotes := t.remotes.insert tx.hash tx }

def remove (hash : Hash) : Lookup :=
  match t.get hash with
  | none => t
  | some tx =>
    { slots := t.slots - tx.numSlots
      locals := t.locals.erase hash
      remotes := t.remotes.erase hash }

def removeAll (txs : List Tx) : Lookup := txs.foldl (fun t tx => t.remove tx.hash) t

/-- Migrates the remote transactions of the local accounts. Returns their number. -/
def remoteToLocals (locals : Finset Address) : ℕ × Lookup :=
  let migrated := t.remotes.retain fun _ tx => if tx.sender ∈ locals then some tx else none
  (migrated.entries.length, { t with
    locals := (migrated.entries.map fun e => (e.1, e.2)).foldl
      (fun m e => m.insert e.1 e.2) t.locals
    remotes := t.remotes.retain fun _ tx => if tx.sender ∈ locals then none else some tx })

def remotesBelowTip (threshold : ℕ) : List Tx :=
  t.remotes.values.filter fun tx => tx.gasTipCap < threshold

/-- Each transaction is under its hash, as a local or a remote one. -/
structure Keyed (t : Lookup) : Prop where
  locals : ∀ hash tx, t.locals.lookup hash = some tx → tx.hash = hash
  remotes : ∀ hash tx, t.remotes.lookup hash = some tx → tx.hash = hash
  disjoint : ∀ hash tx, t.remotes.lookup hash = some tx → t.locals.lookup hash = none

section Operations

variable {t} {tx : Tx} {hash other : Hash}

theorem get_eq_some_iff : t.get hash = some tx ↔ t.locals.lookup hash = some tx ∨
    t.locals.lookup hash = none ∧ t.remotes.lookup hash = some tx := by
  unfold get
  cases hlocal : t.locals.lookup hash with
  | none => simp
  | some tx' => simp

theorem get_eq_none_iff : t.get hash = none ↔
    t.locals.lookup hash = none ∧ t.remotes.lookup hash = none := by
  unfold get
  cases hlocal : t.locals.lookup hash with
  | none => simp
  | some tx' => simp

theorem Keyed.get_remote (h : t.Keyed) (hremote : t.getRemote hash = some tx) :
    t.get hash = some tx :=
  get_eq_some_iff.mpr (.inr ⟨h.disjoint hash tx hremote, hremote⟩)

theorem Keyed.hash_of_get (h : t.Keyed) (hget : t.get hash = some tx) : tx.hash = hash := by
  rcases get_eq_some_iff.mp hget with hlocal | ⟨-, hremote⟩
  · exact h.locals hash tx hlocal
  · exact h.remotes hash tx hremote

theorem get_add (hnew : t.get tx.hash = none) (isLocal : Bool) :
    (t.add tx isLocal).get hash = if hash = tx.hash then some tx else t.get hash := by
  obtain ⟨hlocal, -⟩ := get_eq_none_iff.mp hnew
  unfold add get
  split_ifs with hisLocal heq heq
  · subst heq
    simp
  · simp [AList.lookup_insert_ne heq]
  · subst heq
    simp [hlocal]
  · simp [AList.lookup_insert_ne heq]

theorem Keyed.add (h : t.Keyed) (hnew : t.get tx.hash = none) (isLocal : Bool) :
    (t.add tx isLocal).Keyed := by
  obtain ⟨hlocal, hremote⟩ := get_eq_none_iff.mp hnew
  have hkeyed : ∀ m : Assoc Hash Tx, (∀ hash tx', m.lookup hash = some tx' → tx'.hash = hash) →
      ∀ hash tx', (m.insert tx.hash tx).lookup hash = some tx' → tx'.hash = hash := by
    intro m hm hash tx' hlookup
    rcases Assoc.lookup_insert_cases hlookup with ⟨rfl, rfl⟩ | hold
    · rfl
    · exact hm hash tx' hold
  unfold Lookup.add
  split_ifs with hisLocal
  · refine ⟨hkeyed t.locals h.locals, h.remotes, fun hash tx' hlookup => ?_⟩
    have hne : hash ≠ tx.hash := by
      rintro rfl
      rw [hremote] at hlookup
      cases hlookup
    exact (AList.lookup_insert_ne hne).trans (h.disjoint hash tx' hlookup)
  · refine ⟨h.locals, hkeyed t.remotes h.remotes, fun hash tx' hlookup => ?_⟩
    rcases Assoc.lookup_insert_cases hlookup with ⟨rfl, -⟩ | hold
    · exact hlocal
    · exact h.disjoint hash tx' hold

theorem get_remove : (t.remove hash).get other = if other = hash then none else t.get other := by
  unfold remove
  cases hget : t.get hash with
  | none =>
    split_ifs with heq
    · exact heq ▸ hget
    · rfl
  | some tx =>
    split_ifs with heq
    · subst heq
      simp [get]
    · simp [get, AList.lookup_erase_ne heq]

theorem Keyed.remove (h : t.Keyed) (hash : Hash) : (t.remove hash).Keyed := by
  unfold Lookup.remove
  cases t.get hash with
  | none => exact h
  | some tx =>
    refine ⟨fun other tx' hlookup => h.locals other tx' (Assoc.lookup_of_lookup_erase hlookup),
      fun other tx' hlookup => h.remotes other tx' (Assoc.lookup_of_lookup_erase hlookup),
      fun other tx' hlookup => ?_⟩
    have hlocal := h.disjoint other tx' (Assoc.lookup_of_lookup_erase hlookup)
    cases herased : (t.locals.erase hash).lookup other with
    | none => rfl
    | some tx'' =>
      rw [Assoc.lookup_of_lookup_erase herased] at hlocal
      cases hlocal

theorem Keyed.removeAll (h : t.Keyed) (txs : List Tx) : (t.removeAll txs).Keyed := by
  induction txs generalizing t with
  | nil => exact h
  | cons tx txs ih => exact ih (h.remove tx.hash)

theorem get_removeAll (txs : List Tx) : (t.removeAll txs).get hash = some tx ↔
    t.get hash = some tx ∧ ∀ tx' ∈ txs, tx'.hash ≠ hash := by
  induction txs generalizing t with
  | nil => simp [removeAll]
  | cons first txs ih =>
    rw [removeAll, List.foldl_cons, ← removeAll, ih, get_remove, List.forall_mem_cons]
    split_ifs with heq
    · exact iff_of_false (fun hnone => by cases hnone.1) fun hne => hne.2.1 heq.symm
    · exact and_congr_right fun _ => ⟨fun hrest => ⟨Ne.symm heq, hrest⟩, And.right⟩

/-- Of the transactions that the lookup has, exactly the given ones are removed. -/
theorem Keyed.get_removeAll_iff (h : t.Keyed) {txs : List Tx}
    (htxs : ∀ tx ∈ txs, t.get tx.hash = some tx) :
    (t.removeAll txs).get hash = some tx ↔ t.get hash = some tx ∧ tx ∉ txs := by
  rw [get_removeAll]
  refine and_congr_right fun hget => ⟨fun hne hmem => ?_, fun hnot tx' htx' heq => ?_⟩
  · exact hne tx hmem (h.hash_of_get hget)
  · have hsame := htxs tx' htx'
    rw [heq, hget] at hsame
    exact hnot (Option.some.inj hsame ▸ htx')

theorem lookup_remoteToLocals (locals : Finset Address) (hash : Hash) :
    (t.remoteToLocals locals).2.locals.lookup hash =
        ((t.remotes.lookup hash).filter fun tx => tx.sender ∈ locals).or (t.locals.lookup hash) ∧
      (t.remoteToLocals locals).2.remotes.lookup hash =
        (t.remotes.lookup hash).filter fun tx => tx.sender ∉ locals := by
  unfold remoteToLocals
  dsimp only
  constructor
  · rw [Assoc.lookup_foldl_insert (AList.nodupKeys _)]
    change (AList.lookup hash _).or _ = _
    rw [Assoc.lookup_retain]
    cases t.remotes.lookup hash with
    | none => rfl
    | some tx => by_cases hlocal : tx.sender ∈ locals <;> simp [Option.filter, hlocal]
  · rw [Assoc.lookup_retain]
    cases t.remotes.lookup hash with
    | none => rfl
    | some tx => by_cases hlocal : tx.sender ∈ locals <;> simp [Option.filter, hlocal]

theorem Keyed.remoteToLocals (h : t.Keyed) (locals : Finset Address) :
    (t.remoteToLocals locals).2.Keyed ∧
      ∀ hash, (t.remoteToLocals locals).2.get hash = t.get hash := by
  -- A hash is either not that of a remote transaction, or it moves or stays with its transaction.
  have hcases : ∀ hash, let t' := (t.remoteToLocals locals).2
      (t.remotes.lookup hash = none ∧ t'.locals.lookup hash = t.locals.lookup hash ∧
        t'.remotes.lookup hash = none) ∨
      ∃ tx, t.remotes.lookup hash = some tx ∧ t.locals.lookup hash = none ∧
        (t'.locals.lookup hash = some tx ∧ t'.remotes.lookup hash = none ∨
          t'.locals.lookup hash = none ∧ t'.remotes.lookup hash = some tx) := by
    intro hash t'
    obtain ⟨hlocals, hremotes⟩ := lookup_remoteToLocals (t := t) locals hash
    rw [hlocals, hremotes]
    cases hremote : t.remotes.lookup hash with
    | none => exact .inl ⟨rfl, rfl, rfl⟩
    | some tx =>
      refine .inr ⟨tx, rfl, h.disjoint hash tx hremote, ?_⟩
      rw [h.disjoint hash tx hremote]
      by_cases hlocal : tx.sender ∈ locals <;> simp [Option.filter, hlocal]
  have hlocals := h.locals
  have hremotes := h.remotes
  refine ⟨⟨?_, ?_, ?_⟩, ?_⟩ <;> intro hash <;> have hhash := hcases hash
  · grind
  · grind
  · grind
  · grind [get]

end Operations

end Lookup

/-- A heap of prices. With a base fee, it is sorted by the effective tips. -/
structure PriceHeap where
  baseFee : Option ℕ
  list : List Tx

namespace PriceHeap

variable (h : PriceHeap)

def effectiveTip (tx : Tx) (baseFee : ℕ) : ℤ := min (tx.gasTipCap : ℤ) (tx.gasFeeCap - baseFee)

def compareTips (a b : Tx) : Ordering :=
  match h.baseFee with
  | some baseFee => compare (effectiveTip a baseFee) (effectiveTip b baseFee)
  | none => .eq

def cmp (a b : Tx) : Ordering :=
  (h.compareTips a b).then ((compare a.gasFeeCap b.gasFeeCap).then
    (compare a.gasTipCap b.gasTipCap))

def less (a b : Tx) : Bool :=
  match h.cmp a b with
  | .lt => true
  | .gt => false
  | .eq => b.nonce < a.nonce

def push (tx : Tx) : PriceHeap := { h with list := Heap.push h.less h.list tx }

def pop : Option (Tx × PriceHeap) :=
  (Heap.pop h.less h.list).map fun popped => (popped.1, { h with list := popped.2 })

theorem length_of_pop {h h' : PriceHeap} {tx : Tx} (heq : h.pop = some (tx, h')) :
    h.list.length = h'.list.length + 1 := by
  unfold pop at heq
  obtain ⟨⟨tx', rest⟩, hpop, hsame⟩ := Option.map_eq_some_iff.mp heq
  obtain ⟨rfl, rfl⟩ := Prod.mk.inj hsame
  exact (Heap.perm_of_pop h.less hpop).length_eq

theorem list_eq_nil_of_pop {h : PriceHeap} (heq : h.pop = none) : h.list = [] :=
  Heap.eq_nil_of_pop h.less (Option.map_eq_none_iff.mp heq)

theorem length_push (tx : Tx) :
    (h.push tx).list.length = h.list.length + 1 :=
  (Heap.push_perm h.less h.list tx).length_eq

end PriceHeap

structure PricedList where
  stales : ℤ
  urgent : PriceHeap
  floating : PriceHeap

namespace PricedList

def urgentRatio : ℕ := 4

def floatingRatio : ℕ := 1

def newPricedList : PricedList := ⟨0, ⟨none, []⟩, ⟨none, []⟩⟩

variable (l : PricedList) (all : Lookup) {fuel : ℕ}

def put (tx : Tx) (isLocal : Bool) : PricedList :=
  if isLocal then l else { l with urgent := l.urgent.push tx }

/-- Moves the given number of entries from the urgent heap to a list. -/
def moveOut : ℕ → PriceHeap → List Tx → PriceHeap × List Tx
  | 0, urgent, moved => (urgent, moved)
  | n + 1, urgent, moved =>
    match urgent.pop with
    | none => (urgent, moved)
    | some (tx, urgent) => moveOut n urgent (moved ++ [tx])

/-- Rebuilds the heaps from the remote transactions. -/
def reheap (order : MapOrder) : PricedList :=
  let remotes := order.order all.remotes.values
  let urgent := { l.urgent with list := Heap.init l.urgent.less remotes }
  let floatingCount := remotes.length * floatingRatio / (urgentRatio + floatingRatio)
  let (urgent, moved) := moveOut floatingCount urgent []
  { stales := 0
    urgent
    floating := { l.floating with list := Heap.init l.floating.less moved } }

/-- Notifies of transactions that have left the pool. -/
def removed (order : MapOrder) (count : ℕ) : PricedList :=
  let stales := l.stales + count
  if stales ≤ (l.urgent.list.length + l.floating.list.length) / 4 then { l with stales }
  else { l with stales }.reheap all order

/-- Removes the stale entries at the start of a heap. Returns their number. -/
def dropStale : ℕ → PriceHeap → ℕ × PriceHeap
  | 0, h => (0, h)
  | fuel + 1, h =>
    match h.list.head? with
    | none => (0, h)
    | some head =>
      if (all.getRemote head.hash).isNone then
        match h.pop with
        | none => (0, h)
        | some (_, h) =>
          let (count, h) := dropStale fuel h
          (count + 1, h)
      else (0, h)

/-- Whether a transaction is not better than the worst one of a heap. -/
def underpricedFor (h : PriceHeap) (tx : Tx) : Bool :=
  match h.list.head? with
  | none => false
  | some head => h.cmp head tx != .lt

/-- Whether a transaction is not better than the worst of each nonempty heap. The floating heap is
only cleaned if the urgent one does not decide. -/
def underpriced (tx : Tx) : Bool × PricedList :=
  let (count, urgent) := dropStale all l.urgent.list.length l.urgent
  let l := { l with stales := l.stales - count, urgent }
  if underpricedFor urgent tx || urgent.list.isEmpty then
    let (count, floating) := dropStale all l.floating.list.length l.floating
    let l := { l with stales := l.stales - count, floating }
    ((underpricedFor floating tx || floating.list.isEmpty) &&
      (!urgent.list.isEmpty || !floating.list.isEmpty), l)
  else (false, l)

/-- Discards the worst transactions until the slots are free or both heaps are empty. -/
def discardLoop : ℕ → ℤ → List Tx → PricedList → List Tx × ℤ × PricedList
  | 0, slots, drop, l => (drop, slots, l)
  | fuel + 1, slots, drop, l =>
    if slots ≤ 0 then (drop, slots, l)
    else if l.floating.list.length * urgentRatio < l.urgent.list.length * floatingRatio then
      match l.urgent.pop with
      | none => (drop, slots, l)
      | some (tx, urgent) =>
        if (all.getRemote tx.hash).isNone then
          discardLoop fuel slots drop { l with stales := l.stales - 1, urgent }
        else discardLoop fuel slots drop { l with urgent, floating := l.floating.push tx }
    else
      match l.floating.pop with
      | none => (drop, slots, l)
      | some (tx, floating) =>
        if (all.getRemote tx.hash).isNone then
          discardLoop fuel slots drop { l with stales := l.stales - 1, floating }
        else discardLoop fuel (slots - tx.numSlots) (drop ++ [tx]) { l with floating }

/-- Finds the most underpriced transactions and removes them from the heaps, or puts them back if
they do not suffice. -/
def discard (slots : ℤ) (force : Bool) : Option (List Tx) × PricedList :=
  let fuel := 2 * l.urgent.list.length + l.floating.list.length
  let (drop, left, l) := discardLoop all fuel slots [] l
  if 0 < left ∧ !force then
    (none, drop.foldl (fun l tx => { l with urgent := l.urgent.push tx }) l)
  else (some drop, l)

def setBaseFee (order : MapOrder) (baseFee : ℕ) : PricedList :=
  { l with urgent.baseFee := some baseFee }.reheap all order

section Discard

variable {all} {l l' : PricedList} {tx : Tx} {drop : List Tx} {slots : ℤ}

theorem discardLoop_ends (hfuel : 2 * l.urgent.list.length + l.floating.list.length ≤ fuel) :
    let result := discardLoop all fuel slots drop l
    result.2.1 ≤ 0 ∨ result.2.2.urgent.list = [] ∧ result.2.2.floating.list = [] := by
  induction fuel generalizing slots drop l with
  | zero =>
    have hurgent : l.urgent.list.length = 0 := by omega
    have hfloating : l.floating.list.length = 0 := by omega
    exact .inr ⟨List.eq_nil_of_length_eq_zero hurgent, List.eq_nil_of_length_eq_zero hfloating⟩
  | succ fuel ih =>
    unfold discardLoop
    split_ifs with hslots hratio
    · exact .inl hslots
    · split
      · rename_i hpop
        rw [PriceHeap.list_eq_nil_of_pop hpop, List.length_nil, Nat.zero_mul] at hratio
        exact absurd hratio (Nat.not_lt_zero _)
      · rename_i popped urgent hpop
        have hlength := PriceHeap.length_of_pop hpop
        split_ifs
        · exact ih (by dsimp only; omega)
        · exact ih (by dsimp only; rw [PriceHeap.length_push]; omega)
    · split
      · rename_i hpop
        have hfloating := PriceHeap.list_eq_nil_of_pop hpop
        rw [hfloating, floatingRatio, List.length_nil] at hratio
        have hurgent : l.urgent.list.length = 0 := by omega
        exact .inr ⟨List.eq_nil_of_length_eq_zero hurgent, hfloating⟩
      · rename_i popped floating hpop
        have hlength := PriceHeap.length_of_pop hpop
        split_ifs
        · exact ih (by dsimp only; omega)
        · exact ih (by dsimp only; omega)

theorem mem_discardLoop (h : tx ∈ (discardLoop all fuel slots drop l).1) :
    tx ∈ drop ∨ (all.getRemote tx.hash).isSome := by
  induction fuel generalizing slots drop l with
  | zero => exact .inl h
  | succ fuel ih =>
    unfold discardLoop at h
    split_ifs at h
    · exact .inl h
    · split at h
      · exact .inl h
      · split_ifs at h <;> exact ih h
    · split at h
      · exact .inl h
      · rename_i popped floating hpop
        split_ifs at h with hstale
        · exact ih h
        · rcases ih h with hdrop | hremote
          · rcases List.mem_append.mp hdrop with hold | hnew
            · exact .inl hold
            · rw [List.mem_singleton.mp hnew]
              exact .inr (Option.isSome_iff_ne_none.mpr (by simpa using hstale))
          · exact .inr hremote

theorem mem_of_discard {force : Bool} (h : l.discard all slots force = (some drop, l'))
    (htx : tx ∈ drop) : (all.getRemote tx.hash).isSome := by
  unfold discard at h
  dsimp only at h
  split_ifs at h with hfailed
  · cases (Prod.mk.inj h).1
  · obtain ⟨hdrop, -⟩ := Prod.mk.inj h
    rw [← Option.some.inj hdrop] at htx
    exact (mem_discardLoop htx).resolve_left List.not_mem_nil

end Discard

end PricedList

end TxPool

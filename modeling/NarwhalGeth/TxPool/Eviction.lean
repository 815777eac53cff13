import Mathlib.Algebra.BigOperators.Group.List.Basic
import NarwhalGeth.Lib.HeapOrder
import NarwhalGeth.Lib.Machine
import NarwhalGeth.TxPool.Priced

/-!
# Making room

The price heaps only learn from the lookup which of their entries are stale. An entry of a
transaction that has left the pool becomes live again when the transaction is added once more, next
to the entry that this adds. Eviction then counts its slots twice.
-/

namespace TxPool

namespace PricedList

/-- The entries of both heaps. -/
def entries (l : PricedList) : List Tx := l.urgent.list ++ l.floating.list

/-- The entries that are left are those there were but for stale ones. -/
def Sheds (all : Lookup) (xs ys : List Tx) : Prop :=
  ∃ stale, (stale ++ ys).Perm xs ∧ ∀ tx ∈ stale, all.getRemote tx.hash = none

variable {all : Lookup} {l : PricedList} {xs ys zs drop : List Tx} {tx : Tx} {order : MapOrder}
  {h h' : PriceHeap} {force : Bool} {slots : ℤ}

namespace Sheds

theorem of_perm (h : ys.Perm xs) : Sheds all xs ys := ⟨[], h, fun tx htx => by cases htx⟩

theorem trans (h : Sheds all xs ys) (h' : Sheds all ys zs) : Sheds all xs zs := by
  obtain ⟨stale, hperm, hstale⟩ := h
  obtain ⟨stale', hperm', hstale'⟩ := h'
  refine ⟨stale ++ stale', ?_, fun tx htx => ?_⟩
  · rw [List.append_assoc]
    exact (hperm'.append_left stale).trans hperm
  · rcases List.mem_append.mp htx with htx | htx
    · exact hstale tx htx
    · exact hstale' tx htx

theorem cons (h : all.getRemote tx.hash = none) (xs : List Tx) : Sheds all (tx :: xs) xs :=
  ⟨[tx], .refl _, fun _ hmem => List.mem_singleton.mp hmem ▸ h⟩

theorem append (h : Sheds all xs ys) (zs : List Tx) : Sheds all (xs ++ zs) (ys ++ zs) := by
  obtain ⟨stale, hperm, hstale⟩ := h
  refine ⟨stale, ?_, hstale⟩
  rw [← List.append_assoc]
  exact hperm.append_right zs

theorem append_left (h : Sheds all xs ys) (zs : List Tx) : Sheds all (zs ++ xs) (zs ++ ys) :=
  (of_perm List.perm_append_comm).trans ((h.append zs).trans (of_perm List.perm_append_comm))

/-- A remote transaction keeps its entry. -/
theorem mem_iff (h : Sheds all xs ys) (hremote : all.getRemote tx.hash = some tx) :
    tx ∈ ys ↔ tx ∈ xs := by
  obtain ⟨stale, hperm, hstale⟩ := h
  rw [← hperm.mem_iff, List.mem_append]
  refine (or_iff_right fun hmem => ?_).symm
  rw [hstale tx hmem] at hremote
  cases hremote

theorem subset (h : Sheds all xs ys) : ys ⊆ xs := by
  obtain ⟨stale, hperm, -⟩ := h
  exact fun tx htx => hperm.mem_iff.mp (List.mem_append_right stale htx)

theorem nodup_map (h : Sheds all xs ys) (hnodup : (xs.map Tx.hash).Nodup) :
    (ys.map Tx.hash).Nodup := by
  obtain ⟨stale, hperm, -⟩ := h
  have hall := (hperm.map Tx.hash).nodup_iff.mpr hnodup
  rw [List.map_append] at hall
  exact (List.nodup_append.mp hall).2.1

end Sheds

/-! ## The entries after each operation -/

theorem push_perm (h : PriceHeap) (tx : Tx) : (h.push tx).list.Perm (tx :: h.list) :=
  Heap.push_perm h.less h.list tx

theorem pop_perm (heq : h.pop = some (tx, h')) :
    h.list.Perm (tx :: h'.list) := by
  unfold PriceHeap.pop at heq
  obtain ⟨⟨tx', rest⟩, hpop, hsame⟩ := Option.map_eq_some_iff.mp heq
  obtain ⟨rfl, rfl⟩ := Prod.mk.inj hsame
  exact Heap.perm_of_pop h.less hpop

theorem head_of_pop (heq : h.pop = some (tx, h')) : h.list[0]? = some tx := by
  unfold PriceHeap.pop at heq
  obtain ⟨⟨tx', rest⟩, hpop, hsame⟩ := Option.map_eq_some_iff.mp heq
  obtain ⟨rfl, rfl⟩ := Prod.mk.inj hsame
  exact Heap.getElem?_zero_of_pop hpop

theorem put_entries (l : PricedList) (tx : Tx) : (l.put tx false).entries.Perm (tx :: l.entries) :=
  (push_perm l.urgent tx).append_right l.floating.list

theorem putAll_entries (drop : List Tx) (l : PricedList) :
    (drop.foldl (fun l tx => l.put tx false) l).entries.Perm (drop ++ l.entries) := by
  induction drop generalizing l with
  | nil => exact .refl _
  | cons tx drop ih =>
    exact (ih (l.put tx false)).trans (((put_entries l tx).append_left drop).trans
      List.perm_middle)

theorem moveOut_perm (n : ℕ) (urgent : PriceHeap) (moved : List Tx) :
    ((moveOut n urgent moved).1.list ++ (moveOut n urgent moved).2).Perm
      (urgent.list ++ moved) := by
  induction n generalizing urgent moved with
  | zero => exact .refl _
  | succ n ih =>
    unfold moveOut
    cases hpop : urgent.pop with
    | none => exact .refl _
    | some popped =>
      obtain ⟨tx, urgent'⟩ := popped
      refine (ih urgent' (moved ++ [tx])).trans ?_
      rw [← List.append_assoc]
      refine (List.perm_append_singleton tx _).trans ?_
      exact ((pop_perm hpop).append_right moved).symm

theorem reheap_entries (l : PricedList) (all : Lookup) (order : MapOrder) :
    (l.reheap all order).entries.Perm all.remotes.values := by
  unfold reheap entries
  dsimp only
  set remotes := order.order all.remotes.values with hremotes
  have hmoved := moveOut_perm (remotes.length * floatingRatio / (urgentRatio + floatingRatio))
    { l.urgent with list := Heap.init l.urgent.less remotes } []
  rw [List.append_nil] at hmoved
  refine ((Heap.init_perm _).append_left _).trans (hmoved.trans ?_)
  exact (Heap.init_perm remotes).trans (order.perm _)

theorem removed_entries (l : PricedList) (all : Lookup) (order : MapOrder) (count : ℕ) :
    (l.removed all order count).entries = l.entries ∨
      (l.removed all order count).entries.Perm all.remotes.values := by
  unfold removed
  dsimp only
  split_ifs
  · exact .inl rfl
  · exact .inr (reheap_entries _ all order)

theorem dropStale_sheds (all : Lookup) (fuel : ℕ) (h : PriceHeap) :
    Sheds all h.list (dropStale all fuel h).2.list := by
  induction fuel generalizing h with
  | zero => exact .of_perm (.refl _)
  | succ fuel ih =>
    unfold dropStale
    cases hhead : h.list.head? with
    | none => exact .of_perm (.refl _)
    | some head =>
      dsimp only
      split_ifs with hstale
      · cases hpop : h.pop with
        | none => exact .of_perm (.refl _)
        | some popped =>
          obtain ⟨tx, h'⟩ := popped
          have hsame : head = tx := by
            rw [List.head?_eq_getElem?, head_of_pop hpop] at hhead
            exact (Option.some.inj hhead).symm
          rw [hsame, Option.isNone_iff_eq_none] at hstale
          exact ((Sheds.of_perm (pop_perm hpop).symm).trans (.cons hstale _)).trans (ih h')
      · exact .of_perm (.refl _)

theorem underpriced_sheds (l : PricedList) (all : Lookup) (tx : Tx) :
    Sheds all l.entries (l.underpriced all tx).2.entries := by
  have hurgent := (dropStale_sheds all l.urgent.list.length l.urgent).append l.floating.list
  unfold underpriced
  dsimp only
  split_ifs
  · exact hurgent.trans ((dropStale_sheds all l.floating.list.length l.floating).append_left _)
  · exact hurgent

/-- The loop takes stale entries and those it discards out of the heaps, and counts the slots of the
latter. -/
theorem discardLoop_sheds (all : Lookup) (fuel : ℕ) (slots : ℤ) (drop : List Tx) (l : PricedList) :
    let result := discardLoop all fuel slots drop l
    Sheds all (drop ++ l.entries) (result.1 ++ result.2.2.entries) ∧
      result.2.1 + ((result.1.map Tx.numSlots).sum : ℕ) =
        slots + ((drop.map Tx.numSlots).sum : ℕ) := by
  induction fuel generalizing slots drop l with
  | zero => exact ⟨.of_perm (.refl _), rfl⟩
  | succ fuel ih =>
    unfold discardLoop
    dsimp only
    split_ifs with hslots hratio
    · exact ⟨.of_perm (.refl _), rfl⟩
    · cases hpop : l.urgent.pop with
      | none => exact ⟨.of_perm (.refl _), rfl⟩
      | some popped =>
        obtain ⟨tx, urgent⟩ := popped
        have hperm : (tx :: (urgent.list ++ l.floating.list)).Perm l.entries :=
          ((pop_perm hpop).append_right l.floating.list).symm
        dsimp only
        split_ifs with hstale
        · obtain ⟨hsheds, hsum⟩ := ih slots drop { l with stales := l.stales - 1, urgent }
          refine ⟨Sheds.trans (.append_left ?_ drop) hsheds, hsum⟩
          exact (Sheds.of_perm hperm).trans (.cons (Option.isNone_iff_eq_none.mp hstale) _)
        · obtain ⟨hsheds, hsum⟩ := ih slots drop
            { l with urgent, floating := l.floating.push tx }
          refine ⟨Sheds.trans (.append_left (.of_perm ?_) drop) hsheds, hsum⟩
          have hpush := (push_perm l.floating tx).append_left urgent.list
          exact hpush.trans (List.perm_middle.trans hperm)
    · cases hpop : l.floating.pop with
      | none => exact ⟨.of_perm (.refl _), rfl⟩
      | some popped =>
        obtain ⟨tx, floating⟩ := popped
        have hperm : (tx :: (l.urgent.list ++ floating.list)).Perm l.entries :=
          List.perm_middle.symm.trans ((pop_perm hpop).append_left l.urgent.list).symm
        dsimp only
        split_ifs with hstale
        · obtain ⟨hsheds, hsum⟩ := ih slots drop { l with stales := l.stales - 1, floating }
          refine ⟨Sheds.trans (.append_left ?_ drop) hsheds, hsum⟩
          exact (Sheds.of_perm hperm).trans (.cons (Option.isNone_iff_eq_none.mp hstale) _)
        · obtain ⟨hsheds, hsum⟩ := ih (slots - tx.numSlots) (drop ++ [tx]) { l with floating }
          refine ⟨Sheds.trans (.of_perm ?_) hsheds, hsum.trans ?_⟩
          · rw [List.append_assoc]
            exact hperm.append_left drop
          · rw [List.map_append, List.sum_append]
            simp only [List.map_cons, List.map_nil, List.sum_cons, List.sum_nil]
            push_cast
            omega

theorem discard_success (h : (l.discard all slots force).1 = some drop) :
    Sheds all l.entries (drop ++ (l.discard all slots force).2.entries) ∧
      (slots ≤ ((drop.map Tx.numSlots).sum : ℕ) ∨
        force = true ∧ (l.discard all slots force).2.entries = []) := by
  unfold discard at h ⊢
  dsimp only at h ⊢
  set fuel := 2 * l.urgent.list.length + l.floating.list.length with hfuel
  have hends : (discardLoop all fuel slots [] l).2.1 ≤ 0 ∨
      (discardLoop all fuel slots [] l).2.2.urgent.list = [] ∧
        (discardLoop all fuel slots [] l).2.2.floating.list = [] :=
    discardLoop_ends hfuel.ge
  obtain ⟨hsheds, hsum⟩ := discardLoop_sheds all fuel slots [] l
  generalize discardLoop all _ slots [] l = result at h hends hsheds hsum ⊢
  split_ifs at h ⊢ with hfailed
  obtain rfl := Option.some.inj h
  refine ⟨hsheds, ?_⟩
  rcases hends with hroom | ⟨hurgent, hfloating⟩
  · left
    simp only [List.map_nil, List.sum_nil] at hsum
    omega
  · by_cases hroom : result.2.1 ≤ 0
    · left
      simp only [List.map_nil, List.sum_nil] at hsum
      omega
    · refine .inr ⟨?_, by rw [entries, hurgent, hfloating, List.append_nil]⟩
      simpa [not_le.mp hroom] using hfailed

theorem discard_failure (h : (l.discard all slots force).1 = none) :
    Sheds all l.entries (l.discard all slots force).2.entries := by
  unfold discard at h ⊢
  dsimp only at h ⊢
  obtain ⟨hsheds, -⟩ := discardLoop_sheds all
    (2 * l.urgent.list.length + l.floating.list.length) slots [] l
  generalize discardLoop all _ slots [] l = result at h hsheds ⊢
  split_ifs at h ⊢ with hfailed
  exact hsheds.trans (.of_perm (putAll_entries _ _))

end PricedList

namespace Lookup

variable {t : Lookup} {hash other : Hash} {tx : Tx}

theorem getRemote_of_remove (h : (t.remove hash).getRemote other = some tx) :
    t.getRemote other = some tx := by
  unfold remove at h
  cases hget : t.get hash with
  | none =>
    rw [hget] at h
    exact h
  | some old =>
    rw [hget] at h
    exact Assoc.lookup_of_lookup_erase h

theorem getRemote_of_removeAll {txs : List Tx}
    (h : (t.removeAll txs).getRemote hash = some tx) : t.getRemote hash = some tx := by
  induction txs generalizing t with
  | nil => exact h
  | cons first txs ih => exact getRemote_of_remove (ih h)

end Lookup

/-! ## Histories -/

/-- The lookup with its price heaps. -/
structure Tracker where
  all : Lookup
  priced : PricedList

namespace Tracker

/-- What the pool does with the lookup and the heaps. -/
inductive Event
  /-- A transaction that is not known is added to both. -/
  | add (tx : Tx) (isLocal : Bool)
  /-- A transaction leaves the lookup. -/
  | remove (hash : Hash)
  /-- The heaps are notified of transactions that left. -/
  | removed (order : MapOrder) (count : ℕ)
  /-- The remote transactions of new local accounts become local. -/
  | migrate (order : MapOrder) (locals : Finset Address)
  | setBaseFee (order : MapOrder) (baseFee : ℕ)
  | reheap (order : MapOrder)
  | underpriced (tx : Tx)
  /-- What is discarded leaves the lookup, or is put back if it must not be replaced. -/
  | discard (slots : ℤ) (force : Bool) (putBack : Bool)

/-- What the pool does with the transactions it has discarded. -/
def settle (s : Tracker) (putBack : Bool) : Option (List Tx) × PricedList → Tracker
  | (none, priced) => { s with priced }
  | (some drop, priced) =>
    if putBack then { s with priced := drop.foldl (fun l tx => l.put tx false) priced }
    else ⟨s.all.removeAll drop, priced⟩

/-- The state after an event. Known transactions are not added, and a negative number of slots
panics. -/
def next (s : Tracker) : Event → Option Tracker
  | .add tx isLocal =>
    if (s.all.get tx.hash).isSome then none
    else some ⟨s.all.add tx isLocal, s.priced.put tx isLocal⟩
  | .remove hash => some { s with all := s.all.remove hash }
  | .removed order count => some { s with priced := s.priced.removed s.all order count }
  | .migrate order locals =>
    let (migrated, all) := s.all.remoteToLocals locals
    some ⟨all, s.priced.removed all order migrated⟩
  | .setBaseFee order baseFee => some { s with priced := s.priced.setBaseFee s.all order baseFee }
  | .reheap order => some { s with priced := s.priced.reheap s.all order }
  | .underpriced tx => some { s with priced := (s.priced.underpriced s.all tx).2 }
  | .discard slots force putBack =>
    if slots < 0 then none else some (s.settle putBack (s.priced.discard s.all slots force))

def machine : Machine Tracker Event := ⟨⟨.newLookup, .newPricedList⟩, next⟩

/-- A remote transaction is only added when no entry of it is left in the heaps. -/
def Fresh (s : Tracker) : Event → Prop
  | .add tx false => ∀ tx' ∈ s.priced.entries, tx'.hash ≠ tx.hash
  | _ => True

/-- What a discard is to do. -/
structure MakesRoom (s : Tracker) (slots : ℤ) (force : Bool)
    (result : Option (List Tx) × PricedList) : Prop where
  distinct : ∀ drop, result.1 = some drop → drop.Nodup
  remote : ∀ drop, result.1 = some drop → ∀ tx ∈ drop, s.all.getRemote tx.hash = some tx
  room : ∀ drop, result.1 = some drop → slots ≤ ((drop.map Tx.numSlots).sum : ℕ) ∨
    force = true ∧ ∀ hash tx, s.all.getRemote hash = some tx → tx ∈ drop
  failed : result.1 = none → ∀ tx, s.all.getRemote tx.hash = some tx →
    (tx ∈ result.2.entries ↔ tx ∈ s.priced.entries)

/-- Each remote transaction has an entry, and no transaction has two. -/
structure Sound (s : Tracker) : Prop where
  keyed : s.all.Keyed
  distinct : (s.priced.entries.map Tx.hash).Nodup
  tracked : ∀ hash tx, s.all.getRemote hash = some tx → tx ∈ s.priced.entries

namespace Sound

variable {s s' : Tracker} {priced : PricedList} {drop : List Tx} {tx : Tx} {all : Lookup}

theorem sheds (h : s.Sound) (hsheds : PricedList.Sheds s.all s.priced.entries priced.entries) :
    Sound { s with priced } where
  keyed := h.keyed
  distinct := hsheds.nodup_map h.distinct
  tracked hash tx hremote := by
    have hhash := h.keyed.remotes hash tx hremote
    exact (hsheds.mem_iff (hhash ▸ hremote)).mpr (h.tracked hash tx hremote)

theorem rebuilt (hkeyed : all.Keyed) (hperm : priced.entries.Perm all.remotes.values) :
    Sound ⟨all, priced⟩ where
  keyed := hkeyed
  distinct := (hperm.map Tx.hash).nodup_iff.mpr (Assoc.values_map_nodup Tx.hash hkeyed.remotes)
  tracked hash _ hremote := hperm.mem_iff.mpr (Assoc.mem_values_iff.mpr ⟨hash, hremote⟩)

theorem fewer (h : s.Sound) (hkeyed : all.Keyed)
    (hsub : ∀ hash tx, all.getRemote hash = some tx → s.all.getRemote hash = some tx) :
    Sound { s with all } :=
  ⟨hkeyed, h.distinct, fun hash tx hremote => h.tracked hash tx (hsub hash tx hremote)⟩

theorem removed (h : s.Sound) (order : MapOrder) (count : ℕ) :
    Sound { s with priced := s.priced.removed s.all order count } := by
  rcases s.priced.removed_entries s.all order count with heq | hperm
  · exact h.sheds (.of_perm (by rw [heq]))
  · exact rebuilt h.keyed hperm

theorem live (h : s.Sound) (hmem : tx ∈ s.priced.entries)
    (hlive : (s.all.getRemote tx.hash).isSome) : s.all.getRemote tx.hash = some tx := by
  obtain ⟨tx', hremote⟩ := Option.isSome_iff_exists.mp hlive
  have hhash := h.keyed.remotes tx.hash tx' hremote
  have hsame := List.inj_on_of_nodup_map h.distinct (h.tracked _ _ hremote) hmem hhash
  rw [hremote, hsame]

theorem add (h : s.Sound) {isLocal : Bool} (hnew : s.all.get tx.hash = none)
    (hfresh : s.Fresh (.add tx isLocal)) :
    Sound ⟨s.all.add tx isLocal, s.priced.put tx isLocal⟩ := by
  have hkeyed := h.keyed.add hnew isLocal
  cases isLocal with
  | true => exact ⟨hkeyed, h.distinct, h.tracked⟩
  | false =>
    have hperm := s.priced.put_entries tx
    refine ⟨hkeyed, (hperm.map Tx.hash).nodup_iff.mpr ?_, fun hash tx' hremote => ?_⟩
    · refine List.nodup_cons.mpr ⟨fun hmem => ?_, h.distinct⟩
      obtain ⟨tx', htx', hhash⟩ := List.mem_map.mp hmem
      exact hfresh tx' htx' hhash
    · rw [hperm.mem_iff, List.mem_cons]
      rcases Assoc.lookup_insert_cases hremote with ⟨-, rfl⟩ | hold
      · exact .inl rfl
      · exact .inr (h.tracked hash tx' hold)

theorem settle (h : s.Sound) (slots : ℤ) (force putBack : Bool) :
    (s.settle putBack (s.priced.discard s.all slots force)).Sound := by
  cases hresult : s.priced.discard s.all slots force with
  | mk drop priced =>
    cases drop with
    | none =>
      have hsheds := PricedList.discard_failure (congrArg Prod.fst hresult)
      rw [hresult] at hsheds
      exact h.sheds hsheds
    | some drop =>
      obtain ⟨hsheds, -⟩ := PricedList.discard_success (congrArg Prod.fst hresult)
      rw [hresult] at hsheds
      cases putBack with
      | true => exact h.sheds (hsheds.trans (.of_perm (PricedList.putAll_entries drop priced)))
      | false =>
        have hdistinct := hsheds.nodup_map h.distinct
        rw [List.map_append] at hdistinct
        refine ⟨h.keyed.removeAll drop, (List.nodup_append.mp hdistinct).2.1,
          fun hash tx hremote => ?_⟩
        have hold := Lookup.getRemote_of_removeAll hremote
        have hhash := h.keyed.remotes hash tx hold
        have hget := (h.keyed.removeAll drop).get_remote hremote
        have hnot : tx ∉ drop := fun hmem =>
          ((Lookup.get_removeAll drop).mp hget).2 tx hmem hhash
        have hmem := (hsheds.mem_iff (hhash ▸ hold)).mpr (h.tracked hash tx hold)
        exact (List.mem_append.mp hmem).resolve_left hnot

theorem next {e : Event} (h : s.Sound) (hfresh : s.Fresh e) (hnext : s.next e = some s') :
    s'.Sound := by
  cases e with
  | add tx isLocal =>
    simp only [Tracker.next] at hnext
    split_ifs at hnext with hknown
    obtain rfl := Option.some.inj hnext
    exact h.add (by simpa using hknown) hfresh
  | remove hash =>
    obtain rfl := Option.some.inj hnext
    exact h.fewer (h.keyed.remove hash) fun _ _ => Lookup.getRemote_of_remove
  | removed order count =>
    obtain rfl := Option.some.inj hnext
    exact h.removed order count
  | migrate order locals =>
    obtain rfl := Option.some.inj hnext
    refine removed (h.fewer (h.keyed.remoteToLocals locals).1 fun hash tx hremote => ?_) order _
    rw [Lookup.getRemote, (Lookup.lookup_remoteToLocals locals hash).2] at hremote
    exact Option.eq_some_of_filter_eq_some hremote
  | setBaseFee order baseFee =>
    obtain rfl := Option.some.inj hnext
    exact rebuilt h.keyed (PricedList.reheap_entries _ s.all order)
  | reheap order =>
    obtain rfl := Option.some.inj hnext
    exact rebuilt h.keyed (PricedList.reheap_entries _ s.all order)
  | underpriced tx =>
    obtain rfl := Option.some.inj hnext
    exact h.sheds (s.priced.underpriced_sheds s.all tx)
  | discard slots force putBack =>
    simp only [Tracker.next] at hnext
    split_ifs at hnext
    obtain rfl := Option.some.inj hnext
    exact h.settle slots force putBack

theorem makesRoom (h : s.Sound) (slots : ℤ) (force : Bool) :
    s.MakesRoom slots force (s.priced.discard s.all slots force) where
  distinct drop hdrop := by
    have hdistinct := (PricedList.discard_success hdrop).1.nodup_map h.distinct
    rw [List.map_append] at hdistinct
    exact (List.nodup_append.mp hdistinct).1.of_map
  remote drop hdrop tx htx := by
    have hmem := (PricedList.discard_success hdrop).1.subset (List.mem_append_left _ htx)
    exact h.live hmem (PricedList.mem_of_discard (Prod.ext hdrop rfl) htx)
  room drop hdrop := by
    obtain ⟨hsheds, hroom⟩ := PricedList.discard_success hdrop
    refine hroom.imp id fun ⟨hforce, hempty⟩ => ⟨hforce, fun hash tx hremote => ?_⟩
    have hhash := h.keyed.remotes hash tx hremote
    have hmem := (hsheds.mem_iff (hhash ▸ hremote)).mpr (h.tracked hash tx hremote)
    rwa [hempty, List.append_nil] at hmem
  failed hnone tx hremote := (PricedList.discard_failure hnone).mem_iff hremote

end Sound

theorem sound_start : Sound machine.start where
  keyed :=
    { locals := fun _ _ hnone => by cases hnone
      remotes := fun _ _ hnone => by cases hnone
      disjoint := fun _ _ hnone => by cases hnone }
  distinct := List.nodup_nil
  tracked := fun _ _ hnone => by cases hnone

theorem sound_of_reached {s : Tracker} (h : machine.Reached Fresh s) : s.Sound :=
  h.invariant (I := Sound) sound_start fun _ _ _ hsound hfresh hnext => hsound.next hfresh hnext

/-- If remote transactions are added only when no entry of theirs is left, a discard gives distinct
ones with the slots asked for, or all of them if it is forced and these are too few; one that fails
keeps the entries. -/
theorem discard_makes_room {s : Tracker} (h : machine.Reached Fresh s) (slots : ℤ) (force : Bool) :
    s.MakesRoom slots force (s.priced.discard s.all slots force) :=
  (sound_of_reached h).makesRoom slots force

namespace Sample

def order : MapOrder := ⟨fun xs => xs, fun xs => .refl xs⟩

def tx (hash : Fin 8) (gasFeeCap : ℕ) : Tx where
  hash := ⟨hash, by omega⟩
  sender := ⟨hash, by omega⟩
  nonce := 0
  gas := 21000
  gasFeeCap := gasFeeCap
  gasTipCap := gasFeeCap
  value := 0
  size := 100
  nonce_lt := by omega

/-- The cheapest transaction leaves the pool while four others stay, and comes back. -/
def readded : List Event :=
  [.add (tx 0 1) false, .add (tx 1 9) false, .add (tx 2 9) false, .add (tx 3 9) false,
    .add (tx 4 9) false, .remove 0, .removed order 1, .add (tx 0 1) false]

/-- The same with a base fee that changes before it comes back. -/
def reheaped : List Event :=
  [.add (tx 0 1) false, .add (tx 1 9) false, .add (tx 2 9) false, .add (tx 3 9) false,
    .add (tx 4 9) false, .remove 0, .removed order 1, .setBaseFee order 1, .add (tx 0 1) false]

end Sample

instance decidableFresh (s : Tracker) : (e : Event) → Decidable (s.Fresh e)
  | .add tx false => inferInstanceAs (Decidable (∀ tx' ∈ s.priced.entries, tx'.hash ≠ tx.hash))
  | .add _ true | .remove _ | .removed .. | .migrate .. | .setBaseFee .. | .reheap _
  | .underpriced _ | .discard .. => isTrue trivial

/-- Two slots are then freed by two transactions. -/
theorem discard_makes_room_sample : ∃ s, machine.Reached Fresh s ∧
    ((s.priced.discard s.all 2 false).1.map fun drop => drop.map Tx.hash) = some [0, 3] ∧
      s.MakesRoom 2 false (s.priced.discard s.all 2 false) := by
  have hreached : machine.Reached Fresh (machine.after machine.start Sample.reheaped) :=
    .after .start (by decide +kernel)
  exact ⟨_, hreached, by decide +kernel, discard_makes_room hreached 2 false⟩

/-- The transaction that came back is discarded twice, which is counted as two slots. -/
theorem discards_twice : ∃ s, machine.Reached (fun _ _ => True) s ∧
    (s.priced.discard s.all 2 false).1 = some [Sample.tx 0 1, Sample.tx 0 1] ∧
      ¬ s.MakesRoom 2 false (s.priced.discard s.all 2 false) := by
  have hreached : machine.Reached (fun _ _ => True)
      (machine.after machine.start Sample.readded) := .after .start (by decide +kernel)
  have hdiscard : ((machine.after machine.start Sample.readded).priced.discard
      (machine.after machine.start Sample.readded).all 2 false).1 =
        some [Sample.tx 0 1, Sample.tx 0 1] := by
    decide +kernel
  refine ⟨_, hreached, hdiscard, fun hroom => ?_⟩
  exact absurd (hroom.distinct _ hdiscard) (by decide)

end Tracker

end TxPool

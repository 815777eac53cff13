import Mathlib.Algebra.Order.Ring.Int
import Mathlib.Algebra.Order.Ring.Nat
import NarwhalGeth.Lib.Assoc

/-!
# The transactions of an account

The pool keeps the transactions of an account sorted by nonce, with at most one for each nonce: a
strict list for those that can be executed and another one for those in the future. The heap of
nonces and the cache of the source only serve to have this order.
-/

namespace TxPool

abbrev Address := Fin (256 ^ 20)

abbrev Hash := Fin (256 ^ 32)

instance neZeroAddress : NeZero (256 ^ 20) := ⟨by decide⟩

instance neZeroHash : NeZero (256 ^ 32) := ⟨by decide⟩

/-- A transaction with the account that signed it. -/
structure Tx where
  hash : Hash
  sender : Address
  nonce : ℕ
  gas : ℕ
  gasFeeCap : ℕ
  gasTipCap : ℕ
  value : ℕ
  size : ℕ
  nonce_lt : nonce < 2 ^ 64
deriving DecidableEq

namespace Tx

def cost (tx : Tx) : ℕ := tx.gasFeeCap * tx.gas + tx.value

def txSlotSize : ℕ := 32 * 1024

def numSlots (tx : Tx) : ℕ := (tx.size + txSlotSize - 1) / txSlotSize

/-- The next nonce, which wraps around. -/
def nextNonce (tx : Tx) : ℕ := (tx.nonce + 1) % 2 ^ 64

/-- The transactions are of the same account and have the same nonce. -/
def SameNonce (tx tx' : Tx) : Prop := tx.sender = tx'.sender ∧ tx.nonce = tx'.nonce

/-- Whether the transaction may replace an old one with the same nonce. -/
def outbids (tx old : Tx) (priceBump : ℕ) : Bool :=
  old.gasFeeCap < tx.gasFeeCap ∧ old.gasTipCap < tx.gasTipCap ∧
    (100 + priceBump) * old.gasFeeCap / 100 ≤ tx.gasFeeCap ∧
    (100 + priceBump) * old.gasTipCap / 100 ≤ tx.gasTipCap

end Tx

/-- The transactions are in the order of their nonces, which are different. -/
def Sorted (txs : List Tx) : Prop := txs.Pairwise fun tx tx' => tx.nonce < tx'.nonce

theorem Sorted.filter {txs : List Tx} (h : Sorted txs) (p : Tx → Bool) : Sorted (txs.filter p) :=
  List.Pairwise.filter p h

theorem Sorted.eq_of_nonce {txs : List Tx} (h : Sorted txs) {tx tx' : Tx} (htx : tx ∈ txs)
    (htx' : tx' ∈ txs) (heq : tx.nonce = tx'.nonce) : tx = tx' := by
  have hnodup : (txs.map Tx.nonce).Nodup := List.pairwise_map.mpr (h.imp fun hlt => hlt.ne)
  exact List.inj_on_of_nodup_map hnodup htx htx' heq

theorem Sorted.ext {txs txs' : List Tx} (h : Sorted txs) (h' : Sorted txs')
    (hmem : ∀ tx, tx ∈ txs ↔ tx ∈ txs') : txs = txs' := by
  let below : Tx → Tx → Prop := fun tx tx' => tx.nonce < tx'.nonce
  have : Std.Irrefl below := ⟨fun tx => lt_irrefl tx.nonce⟩
  have : Std.Antisymm below := ⟨fun tx tx' hlt hgt => absurd hgt hlt.not_gt⟩
  have hbelow : txs.Pairwise below := h
  exact hbelow.eq_of_mem_iff h' fun {tx} => hmem tx

theorem Sorted.filter_lt_eq_nil {first : Tx} {txs : List Tx} (h : Sorted (first :: txs))
    {threshold : ℕ} (hfirst : ¬ first.nonce < threshold) :
    (first :: txs).filter (fun tx => tx.nonce < threshold) = [] := by
  refine List.filter_eq_nil_iff.mpr fun tx htx => ?_
  rw [decide_eq_true_eq]
  rcases List.mem_cons.mp htx with rfl | htx
  · exact hfirst
  · have := (List.pairwise_cons.mp h).1 tx htx
    omega

theorem Sorted.filter_lt_append {txs : List Tx} (h : Sorted txs) (threshold : ℕ) :
    txs.filter (fun tx => tx.nonce < threshold) ++
      txs.filter (fun tx => !decide (tx.nonce < threshold)) = txs := by
  induction txs with
  | nil => rfl
  | cons first txs ih =>
    by_cases hfirst : first.nonce < threshold
    · simpa [hfirst] using ih (List.pairwise_cons.mp h).2
    · have hnone := h.filter_lt_eq_nil hfirst
      rw [hnone, List.nil_append]
      refine List.filter_eq_self.mpr fun tx htx => ?_
      simpa using List.filter_eq_nil_iff.mp hnone tx htx

/-- The transactions of an account. The nonces of a strict list are meant to be continuous. -/
structure TxList (strict : Bool) where
  txs : List Tx
  sorted : Sorted txs
  costcap : ℕ
  gascap : ℕ
  totalcost : ℤ
  capped : ∀ tx ∈ txs, tx.cost ≤ costcap ∧ tx.gas ≤ gascap

namespace TxList

def newList (strict : Bool) : TxList strict := ⟨[], .nil, 0, 0, 0, nofun⟩

variable {strict : Bool} (l : TxList strict) {txs : List Tx} {left : Tx}

def get (nonce : ℕ) : Option Tx := l.txs.find? fun tx => tx.nonce = nonce

def contains (nonce : ℕ) : Bool := (l.get nonce).isSome

def totalCost (txs : List Tx) : ℤ := (txs.map fun tx => (tx.cost : ℤ)).sum

theorem sorted_put (tx : Tx) :
    Sorted (l.txs.filter (fun tx' => tx'.nonce < tx.nonce) ++
      tx :: l.txs.filter fun tx' => tx.nonce < tx'.nonce) := by
  refine List.pairwise_append.mpr ⟨l.sorted.filter _, List.pairwise_cons.mpr
    ⟨fun tx' h => ?_, l.sorted.filter _⟩, fun tx₁ h₁ tx₂ h₂ => ?_⟩
  · simpa using (List.mem_filter.mp h).2
  · have hlow : tx₁.nonce < tx.nonce := by simpa using (List.mem_filter.mp h₁).2
    rcases List.mem_cons.mp h₂ with rfl | h₂
    · exact hlow
    · have hhigh : tx.nonce < tx₂.nonce := by simpa using (List.mem_filter.mp h₂).2
      exact hlow.trans hhigh

theorem capped_put (tx : Tx) :
    ∀ tx' ∈ l.txs.filter (fun tx' => tx'.nonce < tx.nonce) ++
      tx :: l.txs.filter fun tx' => tx.nonce < tx'.nonce,
      tx'.cost ≤ max l.costcap tx.cost ∧ tx'.gas ≤ max l.gascap tx.gas := by
  intro tx' htx'
  have hmem : tx' = tx ∨ tx' ∈ l.txs := by
    simp only [List.mem_append, List.mem_cons, List.mem_filter] at htx'
    tauto
  rcases hmem with rfl | hmem
  · exact ⟨le_max_right _ _, le_max_right _ _⟩
  · exact (l.capped tx' hmem).imp le_max_of_le_left le_max_of_le_left

/-- Puts a transaction in the place of the one with its nonce. -/
def put (tx : Tx) : TxList strict :=
  { l with
    txs := l.txs.filter (fun tx' => tx'.nonce < tx.nonce) ++
      tx :: l.txs.filter fun tx' => tx.nonce < tx'.nonce
    sorted := l.sorted_put tx
    totalcost := l.totalcost - totalCost (l.get tx.nonce).toList + tx.cost
    costcap := max l.costcap tx.cost
    gascap := max l.gascap tx.gas
    capped := l.capped_put tx }

/-- Tries to insert a transaction. Returns the one it has replaced and the list, unless the old one
is not outbid. -/
def add (tx : Tx) (priceBump : ℕ) : Option (Option Tx × TxList strict) :=
  match l.get tx.nonce with
  | some old => if tx.outbids old priceBump then some (some old, l.put tx) else none
  | none => some (none, l.put tx)

/-- Takes out the transactions that meet a condition. -/
def take (p : Tx → Bool) : List Tx × TxList strict :=
  let taken := l.txs.filter p
  (taken, { l with
    txs := l.txs.filter fun tx => !p tx
    sorted := l.sorted.filter _
    totalcost := l.totalcost - totalCost taken
    capped := fun tx htx => l.capped tx (List.mem_of_mem_filter htx) })

theorem capped_filter (costLimit gasLimit : ℕ) :
    ∀ tx ∈ (l.take fun tx => gasLimit < tx.gas ∨ costLimit < tx.cost).2.txs,
      tx.cost ≤ costLimit ∧ tx.gas ≤ gasLimit := by
  intro tx htx
  have hgood := (List.mem_filter.mp htx).2
  simp only [Bool.not_eq_true', decide_eq_false_iff_not, not_or, not_lt] at hgood
  exact hgood.symm

/-- Takes out the transactions with lower nonces. -/
def forward (threshold : ℕ) : List Tx × TxList strict := l.take fun tx => tx.nonce < threshold

/-- Lowers the caps and takes out the transactions above them. -/
def lowerCaps (costLimit gasLimit : ℕ) : List Tx × TxList strict :=
  let result := l.take fun tx => gasLimit < tx.gas ∨ costLimit < tx.cost
  (result.1, { result.2 with
    costcap := costLimit
    gascap := gasLimit
    capped := l.capped_filter costLimit gasLimit })

/-- Takes out the transactions above a limit, and from a strict list then all those after one of
them. -/
def filter (costLimit gasLimit : ℕ) : List Tx × List Tx × TxList strict :=
  if l.costcap ≤ costLimit ∧ l.gascap ≤ gasLimit then ([], [], l)
  else
    let result := l.lowerCaps costLimit gasLimit
    match result.1.head? with
    | none => ([], [], result.2)
    | some lowest =>
      if strict then (result.1, result.2.take fun tx => lowest.nonce < tx.nonce)
      else (result.1, [], result.2)

/-- Limits the number of transactions. Those with the highest nonces are taken out. -/
def cap (threshold : ℕ) : List Tx × TxList strict :=
  let drops := (l.txs.drop threshold).reverse
  (drops, { l with
    txs := l.txs.take threshold
    sorted := l.sorted.sublist (List.take_sublist threshold l.txs)
    totalcost := l.totalcost - totalCost drops
    capped := fun tx htx => l.capped tx (List.mem_of_mem_take htx) })

/-- Removes the transaction with this nonce. Returns those that a strict list then cannot hold any
more. -/
def remove (tx : Tx) : Option (List Tx × TxList strict) :=
  if l.contains tx.nonce then
    let removed := (l.take fun tx' => tx'.nonce = tx.nonce).2
    let removed := { removed with totalcost := l.totalcost - tx.cost }
    some (if strict then removed.take fun tx' => tx.nonce < tx'.nonce else ([], removed))
  else none

/-- The transactions with successive nonces in front of a list. -/
def takeRun : ℕ → List Tx → List Tx
  | _, [] => []
  | next, tx :: txs => if tx.nonce = next then tx :: takeRun (next + 1) txs else []

/-- The transactions with successive nonces from the lowest one on, if that is not above the given
one. -/
def readyRun (start : ℕ) : List Tx → List Tx
  | [] => []
  | first :: txs =>
    if start < first.nonce then [] else takeRun first.nonce (first :: txs)

/-- Takes out the transactions that are ready. -/
def ready (start : ℕ) : List Tx × TxList strict :=
  let run := readyRun start l.txs
  (run, { l with
    txs := l.txs.drop run.length
    sorted := l.sorted.sublist (List.drop_sublist run.length l.txs)
    totalcost := l.totalcost - totalCost run
    capped := fun tx htx => l.capped tx (List.mem_of_mem_drop htx) })

def len : ℕ := l.txs.length

def empty : Bool := l.txs.isEmpty

def lastElement : Option Tx := l.txs.getLast?

/-! ## What the operations do -/

section Operations

variable {l} {l' l'' : TxList strict} {tx tx' : Tx} {taken taken' : List Tx} {nonce priceBump : ℕ}

theorem get_eq_some_iff : l.get nonce = some tx ↔ tx ∈ l.txs ∧ tx.nonce = nonce := by
  constructor
  · intro h
    exact ⟨List.mem_of_find?_eq_some h, by simpa using List.find?_some h⟩
  · rintro ⟨hmem, rfl⟩
    cases hget : l.get tx.nonce with
    | none => simpa using List.find?_eq_none.mp hget tx hmem
    | some tx' =>
      have hnonce : tx'.nonce = tx.nonce := by simpa using List.find?_some hget
      rw [l.sorted.eq_of_nonce (List.mem_of_find?_eq_some hget) hmem hnonce]

theorem get_eq_none_iff : l.get nonce = none ↔ ∀ tx ∈ l.txs, tx.nonce ≠ nonce := by
  simp [get, List.find?_eq_none]

theorem contains_iff : l.contains nonce = true ↔ ∃ tx ∈ l.txs, tx.nonce = nonce := by
  rw [contains, Option.isSome_iff_exists]
  exact exists_congr fun tx => get_eq_some_iff

theorem mem_put : tx' ∈ (l.put tx).txs ↔ tx' = tx ∨ tx' ∈ l.txs ∧ tx'.nonce ≠ tx.nonce := by
  simp only [put, List.mem_append, List.mem_cons, List.mem_filter, decide_eq_true_eq]
  constructor
  · rintro (⟨hmem, hlt⟩ | rfl | ⟨hmem, hlt⟩)
    · exact .inr ⟨hmem, hlt.ne⟩
    · exact .inl rfl
    · exact .inr ⟨hmem, hlt.ne'⟩
  · rintro (rfl | ⟨hmem, hne⟩)
    · exact .inr (.inl rfl)
    · rcases Nat.lt_or_gt_of_ne hne with hlt | hgt
      · exact .inl ⟨hmem, hlt⟩
      · exact .inr (.inr ⟨hmem, hgt⟩)

theorem add_eq_none_iff : l.add tx priceBump = none ↔
    ∃ old ∈ l.txs, old.nonce = tx.nonce ∧ tx.outbids old priceBump = false := by
  unfold add
  cases hget : l.get tx.nonce with
  | none =>
    refine iff_of_false (by simp) ?_
    rintro ⟨old, hold, hnonce, -⟩
    exact get_eq_none_iff.mp hget old hold hnonce
  | some old =>
    obtain ⟨hold, hnonce⟩ := get_eq_some_iff.mp hget
    by_cases hbid : tx.outbids old priceBump = true
    · refine iff_of_false (by simp [hbid]) ?_
      rintro ⟨other, hother, hsame, hlow⟩
      rw [l.sorted.eq_of_nonce hother hold (hsame.trans hnonce.symm), hbid] at hlow
      cases hlow
    · rw [Bool.not_eq_true] at hbid
      exact iff_of_true (by simp [hbid]) ⟨old, hold, hnonce, hbid⟩

theorem add_eq_some {old : Option Tx} (h : l.add tx priceBump = some (old, l')) :
    old = l.get tx.nonce ∧ l' = l.put tx := by
  unfold add at h
  split at h
  · next hget =>
    split_ifs at h
    obtain ⟨rfl, rfl⟩ := Prod.mk.inj (Option.some.inj h)
    exact ⟨hget.symm, rfl⟩
  · next hget =>
    obtain ⟨rfl, rfl⟩ := Prod.mk.inj (Option.some.inj h)
    exact ⟨hget.symm, rfl⟩

theorem add_of_get_eq_none (h : l.get tx.nonce = none) :
    l.add tx priceBump = some (none, l.put tx) := by
  rw [add, h]

/-- Each transaction of the list was either taken, once, or is left. -/
structure Splits (l : TxList strict) (taken : List Tx) (l' : TxList strict) : Prop where
  mem : ∀ tx, tx ∈ l.txs ↔ tx ∈ taken ∨ tx ∈ l'.txs
  disjoint : ∀ tx ∈ taken, tx ∉ l'.txs
  nonces : taken.Pairwise fun tx tx' => tx.nonce ≠ tx'.nonce

theorem Splits.trans (h : Splits l taken l') (h' : Splits l' taken' l'') :
    Splits l (taken ++ taken') l'' where
  mem tx := by rw [h.mem, h'.mem, List.mem_append, or_assoc]
  disjoint tx htx hleft := by
    rcases List.mem_append.mp htx with htaken | htaken
    · exact h.disjoint tx htaken ((h'.mem tx).mpr (.inr hleft))
    · exact h'.disjoint tx htaken hleft
  nonces := by
    refine List.pairwise_append.mpr ⟨h.nonces, h'.nonces, fun tx htx tx' htx' hnonce => ?_⟩
    have hleft := (h'.mem tx').mpr (.inl htx')
    have hsame := l.sorted.eq_of_nonce ((h.mem tx).mpr (.inl htx)) ((h.mem tx').mpr (.inr hleft))
      hnonce
    exact h.disjoint tx htx (hsame ▸ hleft)

theorem Splits.perm (h : Splits l taken l') (hperm : taken.Perm taken') : Splits l taken' l' where
  mem tx := by rw [h.mem, hperm.mem_iff]
  disjoint tx htx := h.disjoint tx (hperm.mem_iff.mpr htx)
  nonces := hperm.pairwise h.nonces fun hne => hne.symm

theorem Splits.refl (h : l'.txs = l.txs) : Splits l [] l' where
  mem tx := by simp [h]
  disjoint tx htx := by cases htx
  nonces := .nil

theorem take_splits (l : TxList strict) (p : Tx → Bool) :
    Splits l (l.take p).1 (l.take p).2 where
  mem tx := by
    simp only [take, List.mem_filter, ← and_or_left]
    cases p tx <;> simp
  disjoint tx htx hleft := by
    simp only [take, List.mem_filter] at htx hleft
    simp [htx.2] at hleft
  nonces := (l.sorted.filter p).imp fun hlt => hlt.ne

theorem cap_splits (l : TxList strict) (threshold : ℕ) :
    Splits l (l.cap threshold).1 (l.cap threshold).2 where
  mem tx := by
    rw [cap, List.mem_reverse, or_comm, ← List.mem_append, List.take_append_drop]
  disjoint tx htx hleft := by
    have hall : Sorted (l.txs.take threshold ++ l.txs.drop threshold) := by
      rw [List.take_append_drop]
      exact l.sorted
    exact lt_irrefl _ ((List.pairwise_append.mp hall).2.2 tx hleft tx (List.mem_reverse.mp htx))
  nonces := List.pairwise_reverse.mpr
    ((l.sorted.sublist (List.drop_sublist threshold l.txs)).imp fun hlt => hlt.ne')

theorem filter_splits (l : TxList strict) (costLimit gasLimit : ℕ) :
    Splits l ((l.filter costLimit gasLimit).1 ++ (l.filter costLimit gasLimit).2.1)
      (l.filter costLimit gasLimit).2.2 := by
  have hremoved := l.take_splits fun tx => gasLimit < tx.gas ∨ costLimit < tx.cost
  have hsplits : Splits l (l.lowerCaps costLimit gasLimit).1 (l.lowerCaps costLimit gasLimit).2 :=
    ⟨hremoved.mem, hremoved.disjoint, hremoved.nonces⟩
  unfold filter
  dsimp only
  generalize l.lowerCaps costLimit gasLimit = result at hsplits ⊢
  obtain ⟨removed, kept⟩ := result
  by_cases hcaps : l.costcap ≤ costLimit ∧ l.gascap ≤ gasLimit
  · rw [if_pos hcaps]
    exact .refl rfl
  rw [if_neg hcaps]
  cases hhead : removed.head? with
  | none =>
    rw [List.head?_eq_none_iff.mp hhead] at hsplits
    exact hsplits
  | some lowest =>
    dsimp only
    split_ifs
    · exact hsplits.trans (take_splits _ _)
    · rw [List.append_nil]
      exact hsplits

theorem filter_invalids_eq_nil (l : TxList false) (costLimit gasLimit : ℕ) :
    (l.filter costLimit gasLimit).2.1 = [] := by
  unfold filter
  dsimp only
  split_ifs with hcaps hstrict
  · rfl
  · cases hstrict
  · generalize (lowerCaps _ _ _).1.head? = lowest
    cases lowest <;> rfl

theorem filter_invalids_above (l : TxList strict) {costLimit gasLimit : ℕ} {tx : Tx}
    (htx : tx ∈ (l.filter costLimit gasLimit).2.1) :
    ∃ low ∈ (l.filter costLimit gasLimit).1, low.nonce < tx.nonce := by
  unfold filter at htx ⊢
  dsimp only at htx ⊢
  generalize lowerCaps _ _ _ = result at htx ⊢
  split_ifs at htx ⊢ with hcaps hstrict
  · cases htx
  · cases hhead : result.1.head? with
    | none =>
      rw [hhead] at htx
      cases htx
    | some lowest =>
      rw [hhead] at htx
      exact ⟨lowest, List.mem_of_head? hhead, by simpa using (List.mem_filter.mp htx).2⟩
  · generalize result.1.head? = lowest at htx
    cases lowest <;> cases htx

theorem lowest_le (hsorted : Sorted txs) {bad : Tx → Bool} {lowest : Tx}
    (hhead : (txs.filter bad).head? = some lowest) :
    ∀ tx ∈ txs, bad tx = true → lowest.nonce ≤ tx.nonce := by
  intro tx htx hbad
  obtain ⟨rest, hrest⟩ := List.head?_eq_some_iff.mp hhead
  have hmem : tx ∈ txs.filter bad := List.mem_filter.mpr ⟨htx, hbad⟩
  have hfiltered := hsorted.filter bad
  rw [hrest] at hmem hfiltered
  rcases List.mem_cons.mp hmem with rfl | hmem
  · exact le_rfl
  · exact ((List.pairwise_cons.mp hfiltered).1 tx hmem).le

theorem filter_upto_lowest (hsorted : Sorted txs) {bad : Tx → Bool} {lowest : Tx}
    (hhead : (txs.filter bad).head? = some lowest) :
    (txs.filter fun tx => !bad tx).filter (fun tx => !decide (lowest.nonce < tx.nonce)) =
      txs.filter fun tx => tx.nonce < lowest.nonce := by
  have hlowest := List.mem_filter.mp (List.mem_of_head? hhead)
  have hfirst := lowest_le hsorted hhead
  rw [List.filter_filter]
  refine List.filter_congr fun tx htx => ?_
  rw [Bool.eq_iff_iff]
  simp only [Bool.and_eq_true, Bool.not_eq_true', decide_eq_false_iff_not, decide_eq_true_eq,
    not_lt]
  constructor
  · rintro ⟨hle, hgood⟩
    refine lt_of_le_of_ne hle fun heq => ?_
    rw [hsorted.eq_of_nonce htx hlowest.1 heq, hlowest.2] at hgood
    cases hgood
  · intro hlt
    refine ⟨hlt.le, Bool.eq_false_iff.mpr fun hbad => ?_⟩
    exact absurd (hfirst tx htx hbad) (not_le.mpr hlt)

theorem filter_txs (l : TxList false) (costLimit gasLimit : ℕ) :
    (l.filter costLimit gasLimit).2.2.txs =
      l.txs.filter fun tx => tx.cost ≤ costLimit ∧ tx.gas ≤ gasLimit := by
  by_cases hcaps : l.costcap ≤ costLimit ∧ l.gascap ≤ gasLimit
  · rw [filter, if_pos hcaps, eq_comm, List.filter_eq_self]
    intro tx htx
    obtain ⟨hcost, hgas⟩ := l.capped tx htx
    exact decide_eq_true ⟨hcost.trans hcaps.1, hgas.trans hcaps.2⟩
  · have hkept : (l.filter costLimit gasLimit).2.2 = (l.lowerCaps costLimit gasLimit).2 := by
      rw [filter, if_neg hcaps]
      dsimp only
      cases (l.lowerCaps costLimit gasLimit).1.head? <;> rfl
    rw [hkept]
    refine List.filter_congr fun tx _ => ?_
    rw [← decide_not, decide_eq_decide, not_or, not_lt, not_lt, and_comm]

/-- A strict list keeps what is in front of the lowest transaction above a limit. -/
theorem filter_strict (l : TxList true) (costLimit gasLimit : ℕ) :
    (∃ left, (l.filter costLimit gasLimit).2.2.txs ++ left = l.txs) ∧
      ∀ tx, tx ∈ (l.filter costLimit gasLimit).2.2.txs ↔ tx ∈ l.txs ∧
        ∀ tx' ∈ l.txs, tx'.nonce ≤ tx.nonce → tx'.cost ≤ costLimit ∧ tx'.gas ≤ gasLimit := by
  by_cases hcaps : l.costcap ≤ costLimit ∧ l.gascap ≤ gasLimit
  · rw [filter, if_pos hcaps]
    refine ⟨⟨[], List.append_nil _⟩, fun tx => (and_iff_left fun tx' htx' _ => ?_).symm⟩
    exact (l.capped tx' htx').imp hcaps.1.trans' hcaps.2.trans'
  rw [filter, if_neg hcaps]
  dsimp only [lowerCaps, take]
  cases hhead : (l.txs.filter fun tx => gasLimit < tx.gas ∨ costLimit < tx.cost).head? with
  | none =>
    have hgood := List.filter_eq_nil_iff.mp (List.head?_eq_none_iff.mp hhead)
    simp only [decide_eq_true_eq, not_or, not_lt] at hgood
    have hall : (l.txs.filter fun tx => !decide (gasLimit < tx.gas ∨ costLimit < tx.cost)) =
        l.txs := List.filter_eq_self.mpr fun tx htx => by simpa using hgood tx htx
    dsimp only
    rw [hall]
    exact ⟨⟨[], List.append_nil _⟩, fun tx =>
      (and_iff_left fun tx' htx' _ => (hgood tx' htx').symm).symm⟩
  | some lowest =>
    have hkept := filter_upto_lowest l.sorted hhead
    obtain ⟨hlowest, hbad⟩ := List.mem_filter.mp (List.mem_of_head? hhead)
    refine ⟨⟨l.txs.filter fun tx => !decide (tx.nonce < lowest.nonce),
      (congrArg (· ++ _) hkept).trans (l.sorted.filter_lt_append lowest.nonce)⟩, fun tx => ?_⟩
    have hmem : tx ∈ _ ↔ _ := iff_of_eq (congrArg (tx ∈ ·) hkept)
    refine hmem.trans (List.mem_filter.trans (and_congr_right fun htx => ?_))
    rw [decide_eq_true_eq] at hbad ⊢
    constructor
    · intro hlt tx' htx' hle
      by_contra hnot
      have := lowest_le l.sorted hhead tx' htx' (decide_eq_true (by omega))
      omega
    · intro hgood
      by_contra hge
      have := hgood lowest hlowest (not_lt.mp hge)
      omega

/-- The one with the nonce is removed, and a strict list keeps only what comes before it. -/
theorem remove_eq_some {invalids : List Tx} (h : l.remove tx = some (invalids, l')) :
    ∃ old ∈ l.txs, old.nonce = tx.nonce ∧ Splits l (old :: invalids) l' ∧
      (∀ tx' ∈ invalids, tx.nonce < tx'.nonce) ∧
      (strict = true → ∀ tx' ∈ l'.txs, tx'.nonce < tx.nonce) ∧
      (strict = false → invalids = []) := by
  unfold remove at h
  by_cases hcontains : l.contains tx.nonce = true
  swap
  · rw [if_neg hcontains] at h
    cases h
  rw [if_pos hcontains] at h
  obtain ⟨old, hold, hnonce⟩ := contains_iff.mp hcontains
  have hone : ∀ tx', tx' ∈ (l.take fun tx' => tx'.nonce = tx.nonce).1 ↔ tx' = old := by
    intro tx'
    simp only [take, List.mem_filter, decide_eq_true_eq]
    constructor
    · rintro ⟨hmem, heq⟩
      exact l.sorted.eq_of_nonce hmem hold (heq.trans hnonce.symm)
    · rintro rfl
      exact ⟨hold, hnonce⟩
  have htake := l.take_splits fun tx' => tx'.nonce = tx.nonce
  have hsplits : ∀ cost, Splits l [old]
      { (l.take fun tx' => tx'.nonce = tx.nonce).2 with totalcost := cost } := fun cost =>
    ⟨fun tx' => by rw [htake.mem, hone, List.mem_singleton],
      fun tx' htx' => htake.disjoint tx' ((hone tx').mpr (List.mem_singleton.mp htx')),
      List.pairwise_singleton _ _⟩
  have hresult := Option.some.inj h
  refine ⟨old, hold, hnonce, ?_⟩
  by_cases hstrict : strict = true
  · rw [if_pos hstrict] at hresult
    obtain ⟨rfl, rfl⟩ := Prod.mk.inj hresult
    refine ⟨(hsplits _).trans (take_splits _ _), fun tx' htx' => ?_, fun _ tx' htx' => ?_,
      fun hfalse => absurd hstrict (Bool.eq_false_iff.mp hfalse)⟩
    · simpa using (List.mem_filter.mp htx').2
    · simp only [take, List.mem_filter, Bool.not_eq_true', decide_eq_false_iff_not, not_lt] at htx'
      omega
  · rw [if_neg hstrict] at hresult
    obtain ⟨rfl, rfl⟩ := Prod.mk.inj hresult
    exact ⟨hsplits _, fun tx' htx' => (by cases htx'), fun htrue => absurd htrue hstrict,
      fun _ => rfl⟩

theorem remove_eq_none_iff : l.remove tx = none ↔ ∀ tx' ∈ l.txs, tx'.nonce ≠ tx.nonce := by
  unfold remove
  split_ifs with hcontains
  · obtain ⟨old, hold, hnonce⟩ := contains_iff.mp hcontains
    exact iff_of_false (by simp) fun hnone => hnone old hold hnonce
  · exact iff_of_true rfl fun old hold hnonce => hcontains (contains_iff.mpr ⟨old, hold, hnonce⟩)

/-! ## Runs -/

theorem takeRun_append (next : ℕ) (txs : List Tx) :
    takeRun next txs ++ txs.drop (takeRun next txs).length = txs := by
  induction txs generalizing next with
  | nil => rfl
  | cons tx txs ih =>
    unfold takeRun
    split_ifs
    · rw [List.length_cons, List.drop_succ_cons, List.cons_append, ih]
    · rfl

theorem takeRun_maximal {next : ℕ} (hsorted : Sorted txs) (hnext : ∀ tx ∈ txs, next ≤ tx.nonce)
    (hleft : left ∈ txs.drop (takeRun next txs).length) :
    left.nonce ≠ next ∧ ∀ tx ∈ takeRun next txs, left.nonce ≠ tx.nonce + 1 := by
  induction txs generalizing next with
  | nil => cases hleft
  | cons first txs ih =>
    obtain ⟨hfirst, hrest⟩ := List.pairwise_cons.mp hsorted
    have hlow := hnext first List.mem_cons_self
    unfold takeRun at hleft ⊢
    split_ifs at hleft ⊢ with heq
    · rw [List.length_cons, List.drop_succ_cons] at hleft
      have hafter : ∀ tx ∈ txs, next + 1 ≤ tx.nonce := fun tx htx => by
        have := hfirst tx htx
        omega
      obtain ⟨hne, hrun⟩ := ih hrest hafter hleft
      have hmem := hafter left (List.mem_of_mem_drop hleft)
      refine ⟨by omega, fun tx htx => ?_⟩
      rcases List.mem_cons.mp htx with rfl | htx
      · rw [heq]
        exact hne
      · exact hrun tx htx
    · refine ⟨?_, fun tx htx => by cases htx⟩
      rcases List.mem_cons.mp hleft with rfl | hleft
      · exact heq
      · have := hfirst left hleft
        omega

theorem readyRun_append (start : ℕ) (txs : List Tx) :
    readyRun start txs ++ txs.drop (readyRun start txs).length = txs := by
  cases txs with
  | nil => rfl
  | cons first txs =>
    simp only [readyRun]
    split_ifs
    · rfl
    · exact takeRun_append first.nonce (first :: txs)

theorem ready_splits (l : TxList strict) (start : ℕ) :
    Splits l (l.ready start).1 (l.ready start).2 where
  mem tx := by
    rw [ready, ← List.mem_append, readyRun_append]
  disjoint tx hrun hleft := by
    have hall : Sorted (readyRun start l.txs ++ l.txs.drop (readyRun start l.txs).length) := by
      rw [readyRun_append]
      exact l.sorted
    exact lt_irrefl _ ((List.pairwise_append.mp hall).2.2 tx hrun tx hleft)
  nonces := by
    have hrun : (readyRun start l.txs).Sublist l.txs := by
      nth_rewrite 2 [← readyRun_append start l.txs]
      exact List.sublist_append_left _ _
    exact (l.sorted.sublist hrun).imp fun hlt => hlt.ne

theorem readyRun_maximal (hsorted : Sorted txs) {start : ℕ}
    (hleft : left ∈ txs.drop (readyRun start txs).length) :
    (∀ tx ∈ readyRun start txs, left.nonce ≠ tx.nonce + 1) ∧
      (readyRun start txs = [] → start < left.nonce) := by
  cases txs with
  | nil => cases hleft
  | cons first txs =>
    obtain ⟨hfirst, -⟩ := List.pairwise_cons.mp hsorted
    have hlowest : ∀ tx ∈ first :: txs, first.nonce ≤ tx.nonce := by
      intro tx htx
      rcases List.mem_cons.mp htx with rfl | htx
      · exact le_rfl
      · exact (hfirst tx htx).le
    simp only [readyRun] at hleft ⊢
    split_ifs at hleft ⊢ with hstart
    · refine ⟨fun tx htx => (by cases htx), fun _ => ?_⟩
      exact hstart.trans_le (hlowest left (List.mem_of_mem_drop hleft))
    · refine ⟨(takeRun_maximal hsorted hlowest hleft).2, fun hnil => ?_⟩
      rw [takeRun, if_pos rfl] at hnil
      cases hnil

end Operations

end TxList

end TxPool

import Mathlib.Algebra.BigOperators.Group.Finset.Basic
import Mathlib.Algebra.Order.BigOperators.Group.Finset
import Mathlib.Algebra.Order.Ring.Int
import Mathlib.Algebra.Order.Ring.Nat
import NarwhalGeth.Lib.Assoc
import NarwhalGeth.Lib.HeapOrder
import NarwhalGeth.Lib.Machine

/-!
# Transactions by price and nonce

The miner takes transactions from a set that offers the best paying head of all accounts first and
keeps the nonce order of each account. The heads are in a price heap, and the rest of each account
is in a map. What an account still offers are its transactions up to the first that cannot pay the
base fee, and nothing once it was dropped.
-/

namespace Miner

/-! ## Transactions -/

/-- A transaction, as far as the miner looks at it. `time` is when it was first seen. -/
structure Transaction (H : Type) where
  hash : H
  nonce : ℕ
  gasFeeCap : ℤ
  gasTipCap : ℤ
  time : ℕ
  replayProtected : Bool
deriving DecidableEq

inductive TipError where
  | gasFeeCapTooLow
deriving DecidableEq

/-- A transaction with the tip that it pays to the miner. -/
structure TxWithMinerFee (H : Type) where
  tx : Transaction H
  minerFee : ℤ
deriving DecidableEq

variable {H A : Type} [DecidableEq A] {ws : List (TxWithMinerFee H)} {l rest : List (Transaction H)}
  {tx tx' : Transaction H} {a : A}

/-- The tip at a base fee, together with an error if the fee cap is below it. -/
def Transaction.effectiveGasTip (tx : Transaction H) : Option ℤ → ℤ × Option TipError
  | none => (tx.gasTipCap, none)
  | some baseFee =>
    (min tx.gasTipCap (tx.gasFeeCap - baseFee),
      if tx.gasFeeCap < baseFee then some .gasFeeCapTooLow else none)

def newTxWithMinerFee (tx : Transaction H) (baseFee : Option ℤ) :
    Except TipError (TxWithMinerFee H) :=
  match tx.effectiveGasTip baseFee with
  | (minerFee, none) => .ok ⟨tx, minerFee⟩
  | (_, some err) => .error err

namespace TxByPriceAndTime

def less (a b : TxWithMinerFee H) : Bool :=
  if a.minerFee = b.minerFee then a.tx.time < b.tx.time else a.minerFee > b.minerFee

theorem less_eq_true_iff {a b : TxWithMinerFee H} : less a b = true ↔
    b.minerFee < a.minerFee ∨ a.minerFee = b.minerFee ∧ a.tx.time < b.tx.time := by
  unfold less
  split_ifs with heq
  · simp only [decide_eq_true_eq, heq, lt_irrefl, false_or, true_and]
  · simp only [decide_eq_true_eq, heq, false_and, or_false, gt_iff_lt]

theorem strictWeak : Heap.StrictWeak (less (H := H)) where
  asymm h := by
    rw [less_eq_true_iff] at h ⊢
    omega
  neg_trans hxy hyz := by
    rw [less_eq_true_iff] at hxy hyz ⊢
    omega

end TxByPriceAndTime

/-! ## The set -/

/-- The heads of the accounts in a price heap, and the rest of each account. -/
structure TransactionsByPriceAndNonce (H A : Type) where
  txs : Assoc A (List (Transaction H))
  heads : List (TxWithMinerFee H)
  signer : Transaction H → A
  baseFee : Option ℤ

namespace TransactionsByPriceAndNonce

/-- The first transaction of the account becomes a head, or the account is removed. An empty list
panics. -/
def addHead (signer : Transaction H → A) (baseFee : Option ℤ)
    (st : Assoc A (List (Transaction H)) × List (TxWithMinerFee H))
    (e : (_ : A) × List (Transaction H)) :
    Option (Assoc A (List (Transaction H)) × List (TxWithMinerFee H)) :=
  match e.2 with
  | [] => none
  | tx :: rest =>
    match newTxWithMinerFee tx baseFee with
    | .error _ => some (st.1.erase e.1, st.2)
    | .ok wrapped =>
      if signer tx ≠ e.1 then some (st.1.erase e.1, st.2)
      else some (st.1.insert e.1 rest, st.2 ++ [wrapped])

def new (signer : Transaction H → A) (txs : Assoc A (List (Transaction H)))
    (baseFee : Option ℤ) : Option (TransactionsByPriceAndNonce H A) := do
  let (txs, heads) ← txs.entries.foldlM (addHead signer baseFee) (txs, [])
  some ⟨txs, Heap.init TxByPriceAndTime.less heads, signer, baseFee⟩

/-- The next transaction by price. -/
def peek (t : TransactionsByPriceAndNonce H A) : Option (Transaction H) :=
  t.heads.head?.map (·.tx)

/-- Removes the best head, without a successor. -/
def pop (t : TransactionsByPriceAndNonce H A) : Option (TransactionsByPriceAndNonce H A) := do
  let (_, heads) ← Heap.pop TxByPriceAndTime.less t.heads
  some { t with heads }

/-- Replaces the best head by the next transaction of its account, if that one can pay. -/
def shift (t : TransactionsByPriceAndNonce H A) : Option (TransactionsByPriceAndNonce H A) := do
  let head ← t.heads.head?
  let acc := t.signer head.tx
  match t.txs.lookup acc with
  | some (tx :: rest) =>
    match newTxWithMinerFee tx t.baseFee with
    | .ok wrapped =>
      some { t with
        heads := Heap.fix TxByPriceAndTime.less 0 (t.heads.set 0 wrapped)
        txs := t.txs.insert acc rest }
    | .error _ => t.pop
  | _ => t.pop

end TransactionsByPriceAndNonce

/-! ## Sessions -/

inductive Call where
  | peek
  | shift
  | pop
deriving DecidableEq

/-- A set in use, with the transaction that each `Shift` and each `Pop` has taken. -/
structure Session (H A : Type) where
  set : TransactionsByPriceAndNonce H A
  log : List (Call × Transaction H)

namespace Session

def next (s : Session H A) : Call → Option (Session H A)
  | .peek => some s
  | .shift => do
    let tx ← s.set.peek
    let set ← s.set.shift
    some ⟨set, s.log ++ [(.shift, tx)]⟩
  | .pop => do
    let tx ← s.set.peek
    let set ← s.set.pop
    some ⟨set, s.log ++ [(.pop, tx)]⟩

/-- The calls on a new set. -/
def machine (t : TransactionsByPriceAndNonce H A) : Machine (Session H A) Call where
  start := ⟨t, []⟩
  next := next

/-- A `Peek` changes nothing, and the other calls take the peeked transaction. -/
theorem next_cases {s s' : Session H A} {call : Call} (h : s.next call = some s') :
    (call = .peek ∧ s' = s) ∨
    ∃ tx, s.set.peek = some tx ∧ s'.log = s.log ++ [(call, tx)] ∧
      (call = .shift ∧ s.set.shift = some s'.set ∨ call = .pop ∧ s.set.pop = some s'.set) := by
  cases call with
  | peek => exact .inl ⟨rfl, (Option.some.inj h).symm⟩
  | shift =>
    obtain ⟨tx, hpeek, h⟩ := Option.bind_eq_some_iff.mp h
    obtain ⟨set, hset, h⟩ := Option.bind_eq_some_iff.mp h
    obtain rfl := Option.some.inj h
    exact .inr ⟨tx, hpeek, rfl, .inl ⟨rfl, hset⟩⟩
  | pop =>
    obtain ⟨tx, hpeek, h⟩ := Option.bind_eq_some_iff.mp h
    obtain ⟨set, hset, h⟩ := Option.bind_eq_some_iff.mp h
    obtain rfl := Option.some.inj h
    exact .inr ⟨tx, hpeek, rfl, .inr ⟨rfl, hset⟩⟩

end Session

/-! ## What the set has to offer -/

/-- The fee cap of the transaction is at least the base fee. -/
def Transaction.pays (baseFee : Option ℤ) (tx : Transaction H) : Bool :=
  baseFee.all fun baseFee => baseFee ≤ tx.gasFeeCap

/-- The transactions of an account, up to the first that does not pay the base fee. -/
def offered (baseFee : Option ℤ) (txs : Assoc A (List (Transaction H))) (a : A) :
    List (Transaction H) :=
  ((txs.lookup a).getD []).takeWhile (Transaction.pays baseFee)

/-- The transactions that were taken from an account. -/
def takenFrom (signer : Transaction H → A) (log : List (Call × Transaction H)) (a : A) :
    List (Transaction H) :=
  (log.map (·.2)).filter fun tx => signer tx = a

def dropped (signer : Transaction H → A) (log : List (Call × Transaction H)) (a : A) : Bool :=
  log.any fun e => e.1 = .pop ∧ signer e.2 = a

/-- What is left of an account, its current head first. -/
def remaining (signer : Transaction H → A) (baseFee : Option ℤ)
    (txs : Assoc A (List (Transaction H))) (log : List (Call × Transaction H)) (a : A) :
    List (Transaction H) :=
  if dropped signer log a then []
  else (offered baseFee txs a).drop (takenFrom signer log a).length

/-- The lists that a set is made from: not empty, in nonce order and signed by their account. -/
structure NonceOrdered (signer : Transaction H → A) (txs : Assoc A (List (Transaction H))) :
    Prop where
  nonempty : ∀ a l, txs.lookup a = some l → l ≠ []
  ordered : ∀ a l, txs.lookup a = some l → l.Pairwise fun tx tx' => tx.nonce < tx'.nonce
  signed : ∀ a l, txs.lookup a = some l → ∀ tx ∈ l, signer tx = a

/-! ## The heads are the heads of what is left -/

/-- The head that a transaction is in the heap. -/
def wrap (baseFee : Option ℤ) (tx : Transaction H) : TxWithMinerFee H :=
  ⟨tx, (tx.effectiveGasTip baseFee).1⟩

theorem newTxWithMinerFee_eq (tx : Transaction H) (baseFee : Option ℤ) :
    newTxWithMinerFee tx baseFee =
      if tx.pays baseFee then .ok (wrap baseFee tx) else .error .gasFeeCapTooLow := by
  cases baseFee with
  | none => rfl
  | some baseFee =>
    by_cases hlow : tx.gasFeeCap < baseFee
    · have hpays : ¬ baseFee ≤ tx.gasFeeCap := not_le.mpr hlow
      simp [newTxWithMinerFee, Transaction.effectiveGasTip, Transaction.pays, hlow]
    · have hpays : baseFee ≤ tx.gasFeeCap := not_lt.mp hlow
      simp [newTxWithMinerFee, Transaction.effectiveGasTip, Transaction.pays, wrap, hlow, hpays]

namespace TransactionsByPriceAndNonce

section

omit [DecidableEq A]

theorem exists_pop_of_peek {t : TransactionsByPriceAndNonce H A} (h : t.peek = some tx) :
    ∃ t', t.pop = some t' := by
  obtain ⟨w, hw, -⟩ := Option.map_eq_some_iff.mp h
  cases hpop : Heap.pop TxByPriceAndTime.less t.heads with
  | none =>
    rw [Heap.eq_nil_of_pop _ hpop] at hw
    cases hw
  | some taken => exact ⟨_, by rw [pop, hpop]; rfl⟩

end

variable {t : TransactionsByPriceAndNonce H A} {w : TxWithMinerFee H} {tx : Transaction H}
  {rest : List (Transaction H)}

theorem shift_of_pays (hhead : t.heads.head? = some w)
    (hlookup : t.txs.lookup (t.signer w.tx) = some (tx :: rest)) (hpays : tx.pays t.baseFee) :
    t.shift = some { t with
      heads := Heap.fix TxByPriceAndTime.less 0 (t.heads.set 0 (wrap t.baseFee tx))
      txs := t.txs.insert (t.signer w.tx) rest } := by
  unfold shift
  simp only [hhead, Option.bind_eq_bind, Option.bind_some, hlookup, newTxWithMinerFee_eq, hpays,
    if_true]

theorem shift_eq_pop (hhead : t.heads.head? = some w)
    (hlookup : ∀ tx rest, t.txs.lookup (t.signer w.tx) = some (tx :: rest) → ¬ tx.pays t.baseFee) :
    t.shift = t.pop := by
  unfold shift
  simp only [hhead, Option.bind_eq_bind, Option.bind_some]
  split
  · rename_i tx rest heq
    rw [newTxWithMinerFee_eq, if_neg (hlookup tx rest heq)]
  · rfl

theorem exists_shift_of_peek (h : t.peek = some tx) : ∃ t', t.shift = some t' := by
  obtain ⟨w, hw, -⟩ := Option.map_eq_some_iff.mp h
  by_cases hnext : ∃ tx' rest, t.txs.lookup (t.signer w.tx) = some (tx' :: rest) ∧
      tx'.pays t.baseFee
  · obtain ⟨tx', rest, hlookup, hpays⟩ := hnext
    exact ⟨_, shift_of_pays hw hlookup hpays⟩
  · obtain ⟨t', hpop⟩ := exists_pop_of_peek h
    refine ⟨t', (shift_eq_pop hw fun tx' rest hlookup hpays => hnext ?_).trans hpop⟩
    exact ⟨tx', rest, hlookup, hpays⟩

end TransactionsByPriceAndNonce

/-- The set offers the lists `left`: their heads are in the heap, and the rest is in the map, up to
transactions that do not pay. -/
structure Offers (signer : Transaction H → A) (baseFee : Option ℤ)
    (t : TransactionsByPriceAndNonce H A) (left : A → List (Transaction H)) : Prop where
  signer_eq : t.signer = signer
  baseFee_eq : t.baseFee = baseFee
  heap : Heap.IsHeap TxByPriceAndTime.less t.heads
  heads : ∀ w, w ∈ t.heads ↔ w = wrap baseFee w.tx ∧ (left (signer w.tx)).head? = some w.tx
  apart : (t.heads.map fun w => signer w.tx).Nodup
  rest : ∀ a tx r, left a = tx :: r → signer tx = a ∧ ∃ l, t.txs.lookup a = some l ∧
    l.takeWhile (Transaction.pays baseFee) = r ∧ ∀ tx ∈ l, signer tx = a

namespace Offers

variable {signer : Transaction H → A} {baseFee : Option ℤ} {t t' : TransactionsByPriceAndNonce H A}
  {left : A → List (Transaction H)} {tx : Transaction H} {a : A}

section

variable (h : Offers signer baseFee t left)

include h

theorem wrap_mem (htx : (left a).head? = some tx) : signer tx = a ∧ wrap baseFee tx ∈ t.heads := by
  obtain ⟨r, hr⟩ := List.head?_eq_some_iff.mp htx
  have hsigner := (h.rest a tx r hr).1
  refine ⟨hsigner, (h.heads _).mpr ⟨rfl, ?_⟩⟩
  show (left (signer tx)).head? = some tx
  rw [hsigner, htx]

theorem left_eq_nil_of_peek (hpeek : t.peek = none) (a : A) : left a = [] := by
  have hheads : t.heads = [] := List.head?_eq_none_iff.mp (Option.map_eq_none_iff.mp hpeek)
  refine List.head?_eq_none_iff.mp (Option.eq_none_iff_forall_ne_some.mpr fun tx htx => ?_)
  have hmem := (h.wrap_mem htx).2
  rw [hheads] at hmem
  cases hmem

theorem exists_heads_eq_cons (hpeek : t.peek = some tx) :
    ∃ ws, t.heads = wrap baseFee tx :: ws ∧ (left (signer tx)).head? = some tx := by
  obtain ⟨w, hw, rfl⟩ := Option.map_eq_some_iff.mp hpeek
  obtain ⟨ws, hws⟩ := List.head?_eq_some_iff.mp hw
  obtain ⟨hwrap, hleft⟩ := (h.heads w).mp (by rw [hws]; exact List.mem_cons_self)
  rw [← hwrap]
  exact ⟨ws, hws, hleft⟩

theorem best_of_peek (hpeek : t.peek = some tx) (htx' : (left a).head? = some tx') :
    (tx'.effectiveGasTip baseFee).1 ≤ (tx.effectiveGasTip baseFee).1 ∧
      ((tx'.effectiveGasTip baseFee).1 = (tx.effectiveGasTip baseFee).1 → tx.time ≤ tx'.time) := by
  obtain ⟨ws, hws, -⟩ := h.exists_heads_eq_cons hpeek
  have hheap := h.heap
  have hmem := (h.wrap_mem htx').2
  rw [hws] at hheap hmem
  have hbest := hheap.head_least TxByPriceAndTime.strictWeak hmem
  rw [TxByPriceAndTime.less_eq_true_iff] at hbest
  simp only [wrap, not_or, not_lt, not_and] at hbest
  exact hbest

/-- The heads are exchanged against heads that differ in the account of the first one only. -/
theorem heads_of_perm (hws : t.heads = wrap baseFee tx :: ws) (w : TxWithMinerFee H) :
    w ∈ ws ↔ w = wrap baseFee w.tx ∧ signer w.tx ≠ signer tx ∧
      (Function.update left (signer tx) l (signer w.tx)).head? = some w.tx := by
  have hapart := h.apart
  rw [hws, List.map_cons, List.nodup_cons] at hapart
  have hheads := h.heads w
  rw [hws, List.mem_cons] at hheads
  constructor
  · intro hw
    have hne : signer w.tx ≠ signer tx := by
      intro heq
      exact hapart.1 (List.mem_map.mpr ⟨w, hw, heq⟩)
    rw [Function.update_of_ne hne]
    obtain ⟨hwrap, hleft⟩ := hheads.mp (.inr hw)
    exact ⟨hwrap, hne, hleft⟩
  · rintro ⟨hwrap, hne, hleft⟩
    rw [Function.update_of_ne hne] at hleft
    rcases hheads.mpr ⟨hwrap, hleft⟩ with heq | hw
    · exact absurd (congrArg (fun w => signer w.tx) heq) hne
    · exact hw

theorem pop (hpeek : t.peek = some tx) (hpop : t.pop = some t') :
    Offers signer baseFee t' (Function.update left (signer tx) []) := by
  obtain ⟨⟨w, heads⟩, htaken, ht'⟩ := Option.bind_eq_some_iff.mp hpop
  obtain rfl := Option.some.inj ht'
  obtain ⟨ws, hws, -⟩ := h.exists_heads_eq_cons hpeek
  obtain ⟨hheap, hroot⟩ := h.heap.pop TxByPriceAndTime.strictWeak htaken
  obtain rfl : wrap baseFee tx = w := by
    rw [hws] at hroot
    exact Option.some.inj hroot
  have hperm : ws.Perm heads := by
    have := Heap.perm_of_pop _ htaken
    rw [hws] at this
    exact this.cons_inv
  refine ⟨h.signer_eq, h.baseFee_eq, hheap, fun w => ?_, ?_, fun a tx' r hleft => ?_⟩
  · rw [← hperm.mem_iff, h.heads_of_perm hws w (l := [])]
    constructor
    · rintro ⟨hwrap, -, hleft⟩
      exact ⟨hwrap, hleft⟩
    · rintro ⟨hwrap, hleft⟩
      refine ⟨hwrap, fun heq => ?_, hleft⟩
      rw [heq, Function.update_self] at hleft
      cases hleft
  · have hapart := h.apart
    rw [hws, List.map_cons, List.nodup_cons] at hapart
    exact (hperm.map _).nodup_iff.mp hapart.2
  · by_cases ha : a = signer tx
    · rw [ha, Function.update_self] at hleft
      cases hleft
    · rw [Function.update_of_ne ha] at hleft
      exact h.rest a tx' r hleft

theorem replace (hws : t.heads = wrap baseFee tx :: ws) (hsigner : signer tx' = signer tx)
    (hsigned : ∀ tx'' ∈ rest, signer tx'' = signer tx) :
    Offers signer baseFee
      { t with
        heads := Heap.fix TxByPriceAndTime.less 0 (t.heads.set 0 (wrap baseFee tx'))
        txs := t.txs.insert (signer tx) rest }
      (Function.update left (signer tx)
        (tx' :: rest.takeWhile (Transaction.pays baseFee))) := by
  have hset : t.heads.set 0 (wrap baseFee tx') = wrap baseFee tx' :: ws := by rw [hws]; rfl
  have hperm : (Heap.fix TxByPriceAndTime.less 0 (t.heads.set 0 (wrap baseFee tx'))).Perm
      (wrap baseFee tx' :: ws) := by
    rw [hset]
    exact Heap.fix_perm 0 _
  refine ⟨h.signer_eq, h.baseFee_eq, ?_, fun w => ?_, ?_, fun a tx'' r hleft => ?_⟩
  · refine h.heap.fix TxByPriceAndTime.strictWeak ?_ _
    rw [hws]
    exact Nat.succ_pos _
  · rw [hperm.mem_iff, List.mem_cons, h.heads_of_perm hws w]
    constructor
    · rintro (rfl | ⟨hwrap, -, hleft⟩)
      · refine ⟨rfl, ?_⟩
        show (Function.update left _ _ (signer tx')).head? = _
        rw [hsigner, Function.update_self, List.head?_cons]
        rfl
      · exact ⟨hwrap, hleft⟩
    · rintro ⟨hwrap, hleft⟩
      by_cases heq : signer w.tx = signer tx
      · rw [heq, Function.update_self, List.head?_cons] at hleft
        rw [← Option.some.inj hleft] at hwrap
        exact .inl hwrap
      · exact .inr ⟨hwrap, heq, hleft⟩
  · have hapart := h.apart
    rw [hws, List.map_cons] at hapart
    refine (hperm.map _).nodup_iff.mpr ?_
    rw [List.map_cons]
    show (signer tx' :: _).Nodup
    rw [hsigner]
    exact hapart
  · by_cases ha : a = signer tx
    · rw [ha, Function.update_self] at hleft
      obtain ⟨rfl, rfl⟩ := List.cons.inj hleft
      refine ⟨hsigner.trans ha.symm, rest, ?_, rfl,
        fun tx'' hmem => (hsigned tx'' hmem).trans ha.symm⟩
      rw [ha, AList.lookup_insert]
    · rw [Function.update_of_ne ha] at hleft
      obtain ⟨hsigner', l, hl, hrest⟩ := h.rest a tx'' r hleft
      refine ⟨hsigner', l, ?_, hrest⟩
      rw [AList.lookup_insert_ne ha, hl]

theorem shift (hpeek : t.peek = some tx) :
    ∃ t', t.shift = some t' ∧
      Offers signer baseFee t' (Function.update left (signer tx) (left (signer tx)).tail) := by
  obtain rfl := h.signer_eq
  obtain rfl := h.baseFee_eq
  obtain ⟨ws, hws, hhead⟩ := h.exists_heads_eq_cons hpeek
  obtain ⟨r, hr⟩ := List.head?_eq_some_iff.mp hhead
  obtain ⟨-, l, hl, htake, hsigned⟩ := h.rest _ _ _ hr
  have hroot : t.heads.head? = some (wrap t.baseFee tx) := by rw [hws]; rfl
  by_cases hnext : ∃ tx' rest, l = tx' :: rest ∧ tx'.pays t.baseFee
  · obtain ⟨tx', rest, rfl, hpays⟩ := hnext
    refine ⟨_, TransactionsByPriceAndNonce.shift_of_pays hroot hl hpays, ?_⟩
    rw [List.takeWhile_cons_of_pos hpays] at htake
    rw [hr, List.tail_cons, ← htake]
    exact h.replace hws (hsigned tx' List.mem_cons_self)
      fun tx'' hmem => hsigned tx'' (List.mem_cons_of_mem _ hmem)
  · -- Nothing that pays comes next, so that the account ends here.
    have hshift : t.shift = t.pop := by
      refine TransactionsByPriceAndNonce.shift_eq_pop hroot fun tx' rest hlookup hpays => ?_
      exact hnext ⟨tx', rest, Option.some.inj (hl.symm.trans hlookup), hpays⟩
    have hnil : r = [] := by
      rw [← htake]
      cases l with
      | nil => rfl
      | cons tx' rest => exact List.takeWhile_cons_of_neg fun hpays => hnext ⟨tx', rest, rfl, hpays⟩
    obtain ⟨t', hpop⟩ := TransactionsByPriceAndNonce.exists_pop_of_peek hpeek
    refine ⟨t', hshift.trans hpop, ?_⟩
    rw [hr, List.tail_cons, hnil]
    exact h.pop hpeek hpop

end

end Offers

/-! ## A new set offers what pays -/

/-- The head that an account has in a new set. -/
def firstHead (baseFee : Option ℤ) (l : List (Transaction H)) : Option (TxWithMinerFee H) :=
  (l.takeWhile (Transaction.pays baseFee)).head?.map (wrap baseFee)

section New

variable {signer : Transaction H → A} {baseFee : Option ℤ}

theorem addHead_eq {m : Assoc A (List (Transaction H))} (hsigner : signer tx = a) :
    TransactionsByPriceAndNonce.addHead signer baseFee (m, ws) ⟨a, tx :: rest⟩ =
      some (if tx.pays baseFee then m.insert a rest else m.erase a,
        ws ++ (firstHead baseFee (tx :: rest)).toList) := by
  by_cases hpays : tx.pays baseFee
  · simp [TransactionsByPriceAndNonce.addHead, newTxWithMinerFee_eq, hpays, firstHead, hsigner]
  · simp [TransactionsByPriceAndNonce.addHead, newTxWithMinerFee_eq, hpays, firstHead]

/-- The loop over the map collects the first heads, and leaves the rest of each account that has
one. -/
theorem foldlM_addHead {es : List ((_ : A) × List (Transaction H))}
    (hkeys : (es.map Sigma.fst).Nodup) (hnonempty : ∀ e ∈ es, e.2 ≠ [])
    (hsigned : ∀ e ∈ es, ∀ tx ∈ e.2, signer tx = e.1)
    (m : Assoc A (List (Transaction H))) (ws : List (TxWithMinerFee H)) :
    ∃ m', es.foldlM (TransactionsByPriceAndNonce.addHead signer baseFee) (m, ws) =
        some (m', ws ++ es.filterMap fun e => firstHead baseFee e.2) ∧
      (∀ a ∉ es.map Sigma.fst, m'.lookup a = m.lookup a) ∧
      ∀ a tx rest, ⟨a, tx :: rest⟩ ∈ es → tx.pays baseFee → m'.lookup a = some rest := by
  induction es generalizing m ws with
  | nil => exact ⟨m, by simp, fun _ _ => rfl, fun _ _ _ hmem _ => by cases hmem⟩
  | cons e es ih =>
    obtain ⟨a, l⟩ := e
    obtain ⟨tx, rest, rfl⟩ := List.exists_cons_of_ne_nil (hnonempty _ List.mem_cons_self)
    have hsigner : signer tx = a := hsigned _ List.mem_cons_self tx List.mem_cons_self
    rw [List.map_cons, List.nodup_cons] at hkeys
    obtain ⟨m', heq, hother, hrest⟩ := ih hkeys.2
      (fun e he => hnonempty e (List.mem_cons_of_mem _ he))
      (fun e he => hsigned e (List.mem_cons_of_mem _ he))
      (if tx.pays baseFee then m.insert a rest else m.erase a)
      (ws ++ (firstHead baseFee (tx :: rest)).toList)
    refine ⟨m', ?_, fun b hb => ?_, fun b tx' rest' hmem hpays => ?_⟩
    · rw [List.foldlM_cons, addHead_eq hsigner, Option.bind_eq_bind, Option.bind_some, heq,
        List.append_assoc]
      cases hfirst : firstHead baseFee (tx :: rest) <;> simp [hfirst]
    · rw [List.map_cons, List.mem_cons, not_or] at hb
      rw [hother b hb.2]
      split_ifs
      · exact AList.lookup_insert_ne hb.1
      · exact AList.lookup_erase_ne hb.1
    · rcases List.mem_cons.mp hmem with heq' | hmem
      · cases heq'
        rw [hother a hkeys.1, if_pos hpays, AList.lookup_insert]
      · exact hrest b tx' rest' hmem hpays

theorem offered_of_lookup {txs : Assoc A (List (Transaction H))} (h : txs.lookup a = some l) :
    offered baseFee txs a = l.takeWhile (Transaction.pays baseFee) := by
  rw [offered, h, Option.getD_some]

theorem lookup_of_offered_eq_cons {txs : Assoc A (List (Transaction H))} {r : List (Transaction H)}
    (h : offered baseFee txs a = tx :: r) :
    ∃ rest, txs.lookup a = some (tx :: rest) ∧ tx.pays baseFee ∧
      rest.takeWhile (Transaction.pays baseFee) = r := by
  unfold offered at h
  cases hl : txs.lookup a with
  | none =>
    rw [hl] at h
    cases h
  | some l =>
    rw [hl, Option.getD_some] at h
    cases l with
    | nil => cases h
    | cons tx' rest =>
      by_cases hpays : tx'.pays baseFee
      · rw [List.takeWhile_cons_of_pos hpays] at h
        obtain ⟨rfl, hr⟩ := List.cons.inj h
        exact ⟨rest, rfl, hpays, hr⟩
      · rw [List.takeWhile_cons_of_neg hpays] at h
        cases h

theorem firstHead_eq_some {txs : Assoc A (List (Transaction H))} (h : NonceOrdered signer txs)
    (hl : txs.lookup a = some l) {w : TxWithMinerFee H} (hw : firstHead baseFee l = some w) :
    w = wrap baseFee w.tx ∧ signer w.tx = a ∧
      (offered baseFee txs a).head? = some w.tx := by
  obtain ⟨tx, htx, rfl⟩ := Option.map_eq_some_iff.mp hw
  have hmem : tx ∈ l := (List.takeWhile_prefix _).subset (List.mem_of_head? htx)
  rw [offered_of_lookup hl]
  exact ⟨rfl, h.signed a l hl tx hmem, htx⟩

theorem exists_new {txs : Assoc A (List (Transaction H))} (h : NonceOrdered signer txs) :
    ∃ t, TransactionsByPriceAndNonce.new signer txs baseFee = some t ∧
      Offers signer baseFee t (offered baseFee txs) := by
  have hentry (e : (_ : A) × List (Transaction H)) (he : e ∈ txs.entries) :
      txs.lookup e.1 = some e.2 := Assoc.mem_entries_iff.mp he
  obtain ⟨m, hfold, -, hrest⟩ := foldlM_addHead txs.nodupKeys
    (fun e he => h.nonempty _ _ (hentry e he)) (fun e he => h.signed _ _ (hentry e he)) txs []
  rw [List.nil_append] at hfold
  refine ⟨_, by rw [TransactionsByPriceAndNonce.new, hfold]; rfl, rfl, rfl,
    Heap.isHeap_init TxByPriceAndTime.strictWeak _, fun w => ?_, ?_, fun a tx r hleft => ?_⟩
  · rw [(Heap.init_perm _).mem_iff, List.mem_filterMap]
    constructor
    · rintro ⟨⟨a, l⟩, he, hw⟩
      obtain ⟨hwrap, rfl, hhead⟩ := firstHead_eq_some h (hentry _ he) hw
      exact ⟨hwrap, hhead⟩
    · rintro ⟨hwrap, hhead⟩
      obtain ⟨r, hr⟩ := List.head?_eq_some_iff.mp hhead
      obtain ⟨rest, hl, -, -⟩ := lookup_of_offered_eq_cons hr
      refine ⟨⟨_, _⟩, Assoc.mem_entries_iff.mpr hl, ?_⟩
      rw [offered_of_lookup hl] at hhead
      rw [firstHead, hhead, Option.map_some, ← hwrap]
  · refine ((Heap.init_perm _).map _).nodup_iff.mpr (List.pairwise_map.mpr ?_)
    refine List.pairwise_filterMap.mpr ?_
    refine (List.nodupKeys_iff_pairwise.mp txs.nodupKeys).imp_of_mem ?_
    intro e e' he he' hne w hw w' hw' heq
    obtain ⟨-, hsigner, -⟩ := firstHead_eq_some h (hentry e he) hw
    obtain ⟨-, hsigner', -⟩ := firstHead_eq_some h (hentry e' he') hw'
    exact hne (hsigner.symm.trans (heq.trans hsigner'))
  · obtain ⟨rest, hl, hpays, hr⟩ := lookup_of_offered_eq_cons hleft
    have hsigned := h.signed a _ hl
    exact ⟨hsigned tx List.mem_cons_self, rest,
      hrest a tx rest (Assoc.mem_entries_iff.mpr hl) hpays, hr,
      fun tx' hmem => hsigned tx' (List.mem_cons_of_mem _ hmem)⟩

end New

/-! ## Sessions offer what is left -/

section Logs

variable {signer : Transaction H → A} {baseFee : Option ℤ} {txs : Assoc A (List (Transaction H))}
  {log : List (Call × Transaction H)} {tx : Transaction H} {a : A} {call : Call}

theorem takenFrom_concat (signer : Transaction H → A) (log : List (Call × Transaction H))
    (e : Call × Transaction H) (a : A) : takenFrom signer (log ++ [e]) a =
      if signer e.2 = a then takenFrom signer log a ++ [e.2] else takenFrom signer log a := by
  unfold takenFrom
  rw [List.map_append, List.filter_append]
  by_cases heq : signer e.2 = a <;> simp [heq]

theorem dropped_concat (signer : Transaction H → A) (log : List (Call × Transaction H))
    (e : Call × Transaction H) (a : A) : dropped signer (log ++ [e]) a =
      (dropped signer log a || decide (e.1 = .pop ∧ signer e.2 = a)) := by
  unfold dropped
  rw [List.any_append]
  simp

theorem remaining_concat_of_ne (hne : a ≠ signer tx) :
    remaining signer baseFee txs (log ++ [(call, tx)]) a = remaining signer baseFee txs log a := by
  unfold remaining
  rw [takenFrom_concat, dropped_concat, if_neg (Ne.symm hne)]
  simp [Ne.symm hne]

theorem remaining_concat_pop :
    remaining signer baseFee txs (log ++ [(.pop, tx)]) =
      Function.update (remaining signer baseFee txs log) (signer tx) [] := by
  refine Function.eq_update_iff.mpr ⟨?_, fun a hne => remaining_concat_of_ne hne⟩
  unfold remaining
  rw [dropped_concat]
  simp

theorem remaining_concat_shift :
    remaining signer baseFee txs (log ++ [(.shift, tx)]) =
      Function.update (remaining signer baseFee txs log) (signer tx)
        (remaining signer baseFee txs log (signer tx)).tail := by
  refine Function.eq_update_iff.mpr ⟨?_, fun a hne => remaining_concat_of_ne hne⟩
  unfold remaining
  rw [takenFrom_concat, dropped_concat, if_pos rfl]
  by_cases hdropped : dropped signer log (signer tx)
  · simp [hdropped]
  · simp [hdropped, List.tail_drop]

/-- An account with a current head was not dropped, and the head comes after what was taken. -/
theorem remaining_head (h : (remaining signer baseFee txs log a).head? = some tx) :
    dropped signer log a = false ∧
      (offered baseFee txs a)[(takenFrom signer log a).length]? = some tx := by
  unfold remaining at h
  split_ifs at h with hdropped
  · cases h
  · rw [List.head?_drop] at h
    exact ⟨Bool.eq_false_iff.mpr hdropped, h⟩

end Logs

/-- The log of a session: each account has given a first part of what it offers, and nothing more
after it was dropped. -/
structure Session.Sound (signer : Transaction H → A) (baseFee : Option ℤ)
    (txs : Assoc A (List (Transaction H))) (s : Session H A) : Prop where
  offers : Offers signer baseFee s.set (remaining signer baseFee txs s.log)
  taken : ∀ a, takenFrom signer s.log a <+: offered baseFee txs a
  ended : s.log.Pairwise fun e e' => e.1 = .pop → signer e'.2 ≠ signer e.2

namespace Session.Sound

variable {signer : Transaction H → A} {baseFee : Option ℤ} {txs : Assoc A (List (Transaction H))}
  {s s' : Session H A} {tx : Transaction H} {call : Call}

section

variable (h : Sound signer baseFee txs s)

include h

theorem peek_head (hpeek : s.set.peek = some tx) :
    (remaining signer baseFee txs s.log (signer tx)).head? = some tx := by
  obtain ⟨-, -, hhead⟩ := h.offers.exists_heads_eq_cons hpeek
  exact hhead

theorem not_dropped (hpeek : s.set.peek = some tx) {e : Call × Transaction H} (he : e ∈ s.log)
    (hpop : e.1 = .pop) : signer tx ≠ signer e.2 := by
  intro heq
  have hdropped := (remaining_head (h.peek_head hpeek)).1
  unfold dropped at hdropped
  rw [List.any_eq_false] at hdropped
  exact hdropped e he (decide_eq_true ⟨hpop, heq.symm⟩)

theorem take (hpeek : s.set.peek = some tx) (hlog : s'.log = s.log ++ [(call, tx)])
    (hoffers : Offers signer baseFee s'.set (remaining signer baseFee txs s'.log)) :
    Sound signer baseFee txs s' := by
  refine ⟨hoffers, fun a => ?_, ?_⟩
  · rw [hlog, takenFrom_concat]
    split_ifs with heq
    · have hnext := (remaining_head (h.peek_head hpeek)).2
      obtain ⟨r, hr⟩ := h.taken a
      rw [heq, ← hr, List.getElem?_append_right le_rfl, Nat.sub_self, ← List.head?_eq_getElem?]
        at hnext
      obtain ⟨r', rfl⟩ := List.head?_eq_some_iff.mp hnext
      refine ⟨r', ?_⟩
      rw [← hr, List.append_assoc, List.singleton_append]
    · exact h.taken a
  · rw [hlog]
    refine List.pairwise_append.mpr ⟨h.ended, List.pairwise_singleton _ _, ?_⟩
    intro e he e' he' hpop
    obtain rfl := List.mem_singleton.mp he'
    exact h.not_dropped hpeek he hpop

theorem next (hnext : s.next call = some s') : Sound signer baseFee txs s' := by
  obtain ⟨-, rfl⟩ | ⟨tx, hpeek, hlog, hset⟩ := next_cases hnext
  · exact h
  · refine h.take hpeek hlog ?_
    rw [hlog]
    rcases hset with ⟨rfl, hshift⟩ | ⟨rfl, hpop⟩
    · obtain ⟨set, hset, hoffers⟩ := h.offers.shift hpeek
      rw [remaining_concat_shift, Option.some.inj (hshift.symm.trans hset)]
      exact hoffers
    · rw [remaining_concat_pop]
      exact h.offers.pop hpeek hpop

theorem peek_eq_none_iff : s.set.peek = none ↔ ∀ a, remaining signer baseFee txs s.log a = [] := by
  refine ⟨h.offers.left_eq_nil_of_peek, fun hnil => ?_⟩
  refine Option.eq_none_iff_forall_ne_some.mpr fun tx hpeek => ?_
  have hhead := h.peek_head hpeek
  rw [hnil] at hhead
  cases hhead

theorem exists_next (hpeek : s.set.peek = some tx) (call : Call) : ∃ s', s.next call = some s' := by
  cases call with
  | peek => exact ⟨s, rfl⟩
  | shift =>
    obtain ⟨set, hset, -⟩ := h.offers.shift hpeek
    refine ⟨⟨set, s.log ++ [(.shift, tx)]⟩, ?_⟩
    simp only [Session.next, hpeek, hset, Option.bind_eq_bind, Option.bind_some]
  | pop =>
    obtain ⟨set, hset⟩ := TransactionsByPriceAndNonce.exists_pop_of_peek hpeek
    refine ⟨⟨set, s.log ++ [(.pop, tx)]⟩, ?_⟩
    simp only [Session.next, hpeek, hset, Option.bind_eq_bind, Option.bind_some]

theorem takenFrom_eq_offered (hpeek : s.set.peek = none) (hlog : ∀ e ∈ s.log, e.1 ≠ .pop) (a : A) :
    takenFrom signer s.log a = offered baseFee txs a := by
  have hdropped : dropped signer s.log a = false :=
    List.any_eq_false.mpr fun e he hpop => hlog e he (of_decide_eq_true hpop).1
  have hnil := h.peek_eq_none_iff.mp hpeek a
  rw [remaining, if_neg (Bool.eq_false_iff.mp hdropped), List.drop_eq_nil_iff] at hnil
  exact (h.taken a).eq_of_length_le hnil

end

/-- How many transactions are left. -/
def measure (signer : Transaction H → A) (baseFee : Option ℤ)
    (txs : Assoc A (List (Transaction H))) (log : List (Call × Transaction H)) : ℕ :=
  ∑ a ∈ txs.keys.toFinset, (remaining signer baseFee txs log a).length

theorem measure_shift (h : Sound signer baseFee txs s) (hpeek : s.set.peek = some tx) :
    measure signer baseFee txs (s.log ++ [(.shift, tx)]) < measure signer baseFee txs s.log := by
  have hhead := h.peek_head hpeek
  unfold measure
  rw [remaining_concat_shift]
  refine Finset.sum_lt_sum (fun a _ => ?_) ⟨signer tx, ?_, ?_⟩
  · by_cases heq : a = signer tx
    · rw [heq, Function.update_self, List.length_tail]
      exact Nat.sub_le _ _
    · rw [Function.update_of_ne heq]
  · obtain ⟨-, hoffered⟩ := remaining_head hhead
    refine List.mem_toFinset.mpr (Assoc.mem_keys_iff.mpr ?_)
    refine Option.isSome_iff_exists.mp (Option.isSome_iff_ne_none.mpr fun hnone => ?_)
    rw [offered, hnone, Option.getD_none] at hoffered
    cases hoffered
  · obtain ⟨r, hr⟩ := List.head?_eq_some_iff.mp hhead
    rw [Function.update_self, hr, List.tail_cons, List.length_cons]
    exact Nat.lt_succ_self _

theorem exists_drained {t : TransactionsByPriceAndNonce H A}
    (hreached : (machine t).Reached (fun _ call => call = .shift) s)
    (h : Sound signer baseFee txs s) :
    ∃ s', (machine t).Reached (fun _ call => call = .shift) s' ∧ s'.set.peek = none := by
  generalize hm : measure signer baseFee txs s.log = m
  induction m using Nat.strongRecOn generalizing s with
  | ind m ih =>
    cases hpeek : s.set.peek with
    | none => exact ⟨s, hreached, hpeek⟩
    | some tx =>
      obtain ⟨s', hs'⟩ := h.exists_next hpeek .shift
      refine ih _ ?_ (hreached.next rfl hs') (h.next hs') rfl
      obtain ⟨hcall, -⟩ | ⟨tx', hpeek', hlog, -⟩ := next_cases hs'
      · cases hcall
      · rw [← hm, hlog]
        exact h.measure_shift hpeek'

end Session.Sound

namespace Session

variable {signer : Transaction H → A} {baseFee : Option ℤ} {txs : Assoc A (List (Transaction H))}
  {t : TransactionsByPriceAndNonce H A} {s : Session H A}

/-- What a session guarantees at any point, by the transactions it was made from and its log. -/
structure ByPriceAndNonce (signer : Transaction H → A) (baseFee : Option ℤ)
    (txs : Assoc A (List (Transaction H))) (s : Session H A) : Prop where
  /-- A peeked transaction is the current head of its account. -/
  head : ∀ tx, s.set.peek = some tx →
    (remaining signer baseFee txs s.log (signer tx)).head? = some tx
  /-- It pays the highest tip of all current heads, and was seen first among those. -/
  best : ∀ tx, s.set.peek = some tx →
    ∀ a tx', (remaining signer baseFee txs s.log a).head? = some tx' →
      (tx'.effectiveGasTip baseFee).1 ≤ (tx.effectiveGasTip baseFee).1 ∧
        ((tx'.effectiveGasTip baseFee).1 = (tx.effectiveGasTip baseFee).1 → tx.time ≤ tx'.time)
  /-- Only an empty set offers nothing. -/
  empty : s.set.peek = none ↔ ∀ a, remaining signer baseFee txs s.log a = []
  /-- A call panics only on an empty set. -/
  live : s.set.peek ≠ none → ∀ call, s.next call ≠ none
  /-- What was taken from an account is a first part of its list, in nonce order. -/
  taken : ∀ a l, txs.lookup a = some l → takenFrom signer s.log a <+: l
  nonces : ∀ a l, txs.lookup a = some l →
    (takenFrom signer s.log a).Pairwise fun tx tx' => tx.nonce < tx'.nonce
  /-- Nothing is taken from an account after a `Pop`, and nothing is offered. -/
  ended : s.log.Pairwise fun e e' => e.1 = .pop → signer e'.2 ≠ signer e.2
  closed : ∀ e ∈ s.log, e.1 = .pop → ∀ tx, s.set.peek = some tx → signer tx ≠ signer e.2

theorem Sound.start (h : Offers signer baseFee t (offered baseFee txs)) :
    Sound signer baseFee txs (machine t).start := by
  refine ⟨?_, fun a => List.nil_prefix, List.Pairwise.nil⟩
  exact h

theorem Sound.byPriceAndNonce (h : Sound signer baseFee txs s)
    (hordered : NonceOrdered signer txs) : ByPriceAndNonce signer baseFee txs s := by
  have htaken (a : A) (l : List (Transaction H)) (hl : txs.lookup a = some l) :
      takenFrom signer s.log a <+: l := by
    have hoffered := h.taken a
    rw [offered_of_lookup hl] at hoffered
    exact hoffered.trans (List.takeWhile_prefix _)
  refine ⟨fun tx => h.peek_head, fun tx hpeek a tx' => h.offers.best_of_peek hpeek,
    h.peek_eq_none_iff, fun hpeek call => ?_, htaken, fun a l hl => ?_, h.ended,
    fun e he hpop tx hpeek => h.not_dropped hpeek he hpop⟩
  · obtain ⟨tx, hpeek⟩ := Option.ne_none_iff_exists'.mp hpeek
    obtain ⟨s', hs'⟩ := h.exists_next hpeek call
    rw [hs']
    exact Option.some_ne_none s'
  · exact (hordered.ordered a l hl).sublist (htaken a l hl).sublist

theorem sound_of_reached {guard : Session H A → Call → Prop}
    (h : Offers signer baseFee t (offered baseFee txs)) (hs : (machine t).Reached guard s) :
    Sound signer baseFee txs s :=
  hs.invariant (I := Sound signer baseFee txs) (Sound.start h)
    fun _ _ _ hsound _ hnext => hsound.next hnext

theorem log_ne_pop_of_reached (hs : (machine t).Reached (fun _ call => call ≠ .pop) s) :
    ∀ e ∈ s.log, e.1 ≠ .pop := by
  refine hs.invariant (I := fun s => ∀ e ∈ s.log, e.1 ≠ .pop) (fun e he => by cases he) ?_
  intro s call s' hlog hcall hnext e he
  obtain ⟨-, rfl⟩ | ⟨tx, -, hlog', -⟩ := next_cases hnext
  · exact hlog e he
  · rw [hlog'] at he
    rcases List.mem_append.mp he with he | he
    · exact hlog e he
    · obtain rfl := List.mem_singleton.mp he
      exact hcall

/-- Transactions are offered by price and nonce. -/
theorem offers_by_price_and_nonce (signer : Transaction H → A)
    (txs : Assoc A (List (Transaction H))) (baseFee : Option ℤ) (h : NonceOrdered signer txs) :
    ∃ t, TransactionsByPriceAndNonce.new signer txs baseFee = some t ∧
      (∀ s, (machine t).Reached (fun _ _ => True) s → ByPriceAndNonce signer baseFee txs s) ∧
      (∀ s, (machine t).Reached (fun _ call => call ≠ .pop) s → s.set.peek = none →
        ∀ a l, txs.lookup a = some l →
          takenFrom signer s.log a = l.takeWhile (Transaction.pays baseFee)) ∧
      ∃ s, (machine t).Reached (fun _ call => call = .shift) s ∧ s.set.peek = none := by
  obtain ⟨t, hnew, hoffers⟩ : ∃ t, TransactionsByPriceAndNonce.new signer txs baseFee = some t ∧
      Offers signer baseFee t (offered baseFee txs) := exists_new h
  refine ⟨t, hnew, fun s hs => (sound_of_reached hoffers hs).byPriceAndNonce h,
    fun s hs hpeek a l hl => ?_, ?_⟩
  · rw [← offered_of_lookup hl]
    exact (sound_of_reached hoffers hs).takenFrom_eq_offered hpeek (log_ne_pop_of_reached hs) a
  · exact (Sound.start hoffers).exists_drained .start

end Session

namespace Sample

/-- The even and the odd hashes are signed by two accounts. -/
def signer (tx : Transaction ℕ) : ℕ := tx.hash % 2

/-- The third transaction of the first account cannot pay a base fee of 5. -/
def txs : Assoc ℕ (List (Transaction ℕ)) :=
  [⟨0, [⟨0, 0, 9, 1, 0, false⟩, ⟨2, 1, 9, 3, 1, false⟩, ⟨4, 2, 4, 4, 2, false⟩]⟩,
    ⟨1, [⟨1, 7, 8, 2, 3, false⟩]⟩].toAList

theorem nonceOrdered : NonceOrdered signer txs where
  nonempty a l h :=
    (by decide : ∀ e ∈ txs.entries, e.2 ≠ []) ⟨a, l⟩ (Assoc.mem_entries_iff.mpr h)
  ordered a l h :=
    (by decide : ∀ e ∈ txs.entries, e.2.Pairwise fun tx tx' => tx.nonce < tx'.nonce) ⟨a, l⟩
      (Assoc.mem_entries_iff.mpr h)
  signed a l h :=
    (by decide : ∀ e ∈ txs.entries, ∀ tx ∈ e.2, signer tx = e.1) ⟨a, l⟩
      (Assoc.mem_entries_iff.mpr h)

end Sample

/-- Draining the sample gives two transactions of the first account. -/
theorem Session.offers_by_price_and_nonce_sample :
    ∃ t, TransactionsByPriceAndNonce.new Sample.signer Sample.txs (some 5) = some t ∧
      ∃ s, (machine t).Reached (fun _ call => call ≠ .pop) s ∧ s.set.peek = none ∧
        (takenFrom Sample.signer s.log 0).map (·.hash) = [0, 2] := by
  obtain ⟨t, hnew, -, htaken, s, hs, hpeek⟩ :=
    offers_by_price_and_nonce Sample.signer Sample.txs (some 5) Sample.nonceOrdered
  have hs' : (machine t).Reached (fun _ call => call ≠ .pop) s :=
    hs.mono fun _ call hcall => by rw [hcall]; decide
  refine ⟨t, hnew, s, hs', hpeek, ?_⟩
  rw [htaken s hs' hpeek 0 _ rfl]
  decide

end Miner

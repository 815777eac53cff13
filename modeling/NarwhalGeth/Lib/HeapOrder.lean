import Mathlib.Data.Nat.Basic
import Mathlib.Logic.Equiv.Basic
import NarwhalGeth.Lib.Heap

/-!
# The order of a heap

The sift operations keep the heap order for any strict weak order: no entry is less than its parent.
A sift starts from a heap with one misplaced entry, whose children are in order with its parent, so
that an exchange with either moves the misplaced entry and leaves the rest as required.
-/

namespace Heap

variable {α : Type*} {ys : List α} {fuel : ℕ}

/-- A strict weak order: a comparison and the incomparability of its equals. -/
structure StrictWeak (less : α → α → Bool) : Prop where
  asymm : ∀ {x y}, less x y → ¬ less y x
  neg_trans : ∀ {x y z}, ¬ less x y → ¬ less y z → ¬ less x z

variable {less : α → α → Bool} {x : α} {xs rest : List α} {a b c i j k n : ℕ}

/-! ## Comparisons -/

theorem lessAt_eq_true_iff : lessAt less xs i j = true ↔
    ∃ x y, xs[i]? = some x ∧ xs[j]? = some y ∧ less x y := by
  unfold lessAt
  cases hi : xs[i]? <;> cases hj : xs[j]? <;> simp

theorem StrictWeak.lessAt_asymm (order : StrictWeak less) (h : lessAt less xs i j) :
    ¬ lessAt less xs j i := by
  intro h'
  obtain ⟨x, y, hx, hy, hlt⟩ := lessAt_eq_true_iff.mp h
  obtain ⟨y', x', hy', hx', hgt⟩ := lessAt_eq_true_iff.mp h'
  cases hx.symm.trans hx'
  cases hy.symm.trans hy'
  exact order.asymm hlt hgt

theorem StrictWeak.lessAt_neg_trans (order : StrictWeak less) (hj : j < xs.length)
    (hij : ¬ lessAt less xs i j) (hjk : ¬ lessAt less xs j k) : ¬ lessAt less xs i k := by
  intro hik
  obtain ⟨x, z, hx, hz, hlt⟩ := lessAt_eq_true_iff.mp hik
  have hy := List.getElem?_eq_getElem hj
  have hxy : ¬ less x xs[j] := fun h => hij (lessAt_eq_true_iff.mpr ⟨x, xs[j], hx, hy, h⟩)
  have hyz : ¬ less xs[j] z := fun h => hjk (lessAt_eq_true_iff.mpr ⟨xs[j], z, hy, hz, h⟩)
  exact order.neg_trans hxy hyz hlt

@[simp] theorem length_swap (xs : List α) (i j : ℕ) : (swap xs i j).length = xs.length :=
  (swap_perm xs i j).length_eq

theorem getElem?_swap (hi : i < xs.length) (hj : j < xs.length) (a : ℕ) :
    (swap xs i j)[a]? = xs[Equiv.swap i j a]? := by
  rw [swap, dif_pos ⟨hi, hj⟩, List.getElem?_set, List.getElem?_set, Equiv.swap_apply_def]
  by_cases haj : a = j
  · subst haj
    by_cases hai : a = i
    · simp [hai, hi]
    · simp [hai, hj, hi]
  · by_cases hai : a = i
    · subst hai
      simp [Ne.symm haj, hi, hj]
    · simp [Ne.symm haj, haj, hai, Ne.symm hai]

theorem lessAt_swap (hi : i < xs.length) (hj : j < xs.length) (a b : ℕ) :
    lessAt less (swap xs i j) a b =
      lessAt less xs (Equiv.swap i j a) (Equiv.swap i j b) := by
  unfold lessAt
  rw [getElem?_swap hi hj, getElem?_swap hi hj]

/-! ## Heaps -/

/-- The first `n` entries are in order below `k`. -/
def OrderedFrom (less : α → α → Bool) (k n : ℕ) (xs : List α) : Prop :=
  ∀ c, 0 < c → c < n → k ≤ (c - 1) / 2 → ¬ lessAt less xs c ((c - 1) / 2)

/-- No entry is less than its parent. -/
def IsHeap (less : α → α → Bool) (xs : List α) : Prop := OrderedFrom less 0 xs.length xs

theorem isHeap_iff : IsHeap less xs ↔
    ∀ c, 0 < c → c < xs.length → ¬ lessAt less xs c ((c - 1) / 2) :=
  ⟨fun h c h0 hc => h c h0 hc (Nat.zero_le _), fun h c h0 hc _ => h c h0 hc⟩

theorem IsHeap.root_least (order : StrictWeak less) (h : IsHeap less xs) (i : ℕ) :
    ¬ lessAt less xs i 0 := by
  induction i using Nat.strongRecOn with
  | ind i ih =>
    by_cases hi : i < xs.length
    · rcases Nat.eq_zero_or_pos i with rfl | hpos
      · exact fun h => order.lessAt_asymm h h
      · exact order.lessAt_neg_trans (by omega) (isHeap_iff.mp h i hpos hi)
          (ih ((i - 1) / 2) (by omega))
    · intro hlt
      obtain ⟨x, -, hx, -⟩ := lessAt_eq_true_iff.mp hlt
      exact hi (List.getElem?_eq_some_iff.mp hx).1

theorem IsHeap.head_least (order : StrictWeak less) (h : IsHeap less (x :: xs)) {y : α}
    (hy : y ∈ x :: xs) : ¬ less y x := by
  intro hlt
  obtain ⟨i, hi⟩ := List.mem_iff_getElem?.mp hy
  exact h.root_least order i (lessAt_eq_true_iff.mpr ⟨y, x, hi, rfl, hlt⟩)

/-! ## Moving down -/

/-- The entry at `i` may be greater than its children, among the entries below `k`. -/
structure DownOrder (less : α → α → Bool) (k n i : ℕ) (xs : List α) : Prop where
  off : ∀ c, 0 < c → c < n → k ≤ (c - 1) / 2 → (c - 1) / 2 ≠ i → ¬ lessAt less xs c ((c - 1) / 2)
  grand : ∀ c, 0 < c → c < n → (c - 1) / 2 = i → 0 < i → k ≤ (i - 1) / 2 →
    ¬ lessAt less xs c ((i - 1) / 2)

theorem DownOrder.finish (order : StrictWeak less) (h : DownOrder less k n i xs)
    (hn : n ≤ xs.length) (hjn : j < n)
    (hleast : ∀ c, 0 < c → c < n → (c - 1) / 2 = i → ¬ lessAt less xs c j)
    (hstop : ¬ lessAt less xs j i) : OrderedFrom less k n xs := by
  intro c h0 hc hk
  by_cases hi : (c - 1) / 2 = i
  · rw [hi]
    exact order.lessAt_neg_trans (by omega) (hleast c h0 hc hi) hstop
  · exact h.off c h0 hc hk hi

theorem DownOrder.move (order : StrictWeak less) (h : DownOrder less k n i xs)
    (hn : n ≤ xs.length) (hj0 : 0 < j) (hj : (j - 1) / 2 = i) (hjn : j < n) (hki : k ≤ i)
    (hleast : ∀ c, 0 < c → c < n → (c - 1) / 2 = i → ¬ lessAt less xs c j)
    (hless : lessAt less xs j i) : DownOrder less k n j (swap xs i j) := by
  have hi : i < xs.length := by omega
  have hjl : j < xs.length := by omega
  constructor
  · intro c h0 hc hk hcj
    rw [lessAt_swap hi hjl]
    by_cases hci : (c - 1) / 2 = i
    · rw [hci, Equiv.swap_apply_left]
      by_cases hc' : c = j
      · rw [hc', Equiv.swap_apply_right]
        exact order.lessAt_asymm hless
      · rw [Equiv.swap_apply_of_ne_of_ne (by omega) hc']
        exact hleast c h0 hc hci
    · rw [Equiv.swap_apply_of_ne_of_ne hci hcj]
      by_cases hc' : c = i
      · rw [hc', Equiv.swap_apply_left]
        rw [hc'] at h0 hk
        exact h.grand j hj0 hjn hj h0 hk
      · have hcne : c ≠ j := by
          rintro rfl
          exact hci hj
        rw [Equiv.swap_apply_of_ne_of_ne hc' hcne]
        exact h.off c h0 hc hk hci
  · intro c h0 hc hcj _ _
    rw [hj, lessAt_swap hi hjl, Equiv.swap_apply_left,
      Equiv.swap_apply_of_ne_of_ne (by omega) (by omega), ← hcj]
    exact h.off c h0 hc (by omega) (by omega)

/-- The child that `down` compares with the entry at `i`. -/
def leastChild (less : α → α → Bool) (n i : ℕ) (xs : List α) : ℕ :=
  if 2 * i + 1 + 1 < n ∧ lessAt less xs (2 * i + 1 + 1) (2 * i + 1) then 2 * i + 1 + 1
  else 2 * i + 1

theorem leastChild_spec (order : StrictWeak less) (xs : List α) (hi : 2 * i + 1 < n) :
    0 < leastChild less n i xs ∧ (leastChild less n i xs - 1) / 2 = i ∧
      leastChild less n i xs < n ∧
      ∀ c, 0 < c → c < n → (c - 1) / 2 = i → ¬ lessAt less xs c (leastChild less n i xs) := by
  unfold leastChild
  split_ifs with hright
  · refine ⟨by omega, by omega, hright.1, fun c h0 hc hci => ?_⟩
    obtain rfl | rfl : c = 2 * i + 1 ∨ c = 2 * i + 1 + 1 := by omega
    · exact order.lessAt_asymm hright.2
    · exact fun h => order.lessAt_asymm h h
  · refine ⟨by omega, by omega, hi, fun c h0 hc hci => ?_⟩
    obtain rfl | rfl : c = 2 * i + 1 ∨ c = 2 * i + 1 + 1 := by omega
    · exact fun h => order.lessAt_asymm h h
    · exact fun h => hright ⟨hc, h⟩

theorem down_succ (n fuel i : ℕ) (xs : List α) : down less n (fuel + 1) i xs =
    if n ≤ 2 * i + 1 then xs
    else if lessAt less xs (leastChild less n i xs) i then
      down less n fuel (leastChild less n i xs) (swap xs i (leastChild less n i xs))
    else xs := rfl

/-- An entry with no place left to sink to is in order with its children. -/
theorem DownOrder.leaf (h : DownOrder less k n i xs) (hi : n ≤ 2 * i + 1) :
    OrderedFrom less k n xs :=
  fun c h0 hc hk => h.off c h0 hc hk (by omega)

theorem DownOrder.down (order : StrictWeak less) (h : DownOrder less k n i xs) (hn : n ≤ xs.length)
    (hki : k ≤ i) (hfuel : n ≤ i + fuel) :
    OrderedFrom less k n (down less n fuel i xs) := by
  induction fuel generalizing i xs with
  | zero => exact h.leaf (by omega)
  | succ fuel ih =>
    rw [down_succ]
    split_ifs with hleaf hless
    · exact h.leaf hleaf
    · obtain ⟨hj0, hj, hjn, hleast⟩ := leastChild_spec order xs (not_le.mp hleaf)
      refine ih (h.move order hn hj0 hj hjn hki hleast hless) ?_ (by omega) (by omega)
      rwa [length_swap]
    · obtain ⟨-, -, hjn, hleast⟩ := leastChild_spec order xs (not_le.mp hleaf)
      exact h.finish order hn hjn hleast hless

/-! ## Moving up -/

/-- The entry at `j` may be less than its parent. -/
structure UpOrder (less : α → α → Bool) (n j : ℕ) (xs : List α) : Prop where
  off : ∀ c, 0 < c → c < n → c ≠ j → ¬ lessAt less xs c ((c - 1) / 2)
  grand : ∀ c, 0 < c → c < n → (c - 1) / 2 = j → 0 < j → ¬ lessAt less xs c ((j - 1) / 2)

theorem UpOrder.move (order : StrictWeak less) (h : UpOrder less n j xs) (hn : n ≤ xs.length)
    (hj0 : 0 < j) (hjn : j < n) (hless : lessAt less xs j ((j - 1) / 2)) :
    UpOrder less n ((j - 1) / 2) (swap xs ((j - 1) / 2) j) := by
  obtain ⟨i, hi⟩ : ∃ i, (j - 1) / 2 = i := ⟨_, rfl⟩
  rw [hi] at hless ⊢
  have hil : i < xs.length := by omega
  have hjl : j < xs.length := by omega
  constructor
  · intro c h0 hc hci
    rw [lessAt_swap hil hjl]
    by_cases hcj : c = j
    · rw [hcj, hi, Equiv.swap_apply_left, Equiv.swap_apply_right]
      exact order.lessAt_asymm hless
    · rw [Equiv.swap_apply_of_ne_of_ne hci hcj]
      by_cases hpj : (c - 1) / 2 = j
      · rw [hpj, Equiv.swap_apply_right, ← hi]
        exact h.grand c h0 hc hpj hj0
      · by_cases hpi : (c - 1) / 2 = i
        · -- The sibling of the entry is not less than the parent, which is greater than the entry.
          have hsibling := h.off c h0 hc hcj
          rw [hpi] at hsibling
          rw [hpi, Equiv.swap_apply_left]
          exact order.lessAt_neg_trans hil hsibling (order.lessAt_asymm hless)
        · rw [Equiv.swap_apply_of_ne_of_ne hpi hpj]
          exact h.off c h0 hc hcj
  · intro c h0 hc hci hi0
    have habove := h.off i hi0 (by omega) (by omega)
    rw [lessAt_swap hil hjl,
      Equiv.swap_apply_of_ne_of_ne (show (i - 1) / 2 ≠ i by omega) (by omega)]
    by_cases hcj : c = j
    · rw [hcj, Equiv.swap_apply_right]
      exact habove
    · have hsibling := h.off c h0 hc hcj
      rw [hci] at hsibling
      rw [Equiv.swap_apply_of_ne_of_ne (by omega) hcj]
      exact order.lessAt_neg_trans hil hsibling habove

theorem UpOrder.finish (h : UpOrder less n j xs)
    (hstop : 0 < j → ¬ lessAt less xs j ((j - 1) / 2)) : OrderedFrom less 0 n xs := by
  intro c h0 hc _
  by_cases hcj : c = j
  · rw [hcj] at h0 ⊢
    exact hstop h0
  · exact h.off c h0 hc hcj

theorem UpOrder.up (order : StrictWeak less) (h : UpOrder less n j xs) (hn : n ≤ xs.length)
    (hjn : j < n) (hfuel : j ≤ fuel) :
    OrderedFrom less 0 n (up less fuel j xs) := by
  induction fuel generalizing j xs with
  | zero => exact h.finish fun hj => absurd hj (by omega)
  | succ fuel ih =>
    unfold Heap.up
    dsimp only
    split_ifs with hstop
    · refine h.finish fun hj => ?_
      rcases hstop with hroot | hle
      · omega
      · exact hle
    · obtain ⟨hroot, hless⟩ := not_or.mp hstop
      refine ih (h.move order hn (by omega) hjn (not_not.mp hless)) ?_ (by omega) (by omega)
      rwa [length_swap]

/-! ## The operations -/

theorem orderedFrom_append_iff (hn : n ≤ xs.length) :
    OrderedFrom less k n (xs ++ ys) ↔ OrderedFrom less k n xs := by
  have hsame (c : ℕ) (hc : c < n) :
      lessAt less (xs ++ ys) c ((c - 1) / 2) = lessAt less xs c ((c - 1) / 2) := by
    unfold lessAt
    rw [List.getElem?_append_left (by omega), List.getElem?_append_left (by omega)]
  constructor
  · intro h c h0 hc hk
    rw [← hsame c hc]
    exact h c h0 hc hk
  · intro h c h0 hc hk
    rw [hsame c hc]
    exact h c h0 hc hk

@[simp] theorem length_down (n fuel i : ℕ) (xs : List α) :
    (down less n fuel i xs).length = xs.length :=
  (down_perm less n fuel i xs).length_eq

/-- Each step of `init` puts one more inner entry in order. -/
theorem orderedFrom_init_step (order : StrictWeak less) {m : ℕ} (hm : m ≤ xs.length)
    (h : OrderedFrom less m xs.length xs) :
    OrderedFrom less 0 xs.length
      ((List.range m).reverse.foldl (fun xs i => down less xs.length xs.length i xs) xs) := by
  induction m generalizing xs with
  | zero => exact h
  | succ m ih =>
    rw [List.range_succ, List.reverse_append, List.reverse_singleton, List.singleton_append,
      List.foldl_cons]
    have hdown : DownOrder less m xs.length m xs :=
      ⟨fun c h0 hc hk hne => h c h0 hc (by omega), fun _ _ _ _ _ _ => by omega⟩
    have hnext := hdown.down order le_rfl le_rfl (show xs.length ≤ m + xs.length by omega)
    generalize hys : down less xs.length xs.length m xs = ys at hnext ⊢
    have hlen : ys.length = xs.length := by rw [← hys, length_down]
    rw [← hlen] at hnext ⊢
    exact ih (by omega) hnext

theorem init_perm (xs : List α) : (init less xs).Perm xs := by
  unfold init
  generalize (List.range (xs.length / 2)).reverse = is
  induction is generalizing xs with
  | nil => exact .refl xs
  | cons i is ih => exact (ih _).trans (down_perm less _ _ i xs)

theorem isHeap_init (order : StrictWeak less) (xs : List α) : IsHeap less (init less xs) := by
  unfold IsHeap
  rw [(init_perm xs).length_eq]
  refine orderedFrom_init_step order (by omega) fun c h0 hc hk => ?_
  omega

/-! ## Replacing and removing entries -/

/-- Whether `down` moves the entry at `i`. -/
def sinks (less : α → α → Bool) (n i : ℕ) (xs : List α) : Bool :=
  2 * i + 1 < n ∧ lessAt less xs (leastChild less n i xs) i

/-- Moves the entry at `i` to its place among the first `n`. -/
def settle (less : α → α → Bool) (n i : ℕ) (xs : List α) : List α :=
  if sinks less n i xs then down less n n i xs else up less n i xs

/-- Establishes the heap after the entry at `i` has changed. -/
def fix (less : α → α → Bool) (i : ℕ) (xs : List α) : List α := settle less xs.length i xs

theorem settle_perm (n i : ℕ) (xs : List α) : (settle less n i xs).Perm xs := by
  unfold settle
  split_ifs
  · exact down_perm less _ _ _ _
  · exact up_perm less _ _ _

/-- A heap but for the entry at `i`. -/
structure Misplaced (less : α → α → Bool) (n i : ℕ) (xs : List α) : Prop where
  off : ∀ c, 0 < c → c < n → c ≠ i → (c - 1) / 2 ≠ i → ¬ lessAt less xs c ((c - 1) / 2)
  grand : ∀ c, 0 < c → c < n → (c - 1) / 2 = i → 0 < i → ¬ lessAt less xs c ((i - 1) / 2)

theorem Misplaced.settle (order : StrictWeak less) (h : Misplaced less n i xs)
    (hn : n ≤ xs.length) (hi : i < n) : OrderedFrom less 0 n (settle less n i xs) := by
  unfold Heap.settle
  split_ifs with hsinks
  · obtain ⟨hleft, hless⟩ := of_decide_eq_true hsinks
    obtain ⟨hj0, hj, hjn, hleast⟩ := leastChild_spec order xs hleft
    refine DownOrder.down order ⟨fun c h0 hc _ hne => ?_, fun c h0 hc hci hi0 _ => ?_⟩ hn
      (Nat.zero_le i) (by omega)
    · by_cases hci : c = i
      · -- The entry is greater than a child, which is not less than the parent.
        rw [hci] at h0 ⊢
        intro habove
        have hgrand := h.grand _ hj0 hjn hj h0
        have hchild := order.lessAt_asymm hless
        exact order.lessAt_neg_trans (lt_of_lt_of_le hjn hn) hchild hgrand habove
      · exact h.off c h0 hc hci hne
    · exact h.grand c h0 hc hci hi0
  · refine UpOrder.up order ⟨fun c h0 hc hne => ?_, h.grand⟩ hn hi (by omega)
    by_cases hci : (c - 1) / 2 = i
    · have hleft : 2 * i + 1 < n := by omega
      obtain ⟨hj0, hj, hjn, hleast⟩ := leastChild_spec order xs hleft
      rw [hci]
      refine order.lessAt_neg_trans (by omega) (hleast c h0 hc hci) fun hless => hsinks ?_
      exact decide_eq_true ⟨hleft, hless⟩
    · exact h.off c h0 hc hne hci

theorem OrderedFrom.misplaced (order : StrictWeak less) (h : OrderedFrom less 0 n xs)
    (hn : n ≤ xs.length) (hi : i < n) (hys : ∀ c, c < n → c ≠ i → ys[c]? = xs[c]?) :
    Misplaced less n i ys := by
  have hsame (c p : ℕ) (hc : c < n) (hp : p < n) (hci : c ≠ i) (hpi : p ≠ i) :
      lessAt less ys c p = lessAt less xs c p := by
    unfold lessAt
    rw [hys c hc hci, hys p hp hpi]
  constructor
  · intro c h0 hc hci hpi
    rw [hsame c _ hc (by omega) hci hpi]
    exact h c h0 hc (Nat.zero_le _)
  · intro c h0 hc hci hi0
    rw [hsame c _ hc (by omega) (by omega) (by omega)]
    have hlow := h c h0 hc (Nat.zero_le _)
    rw [hci] at hlow
    exact order.lessAt_neg_trans (by omega) hlow (h i hi0 hi (Nat.zero_le _))

theorem fix_perm (i : ℕ) (xs : List α) : (fix less i xs).Perm xs := settle_perm _ _ _

/-- Replacing the entry at `i` and calling `fix` keeps the heap. -/
theorem IsHeap.fix (order : StrictWeak less) (h : IsHeap less xs) (hi : i < xs.length) (x : α) :
    IsHeap less (fix less i (xs.set i x)) := by
  unfold IsHeap
  rw [(fix_perm i _).length_eq]
  refine Misplaced.settle order ?_ le_rfl (by rwa [List.length_set])
  rw [List.length_set]
  refine OrderedFrom.misplaced order h le_rfl hi fun c _ hne => ?_
  rw [List.getElem?_set_ne (Ne.symm hne)]

theorem OrderedFrom.dropLast (h : OrderedFrom less 0 (xs.length - 1) xs) :
    IsHeap less xs.dropLast := by
  unfold IsHeap
  rw [List.length_dropLast]
  rcases List.eq_nil_or_concat' xs with rfl | ⟨ys, y, rfl⟩
  · exact h
  · rw [List.dropLast_concat]
    refine (orderedFrom_append_iff ?_).mp h
    rw [List.length_append, List.length_singleton]
    exact le_of_eq (Nat.add_sub_cancel _ _)

/-- The last entry has taken the place of the one at `i`. -/
theorem IsHeap.misplaced_swap (order : StrictWeak less) (h : IsHeap less xs)
    (hi : i < xs.length - 1) :
    Misplaced less (xs.length - 1) i (swap xs i (xs.length - 1)) := by
  refine OrderedFrom.misplaced order (fun c h0 hc hk => h c h0 (by omega) hk) (by omega) hi ?_
  intro c hc hne
  rw [getElem?_swap (by omega) (by omega), Equiv.swap_apply_of_ne_of_ne hne (by omega)]

theorem getElem?_down_of_le (hi : i < n) (hn : n ≤ xs.length) (hk : n ≤ k) :
    (down less n fuel i xs)[k]? = xs[k]? := by
  induction fuel generalizing i xs with
  | zero => rfl
  | succ fuel ih =>
    rw [down_succ]
    split_ifs with hleaf
    · rfl
    · have hchild : leastChild less n i xs < n := by
        unfold leastChild
        split_ifs with hright
        · exact hright.1
        · omega
      rw [ih hchild (by rwa [length_swap]), getElem?_swap (by omega) (by omega),
        Equiv.swap_apply_of_ne_of_ne (by omega) (by omega)]
    · rfl

theorem getElem?_zero_of_pop (hpop : pop less xs = some (x, rest)) : xs[0]? = some x := by
  unfold pop at hpop
  dsimp only at hpop
  obtain ⟨last, hlast, heq⟩ := Option.map_eq_some_iff.mp hpop
  obtain ⟨rfl, rfl⟩ := Prod.mk.inj heq
  rw [List.getLast?_eq_getElem?, length_down, length_swap] at hlast
  rcases Nat.lt_or_ge 1 xs.length with hmany | hone
  · rw [getElem?_down_of_le (by omega) (by rw [length_swap]; omega) le_rfl,
      getElem?_swap (by omega) (by omega), Equiv.swap_apply_right] at hlast
    exact hlast
  · -- Nothing moves among at most one entry.
    rcases xs with _ | ⟨y, _ | ⟨z, zs⟩⟩
    · exact hlast
    · exact hlast
    · exact absurd hone (by simp)

theorem IsHeap.pop (order : StrictWeak less) (h : IsHeap less xs)
    (hpop : pop less xs = some (x, rest)) : IsHeap less rest ∧ xs[0]? = some x := by
  refine ⟨?_, getElem?_zero_of_pop hpop⟩
  unfold Heap.pop at hpop
  dsimp only at hpop
  obtain ⟨last, -, heq⟩ := Option.map_eq_some_iff.mp hpop
  obtain ⟨rfl, rfl⟩ := Prod.mk.inj heq
  refine OrderedFrom.dropLast ?_
  rw [length_down, length_swap]
  rcases Nat.lt_or_ge 1 xs.length with hmany | hone
  · have hmisplaced := h.misplaced_swap order (show 0 < xs.length - 1 by omega)
    have hdown : DownOrder less 0 (xs.length - 1) 0 (swap xs 0 (xs.length - 1)) :=
      ⟨fun c h0 hc _ hne => hmisplaced.off c h0 hc (by omega) hne,
        fun _ _ _ _ hroot _ => absurd hroot (Nat.lt_irrefl 0)⟩
    exact hdown.down order (by rw [length_swap]; omega) le_rfl (by omega)
  · intro c h0 hc _
    omega

end Heap

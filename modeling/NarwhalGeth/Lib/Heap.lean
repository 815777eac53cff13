import Mathlib.Data.List.Basic

/-!
# Binary heaps in a list

The sift operations of a heap that is laid out in a list: the children of the entry at `i` are at
`2 * i + 1` and `2 * i + 2`. Only the positions of the entries change, so that each operation is
known up to a permutation.
-/

namespace Heap

variable {α : Type*} (less : α → α → Bool) {x : α} {xs rest : List α}

def swap (xs : List α) (i j : ℕ) : List α :=
  if h : i < xs.length ∧ j < xs.length then
    (xs.set i (xs.get ⟨j, h.2⟩)).set j (xs.get ⟨i, h.1⟩)
  else xs

def lessAt (xs : List α) (i j : ℕ) : Bool :=
  match xs[i]?, xs[j]? with
  | some x, some y => less x y
  | _, _ => false

/-- Moves the entry at `j` up. The fuel is at most the number of steps to the root. -/
def up : ℕ → ℕ → List α → List α
  | 0, _, xs => xs
  | fuel + 1, j, xs =>
    let i := (j - 1) / 2
    if i = j ∨ ¬ lessAt less xs j i then xs else up fuel i (swap xs i j)

/-- Moves the entry at `i` down within the first `n` entries. -/
def down (n : ℕ) : ℕ → ℕ → List α → List α
  | 0, _, xs => xs
  | fuel + 1, i, xs =>
    let left := 2 * i + 1
    if n ≤ left then xs
    else
      let j := if left + 1 < n ∧ lessAt less xs (left + 1) left then left + 1 else left
      if lessAt less xs j i then down n fuel j (swap xs i j) else xs

/-- Establishes the heap, from the last inner entry to the root. -/
def init (xs : List α) : List α :=
  (List.range (xs.length / 2)).reverse.foldl
    (fun xs i => down less xs.length xs.length i xs) xs

def push (xs : List α) (x : α) : List α := up less xs.length xs.length (xs ++ [x])

/-- Takes the entry at the root. -/
def pop (xs : List α) : Option (α × List α) :=
  let n := xs.length - 1
  let sifted := down less n n 0 (swap xs 0 n)
  sifted.getLast?.map fun x => (x, sifted.dropLast)

theorem swap_perm (xs : List α) (i j : ℕ) : (swap xs i j).Perm xs := by
  unfold swap
  split_ifs with h
  · exact List.set_set_perm h.1 h.2
  · exact .refl xs

theorem up_perm (fuel j : ℕ) (xs : List α) : (up less fuel j xs).Perm xs := by
  induction fuel generalizing j xs with
  | zero => exact .refl xs
  | succ fuel ih =>
    unfold up
    dsimp only
    split_ifs
    · exact .refl xs
    · exact (ih _ _).trans (swap_perm xs _ _)

theorem down_perm (n fuel i : ℕ) (xs : List α) : (down less n fuel i xs).Perm xs := by
  induction fuel generalizing i xs with
  | zero => exact .refl xs
  | succ fuel ih =>
    unfold down
    dsimp only
    split_ifs
    · exact .refl xs
    · exact (ih _ _).trans (swap_perm xs _ _)
    · exact .refl xs
    · exact (ih _ _).trans (swap_perm xs _ _)
    · exact .refl xs

theorem push_perm (xs : List α) (x : α) : (push less xs x).Perm (x :: xs) :=
  (up_perm less _ _ _).trans List.perm_append_comm

theorem eq_nil_of_pop (h : pop less xs = none) : xs = [] := by
  unfold pop at h
  dsimp only at h
  have hsifted := List.getLast?_eq_none_iff.mp (Option.map_eq_none_iff.mp h)
  have hperm := (down_perm less (xs.length - 1) (xs.length - 1) 0
    (swap xs 0 (xs.length - 1))).trans (swap_perm xs _ _)
  rw [hsifted] at hperm
  exact hperm.symm.eq_nil

theorem perm_of_pop (h : pop less xs = some (x, rest)) : xs.Perm (x :: rest) := by
  unfold pop at h
  dsimp only at h
  obtain ⟨last, hlast, heq⟩ := Option.map_eq_some_iff.mp h
  obtain ⟨rfl, rfl⟩ := Prod.mk.inj heq
  have hsifted := List.dropLast_append_getLast? last hlast
  have hperm := (down_perm less (xs.length - 1) (xs.length - 1) 0
    (swap xs 0 (xs.length - 1))).trans (swap_perm xs _ _)
  refine hperm.symm.trans ?_
  rw [← hsifted, List.dropLast_concat]
  exact List.perm_append_comm

end Heap

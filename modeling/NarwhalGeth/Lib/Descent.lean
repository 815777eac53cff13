import Mathlib.Data.List.Infix
import Mathlib.Logic.Basic

/-!
# Descending chains of candidates

Each positive slot has at most one candidate. The descent from a node visits the slots below it from
the top and moves to a candidate whenever the current node links to it. The chain of a node visited
on the way is a suffix of the whole chain.
-/

namespace Descent

variable {α : Type*} {G : α → Prop} {p : α}

open scoped Classical in
/-- The candidates met by descending from `x` through the slots `n, n - 1, …, 1`. -/
noncomputable def below (candidate : ℕ → Option α) (link : α → α → Prop) : ℕ → α → List α
  | 0, _ => []
  | n + 1, x =>
    match candidate (n + 1) with
    | none => below candidate link n x
    | some p => if link x p then p :: below candidate link n p else below candidate link n x

variable {candidate : ℕ → Option α} {link : α → α → Prop} {slot : α → ℕ} {n : ℕ} {x : α}

theorem below_succ_of_link (hsome : candidate (n + 1) = some p) (hlink : link x p) :
    below candidate link (n + 1) x = p :: below candidate link n p := by
  rw [below, hsome]
  exact if_pos hlink

theorem below_succ_of_not_link (h : ∀ p, candidate (n + 1) = some p → ¬link x p) :
    below candidate link (n + 1) x = below candidate link n x := by
  rw [below]
  cases hcand : candidate (n + 1) with
  | none => rfl
  | some p => exact if_neg (h p hcand)

/-- The three ways in which a slot is passed, as two. -/
theorem below_succ_cases (candidate : ℕ → Option α) (link : α → α → Prop) (n : ℕ) (x : α) :
    (∃ p, candidate (n + 1) = some p ∧ link x p ∧
      below candidate link (n + 1) x = p :: below candidate link n p) ∨
    ((∀ p, candidate (n + 1) = some p → ¬link x p) ∧
      below candidate link (n + 1) x = below candidate link n x) := by
  by_cases h : ∃ p, candidate (n + 1) = some p ∧ link x p
  · obtain ⟨p, hsome, hlink⟩ := h
    exact .inl ⟨p, hsome, hlink, below_succ_of_link hsome hlink⟩
  · have hnot : ∀ p, candidate (n + 1) = some p → ¬link x p :=
      fun p hsome hlink => h ⟨p, hsome, hlink⟩
    exact .inr ⟨hnot, below_succ_of_not_link hnot⟩

section Slots

variable (hslot : ∀ k p, candidate k = some p → slot p = k)
include hslot

theorem slot_le_of_mem_below (hp : p ∈ below candidate link n x) :
    1 ≤ slot p ∧ slot p ≤ n ∧ candidate (slot p) = some p := by
  induction n generalizing x with
  | zero => simp [below] at hp
  | succ n ih =>
    rcases below_succ_cases candidate link n x with ⟨q, hsome, -, heq⟩ | ⟨-, heq⟩
    · rw [heq, List.mem_cons] at hp
      rcases hp with rfl | hp
      · rw [hslot _ _ hsome]
        exact ⟨by omega, le_rfl, hsome⟩
      · obtain ⟨hpos, hle, hcand⟩ := ih hp
        exact ⟨hpos, by omega, hcand⟩
    · rw [heq] at hp
      obtain ⟨hpos, hle, hcand⟩ := ih hp
      exact ⟨hpos, by omega, hcand⟩

theorem below_pairwise : (below candidate link n x).Pairwise fun p q => slot q < slot p := by
  induction n generalizing x with
  | zero => exact List.Pairwise.nil
  | succ n ih =>
    rcases below_succ_cases candidate link n x with ⟨p, hsome, -, heq⟩ | ⟨-, heq⟩
    · rw [heq, List.pairwise_cons]
      refine ⟨fun q hq => ?_, ih⟩
      have hle := (slot_le_of_mem_below hslot hq).2.1
      rw [hslot _ _ hsome]
      omega
    · rw [heq]
      exact ih

/-- The chain below a node that the descent visits is what remains of the descent. -/
theorem suffix_of_mem_below (hp : p ∈ below candidate link n x) :
    p :: below candidate link (slot p - 1) p <:+ below candidate link n x := by
  induction n generalizing x with
  | zero => simp [below] at hp
  | succ n ih =>
    rcases below_succ_cases candidate link n x with ⟨q, hsome, -, heq⟩ | ⟨-, heq⟩
    · rw [heq] at hp ⊢
      rcases List.mem_cons.mp hp with rfl | hp
      · rw [hslot _ _ hsome, Nat.add_sub_cancel]
      · exact (ih hp).trans (List.suffix_cons q _)
    · rw [heq] at hp ⊢
      exact ih hp

/-- A candidate that every good node above it links to is met by every descent from above it. -/
theorem mem_below (hgood : ∀ k p, candidate k = some p → G p) {L : α}
    (hL : candidate (slot L) = some L) (hpos : 1 ≤ slot L)
    (hlinks : ∀ y, G y → slot L < slot y → link y L) (hx : G x) (hxL : slot L < slot x)
    (hn : slot L ≤ n) : L ∈ below candidate link n x := by
  induction n generalizing x with
  | zero => omega
  | succ n ih =>
    rcases below_succ_cases candidate link n x with ⟨p, hsome, -, heq⟩ | ⟨hnot, heq⟩
    · rw [heq]
      have hp := hslot _ _ hsome
      rcases Nat.lt_or_ge (slot L) (n + 1) with hlt | hge
      · exact List.mem_cons_of_mem _ (ih (hgood _ _ hsome) (by omega) (by omega))
      · have htop : slot L = n + 1 := by omega
        rw [htop, hsome] at hL
        rw [Option.some.inj hL]
        exact List.mem_cons_self
    · rw [heq]
      have hne : slot L ≠ n + 1 := by
        intro htop
        rw [htop] at hL
        exact hnot L hL (hlinks x hx hxL)
      exact ih hx hxL (by omega)

end Slots

/-! ## Chains from a candidate -/

/-- The chain that starts at a candidate. -/
noncomputable def chain (candidate : ℕ → Option α) (link : α → α → Prop) (slot : α → ℕ) (x : α) :
    List α :=
  x :: below candidate link (slot x - 1) x

/-- Of two candidates that every good node above them links to, the chain of the lower one is a
suffix of the chain of the higher one. -/
theorem chain_suffix_chain (hslot : ∀ k p, candidate k = some p → slot p = k)
    (hgood : ∀ k p, candidate k = some p → G p) {L L' : α} (hL : candidate (slot L) = some L)
    (hL' : candidate (slot L') = some L') (hpos : 1 ≤ slot L)
    (hlinks : ∀ y, G y → slot L < slot y → link y L) (hle : slot L ≤ slot L') :
    chain candidate link slot L <:+ chain candidate link slot L' := by
  rcases Nat.eq_or_lt_of_le hle with heq | hlt
  · rw [heq, hL'] at hL
    rw [Option.some.inj hL]
  · have hmem := mem_below hslot hgood hL hpos hlinks (hgood _ _ hL') hlt
      (Nat.le_sub_one_of_lt hlt)
    exact (suffix_of_mem_below hslot hmem).trans (List.suffix_cons _ _)

theorem chain_pairwise (hslot : ∀ k p, candidate k = some p → slot p = k) (hpos : 1 ≤ slot x) :
    (chain candidate link slot x).Pairwise fun p q => slot q < slot p := by
  refine List.pairwise_cons.mpr ⟨fun p hp => ?_, below_pairwise hslot⟩
  have hle := (slot_le_of_mem_below hslot hp).2.1
  omega

end Descent

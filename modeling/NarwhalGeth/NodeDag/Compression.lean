import NarwhalGeth.Lib.Ancestry
import NarwhalGeth.NodeDag.Node

/-!
# Path compression

The closest incompressible ancestors of a node are found by bypassing its compressible parents. A
graph in which some nodes point to these ancestors has the same incompressible ancestors for every
node, and the same closest ones.
-/

namespace NodeDag

variable {N T : Type} [DecidableEq N] {n m : N}

/-! ## Lists without duplicates -/

theorem nodup_eraseDups (l : List N) : l.eraseDups.Nodup := by
  induction hn : l.length using Nat.strong_induction_on generalizing l with
  | _ k ih =>
    subst hn
    cases l with
    | nil => simp
    | cons a as =>
      rw [List.eraseDups_cons, List.nodup_cons, List.mem_eraseDups]
      refine ⟨by simp, ih _ ?_ _ rfl⟩
      exact Nat.lt_succ_of_le (List.length_filter_le _ _)

theorem eraseDups_eq_self {l : List N} (h : l.Nodup) : l.eraseDups = l := by
  induction l with
  | nil => rfl
  | cons a as ih =>
    rw [List.nodup_cons] at h
    rw [List.eraseDups_cons, List.filter_eq_self.mpr, ih h.2]
    rintro b hb
    have hne : b ≠ a := fun heq => h.1 (heq ▸ hb)
    simpa using hne

namespace Graph

/-! ## The closest incompressible ancestors -/

omit [DecidableEq N] in
theorem isTrivial_iff {g : Graph N T} :
    g.isTrivial n = true ↔ ∀ p ∈ (g n).parents, (g p).compressible = false := by
  simp [isTrivial]

/-- The parents of a node, with its compressible parents bypassed. -/
def bypass (g : Graph N T) (closest : N → List N) (n : N) : List N :=
  if g.isTrivial n then (g n).parents
  else ((g n).parents.filter (fun p => !(g p).compressible) ++
    ((g n).parents.filter fun p => (g p).compressible).flatMap closest).eraseDups

/-- A function that bypasses all compressible ancestors up to the next incompressible ones. -/
def IsClosest (g : Graph N T) (closest : N → List N) : Prop :=
  ∀ n, closest n = g.bypass closest n

/-- Each parent of a node has a lower rank. -/
def Ranked (g : Graph N T) (rank : N → ℕ) : Prop := ∀ n, ∀ p ∈ (g n).parents, rank p < rank n

variable {g : Graph N T} {rank : N → ℕ} {closest : N → List N}

theorem bypass_congr {closest' : N → List N} (h : ∀ p ∈ (g n).parents, closest p = closest' p) :
    g.bypass closest n = g.bypass closest' n := by
  unfold bypass
  congr 3
  refine List.flatMap_congr fun p hp => ?_
  exact h p (List.mem_filter.mp hp).1

/-- Bypassing through a number of generations. -/
def closestUpTo (g : Graph N T) : ℕ → N → List N
  | 0 => fun _ => []
  | k + 1 => g.bypass (closestUpTo g k)

theorem closestUpTo_eq (hrank : g.Ranked rank) {k k' : ℕ} (hk : rank n < k) (hk' : rank n < k') :
    g.closestUpTo k n = g.closestUpTo k' n := by
  induction k generalizing n k' with
  | zero => omega
  | succ k ih =>
    cases k' with
    | zero => omega
    | succ k' =>
      refine bypass_congr fun p hp => ih ?_ ?_
      · have := hrank n p hp
        omega
      · have := hrank n p hp
        omega

theorem exists_isClosest (hrank : g.Ranked rank) : ∃ closest, g.IsClosest closest := by
  refine ⟨fun n => g.closestUpTo (rank n + 1) n, fun n => ?_⟩
  refine bypass_congr fun p hp => closestUpTo_eq hrank (hrank n p hp) (Nat.lt_succ_self _)

theorem mem_bypass : m ∈ g.bypass closest n ↔ ∃ p ∈ (g n).parents,
    ((g p).compressible = false ∧ p = m) ∨ ((g p).compressible = true ∧ m ∈ closest p) := by
  unfold bypass
  split_ifs with htrivial
  · rw [isTrivial_iff] at htrivial
    constructor
    · exact fun hm => ⟨m, hm, .inl ⟨htrivial m hm, rfl⟩⟩
    · rintro ⟨p, hp, ⟨-, rfl⟩ | ⟨hcomp, -⟩⟩
      · exact hp
      · rw [htrivial p hp] at hcomp
        cases hcomp
  · rw [List.mem_eraseDups, List.mem_append, List.mem_filter, List.mem_flatMap]
    simp only [List.mem_filter, Bool.not_eq_true']
    constructor
    · rintro (⟨hm, hcomp⟩ | ⟨p, ⟨hp, hcomp⟩, hm⟩)
      · exact ⟨m, hm, .inl ⟨hcomp, rfl⟩⟩
      · exact ⟨p, hp, .inr ⟨hcomp, hm⟩⟩
    · rintro ⟨p, hp, ⟨hcomp, rfl⟩ | ⟨hcomp, hm⟩⟩
      · exact .inl ⟨hp, hcomp⟩
      · exact .inr ⟨p, ⟨hp, hcomp⟩, hm⟩

namespace IsClosest

/-- What holds of the incompressible parents and is inherited from bypassed ones holds of the
closest incompressible ancestors. -/
theorem induction (h : g.IsClosest closest) (hrank : g.Ranked rank) {Q : N → N → Prop}
    (hparent : ∀ n, ∀ p ∈ (g n).parents, (g p).compressible = false → Q n p)
    (hbypass : ∀ n, ∀ p ∈ (g n).parents, ∀ m, Q p m → Q n m) (hm : m ∈ closest n) :
    Q n m := by
  induction hn : rank n using Nat.strong_induction_on generalizing n with
  | _ r ih =>
    subst hn
    rw [h n, mem_bypass] at hm
    obtain ⟨p, hp, ⟨hcomp, rfl⟩ | ⟨-, hm⟩⟩ := hm
    · exact hparent n p hp hcomp
    · exact hbypass n p hp m (ih _ (hrank n p hp) hm rfl)

theorem incompressible (h : g.IsClosest closest) (hrank : g.Ranked rank) (hm : m ∈ closest n) :
    (g m).compressible = false := by
  refine h.induction hrank (Q := fun _ m => (g m).compressible = false) ?_ ?_ hm
  · exact fun _ _ _ hcomp => hcomp
  · exact fun _ _ _ _ hcomp => hcomp

theorem rank_lt (h : g.IsClosest closest) (hrank : g.Ranked rank) (hm : m ∈ closest n) :
    rank m < rank n := by
  refine h.induction hrank (Q := fun n m => rank m < rank n) ?_ ?_ hm
  · exact fun n p hp _ => hrank n p hp
  · exact fun n p hp m hlt => lt_trans hlt (hrank n p hp)

end IsClosest

/-! ## Ancestors -/

omit [DecidableEq N] in
/-- The incompressible proper ancestors of a node. -/
def incompressibleAncestors (g : Graph N T) : N → Set N :=
  Ancestry.ancestors (fun n => (g n).parents) fun m => (g m).compressible = false

theorem IsClosest.covers (h : g.IsClosest closest) (hrank : g.Ranked rank) (n : N) :
    Ancestry.Covers (fun m => (g m).compressible = false) g.incompressibleAncestors
      (g.incompressibleAncestors n) (closest n) := by
  induction hn : rank n using Nat.strong_induction_on generalizing n with
  | _ r ih =>
    subst hn
    intro m
    have hparents : m ∈ g.incompressibleAncestors n ↔ ∃ p ∈ (g n).parents,
        (p = m ∧ (g m).compressible = false) ∨ m ∈ g.incompressibleAncestors p :=
      Ancestry.covers_ancestors n m
    rw [hparents, h n]
    constructor
    · rintro ⟨p, hp, hm⟩
      cases hcomp : (g p).compressible with
      | false => exact ⟨p, mem_bypass.mpr ⟨p, hp, .inl ⟨hcomp, rfl⟩⟩, hm⟩
      | true =>
        rcases hm with ⟨rfl, hkeep⟩ | hm
        · rw [hcomp] at hkeep
          cases hkeep
        · obtain ⟨q, hq, hm⟩ := (ih _ (hrank n p hp) p rfl m).mp hm
          exact ⟨q, mem_bypass.mpr ⟨p, hp, .inr ⟨hcomp, hq⟩⟩, hm⟩
    · rintro ⟨q, hq, hm⟩
      obtain ⟨p, hp, ⟨-, rfl⟩ | ⟨-, hq⟩⟩ := mem_bypass.mp hq
      · exact ⟨p, hp, hm⟩
      · exact ⟨p, hp, .inr ((ih _ (hrank n p hp) p rfl m).mpr ⟨q, hq, hm⟩)⟩

/-! ## Compressed graphs -/

/-- Some nodes of the graph have been rewritten to point to their closest incompressible
ancestors. -/
structure Compressed (g : Graph N T) (closest : N → List N) (g' : Graph N T) : Prop where
  compressible : ∀ n, (g' n).compressible = (g n).compressible
  value : ∀ n, (g' n).value = (g n).value
  parents : ∀ n, (g' n).parents = (g n).parents ∨ (g' n).parents = closest n

namespace Compressed

variable {g' : Graph N T}

omit [DecidableEq N] in
theorem refl (g : Graph N T) (closest : N → List N) : Compressed g closest g :=
  ⟨fun _ => rfl, fun _ => rfl, fun _ => .inl rfl⟩

section

variable (h : Compressed g closest g')

include h

theorem storeParents (n : N) : Compressed g closest (g'.storeParents n (closest n)) where
  compressible m := by rw [storeParents_compressible, h.compressible]
  value m := by rw [storeParents_value, h.value]
  parents m := by
    by_cases hm : m = n
    · subst hm
      exact .inr (storeParents_self _ _ _)
    · rw [storeParents_of_ne _ _ hm]
      exact h.parents m

variable (hclosest : g.IsClosest closest) (hrank : g.Ranked rank)

include hclosest hrank

theorem ranked : g'.Ranked rank := by
  intro n p hp
  rcases h.parents n with heq | heq
  · rw [heq] at hp
    exact hrank n p hp
  · rw [heq] at hp
    exact hclosest.rank_lt hrank hp

theorem isClosest : g'.IsClosest closest := by
  intro n
  rcases h.parents n with heq | heq
  · rw [hclosest n, bypass, bypass, isTrivial, isTrivial, heq]
    simp only [h.compressible]
  · have htrivial : g'.isTrivial n = true := by
      rw [isTrivial_iff, heq]
      intro p hp
      rw [h.compressible]
      exact hclosest.incompressible hrank hp
    rw [bypass, if_pos htrivial, heq]

theorem incompressibleAncestors_eq (n : N) :
    g'.incompressibleAncestors n = g.incompressibleAncestors n := by
  have hkeep : (fun m => (g' m).compressible = false) = fun m => (g m).compressible = false := by
    funext m
    rw [h.compressible]
  unfold incompressibleAncestors
  rw [hkeep]
  refine (Ancestry.eq_ancestors (h.ranked hclosest hrank) (fun n => ?_) n).symm
  rcases h.parents n with heq | heq
  · rw [heq]
    exact Ancestry.covers_ancestors n
  · rw [heq]
    exact hclosest.covers hrank n

end

end Compressed

end Graph

end NodeDag

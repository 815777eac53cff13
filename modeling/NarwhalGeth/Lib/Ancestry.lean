import Mathlib.Data.Set.Card
import Mathlib.Logic.Relation

/-!
# Ancestors in an acyclic graph

A graph is given by the list of parents of each node. The ancestors of a node that meet a predicate
are determined by the parents: they are the only family of sets that the parents cover.
-/

namespace Ancestry

variable {N : Type*}

/-- The second node is a proper ancestor of the first. -/
def Above (parents : N → List N) : N → N → Prop := Relation.TransGen fun n p => p ∈ parents n

/-- The proper ancestors of a node that meet a predicate. -/
def ancestors (parents : N → List N) (keep : N → Prop) (n : N) : Set N :=
  {m | keep m ∧ Above parents n m}

/-- A set consists of the nodes of a list that meet the predicate and of what stands behind the
nodes of the list. -/
def Covers (keep : N → Prop) (behind : N → Set N) (s : Set N) (l : List N) : Prop :=
  ∀ m, m ∈ s ↔ ∃ p ∈ l, (p = m ∧ keep m) ∨ m ∈ behind p

variable {parents : N → List N} {keep : N → Prop} {behind : N → Set N} {rank : N → ℕ}

theorem above_iff {n m : N} : Above parents n m ↔ ∃ p ∈ parents n, p = m ∨ Above parents p m := by
  constructor
  · intro h
    rcases Relation.TransGen.head'_iff.mp h with ⟨p, hp, hrest⟩
    rcases Relation.reflTransGen_iff_eq_or_transGen.mp hrest with heq | habove
    · exact ⟨p, hp, .inl heq.symm⟩
    · exact ⟨p, hp, .inr habove⟩
  · rintro ⟨p, hp, rfl | habove⟩
    · exact .single hp
    · exact .head hp habove

theorem covers_ancestors (n : N) :
    Covers keep (ancestors parents keep) (ancestors parents keep n) (parents n) := by
  intro m
  constructor
  · rintro ⟨hkeep, habove⟩
    obtain ⟨p, hp, heq | habove⟩ := above_iff.mp habove
    · exact ⟨p, hp, .inl ⟨heq, hkeep⟩⟩
    · exact ⟨p, hp, .inr ⟨hkeep, habove⟩⟩
  · rintro ⟨p, hp, ⟨rfl, hkeep⟩ | ⟨hkeep, habove⟩⟩
    · exact ⟨hkeep, .single hp⟩
    · exact ⟨hkeep, .head hp habove⟩

/-- The ancestors are the only sets that the parents cover. -/
theorem eq_ancestors (hrank : ∀ n, ∀ p ∈ parents n, rank p < rank n)
    (h : ∀ n, Covers keep behind (behind n) (parents n)) (n : N) :
    behind n = ancestors parents keep n := by
  induction hn : rank n using Nat.strong_induction_on generalizing n with
  | _ r ih =>
    subst hn
    ext m
    rw [h n m, covers_ancestors n m]
    refine exists_congr fun p => and_congr_right fun hp => ?_
    rw [ih (rank p) (hrank n p hp) p rfl]

theorem rank_lt_of_above (hrank : ∀ n, ∀ p ∈ parents n, rank p < rank n) {n m : N}
    (h : Above parents n m) : rank m < rank n := by
  induction h with
  | single hp => exact hrank _ _ hp
  | tail _ hp ih => exact lt_trans (hrank _ _ hp) ih

/-- A finite graph without cycles has a rank that decreases from a node to its parents. -/
theorem exists_rank [Finite N] (h : ∀ n, ¬Above parents n n) :
    ∃ rank : N → ℕ, ∀ n, ∀ p ∈ parents n, rank p < rank n := by
  refine ⟨fun n => {m | Above parents n m}.ncard, fun n p hp => ?_⟩
  refine Set.ncard_lt_ncard ?_ (Set.toFinite _)
  refine ⟨fun m hm => .head hp hm, fun hsub => ?_⟩
  exact h p (hsub (.single hp))

end Ancestry

import Mathlib.Data.Finset.Card
import Mathlib.Data.List.MinMax
import Mathlib.Data.List.Perm.Basic

/-!
# Merging sorted sources

A source is a finite set of numbers that answers with its least element above a bound, and `seek`
steps to the next element with a property. Sources are merged by a heap with the first remaining
element of each: popping the least one and pushing its successor gives all elements in order.
-/

namespace Merge

/-! ## Seeking in one source -/

/-- The answer is the least element of the set above a bound, if there is one. -/
def IsNext (S : Finset ℕ) (bound : ℕ) : Option ℕ → Prop
  | none => ∀ r ∈ S, r ≤ bound
  | some r => r ∈ S ∧ bound < r ∧ ∀ s ∈ S, bound < s → r ≤ s

/-- Steps to the next element until one has the property. -/
def seek (next : ℕ → Option ℕ) (p : ℕ → Bool) : ℕ → ℕ → Option ℕ
  | 0, _ => none
  | fuel + 1, bound =>
    match next bound with
    | none => none
    | some r => if p r then some r else seek next p fuel r

/-- With more steps than elements above the bound, the next element with the property is found. -/
theorem seek_isNext {S : Finset ℕ} {next : ℕ → Option ℕ}
    (p : ℕ → Bool) {fuel bound : ℕ} (hnext : ∀ r, r = bound ∨ r ∈ S → IsNext S r (next r))
    (hfuel : (S.filter (bound < ·)).card < fuel) :
    IsNext (S.filter (p ·)) bound (seek next p fuel bound) := by
  induction fuel generalizing bound with
  | zero => exact absurd hfuel (Nat.not_lt_zero _)
  | succ fuel ih =>
    have hstep := hnext bound (.inl rfl)
    unfold seek
    cases hr : next bound with
    | none =>
      rw [hr] at hstep
      exact fun r hmem => hstep r (Finset.mem_filter.mp hmem).1
    | some r =>
      rw [hr] at hstep
      obtain ⟨hmem, hlt, hleast⟩ := hstep
      dsimp only
      split_ifs with hp
      · exact ⟨Finset.mem_filter.mpr ⟨hmem, hp⟩, hlt,
          fun s hs => hleast s (Finset.mem_filter.mp hs).1⟩
      · have hfewer : (S.filter (r < ·)).card < (S.filter (bound < ·)).card := by
          refine Finset.card_lt_card (Finset.ssubset_iff_subset_ne.mpr ⟨?_, fun heq => ?_⟩)
          · intro s hs
            obtain ⟨hsS, hrs⟩ := Finset.mem_filter.mp hs
            exact Finset.mem_filter.mpr ⟨hsS, hlt.trans hrs⟩
          · have hself : r ∈ S.filter (r < ·) := heq ▸ Finset.mem_filter.mpr ⟨hmem, hlt⟩
            exact lt_irrefl r (Finset.mem_filter.mp hself).2
        have hrest : IsNext (S.filter (p ·)) r (seek next p fuel r) :=
          ih (fun t ht => hnext t (.inr (ht.elim (· ▸ hmem) id))) (by omega)
        -- Between the bound and `r` there is no element, and `r` itself lacks the property.
        have hskip : ∀ s ∈ S.filter (p ·), bound < s → r < s := by
          intro s hs hbound
          obtain ⟨hsS, hps⟩ := Finset.mem_filter.mp hs
          refine lt_of_le_of_ne (hleast s hsS hbound) ?_
          rintro rfl
          exact hp hps
        cases hseek : seek next p fuel r with
        | none =>
          rw [hseek] at hrest
          intro s hs
          by_contra hbound
          exact absurd (hskip s hs (not_le.mp hbound)) (not_lt.mpr (hrest s hs))
        | some t =>
          rw [hseek] at hrest
          obtain ⟨ht, hlt', hleast'⟩ := hrest
          exact ⟨ht, hlt.trans hlt', fun s hs hbound => hleast' s hs (hskip s hs hbound)⟩

/-! ## The frontier of several sources -/

variable {α ι κ : Type*} [LinearOrder κ] {key : α → κ} {source : α → ι}

/-- `x` is the first element of its source in a list. -/
def IsFirst (key : α → κ) (source : α → ι) (rest : List α) (x : α) : Prop :=
  x ∈ rest ∧ ∀ y ∈ rest, source y = source x → key x ≤ key y

/-- The heap holds the key of the first remaining element of each source, once. -/
structure Frontier (key : α → κ) (source : α → ι) (rest : List α) (heap : List κ) : Prop where
  nodup : heap.Nodup
  mem_iff : ∀ k, k ∈ heap ↔ ∃ x, IsFirst key source rest x ∧ key x = k

namespace Frontier

variable {x : α} {rest : List α} {heap : List κ}

theorem eq_nil (h : Frontier key source [] heap) : heap = [] := by
  refine List.eq_nil_iff_forall_not_mem.mpr fun k hk => ?_
  obtain ⟨y, ⟨hy, -⟩, -⟩ := (h.mem_iff k).mp hk
  exact List.not_mem_nil hy

theorem isFirst_head (hsorted : (x :: rest).Pairwise fun y z => key y < key z) :
    IsFirst key source (x :: rest) x := by
  refine ⟨List.mem_cons_self, fun y hy _ => ?_⟩
  rcases List.mem_cons.mp hy with rfl | hy
  · exact le_rfl
  · exact (List.rel_of_pairwise_cons hsorted hy).le

/-- The least key of the heap is that of the first remaining element. -/
theorem min? (h : Frontier key source (x :: rest) heap)
    (hsorted : (x :: rest).Pairwise fun y z => key y < key z) : heap.min? = some (key x) := by
  have hmem := (h.mem_iff _).mpr ⟨x, isFirst_head hsorted, rfl⟩
  refine List.min?_eq_some_iff.mpr ⟨hmem, fun k hk => ?_⟩
  obtain ⟨y, ⟨hy, -⟩, rfl⟩ := (h.mem_iff k).mp hk
  rcases List.mem_cons.mp hy with rfl | hy
  · exact le_rfl
  · exact (List.rel_of_pairwise_cons hsorted hy).le

/-- The first element is popped, and the next one of its source is pushed. -/
theorem pop [BEq κ] [LawfulBEq κ] (h : Frontier key source (x :: rest) heap)
    (hsorted : (x :: rest).Pairwise fun y z => key y < key z)
    (hsource : ∀ y ∈ x :: rest, ∀ z ∈ x :: rest, key y = key z → source y = source z)
    {next : Option κ} (hnext : ∀ k, next = some k ↔
      ∃ y, IsFirst key source rest y ∧ source y = source x ∧ key y = k) :
    Frontier key source rest (next.toList ++ heap.erase (key x)) := by
  have hlt : ∀ y ∈ rest, key x < key y := fun y hy => List.rel_of_pairwise_cons hsorted hy
  -- The heap without the popped key is the frontier of the other sources.
  have hothers : ∀ k, k ∈ heap.erase (key x) ↔
      ∃ y, IsFirst key source rest y ∧ source y ≠ source x ∧ key y = k := by
    intro k
    rw [h.nodup.mem_erase_iff, h.mem_iff]
    constructor
    · rintro ⟨hne, y, ⟨hy, hfirst⟩, rfl⟩
      have hyrest : y ∈ rest := (List.mem_cons.mp hy).resolve_left fun heq => hne (heq ▸ rfl)
      refine ⟨y, ⟨hyrest, fun z hz => hfirst z (List.mem_cons_of_mem _ hz)⟩, fun hsame => ?_, rfl⟩
      exact absurd (hfirst x List.mem_cons_self hsame.symm) (not_le.mpr (hlt y hyrest))
    · rintro ⟨y, ⟨hy, hfirst⟩, hne, rfl⟩
      refine ⟨(hlt y hy).ne', y, ⟨List.mem_cons_of_mem _ hy, fun z hz hsame => ?_⟩, rfl⟩
      rcases List.mem_cons.mp hz with rfl | hz
      · exact absurd hsame.symm hne
      · exact hfirst z hz hsame
  constructor
  · refine List.Nodup.append ?_ (h.nodup.erase _) ?_
    · cases next with
      | none => exact List.nodup_nil
      | some k => exact List.nodup_singleton k
    · intro k hk hk'
      obtain ⟨y, ⟨hy, -⟩, hysame, hyk⟩ := (hnext k).mp (Option.mem_toList.mp hk)
      obtain ⟨z, ⟨hz, -⟩, hzne, hzk⟩ := (hothers k).mp hk'
      refine hzne ((hsource z (List.mem_cons_of_mem _ hz) y (List.mem_cons_of_mem _ hy) ?_).trans
        hysame)
      rw [hzk, hyk]
  · intro k
    rw [List.mem_append, Option.mem_toList, hnext, hothers]
    constructor
    · rintro (⟨y, hfirst, -, hk⟩ | ⟨y, hfirst, -, hk⟩) <;> exact ⟨y, hfirst, hk⟩
    · rintro ⟨y, hfirst, hk⟩
      by_cases hsame : source y = source x
      · exact .inl ⟨y, hfirst, hsame, hk⟩
      · exact .inr ⟨y, hfirst, hsame, hk⟩

end Frontier

end Merge

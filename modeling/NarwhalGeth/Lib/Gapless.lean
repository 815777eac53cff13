import Mathlib.Algebra.Order.Ring.Nat
import Mathlib.Data.List.Induction

/-!
# Sequences without gaps

A sequence over a linear order has no gaps for a predicate if every element comes after all smaller
elements with the predicate. Without its repetitions it is strictly increasing. This is the order in
which a stream reaches a receiver when it is replayed from its start any number of times.
-/

variable {α : Type*} {p : α → Prop} {l l₁ l₂ : List α} {a : α}

/-- Every element of the list comes after all smaller elements with the predicate. -/
def Gapless [LT α] (p : α → Prop) (l : List α) : Prop :=
  ∀ l₁ a l₂, l = l₁ ++ a :: l₂ → ∀ b, b < a → p b → b ∈ l₁

namespace Gapless

section Order

variable [LT α]

theorem nil : Gapless p ([] : List α) := by
  intro l₁ a l₂ h
  simp at h

theorem of_append (h : Gapless p (l₁ ++ l₂)) : Gapless p l₁ := by
  intro m a m' heq
  exact h m a (m' ++ l₂) (by rw [heq, List.append_assoc, List.cons_append])

/-- An element is added that comes after all smaller ones. -/
theorem concat (h : Gapless p l) (ha : ∀ b, b < a → p b → b ∈ l) : Gapless p (l ++ [a]) := by
  intro m c m' heq
  rcases List.append_eq_append_iff.mp heq with ⟨as, rfl, has⟩ | ⟨bs, rfl, hbs⟩
  · cases as with
    | nil =>
      cases has
      simpa using ha
    | cons x as => simp at has
  · cases bs with
    | nil =>
      cases hbs
      simpa using ha
    | cons x bs =>
      cases hbs
      exact h m c bs rfl

theorem drop_mem (h : Gapless p (l₁ ++ a :: l₂)) (ha : a ∈ l₁) : Gapless p (l₁ ++ l₂) := by
  intro m c m' heq b hb hp
  rcases List.append_eq_append_iff.mp heq with ⟨as, rfl, rfl⟩ | ⟨bs, rfl, hbs⟩
  · have hmem := h (l₁ ++ a :: as) c m' (by simp) b hb hp
    rcases List.mem_append.mp hmem with hmem | hmem
    · exact List.mem_append_left _ hmem
    · rcases List.mem_cons.mp hmem with rfl | hmem
      · exact List.mem_append_left _ ha
      · exact List.mem_append_right _ hmem
  · cases bs with
    | nil =>
      have hmem := h (m ++ [a]) c m' (by simpa using hbs.symm) b hb hp
      rcases List.mem_append.mp hmem with hmem | hmem
      · exact hmem
      · rw [List.mem_singleton] at hmem
        subst hmem
        simpa using ha
    | cons x bs =>
      cases hbs
      exact h m c (bs ++ a :: l₂) (by simp) b hb hp

theorem mem_of_lt {b : α} (h : Gapless p l) (ha : a ∈ l) (hb : b < a) (hp : p b) : b ∈ l := by
  obtain ⟨l₁, l₂, rfl⟩ := List.append_of_mem ha
  exact List.mem_append_left _ (h l₁ a l₂ rfl b hb hp)

end Order

/-- Without repetitions, the elements come in increasing order if they all have the predicate. -/
theorem pairwise_lt [LinearOrder α] (h : Gapless p l) (hnodup : l.Nodup) (hp : ∀ a ∈ l, p a) :
    l.Pairwise (· < ·) := by
  induction l using List.reverseRecOn with
  | nil => exact .nil
  | append_singleton l a ih =>
    obtain ⟨hl, -, hdisjoint⟩ := List.nodup_append.mp hnodup
    have hmem : ∀ b ∈ l, p b := fun b hb => hp b (List.mem_append_left _ hb)
    refine List.pairwise_append.mpr ⟨ih h.of_append hl hmem, List.pairwise_singleton _ _, ?_⟩
    intro b hb c hc
    rw [List.mem_singleton] at hc
    subst hc
    -- a later element is not smaller: it would have to come before `b` as well
    have hne : b ≠ c := hdisjoint b hb c (List.mem_singleton_self c)
    refine lt_of_le_of_ne (not_lt.mp fun hlt => ?_) hne
    obtain ⟨l₁, l₂, rfl⟩ := List.append_of_mem hb
    have hc := h l₁ b (l₂ ++ [c]) (by simp) c hlt (hp c (by simp))
    exact hdisjoint c (List.mem_append_left _ hc) c (List.mem_singleton_self c) rfl

/-- Natural numbers with the predicate, without repetitions, are all those below a bound. -/
theorem exists_eq_filter_range {p : ℕ → Prop} [DecidablePred p] {l : List ℕ} (h : Gapless p l)
    (hnodup : l.Nodup) (hp : ∀ i ∈ l, p i) : ∃ n, l = (List.range n).filter (p ·) := by
  have hsorted := h.pairwise_lt hnodup hp
  cases l using List.reverseRecOn with
  | nil => exact ⟨0, rfl⟩
  | append_singleton l a =>
    refine ⟨a + 1, ?_⟩
    have hrange : ((List.range (a + 1)).filter (p ·)).Pairwise (· < ·) :=
      List.pairwise_lt_range.filter _
    refine List.Perm.eq_of_pairwise (fun _ _ _ _ hlt hgt => absurd hlt hgt.asymm) hsorted hrange ?_
    refine (List.perm_ext_iff_of_nodup hnodup (List.nodup_range.filter _)).mpr fun i => ?_
    simp only [List.mem_filter, List.mem_range, decide_eq_true_eq]
    constructor
    · intro hi
      refine ⟨?_, hp i hi⟩
      rcases List.mem_append.mp hi with hi | hi
      · exact Nat.lt_succ_of_lt
          ((List.pairwise_append.mp hsorted).2.2 i hi a (List.mem_singleton_self a))
      · rw [List.mem_singleton.mp hi]
        exact Nat.lt_succ_self a
    · rintro ⟨hlt, hi⟩
      rcases Nat.lt_succ_iff_lt_or_eq.mp hlt with hlt | rfl
      · exact h.mem_of_lt (List.mem_append_right _ (List.mem_singleton_self a)) hlt hi
      · exact List.mem_append_right _ (List.mem_singleton_self i)

end Gapless

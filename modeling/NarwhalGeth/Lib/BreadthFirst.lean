import Mathlib.Data.Fintype.EquivFin
import NarwhalGeth.Lib.Ancestry

/-!
# Breadth-first search

The search keeps a queue of nodes and the hashes of the nodes that were queued. From a node of an
acyclic graph it yields the node and then each of its ancestors once.
-/

namespace BreadthFirst

variable {N H : Type*} [DecidableEq H] {ys : List N}

structure Search (N H : Type*) where
  queue : List N
  visited : List H

def push (hash : N → H) (s : Search N H) (c : N) : Search N H :=
  if hash c ∈ s.visited then s else ⟨s.queue ++ [c], hash c :: s.visited⟩

/-- The nodes that a search yields when the children of each node are fixed. -/
inductive Yields (hash : N → H) (next : N → List N) : Search N H → List N → Prop
  | done (visited : List H) : Yields hash next ⟨[], visited⟩ []
  | step {n : N} {queue ys : List N} {visited : List H}
      (rest : Yields hash next ((next n).foldl (push hash) ⟨queue, visited⟩) ys) :
      Yields hash next ⟨n :: queue, visited⟩ (n :: ys)

variable {hash : N → H} {next : N → List N}

section

variable (hinj : Function.Injective hash)

include hinj

/-- Pushing nodes queues those of them that were not seen before, each once. -/
theorem foldl_push (cs queue seen : List N) :
    ∃ fresh, cs.foldl (push hash) ⟨queue, seen.map hash⟩ =
        ⟨queue ++ fresh, (fresh.reverse ++ seen).map hash⟩ ∧
      fresh.Nodup ∧ (∀ c ∈ fresh, c ∈ cs ∧ c ∉ seen) ∧ ∀ c ∈ cs, c ∈ seen ∨ c ∈ fresh := by
  induction cs generalizing queue seen with
  | nil => exact ⟨[], by simp, List.nodup_nil, by simp, by simp⟩
  | cons c cs ih =>
    rw [List.foldl_cons, push]
    by_cases hc : c ∈ seen
    · rw [if_pos (List.mem_map_of_mem hc)]
      obtain ⟨fresh, heq, hnodup, hfresh, hall⟩ := ih queue seen
      refine ⟨fresh, heq, hnodup, fun x hx => ?_, ?_⟩
      · obtain ⟨hmem, hnot⟩ := hfresh x hx
        exact ⟨List.mem_cons_of_mem _ hmem, hnot⟩
      · rw [List.forall_mem_cons]
        exact ⟨.inl hc, hall⟩
    · rw [if_neg (by rwa [List.mem_map_of_injective hinj])]
      obtain ⟨fresh, heq, hnodup, hfresh, hall⟩ := ih (queue ++ [c]) (c :: seen)
      refine ⟨c :: fresh, ?_, ?_, ?_, ?_⟩
      · rw [show hash c :: seen.map hash = (c :: seen).map hash from rfl, heq]
        simp
      · exact List.nodup_cons.mpr ⟨fun h => (hfresh c h).2 List.mem_cons_self, hnodup⟩
      · rw [List.forall_mem_cons]
        refine ⟨⟨List.mem_cons_self, hc⟩, fun x hx => ?_⟩
        obtain ⟨hmem, hnot⟩ := hfresh x hx
        exact ⟨List.mem_cons_of_mem _ hmem, fun h => hnot (List.mem_cons_of_mem _ h)⟩
      · rw [List.forall_mem_cons]
        refine ⟨.inr List.mem_cons_self, fun x hx => ?_⟩
        rcases hall x hx with hseen | hfresh
        · rcases List.mem_cons.mp hseen with rfl | hseen
          · exact .inr List.mem_cons_self
          · exact .inl hseen
        · exact .inr (List.mem_cons_of_mem _ hfresh)

/-- The queue comes first. The nodes after it were not seen, are behind the queue, and are all that
the yielded nodes lead to. -/
theorem Yields.spec {queue seen : List N} (h : Yields hash next ⟨queue, seen.map hash⟩ ys) :
    ∃ new, ys = queue ++ new ∧ new.Nodup ∧
      (∀ m ∈ new, m ∉ seen ∧ ∃ n ∈ queue, Ancestry.Above next n m) ∧
      ∀ n ∈ ys, ∀ c ∈ next n, c ∈ seen ∨ c ∈ new := by
  generalize hs : (⟨queue, seen.map hash⟩ : Search N H) = s at h
  induction h generalizing queue seen with
  | done visited =>
    cases hs
    exact ⟨[], rfl, List.nodup_nil, by simp, by simp⟩
  | @step n rest ys visited _ ih =>
    cases hs
    obtain ⟨fresh, heq, hnodup, hfresh, hall⟩ := foldl_push hinj (next n) rest seen
    obtain ⟨new, rfl, hnew, hsound, hclosed⟩ := ih heq.symm
    refine ⟨fresh ++ new, by simp, ?_, ?_, ?_⟩
    · rw [List.nodup_append]
      refine ⟨hnodup, hnew, fun a ha b hb hab => ?_⟩
      subst hab
      exact (hsound a hb).1 (List.mem_append_left _ (List.mem_reverse.mpr ha))
    · intro m hm
      rcases List.mem_append.mp hm with hm | hm
      · obtain ⟨hchild, hnot⟩ := hfresh m hm
        exact ⟨hnot, n, List.mem_cons_self, .single hchild⟩
      · obtain ⟨hnot, x, hx, habove⟩ := hsound m hm
        refine ⟨fun hseen => hnot (List.mem_append_right _ hseen), ?_⟩
        rcases List.mem_append.mp hx with hx | hx
        · exact ⟨x, List.mem_cons_of_mem _ hx, habove⟩
        · exact ⟨n, List.mem_cons_self, .head (hfresh x hx).1 habove⟩
    · rw [List.forall_mem_cons]
      constructor
      · intro c hc
        exact (hall c hc).imp_right (List.mem_append_left _)
      · intro x hx c hc
        rcases hclosed x hx c hc with hseen | hmem
        · rcases List.mem_append.mp hseen with hc | hc
          · exact .inr (List.mem_append_left _ (List.mem_reverse.mp hc))
          · exact .inl hc
        · exact .inr (List.mem_append_right _ hmem)

/-- From a node the search yields the node and then each ancestor once. -/
theorem Yields.ancestors {n : N} (h : Yields hash next ⟨[n], []⟩ ys) :
    ∃ rest, ys = n :: rest ∧ rest.Nodup ∧ ∀ m, m ∈ rest ↔ Ancestry.Above next n m := by
  have h : Yields hash next ⟨[n], ([] : List N).map hash⟩ ys := h
  obtain ⟨rest, rfl, hnodup, hsound, hclosed⟩ := h.spec hinj
  refine ⟨rest, rfl, hnodup, fun m => ⟨fun hm => ?_, fun hm => ?_⟩⟩
  · obtain ⟨-, x, hx, habove⟩ := hsound m hm
    rwa [List.mem_singleton.mp hx] at habove
  · -- What is yielded is closed under children.
    have hchild : ∀ x ∈ [n] ++ rest, ∀ c ∈ next x, c ∈ rest := by
      intro x hx c hc
      simpa using hclosed x hx c hc
    induction hm with
    | single hc => exact hchild n (by simp) _ hc
    | tail _ hc ih => exact hchild _ (List.mem_append_right _ ih) _ hc

theorem exists_yields [Finite N] (queue seen : List N) :
    ∃ ys, Yields hash next ⟨queue, seen.map hash⟩ ys := by
  have := Fintype.ofFinite N
  classical
  -- Every node is queued once at most, and each step takes a node off the queue.
  induction hn : 2 * (Finset.univ \ seen.toFinset).card + queue.length using
    Nat.strong_induction_on generalizing queue seen with
  | _ k ih =>
    subst hn
    cases queue with
    | nil => exact ⟨[], .done _⟩
    | cons n queue =>
      obtain ⟨fresh, heq, hnodup, hfresh, -⟩ := foldl_push hinj (next n) queue seen
      have hcard : (Finset.univ \ (fresh.reverse ++ seen).toFinset).card + fresh.length ≤
          (Finset.univ \ seen.toFinset).card := by
        rw [← List.toFinset_card_of_nodup hnodup, ← Finset.card_union_of_disjoint]
        · refine Finset.card_le_card fun x hx => ?_
          simp only [Finset.mem_union, Finset.mem_sdiff, List.mem_toFinset, Finset.mem_univ,
            true_and, List.mem_append, List.mem_reverse] at hx ⊢
          rcases hx with hx | hx
          · exact fun h => hx (.inr h)
          · exact (hfresh x hx).2
        · rw [Finset.disjoint_left]
          intro x hx hx'
          simp only [Finset.mem_sdiff, List.mem_toFinset, List.mem_append,
            List.mem_reverse] at hx hx'
          exact hx.2 (.inl hx')
      obtain ⟨ys, hys⟩ := ih _ (by
        rw [List.length_append, List.length_cons]
        omega) (queue ++ fresh) (fresh.reverse ++ seen) rfl
      exact ⟨n :: ys, .step (by rwa [heq])⟩

end

end BreadthFirst

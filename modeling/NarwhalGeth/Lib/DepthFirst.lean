import Mathlib.Data.List.Basic
import Mathlib.Data.List.Nodup
import Mathlib.Data.Finset.Card
import Mathlib.Data.Finset.Dedup

/-!
# Stack-based depth-first traversal

A traversal pops a node, emits it, and pushes those of its successors whose key has not been marked
yet, marking each key when the node is pushed. It is determined by `key`, `next` and the initial
stack and marks.
-/

namespace DepthFirst

variable {α κ : Type*} [DecidableEq κ] {out : List α} {seen seen' : List κ}

/-- Pushes the nodes whose key is not marked, in order, and marks them. -/
def pushNew (key : α → κ) (stack : List α) (seen : List κ) : List α → List α × List κ
  | [] => (stack, seen)
  | x :: xs =>
    if key x ∈ seen then pushNew key stack seen xs
    else pushNew key (x :: stack) (key x :: seen) xs

/-- The traversal from a stack and a list of marked keys emits the given nodes. -/
inductive Visits (key : α → κ) (next : α → List α) : List α → List κ → List α → Prop
  | done (seen : List κ) : Visits key next [] seen []
  | step {x : α} {stack : List α} {seen : List κ} {out : List α}
      (rest : Visits key next (pushNew key stack seen (next x)).1
        (pushNew key stack seen (next x)).2 out) :
      Visits key next (x :: stack) seen (x :: out)

/-! ## Pushing successors -/

section PushNew

variable (key : α → κ)

theorem pushNew_stack_append (stack : List α) (seen : List κ) (xs : List α) :
    ∃ pushed, (pushNew key stack seen xs).1 = pushed ++ stack ∧
      (∀ y ∈ pushed, y ∈ xs ∧ key y ∉ seen) ∧
      (pushed.map key).Nodup ∧
      ∀ k, k ∈ (pushNew key stack seen xs).2 ↔ k ∈ seen ∨ k ∈ pushed.map key := by
  induction xs generalizing stack seen with
  | nil => exact ⟨[], by simp [pushNew]⟩
  | cons x xs ih =>
    rw [pushNew]
    split_ifs with hx
    · obtain ⟨pushed, hstack, hnew, hnodup, hseen⟩ := ih stack seen
      exact ⟨pushed, hstack, fun y hy => ⟨List.mem_cons_of_mem _ (hnew y hy).1, (hnew y hy).2⟩,
        hnodup, hseen⟩
    · obtain ⟨pushed, hstack, hnew, hnodup, hseen⟩ := ih (x :: stack) (key x :: seen)
      refine ⟨pushed ++ [x], by simp [hstack], ?_, ?_, ?_⟩
      · intro y hy
        rcases List.mem_append.mp hy with hy | hy
        · have h := hnew y hy
          exact ⟨List.mem_cons_of_mem _ h.1, fun hk => h.2 (List.mem_cons_of_mem _ hk)⟩
        · rw [List.mem_singleton.mp hy]
          exact ⟨List.mem_cons_self, hx⟩
      · rw [List.map_append, List.nodup_append]
        refine ⟨hnodup, by simp, ?_⟩
        rintro a ha b hb rfl
        obtain ⟨y, hy, rfl⟩ := List.mem_map.mp ha
        simp only [List.map_cons, List.map_nil, List.mem_singleton] at hb
        exact (hnew y hy).2 (hb ▸ List.mem_cons_self)
      · intro k
        rw [hseen k]
        simp only [List.mem_cons, List.map_append, List.map_cons, List.map_nil, List.mem_append,
          List.not_mem_nil, or_false]
        tauto

theorem pushNew_append (stack : List α) (seen : List κ) (xs ys : List α) :
    pushNew key stack seen (xs ++ ys) =
      pushNew key (pushNew key stack seen xs).1 (pushNew key stack seen xs).2 ys := by
  induction xs generalizing stack seen with
  | nil => rfl
  | cons x xs ih =>
    rw [List.cons_append, pushNew, pushNew]
    split_ifs
    · exact ih stack seen
    · exact ih _ _

/-- Every successor is marked once the successors have been pushed. -/
theorem mem_pushNew_seen (stack : List α) (seen : List κ) (xs : List α) {y : α} (hy : y ∈ xs) :
    key y ∈ (pushNew key stack seen xs).2 := by
  induction xs generalizing stack seen with
  | nil => simp at hy
  | cons x xs ih =>
    rw [pushNew]
    rcases List.mem_cons.mp hy with rfl | hy
    · split_ifs with hx
      · obtain ⟨_, _, _, _, hseen⟩ := pushNew_stack_append key stack seen xs
        exact (hseen _).mpr (.inl hx)
      · obtain ⟨_, _, _, _, hseen⟩ := pushNew_stack_append key (y :: stack) (key y :: seen) xs
        exact (hseen _).mpr (.inl List.mem_cons_self)
    · split_ifs
      · exact ih _ _ hy
      · exact ih _ _ hy

/-- Pushing trades unmarked keys of a finite universe for stack entries. -/
theorem pushNew_measure (stack : List α) (seen : List κ) (xs : List α) (U : Finset κ)
    (hU : ∀ y ∈ xs, key y ∈ U) :
    (pushNew key stack seen xs).1.length +
        (U.filter (· ∉ (pushNew key stack seen xs).2)).card ≤
      stack.length + (U.filter (· ∉ seen)).card := by
  induction xs generalizing stack seen with
  | nil => exact le_rfl
  | cons x xs ih =>
    have hxs : ∀ y ∈ xs, key y ∈ U := fun y hy => hU y (List.mem_cons_of_mem _ hy)
    rw [pushNew]
    split_ifs with hx
    · exact ih stack seen hxs
    · have hstep := ih (x :: stack) (key x :: seen) hxs
      have hlt : (U.filter (· ∉ key x :: seen)).card < (U.filter (· ∉ seen)).card := by
        apply Finset.card_lt_card
        rw [Finset.ssubset_iff_of_subset]
        · exact ⟨key x, by simp [hU x List.mem_cons_self, hx], by simp⟩
        · intro k hk
          simp only [Finset.mem_filter, List.mem_cons, not_or] at hk ⊢
          exact ⟨hk.1, hk.2.2⟩
      rw [List.length_cons] at hstep
      omega

end PushNew

/-! ## Facts about a traversal -/

namespace Visits

variable {key : α → κ} {next : α → List α} {stack : List α} {seen : List κ} {out : List α}

theorem unique {out' : List α} (h : Visits key next stack seen out)
    (h' : Visits key next stack seen out') : out = out' := by
  induction h generalizing out' with
  | done seen => cases h' with | done => rfl
  | step _ ih => cases h' with | step rest => rw [ih rest]

/-- What holds on the stack and passes to successors holds of every emitted node. -/
theorem forall_mem (Q : α → Prop) (hnext : ∀ x, Q x → ∀ y ∈ next x, Q y)
    (h : Visits key next stack seen out) (hstack : ∀ x ∈ stack, Q x) : ∀ x ∈ out, Q x := by
  induction h with
  | done seen => simp
  | @step x stack seen out _ ih =>
    obtain ⟨pushed, heq, hnew, _, _⟩ := pushNew_stack_append key stack seen (next x)
    have hx := hstack x List.mem_cons_self
    have hrest : ∀ y ∈ (pushNew key stack seen (next x)).1, Q y := by
      intro y hy
      rw [heq] at hy
      rcases List.mem_append.mp hy with hy | hy
      · exact hnext x hx y (hnew y hy).1
      · exact hstack y (List.mem_cons_of_mem _ hy)
    intro y hy
    rcases List.mem_cons.mp hy with rfl | hy
    · exact hx
    · exact ih hrest y hy

theorem stack_subset (h : Visits key next stack seen out) : ∀ x ∈ stack, x ∈ out := by
  induction h with
  | done seen => simp
  | @step x stack seen out _ ih =>
    intro y hy
    rcases List.mem_cons.mp hy with rfl | hy
    · exact List.mem_cons_self
    · obtain ⟨pushed, heq, -⟩ := pushNew_stack_append key stack seen (next x)
      exact List.mem_cons_of_mem _ (ih y (heq ▸ List.mem_append_right _ hy))

/-- Successors of emitted nodes are emitted, up to keys that were marked at the start. -/
theorem next_mem (h : Visits key next stack seen out) :
    ∀ x ∈ out, ∀ y ∈ next x, key y ∈ seen ∨ ∃ z ∈ out, key z = key y := by
  induction h with
  | done seen => simp
  | @step x stack seen out rest ih =>
    obtain ⟨pushed, heq, _, _, hseen⟩ := pushNew_stack_append key stack seen (next x)
    have hmark : ∀ k ∈ (pushNew key stack seen (next x)).2,
        k ∈ seen ∨ ∃ z ∈ x :: out, key z = k := by
      intro k hk
      rcases (hseen k).mp hk with hk | hk
      · exact .inl hk
      · obtain ⟨z, hz, rfl⟩ := List.mem_map.mp hk
        have hzout := rest.stack_subset z (heq ▸ List.mem_append_left _ hz)
        exact .inr ⟨z, List.mem_cons_of_mem _ hzout, rfl⟩
    intro v hv y hy
    rcases List.mem_cons.mp hv with rfl | hv
    · exact hmark _ (mem_pushNew_seen key stack seen _ hy)
    · rcases ih v hv y hy with hk | ⟨z, hz, hzy⟩
      · exact hmark _ hk
      · exact .inr ⟨z, List.mem_cons_of_mem _ hz, hzy⟩

/-- If the stack is marked and has no repeated key, then neither has the output. -/
theorem nodup_of_marked (h : Visits key next stack seen out) (hnodup : (stack.map key).Nodup)
    (hmarked : ∀ x ∈ stack, key x ∈ seen) :
    (out.map key).Nodup ∧ ∀ x ∈ out, key x ∈ seen → key x ∈ stack.map key := by
  induction h with
  | done seen => simp
  | @step x stack seen out rest ih =>
    obtain ⟨pushed, heq, hnew, hpushed, hseen⟩ := pushNew_stack_append key stack seen (next x)
    rw [List.map_cons, List.nodup_cons] at hnodup
    have hstack : ∀ y ∈ stack, key y ∈ seen := fun y hy => hmarked y (List.mem_cons_of_mem _ hy)
    have hnodup' : ((pushNew key stack seen (next x)).1.map key).Nodup := by
      rw [heq, List.map_append, List.nodup_append]
      refine ⟨hpushed, hnodup.2, ?_⟩
      rintro a ha b hb rfl
      obtain ⟨y, hy, rfl⟩ := List.mem_map.mp ha
      obtain ⟨z, hz, hzy⟩ := List.mem_map.mp hb
      exact (hnew y hy).2 (hzy ▸ hstack z hz)
    have hmarked' : ∀ y ∈ (pushNew key stack seen (next x)).1,
        key y ∈ (pushNew key stack seen (next x)).2 := by
      intro y hy
      rw [heq] at hy
      rw [hseen]
      rcases List.mem_append.mp hy with hy | hy
      · exact .inr (List.mem_map_of_mem hy)
      · exact .inl (hstack y hy)
    obtain ⟨hout, hback⟩ := ih hnodup' hmarked'
    have hlow : ∀ y ∈ out, key y ∈ seen → key y ∈ stack.map key := by
      intro y hy hk
      have hmem := hback y hy ((hseen _).mpr (.inl hk))
      rw [heq, List.map_append] at hmem
      rcases List.mem_append.mp hmem with hmem | hmem
      · obtain ⟨z, hz, hzy⟩ := List.mem_map.mp hmem
        exact absurd (hzy ▸ hk) (hnew z hz).2
      · exact hmem
    refine ⟨?_, ?_⟩
    · rw [List.map_cons, List.nodup_cons]
      refine ⟨fun hx => ?_, hout⟩
      obtain ⟨y, hy, hyx⟩ := List.mem_map.mp hx
      exact hnodup.1 (hyx ▸ hlow y hy (hyx ▸ hmarked x List.mem_cons_self))
    · intro y hy hk
      rcases List.mem_cons.mp hy with rfl | hy
      · exact List.mem_cons_self
      · exact List.mem_cons_of_mem _ (hlow y hy hk)

/-- A traversal from one unmarked root of which no successor leads back to the root's key emits
no key twice. -/
theorem nodup_of_root {root : α} (h : Visits key next [root] [] (root :: out))
    (hroot : ∀ x ∈ out, key x ≠ key root) : ((root :: out).map key).Nodup := by
  cases h with
  | step rest =>
    obtain ⟨pushed, heq, _, hpushed, hseen⟩ := pushNew_stack_append key [] [] (next root)
    rw [List.append_nil] at heq
    have hout := (rest.nodup_of_marked (heq ▸ hpushed) (fun y hy =>
      (hseen _).mpr (.inr (List.mem_map_of_mem (heq ▸ hy))))).1
    rw [List.map_cons, List.nodup_cons]
    refine ⟨fun hx => ?_, hout⟩
    obtain ⟨y, hy, hyx⟩ := List.mem_map.mp hx
    exact hroot y hy hyx

end Visits

/-! ## Dropping a downward closed set of nodes -/

section Filter

variable {key : α → κ} {U p : α → Prop} [DecidablePred p]

/-- Dropping the nodes outside `p` commutes with pushing, for marks that agree on `p`. -/
theorem pushNew_filter (hkey : ∀ x y, U x → U y → key x = key y → p x → p y) (stack : List α)
    {xs : List α} (hxs : ∀ x ∈ xs, U x) (hseen : ∀ x, U x → p x → (key x ∈ seen ↔ key x ∈ seen')) :
    (pushNew key (stack.filter p) seen' (xs.filter p)).1 =
        (pushNew key stack seen xs).1.filter p ∧
      ∀ x, U x → p x → (key x ∈ (pushNew key stack seen xs).2 ↔
        key x ∈ (pushNew key (stack.filter p) seen' (xs.filter p)).2) := by
  induction xs generalizing stack seen seen' with
  | nil => exact ⟨rfl, hseen⟩
  | cons x xs ih =>
    have hx := hxs x List.mem_cons_self
    have htail : ∀ y ∈ xs, U y := fun y hy => hxs y (List.mem_cons_of_mem _ hy)
    by_cases hp : p x
    · rw [List.filter_cons_of_pos (by simpa using hp)]
      by_cases hm : key x ∈ seen
      · rw [pushNew, pushNew, if_pos ((hseen x hx hp).mp hm), if_pos hm]
        exact ih stack htail hseen
      · rw [pushNew, pushNew, if_neg (fun h => hm ((hseen x hx hp).mpr h)), if_neg hm]
        have hmarks : ∀ y, U y → p y → (key y ∈ key x :: seen ↔ key y ∈ key x :: seen') := by
          intro y hy hpy
          simp only [List.mem_cons, hseen y hy hpy]
        have h := ih (x :: stack) htail hmarks
        rwa [List.filter_cons_of_pos (by simpa using hp)] at h
    · rw [List.filter_cons_of_neg (by simpa using hp)]
      by_cases hm : key x ∈ seen
      · rw [pushNew, if_pos hm]
        exact ih stack htail hseen
      · rw [pushNew, if_neg hm]
        have hmarks : ∀ y, U y → p y → (key y ∈ key x :: seen ↔ key y ∈ seen') := by
          intro y hy hpy
          rw [List.mem_cons, ← hseen y hy hpy]
          refine or_iff_right fun heq => hp (hkey y x hy hx heq hpy)
        have h := ih (x :: stack) htail hmarks
        rwa [List.filter_cons_of_neg (by simpa using hp)] at h

/-- Nodes outside `p` that only lead to nodes outside `p` can be dropped from a traversal without
changing the order of the others. -/
theorem Visits.filter {next next' : α → List α}
    (hkey : ∀ x y, U x → U y → key x = key y → p x → p y) (hU : ∀ x, U x → ∀ y ∈ next x, U y)
    (hpos : ∀ x, U x → p x → next' x = (next x).filter p)
    (hneg : ∀ x, U x → ¬ p x → ∀ y ∈ next x, ¬ p y) {stack : List α}
    (h : Visits key next stack seen out) (hstack : ∀ x ∈ stack, U x)
    (hseen : ∀ x, U x → p x → (key x ∈ seen ↔ key x ∈ seen')) :
    Visits key next' (stack.filter p) seen' (out.filter p) := by
  induction h generalizing seen' with
  | done seen => exact .done seen'
  | @step x stack seen out _ ih =>
    have hx := hstack x List.mem_cons_self
    have htail : ∀ y ∈ stack, U y := fun y hy => hstack y (List.mem_cons_of_mem _ hy)
    obtain ⟨heq, hmarks⟩ := pushNew_filter hkey stack (hU x hx) hseen
    have hrest : ∀ y ∈ (pushNew key stack seen (next x)).1, U y := by
      obtain ⟨pushed, happ, hnew, -⟩ := pushNew_stack_append key stack seen (next x)
      intro y hy
      rw [happ] at hy
      rcases List.mem_append.mp hy with hy | hy
      · exact hU x hx y (hnew y hy).1
      · exact htail y hy
    have hih := ih hrest hmarks
    by_cases hp : p x
    · rw [List.filter_cons_of_pos (by simpa using hp), List.filter_cons_of_pos (by simpa using hp)]
      refine .step ?_
      rw [hpos x hx hp, heq]
      exact hih
    · have hnil : (next x).filter p = [] := by
        rw [List.filter_eq_nil_iff]
        intro y hy
        simpa using hneg x hx hp y hy
      rw [List.filter_cons_of_neg (by simpa using hp), List.filter_cons_of_neg (by simpa using hp)]
      rw [← heq, hnil] at hih
      exact hih

end Filter

/-! ## Running the traversal -/

/-- The traversal as a function, cut off after `fuel` nodes. -/
def preorder (key : α → κ) (next : α → List α) : ℕ → List α → List κ → List α
  | 0, _, _ => []
  | _ + 1, [], _ => []
  | fuel + 1, x :: stack, seen =>
    x :: preorder key next fuel (pushNew key stack seen (next x)).1
      (pushNew key stack seen (next x)).2

/-- Fuel for the stack and for every key that can still be pushed lets the traversal finish. -/
theorem visits_preorder (key : α → κ) (next : α → List α) (U : Finset κ)
    (hU : ∀ x, ∀ y ∈ next x, key y ∈ U) (fuel : ℕ) (stack : List α) (seen : List κ)
    (hfuel : stack.length + (U.filter (· ∉ seen)).card ≤ fuel) :
    Visits key next stack seen (preorder key next fuel stack seen) := by
  induction fuel generalizing stack seen with
  | zero =>
    have hnil : stack = [] := List.length_eq_zero_iff.mp (by omega)
    subst hnil
    exact .done seen
  | succ fuel ih =>
    cases stack with
    | nil => exact .done seen
    | cons x stack =>
      have hmeasure := pushNew_measure key stack seen (next x) U (hU x)
      rw [List.length_cons] at hfuel
      exact .step (ih _ _ (by omega))

end DepthFirst

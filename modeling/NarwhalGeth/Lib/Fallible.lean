import Mathlib.Logic.Basic

/-!
# Fallible computations

Inversion of computations in `Except` that return a value and the invariant rule for a fold, loops
in `Option` of which no step fails, and computations in `Option` that fail together.
-/

namespace Except

variable {ε α β : Type} {x : Except ε α}

theorem eq_ok_of_bind {f : α → Except ε β} {y : β} (h : x >>= f = .ok y) :
    ∃ a, x = .ok a ∧ f a = .ok y := by
  cases x with
  | error e => cases h
  | ok a => exact ⟨a, rfl, h⟩

theorem eq_ok_of_map {f : α → β} {y : β} (h : x.map f = .ok y) :
    ∃ a, x = .ok a ∧ f a = y := by
  cases x with
  | error e => cases h
  | ok a => exact ⟨a, rfl, Except.ok.inj h⟩

theorem eq_ok_of_toOption {y : α} (h : x.toOption = some y) : x = .ok y := by
  cases x with
  | error e => cases h
  | ok a => exact congrArg _ (Option.some.inj h)

/-- What each successful step of a fold keeps, the whole fold keeps. -/
theorem foldlM_invariant {f : α → β → Except ε α} {I : α → Prop} {xs : List β} {a a' : α}
    (hstep : ∀ a a', ∀ x ∈ xs, I a → f a x = .ok a' → I a') (ha : I a)
    (h : xs.foldlM f a = .ok a') : I a' := by
  induction xs generalizing a with
  | nil =>
    cases h
    exact ha
  | cons x xs ih =>
    rw [List.foldlM_cons] at h
    obtain ⟨b, hb, hrest⟩ := eq_ok_of_bind h
    exact ih (fun a a' y hy => hstep a a' y (List.mem_cons_of_mem _ hy))
      (hstep a b x List.mem_cons_self ha hb) hrest

end Except

namespace List

variable {α β : Type} {f : α → Option β} {xs : List α}

/-- What each successful step of a fold keeps, the whole fold keeps. -/
theorem foldlM_some_invariant {f : α → β → Option α} {I : α → Prop} {xs : List β} {a a' : α}
    (hstep : ∀ a a' x, I a → f a x = some a' → I a') (ha : I a)
    (h : xs.foldlM f a = some a') : I a' := by
  induction xs generalizing a with
  | nil =>
    cases h
    exact ha
  | cons x xs ih =>
    obtain ⟨b, hb, hrest⟩ := Option.bind_eq_some_iff.mp h
    exact ih (hstep a b x ha hb) hrest

theorem foldlM_eq_some_append {f : List β → α → Option (List β)} {g : α → List β}
    (hstep : ∀ x ∈ xs, ∀ acc, f acc x = some (acc ++ g x)) (acc : List β) :
    xs.foldlM f acc = some (acc ++ xs.flatMap g) := by
  induction xs generalizing acc with
  | nil => simp
  | cons x xs ih =>
    have hrest := ih (fun y hy => hstep y (mem_cons_of_mem _ hy)) (acc ++ g x)
    rw [foldlM_cons, hstep x mem_cons_self acc, flatMap_cons, ← append_assoc]
    exact hrest

theorem mapM_eq_some_map {g : α → β} (hstep : ∀ x ∈ xs, f x = some (g x)) :
    xs.mapM f = some (xs.map g) := by
  induction xs with
  | nil => rfl
  | cons x xs ih =>
    rw [mapM_cons, hstep x mem_cons_self, ih fun y hy => hstep y (mem_cons_of_mem _ hy)]
    rfl

theorem foldlM_collect (f : α → Option β) (xs : List α) (acc : List β) :
    xs.foldlM (fun acc x => do return acc ++ [← f x]) acc = (xs.mapM f).map (acc ++ ·) := by
  induction xs generalizing acc with
  | nil => simp
  | cons x xs ih =>
    rw [foldlM_cons, mapM_cons]
    cases f x with
    | none => rfl
    | some y =>
      show xs.foldlM _ (acc ++ [y]) = _
      rw [ih]
      cases xs.mapM f <;> simp

theorem foldlM_foldlM {γ : Type} (g : α → List β) (f : γ → β → Option γ) (xs : List α) (c : γ) :
    xs.foldlM (fun c x => (g x).foldlM f c) c = (xs.flatMap g).foldlM f c := by
  induction xs generalizing c with
  | nil => rfl
  | cons x xs ih =>
    rw [foldlM_cons, flatMap_cons, foldlM_append]
    exact congrArg _ (funext fun c => ih c)

theorem mapM_eq_some_filterMap (h : ∀ x ∈ xs, (f x).isSome) :
    xs.mapM f = some (xs.filterMap f) := by
  induction xs with
  | nil => rfl
  | cons x xs ih =>
    obtain ⟨y, hy⟩ := Option.isSome_iff_exists.mp (h x mem_cons_self)
    rw [mapM_cons, hy, ih fun z hz => h z (mem_cons_of_mem _ hz), filterMap_cons_some hy]
    rfl

theorem mapM_eq_none_iff :
    xs.mapM f = none ↔ ∃ x ∈ xs, f x = none := by
  induction xs with
  | nil => simp
  | cons x xs ih =>
    rw [mapM_cons]
    cases hx : f x with
    | none => simp [hx]
    | some y =>
      cases hxs : xs.mapM f with
      | none => simpa [hx, hxs] using ih.mp hxs
      | some ys => simpa [hx, hxs] using ih

theorem exists_of_mem_mapM {ys : List β} (h : xs.mapM f = some ys) {y : β} (hy : y ∈ ys) :
    ∃ x ∈ xs, f x = some y := by
  have hsome : ∀ x ∈ xs, (f x).isSome := by
    intro x hx
    cases hfx : f x with
    | some y => rfl
    | none =>
      rw [mapM_eq_none_iff.mpr ⟨x, hx, hfx⟩] at h
      cases h
  rw [mapM_eq_some_filterMap hsome, Option.some.injEq] at h
  exact mem_filterMap.mp (h ▸ hy)

end List

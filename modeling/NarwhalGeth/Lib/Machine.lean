import Mathlib.Data.Nat.Notation
import Mathlib.Logic.Basic

/-!
# State machines driven by events

A machine has a start state and a partial step function. The states reached by events that all meet
a guard satisfy every invariant of the guarded steps. On a list of events the guard and the steps
can be evaluated, which gives concrete reached states.
-/

structure Machine (σ ε : Type*) where
  start : σ
  next : σ → ε → Option σ

namespace Machine

variable {σ ε : Type*} {m : Machine σ ε} {guard guard' : σ → ε → Prop}

/-- The states reached by events that meet the guard in the state before them. -/
inductive Reached (m : Machine σ ε) (guard : σ → ε → Prop) : σ → Prop
  | start : Reached m guard m.start
  | next {s s' : σ} {e : ε} (rest : Reached m guard s) (met : guard s e)
      (eq : m.next s e = some s') : Reached m guard s'

namespace Reached

/-- An invariant of the guarded steps holds in every reached state. -/
theorem invariant {I : σ → Prop} (hstart : I m.start)
    (hnext : ∀ s e s', I s → guard s e → m.next s e = some s' → I s') {s : σ}
    (h : Reached m guard s) : I s := by
  induction h with
  | start => exact hstart
  | next _ met eq ih => exact hnext _ _ _ ih met eq

theorem mono (himp : ∀ s e, guard s e → guard' s e) {s : σ} (h : Reached m guard s) :
    Reached m guard' s := by
  induction h with
  | start => exact .start
  | next _ met eq ih => exact ih.next (himp _ _ met) eq

end Reached

/-- The state after a list of events, up to the first one that has no step. -/
def after (m : Machine σ ε) (s : σ) : List ε → σ
  | [] => s
  | e :: events =>
    match m.next s e with
    | some s' => after m s' events
    | none => s

/-- Every event of the list meets the guard and has a step. -/
def Runs (m : Machine σ ε) (guard : σ → ε → Prop) (s : σ) : List ε → Prop
  | [] => True
  | e :: events => guard s e ∧
    match m.next s e with
    | some s' => Runs m guard s' events
    | none => False

instance decidableRuns [∀ s e, Decidable (guard s e)] :
    ∀ (s : σ) (events : List ε), Decidable (m.Runs guard s events)
  | _, [] => .isTrue trivial
  | s, e :: events => by
    unfold Runs
    cases m.next s e with
    | none => exact inferInstance
    | some s' =>
      have := decidableRuns s' events
      exact inferInstance

theorem Reached.after {s : σ} (h : Reached m guard s) {events : List ε}
    (hruns : m.Runs guard s events) : Reached m guard (m.after s events) := by
  induction events generalizing s with
  | nil => exact h
  | cons e events ih =>
    obtain ⟨hmet, hrest⟩ := hruns
    unfold Machine.after
    cases hnext : m.next s e with
    | none =>
      rw [hnext] at hrest
      exact hrest.elim
    | some s' =>
      rw [hnext] at hrest
      exact ih (h.next hmet hnext) hrest

/-- A measure that every guarded step lowers bounds the length of a run. -/
theorem Runs.length_add_le {I : σ → Prop} {μ : σ → ℕ}
    (hnext : ∀ s e s', I s → guard s e → m.next s e = some s' → I s' ∧ μ s' < μ s) {s : σ}
    (hs : I s) {events : List ε} (h : m.Runs guard s events) :
    I (m.after s events) ∧ events.length + μ (m.after s events) ≤ μ s := by
  induction events generalizing s with
  | nil => exact ⟨hs, Nat.le_of_eq (Nat.zero_add _)⟩
  | cons e events ih =>
    obtain ⟨hmet, hrest⟩ := h
    unfold Machine.after
    cases heq : m.next s e with
    | none =>
      rw [heq] at hrest
      exact hrest.elim
    | some s' =>
      rw [heq] at hrest
      obtain ⟨hs', hlt⟩ := hnext s e s' hs hmet heq
      obtain ⟨hafter, hle⟩ := ih hs' hrest
      refine ⟨hafter, ?_⟩
      rw [List.length_cons]
      dsimp only
      omega

end Machine

import Mathlib.Data.List.Induction

/-!
# Properties of an element and what stands before it

A history is a list that grows at its end. What was true of an element and the history before it
when it was added stays true, and is shown for each addition.
-/

variable {α : Type*} {P Q : List α → α → Prop} {xs ys : List α} {x : α}

/-- Every element has the property with the list of those before it. -/
def EachAfter (P : List α → α → Prop) (xs : List α) : Prop :=
  ∀ before x after, xs = before ++ x :: after → P before x

namespace EachAfter

theorem nil : EachAfter P [] := by
  intro before x after heq
  simp at heq

theorem concat_iff : EachAfter P (xs ++ [x]) ↔ EachAfter P xs ∧ P xs x := by
  constructor
  · intro h
    refine ⟨fun before y after heq => h before y (after ++ [x]) ?_, h xs x [] rfl⟩
    rw [heq, List.append_assoc, List.cons_append]
  · rintro ⟨hxs, hx⟩ before y after heq
    rcases List.eq_nil_or_concat after with rfl | ⟨rest, z, rfl⟩
    · obtain ⟨rfl, hyx⟩ := List.append_inj' heq rfl
      cases hyx
      exact hx
    · rw [List.concat_eq_append, ← List.cons_append, ← List.append_assoc] at heq
      exact hxs before y rest (List.append_inj' heq rfl).1

theorem concat (hxs : EachAfter P xs) (hx : P xs x) : EachAfter P (xs ++ [x]) :=
  concat_iff.mpr ⟨hxs, hx⟩

theorem mono (h : EachAfter P xs) (hPQ : ∀ before x, P before x → Q before x) : EachAfter Q xs :=
  fun before x after heq => hPQ before x (h before x after heq)

/-- Elements that are added together come after the list and after each other. -/
theorem append (hxs : EachAfter P xs) (hys : EachAfter (fun before => P (xs ++ before)) ys) :
    EachAfter P (xs ++ ys) := by
  induction ys using List.reverseRecOn with
  | nil => rwa [List.append_nil]
  | append_singleton ys y ih =>
    obtain ⟨hys, hy⟩ := concat_iff.mp hys
    rw [← List.append_assoc]
    exact (ih hys).concat hy

end EachAfter

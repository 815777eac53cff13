import NarwhalGeth.Lib.EachAfter

/-!
# Causal order

A list is in causal order, relative to a past, when each element comes after its parents: they are
in the past or earlier in the list.
-/

variable {α : Type*} {parent : α → α → Prop} {past past' : α → Prop} {xs : List α}

def CausalOrder (parent : α → α → Prop) (past : α → Prop) : List α → Prop
  | [] => True
  | x :: xs => (∀ p, parent p x → past p) ∧ CausalOrder parent (fun p => past p ∨ p = x) xs

namespace CausalOrder

theorem mono (hpast : ∀ p, past p → past' p) (h : CausalOrder parent past xs) :
    CausalOrder parent past' xs := by
  induction xs generalizing past past' with
  | nil => trivial
  | cons x xs ih =>
    exact ⟨fun p hp => hpast p (h.1 p hp), ih (fun p hp => hp.imp_left (hpast p)) h.2⟩

theorem append {ys : List α} (hxs : CausalOrder parent past xs)
    (hys : CausalOrder parent (fun p => past p ∨ p ∈ xs) ys) :
    CausalOrder parent past (xs ++ ys) := by
  induction xs generalizing past with
  | nil => exact hys.mono fun p hp => hp.resolve_right (by simp)
  | cons x xs ih =>
    refine ⟨hxs.1, ih hxs.2 (hys.mono fun p hp => ?_)⟩
    rwa [or_assoc, ← List.mem_cons]

theorem singleton {x : α} (h : ∀ p, parent p x → past p) : CausalOrder parent past [x] :=
  ⟨h, trivial⟩

theorem of_eachAfter (h : EachAfter (fun before x => ∀ p, parent p x → past p ∨ p ∈ before) xs) :
    CausalOrder parent past xs := by
  induction xs using List.reverseRecOn with
  | nil => trivial
  | append_singleton xs x ih =>
    obtain ⟨hxs, hx⟩ := EachAfter.concat_iff.mp h
    exact (ih hxs).append (.singleton hx)

end CausalOrder

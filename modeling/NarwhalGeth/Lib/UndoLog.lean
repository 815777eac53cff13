import Mathlib.Logic.Basic

/-!
# Undo logs

Every change of a state leaves an entry in a log, by which it can be undone. Undoing a suffix of the
log, last entry first, gives the state before the changes of the suffix, whatever was logged and
undone in between.
-/

namespace UndoLog

variable {σ ε : Type*} {undo : ε → σ → Option σ} {Valid : σ → Prop}

/-- Undoes the entries, the last one first. -/
def undoAll (undo : ε → σ → Option σ) : List ε → σ → Option σ
  | [], s => some s
  | e :: es, s => (undoAll undo es s).bind (undo e)

theorem undoAll_append (es es' : List ε) (s : σ) :
    undoAll undo (es ++ es') s = (undoAll undo es' s).bind (undoAll undo es) := by
  induction es with
  | nil =>
    rw [List.nil_append]
    exact (Option.bind_fun_some _).symm
  | cons e es ih =>
    rw [List.cons_append, undoAll, ih, Option.bind_assoc]
    rfl

/-- The state after the entries were logged on top of a base, by way of valid states. Undoing an
entry gives the state before it. -/
inductive Logged (undo : ε → σ → Option σ) (Valid : σ → Prop) (base : σ) : List ε → σ → Prop
  | nil (valid : Valid base) : Logged undo Valid base [] base
  | snoc {es : List ε} {e : ε} {s s' : σ} (rest : Logged undo Valid base es s)
      (undone : undo e s' = some s) (valid : Valid s') : Logged undo Valid base (es ++ [e]) s'

namespace Logged

variable {base s s' : σ} {es es' : List ε}

theorem single {e : ε} (hvalid : Valid s) (hundo : undo e s' = some s) (hvalid' : Valid s') :
    Logged undo Valid s [e] s' :=
  (nil hvalid).snoc hundo hvalid'

theorem append (h : Logged undo Valid base es s) (h' : Logged undo Valid s es' s') :
    Logged undo Valid base (es ++ es') s' := by
  induction h' with
  | nil _ => rwa [List.append_nil]
  | snoc _ hundo hvalid ih =>
    rw [← List.append_assoc]
    exact ih.snoc hundo hvalid

/-- Undoing a suffix gives a state after the entries before it. -/
theorem undo_suffix (h : Logged undo Valid base (es ++ es') s) :
    ∃ t, undoAll undo es' s = some t ∧ Logged undo Valid base es t := by
  generalize hall : es ++ es' = all at h
  induction h generalizing es' with
  | nil hvalid =>
    obtain ⟨rfl, rfl⟩ := List.append_eq_nil_iff.mp hall
    exact ⟨base, rfl, nil hvalid⟩
  | @snoc front e t t' rest hundo hvalid ih =>
    rcases List.eq_nil_or_concat es' with rfl | ⟨es'', e', rfl⟩
    · rw [List.append_nil] at hall
      subst hall
      exact ⟨t', rfl, rest.snoc hundo hvalid⟩
    · rw [List.concat_eq_append, ← List.append_assoc] at hall
      obtain ⟨hfront, he⟩ := List.append_inj' hall rfl
      obtain ⟨u, hu, hlogged⟩ := ih hfront
      refine ⟨u, ?_, hlogged⟩
      rw [List.concat_eq_append, undoAll_append, List.singleton_inj.mp he, undoAll, undoAll,
        Option.bind_some, hundo, Option.bind_some, hu]

theorem undo_all (h : Logged undo Valid base es s) : undoAll undo es s = some base := by
  induction h with
  | nil _ => rfl
  | snoc _ hundo _ ih =>
    rw [undoAll_append, undoAll, undoAll, Option.bind_some, hundo, Option.bind_some, ih]

end Logged

end UndoLog

import Mathlib.Data.List.Basic

/-!
# Remote calls that may fail

A caller makes one call at a time and the callee runs a handler for each request. A call can fail
before or after its request is handled, and its handler may still run. As long as calls fail only
after their requests are handled, there is no handler but that of the open call.
-/

/-- Where a caller is: no call, a request sent, a response on its way. -/
inductive Rpc.Phase where
  | idle | sent | answered
deriving DecidableEq

/-- The caller's phase and the requests that are being handled, each with whether the caller still
waits for it. -/
structure Rpc (α : Type) where
  phase : Rpc.Phase
  handling : List (Bool × α)

namespace Rpc

variable {α : Type} {rpc rpc' : Rpc α} {a : α} {i : ℕ}

def start : Rpc α := ⟨.idle, []⟩

def send (rpc : Rpc α) (a : α) : Option (Rpc α) :=
  if rpc.phase = .idle then some ⟨.sent, rpc.handling ++ [(true, a)]⟩ else none

/-- A handler finishes with its request. -/
def finish (rpc : Rpc α) (i : ℕ) : Option (α × Rpc α) :=
  match rpc.handling[i]? with
  | none => none
  | some (waited, a) =>
    some (a, ⟨if waited then .answered else rpc.phase, rpc.handling.eraseIdx i⟩)

def respond (rpc : Rpc α) : Option (Rpc α) :=
  if rpc.phase = .answered then some { rpc with phase := .idle } else none

/-- The open call fails. -/
def fail (rpc : Rpc α) : Option (Rpc α) :=
  if rpc.phase = .idle then none
  else some ⟨.idle, rpc.handling.map fun request => (false, request.2)⟩

/-- The handler of a failed call is dropped. -/
def drop (rpc : Rpc α) (i : ℕ) : Option (Rpc α) :=
  match rpc.handling[i]? with
  | some (false, _) => some { rpc with handling := rpc.handling.eraseIdx i }
  | _ => none

/-- The requests that are being handled. -/
def pending (rpc : Rpc α) : List α := rpc.handling.map Prod.snd

/-- Nothing is handled but the request of the open call. -/
inductive Sequential : Rpc α → Prop
  | quiet {phase : Phase} (h : phase ≠ .sent) : Sequential ⟨phase, []⟩
  | waiting (a : α) : Sequential ⟨.sent, [(true, a)]⟩

namespace Sequential

theorem start : Sequential (start : Rpc α) := .quiet (by decide)

section

variable (h : Sequential rpc)

include h

theorem send (hsend : rpc.send a = some rpc') :
    Sequential rpc' ∧ rpc.pending = [] ∧ rpc'.pending = [a] := by
  unfold Rpc.send at hsend
  split_ifs at hsend with hidle
  cases hsend
  cases h with
  | quiet => exact ⟨.waiting a, rfl, rfl⟩
  | waiting => cases hidle

theorem finish (hfinish : rpc.finish i = some (a, rpc')) :
    Sequential rpc' ∧ rpc.pending = [a] ∧ rpc'.pending = [] := by
  unfold Rpc.finish at hfinish
  cases h with
  | quiet => simp at hfinish
  | waiting b =>
    cases i with
    | zero =>
      cases hfinish
      exact ⟨.quiet (by simp), rfl, rfl⟩
    | succ i => simp at hfinish

theorem respond (hrespond : rpc.respond = some rpc') :
    Sequential rpc' ∧ rpc'.pending = rpc.pending := by
  unfold Rpc.respond at hrespond
  split_ifs at hrespond with hanswered
  cases hrespond
  cases h with
  | quiet => exact ⟨.quiet (by decide), rfl⟩
  | waiting => cases hanswered

theorem fail (hanswered : rpc.phase = .answered) (hfail : rpc.fail = some rpc') :
    Sequential rpc' ∧ rpc'.pending = rpc.pending := by
  unfold Rpc.fail at hfail
  split_ifs at hfail
  cases hfail
  cases h with
  | quiet => exact ⟨.quiet (by decide), rfl⟩
  | waiting => cases hanswered

theorem drop : rpc.drop i = none := by
  unfold Rpc.drop
  cases h with
  | quiet => simp
  | waiting a => cases i <;> simp

end

end Sequential

end Rpc

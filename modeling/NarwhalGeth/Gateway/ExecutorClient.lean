import Mathlib.Algebra.Group.Nat.Defs
import Mathlib.Data.List.Chain
import Mathlib.Data.Nat.Find
import Mathlib.Order.Basic

/-!
# The connection to the executor

The relay for the executor connects in a loop and counts the attempts that fail. The count only
decides whether the loop sleeps: after the last retry it goes on, without a pause and without an
end, until an attempt succeeds.
-/

namespace Gateway

/-- What the loop does: a connection attempt, or the wait for the retry delay. -/
inductive ClientAction where
  | connect
  | sleep
deriving DecidableEq

def maxRetries : ℕ := 500

section Model

variable {U E C : Type} {channel : C}

/-- The progress of `get_fab_client`: the failures so far, what was done, and the result once the
function has returned. -/
structure FabClient (E C : Type) where
  retries : ℕ
  actions : List ClientAction
  result : Option (Except E C)
deriving DecidableEq

namespace FabClient

def attempts (s : FabClient E C) : ℕ := s.actions.count .connect

/-- One turn of the loop. `address` is what the address parses to, and an attempt yields a channel
or fails. -/
def turn (address : Except E U) (attempt : Option C) (s : FabClient E C) : FabClient E C :=
  match s.result, address, attempt with
  | some _, _, _ => s
  | none, .error e, _ => { s with result := some (.error e) }
  | none, .ok _, some channel =>
    { s with actions := s.actions ++ [.connect], result := some (.ok channel) }
  | none, .ok _, none =>
    let retries := (s.retries + 1) % 2 ^ 64
    -- The branch for the last retry prints a message, its `return` is commented out.
    let pause := if maxRetries ≤ retries then [] else [.sleep]
    { s with retries, actions := s.actions ++ .connect :: pause }

end FabClient

/-- The state after some turns of the loop, for the outcomes of all attempts. -/
def getFabClient (address : Except E U) (attempts : ℕ → Option C) : ℕ → FabClient E C
  | 0 => ⟨0, [], none⟩
  | n + 1 => (getFabClient address attempts n).turn address (attempts n)

/-- The function makes at most `maxRetries` attempts, returns the client at the first success and an
error after `maxRetries` failures, and sleeps before every attempt but the first. -/
structure BoundedConnect (address : Except E U) (attempts : ℕ → Option C) : Prop where
  attempts_le : ∀ n, (getFabClient address attempts n).attempts ≤ maxRetries
  success : ∀ k channel, attempts k = some channel → (∀ j < k, attempts j = none) →
    k < maxRetries → ∃ n, (getFabClient address attempts n).result = some (.ok channel) ∧
      (getFabClient address attempts n).attempts = k + 1
  failure : (∀ j < maxRetries, attempts j = none) →
    ∃ n e, (getFabClient address attempts n).result = some (.error e)
  sleeps : ∀ n, (getFabClient address attempts n).actions.IsChain
    fun earlier later => later = .connect → earlier = .sleep

/-! ## Failures -/

/-- What a number of failures below the last retry make the loop do. -/
def retried (n : ℕ) : List ClientAction := (List.replicate n [.connect, .sleep]).flatten

theorem retried_succ (n : ℕ) : retried (n + 1) = retried n ++ [.connect, .sleep] := by
  simp [retried, List.replicate_succ']

theorem count_retried (n : ℕ) : (retried n).count .connect = n := by
  induction n with
  | zero => rfl
  | succ n ih =>
    rw [retried_succ, List.count_append, ih]
    rfl

theorem isChain_retried_append (n : ℕ) {rest : List ClientAction}
    (hrest : rest.IsChain fun earlier later => later = .connect → earlier = .sleep) :
    (retried n ++ rest).IsChain fun earlier later => later = .connect → earlier = .sleep := by
  induction n generalizing rest with
  | zero => exact hrest
  | succ n ih =>
    rw [retried_succ, List.append_assoc]
    apply ih
    simp only [List.cons_append, List.nil_append, List.isChain_cons_cons]
    refine ⟨by simp, ?_⟩
    cases rest with
    | nil => exact List.isChain_singleton _
    | cons action rest => exact List.isChain_cons_cons.mpr ⟨fun _ => rfl, hrest⟩

variable {u : U} {attempts : ℕ → Option C}

theorem getFabClient_of_failures {n : ℕ} (hn : n < maxRetries) (h : ∀ j < n, attempts j = none) :
    getFabClient (.ok u : Except E U) attempts n = ⟨n, retried n, none⟩ := by
  induction n with
  | zero => rfl
  | succ n ih =>
    have hlt : n + 1 < 2 ^ 64 := lt_trans hn (by decide)
    rw [getFabClient, ih (by omega) fun j hj => h j (by omega), h n (by omega), retried_succ]
    simp only [FabClient.turn, Nat.mod_eq_of_lt hlt, if_neg (not_le.mpr hn)]

theorem getFabClient_last_retry (h : ∀ j < maxRetries, attempts j = none) :
    getFabClient (.ok u : Except E U) attempts maxRetries =
      ⟨maxRetries, retried (maxRetries - 1) ++ [.connect], none⟩ := by
  show (getFabClient _ attempts (maxRetries - 1)).turn _ (attempts (maxRetries - 1)) = _
  rw [getFabClient_of_failures (by decide) fun j hj => h j (lt_trans hj (by decide)),
    h _ (by decide)]
  rfl

theorem getFabClient_ne_error (n : ℕ) (e : E) :
    (getFabClient (.ok u : Except E U) attempts n).result ≠ some (.error e) := by
  induction n with
  | zero => simp [getFabClient]
  | succ n ih =>
    rw [getFabClient]
    generalize getFabClient (.ok u : Except E U) attempts n = s at ih ⊢
    unfold FabClient.turn
    split
    · exact ih
    · simp_all
    · simp
    · exact ih

theorem getFabClient_of_success {k : ℕ} (hk : k < maxRetries) (h : ∀ j < k, attempts j = none)
    (hsuccess : attempts k = some channel) (m : ℕ) :
    getFabClient (.ok u : Except E U) attempts (k + 1 + m) =
      ⟨k, retried k ++ [.connect], some (.ok channel)⟩ := by
  induction m with
  | zero =>
    rw [Nat.add_zero, getFabClient, getFabClient_of_failures hk h, hsuccess]
    rfl
  | succ m ih =>
    rw [← Nat.add_assoc, getFabClient, ih]
    rfl

theorem boundedConnect_of_success {k : ℕ} (hk : k < maxRetries) (h : ∀ j < k, attempts j = none)
    (hsuccess : attempts k = some channel) :
    BoundedConnect (.ok u : Except E U) attempts := by
  -- The run is a number of failures with their sleeps, or it has ended with the success.
  have hcases : ∀ n, n ≤ k ∧ getFabClient (.ok u : Except E U) attempts n = ⟨n, retried n, none⟩ ∨
      getFabClient (.ok u : Except E U) attempts n =
        ⟨k, retried k ++ [.connect], some (.ok channel)⟩ := by
    intro n
    rcases Nat.lt_or_ge k n with hlt | hle
    · obtain ⟨m, rfl⟩ := Nat.exists_eq_add_of_le hlt
      exact .inr (getFabClient_of_success hk h hsuccess m)
    · exact .inl ⟨hle, getFabClient_of_failures (by omega) fun j hj => h j (by omega)⟩
  constructor
  case attempts_le =>
    intro n
    rcases hcases n with ⟨hle, heq⟩ | heq
    · rw [heq, FabClient.attempts, count_retried]
      omega
    · rw [heq, FabClient.attempts, List.count_append, count_retried]
      exact hk
  case success =>
    intro k' channel' hsuccess' h' _
    obtain rfl : k = k' := by
      rcases lt_trichotomy k k' with hlt | heq | hlt
      · rw [h' k hlt] at hsuccess
        cases hsuccess
      · exact heq
      · rw [h k' hlt] at hsuccess'
        cases hsuccess'
    obtain rfl : channel = channel' := Option.some.inj (hsuccess.symm.trans hsuccess')
    refine ⟨k + 1, ?_⟩
    rw [getFabClient_of_success hk h hsuccess 0, FabClient.attempts, List.count_append,
      count_retried]
    exact ⟨rfl, rfl⟩
  case failure =>
    intro hfail
    rw [hfail k hk] at hsuccess
    cases hsuccess
  case sleeps =>
    intro n
    rcases hcases n with ⟨-, heq⟩ | heq
    · rw [heq, ← List.append_nil (retried n)]
      exact isChain_retried_append n List.isChain_nil
    · rw [heq]
      exact isChain_retried_append k (List.isChain_singleton _)

/-- An address that does not parse ends the function. Otherwise the connection is bounded exactly if
one of the first `maxRetries` attempts succeeds. -/
theorem bounded_connect_iff (attempts : ℕ → Option C) :
    (∀ (e : E) (n : ℕ), getFabClient (.error e : Except E U) attempts (n + 1) =
      ⟨0, [], some (.error e)⟩) ∧
    ∀ u : U, BoundedConnect (.ok u : Except E U) attempts ↔
      ∃ k < maxRetries, (attempts k).isSome := by
  constructor
  · intro e n
    induction n with
    | zero => rfl
    | succ n ih =>
      rw [getFabClient, ih]
      rfl
  · intro u
    constructor
    · intro hbounded
      by_contra hnone
      push Not at hnone
      obtain ⟨n, e, herror⟩ := hbounded.failure fun j hj => by simpa using hnone j hj
      exact getFabClient_ne_error n e herror
    · intro hsome
      classical
      obtain ⟨hlt, hfind⟩ := Nat.find_spec hsome
      obtain ⟨channel, hchannel⟩ := Option.isSome_iff_exists.mp hfind
      refine boundedConnect_of_success hlt (fun j hj => ?_) hchannel
      have hnot := Nat.find_min hsome hj
      simpa [lt_trans hj hlt] using hnot

end Model

/-- With an executor that is never there, the loop makes its attempt number 501 right after the
one before, and has not returned. -/
theorem connects_without_end :
    ¬BoundedConnect (.ok () : Except Unit Unit) (fun _ => (none : Option Unit)) ∧
      getFabClient (.ok () : Except Unit Unit) (fun _ => (none : Option Unit)) (maxRetries + 1) =
        ⟨maxRetries + 1, retried (maxRetries - 1) ++ [.connect, .connect], none⟩ := by
  constructor
  · intro hbounded
    obtain ⟨n, e, herror⟩ := hbounded.failure fun _ _ => rfl
    exact getFabClient_ne_error n e herror
  · rw [getFabClient, getFabClient_last_retry fun _ _ => rfl]
    simp only [FabClient.turn, List.append_assoc, List.cons_append, List.nil_append]
    rw [Nat.mod_eq_of_lt (by decide), if_pos (by decide)]

end Gateway

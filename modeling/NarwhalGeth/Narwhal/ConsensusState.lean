import NarwhalGeth.Narwhal.Types

/-!
# The state of consensus

`ConsensusState` with the operations that change it: `tryInsert`, which adds a delivered certificate
to the DAG, and `update`, which records a committed certificate and purges the DAG.
-/

namespace Narwhal

variable {K D : Type} [DecidableEq K] [DecidableEq D]

/-- How a call into consensus can fail: the errors it returns and the panics it may raise. -/
inductive Fault (K D : Type) where
  | certificateEquivocation (certificate existing : Certificate K D)
  | panic (message : String)
deriving DecidableEq

/-- The state that consensus needs to persist and to recover. -/
structure ConsensusState (K D : Type) where
  /-- The last committed round. -/
  lastCommittedRound : ℕ
  /-- The last committed round of each authority. -/
  lastCommitted : Assoc K ℕ
  /-- The latest committed sub-dag index. -/
  latestSubDagIndex : ℕ
  /-- The certificates that may still be committed. -/
  dag : Dag K D

/-- The entry of the DAG for a round and an authority. -/
def Dag.cell (dag : Dag K D) (r : ℕ) (k : K) : Option (D × Certificate K D) :=
  (dag.lookup r).bind fun table => table.lookup k

/-- Inserts a certificate unless its round is already committed for its origin. -/
def tryInsertInDag (dag : Dag K D) (lastCommitted : Assoc K ℕ) (certificate : Certificate K D) :
    Except (Fault K D) (Dag K D × Bool) :=
  let originLastCommittedRound := (lastCommitted.lookup certificate.origin).getD 0
  if certificate.round ≤ originLastCommittedRound then .ok (dag, false)
  else
    let table := (dag.lookup certificate.round).getD ∅
    let dag' := dag.insert certificate.round
      (table.insert certificate.origin (certificate.digest, certificate))
    match table.lookup certificate.origin with
    | some (_, existing) =>
      if existing.digest ≠ certificate.digest then
        .error (.certificateEquivocation certificate existing)
      else .ok (dag', true)
    | none => .ok (dag', true)

namespace ConsensusState

def new : ConsensusState K D where
  lastCommittedRound := 0
  lastCommitted := ∅
  latestSubDagIndex := 0
  dag := ∅

def tryInsert (state : ConsensusState K D) (certificate : Certificate K D) :
    Except (Fault K D) (ConsensusState K D × Bool) :=
  (tryInsertInDag state.dag state.lastCommitted certificate).map
    fun (dag, inserted) => ({ state with dag }, inserted)

/-- Records a committed certificate and purges what it makes obsolete. -/
def update (state : ConsensusState K D) (certificate : Certificate K D) (gcDepth : ℕ) :
    ConsensusState K D :=
  let lastCommitted :=
    match state.lastCommitted.lookup certificate.origin with
    | some r => state.lastCommitted.insert certificate.origin (max r certificate.round)
    | none => state.lastCommitted.insert certificate.origin certificate.round
  let lastCommittedRound := max state.lastCommittedRound certificate.round
  let dag := state.dag.retain fun r authorities =>
    if (r + gcDepth) % 2 ^ 64 ≥ lastCommittedRound then some authorities else none
  let dag := dag.retain fun r authorities =>
    if r ≤ certificate.round then
      let authorities := authorities.erase certificate.origin
      if authorities.entries.isEmpty then none else some authorities
    else some authorities
  { state with lastCommitted, lastCommittedRound, dag }

/-- The last committed round of an authority, zero if none was committed. -/
def committedRound (state : ConsensusState K D) (k : K) : ℕ := (state.lastCommitted.lookup k).getD 0

end ConsensusState

/-! ## Inserting -/

omit [DecidableEq D] in
theorem cell_insert (dag : Dag K D) (c : Certificate K D) (r : ℕ) (k : K) :
    Dag.cell (dag.insert c.round
      (((dag.lookup c.round).getD ∅).insert c.origin (c.digest, c))) r k =
      if r = c.round ∧ k = c.origin then some (c.digest, c) else Dag.cell dag r k := by
  unfold Dag.cell
  by_cases hr : r = c.round
  · subst hr
    rw [AList.lookup_insert, Option.bind_some]
    by_cases hk : k = c.origin
    · subst hk
      rw [AList.lookup_insert, if_pos ⟨rfl, rfl⟩]
    · rw [AList.lookup_insert_ne hk, if_neg fun h => hk h.2]
      cases dag.lookup c.round <;> simp
  · rw [AList.lookup_insert_ne hr, if_neg fun h => hr h.1]

/-- `dag'` is `dag` with the certificate written into its cell. -/
def WritesCell (dag dag' : Dag K D) (c : Certificate K D) : Prop :=
  ∀ r k, dag'.cell r k =
    if r = c.round ∧ k = c.origin then some (c.digest, c) else dag.cell r k

/-- An insertion does nothing below the committed round of the origin, is an error over a different
certificate in the same cell, and otherwise writes that one cell. -/
theorem tryInsertInDag_cases (dag : Dag K D) (lastCommitted : Assoc K ℕ) (c : Certificate K D) :
    (c.round ≤ (lastCommitted.lookup c.origin).getD 0 ∧
      tryInsertInDag dag lastCommitted c = .ok (dag, false)) ∨
    ((lastCommitted.lookup c.origin).getD 0 < c.round ∧ ∃ d existing,
      dag.cell c.round c.origin = some (d, existing) ∧ existing.digest ≠ c.digest ∧
      tryInsertInDag dag lastCommitted c = .error (.certificateEquivocation c existing)) ∨
    ((lastCommitted.lookup c.origin).getD 0 < c.round ∧
      (∀ d existing, dag.cell c.round c.origin = some (d, existing) →
        existing.digest = c.digest) ∧
      ∃ dag', tryInsertInDag dag lastCommitted c = .ok (dag', true) ∧ WritesCell dag dag' c) := by
  have hcell : ((dag.lookup c.round).getD ∅).lookup c.origin = dag.cell c.round c.origin := by
    unfold Dag.cell
    cases dag.lookup c.round <;> simp
  unfold tryInsertInDag
  dsimp only
  by_cases hle : c.round ≤ (lastCommitted.lookup c.origin).getD 0
  · left
    rw [if_pos hle]
    exact ⟨hle, rfl⟩
  · right
    have hlt := Nat.lt_of_not_le hle
    rw [if_neg hle, hcell]
    cases hlook : dag.cell c.round c.origin with
    | none => exact .inr ⟨hlt, fun _ _ h => (by cases h), _, rfl, cell_insert dag c⟩
    | some entry =>
      obtain ⟨d, existing⟩ := entry
      by_cases hd : existing.digest = c.digest
      · refine .inr ⟨hlt, ?_, _, if_neg (not_not.mpr hd), cell_insert dag c⟩
        rintro _ _ ⟨⟩
        exact hd
      · exact .inl ⟨hlt, d, existing, rfl, hd, if_pos hd⟩

namespace ConsensusState

/-- The insertion into a state that holds no conflicting certificate in the cell. -/
theorem tryInsert_cases (state : ConsensusState K D) (c : Certificate K D)
    (hcell : ∀ d existing, state.dag.cell c.round c.origin = some (d, existing) →
      existing.digest = c.digest) :
    (c.round ≤ state.committedRound c.origin ∧ state.tryInsert c = .ok (state, false)) ∨
    (state.committedRound c.origin < c.round ∧ ∃ dag,
      state.tryInsert c = .ok ({ state with dag }, true) ∧ WritesCell state.dag dag c) := by
  unfold tryInsert
  rcases tryInsertInDag_cases state.dag state.lastCommitted c with
    ⟨hle, heq⟩ | ⟨-, d, existing, hsome, hne, -⟩ | ⟨hlt, -, dag, heq, hwrite⟩
  · exact .inl ⟨hle, by rw [heq]; rfl⟩
  · exact absurd (hcell d existing hsome) hne
  · exact .inr ⟨hlt, dag, by rw [heq]; rfl, hwrite⟩

/-! ## Committing -/

section Update

variable (state : ConsensusState K D) (c : Certificate K D) (gcDepth : ℕ)

section

omit [DecidableEq D]

@[simp] theorem update_lastCommittedRound :
    (state.update c gcDepth).lastCommittedRound = max state.lastCommittedRound c.round := rfl

@[simp] theorem update_latestSubDagIndex :
    (state.update c gcDepth).latestSubDagIndex = state.latestSubDagIndex := rfl

@[simp] theorem update_committedRound (k : K) :
    (state.update c gcDepth).committedRound k =
      if k = c.origin then max (state.committedRound k) c.round else state.committedRound k := by
  unfold committedRound update
  by_cases hk : k = c.origin
  · subst hk
    cases hlook : state.lastCommitted.lookup c.origin with
    | none => simp
    | some r => simp
  · cases hlook : state.lastCommitted.lookup c.origin with
    | none => simp [AList.lookup_insert_ne hk, hk]
    | some r => simp [AList.lookup_insert_ne hk, hk]

/-- A commit purges the rounds past the garbage collection depth, by a sum that wraps around, and
the origin's certificates up to the committed one. -/
theorem update_cell (r : ℕ) (k : K) :
    (state.update c gcDepth).dag.cell r k =
      if (r + gcDepth) % 2 ^ 64 < max state.lastCommittedRound c.round ∨
          (r ≤ c.round ∧ k = c.origin) then none
      else state.dag.cell r k := by
  simp only [update, Dag.cell, Assoc.lookup_retain]
  generalize (r + gcDepth) % 2 ^ 64 = cut
  cases hrow : state.dag.lookup r with
  | none => simp
  | some table =>
    by_cases hgc : cut < max state.lastCommittedRound c.round
    · simp [hgc, Nat.not_le.mpr hgc]
    · rw [Option.bind_some, if_pos (by omega), Option.bind_some]
      by_cases hr : r ≤ c.round
      · rw [if_pos hr]
        by_cases hk : k = c.origin
        · subst hk
          have hdrop : cut < max state.lastCommittedRound c.round ∨
              (r ≤ c.round ∧ c.origin = c.origin) := .inr ⟨hr, rfl⟩
          rw [if_pos hdrop]
          split_ifs <;> simp
        · have hkeep : ¬(cut < max state.lastCommittedRound c.round ∨
              (r ≤ c.round ∧ k = c.origin)) := by tauto
          rw [if_neg hkeep, Option.bind_some]
          split_ifs with hempty
          · rw [Option.bind_none, ← AList.lookup_erase_ne hk]
            rw [List.isEmpty_iff] at hempty
            unfold AList.lookup
            rw [hempty, List.dlookup_nil]
          · rw [Option.bind_some, AList.lookup_erase_ne hk]
      · rw [if_neg hr, Option.bind_some, if_neg (by tauto)]

end

end Update

omit [DecidableEq D] in
theorem foldl_update_latestSubDagIndex (state : ConsensusState K D) (cs : List (Certificate K D))
    (gcDepth : ℕ) :
    (cs.foldl (fun state x => state.update x gcDepth) state).latestSubDagIndex =
      state.latestSubDagIndex := by
  induction cs generalizing state with
  | nil => rfl
  | cons c cs ih => exact (ih _).trans (state.update_latestSubDagIndex c gcDepth)

omit [DecidableEq D] in
theorem committedRound_le_foldl_update (state : ConsensusState K D) (cs : List (Certificate K D))
    (gcDepth : ℕ) (k : K) :
    state.committedRound k ≤
      (cs.foldl (fun state x => state.update x gcDepth) state).committedRound k := by
  induction cs generalizing state with
  | nil => exact le_rfl
  | cons c cs ih =>
    refine le_trans ?_ (ih _)
    rw [update_committedRound]
    split_ifs <;> omega

end ConsensusState

end Narwhal

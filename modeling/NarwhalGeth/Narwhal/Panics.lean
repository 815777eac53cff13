import NarwhalGeth.Narwhal.Arrival

/-!
# Panics of the synchronizer

The maps of suspended certificates and of missing parents refer to each other, and the synchronizer
panics if they disagree. They agree as long as no fetched or own certificate reaches the critical
section at the garbage collection boundary while it is suspended: there the check of the parents is
skipped.
-/

namespace Narwhal

namespace Synchronizer

variable {K D : Type} [DecidableEq D] {s s' : SuspendedCertificate K D}
  {missing : Assoc (ℕ × D) (List D)} {p : Certificate K D} {x digest child : D} {gcRound : ℕ}

/-- The suspended certificate after one of its missing parents was accepted, unless it was the last
one. -/
def SuspendedCertificate.without (s : SuspendedCertificate K D) (digest : D) :
    Option (SuspendedCertificate K D) :=
  let missingParents := s.missingParents.filter (· ≠ digest)
  if missingParents.isEmpty then none else some { s with missingParents }

theorem SuspendedCertificate.mem_without (h : s.without digest = some s') :
    s'.certificate = s.certificate ∧ s'.missingParents ≠ [] ∧
      ∀ d, d ∈ s'.missingParents ↔ d ∈ s.missingParents ∧ d ≠ digest := by
  unfold SuspendedCertificate.without at h
  dsimp only at h
  split_ifs at h with hempty
  cases h
  refine ⟨rfl, fun hnil => hempty (List.isEmpty_iff.mpr hnil), fun d => ?_⟩
  simp

theorem SuspendedCertificate.without_of_mem {d : D} (hd : d ∈ s.missingParents) (hne : d ≠ digest) :
    ∃ s', s.without digest = some s' := by
  have hmem : d ∈ s.missingParents.filter (· ≠ digest) := by simp [hd, hne]
  refine ⟨_, if_neg fun hempty => ?_⟩
  rw [List.isEmpty_iff.mp hempty] at hmem
  exact List.not_mem_nil hmem

namespace State

/-! ## What the operations do -/

/-- A queue entry for a released certificate. -/
def entry (s : SuspendedCertificate K D) : ℕ × D := (s.certificate.round, s.certificate.digest)

theorem acceptChild_of_lookup (digest : D) {t : Traversal K D}
    (hs : t.suspended.lookup child = some s) :
    ∃ suspended released,
      acceptChild digest t child =
        .ok ⟨suspended, t.toTraverse ++ released.map entry, t.toAccept ++ released⟩ ∧
      (∀ x, suspended.lookup x = if x = child then s.without digest else t.suspended.lookup x) ∧
      ∀ r ∈ released, r.certificate = s.certificate := by
  unfold acceptChild SuspendedCertificate.without
  rw [hs]
  dsimp only
  split_ifs with hempty
  · refine ⟨_, [{ s with missingParents := s.missingParents.filter (· ≠ digest) }], rfl,
      fun x => ?_, by simp⟩
    split_ifs with hx
    · rw [hx, AList.lookup_erase]
    · exact AList.lookup_erase_ne hx
  · refine ⟨t.suspended.insert child
      { s with missingParents := s.missingParents.filter (· ≠ digest) }, [], by simp, fun x => ?_,
      by simp⟩
    split_ifs with hx
    · rw [hx, AList.lookup_insert]
    · exact AList.lookup_insert_ne hx

theorem foldlM_acceptChild (digest : D) {children : List D} (hnodup : children.Nodup)
    {t : Traversal K D} (hsuspended : ∀ x ∈ children, ∃ s, t.suspended.lookup x = some s) :
    ∃ suspended released,
      children.foldlM (acceptChild digest) t =
        .ok ⟨suspended, t.toTraverse ++ released.map entry, t.toAccept ++ released⟩ ∧
      (∀ x, suspended.lookup x = if x ∈ children then
        (t.suspended.lookup x).bind (·.without digest) else t.suspended.lookup x) ∧
      ∀ r ∈ released, ∃ x s, t.suspended.lookup x = some s ∧ r.certificate = s.certificate := by
  induction children generalizing t with
  | nil => exact ⟨t.suspended, [], by simp [pure, Except.pure], by simp, by simp⟩
  | cons child children ih =>
    obtain ⟨hchild, hnodup⟩ := List.nodup_cons.mp hnodup
    obtain ⟨s, hs⟩ := hsuspended child List.mem_cons_self
    obtain ⟨suspended, first, hstep, hlookup, hfirst⟩ := acceptChild_of_lookup digest hs
    have hne : ∀ x ∈ children, x ≠ child := fun x hx heq => hchild (heq ▸ hx)
    obtain ⟨suspended', rest, hfold, hlookup', hrest⟩ := ih hnodup
      (t := ⟨suspended, t.toTraverse ++ first.map entry, t.toAccept ++ first⟩) (fun x hx => by
        rw [hlookup, if_neg (hne x hx)]
        exact hsuspended x (List.mem_cons_of_mem _ hx))
    refine ⟨suspended', first ++ rest, ?_, fun x => ?_, fun r hr => ?_⟩
    · rw [List.foldlM_cons, hstep, List.map_append, ← List.append_assoc, ← List.append_assoc]
      exact hfold
    · rw [hlookup', hlookup]
      by_cases hx : x = child
      · rw [if_neg (hx ▸ hchild), if_pos hx, if_pos (hx ▸ List.mem_cons_self), hx, hs]
        rfl
      · simp [hx]
    · rcases List.mem_append.mp hr with hr | hr
      · exact ⟨child, s, hs, hfirst r hr⟩
      · obtain ⟨x, s', hs', heq⟩ := hrest r hr
        dsimp only at hs'
        rw [hlookup] at hs'
        split_ifs at hs' with hx
        · exact ⟨child, s, hs, heq.trans (SuspendedCertificate.mem_without hs').1⟩
        · exact ⟨x, s', hs', heq⟩

theorem foldlM_insertMissing {missingRound : ℕ} {ds : List D} (hnodup : ds.Nodup)
    (hnew : ∀ d ∈ ds, child ∉ (missing.lookup (missingRound, d)).getD []) :
    ∃ missing', ds.foldlM (insertMissing (K := K) missingRound child) missing = .ok missing' ∧
      ∀ k, missing'.lookup k = if k.1 = missingRound ∧ k.2 ∈ ds then
        some (child :: (missing.lookup k).getD []) else missing.lookup k := by
  induction ds generalizing missing with
  | nil => exact ⟨missing, rfl, by simp⟩
  | cons d ds ih =>
    obtain ⟨hd, hnodup⟩ := List.nodup_cons.mp hnodup
    have hstep : insertMissing (K := K) missingRound child missing d = .ok (missing.insert
        (missingRound, d) (child :: (missing.lookup (missingRound, d)).getD [])) :=
      if_neg (hnew d List.mem_cons_self)
    have hne : ∀ e ∈ ds, (missingRound, e) ≠ (missingRound, d) := by
      rintro e he heq
      cases heq
      exact hd he
    have hrest : ∀ e ∈ ds, child ∉
        ((missing.insert (missingRound, d) (child :: (missing.lookup (missingRound, d)).getD [])
          ).lookup (missingRound, e)).getD [] := by
      intro e he
      rw [AList.lookup_insert_ne (hne e he)]
      exact hnew e (List.mem_cons_of_mem _ he)
    obtain ⟨missing', hfold, hlookup⟩ := ih hnodup hrest
    refine ⟨missing', ?_, fun k => ?_⟩
    · rw [List.foldlM_cons, hstep]
      exact hfold
    · obtain ⟨r, e⟩ := k
      rw [hlookup]
      by_cases hk : (r, e) = (missingRound, d)
      · cases hk
        rw [if_neg fun h => hd h.2, AList.lookup_insert, if_pos ⟨rfl, List.mem_cons_self⟩]
      · rw [AList.lookup_insert_ne hk]
        have hiff : (r = missingRound ∧ e ∈ d :: ds) ↔ r = missingRound ∧ e ∈ ds := by
          constructor
          · rintro ⟨rfl, he⟩
            exact ⟨rfl, (List.mem_cons.mp he).resolve_left fun heq => hk (by rw [heq])⟩
          · rintro ⟨hr, he⟩
            exact ⟨hr, List.mem_cons_of_mem _ he⟩
        simp only [hiff]

theorem foldlM_releaseAboveGc {digests : List D}
    (acc : List (SuspendedCertificate K D) × Assoc D (SuspendedCertificate K D))
    (hnodup : digests.Nodup) (hsuspended : ∀ d ∈ digests, ∃ s, acc.2.lookup d = some s) :
    ∃ acc', digests.foldlM releaseAboveGc acc = .ok acc' ∧
      ∀ x, acc'.2.lookup x = if x ∈ digests then none else acc.2.lookup x := by
  induction digests generalizing acc with
  | nil => exact ⟨acc, rfl, by simp⟩
  | cons d digests ih =>
    obtain ⟨hd, hnodup⟩ := List.nodup_cons.mp hnodup
    obtain ⟨s, hs⟩ := hsuspended d List.mem_cons_self
    have hne : ∀ e ∈ digests, e ≠ d := fun e he heq => hd (heq ▸ he)
    obtain ⟨acc', hfold, hlookup⟩ := ih
      (acc.1 ++ [{ s with missingParents := [] }], acc.2.erase d) hnodup (fun e he => by
        rw [AList.lookup_erase_ne (hne e he)]
        exact hsuspended e (List.mem_cons_of_mem _ he))
    refine ⟨acc', ?_, fun x => ?_⟩
    · rw [List.foldlM_cons, releaseAboveGc, hs]
      exact hfold
    · rw [hlookup]
      by_cases hx : x = d
      · rw [hx, AList.lookup_erase, if_pos List.mem_cons_self, ite_self]
      · rw [AList.lookup_erase_ne hx]
        simp [hx]

theorem lookup_foldl_erase_of_ne {entries : List (Sigma fun _ : ℕ × D => List D)}
    {suspended : Assoc D (SuspendedCertificate K D)} (hne : ∀ e ∈ entries, e.1.2 ≠ x) :
    (entries.foldl (fun suspended e => suspended.erase e.1.2) suspended).lookup x =
      suspended.lookup x := by
  induction entries generalizing suspended with
  | nil => rfl
  | cons e entries ih =>
    rw [List.foldl_cons, ih fun e' he' => hne e' (List.mem_cons_of_mem _ he')]
    exact AList.lookup_erase_ne (hne e List.mem_cons_self).symm

/-- No key of the missing certificates up to the garbage collection round has this digest. -/
def Unexpired (state : State K D) (gcRound : ℕ) (x : D) : Prop :=
  ∀ k children, state.missing.lookup k = some children → k.1 ≤ gcRound → k.2 ≠ x

/-- Garbage collection goes through if the certificates above its round are suspended, and keeps
what is neither expired nor released. -/
theorem runGc_of_suspended [SetOrder D] {state : State K D}
    (hsuspended : ∀ x ∈ state.certificatesAboveGcRound gcRound,
      (∃ s, state.suspended.lookup x = some s) ∧ state.Unexpired gcRound x) :
    ∃ released state', state.runGc gcRound = .ok (released, state') ∧
      (∀ x ∈ state.certificatesAboveGcRound gcRound, state'.suspended.lookup x = none) ∧
      (∀ x ∉ state.certificatesAboveGcRound gcRound, state.Unexpired gcRound x →
        state'.suspended.lookup x = state.suspended.lookup x) ∧
      ∀ k children, state'.missing.lookup k = some children ↔
        gcRound < k.1 ∧ state.missing.lookup k = some children := by
  set expired := state.missing.entries.filter fun e => e.1.1 ≤ gcRound with hexpired
  have hkept : ∀ x, state.Unexpired gcRound x →
      (expired.foldl (fun suspended e => suspended.erase e.1.2) state.suspended).lookup x =
        state.suspended.lookup x := by
    intro x hx
    refine lookup_foldl_erase_of_ne fun e he => ?_
    obtain ⟨he, hround⟩ := List.mem_filter.mp he
    exact hx e.1 e.2 (Assoc.mem_entries_iff.mp he) (of_decide_eq_true hround)
  have hnodup : (state.certificatesAboveGcRound gcRound).Nodup :=
    SetOrder.nodup_order.mpr (List.nodup_dedup _)
  obtain ⟨acc, hfold, hlookup⟩ := foldlM_releaseAboveGc
    ([], expired.foldl (fun suspended e => suspended.erase e.1.2) state.suspended) hnodup
    (fun x hx => by
      rw [hkept x (hsuspended x hx).2]
      exact (hsuspended x hx).1)
  refine ⟨acc.1, _, by rw [runGc, ← hexpired, hfold]; rfl, fun x hx => ?_, fun x hx hx' => ?_,
    fun k children => ?_⟩
  · rw [hlookup, if_pos hx]
  · rw [hlookup, if_neg hx, hkept x hx']
  · rw [Assoc.lookup_retain, ← Nat.not_le]
    split_ifs with hle <;> simp [hle]

/-! ## The maps agree -/

end State

/-- A digest stands for one round and one set of parents without duplicates, which are of the round
before. -/
structure WellLinked (received : Set (Certificate K D)) : Prop where
  round : ∀ x ∈ received, ∀ y ∈ received, x.digest = y.digest → x.round = y.round
  parents : ∀ x ∈ received, ∀ y ∈ received, x.digest = y.digest → x.parents = y.parents
  nodup : ∀ c ∈ received, c.parents.Nodup
  above : ∀ p ∈ received, ∀ c ∈ received, p.digest ∈ c.parents → p.round + 1 = c.round

namespace State

variable {received : Set (Certificate K D)} {collected : ℕ} {stored stored' : D → Prop}
  {state : State K D}

/-- Above the round last collected, a suspended certificate waits for its parents that are not
stored, and a missing certificate has exactly the children that wait for it. -/
structure Linked (received : Set (Certificate K D)) (collected : ℕ) (stored : D → Prop)
    (state : State K D) : Prop where
  received : ∀ x s, state.suspended.lookup x = some s → s.certificate ∈ received
  digest : ∀ x s, state.suspended.lookup x = some s → s.certificate.digest = x
  waits : ∀ x s, state.suspended.lookup x = some s → s.missingParents ≠ []
  missing : ∀ x s, state.suspended.lookup x = some s → collected + 1 < s.certificate.round →
    ∀ d, d ∈ s.missingParents ↔ d ∈ s.certificate.parents ∧ ¬stored d
  recorded : ∀ x s, state.suspended.lookup x = some s → collected + 1 < s.certificate.round →
    ∀ d ∈ s.missingParents, ∃ children,
      state.missing.lookup (s.certificate.round - 1, d) = some children ∧ x ∈ children
  keys : ∀ k children, state.missing.lookup k = some children →
    collected < k.1 ∧ children ≠ [] ∧ children.Nodup
  children : ∀ k children, state.missing.lookup k = some children → ∀ x ∈ children,
    ∃ s, state.suspended.lookup x = some s ∧ s.certificate.round = k.1 + 1 ∧
      k.2 ∈ s.missingParents

namespace Linked

theorem congr (h : Linked received collected stored state) (hiff : ∀ d, stored d ↔ stored' d) :
    Linked received collected stored' state := by
  have heq : stored = stored' := funext fun d => propext (hiff d)
  rwa [← heq]

theorem empty : Linked received collected stored (empty : State K D) where
  received x s hs := by simp [State.empty] at hs
  digest x s hs := by simp [State.empty] at hs
  waits x s hs := by simp [State.empty] at hs
  missing x s hs := by simp [State.empty] at hs
  recorded x s hs := by simp [State.empty] at hs
  keys k children hk := by simp [State.empty] at hk
  children k children hk := by simp [State.empty] at hk

/-- The children of a missing certificate are the suspended certificates that wait for it. -/
theorem mem_children (h : Linked received collected stored state) (hlinked : WellLinked received)
    (hp : p ∈ received) (hs : state.suspended.lookup x = some s)
    (hround : collected + 1 < s.certificate.round) (hd : p.digest ∈ s.missingParents) :
    ∃ children, state.missing.lookup (p.round, p.digest) = some children ∧ x ∈ children := by
  have hparent := ((h.missing x s hs hround _).mp hd).1
  have habove := hlinked.above p hp _ (h.received x s hs) hparent
  rw [show p.round = s.certificate.round - 1 by omega]
  exact h.recorded x s hs hround _ hd

theorem store (h : Linked received collected stored state) (hlinked : WellLinked received)
    (hp : p ∈ received) (hnone : state.missing.lookup (p.round, p.digest) = none) :
    Linked received collected (fun d => stored d ∨ d = p.digest) state where
  received := h.received
  digest := h.digest
  waits := h.waits
  missing x s hs hround d := by
    rw [h.missing x s hs hround d]
    constructor
    · rintro ⟨hd, hnew⟩
      refine ⟨hd, ?_⟩
      rintro (hold | rfl)
      · exact hnew hold
      · obtain ⟨children, hchildren, -⟩ := h.mem_children hlinked hp hs hround
          ((h.missing x s hs hround _).mpr ⟨hd, hnew⟩)
        rw [hnone] at hchildren
        cases hchildren
    · rintro ⟨hd, hnew⟩
      exact ⟨hd, fun hold => hnew (.inl hold)⟩
  recorded := h.recorded
  keys := h.keys
  children := h.children

section Release

variable {p : Certificate K D} {children : List D} {suspended' : Assoc D (SuspendedCertificate K D)}
  (h : Linked received collected stored state) (hlinked : WellLinked received) (hp : p ∈ received)
  (hchildren : state.missing.lookup (p.round, p.digest) = some children)
  (hlookup : ∀ x, suspended'.lookup x = if x ∈ children then
    (state.suspended.lookup x).bind (·.without p.digest) else state.suspended.lookup x)

include h hlinked hp hchildren hlookup

/-- A certificate that stays suspended waits for the same parents but the accepted one. -/
theorem lookup_cases (hs' : suspended'.lookup x = some s') :
    ∃ s, state.suspended.lookup x = some s ∧ s'.certificate = s.certificate ∧
      s'.missingParents ≠ [] ∧ (collected + 1 < s.certificate.round →
        ∀ d, d ∈ s'.missingParents ↔ d ∈ s.missingParents ∧ d ≠ p.digest) := by
  rw [hlookup] at hs'
  split_ifs at hs' with hx
  · obtain ⟨s, hs, hwithout⟩ := Option.bind_eq_some_iff.mp hs'
    obtain ⟨hcert, hne, hmem⟩ := SuspendedCertificate.mem_without hwithout
    exact ⟨s, hs, hcert, hne, fun _ => hmem⟩
  · refine ⟨s', hs', rfl, h.waits x s' hs', fun hround d => ⟨fun hd => ⟨hd, ?_⟩, fun hd => hd.1⟩⟩
    rintro rfl
    obtain ⟨children', hchildren', hmem⟩ := h.mem_children hlinked hp hs' hround hd
    rw [hchildren] at hchildren'
    cases hchildren'
    exact hx hmem

theorem release : Linked received collected (fun d => stored d ∨ d = p.digest)
    ⟨suspended', state.missing.erase (p.round, p.digest)⟩ where
  received x s' hs' := by
    obtain ⟨s, hs, hcert, -⟩ := h.lookup_cases hlinked hp hchildren hlookup hs'
    rw [hcert]
    exact h.received x s hs
  digest x s' hs' := by
    obtain ⟨s, hs, hcert, -⟩ := h.lookup_cases hlinked hp hchildren hlookup hs'
    rw [hcert]
    exact h.digest x s hs
  waits x s' hs' := by
    obtain ⟨s, hs, -, hne, -⟩ := h.lookup_cases hlinked hp hchildren hlookup hs'
    exact hne
  missing x s' hs' hround d := by
    obtain ⟨s, hs, hcert, -, hmem⟩ := h.lookup_cases hlinked hp hchildren hlookup hs'
    rw [hcert] at hround ⊢
    rw [hmem hround, h.missing x s hs hround, and_assoc, not_or]
  recorded x s' hs' hround d hd := by
    obtain ⟨s, hs, hcert, -, hmem⟩ := h.lookup_cases hlinked hp hchildren hlookup hs'
    rw [hcert] at hround ⊢
    obtain ⟨hd, hne⟩ := (hmem hround d).mp hd
    obtain ⟨children', hrecorded, hx⟩ := h.recorded x s hs hround d hd
    refine ⟨children', ?_, hx⟩
    rw [AList.lookup_erase_ne fun heq => hne (congrArg Prod.snd heq)]
    exact hrecorded
  keys k children' hk := h.keys k children' (Assoc.lookup_of_lookup_erase hk)
  children k children' hk x hx := by
    have hne : k ≠ (p.round, p.digest) := by
      rintro rfl
      rw [AList.lookup_erase] at hk
      cases hk
    obtain ⟨s, hs, hround, hd⟩ := h.children k children' (Assoc.lookup_of_lookup_erase hk) x hx
    dsimp only
    rw [hlookup]
    split_ifs with hmem
    · -- The child waits for another parent of the same round.
      obtain ⟨s₀, hs₀, hround₀, -⟩ := h.children _ children hchildren x hmem
      rw [hs] at hs₀
      cases hs₀
      have hkey : k.1 = p.round := by
        dsimp only at hround₀
        omega
      have hdigest : k.2 ≠ p.digest := fun heq => hne (Prod.ext hkey heq)
      obtain ⟨s', hs'⟩ := SuspendedCertificate.without_of_mem hd hdigest
      obtain ⟨hcert, -, hiff⟩ := SuspendedCertificate.mem_without hs'
      refine ⟨s', by rw [hs]; exact hs', by rw [hcert]; exact hround, (hiff _).mpr ⟨hd, hdigest⟩⟩
    · exact ⟨s, hs, hround, hd⟩

end Release

/-! ## No panic -/

theorem acceptChildrenLoop [SetOrder D] (hlinked : WellLinked received) {fuel : ℕ}
    {t : Traversal K D}
    (hfuel : t.suspended.keys.length + t.toTraverse.length < fuel)
    (h : Linked received collected stored ⟨t.suspended, missing⟩)
    (hqueue : ∀ e ∈ t.toTraverse, ∃ p ∈ received, e = (p.round, p.digest)) :
    ∃ released state',
      State.acceptChildrenLoop fuel missing t = .ok (t.toAccept ++ released, state') ∧
      Linked received collected (fun d => stored d ∨ (∃ e ∈ t.toTraverse, e.2 = d) ∨
        ∃ s ∈ released, s.certificate.digest = d) state' ∧
      ∀ x, t.suspended.lookup x = none → state'.suspended.lookup x = none := by
  induction fuel generalizing t missing stored with
  | zero => omega
  | succ fuel ih =>
    unfold State.acceptChildrenLoop
    cases htraverse : t.toTraverse with
    | nil => exact ⟨[], _, by simp, h.congr (by simp), fun x hx => hx⟩
    | cons e rest =>
      rw [htraverse, List.length_cons] at hfuel
      rw [htraverse] at hqueue
      obtain ⟨p, hp, rfl⟩ := hqueue e List.mem_cons_self
      dsimp only
      cases hmissing : missing.lookup (p.round, p.digest) with
      | none =>
        obtain ⟨released, state', hloop, hstate, hnone⟩ := ih (t := { t with toTraverse := rest })
          (by dsimp only; omega) (h.store hlinked hp hmissing)
          fun e he => hqueue e (List.mem_cons_of_mem _ he)
        refine ⟨released, state', hloop, hstate.congr fun d => ?_, hnone⟩
        simp [or_assoc, eq_comm]
      | some children =>
        obtain ⟨suspended, first, hfold, hlookup, hfirst⟩ := foldlM_acceptChild p.digest
          (SetOrder.nodup_order.mpr (h.keys _ _ hmissing).2.2) (t := { t with toTraverse := rest })
          fun x hx => (h.children _ _ hmissing x (SetOrder.mem_order.mp hx)).imp fun s hs => hs.1
        simp only [SetOrder.mem_order] at hlookup
        have hsize := Except.foldlM_invariant
          (I := fun t' => t'.suspended.keys.length + t'.toTraverse.length =
            t.suspended.keys.length + rest.length)
          (fun _ _ _ _ hsize hok => (acceptChild_size hok).trans hsize) rfl hfold
        obtain ⟨released, state', hloop, hstate, hnone⟩ := ih
          (t := ⟨suspended, rest ++ first.map entry, t.toAccept ++ first⟩)
          (lt_of_eq_of_lt hsize (by omega))
          (h.release hlinked hp hmissing hlookup) fun e he => by
            rcases List.mem_append.mp he with he | he
            · exact hqueue e (List.mem_cons_of_mem _ he)
            · obtain ⟨r, hr, rfl⟩ := List.mem_map.mp he
              obtain ⟨x, s, hs, hcert⟩ := hfirst r hr
              exact ⟨r.certificate, hcert ▸ h.received x s hs, rfl⟩
        refine ⟨first ++ released, state', ?_, hstate.congr fun d => ?_, fun x hx => hnone x ?_⟩
        · rw [← List.append_assoc, ← hloop]
          exact congrArg (· >>= _) hfold
        · simp [or_assoc, eq_comm, or_and_right, exists_or, entry]
        · rw [hlookup]
          split_ifs <;> simp [hx]

theorem acceptChildren [SetOrder D] (h : Linked received collected stored state)
    (hlinked : WellLinked received) {c : Certificate K D} (hc : c ∈ received)
    (hnone : state.suspended.lookup c.digest = none) :
    ∃ released state', state.acceptChildren c.round c.digest = .ok (released, state') ∧
      Linked received collected
        (fun d => stored d ∨ d = c.digest ∨ ∃ s ∈ released, s.certificate.digest = d) state' ∧
      ∀ x, state.suspended.lookup x = none → state'.suspended.lookup x = none := by
  have hfuel : state.suspended.keys.length + [(c.round, c.digest)].length <
      state.suspended.keys.length + 2 := by simp
  obtain ⟨released, state', hloop, hstate, hshrinks⟩ := Linked.acceptChildrenLoop hlinked
    (t := ⟨state.suspended, [(c.round, c.digest)], []⟩) hfuel h fun e he =>
      ⟨c, hc, List.mem_singleton.mp he⟩
  refine ⟨released, state', ?_, hstate.congr (by simp [eq_comm]), hshrinks⟩
  rw [State.acceptChildren, hnone]
  exact hloop

section Insert

variable {c : Certificate K D} {missingParents : List D}

section

variable (h : Linked received collected stored state)

include h

theorem not_mem_children (hnone : state.suspended.lookup c.digest = none) (k : ℕ × D) :
    c.digest ∉ (state.missing.lookup k).getD [] := by
  intro hmem
  cases hk : state.missing.lookup k with
  | none =>
    rw [hk] at hmem
    exact List.not_mem_nil hmem
  | some children =>
    rw [hk] at hmem
    obtain ⟨s, hs, -⟩ := h.children k children hk _ hmem
    rw [hnone] at hs
    cases hs

theorem suspend (hc : c ∈ received) (hround : collected + 1 < c.round)
    (hnone : state.suspended.lookup c.digest = none) (hne : missingParents ≠ [])
    (hmissing : ∀ d, d ∈ missingParents ↔ d ∈ c.parents ∧ ¬stored d)
    (hlookup : ∀ k, missing.lookup k = if k.1 = c.round - 1 ∧ k.2 ∈ missingParents then
      some (c.digest :: (state.missing.lookup k).getD []) else state.missing.lookup k) :
    Linked received collected stored
      ⟨state.suspended.insert c.digest ⟨c, missingParents⟩, missing⟩ where
  received x s hs := by
    rcases Assoc.lookup_insert_cases hs with ⟨-, rfl⟩ | hs
    · exact hc
    · exact h.received x s hs
  digest x s hs := by
    rcases Assoc.lookup_insert_cases hs with ⟨rfl, rfl⟩ | hs
    · rfl
    · exact h.digest x s hs
  waits x s hs := by
    rcases Assoc.lookup_insert_cases hs with ⟨-, rfl⟩ | hs
    · exact hne
    · exact h.waits x s hs
  missing x s hs hlt := by
    rcases Assoc.lookup_insert_cases hs with ⟨-, rfl⟩ | hs
    · exact hmissing
    · exact h.missing x s hs hlt
  recorded x s hs hlt d hd := by
    dsimp only
    rw [hlookup]
    rcases Assoc.lookup_insert_cases hs with ⟨rfl, rfl⟩ | hs
    · exact ⟨_, if_pos ⟨rfl, hd⟩, List.mem_cons_self⟩
    · obtain ⟨children, hchildren, hx⟩ := h.recorded x s hs hlt d hd
      rw [hchildren]
      split_ifs
      · exact ⟨_, rfl, List.mem_cons_of_mem _ hx⟩
      · exact ⟨_, rfl, hx⟩
  keys k children hk := by
    dsimp only at hk
    rw [hlookup] at hk
    split_ifs at hk with hnew
    · cases hk
      refine ⟨by omega, List.cons_ne_nil _ _, List.nodup_cons.mpr ⟨h.not_mem_children hnone k, ?_⟩⟩
      cases hold : state.missing.lookup k with
      | none => exact List.nodup_nil
      | some children => exact (h.keys k children hold).2.2
    · exact h.keys k children hk
  children k children hk x hx := by
    have hold : ∀ children, state.missing.lookup k = some children → x ∈ children →
        ∃ s, (state.suspended.insert c.digest ⟨c, missingParents⟩).lookup x = some s ∧
          s.certificate.round = k.1 + 1 ∧ k.2 ∈ s.missingParents := by
      intro children hk hx
      obtain ⟨s, hs, hchild⟩ := h.children k children hk x hx
      have hdigest : x ≠ c.digest := by
        rintro rfl
        rw [hnone] at hs
        cases hs
      exact ⟨s, by rwa [AList.lookup_insert_ne hdigest], hchild⟩
    dsimp only at hk
    rw [hlookup] at hk
    split_ifs at hk with hnew
    · cases hk
      rcases List.mem_cons.mp hx with rfl | hx
      · exact ⟨_, AList.lookup_insert _, by dsimp only; omega, hnew.2⟩
      · cases hk : state.missing.lookup k with
        | none =>
          rw [hk] at hx
          exact absurd hx List.not_mem_nil
        | some children =>
          rw [hk] at hx
          exact hold children hk hx
    · exact hold children hk hx

theorem insert (hc : c ∈ received) (hround : collected + 1 < c.round)
    (hnone : state.suspended.lookup c.digest = none) (hnodup : missingParents.Nodup)
    (hne : missingParents ≠ []) (hmissing : ∀ d, d ∈ missingParents ↔ d ∈ c.parents ∧ ¬stored d)
    (allowReinsert : Bool) :
    ∃ state', state.insert c missingParents allowReinsert = .ok state' ∧
      Linked received collected stored state' := by
  have hnew : ∀ d ∈ missingParents,
      c.digest ∉ (state.missing.lookup (c.round - 1, d)).getD [] :=
    fun d _ => h.not_mem_children hnone (c.round - 1, d)
  obtain ⟨missing, hfold, hlookup⟩ := foldlM_insertMissing (K := K) hnodup hnew
  refine ⟨_, ?_, h.suspend hc hround hnone hne hmissing hlookup⟩
  unfold State.insert
  dsimp only
  rw [hnone]
  dsimp only
  rw [hfold]
  rfl

theorem missing_of_digest (hlinked : WellLinked received) (hc : c ∈ received)
    (hround : collected + 1 < c.round) (hs : state.suspended.lookup c.digest = some s) (d : D) :
    d ∈ s.missingParents ↔ d ∈ c.parents ∧ ¬stored d := by
  have hreceived := h.received _ s hs
  have hdigest := h.digest _ s hs
  rw [h.missing _ s hs (hlinked.round _ hreceived c hc hdigest ▸ hround),
    hlinked.parents _ hreceived c hc hdigest]

theorem reinsert (hlinked : WellLinked received) (hc : c ∈ received)
    (hround : collected + 1 < c.round) (hs : state.suspended.lookup c.digest = some s)
    (hmissing : ∀ d, d ∈ missingParents ↔ d ∈ c.parents ∧ ¬stored d) :
    state.insert c missingParents true = .ok state := by
  have hiff : ∀ d, d ∈ s.missingParents ↔ d ∈ missingParents := fun d =>
    (h.missing_of_digest hlinked hc hround hs d).trans (hmissing d).symm
  unfold State.insert
  dsimp only
  rw [hs]
  exact (if_pos rfl).trans (if_pos ⟨fun d hd => (hiff d).mp hd, fun d hd => (hiff d).mpr hd⟩)

end

end Insert

section

variable (h : Linked received collected stored state)

include h

theorem unexpired (hlinked : WellLinked received) (hs : state.suspended.lookup x = some s)
    (hround : gcRound < s.certificate.round) : state.Unexpired gcRound x := by
  rintro k children hk hle rfl
  obtain ⟨hkey, hne, -⟩ := h.keys k children hk
  obtain ⟨y, hy⟩ := List.exists_mem_of_ne_nil _ hne
  obtain ⟨s', hs', hround', hd⟩ := h.children k children hk y hy
  have hparent := ((h.missing y s' hs' (by omega) _).mp hd).1
  rw [← h.digest _ s hs] at hparent
  have habove := hlinked.above _ (h.received _ s hs) _ (h.received y s' hs') hparent
  omega

theorem suspended_of_above [SetOrder D] (hx : x ∈ state.certificatesAboveGcRound gcRound) :
    ∃ s, state.suspended.lookup x = some s ∧ s.certificate.round = gcRound + 1 := by
  obtain ⟨k, children, hk, hround, hx⟩ := mem_certificatesAboveGcRound.mp hx
  obtain ⟨s, hs, hsround, -⟩ := h.children k children hk x hx
  exact ⟨s, hs, by rw [hsround, hround]⟩

theorem runGc [SetOrder D] (hlinked : WellLinked received) (hle : collected ≤ gcRound) :
    ∃ released state', state.runGc gcRound = .ok (released, state') ∧
      Linked received gcRound stored state' ∧ ∀ r ∈ released, r.certificate ∈ received ∧
        state'.suspended.lookup r.certificate.digest = none := by
  have hsuspended : ∀ x ∈ state.certificatesAboveGcRound gcRound,
      (∃ s, state.suspended.lookup x = some s) ∧ state.Unexpired gcRound x := by
    intro x hx
    obtain ⟨s, hs, hround⟩ := h.suspended_of_above hx
    exact ⟨⟨s, hs⟩, h.unexpired hlinked hs (by omega)⟩
  obtain ⟨released, state', hgc, hnone, hkept, hmissing⟩ := runGc_of_suspended hsuspended
  obtain ⟨hreleased, hsub, -⟩ := runGc_cases hgc
  refine ⟨released, state', hgc, ?_, fun r hr => ?_⟩
  · exact
      { received := fun x s hs => h.received x s (hsub x s hs)
        digest := fun x s hs => h.digest x s (hsub x s hs)
        waits := fun x s hs => h.waits x s (hsub x s hs)
        missing := fun x s hs hround => h.missing x s (hsub x s hs) (by omega)
        recorded := fun x s hs hround d hd => by
          obtain ⟨children, hk, hx⟩ := h.recorded x s (hsub x s hs) (by omega) d hd
          exact ⟨children, (hmissing _ _).mpr ⟨by dsimp only; omega, hk⟩, hx⟩
        keys := fun k children hk => by
          obtain ⟨hlt, hk⟩ := (hmissing k children).mp hk
          exact ⟨hlt, (h.keys k children hk).2⟩
        children := fun k children hk x hx => by
          obtain ⟨hlt, hk⟩ := (hmissing k children).mp hk
          obtain ⟨s, hs, hround, hd⟩ := h.children k children hk x hx
          refine ⟨s, ?_, hround, hd⟩
          rw [hkept x (fun habove => ?_) (h.unexpired hlinked hs (by omega)), hs]
          obtain ⟨s', hs', hround'⟩ := h.suspended_of_above habove
          rw [hs] at hs'
          cases hs'
          omega }
  · obtain ⟨d, hd, s, hs, hcert⟩ := hreleased r hr
    rw [hcert, h.digest d s hs]
    exact ⟨h.received d s hs, hnone d hd⟩

end

end Linked

end State

namespace Inner

variable [DecidableEq K] {received : Set (Certificate K D)} {collected : ℕ} {inner : Inner K D}
  {c : Certificate K D}

/-- The maps agree with each other and with the certificate store. -/
def Linked (received : Set (Certificate K D)) (collected : ℕ) (inner : Inner K D) : Prop :=
  inner.state.Linked received collected (inner.certificateStore.contains · = true)

variable [SetOrder D]

theorem Linked.acceptWithChildren (h : inner.Linked received collected)
    (hlinked : WellLinked received) (hc : c ∈ received)
    (hnone : inner.state.suspended.lookup c.digest = none) :
    ∃ inner', inner.acceptWithChildren c = .ok inner' ∧ inner'.Linked received collected ∧
      inner'.gcRound = inner.gcRound ∧
      ∀ x, inner.state.suspended.lookup x = none → inner'.state.suspended.lookup x = none := by
  obtain ⟨released, state, hchildren, hstate, hshrinks⟩ :=
    State.Linked.acceptChildren h hlinked hc hnone
  obtain ⟨inner', hok⟩ : ∃ inner', inner.acceptWithChildren c = .ok inner' := by
    unfold Inner.acceptWithChildren
    rw [hchildren]
    exact ⟨_, rfl⟩
  obtain ⟨released', state', hchildren', heq⟩ := acceptWithChildren_cases hok
  rw [hchildren] at hchildren'
  cases hchildren'
  obtain ⟨-, hinner, hround⟩ := foldl_accept_eq { inner with state }
    (c :: released.map SuspendedCertificate.certificate)
  rw [← heq] at hinner hround
  refine ⟨inner', hok, ?_, hround, by rwa [hinner]⟩
  rw [Linked, hinner]
  refine hstate.congr fun d => ?_
  rw [heq, contains_foldl_accept, List.exists_mem_cons_iff]
  simp [@eq_comm _ d]

omit [DecidableEq K] [SetOrder D] in
theorem suspended_eq_none (h : inner.state.checkSuspended c.digest = false) :
    inner.state.suspended.lookup c.digest = none := by
  rwa [State.checkSuspended, Option.isSome_eq_false_iff, Option.isNone_iff_eq_none] at h

/-- The critical section of a call does not panic, unless it skips the check of the parents for a
certificate that is suspended. -/
theorem Linked.underLock (config : Config K D) (h : inner.Linked received collected)
    (hlinked : WellLinked received)
    (hcollected : collected ≤ inner.gcRound) (hc : c ∈ received) {earlySuspend : Bool}
    (hboundary : earlySuspend = false → c.round ≤ inner.gcRound + 1 →
      inner.state.checkSuspended c.digest = false) :
    ∃ answer inner', inner.underLock config c earlySuspend = .ok (answer, inner') ∧
      inner'.Linked received collected ∧ inner'.gcRound = inner.gcRound := by
  have haccept : inner.state.suspended.lookup c.digest = none →
      ∃ (answer : Except (DagError K D) Unit) (inner' : Inner K D),
        (inner.acceptWithChildren c).map (fun inner => (.ok (), inner)) = .ok (answer, inner') ∧
          inner'.Linked received collected ∧ inner'.gcRound = inner.gcRound := by
    intro hnone
    obtain ⟨inner', hok, hinner', hround, -⟩ := h.acceptWithChildren hlinked hc hnone
    exact ⟨.ok (), inner', by rw [hok]; rfl, hinner', hround⟩
  unfold Inner.underLock
  split_ifs with hsuspended hround
  · exact ⟨_, inner, rfl, h, rfl⟩
  · have hmissing : ∀ d, d ∈ (c.parents.filter fun d => !inner.certificateStore.contains d) ↔
        d ∈ c.parents ∧ ¬inner.certificateStore.contains d = true := by simp
    have hnodup := (hlinked.nodup c hc).filter fun d => !inner.certificateStore.contains d
    rw [Inner.getMissingParents, if_neg (by omega)]
    generalize (c.parents.filter fun d => !inner.certificateStore.contains d) = ds
      at hmissing hnodup
    cases hs : inner.state.suspended.lookup c.digest with
    | none =>
      cases ds with
      | nil => exact haccept hs
      | cons d ds =>
        obtain ⟨state, hinsert, hstate⟩ := State.Linked.insert h hc (by omega) hs hnodup
          (List.cons_ne_nil d ds) hmissing (!earlySuspend)
        exact ⟨_, { inner with state }, by dsimp only; rw [hinsert]; rfl, hstate, rfl⟩
    | some s =>
      have hearly : earlySuspend = false := by
        by_contra hearly
        exact hsuspended ⟨by simpa using hearly, by rw [State.checkSuspended, hs]; rfl⟩
      cases ds with
      | nil =>
        -- The certificate waits for a parent, which is not stored.
        obtain ⟨d, hd⟩ := List.exists_mem_of_ne_nil _ (h.waits _ s hs)
        have hstored := (h.missing_of_digest hlinked hc (by omega) hs d).mp hd
        exact absurd ((hmissing d).mpr hstored) List.not_mem_nil
      | cons d ds =>
        have hreinsert := State.Linked.reinsert h hlinked hc (by omega) hs hmissing
        rw [hearly]
        exact ⟨_, inner, congrArg (Except.map _) hreinsert, h, rfl⟩
  · refine haccept (suspended_eq_none ?_)
    cases earlySuspend with
    | false => exact hboundary rfl (by omega)
    | true => simpa using hsuspended

/-- The certificates that garbage collection released are accepted one after the other. -/
theorem Linked.acceptReleased (h : inner.Linked received collected)
    (hlinked : WellLinked received) {released : List (SuspendedCertificate K D)}
    (hreleased : ∀ r ∈ released, r.certificate ∈ received ∧
      inner.state.suspended.lookup r.certificate.digest = none) :
    ∃ inner', released.foldlM (fun inner r => inner.acceptWithChildren r.certificate) inner =
        .ok inner' ∧
      inner'.Linked received collected ∧ inner'.gcRound = inner.gcRound := by
  induction released generalizing inner with
  | nil => exact ⟨inner, rfl, h, rfl⟩
  | cons r released ih =>
    obtain ⟨hr, hnone⟩ := hreleased r List.mem_cons_self
    obtain ⟨inner', hok, hinner', hround, hshrinks⟩ := h.acceptWithChildren hlinked hr hnone
    obtain ⟨inner'', hrest, hinner'', hround'⟩ := ih hinner' fun r' hr' =>
      (hreleased r' (List.mem_cons_of_mem _ hr')).imp_right fun hnone' => hshrinks _ hnone'
    refine ⟨inner'', ?_, hinner'', hround'.trans hround⟩
    rw [List.foldlM_cons, hok]
    exact hrest

theorem Linked.collectGarbage (h : inner.Linked received collected) (hlinked : WellLinked received)
    (hle : collected ≤ gcRound) :
    ∃ inner', inner.collectGarbage gcRound = .ok inner' ∧ inner'.Linked received gcRound ∧
      inner'.gcRound = inner.gcRound := by
  obtain ⟨released, state, hgc, hstate, hreleased⟩ := State.Linked.runGc h hlinked hle
  have hstart : Linked received gcRound { inner with state } := hstate
  obtain ⟨inner', hok, hinner', hround⟩ := hstart.acceptReleased hlinked hreleased
  refine ⟨inner', ?_, hinner', hround⟩
  unfold Inner.collectGarbage
  rw [hgc]
  exact hok

end Inner

/-! ## Every run -/

namespace Tasks

variable [DecidableEq K] {received : Set (Certificate K D)} {store : CertificateStore K D}
  {tasks : Tasks K D} {gcRound : ℕ} {config : Config K D}

/-- The garbage collection round does not decrease, as the commit rounds of consensus do not. -/
def Advances (tasks : Tasks K D) : TaskEvent K D → Prop
  | .storeGcRound gcRound => tasks.inner.gcRound ≤ gcRound
  | _ => True

/-- A call that did not look among the suspended certificates does not skip the check of the parents
while its certificate is suspended. -/
def ChecksSuspended (tasks : Tasks K D) : TaskEvent K D → Prop
  | .resume call => call.stage = .lock → call.earlySuspend = false →
    call.certificate.round ≤ tasks.inner.gcRound + 1 →
    tasks.inner.state.checkSuspended call.certificate.digest = false
  | _ => True

/-- The invariant of the tasks: the maps agree above the round that was last collected. -/
structure Orderly (received : Set (Certificate K D)) (tasks : Tasks K D) : Prop where
  linked : ∃ collected ≤ tasks.inner.gcRound, tasks.inner.Linked received collected
  calls : ∀ call ∈ tasks.calls, call.certificate ∈ received
  collecting : ∀ g, tasks.collecting = some g → g = tasks.inner.gcRound
  fault : tasks.fault = none

omit [DecidableEq K] in
theorem Orderly.exit (h : Orderly received tasks) {inner : Inner K D}
    (hround : inner.gcRound = tasks.inner.gcRound)
    (hlinked : ∃ collected ≤ inner.gcRound, inner.Linked received collected) :
    Orderly received (tasks.exit (.ok inner)) :=
  ⟨hlinked, h.calls, fun g hg => (h.collecting g hg).trans hround.symm, h.fault⟩

variable [SetOrder D]

theorem Orderly.resume (hwell : WellLinked received) (h : Orderly received tasks)
    {call : Call K D} (hcall : call ∈ tasks.calls)
    (hchecks : ChecksSuspended tasks (.resume call)) :
    Orderly received (tasks.resume config call) := by
  have hcalls : Orderly received { tasks with
      calls := tasks.calls.erase call ++ (call.next config tasks.inner).toList } :=
    ⟨h.linked, received_of_resume h.calls hcall, h.collecting, h.fault⟩
  unfold Tasks.resume
  split
  · next hstage =>
    obtain ⟨collected, hle, hlinked⟩ := h.linked
    obtain ⟨answer, inner, hlock, hinner, hround⟩ :=
      hlinked.underLock config hwell hle (h.calls call hcall) (hchecks hstage)
    rw [hlock]
    exact hcalls.exit hround ⟨collected, hround.symm ▸ hle, hinner⟩
  · exact hcalls

theorem Orderly.step (hwell : WellLinked received) {tasks' : Tasks K D} {event : TaskEvent K D}
    (h : Orderly received tasks) (hreceives : Receives received event)
    (hadvances : Advances tasks event) (hchecks : ChecksSuspended tasks event)
    (hstep : tasks.step config event = some tasks') : Orderly received tasks' := by
  obtain ⟨collected, hle, hlinked⟩ := h.linked
  obtain ⟨call, hcall, rfl⟩ | ⟨call, hcall, rfl, rfl⟩ | ⟨g, rfl, rfl⟩ | ⟨g, hcollecting, rfl⟩ |
    ⟨queue, rfl⟩ := step_cases hstep
  · refine ⟨h.linked, fun x hx => ?_, h.collecting, h.fault⟩
    rcases List.mem_append.mp hx with hx | hx
    · exact h.calls x hx
    · rw [List.mem_singleton.mp hx]
      exact hcall received hreceives
  · exact h.resume hwell hcall hchecks
  · exact ⟨⟨collected, hle.trans hadvances, hlinked⟩, h.calls,
      fun g' hg' => (Option.some.inj hg').symm, h.fault⟩
  · have hg := h.collecting g hcollecting
    obtain ⟨inner, hgc, hinner, hround⟩ := hlinked.collectGarbage hwell (hg.symm ▸ hle)
    have hcollected : Orderly received { tasks with collecting := none } :=
      ⟨h.linked, h.calls, fun g' hg' => (Option.some_ne_none g' hg'.symm).elim, h.fault⟩
    rw [hgc]
    exact hcollected.exit hround ⟨g, (hg.trans hround.symm).le, hinner⟩
  · exact ⟨h.linked, h.calls, h.collecting, h.fault⟩

/-- The synchronizer does not panic if no suspended certificate is taken over the garbage collection
boundary by a call that did not look for it. -/
theorem fault_eq_none (hwell : WellLinked received)
    (h : (machine config store gcRound).Reached (fun tasks event =>
      Receives received event ∧ Advances tasks event ∧ ChecksSuspended tasks event) tasks) :
    tasks.fault = none := by
  have hnew : Orderly received (new store gcRound : Tasks K D) :=
    ⟨⟨gcRound, le_rfl, State.Linked.empty⟩, fun call hcall => by simp [new] at hcall,
      fun g hg => by simp [new] at hg, rfl⟩
  have horderly : Orderly received tasks := h.invariant hnew
    fun _ _ _ horderly hmet hstep => horderly.step hwell hmet.1 hmet.2.1 hmet.2.2 hstep
  exact horderly.fault

instance (tasks : Tasks K D) : ∀ event, Decidable (tasks.Advances event)
  | .storeGcRound gcRound => inferInstanceAs (Decidable (tasks.inner.gcRound ≤ gcRound))
  | .tryAccept _ | .acceptFetched _ | .acceptOwn _ | .resume _ | .collectGarbage | .consume =>
    .isTrue trivial

instance (tasks : Tasks K D) : ∀ event, Decidable (tasks.ChecksSuspended event)
  | .resume call => inferInstanceAs (Decidable (call.stage = .lock → call.earlySuspend = false →
      call.certificate.round ≤ tasks.inner.gcRound + 1 →
      tasks.inner.state.checkSuspended call.certificate.digest = false))
  | .tryAccept _ | .acceptFetched _ | .acceptOwn _ | .storeGcRound _ | .collectGarbage | .consume =>
    .isTrue trivial

end Tasks

namespace Sample

/-- A certificate of round three and its parent. -/
def links : List (Certificate (Fin 4) ℕ) := [link 2, link 3]

theorem wellLinked_links : WellLinked {c | c ∈ links} where
  round := show ∀ x ∈ links, ∀ y ∈ links, x.digest = y.digest → x.round = y.round by decide
  parents := show ∀ x ∈ links, ∀ y ∈ links, x.digest = y.digest → x.parents = y.parents by decide
  nodup := show ∀ c ∈ links, c.parents.Nodup by decide
  above := show ∀ p ∈ links, ∀ c ∈ links, p.digest ∈ c.parents → p.round + 1 = c.round by decide

/-- A certificate is fetched and its call is resumed up to the lock. -/
def acceptFetched (c : Certificate (Fin 4) ℕ) : List (TaskEvent (Fin 4) ℕ) :=
  .acceptFetched c :: [Stage.fetched, .contains, .checkSuspended, .sanitize].map fun stage =>
    .resume { Call.tryAcceptFetchedCertificate c with stage }

def lockFetched (c : Certificate (Fin 4) ℕ) : TaskEvent (Fin 4) ℕ :=
  .resume { Call.tryAcceptFetchedCertificate c with stage := .lock }

end Sample

/-- The garbage collection releases the suspended certificate before the fetched copy takes the
lock. -/
theorem Tasks.fault_eq_none_sample :
    let tasks := (machine Sample.config .empty 0).after (new .empty 0)
      (Sample.tryAccept (Sample.link 3) ++ Sample.acceptFetched (Sample.link 3) ++
        [.storeGcRound 2, .collectGarbage, Sample.lockFetched (Sample.link 3)])
    tasks.inner.newCertificates = [Sample.link 3, Sample.link 3] ∧ tasks.fault = none := by
  intro tasks
  have hreached : (machine Sample.config .empty 0).Reached (fun tasks event =>
      Receives {c | c ∈ Sample.links} event ∧ tasks.Advances event ∧ tasks.ChecksSuspended event)
      tasks := Machine.Reached.start.after (by decide +kernel)
  exact ⟨by decide +kernel, fault_eq_none Sample.wellLinked_links hreached⟩

/-- The garbage collection round is stored, and the fetched copy of a suspended certificate takes
the lock first: the check of the parents is skipped, and the synchronizer finds the certificate
suspended. -/
theorem Tasks.fetched_copy_panics :
    let tasks := (machine Sample.config .empty 0).after (new .empty 0)
      (Sample.tryAccept (Sample.link 3) ++ Sample.acceptFetched (Sample.link 3) ++
        [.storeGcRound 2, Sample.lockFetched (Sample.link 3)])
    WellLinked {c | c ∈ Sample.links} ∧
      (machine Sample.config .empty 0).Reached (fun tasks event =>
        Receives {c | c ∈ Sample.links} event ∧ tasks.Advances event) tasks ∧
      tasks.fault = some (.panic "Suspended certificate has no missing parent") := by
  intro tasks
  exact ⟨Sample.wellLinked_links, Machine.Reached.start.after (by decide +kernel),
    by decide +kernel⟩

-- Two certificates with one digest and different parents do not agree in what is missing.
example :
    let other : Certificate (Fin 4) ℕ := ⟨{ (Sample.link 3).header with parents := [4] }⟩
    ((Tasks.machine Sample.config .empty 0).after (.new .empty 0)
      (Sample.tryAccept (Sample.link 3) ++ Sample.acceptFetched other ++
        [Sample.lockFetched other])).fault = some (.panic "Inconsistent missing parents!") := by
  decide +kernel

end Synchronizer

end Narwhal

import NarwhalGeth.Narwhal.Panics

/-!
# The books of the suspended certificates

The map of missing certificates lists for each of them the suspended certificates that wait for it.
Suspending and accepting keep the two maps as mirror images. The garbage collection walks through
the missing certificates only, so that a suspended one that nothing waits for stays behind when the
round passes it.
-/

namespace Narwhal

namespace Synchronizer

variable {K D : Type} [DecidableEq D] {released : List (SuspendedCertificate K D)}
  {s : SuspendedCertificate K D} {missing : Assoc (ℕ × D) (List D)} {c : Certificate K D}
  {children missingParents : List D} {k : ℕ × D} {x : D} {gcRound : ℕ}

namespace State

/-- The certificate `x` is listed as a child of the missing certificate `p` of round `r`. -/
def Listed (state : State K D) (r : ℕ) (p x : D) : Prop :=
  ∃ children, state.missing.lookup (r, p) = some children ∧ x ∈ children

/-- The certificate `x` is suspended in the round after `r` and misses the parent `p`. -/
def Misses (state : State K D) (r : ℕ) (p x : D) : Prop :=
  ∃ s, state.suspended.lookup x = some s ∧ s.certificate.round = r + 1 ∧ p ∈ s.missingParents

/-- The two maps are mirror images, and every suspended certificate misses a parent. -/
structure Mirrored (state : State K D) : Prop where
  listed : ∀ r p x, state.Listed r p x ↔ state.Misses r p x
  waits : ∀ x s, state.suspended.lookup x = some s → s.missingParents ≠ []

/-- Nothing is left up to the garbage collection round, and nothing is suspended in the round after
it. -/
structure Cleared (state : State K D) (gcRound : ℕ) : Prop where
  suspended : ∀ x s, state.suspended.lookup x = some s → gcRound + 1 < s.certificate.round
  missing : ∀ k children, state.missing.lookup k = some children → gcRound < k.1

/-- Another suspended certificate waits for each suspended one up to the garbage collection
round. -/
def Awaited (state : State K D) (gcRound : ℕ) : Prop :=
  ∀ e ∈ state.suspended.entries, e.2.certificate.round ≤ gcRound →
    (state.missing.lookup (e.2.certificate.round, e.1)).isSome

/-- The maps are mirror images, and what is suspended is a received certificate under its digest,
with some of its parents. -/
structure Kept (received : Set (Certificate K D)) (state : State K D) : Prop
    extends Mirrored state where
  received : ∀ x s, state.suspended.lookup x = some s → s.certificate ∈ received
  digest : ∀ x s, state.suspended.lookup x = some s → s.certificate.digest = x
  parents : ∀ x s, state.suspended.lookup x = some s → s.missingParents ⊆ s.certificate.parents
  positive : ∀ x s, state.suspended.lookup x = some s → 0 < s.certificate.round
  children : ∀ k children, state.missing.lookup k = some children →
    children ≠ [] ∧ children.Nodup

variable {received : Set (Certificate K D)} {state state' : State K D}

theorem listed_iff {r : ℕ} {p : D} :
    state.Listed r p x ↔ x ∈ (state.missing.lookup (r, p)).getD [] := by
  rw [Listed]
  cases state.missing.lookup (r, p) <;> simp

/-- A suspended certificate that is missing up to the garbage collection round is dropped. -/
theorem runGc_expired [SetOrder D] (h : state.runGc gcRound = .ok (released, state'))
    (hexpired : ¬state.Unexpired gcRound x) : state'.suspended.lookup x = none := by
  obtain ⟨acc, hfold, heq⟩ := Except.eq_ok_of_map h
  cases heq
  cases hlookup : acc.2.lookup x with
  | none => rfl
  | some s =>
    have hkept := (releaseAboveGc_fold hfold).2 x s hlookup
    refine absurd (fun k children hk hle hx => ?_) hexpired
    have herase : (state.suspended.eraseAll ((state.missing.entries.filter
        fun e => e.1.1 ≤ gcRound).map fun e => e.1.2)).lookup x = some s := by
      rw [Assoc.eraseAll, List.foldl_map]
      exact hkept
    have hkey : ⟨k, children⟩ ∈ state.missing.entries.filter fun e => e.1.1 ≤ gcRound :=
      List.mem_filter.mpr ⟨Assoc.mem_entries_iff.mpr hk, decide_eq_true hle⟩
    exact (Assoc.lookup_eraseAll_eq_some.mp herase).2 (List.mem_map.mpr ⟨_, hkey, hx⟩)

namespace Kept

theorem empty : Kept received (empty : State K D) where
  listed r p x := by simp [Listed, Misses, State.empty]
  waits x s hs := by simp [State.empty] at hs
  received x s hs := by simp [State.empty] at hs
  digest x s hs := by simp [State.empty] at hs
  parents x s hs := by simp [State.empty] at hs
  positive x s hs := by simp [State.empty] at hs
  children k children hk := by simp [State.empty] at hk

theorem suspended_of_child (h : Kept received state) (hk : state.missing.lookup k = some children)
    (hx : x ∈ children) :
    ∃ s, state.suspended.lookup x = some s ∧ s.certificate.round = k.1 + 1 ∧
      k.2 ∈ s.missingParents :=
  (h.listed k.1 k.2 x).mp ⟨children, hk, hx⟩

/-! ## Suspending a certificate -/

theorem not_listed (h : Kept received state) (hnone : state.suspended.lookup x = none) (r : ℕ)
    (p : D) : ¬state.Listed r p x := by
  rw [h.listed]
  rintro ⟨s, hs, -⟩
  rw [hnone] at hs
  cases hs

theorem suspend (h : Kept received state) (hc : c ∈ received) (hne : missingParents ≠ [])
    (hsub : missingParents ⊆ c.parents) (hpos : 0 < c.round)
    (hnone : state.suspended.lookup c.digest = none)
    (hlookup : ∀ k, missing.lookup k = if k.1 = c.round - 1 ∧ k.2 ∈ missingParents then
      some (c.digest :: (state.missing.lookup k).getD []) else state.missing.lookup k) :
    Kept received ⟨state.suspended.insert c.digest ⟨c, missingParents⟩, missing⟩ where
  listed r p x := by
    rw [listed_iff, Misses]
    dsimp only
    by_cases hx : x = c.digest
    · subst hx
      have hold : c.digest ∉ (state.missing.lookup (r, p)).getD [] :=
        fun hmem => h.not_listed hnone r p (listed_iff.mpr hmem)
      have hmem : c.digest ∈ (missing.lookup (r, p)).getD [] ↔
          r = c.round - 1 ∧ p ∈ missingParents := by
        rw [hlookup]
        split_ifs with hkey
        · exact iff_of_true List.mem_cons_self hkey
        · exact iff_of_false hold hkey
      rw [hmem, AList.lookup_insert]
      constructor
      · rintro ⟨rfl, hp⟩
        exact ⟨_, rfl, by dsimp only; omega, hp⟩
      · rintro ⟨s, hs, hround, hp⟩
        obtain rfl := Option.some.inj hs
        exact ⟨by dsimp only at hround; omega, hp⟩
    · have hmem : x ∈ (missing.lookup (r, p)).getD [] ↔
          x ∈ (state.missing.lookup (r, p)).getD [] := by
        rw [hlookup]
        split_ifs
        · exact List.mem_cons.trans (or_iff_right hx)
        · exact Iff.rfl
      rw [hmem, AList.lookup_insert_ne hx, ← listed_iff]
      exact h.listed r p x
  waits x s hs := by
    rcases Assoc.lookup_insert_cases hs with ⟨-, rfl⟩ | hs
    · exact hne
    · exact h.waits x s hs
  received x s hs := by
    rcases Assoc.lookup_insert_cases hs with ⟨-, rfl⟩ | hs
    · exact hc
    · exact h.received x s hs
  digest x s hs := by
    rcases Assoc.lookup_insert_cases hs with ⟨rfl, rfl⟩ | hs
    · rfl
    · exact h.digest x s hs
  parents x s hs := by
    rcases Assoc.lookup_insert_cases hs with ⟨-, rfl⟩ | hs
    · exact hsub
    · exact h.parents x s hs
  positive x s hs := by
    rcases Assoc.lookup_insert_cases hs with ⟨-, rfl⟩ | hs
    · exact hpos
    · exact h.positive x s hs
  children k children hk := by
    dsimp only at hk
    rw [hlookup] at hk
    split_ifs at hk with hkey
    · obtain rfl := Option.some.inj hk
      refine ⟨List.cons_ne_nil _ _, List.nodup_cons.mpr ⟨fun hmem => ?_, ?_⟩⟩
      · exact h.not_listed hnone k.1 k.2 (listed_iff.mpr hmem)
      · cases hold : state.missing.lookup k with
        | none => exact List.nodup_nil
        | some children => exact (h.children k children hold).2
    · exact h.children k children hk

theorem insert (h : Kept received state) (hc : c ∈ received) (hne : missingParents ≠ [])
    (hnodup : missingParents.Nodup) (hsub : missingParents ⊆ c.parents) (hpos : 0 < c.round)
    {allowReinsert : Bool} (hinsert : state.insert c missingParents allowReinsert = .ok state') :
    Kept received state' := by
  obtain rfl | ⟨hnone, missing, hfold, rfl⟩ := insert_cases hinsert
  · exact h
  · obtain ⟨missing', hfold', hmissing⟩ := foldlM_insertMissing (K := K) hnodup
      (fun d _ hmem => h.not_listed hnone (c.round - 1) d (listed_iff.mpr hmem))
    obtain rfl : missing = missing' := Except.ok.inj (hfold.symm.trans hfold')
    exact h.suspend hc hne hsub hpos hnone hmissing

/-! ## Accepting the children of a certificate -/

/-- An accepted certificate is taken from the certificates that are listed as its children. -/
theorem release (h : Kept received state) {key : ℕ × D}
    (hchildren : state.missing.lookup key = some children)
    {suspended : Assoc D (SuspendedCertificate K D)}
    (hlookup : ∀ x, suspended.lookup x = if x ∈ children then
      (state.suspended.lookup x).bind (·.without key.2) else state.suspended.lookup x) :
    Kept received ⟨suspended, state.missing.erase key⟩ := by
  -- what is still suspended was suspended before, and misses the same parents but for this one
  have hcases : ∀ x s', suspended.lookup x = some s' → ∃ s, state.suspended.lookup x = some s ∧
      s'.certificate = s.certificate ∧ s'.missingParents ≠ [] ∧
      ∀ p, p ∈ s'.missingParents ↔ p ∈ s.missingParents ∧ (x ∈ children → p ≠ key.2) := by
    intro x s' hs'
    rw [hlookup] at hs'
    split_ifs at hs' with hx
    · obtain ⟨s, hs, hwithout⟩ := Option.bind_eq_some_iff.mp hs'
      obtain ⟨hcert, hne, hmem⟩ := SuspendedCertificate.mem_without hwithout
      exact ⟨s, hs, hcert, hne, fun p => by simp [hmem, hx]⟩
    · exact ⟨s', hs', rfl, h.waits x s' hs', fun p => by simp [hx]⟩
  refine { listed := ?listed, waits := ?waits, received := ?received, digest := ?digest,
           parents := ?parents, positive := ?positive, children := ?children }
  case listed =>
    intro r p x
    rw [Listed]
    dsimp only
    by_cases hkey : (r, p) = key
    · subst hkey
      rw [AList.lookup_erase]
      refine iff_of_false (by simp) ?_
      rintro ⟨s', hs', hround, hp⟩
      obtain ⟨s, hs, hcert, -, hmem⟩ := hcases x s' hs'
      obtain ⟨hp, hother⟩ := (hmem p).mp hp
      obtain ⟨children', hk, hx⟩ := (h.listed r p x).mpr ⟨s, hs, hcert ▸ hround, hp⟩
      obtain rfl : children = children' := Option.some.inj (hchildren.symm.trans hk)
      exact hother hx rfl
    · rw [AList.lookup_erase_ne hkey]
      refine (h.listed r p x).trans ⟨?_, ?_⟩
      · rintro ⟨s, hs, hround, hp⟩
        by_cases hx : x ∈ children
        · -- the child misses another parent of the same round
          obtain ⟨s₀, hs₀, hround₀, -⟩ := h.suspended_of_child hchildren hx
          obtain rfl : s = s₀ := Option.some.inj (hs.symm.trans hs₀)
          have hne : p ≠ key.2 := fun heq => hkey (Prod.ext (by dsimp only; omega) heq)
          obtain ⟨s', hs'⟩ := SuspendedCertificate.without_of_mem hp hne
          obtain ⟨hcert, -, hmem⟩ := SuspendedCertificate.mem_without hs'
          refine ⟨s', ?_, hcert ▸ hround, (hmem p).mpr ⟨hp, hne⟩⟩
          show suspended.lookup x = _
          rw [hlookup, if_pos hx, hs]
          exact hs'
        · refine ⟨s, ?_, hround, hp⟩
          show suspended.lookup x = _
          rw [hlookup, if_neg hx, hs]
      · rintro ⟨s', hs', hround, hp⟩
        obtain ⟨s, hs, hcert, -, hmem⟩ := hcases x s' hs'
        exact ⟨s, hs, hcert ▸ hround, ((hmem p).mp hp).1⟩
  case waits =>
    intro x s' hs'
    obtain ⟨s, -, -, hne, -⟩ := hcases x s' hs'
    exact hne
  case received =>
    intro x s' hs'
    obtain ⟨s, hs, hcert, -⟩ := hcases x s' hs'
    exact hcert ▸ h.received x s hs
  case digest =>
    intro x s' hs'
    obtain ⟨s, hs, hcert, -⟩ := hcases x s' hs'
    exact hcert ▸ h.digest x s hs
  case parents =>
    intro x s' hs' p hp
    obtain ⟨s, hs, hcert, -, hmem⟩ := hcases x s' hs'
    exact hcert ▸ h.parents x s hs ((hmem p).mp hp).1
  case positive =>
    intro x s' hs'
    obtain ⟨s, hs, hcert, -⟩ := hcases x s' hs'
    exact hcert ▸ h.positive x s hs
  case children =>
    exact fun k children' hk => h.children k children' (Assoc.lookup_of_lookup_erase hk)

/-- The cascade keeps the books: each of its steps takes one accepted certificate from its
children. -/
theorem acceptChildrenLoop [SetOrder D] {fuel : ℕ} {t : Traversal K D}
    (h : Kept received ⟨t.suspended, missing⟩)
    (hloop : State.acceptChildrenLoop fuel missing t = .ok (released, state')) :
    Kept received state' := by
  induction fuel generalizing missing t with
  | zero => cases hloop
  | succ fuel ih =>
    unfold State.acceptChildrenLoop at hloop
    cases htraverse : t.toTraverse with
    | nil =>
      rw [htraverse] at hloop
      cases hloop
      exact h
    | cons key rest =>
      rw [htraverse] at hloop
      dsimp only at hloop
      cases hmissing : missing.lookup (key.1, key.2) with
      | none =>
        rw [hmissing] at hloop
        exact ih (t := { t with toTraverse := rest }) h hloop
      | some children =>
        rw [hmissing] at hloop
        obtain ⟨suspended, first, hfold, hlookup, -⟩ := foldlM_acceptChild key.2
          (SetOrder.nodup_order.mpr (h.children _ _ hmissing).2)
          (t := { t with toTraverse := rest }) fun x hx =>
            (h.suspended_of_child hmissing (SetOrder.mem_order.mp hx)).imp fun s hs => hs.1
        simp only [SetOrder.mem_order] at hlookup
        obtain ⟨t', hfold', hrest⟩ := Except.eq_ok_of_bind hloop
        obtain rfl := Except.ok.inj (hfold.symm.trans hfold')
        exact ih (t := ⟨suspended, rest ++ first.map entry, t.toAccept ++ first⟩)
          (h.release hmissing hlookup) hrest

theorem acceptChildren [SetOrder D] (h : Kept received state) {round : ℕ} {digest : D}
    (haccept : state.acceptChildren round digest = .ok (released, state')) :
    Kept received state' := by
  unfold State.acceptChildren at haccept
  cases hlookup : state.suspended.lookup digest with
  | some s =>
    rw [hlookup] at haccept
    cases haccept
  | none =>
    rw [hlookup] at haccept
    exact Kept.acceptChildrenLoop (t := ⟨state.suspended, [(round, digest)], []⟩) h haccept

/-! ## Garbage collection -/

/-- The certificates just above the garbage collection round are those that are released. -/
theorem mem_above_iff [SetOrder D] (h : Kept received state)
    (hs : state.suspended.lookup x = some s) :
    x ∈ state.certificatesAboveGcRound gcRound ↔ s.certificate.round = gcRound + 1 := by
  rw [mem_certificatesAboveGcRound]
  constructor
  · rintro ⟨k, children, hk, hround, hx⟩
    obtain ⟨s', hs', hround', -⟩ := h.suspended_of_child hk hx
    obtain rfl : s = s' := Option.some.inj (hs.symm.trans hs')
    rw [hround', hround]
  · intro hround
    obtain ⟨p, hp⟩ := List.exists_mem_of_ne_nil _ (h.waits x s hs)
    obtain ⟨children, hk, hx⟩ := (h.listed gcRound p x).mpr ⟨s, hs, hround, hp⟩
    exact ⟨(gcRound, p), children, hk, rfl, hx⟩

theorem round_of_key (h : Kept received state) (hwell : WellLinked received)
    (hk : state.missing.lookup k = some children) (hs : state.suspended.lookup k.2 = some s) :
    k.1 = s.certificate.round := by
  obtain ⟨x, hx⟩ := List.exists_mem_of_ne_nil _ (h.children k children hk).1
  obtain ⟨child, hchild, hround, hp⟩ := h.suspended_of_child hk hx
  have hparent : s.certificate.digest ∈ child.certificate.parents :=
    h.digest k.2 s hs ▸ h.parents x child hchild hp
  have := hwell.above _ (h.received k.2 s hs) _ (h.received x child hchild) hparent
  omega

/-- Garbage collection keeps the books and clears them up to its round exactly if another suspended
certificate waits for each suspended one up to that round. -/
theorem runGc_iff [SetOrder D] (h : Kept received state) (hwell : WellLinked received)
    (gcRound : ℕ) :
    ∃ released state', state.runGc gcRound = .ok (released, state') ∧
      (state'.Mirrored ∧ state'.Cleared gcRound ↔ state.Awaited gcRound) ∧
      (state.Awaited gcRound → Kept received state') := by
  have hunexpired : ∀ x s, state.suspended.lookup x = some s → gcRound < s.certificate.round →
      state.Unexpired gcRound x := by
    rintro x s hs hround k children hk hle rfl
    have := h.round_of_key hwell hk hs
    omega
  have habove : ∀ x ∈ state.certificatesAboveGcRound gcRound,
      (∃ s, state.suspended.lookup x = some s) ∧ state.Unexpired gcRound x := by
    intro x hx
    obtain ⟨k, children, hk, -, hx'⟩ := mem_certificatesAboveGcRound.mp hx
    obtain ⟨s, hs, -⟩ := h.suspended_of_child hk hx'
    have hround := (h.mem_above_iff hs).mp hx
    exact ⟨⟨s, hs⟩, hunexpired x s hs (by omega)⟩
  obtain ⟨released, state', hgc, hreleased, hkept, hmissing⟩ := runGc_of_suspended habove
  obtain ⟨-, hsub, -⟩ := runGc_cases hgc
  have hkeep : ∀ x s, state.suspended.lookup x = some s → gcRound + 1 < s.certificate.round →
      state'.suspended.lookup x = some s := by
    intro x s hs hround
    rw [hkept x (fun hx => ?_) (hunexpired x s hs (by omega)), hs]
    have := (h.mem_above_iff hs).mp hx
    omega
  have hawaited : state.Awaited gcRound → ∀ x s, state'.suspended.lookup x = some s →
      gcRound + 1 < s.certificate.round := by
    intro hawaited x s hs'
    have hs := hsub x s hs'
    by_contra hle
    rcases Nat.lt_or_ge gcRound s.certificate.round with hlt | hle
    · rw [hreleased x ((h.mem_above_iff hs).mpr (by omega))] at hs'
      cases hs'
    · obtain ⟨children, hk⟩ := Option.isSome_iff_exists.mp
        (hawaited ⟨x, s⟩ (Assoc.mem_entries_iff.mpr hs) hle)
      rw [runGc_expired hgc fun hun => hun _ children hk hle rfl] at hs'
      cases hs'
  have hkept' : state.Awaited gcRound → Kept received state' := fun hall =>
    { listed := fun r p x => by
        constructor
        · rintro ⟨children, hk, hx⟩
          obtain ⟨hlt, hk⟩ := (hmissing _ children).mp hk
          obtain ⟨s, hs, hround, hp⟩ := h.suspended_of_child hk hx
          exact ⟨s, hkeep x s hs (by dsimp only at hround; omega), hround, hp⟩
        · rintro ⟨s, hs', hround, hp⟩
          obtain ⟨children, hk, hx⟩ := (h.listed r p x).mpr ⟨s, hsub x s hs', hround, hp⟩
          have hlt := hawaited hall x s hs'
          exact ⟨children, (hmissing _ _).mpr ⟨by dsimp only; omega, hk⟩, hx⟩
      waits := fun x s hs => h.waits x s (hsub x s hs)
      received := fun x s hs => h.received x s (hsub x s hs)
      digest := fun x s hs => h.digest x s (hsub x s hs)
      parents := fun x s hs => h.parents x s (hsub x s hs)
      positive := fun x s hs => h.positive x s (hsub x s hs)
      children := fun k children hk => h.children k children ((hmissing k children).mp hk).2 }
  refine ⟨released, state', hgc, ⟨?_, fun hall => ⟨(hkept' hall).toMirrored, hawaited hall,
    fun k children hk => ((hmissing k children).mp hk).1⟩⟩, hkept'⟩
  -- what is left behind would be suspended up to the garbage collection round
  rintro ⟨-, hcleared⟩ ⟨x, s⟩ he hle
  have hs := Assoc.mem_entries_iff.mp he
  dsimp only at hle ⊢
  by_contra hnone
  have hun : state.Unexpired gcRound x := by
    rintro k children hk - rfl
    have hround := h.round_of_key hwell hk hs
    rw [← hround, Prod.mk.eta, hk] at hnone
    exact hnone rfl
  have hleft := hkept x (fun hx => by
    have := (h.mem_above_iff hs).mp hx
    omega) hun
  have := hcleared.suspended x s (hleft.trans hs)
  omega

end Kept

end State

/-! ## Whole runs -/

/-- The suspended certificates with the round of the last garbage collection. -/
structure Books (K D : Type) where
  state : State K D
  gcRound : ℕ

inductive BookOp (K D : Type) where
  | insert (certificate : Certificate K D) (missingParents : List D) (allowReinsert : Bool)
  | acceptChildren (round : ℕ) (digest : D)
  | runGc (gcRound : ℕ)

namespace Books

variable [SetOrder D]

/-- An operation under the state lock. There is no state after a panic. -/
def step (books : Books K D) : BookOp K D → Option (Books K D)
  | .insert certificate missingParents allowReinsert =>
    (books.state.insert certificate missingParents allowReinsert).toOption.map
      fun state => { books with state }
  | .acceptChildren round digest =>
    (books.state.acceptChildren round digest).toOption.map
      fun result => { books with state := result.2 }
  | .runGc gcRound => (books.state.runGc gcRound).toOption.map fun result => ⟨result.2, gcRound⟩

def machine : Machine (Books K D) (BookOp K D) where
  start := ⟨.empty, 0⟩
  next := step

/-- A certificate is suspended with missing parents, more than one round above the garbage
collection round, which does not decrease. -/
def Issued (received : Set (Certificate K D)) (books : Books K D) : BookOp K D → Prop
  | .insert certificate missingParents _ =>
    certificate ∈ received ∧ missingParents ≠ [] ∧ missingParents.Nodup ∧
      missingParents ⊆ certificate.parents ∧ books.gcRound + 1 < certificate.round
  | .acceptChildren _ _ => True
  | .runGc gcRound => books.gcRound ≤ gcRound

/-- The garbage collection finds all suspended certificates up to its round. -/
def Finds (books : Books K D) : BookOp K D → Prop
  | .runGc gcRound => books.state.Awaited gcRound
  | _ => True

variable {received : Set (Certificate K D)} {books : Books K D}

theorem kept_of_reached (hwell : WellLinked received)
    (hreached : machine.Reached (fun books op => Issued received books op ∧ books.Finds op)
      books) : books.state.Kept received := by
  refine hreached.invariant (I := fun books : Books K D => books.state.Kept received)
    State.Kept.empty fun books op books' h met eq => ?_
  cases op with
  | insert certificate missingParents allowReinsert =>
    obtain ⟨⟨hc, hne, hnodup, hsub, hround⟩, -⟩ := met
    obtain ⟨state, hstate, rfl⟩ := Option.map_eq_some_iff.mp eq
    exact h.insert hc hne hnodup hsub (by omega) (Except.eq_ok_of_toOption hstate)
  | acceptChildren round digest =>
    obtain ⟨⟨released, state⟩, hstate, rfl⟩ := Option.map_eq_some_iff.mp eq
    exact h.acceptChildren (Except.eq_ok_of_toOption hstate)
  | runGc gcRound =>
    obtain ⟨released, state, hgc, -, hkept⟩ := h.runGc_iff hwell gcRound
    have heq : some (⟨state, gcRound⟩ : Books K D) = some books' := by
      rw [← eq]
      show _ = (books.state.runGc gcRound).toOption.map _
      rw [hgc]
      rfl
    exact Option.some.inj heq ▸ hkept met.2

/-- While garbage collection finds the suspended certificates up to its round, the maps are mirror
images and every suspended certificate misses a parent. It keeps this and clears the maps exactly if
another suspended certificate waits for each suspended one up to its round. -/
theorem mirrored_iff (hwell : WellLinked received)
    (hreached : machine.Reached (fun books op => Issued received books op ∧ books.Finds op)
      books) :
    books.state.Mirrored ∧ ∀ gcRound, books.gcRound ≤ gcRound →
      ∃ books', books.step (.runGc gcRound) = some books' ∧
        (books'.state.Mirrored ∧ books'.state.Cleared gcRound ↔ books.state.Awaited gcRound) := by
  have h := kept_of_reached hwell hreached
  refine ⟨h.toMirrored, fun gcRound _ => ?_⟩
  obtain ⟨released, state, hgc, hiff, -⟩ := h.runGc_iff hwell gcRound
  refine ⟨⟨state, gcRound⟩, ?_, hiff⟩
  show (books.state.runGc gcRound).toOption.map _ = _
  rw [hgc]
  rfl

end Books

instance (state : State K D) (gcRound : ℕ) : Decidable (state.Awaited gcRound) :=
  inferInstanceAs (Decidable (∀ e ∈ state.suspended.entries, _))

namespace Books

instance (books : Books K D) : ∀ op, Decidable (books.Finds op)
  | .runGc gcRound => inferInstanceAs (Decidable (books.state.Awaited gcRound))
  | .insert _ _ _ | .acceptChildren _ _ => .isTrue trivial

instance [DecidableEq K] (received : List (Certificate K D)) (books : Books K D) :
    ∀ op, Decidable (Issued {c | c ∈ received} books op)
  | .insert certificate missingParents _ => inferInstanceAs (Decidable (certificate ∈ received ∧
      missingParents ≠ [] ∧ missingParents.Nodup ∧ missingParents ⊆ certificate.parents ∧
      books.gcRound + 1 < certificate.round))
  | .acceptChildren _ _ => .isTrue trivial
  | .runGc gcRound => inferInstanceAs (Decidable (books.gcRound ≤ gcRound))

end Books

/-- Certificates of three rounds, each the parent of the next. -/
def Sample.threeLinks : List (Certificate (Fin 4) ℕ) :=
  [Sample.link 2, Sample.link 3, Sample.link 4]

theorem Sample.wellLinked_threeLinks : WellLinked {c | c ∈ threeLinks} where
  round := show ∀ x ∈ threeLinks, ∀ y ∈ threeLinks, x.digest = y.digest → x.round = y.round by
    decide
  parents := show ∀ x ∈ threeLinks, ∀ y ∈ threeLinks, x.digest = y.digest → x.parents = y.parents by
    decide
  nodup := show ∀ c ∈ threeLinks, c.parents.Nodup by decide
  above := show ∀ p ∈ threeLinks, ∀ c ∈ threeLinks, p.digest ∈ c.parents → p.round + 1 = c.round by
    decide

/-- The certificate of round four waits for that of round three, so that the garbage collection of
round three finds both. -/
theorem Books.mirrored_iff_sample :
    ∃ books', (⟨⟨[⟨4, ⟨Sample.link 4, [3]⟩⟩, ⟨3, ⟨Sample.link 3, [2]⟩⟩].toAList,
        [⟨(3, 3), [4]⟩, ⟨(2, 2), [3]⟩].toAList⟩, 0⟩ : Books (Fin 4) ℕ).step (.runGc 3) =
          some books' ∧ books'.state.Mirrored ∧ books'.state.Cleared 3 := by
  have hruns : machine.Runs (fun books op => Issued {c | c ∈ Sample.threeLinks} books op ∧
      books.Finds op) ⟨.empty, 0⟩
      [BookOp.insert (Sample.link 3) [2] false, BookOp.insert (Sample.link 4) [3] false] := by
    decide +kernel
  obtain ⟨books', hstep, hiff⟩ := (mirrored_iff Sample.wellLinked_threeLinks
    (Machine.Reached.start.after hruns)).2 3 (by decide)
  exact ⟨books', hstep, hiff.mpr (by decide +kernel)⟩

/-- Garbage collection passes the round of the only suspended certificate: it stays suspended, and
its parent is no longer listed as missing. -/
theorem Books.passed_certificate_stays :
    let books := machine.after ⟨.empty, 0⟩
      [BookOp.insert (Sample.link 3) [2] false, BookOp.runGc 3]
    machine.Reached (fun books op => Issued {c | c ∈ Sample.threeLinks} books op) books ∧
      books.gcRound = 3 ∧ (books.state.suspended.lookup 3).map (·.missingParents) = some [2] ∧
      books.state.missing.keys = [] := by
  intro books
  exact ⟨Machine.Reached.start.after (by decide +kernel), by decide +kernel, by decide +kernel,
    by decide +kernel⟩

end Synchronizer

end Narwhal

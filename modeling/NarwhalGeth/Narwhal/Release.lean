import NarwhalGeth.Lib.EachAfter
import NarwhalGeth.Lib.Fallible
import NarwhalGeth.Narwhal.Synchronizer

/-!
# Releasing suspended certificates

A suspended certificate waits for what it needs: what is not settled is recorded as missing.
`acceptChildren` releases the certificates for which nothing is missing any more, each after what it
needs. What a certificate needs is a parameter, by a relation and by the digest under which it is
missing.
-/

namespace Narwhal

namespace Synchronizer

variable {K D ι : Type} [DecidableEq D] {needs : ι → Certificate K D → Prop} {key : ι → D}
  {received : Set (Certificate K D)} {settled settled' : ι → Prop} {s : SuspendedCertificate K D}
  {missing : Assoc (ℕ × D) (List D)} {state state' : State K D}
  {toAccept : List (SuspendedCertificate K D)} {c : Certificate K D} {missingParents : List D}
  {allowReinsert : Bool} {digest child : D} {fuel gcRound : ℕ}

/-- Every need of a suspended certificate is settled or recorded as missing. -/
structure Waiting (needs : ι → Certificate K D → Prop) (key : ι → D)
    (received : Set (Certificate K D)) (settled : ι → Prop)
    (suspended : Assoc D (SuspendedCertificate K D)) : Prop where
  received : ∀ x s, suspended.lookup x = some s → s.certificate ∈ received
  digest : ∀ x s, suspended.lookup x = some s → s.certificate.digest = x
  needs : ∀ x s, suspended.lookup x = some s → ∀ i, needs i s.certificate →
    settled i ∨ key i ∈ s.missingParents

namespace Waiting

variable {suspended suspended' : Assoc D (SuspendedCertificate K D)}

section

variable (h : Waiting needs key received settled suspended)

include h

theorem mono (hsettled : ∀ i, settled i → settled' i) :
    Waiting needs key received settled' suspended where
  received := h.received
  digest := h.digest
  needs x s hs i hi := (h.needs x s hs i hi).imp_left (hsettled i)

theorem of_subset (hsub : ∀ x s, suspended'.lookup x = some s → suspended.lookup x = some s) :
    Waiting needs key received settled suspended' where
  received x s hs := h.received x s (hsub x s hs)
  digest x s hs := h.digest x s (hsub x s hs)
  needs x s hs := h.needs x s (hsub x s hs)

theorem insert {x : D} (hs : s.certificate ∈ received) (hx : s.certificate.digest = x)
    (hneeds : ∀ i, needs i s.certificate → settled i ∨ key i ∈ s.missingParents) :
    Waiting needs key received settled (suspended.insert x s) where
  received y s' hs' := by
    rcases Assoc.lookup_insert_cases hs' with ⟨-, rfl⟩ | hs'
    · exact hs
    · exact h.received y s' hs'
  digest y s' hs' := by
    rcases Assoc.lookup_insert_cases hs' with ⟨rfl, rfl⟩ | hs'
    · exact hx
    · exact h.digest y s' hs'
  needs y s' hs' := by
    rcases Assoc.lookup_insert_cases hs' with ⟨-, rfl⟩ | hs'
    · exact hneeds
    · exact h.needs y s' hs'

end

end Waiting

/-- Each certificate comes after its needs, which are settled or are certificates before it. -/
def AfterNeeds (needs : ι → Certificate K D → Prop) (key : ι → D) (settled : ι → Prop)
    (certificates : List (Certificate K D)) : Prop :=
  EachAfter (fun before c => ∀ i, needs i c → settled i ∨ ∃ a ∈ before, a.digest = key i)
    certificates

namespace State

/-- The certificates to accept, in order. -/
def Traversal.accepted (t : Traversal K D) : List (Certificate K D) :=
  t.toAccept.map SuspendedCertificate.certificate

omit [DecidableEq D] in
theorem Traversal.accepted_append (suspended : Assoc D (SuspendedCertificate K D))
    (toTraverse : List (ℕ × D)) (t : Traversal K D) (s : SuspendedCertificate K D) :
    Traversal.accepted ⟨suspended, toTraverse, t.toAccept ++ [s]⟩ =
      t.accepted ++ [s.certificate] := by
  simp [Traversal.accepted]

/-- The certificates to accept come after their needs, and what is traversed settles the needs of
its digest. -/
structure Traversal.Ordered (needs : ι → Certificate K D → Prop) (key : ι → D)
    (received : Set (Certificate K D)) (settled : ι → Prop) (t : Traversal K D) : Prop where
  waiting : Waiting needs key received (fun i => settled i ∨ ∃ a ∈ t.accepted, a.digest = key i)
    t.suspended
  ordered : AfterNeeds needs key settled t.accepted
  received : ∀ c ∈ t.accepted, c ∈ received
  traversed : ∀ e ∈ t.toTraverse, ∀ i, key i = e.2 →
    settled i ∨ ∃ a ∈ t.accepted, a.digest = key i

theorem Traversal.Ordered.release {t : Traversal K D} (ht : t.Ordered needs key received settled)
    (hs : s.certificate ∈ received)
    (hlast : ∀ i, needs i s.certificate → settled i ∨ ∃ a ∈ t.accepted, a.digest = key i)
    (child : D) :
    Traversal.Ordered needs key received settled
      { suspended := t.suspended.erase child
        toTraverse := t.toTraverse ++ [(s.certificate.round, s.certificate.digest)]
        toAccept := t.toAccept ++ [s] } := by
  have hgrow : ∀ i, (settled i ∨ ∃ a ∈ t.accepted, a.digest = key i) →
      settled i ∨ ∃ a ∈ t.accepted ++ [s.certificate], a.digest = key i := by
    rintro i (hi | ⟨a, ha, hi⟩)
    · exact .inl hi
    · exact .inr ⟨a, List.mem_append_left _ ha, hi⟩
  constructor <;> simp only [accepted_append]
  · exact (ht.waiting.of_subset fun _ _ => Assoc.lookup_of_lookup_erase).mono hgrow
  · exact ht.ordered.concat hlast
  · intro c hc
    rcases List.mem_append.mp hc with hc | hc
    · exact ht.received c hc
    · rwa [List.mem_singleton.mp hc]
  · intro e he i hi
    rcases List.mem_append.mp he with he | he
    · exact hgrow i (ht.traversed e he i hi)
    · rw [List.mem_singleton.mp he] at hi
      exact .inr ⟨s.certificate, by simp, hi.symm⟩

theorem acceptChild_ordered {t t' : Traversal K D}
    (ht : t.Ordered needs key received settled ∧ ∀ i, key i = digest →
      settled i ∨ ∃ a ∈ t.accepted, a.digest = key i) (h : acceptChild digest t child = .ok t') :
    t'.Ordered needs key received settled ∧ ∀ i, key i = digest →
      settled i ∨ ∃ a ∈ t'.accepted, a.digest = key i := by
  obtain ⟨hordered, hdigest⟩ := ht
  unfold acceptChild at h
  cases hchild : t.suspended.lookup child with
  | none =>
    rw [hchild] at h
    cases h
  | some s =>
    rw [hchild] at h
    dsimp only at h
    have hs := hordered.waiting.received child s hchild
    have hneeds : ∀ i, needs i s.certificate →
        (settled i ∨ ∃ a ∈ t.accepted, a.digest = key i) ∨
          key i ∈ s.missingParents.filter (· ≠ digest) := by
      intro i hi
      rcases hordered.waiting.needs child s hchild i hi with hsettled | hmissing
      · exact .inl hsettled
      · by_cases heq : key i = digest
        · exact .inl (hdigest i heq)
        · exact .inr (List.mem_filter.mpr ⟨hmissing, by simpa using heq⟩)
    split_ifs at h with hempty
    · cases h
      have hlast : ∀ i, needs i s.certificate →
          settled i ∨ ∃ a ∈ t.accepted, a.digest = key i := by
        intro i hi
        refine (hneeds i hi).resolve_right ?_
        rw [List.isEmpty_iff.mp hempty]
        exact List.not_mem_nil
      refine ⟨hordered.release
        (s := { s with missingParents := s.missingParents.filter (· ≠ digest) }) hs hlast child,
        fun i hi => ?_⟩
      rw [Traversal.accepted_append]
      exact (hdigest i hi).imp_right fun ⟨a, ha, heq⟩ => ⟨a, List.mem_append_left _ ha, heq⟩
    · cases h
      exact ⟨⟨hordered.waiting.insert hs (hordered.waiting.digest child s hchild) hneeds,
        hordered.ordered, hordered.received, hordered.traversed⟩, hdigest⟩

theorem acceptChildrenLoop_ordered [SetOrder D] {t : Traversal K D}
    (ht : t.Ordered needs key received settled)
    (h : acceptChildrenLoop fuel missing t = .ok (toAccept, state)) :
    Traversal.Ordered needs key received settled ⟨state.suspended, [], toAccept⟩ ∧
      ∀ k children, state.missing.lookup k = some children →
        missing.lookup k = some children := by
  induction fuel generalizing missing t with
  | zero => cases h
  | succ fuel ih =>
    unfold acceptChildrenLoop at h
    cases hqueue : t.toTraverse with
    | nil =>
      rw [hqueue] at h
      cases h
      exact ⟨⟨ht.waiting, ht.ordered, ht.received, by simp⟩, fun _ _ hk => hk⟩
    | cons e rest =>
      obtain ⟨round, digest⟩ := e
      rw [hqueue] at h
      dsimp only at h
      have hhead := ht.traversed (round, digest) (hqueue ▸ List.mem_cons_self)
      have hrest : Traversal.Ordered needs key received settled { t with toTraverse := rest } :=
        ⟨ht.waiting, ht.ordered, ht.received,
          fun e he => ht.traversed e (hqueue ▸ List.mem_cons_of_mem _ he)⟩
      cases hmissing : missing.lookup (round, digest) with
      | none =>
        rw [hmissing] at h
        exact ih hrest h
      | some children =>
        rw [hmissing] at h
        obtain ⟨t', hfold, hloop⟩ := Except.eq_ok_of_bind h
        obtain ⟨ht', -⟩ := Except.foldlM_invariant
          (fun _ _ _ _ hordered hok => acceptChild_ordered hordered hok) ⟨hrest, hhead⟩ hfold
        obtain ⟨hordered, hsub⟩ := ih ht' hloop
        exact ⟨hordered, fun k cs hk => Assoc.lookup_of_lookup_erase (hsub k cs hk)⟩

/-- What `acceptChildren` returns for a settled certificate comes after its needs, and the needs of
what stays suspended are then settled or missing. -/
theorem acceptChildren_ordered [SetOrder D] {round : ℕ}
    (hwaiting : Waiting needs key received settled state.suspended)
    (hsettled : ∀ i, key i = digest → settled i)
    (h : state.acceptChildren round digest = .ok (toAccept, state')) :
    Traversal.Ordered needs key received settled ⟨state'.suspended, [], toAccept⟩ ∧
      ∀ k children, state'.missing.lookup k = some children →
        state.missing.lookup k = some children := by
  unfold acceptChildren at h
  cases hsuspended : state.suspended.lookup digest with
  | some s =>
    rw [hsuspended] at h
    cases h
  | none =>
    rw [hsuspended] at h
    have hstart : Traversal.Ordered needs key received settled
        ⟨state.suspended, [(round, digest)], []⟩ := by
      refine ⟨hwaiting.mono fun i hi => .inl hi, EachAfter.nil, ?_, ?_⟩
      · intro c hc
        cases hc
      · intro e he i hi
        rw [List.mem_singleton.mp he] at hi
        exact .inl (hsettled i hi)
    exact acceptChildrenLoop_ordered hstart h

/-! ## Suspending a certificate -/

/-- The children of a missing certificate are one round above it. -/
def ChildrenAbove (received : Set (Certificate K D)) (missing : Assoc (ℕ × D) (List D)) : Prop :=
  ∀ k children, missing.lookup k = some children →
    ∀ c ∈ received, c.digest ∈ children → c.round = k.1 + 1

theorem insertMissing_childrenAbove (hpos : c.round ≠ 0)
    (hbound : ∀ x ∈ received, x.digest = c.digest → x.round = c.round)
    {missing' : Assoc (ℕ × D) (List D)} {d : D} (habove : ChildrenAbove received missing)
    (h : insertMissing (K := K) (c.round - 1) c.digest missing d = .ok missing') :
    ChildrenAbove received missing' := by
  unfold insertMissing at h
  dsimp only at h
  split_ifs at h
  cases h
  intro k children hk x hx hmem
  rcases Assoc.lookup_insert_cases hk with ⟨rfl, rfl⟩ | hk
  · rcases List.mem_cons.mp hmem with heq | hmem
    · rw [hbound x hx heq]
      dsimp only
      omega
    · cases hold : missing.lookup (c.round - 1, d) with
      | none =>
        rw [hold] at hmem
        exact absurd hmem List.not_mem_nil
      | some children =>
        rw [hold] at hmem
        exact habove _ _ hold x hx hmem
  · exact habove k children hk x hx hmem

/-- A certificate that is inserted was suspended before, or is added with its missing parents. -/
theorem insert_cases (h : state.insert c missingParents allowReinsert = .ok state') :
    state' = state ∨ state.suspended.lookup c.digest = none ∧ ∃ missing,
      missingParents.foldlM (insertMissing (K := K) (c.round - 1) c.digest) state.missing =
        .ok missing ∧
      state' = ⟨state.suspended.insert c.digest ⟨c, missingParents⟩, missing⟩ := by
  unfold State.insert at h
  dsimp only at h
  cases hold : state.suspended.lookup c.digest with
  | some s =>
    rw [hold] at h
    dsimp only at h
    split_ifs at h
    cases h
    exact .inl rfl
  | none =>
    rw [hold] at h
    obtain ⟨missing, hfold, heq⟩ := Except.eq_ok_of_map h
    exact .inr ⟨rfl, missing, hfold, heq.symm⟩

theorem insert_waiting (hc : c ∈ received)
    (hwaiting : Waiting needs key received settled state.suspended)
    (hmissing : ∀ i, needs i c → settled i ∨ key i ∈ missingParents)
    (h : state.insert c missingParents allowReinsert = .ok state') :
    Waiting needs key received settled state'.suspended := by
  obtain rfl | ⟨-, missing, -, rfl⟩ := insert_cases h
  · exact hwaiting
  · exact hwaiting.insert hc rfl hmissing

theorem insert_childrenAbove (hpos : c.round ≠ 0)
    (hbound : ∀ x ∈ received, x.digest = c.digest → x.round = c.round)
    (habove : ChildrenAbove received state.missing)
    (h : state.insert c missingParents allowReinsert = .ok state') :
    ChildrenAbove received state'.missing := by
  obtain rfl | ⟨-, missing, hfold, rfl⟩ := insert_cases h
  · exact habove
  · exact Except.foldlM_invariant
      (fun _ _ _ _ hm hok => insertMissing_childrenAbove hpos hbound hm hok) habove hfold

/-! ## Garbage collection -/

theorem mem_certificatesAboveGcRound [SetOrder D] {d : D} :
    d ∈ state.certificatesAboveGcRound gcRound ↔
      ∃ k children, state.missing.lookup k = some children ∧ k.1 = gcRound ∧ d ∈ children := by
  rw [certificatesAboveGcRound, SetOrder.mem_order, List.mem_dedup, List.mem_flatMap]
  constructor
  · rintro ⟨e, he, hd⟩
    obtain ⟨he, hround⟩ := List.mem_filter.mp he
    exact ⟨e.1, e.2, Assoc.mem_entries_iff.mp he, of_decide_eq_true hround, hd⟩
  · rintro ⟨k, children, hk, hround, hd⟩
    exact ⟨⟨k, children⟩,
      List.mem_filter.mpr ⟨Assoc.mem_entries_iff.mpr hk, decide_eq_true hround⟩, hd⟩

theorem certificatesAboveGcRound_round [SetOrder D]
    (hwaiting : Waiting needs key received settled state.suspended)
    (habove : ChildrenAbove received state.missing) {d : D}
    (hd : d ∈ state.certificatesAboveGcRound gcRound) (hs : state.suspended.lookup d = some s) :
    s.certificate.round = gcRound + 1 := by
  obtain ⟨k, children, hk, hround, hd⟩ := mem_certificatesAboveGcRound.mp hd
  rw [habove k children hk _ (hwaiting.received d s hs) (by rwa [hwaiting.digest d s hs]), hround]

theorem releaseAboveGc_fold {suspended : Assoc D (SuspendedCertificate K D)} {digests : List D}
    {acc : List (SuspendedCertificate K D) × Assoc D (SuspendedCertificate K D)}
    (h : digests.foldlM releaseAboveGc ([], suspended) = .ok acc) :
    (∀ s ∈ acc.1, ∃ d ∈ digests, ∃ s', suspended.lookup d = some s' ∧
        s.certificate = s'.certificate) ∧
      ∀ d s, acc.2.lookup d = some s → suspended.lookup d = some s := by
  refine Except.foldlM_invariant (I := fun acc => (∀ s ∈ acc.1, ∃ d ∈ digests, ∃ s',
    suspended.lookup d = some s' ∧ s.certificate = s'.certificate) ∧
      ∀ d s, acc.2.lookup d = some s → suspended.lookup d = some s) ?_
    ⟨nofun, fun d s hs => hs⟩ h
  rintro acc acc' d hd ⟨hlist, hsub⟩ hok
  unfold releaseAboveGc at hok
  cases hs : acc.2.lookup d with
  | none =>
    rw [hs] at hok
    cases hok
  | some s =>
    rw [hs] at hok
    cases hok
    refine ⟨fun x hx => ?_, fun d' s' hs' => hsub d' s' (Assoc.lookup_of_lookup_erase hs')⟩
    rcases List.mem_append.mp hx with hx | hx
    · exact hlist x hx
    · rw [List.mem_singleton.mp hx]
      exact ⟨d, hd, s, hsub d s hs, rfl⟩

/-- What garbage collection releases was a child of what is missing at the garbage collection round,
and what it leaves was there before. -/
theorem runGc_cases [SetOrder D] {released : List (SuspendedCertificate K D)}
    (h : state.runGc gcRound = .ok (released, state')) :
    (∀ s ∈ released, ∃ d ∈ state.certificatesAboveGcRound gcRound, ∃ s',
        state.suspended.lookup d = some s' ∧ s.certificate = s'.certificate) ∧
      (∀ d s, state'.suspended.lookup d = some s → state.suspended.lookup d = some s) ∧
      ∀ k children, state'.missing.lookup k = some children →
        state.missing.lookup k = some children := by
  obtain ⟨acc, hfold, heq⟩ := Except.eq_ok_of_map h
  cases heq
  obtain ⟨hreleased, hsub⟩ := releaseAboveGc_fold hfold
  refine ⟨fun s hs => ?_, fun d s hs => Assoc.lookup_of_lookup_foldl_erase _ (hsub d s hs),
    fun k children hk => ?_⟩
  · obtain ⟨d, hd, s', hs', hcert⟩ := hreleased s hs
    exact ⟨d, hd, s', Assoc.lookup_of_lookup_foldl_erase _ hs', hcert⟩
  · rw [Assoc.lookup_retain] at hk
    obtain ⟨children', hold, hif⟩ := Option.bind_eq_some_iff.mp hk
    split_ifs at hif
    rw [← Option.some.inj hif]
    exact hold

/-! ## The loop ends -/

theorem acceptChild_size {t t' : Traversal K D} (h : acceptChild digest t child = .ok t') :
    t'.suspended.keys.length + t'.toTraverse.length =
      t.suspended.keys.length + t.toTraverse.length := by
  unfold acceptChild at h
  cases hchild : t.suspended.lookup child with
  | none =>
    rw [hchild] at h
    cases h
  | some s =>
    rw [hchild] at h
    dsimp only at h
    split_ifs at h <;> cases h
    · have hkeys := Assoc.length_keys_erase hchild
      simp only [List.length_append, List.length_singleton]
      omega
    · simp only [Assoc.length_keys_insert hchild]

theorem foldlM_acceptChild_error {children : List D} {t : Traversal K D} {fault : Fault K D}
    (h : children.foldlM (acceptChild digest) t = .error fault) :
    (.error fault : Except (Fault K D) (List (SuspendedCertificate K D) × State K D)) ≠
      .error (.panic "out of fuel") := by
  induction children generalizing t with
  | nil => cases h
  | cons child children ih =>
    rw [List.foldlM_cons] at h
    cases hchild : acceptChild digest t child with
    | ok t' =>
      rw [hchild] at h
      exact ih h
    | error fault' =>
      rw [hchild] at h
      cases h
      unfold acceptChild at hchild
      split at hchild
      · cases hchild
        simp
      · dsimp only at hchild
        split_ifs at hchild

/-- Each iteration takes a certificate from the queue, and each one put there leaves the suspended
ones, so the fuel suffices. -/
theorem acceptChildrenLoop_fuel [SetOrder D] {t : Traversal K D}
    (hfuel : t.suspended.keys.length + t.toTraverse.length < fuel) :
    acceptChildrenLoop fuel missing t ≠ .error (.panic "out of fuel") := by
  induction fuel generalizing missing t with
  | zero => omega
  | succ fuel ih =>
    unfold acceptChildrenLoop
    cases hqueue : t.toTraverse with
    | nil => simp
    | cons e rest =>
      rw [hqueue, List.length_cons] at hfuel
      dsimp only
      cases hmissing : missing.lookup (e.1, e.2) with
      | none => exact ih (by dsimp only; omega)
      | some children =>
        dsimp only
        cases hfold : (SetOrder.order children).foldlM (acceptChild e.2)
            { t with toTraverse := rest } with
        | error fault => exact foldlM_acceptChild_error hfold
        | ok t' =>
          have hsize := Except.foldlM_invariant
            (I := fun t' => t'.suspended.keys.length + t'.toTraverse.length =
              t.suspended.keys.length + rest.length)
            (fun _ _ _ _ hsize hok => (acceptChild_size hok).trans hsize) rfl hfold
          exact ih (by omega)

theorem acceptChildren_fuel [SetOrder D] (state : State K D) (round : ℕ) (digest : D) :
    state.acceptChildren round digest ≠ .error (.panic "out of fuel") := by
  unfold acceptChildren
  cases state.suspended.lookup digest with
  | some s => simp
  | none => exact acceptChildrenLoop_fuel (by simp)

end State

end Synchronizer

end Narwhal

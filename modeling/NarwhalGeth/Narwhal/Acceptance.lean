import NarwhalGeth.Lib.CausalOrder
import NarwhalGeth.Narwhal.Release

/-!
# Certificates are accepted in causal order

A parent is settled when it was accepted or is not needed any more. Every parent of a suspended
certificate is settled or recorded as missing, so a certificate whose last missing parent is
accepted can follow it. The queue of accepted certificates stays in causal order.
-/

namespace Narwhal

variable {K D : Type} {c p : Certificate K D} {e : ℕ × D} {gcRound : ℕ}

/-- The parents of a certificate in the pool. -/
def Pool.Parent (P : Pool K D) (p c : Certificate K D) : Prop := p ∈ P ∧ p.IsParent c

namespace Synchronizer

variable [DecidableEq D] {P : Pool K D} {settled settled' : Certificate K D → Prop}
  {state state' : State K D}

/-! ## The suspended certificates -/

/-- Every parent of a suspended certificate is settled or recorded as missing. -/
structure Covers (P : Pool K D) (settled : Certificate K D → Prop)
    (suspended : Assoc D (SuspendedCertificate K D)) : Prop where
  pool : ∀ d s, suspended.lookup d = some s → s.certificate ∈ P
  digest : ∀ d s, suspended.lookup d = some s → s.certificate.digest = d
  round : ∀ d s, suspended.lookup d = some s → s.certificate.round ≠ 1
  parents : ∀ d s, suspended.lookup d = some s → ∀ p, P.Parent p s.certificate →
    settled p ∨ p.digest ∈ s.missingParents

namespace Covers

variable {suspended suspended' : Assoc D (SuspendedCertificate K D)}

/-- A suspended certificate waits for its parents in the pool. -/
theorem iff_waiting : Covers P settled suspended ↔
    Waiting (fun p : {p // p ∈ P} => p.1.IsParent) (fun p => p.1.digest)
      {c | c ∈ P ∧ c.round ≠ 1} (fun p => settled p.1) suspended := by
  constructor
  · intro h
    exact ⟨fun d s hs => ⟨h.pool d s hs, h.round d s hs⟩, h.digest,
      fun d s hs p hp => h.parents d s hs p.1 ⟨p.2, hp⟩⟩
  · intro h
    exact ⟨fun d s hs => (h.received d s hs).1, h.digest, fun d s hs => (h.received d s hs).2,
      fun d s hs p hp => h.needs d s hs ⟨p, hp.1⟩ hp.2⟩

theorem mono (h : Covers P settled suspended) (hsettled : ∀ p ∈ P, settled p → settled' p) :
    Covers P settled' suspended :=
  iff_waiting.mpr ((iff_waiting.mp h).mono fun p => hsettled p.1 p.2)

theorem of_subset (h : Covers P settled suspended)
    (hsub : ∀ d s, suspended'.lookup d = some s → suspended.lookup d = some s) :
    Covers P settled suspended' :=
  iff_waiting.mpr ((iff_waiting.mp h).of_subset hsub)

end Covers

/-! ## Releasing the children of an accepted certificate -/

namespace State

/-- The certificates to accept are in causal order, and those to traverse are among them or were
settled before. -/
structure Traversal.Sound (P : Pool K D) (settled : Certificate K D → Prop) (t : Traversal K D) :
    Prop where
  covers : Covers P (fun p => settled p ∨ p ∈ t.accepted) t.suspended
  causal : CausalOrder P.Parent settled t.accepted
  pool : ∀ c ∈ t.accepted, c ∈ P
  traversed : ∀ e ∈ t.toTraverse, ∀ p ∈ P, p.digest = e.2 → settled p ∨ p ∈ t.accepted

/-- What `acceptChildren` returns for a settled certificate can be accepted in the order given, and
the parents of what stays suspended are then settled or missing. -/
theorem acceptChildren_sound [SetOrder D] (hc : c ∈ P) (hcovers : Covers P settled state.suspended)
    (hsettled : settled c) {toAccept : List (SuspendedCertificate K D)}
    (h : state.acceptChildren c.round c.digest = .ok (toAccept, state')) :
    Traversal.Sound P settled ⟨state'.suspended, [], toAccept⟩ ∧
      ∀ key children, state'.missing.lookup key = some children →
        state.missing.lookup key = some children := by
  have hsettles : ∀ p : {p // p ∈ P}, p.1.digest = c.digest → settled p.1 := by
    intro p hp
    rw [P.eq_of_digest p.1 p.2 c hc hp]
    exact hsettled
  obtain ⟨ht, hmissing⟩ := acceptChildren_ordered (Covers.iff_waiting.mp hcovers) hsettles h
  refine ⟨⟨Covers.iff_waiting.mpr (ht.waiting.mono fun p hp => ?_), ?_,
    fun x hx => (ht.received x hx).1, by simp⟩, hmissing⟩
  · rcases hp with hold | ⟨a, ha, heq⟩
    · exact .inl hold
    · rw [← P.eq_of_digest a (ht.received a ha).1 p.1 p.2 heq]
      exact .inr ha
  · refine .of_eachAfter fun before x after heq p hp => ?_
    rcases ht.ordered before x after heq ⟨p, hp.1⟩ hp.2 with hold | ⟨a, ha, hdigest⟩
    · exact .inl hold
    · have hmem : a ∈ Traversal.accepted ⟨state'.suspended, [], toAccept⟩ := by
        rw [heq]
        exact List.mem_append_left _ ha
      rw [← P.eq_of_digest a (ht.received a hmem).1 p hp.1 hdigest]
      exact .inr ha

/-! ## Suspending a certificate -/

/-- The children of a missing certificate are one round above it. -/
def RoundsMatch (P : Pool K D) (missing : Assoc (ℕ × D) (List D)) : Prop :=
  ∀ key children, missing.lookup key = some children →
    ∀ c ∈ P, c.digest ∈ children → c.round = key.1 + 1

theorem insert_sound (hc : c ∈ P) (hround : c.round ≠ 1)
    (hcovers : Covers P settled state.suspended) (hmatch : RoundsMatch P state.missing)
    {missingParents : List D} {allowReinsert : Bool}
    (hmissing : ∀ p, P.Parent p c → settled p ∨ p.digest ∈ missingParents)
    (h : state.insert c missingParents allowReinsert = .ok state') :
    Covers P settled state'.suspended ∧ RoundsMatch P state'.missing := by
  refine ⟨Covers.iff_waiting.mpr (insert_waiting ⟨hc, hround⟩ (Covers.iff_waiting.mp hcovers)
    (fun p hp => hmissing p.1 ⟨p.2, hp⟩) h), ?_⟩
  have hpos := P.round_pos c hc
  have habove : ChildrenAbove {c | c ∈ P} state.missing := hmatch
  exact insert_childrenAbove (by omega) (fun x hx heq => by rw [P.eq_of_digest x hx c hc heq])
    habove h

/-! ## Garbage collection -/

/-- The missing parents that garbage collection gives up. -/
def waivedByGc [SetOrder D] (state : State K D) (gcRound : ℕ) : List (ℕ × D) :=
  (state.certificatesAboveGcRound gcRound).flatMap fun digest =>
    match state.suspended.lookup digest with
    | none => []
    | some suspendedCert => suspendedCert.missingParents.map (gcRound, ·)

/-- What garbage collection gives up is at its round, which is then not that of genesis. -/
theorem round_of_mem_waivedByGc [SetOrder D] (hcovers : Covers P settled state.suspended)
    (hmatch : RoundsMatch P state.missing) (he : e ∈ state.waivedByGc gcRound) :
    e.1 = gcRound ∧ 1 ≤ e.1 := by
  obtain ⟨d, hd, he⟩ := List.mem_flatMap.mp he
  cases hs : state.suspended.lookup d with
  | none =>
    rw [hs] at he
    exact absurd he List.not_mem_nil
  | some s =>
    rw [hs] at he
    obtain ⟨p, -, rfl⟩ := List.mem_map.mp he
    have hround := certificatesAboveGcRound_round (Covers.iff_waiting.mp hcovers)
      (fun k children hk c hc => hmatch k children hk c hc.1) hd hs
    have hone := hcovers.round d s hs
    exact ⟨rfl, by dsimp only; omega⟩

/-- Garbage collection releases certificates one round above the garbage collection round, whose
parents are settled or given up. -/
theorem runGc_sound [SetOrder D] (hcovers : Covers P settled state.suspended)
    (hmatch : RoundsMatch P state.missing) {released : List (SuspendedCertificate K D)}
    (h : state.runGc gcRound = .ok (released, state')) :
    (∀ s ∈ released, s.certificate ∈ P ∧ s.certificate.round = gcRound + 1 ∧
        ∀ p, P.Parent p s.certificate →
          settled p ∨ (gcRound, p.digest) ∈ state.waivedByGc gcRound) ∧
      Covers P settled state'.suspended ∧ RoundsMatch P state'.missing := by
  obtain ⟨hreleased, hsub, hmissing⟩ := runGc_cases h
  refine ⟨fun s hs => ?_, hcovers.of_subset hsub, fun key children hkey =>
    hmatch key children (hmissing key children hkey)⟩
  obtain ⟨d, hd, s', hs', hcert⟩ := hreleased s hs
  rw [hcert]
  refine ⟨hcovers.pool d s' hs', certificatesAboveGcRound_round (Covers.iff_waiting.mp hcovers)
      (fun k children hk c hc => hmatch k children hk c hc.1) hd hs',
    fun p hp => (hcovers.parents d s' hs' p hp).imp_right fun hp => ?_⟩
  refine List.mem_flatMap.mpr ⟨d, hd, ?_⟩
  rw [hs']
  exact List.mem_map_of_mem hp

end State

/-! ## The queue to consensus -/

namespace Inner

variable [DecidableEq K] {past past' : Certificate K D → Prop} {inner inner' : Inner K D}
  {config : Config K D}

/-- A certificate is settled if it was accepted, or is in the past of the queue. -/
def Settled (past : Certificate K D → Prop) (inner : Inner K D) (p : Certificate K D) : Prop :=
  past p ∨ p ∈ inner.newCertificates

/-- The queue is in causal order, and what is stored is settled. -/
structure Queued (P : Pool K D) (past : Certificate K D → Prop) (inner : Inner K D) : Prop where
  pool : ∀ c ∈ inner.newCertificates, c ∈ P
  causal : CausalOrder P.Parent past inner.newCertificates
  stored : ∀ p ∈ P, inner.certificateStore.contains p.digest = true → inner.Settled past p

/-- The invariant of the synchronizer. -/
structure Sound (P : Pool K D) (past : Certificate K D → Prop) (inner : Inner K D) : Prop
    extends Queued P past inner where
  covers : Covers P (inner.Settled past) inner.state.suspended
  rounds : State.RoundsMatch P inner.state.missing

omit [DecidableEq K] in
theorem Sound.new : Sound P past (new : Inner K D) where
  pool := nofun
  causal := trivial
  stored p _ h := by simp [Inner.new, CertificateStore.empty, CertificateStore.contains] at h
  covers := ⟨nofun, nofun, nofun, nofun⟩
  rounds := nofun

theorem Queued.accept (h : Queued P past inner) (hc : c ∈ P)
    (hparents : ∀ p, P.Parent p c → inner.Settled past p) :
    Queued P past (inner.acceptCertificateInternal c) where
  pool x hx := by
    rcases List.mem_append.mp hx with hx | hx
    · exact h.pool x hx
    · rwa [List.mem_singleton.mp hx]
  causal := h.causal.append (.singleton hparents)
  stored p hp hstored := by
    change past p ∨ p ∈ inner.newCertificates ++ [c]
    by_cases heq : p.digest = c.digest
    · rw [P.eq_of_digest p hp c hc heq]
      simp
    · refine (h.stored p hp ?_).imp_right (List.mem_append_left _)
      rwa [acceptCertificateInternal, CertificateStore.contains, CertificateStore.write,
        AList.lookup_insert_ne heq] at hstored

theorem Queued.acceptAll (h : Queued P past inner) {cs : List (Certificate K D)}
    (hpool : ∀ c ∈ cs, c ∈ P) (hcausal : CausalOrder P.Parent (inner.Settled past) cs) :
    Queued P past (cs.foldl acceptCertificateInternal inner) := by
  induction cs generalizing inner with
  | nil => exact h
  | cons c cs ih =>
    refine ih (h.accept (hpool c List.mem_cons_self) hcausal.1)
      (fun x hx => hpool x (List.mem_cons_of_mem _ hx)) (hcausal.2.mono fun p hp => ?_)
    change past p ∨ p ∈ inner.newCertificates ++ [c]
    rw [List.mem_append, List.mem_singleton, ← or_assoc]
    exact hp

theorem foldl_accept_eq (inner : Inner K D) (cs : List (Certificate K D)) :
    (cs.foldl acceptCertificateInternal inner).newCertificates = inner.newCertificates ++ cs ∧
      (cs.foldl acceptCertificateInternal inner).state = inner.state ∧
      (cs.foldl acceptCertificateInternal inner).gcRound = inner.gcRound := by
  induction cs generalizing inner with
  | nil => simp
  | cons c cs ih =>
    obtain ⟨hqueue, hstate, hround⟩ := ih (inner.acceptCertificateInternal c)
    refine ⟨?_, hstate, hround⟩
    rw [List.foldl_cons, hqueue]
    simp [acceptCertificateInternal]

/-- The certificate is accepted first, and then what it releases. -/
theorem acceptWithChildren_cases [SetOrder D] (hok : inner.acceptWithChildren c = .ok inner') :
    ∃ toAccept state, inner.state.acceptChildren c.round c.digest = .ok (toAccept, state) ∧
      inner' = (c :: toAccept.map SuspendedCertificate.certificate).foldl
        acceptCertificateInternal { inner with state } := by
  obtain ⟨⟨toAccept, state⟩, hchildren, hrest⟩ := Except.eq_ok_of_bind hok
  refine ⟨toAccept, state, hchildren, ?_⟩
  rw [List.foldl_cons, List.foldl_map]
  exact (Except.ok.inj hrest).symm

/-- Accepting a certificate with settled parents, and the suspended certificates it releases. -/
theorem Sound.acceptWithChildren [SetOrder D] (h : Sound P past inner) (hc : c ∈ P)
    (hparents : ∀ p, P.Parent p c → inner.Settled past p)
    (hok : inner.acceptWithChildren c = .ok inner') :
    Sound P past inner' ∧ inner'.gcRound = inner.gcRound ∧
      ∀ p, inner.Settled past p → inner'.Settled past p := by
  obtain ⟨toAccept, state, hchildren, heq⟩ := acceptWithChildren_cases hok
  have hcovers : Covers P (fun p => inner.Settled past p ∨ p = c) inner.state.suspended :=
    h.covers.mono fun p _ hp => .inl hp
  obtain ⟨ht, hmissing⟩ := State.acceptChildren_sound hc hcovers (.inr rfl) hchildren
  obtain ⟨hqueue, hstate, hround⟩ := foldl_accept_eq { inner with state }
    (c :: toAccept.map SuspendedCertificate.certificate)
  rw [← heq] at hqueue hstate hround
  have hsettled : ∀ p, (inner.Settled past p ∨ p = c) ∨
      p ∈ toAccept.map SuspendedCertificate.certificate → inner'.Settled past p := by
    intro p hp
    rw [Settled, hqueue, List.mem_append, List.mem_cons, ← or_assoc, ← or_assoc]
    exact hp
  have hqueued : Queued P past { inner with state } := ⟨h.pool, h.causal, h.stored⟩
  refine ⟨⟨?_, ?_, ?_⟩, hround, fun p hp => hsettled p (.inl (.inl hp))⟩
  · rw [heq]
    refine hqueued.acceptAll (fun x hx => ?_) ⟨hparents, ht.causal⟩
    rcases List.mem_cons.mp hx with rfl | hx
    · exact hc
    · exact ht.pool x hx
  · rw [hstate]
    exact ht.covers.mono fun p _ => hsettled p
  · rw [hstate]
    exact fun key children hkey => h.rounds key children (hmissing key children hkey)

/-- The missing parents of a certificate, with their round. -/
def missing (config : Config K D) (inner : Inner K D) (c : Certificate K D) : List (ℕ × D) :=
  match inner.getMissingParents config c with
  | .ok digests => digests.map (c.round - 1, ·)
  | .error _ => []

theorem round_ne_one_of_missing {d : D} {ds : List D}
    (h : inner.getMissingParents config c = .ok (d :: ds)) : c.round ≠ 1 := by
  intro hone
  rw [Inner.getMissingParents, if_pos hone] at h
  cases hfind : c.parents.find? (· ∉ config.genesis) with
  | some d =>
    rw [hfind] at h
    cases h
  | none =>
    rw [hfind] at h
    cases h

theorem round_of_mem_missing (he : e ∈ inner.missing config c) :
    e.1 = c.round - 1 ∧ c.round ≠ 1 := by
  unfold missing at he
  cases hok : inner.getMissingParents config c with
  | error err =>
    rw [hok] at he
    exact absurd he List.not_mem_nil
  | ok digests =>
    rw [hok] at he
    obtain ⟨d, hd, rfl⟩ := List.mem_map.mp he
    cases digests with
    | nil => exact absurd hd List.not_mem_nil
    | cons d ds => exact ⟨rfl, round_ne_one_of_missing hok⟩

theorem Sound.getMissingParents (h : Sound P past inner) {digests : List D}
    (hok : inner.getMissingParents config c = .ok digests) (hp : P.Parent p c) :
    inner.Settled past p ∨ p.digest ∈ digests := by
  unfold Inner.getMissingParents at hok
  split_ifs at hok with hone
  · have hround := hp.2.1
    have hpos := P.round_pos p hp.1
    omega
  · cases hok
    by_cases hstored : inner.certificateStore.contains p.digest
    · exact .inl (h.stored p hp.1 hstored)
    · exact .inr (List.mem_filter.mpr ⟨hp.2.2, by simpa using hstored⟩)

theorem Sound.settled_or_missing (h : Sound P past inner) (hp : P.Parent p c) :
    inner.Settled past p ∨ (p.round, p.digest) ∈ inner.missing config c := by
  have hround := hp.2.1
  have hpos := P.round_pos p hp.1
  have hnone : c.round ≠ 1 := by omega
  have heq : inner.getMissingParents config c =
      .ok (c.parents.filter fun d => !inner.certificateStore.contains d) := if_neg hnone
  refine (h.getMissingParents heq hp).imp_right fun hmem => ?_
  rw [missing, heq, show p.round = c.round - 1 by omega]
  exact List.mem_map_of_mem hmem

/-- A call under the lock keeps the invariant if the parents it does not wait for are settled. -/
theorem Sound.underLock [SetOrder D] (h : Sound P past inner) (hc : c ∈ P) {earlySuspend : Bool}
    (hwaived : ¬(earlySuspend ∧ inner.state.checkSuspended c.digest) →
      c.round ≤ inner.gcRound + 1 → ∀ p, P.Parent p c →
        (p.round, p.digest) ∈ inner.missing config c → inner.Settled past p)
    {answer : Except (DagError K D) Unit}
    (hok : inner.underLock config c earlySuspend = .ok (answer, inner')) :
    Sound P past inner' ∧ inner'.gcRound = inner.gcRound := by
  unfold Inner.underLock at hok
  split_ifs at hok with hsuspended hround
  · cases hok
    exact ⟨h, rfl⟩
  · cases hparents : inner.getMissingParents config c with
    | error e =>
      rw [hparents] at hok
      cases hok
      exact ⟨h, rfl⟩
    | ok digests =>
      rw [hparents] at hok
      cases digests with
      | nil =>
        obtain ⟨accepted, haccept, heq⟩ := Except.eq_ok_of_map hok
        cases heq
        obtain ⟨hsound, hgc, -⟩ := h.acceptWithChildren hc (fun p hp =>
          (h.getMissingParents hparents hp).resolve_right List.not_mem_nil) haccept
        exact ⟨hsound, hgc⟩
      | cons d ds =>
        obtain ⟨state, hinsert, heq⟩ := Except.eq_ok_of_map hok
        cases heq
        obtain ⟨hcovers, hrounds⟩ := State.insert_sound hc (round_ne_one_of_missing hparents)
          h.covers h.rounds
          (fun p hp => h.getMissingParents hparents hp) hinsert
        exact ⟨⟨⟨h.pool, h.causal, h.stored⟩, hcovers, hrounds⟩, rfl⟩
  · obtain ⟨accepted, haccept, heq⟩ := Except.eq_ok_of_map hok
    cases heq
    obtain ⟨hsound, hgc, -⟩ := h.acceptWithChildren hc (fun p hp =>
      (h.settled_or_missing hp).elim id fun hmem =>
        hwaived hsuspended (by omega) p hp hmem) haccept
    exact ⟨hsound, hgc⟩

theorem Sound.collectGarbage [SetOrder D] (h : Sound P past inner)
    (hwaived : ∀ p ∈ P, (p.round, p.digest) ∈ inner.state.waivedByGc gcRound →
      p.round = gcRound → past p) (hok : inner.collectGarbage gcRound = .ok inner') :
    Sound P past inner' ∧ inner'.gcRound = inner.gcRound := by
  obtain ⟨⟨released, state⟩, hgc, hfold⟩ := Except.eq_ok_of_bind hok
  obtain ⟨hreleased, hcovers, hrounds⟩ := State.runGc_sound h.covers h.rounds hgc
  have hsettled : ∀ s ∈ released, ∀ p, P.Parent p s.certificate → inner.Settled past p := by
    intro s hs p hp
    obtain ⟨-, hround, hparents⟩ := hreleased s hs
    have hpround : p.round = gcRound := by
      have := hp.2.1
      omega
    exact (hparents p hp).elim id fun hmem => .inl (hwaived p hp.1 (hpround.symm ▸ hmem) hpround)
  have hstart : Sound P past { inner with state } :=
    ⟨⟨h.pool, h.causal, h.stored⟩, hcovers, hrounds⟩
  obtain ⟨hsound, hround, -⟩ := Except.foldlM_invariant
    (I := fun i => Sound P past i ∧ i.gcRound = inner.gcRound ∧
      ∀ p, inner.Settled past p → i.Settled past p)
    (fun i i' s hs ⟨hi, hround, hmono⟩ hstep => by
      obtain ⟨hi', hround', hmono'⟩ := hi.acceptWithChildren (hreleased s hs).1
        (fun p hp => hmono p (hsettled s hs p hp)) hstep
      exact ⟨hi', hround'.trans hround, fun p hp => hmono' p (hmono p hp)⟩)
    ⟨hstart, rfl, fun p hp => hp⟩ hfold
  exact ⟨hsound, hround⟩

omit [DecidableEq K] in
theorem Sound.consume (h : Sound P past inner) {rest : List (Certificate K D)}
    (hqueue : inner.newCertificates = c :: rest) (hpast : ∀ p, past p ∨ p = c → past' p) :
    Sound P past' { inner with newCertificates := rest } := by
  have hcausal := h.causal
  rw [hqueue] at hcausal
  have hsettled : ∀ p, inner.Settled past p →
      Settled past' { inner with newCertificates := rest } p := by
    intro p hp
    rw [Settled, hqueue, List.mem_cons, ← or_assoc] at hp
    exact hp.imp_left (hpast p)
  exact
    { pool := fun x hx => h.pool x (by rw [hqueue]; exact List.mem_cons_of_mem _ hx)
      causal := hcausal.2.mono hpast
      stored := fun p hp hstored => hsettled p (h.stored p hp hstored)
      covers := h.covers.mono fun p _ => hsettled p
      rounds := h.rounds }

end Inner

end Synchronizer

end Narwhal

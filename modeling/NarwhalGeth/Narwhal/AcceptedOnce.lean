import NarwhalGeth.Narwhal.Arrival

/-!
# How often a certificate is accepted

Every acceptance takes a digest from a call or from the suspended certificates, so that none is
accepted twice as long as a call only takes the lock while its certificate is not stored. But the
store is asked before the lock is taken: of two calls for one certificate, both may find that it is
not stored.
-/

namespace Narwhal

namespace Synchronizer

variable {K D : Type} [DecidableEq D] {toAccept released : List (SuspendedCertificate K D)}
  {c : Certificate K D} {state state' : State K D} {digest : D} {gcRound : ℕ}

/-- The suspended certificates are filed under their digests. -/
def Filed (suspended : Assoc D (SuspendedCertificate K D)) : Prop :=
  ∀ x s, suspended.lookup x = some s → s.certificate.digest = x

namespace State

/-- The digests of the certificates to accept and of the suspended ones. -/
def Traversal.digests (t : Traversal K D) : List D :=
  t.toAccept.map (·.certificate.digest) ++ t.suspended.keys

theorem acceptChild_digests {child : D} {t t' : Traversal K D} (hfiled : Filed t.suspended)
    (h : acceptChild digest t child = .ok t') :
    Filed t'.suspended ∧ t'.digests.Perm t.digests := by
  unfold acceptChild at h
  cases hchild : t.suspended.lookup child with
  | none =>
    rw [hchild] at h
    cases h
  | some s =>
    rw [hchild] at h
    dsimp only at h
    have hmem : child ∈ t.suspended.keys := Assoc.mem_keys_of_lookup hchild
    split_ifs at h with hempty
    · cases h
      refine ⟨fun x s hs => hfiled x s (Assoc.lookup_of_lookup_erase hs), ?_⟩
      simp only [Traversal.digests, List.map_append, List.map_cons, List.map_nil, AList.keys_erase,
        List.append_assoc, List.singleton_append, hfiled child s hchild]
      exact (List.perm_cons_erase hmem).symm.append_left _
    · cases h
      refine ⟨fun x s' hs' => ?_, ?_⟩
      · rcases Assoc.lookup_insert_cases hs' with ⟨rfl, rfl⟩ | hs'
        · exact hfiled x s hchild
        · exact hfiled x s' hs'
      · simp only [Traversal.digests, AList.keys_insert]
        exact (List.perm_cons_erase hmem).symm.append_left _

theorem acceptChildrenLoop_digests [SetOrder D] {fuel : ℕ} {missing : Assoc (ℕ × D) (List D)}
    {t : Traversal K D}
    (hfiled : Filed t.suspended) (h : acceptChildrenLoop fuel missing t = .ok (toAccept, state)) :
    Filed state.suspended ∧
      (toAccept.map (·.certificate.digest) ++ state.suspended.keys).Perm t.digests := by
  induction fuel generalizing missing t with
  | zero => cases h
  | succ fuel ih =>
    unfold acceptChildrenLoop at h
    cases hqueue : t.toTraverse with
    | nil =>
      rw [hqueue] at h
      cases h
      exact ⟨hfiled, List.Perm.refl _⟩
    | cons e rest =>
      rw [hqueue] at h
      dsimp only at h
      cases hmissing : missing.lookup (e.1, e.2) with
      | none =>
        rw [hmissing] at h
        exact ih (t := { t with toTraverse := rest }) hfiled h
      | some children =>
        rw [hmissing] at h
        obtain ⟨t', hfold, hloop⟩ := Except.eq_ok_of_bind h
        obtain ⟨hfiled', hperm⟩ : Filed t'.suspended ∧ t'.digests.Perm t.digests := by
          refine Except.foldlM_invariant
            (I := fun t' : Traversal K D => Filed t'.suspended ∧ t'.digests.Perm t.digests)
            (fun _ _ _ _ hI hok => ?_) ?_ hfold
          · exact (acceptChild_digests hI.1 hok).imp_right (·.trans hI.2)
          · exact ⟨hfiled, List.Perm.refl _⟩
        exact (ih hfiled' hloop).imp_right (·.trans hperm)

theorem acceptChildren_digests [SetOrder D] {round : ℕ} (hfiled : Filed state.suspended)
    (h : state.acceptChildren round digest = .ok (toAccept, state')) :
    digest ∉ state.suspended.keys ∧ Filed state'.suspended ∧
      (toAccept.map (·.certificate.digest) ++ state'.suspended.keys).Perm
        state.suspended.keys := by
  unfold acceptChildren at h
  cases hlookup : state.suspended.lookup digest with
  | some s =>
    rw [hlookup] at h
    cases h
  | none =>
    rw [hlookup] at h
    exact ⟨AList.lookup_eq_none.mp hlookup,
      acceptChildrenLoop_digests (t := ⟨state.suspended, [(round, digest)], []⟩) hfiled h⟩

theorem releaseAboveGc_digests
    {acc acc' : List (SuspendedCertificate K D) × Assoc D (SuspendedCertificate K D)}
    (hfiled : Filed acc.2) (h : releaseAboveGc acc digest = .ok acc') :
    Filed acc'.2 ∧ (acc'.1.map (·.certificate.digest) ++ acc'.2.keys).Perm
      (acc.1.map (·.certificate.digest) ++ acc.2.keys) := by
  unfold releaseAboveGc at h
  cases hlookup : acc.2.lookup digest with
  | none =>
    rw [hlookup] at h
    cases h
  | some s =>
    rw [hlookup] at h
    cases h
    refine ⟨fun x s hs => hfiled x s (Assoc.lookup_of_lookup_erase hs), ?_⟩
    simp only [List.map_append, List.map_cons, List.map_nil, AList.keys_erase, List.append_assoc,
      List.singleton_append, hfiled digest s hlookup]
    exact (List.perm_cons_erase (Assoc.mem_keys_of_lookup hlookup)).symm.append_left _

theorem runGc_digests [SetOrder D] (hfiled : Filed state.suspended)
    (h : state.runGc gcRound = .ok (released, state')) :
    Filed state'.suspended ∧
      (released.map (·.certificate.digest) ++ state'.suspended.keys).Subperm
        state.suspended.keys := by
  obtain ⟨acc, hfold, heq⟩ := Except.eq_ok_of_map h
  cases heq
  have herase := Assoc.keys_foldl_erase_sublist (fun e : Sigma fun _ : ℕ × D => List D => e.1.2)
    (state.missing.entries.filter fun e => e.1.1 ≤ gcRound) state.suspended
  obtain ⟨hfiled', hperm⟩ := Except.foldlM_invariant
    (I := fun acc : List (SuspendedCertificate K D) × Assoc D (SuspendedCertificate K D) =>
      Filed acc.2 ∧ (acc.1.map (·.certificate.digest) ++ acc.2.keys).Perm
        ((state.missing.entries.filter fun e => e.1.1 ≤ gcRound).foldl
          (fun suspended e => suspended.erase e.1.2) state.suspended).keys)
    (fun _ _ _ _ hI hok => (releaseAboveGc_digests hI.1 hok).imp_right (·.trans hI.2))
    ⟨fun x s hs => hfiled x s (Assoc.lookup_of_lookup_foldl_erase _ hs), List.Perm.refl _⟩ hfold
  exact ⟨hfiled', hperm.subperm.trans herase.subperm⟩

end State

namespace Inner

variable [DecidableEq K] {inner inner' inner'' : Inner K D} {cs cs' : List (Certificate K D)}
  {digests digests' : List D}

/-- A critical section accepts the certificates `cs`. They and those left suspended were suspended
before, but for `digests`. -/
structure Takes (inner inner' : Inner K D) (cs : List (Certificate K D)) (digests : List D) :
    Prop where
  queue : inner'.newCertificates = inner.newCertificates ++ cs
  contains : ∀ d, inner'.certificateStore.contains d = true ↔
    inner.certificateStore.contains d = true ∨ d ∈ cs.map Certificate.digest
  filed : Filed inner'.state.suspended
  balance : (cs.map Certificate.digest ++ inner'.state.suspended.keys).Subperm
    (digests ++ inner.state.suspended.keys)

namespace Takes

omit [DecidableEq K] in
theorem refl (hfiled : Filed inner.state.suspended) : Takes inner inner [] [] where
  queue := (List.append_nil _).symm
  contains d := by simp
  filed := hfiled
  balance := List.Subperm.refl _

omit [DecidableEq K] in
theorem trans (h : Takes inner inner' cs digests) (h' : Takes inner' inner'' cs' digests') :
    Takes inner inner'' (cs ++ cs') (digests' ++ digests) where
  queue := by rw [h'.queue, h.queue, List.append_assoc]
  contains d := by rw [h'.contains, h.contains, List.map_append, List.mem_append, or_assoc]
  filed := h'.filed
  balance := by
    rw [List.map_append, List.append_assoc, List.append_assoc]
    refine ((List.subperm_append_left _).mpr h'.balance).trans ?_
    refine List.perm_append_comm_assoc .. |>.subperm.trans ?_
    exact (List.subperm_append_left _).mpr h.balance

section

variable [SetOrder D] (hfiled : Filed inner.state.suspended)

include hfiled

theorem acceptWithChildren (hok : inner.acceptWithChildren c = .ok inner') :
    c.digest ∉ inner.state.suspended.keys ∧ ∃ cs, Takes inner inner' cs [c.digest] := by
  obtain ⟨toAccept, state, hchildren, heq⟩ := acceptWithChildren_cases hok
  obtain ⟨hnew, hfiled', hperm⟩ := State.acceptChildren_digests hfiled hchildren
  set cs := toAccept.map SuspendedCertificate.certificate with hcs
  obtain ⟨hqueue, hstate, -⟩ := foldl_accept_eq { inner with state } (c :: cs)
  rw [← heq] at hqueue hstate
  refine ⟨hnew, c :: cs, hqueue, fun d => ?_, hstate ▸ hfiled', ?_⟩
  · rw [heq, contains_foldl_accept, List.mem_map]
  · rw [hstate, hcs, List.map_cons, List.map_map, List.singleton_append]
    exact (hperm.cons _).subperm

theorem acceptAll
    (hok : released.foldlM (fun inner suspended => inner.acceptWithChildren suspended.certificate)
      inner = .ok inner') : ∃ cs, Takes inner inner' cs (released.map (·.certificate.digest)) := by
  induction released generalizing inner with
  | nil =>
    cases hok
    exact ⟨[], refl hfiled⟩
  | cons s released ih =>
    rw [List.foldlM_cons] at hok
    obtain ⟨middle, hfirst, hrest⟩ := Except.eq_ok_of_bind hok
    obtain ⟨-, cs, htakes⟩ := acceptWithChildren hfiled hfirst
    obtain ⟨cs', htakes'⟩ := ih htakes.filed hrest
    have hboth := htakes.trans htakes'
    refine ⟨cs ++ cs', hboth.queue, hboth.contains, hboth.filed, hboth.balance.trans ?_⟩
    exact (List.perm_append_comm.append_right _).subperm

theorem collectGarbage (hok : inner.collectGarbage gcRound = .ok inner') :
    ∃ cs, Takes inner inner' cs [] := by
  obtain ⟨⟨released, state⟩, hgc, hfold⟩ := Except.eq_ok_of_bind hok
  obtain ⟨hfiled', hsub⟩ := State.runGc_digests hfiled hgc
  obtain ⟨cs, htakes⟩ : ∃ cs, Takes { inner with state } inner' cs _ := acceptAll hfiled' hfold
  exact ⟨cs, htakes.queue, htakes.contains, htakes.filed, htakes.balance.trans hsub⟩

/-- The part of a call under the lock takes the digest of its certificate, unless the certificate is
suspended. -/
theorem underLock {config : Config K D} {earlySuspend : Bool} {answer : Except (DagError K D) Unit}
    (hok : inner.underLock config c earlySuspend = .ok (answer, inner')) :
    ∃ cs digests, Takes inner inner' cs digests ∧
      (digests = [] ∨ digests = [c.digest] ∧ c.digest ∉ inner.state.suspended.keys) := by
  have haccept : ∀ {inner''}, inner.acceptWithChildren c = .ok inner'' → ∃ cs digests,
      Takes inner inner'' cs digests ∧
        (digests = [] ∨ digests = [c.digest] ∧ c.digest ∉ inner.state.suspended.keys) := by
    intro inner'' haccept
    obtain ⟨hnew, cs, htakes⟩ := acceptWithChildren hfiled haccept
    exact ⟨cs, _, htakes, .inr ⟨rfl, hnew⟩⟩
  unfold Inner.underLock at hok
  split_ifs at hok with hsuspended hround
  · cases hok
    exact ⟨[], [], refl hfiled, .inl rfl⟩
  · split at hok
    · cases hok
      exact ⟨[], [], refl hfiled, .inl rfl⟩
    · obtain ⟨_, hok, heq⟩ := Except.eq_ok_of_map hok
      cases heq
      exact haccept hok
    · obtain ⟨state, hinsert, heq⟩ := Except.eq_ok_of_map hok
      cases heq
      obtain rfl | ⟨hnone, missing, -, rfl⟩ := State.insert_cases hinsert
      · exact ⟨[], [], refl hfiled, .inl rfl⟩
      · have hnew : c.digest ∉ inner.state.suspended.keys := AList.lookup_eq_none.mp hnone
        refine ⟨[], [c.digest], ⟨(List.append_nil _).symm, by simp, fun x s hs => ?_, ?_⟩,
          .inr ⟨rfl, hnew⟩⟩
        · rcases Assoc.lookup_insert_cases hs with ⟨rfl, rfl⟩ | hs
          · rfl
          · exact hfiled x s hs
        · rw [AList.keys_insert, List.erase_of_not_mem hnew]
          exact List.Subperm.refl _
  · obtain ⟨_, hok, heq⟩ := Except.eq_ok_of_map hok
    cases heq
    exact haccept hok

end

end Takes

end Inner

/-! ## Every run -/

/-- The digests that were written to the store, in order. -/
def written (log : List (Action K D)) : List D :=
  log.filterMap fun action =>
    match action with
    | .write certificate => some certificate.digest
    | .send _ _ => none

/-- The digests that were sent to consensus, in order. -/
def sent (log : List (Action K D)) : List D :=
  log.filterMap fun action =>
    match action with
    | .write _ => none
    | .send certificate _ => some certificate.digest

namespace Tasks

variable [DecidableEq K] {store : CertificateStore K D} {tasks : Tasks K D} {gcRound : ℕ}
  {config : Config K D}

/-- A call takes the lock only while its certificate is not stored. -/
def ChecksStore (tasks : Tasks K D) : TaskEvent K D → Prop
  | .resume call => call.stage = .lock →
    tasks.inner.certificateStore.contains call.certificate.digest = false
  | _ => True

/-- What was written is stored, and neither it nor what is suspended was stored in an earlier run or
occurs twice. -/
structure Once (store : CertificateStore K D) (tasks : Tasks K D) : Prop where
  filed : Filed tasks.inner.state.suspended
  stored : ∀ d, tasks.inner.certificateStore.contains d = true ↔
    store.contains d = true ∨ d ∈ written tasks.log
  nodup : (written tasks.log ++ tasks.inner.state.suspended.keys).Nodup
  fresh : ∀ d ∈ written tasks.log ++ tasks.inner.state.suspended.keys, store.contains d = false
  sent : sent tasks.log = written tasks.log

omit [DecidableEq K] [DecidableEq D] in
theorem written_actions (log : List (Action K D)) (gcRound : ℕ) (cs : List (Certificate K D)) :
    written (log ++ actions gcRound cs) = written log ++ cs.map Certificate.digest ∧
      sent (log ++ actions gcRound cs) = sent log ++ cs.map Certificate.digest := by
  have hcs : written (actions gcRound cs) = cs.map Certificate.digest ∧
      sent (actions gcRound cs) = cs.map Certificate.digest := by
    induction cs with
    | nil => exact ⟨rfl, rfl⟩
    | cons c cs ih => exact ⟨congrArg (c.digest :: ·) ih.1, congrArg (c.digest :: ·) ih.2⟩
  exact ⟨(List.filterMap_append ..).trans (congrArg _ hcs.1),
    (List.filterMap_append ..).trans (congrArg _ hcs.2)⟩

omit [DecidableEq K] in
theorem Once.exit (h : Once store tasks) {inner : Inner K D} {cs : List (Certificate K D)}
    {digests : List D} (htakes : Inner.Takes tasks.inner inner cs digests)
    (hnodup : digests.Nodup)
    (hnew : ∀ d ∈ digests, tasks.inner.certificateStore.contains d = false ∧
      d ∉ tasks.inner.state.suspended.keys) : Once store (tasks.exit (.ok inner)) := by
  have hexit : tasks.exit (.ok inner) =
      { tasks with inner, log := tasks.log ++ actions tasks.inner.gcRound cs } := by
    rw [Tasks.exit, htakes.queue, List.drop_left]
  rw [hexit]
  obtain ⟨hwritten, hsent⟩ := written_actions tasks.log tasks.inner.gcRound cs
  have hsub : (written tasks.log ++ cs.map Certificate.digest ++
      inner.state.suspended.keys).Subperm
        (digests ++ (written tasks.log ++ tasks.inner.state.suspended.keys)) := by
    rw [List.append_assoc]
    exact ((List.subperm_append_left _).mpr htakes.balance).trans
      (List.perm_append_comm_assoc ..).subperm
  have hall : (digests ++ (written tasks.log ++ tasks.inner.state.suspended.keys)).Nodup := by
    refine List.Nodup.append hnodup h.nodup fun d hd hmem => ?_
    rcases List.mem_append.mp hmem with hmem | hmem
    · have hstored := (h.stored d).mpr (.inr hmem)
      rw [(hnew d hd).1] at hstored
      cases hstored
    · exact (hnew d hd).2 hmem
  refine ⟨htakes.filed, fun d => ?_, ?_, fun d hd => ?_, ?_⟩
  · rw [htakes.contains, h.stored, hwritten, List.mem_append, or_assoc]
  · rw [hwritten]
    obtain ⟨l, hperm, hsublist⟩ := hsub
    exact hperm.nodup_iff.mp (hall.sublist hsublist)
  · rw [hwritten] at hd
    rcases List.mem_append.mp (hsub.subset hd) with hd | hd
    · by_contra hstored
      have := (h.stored d).mpr (.inl (by simpa using hstored))
      rw [(hnew d hd).1] at this
      cases this
    · exact h.fresh d hd
  · rw [hwritten, hsent, h.sent]

omit [DecidableEq K] in
theorem Once.fault (h : Once store tasks) (fault : Fault K D) :
    Once store (tasks.exit (.error fault)) :=
  ⟨h.filed, h.stored, h.nodup, h.fresh, h.sent⟩

variable [SetOrder D]

theorem Once.resume (h : Once store tasks) {call : Call K D}
    (hchecks : ChecksStore tasks (.resume call)) : Once store (tasks.resume config call) := by
  have hcalls : Once store { tasks with
      calls := tasks.calls.erase call ++ (call.next config tasks.inner).toList } :=
    ⟨h.filed, h.stored, h.nodup, h.fresh, h.sent⟩
  unfold Tasks.resume
  split
  next hstage =>
    cases hlock : tasks.inner.underLock config call.certificate call.earlySuspend with
    | error fault => exact hcalls.fault fault
    | ok result =>
      obtain ⟨answer, inner⟩ := result
      obtain ⟨cs, digests, htakes, rfl | ⟨rfl, hnew⟩⟩ := Inner.Takes.underLock h.filed hlock
      · exact hcalls.exit htakes .nil fun d hd => absurd hd List.not_mem_nil
      · refine hcalls.exit htakes (List.nodup_singleton _) fun d hd => ?_
        rw [List.mem_singleton.mp hd]
        exact ⟨hchecks hstage, hnew⟩
  next => exact hcalls

theorem Once.step (h : Once store tasks) {event : TaskEvent K D} {tasks' : Tasks K D}
    (hchecks : ChecksStore tasks event) (hstep : tasks.step config event = some tasks') :
    Once store tasks' := by
  obtain ⟨call, -, rfl⟩ | ⟨call, -, rfl, rfl⟩ | ⟨g, -, rfl⟩ | ⟨g, -, rfl⟩ | ⟨queue, rfl⟩ :=
    step_cases hstep
  · exact ⟨h.filed, h.stored, h.nodup, h.fresh, h.sent⟩
  · exact h.resume hchecks
  · exact ⟨h.filed, h.stored, h.nodup, h.fresh, h.sent⟩
  · have hcollected : Once store { tasks with collecting := none } :=
      ⟨h.filed, h.stored, h.nodup, h.fresh, h.sent⟩
    cases hgc : tasks.inner.collectGarbage g with
    | error fault => exact hcollected.fault fault
    | ok inner =>
      obtain ⟨cs, htakes⟩ := Inner.Takes.collectGarbage h.filed hgc
      exact hcollected.exit htakes .nil fun d hd => absurd hd List.not_mem_nil
  · exact ⟨h.filed, h.stored, h.nodup, h.fresh, h.sent⟩

omit [DecidableEq K] [SetOrder D] in
theorem Once.new (store : CertificateStore K D) (gcRound : ℕ) :
    Once store (Tasks.new store gcRound) where
  filed _ _ hs := nomatch hs
  stored _ := (or_iff_left List.not_mem_nil).symm
  nodup := .nil
  fresh _ hd := absurd hd List.not_mem_nil
  sent := rfl

/-- If each call takes the lock while its certificate is not stored, every certificate is written to
the store and sent to consensus at most once, whatever the interleaving, and one of an earlier run
not again. -/
theorem accepted_once (h : (machine config store gcRound).Reached ChecksStore tasks) (d : D) :
    (written tasks.log).count d ≤ 1 ∧ (sent tasks.log).count d ≤ 1 ∧
      (store.contains d = true → d ∉ written tasks.log ∧ d ∉ sent tasks.log) := by
  have honce : Once store tasks := h.invariant (Once.new store gcRound)
    fun _ _ _ honce hchecks hstep => honce.step hchecks hstep
  have hcount : (written tasks.log).count d ≤ 1 :=
    List.nodup_iff_count_le_one.mp (List.nodup_append.mp honce.nodup).1 d
  have hstored : store.contains d = true → d ∉ written tasks.log := by
    intro hstored hmem
    rw [honce.fresh d (List.mem_append_left _ hmem)] at hstored
    cases hstored
  rw [honce.sent]
  exact ⟨hcount, hcount, fun hd => ⟨hstored hd, hstored hd⟩⟩

end Tasks

namespace Sample

instance decidableChecksStore (tasks : Tasks (Fin 4) ℕ) :
    ∀ e, Decidable (tasks.ChecksStore e)
  | .resume call => inferInstanceAs (Decidable (call.stage = .lock →
      tasks.inner.certificateStore.contains call.certificate.digest = false))
  | .tryAccept _ | .acceptFetched _ | .acceptOwn _ | .storeGcRound _ | .collectGarbage
  | .consume => .isTrue trivial

/-- Two peers send one certificate, and both calls pass the check of the store before one of them
takes the lock. -/
def raced : List (TaskEvent (Fin 4) ℕ) :=
  let call : Call (Fin 4) ℕ := .tryAcceptCertificate (link 1)
  .tryAccept (link 1) :: .tryAccept (link 1) ::
    [Stage.contains, .contains, .checkSuspended, .checkSuspended, .sanitize, .sanitize, .lock,
      .lock].map fun stage => .resume { call with stage }

end Sample

/-- A chain that arrives in the wrong order, and then once more, is accepted once. -/
theorem Tasks.accepted_once_chain :
    ∃ tasks, (Tasks.machine Sample.config .empty 0).Reached Tasks.ChecksStore tasks ∧
      written tasks.log = [1, 2, 3] ∧
        ∀ d, (written tasks.log).count d ≤ 1 ∧ (sent tasks.log).count d ≤ 1 := by
  let events := Sample.chain.flatMap Sample.tryAccept ++
    Sample.chain.flatMap fun c =>
      [.tryAccept c, .resume (Call.tryAcceptCertificate c)]
  have hruns : (Tasks.machine Sample.config .empty 0).Runs Tasks.ChecksStore (.new .empty 0)
      events := by
    decide +kernel
  have hreached := Machine.Reached.start.after hruns
  refine ⟨_, hreached, by decide +kernel, fun d => ?_⟩
  obtain ⟨hwritten, hsent, -⟩ := Tasks.accepted_once hreached d
  exact ⟨hwritten, hsent⟩

/-- A certificate that two peers send is written to the store twice and sent to consensus twice. -/
theorem Tasks.raced_certificate_accepted_twice :
    (Tasks.machine Sample.config .empty 0).Runs (fun _ _ => True) (.new .empty 0) Sample.raced ∧
      ((Tasks.machine Sample.config .empty 0).after (.new .empty 0) Sample.raced).log =
        Tasks.actions 0 [Sample.link 1, Sample.link 1] := by
  decide +kernel

end Synchronizer

end Narwhal

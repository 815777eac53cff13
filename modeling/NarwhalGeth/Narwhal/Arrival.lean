import NarwhalGeth.Lib.EachAfter
import NarwhalGeth.Lib.Machine
import NarwhalGeth.Narwhal.Acceptance

/-!
# The order in which certificates reach consensus

The tasks of the synchronizer process certificates concurrently and take turns with the state lock.
The garbage collection round is stored before the lock is taken. Whatever the interleaving, a
certificate more than one round above it is sent to consensus only after its parents were stored and
sent.
-/

namespace Narwhal

namespace Synchronizer

variable {K D : Type} [DecidableEq K] [DecidableEq D] {cs : List (Certificate K D)}
  {c : Certificate K D} {d : D}

/-! ## The tasks -/

/-- What a call does next. A fetched certificate was sanitized by the fetcher before the call. -/
inductive Stage where
  | fetched
  | contains
  | checkSuspended
  | sanitize
  | lock
deriving DecidableEq

/-- A call of `processCertificateInternal`. -/
structure Call (K D : Type) where
  certificate : Certificate K D
  sanitize : Bool
  earlySuspend : Bool
  stage : Stage
deriving DecidableEq

namespace Call

/-- The call for a certificate that another primary sent. `waitToAcceptCertificate` makes the same
call. -/
def tryAcceptCertificate (certificate : Certificate K D) : Call K D :=
  ⟨certificate, true, true, .contains⟩

def tryAcceptFetchedCertificate (certificate : Certificate K D) : Call K D :=
  ⟨certificate, false, false, .fetched⟩

def acceptOwnCertificate (certificate : Certificate K D) : Call K D :=
  ⟨certificate, false, false, .contains⟩

/-- The call after what it does next, if it goes on. -/
def next (config : Config K D) (inner : Inner K D) (call : Call K D) : Option (Call K D) :=
  match call.stage with
  | .fetched =>
    match inner.sanitizeCertificate config call.certificate with
    | .error _ => none
    | .ok () => some { call with stage := .contains }
  | .contains =>
    if inner.certificateStore.contains call.certificate.digest then none
    else some { call with stage := .checkSuspended }
  | .checkSuspended =>
    if call.earlySuspend ∧ inner.state.checkSuspended call.certificate.digest then none
    else some { call with stage := .sanitize }
  | .sanitize =>
    if call.sanitize then
      match inner.sanitizeCertificate config call.certificate with
      | .error _ => none
      | .ok () => some { call with stage := .lock }
    else some { call with stage := .lock }
  | .lock => none

end Call

/-- What is done with an accepted certificate. A send is recorded with the garbage collection round
at that time. -/
inductive Action (K D : Type) where
  | write (certificate : Certificate K D)
  | send (certificate : Certificate K D) (gcRound : ℕ)
deriving DecidableEq

/-- The tasks of the synchronizer. `collecting` is the round of a garbage collection that waits for
the lock, `log` is what was written and sent, and `fault` is a panic. -/
structure Tasks (K D : Type) where
  inner : Inner K D
  calls : List (Call K D)
  collecting : Option ℕ
  log : List (Action K D)
  fault : Option (Fault K D)

inductive TaskEvent (K D : Type) where
  | tryAccept (certificate : Certificate K D)
  | acceptFetched (certificate : Certificate K D)
  | acceptOwn (certificate : Certificate K D)
  | resume (call : Call K D)
  | storeGcRound (gcRound : ℕ)
  | collectGarbage
  | consume

namespace Tasks

variable [SetOrder D]

/-- The tasks of a primary that starts. The store keeps the certificates of earlier runs. -/
def new (certificateStore : CertificateStore K D) (gcRound : ℕ) : Tasks K D :=
  ⟨{ Inner.new with certificateStore, gcRound }, [], none, [], none⟩

/-- An accepted certificate is written to the store and then sent. -/
def actions (gcRound : ℕ) (certificates : List (Certificate K D)) : List (Action K D) :=
  certificates.flatMap fun certificate => [.write certificate, .send certificate gcRound]

/-- The tasks after a critical section. -/
def exit (tasks : Tasks K D) : Except (Fault K D) (Inner K D) → Tasks K D
  | .error fault => { tasks with fault := some fault }
  | .ok inner =>
    { tasks with
      inner
      log := tasks.log ++ actions tasks.inner.gcRound
        (inner.newCertificates.drop tasks.inner.newCertificates.length) }

/-- A call does its next step, which ends with the critical section under the state lock. -/
def resume (config : Config K D) (tasks : Tasks K D) (call : Call K D) : Tasks K D :=
  let calls := tasks.calls.erase call ++ (call.next config tasks.inner).toList
  match call.stage with
  | .lock =>
    { tasks with calls }.exit
      ((tasks.inner.underLock config call.certificate call.earlySuspend).map Prod.snd)
  | _ => { tasks with calls }

/-- A step of the tasks. There is none after a panic. -/
def step (config : Config K D) (tasks : Tasks K D) (event : TaskEvent K D) :
    Option (Tasks K D) :=
  if tasks.fault.isSome then none
  else match event with
  | .tryAccept certificate =>
    some { tasks with calls := tasks.calls ++ [.tryAcceptCertificate certificate] }
  | .acceptFetched certificate =>
    some { tasks with calls := tasks.calls ++ [.tryAcceptFetchedCertificate certificate] }
  | .acceptOwn certificate =>
    some { tasks with calls := tasks.calls ++ [.acceptOwnCertificate certificate] }
  | .resume call => if call ∈ tasks.calls then some (tasks.resume config call) else none
  | .storeGcRound gcRound =>
    match tasks.collecting with
    | none =>
      some { tasks with inner := { tasks.inner with gcRound }, collecting := some gcRound }
    | some _ => none
  | .collectGarbage =>
    match tasks.collecting with
    | none => none
    | some gcRound =>
      some ({ tasks with collecting := none }.exit (tasks.inner.collectGarbage gcRound))
  | .consume =>
    match tasks.inner.newCertificates with
    | [] => none
    | _ :: newCertificates =>
      some { tasks with inner := { tasks.inner with newCertificates } }

def machine (config : Config K D) (certificateStore : CertificateStore K D) (gcRound : ℕ) :
    Machine (Tasks K D) (TaskEvent K D) where
  start := new certificateStore gcRound
  next := step config

/-- The certificates that the calls are made with are of the set `received`. -/
def Receives (received : Set (Certificate K D)) : TaskEvent K D → Prop
  | .tryAccept certificate | .acceptFetched certificate | .acceptOwn certificate =>
    certificate ∈ received
  | .resume _ | .storeGcRound _ | .collectGarbage | .consume => True

end Tasks

/-! ## A critical section -/

namespace Inner

variable {received : Set (Certificate K D)} {past : D → Prop} {gcRound : ℕ}
  {inner inner' : Inner K D} {accepted : List (Certificate K D)} {config : Config K D}

/-- A critical section that has accepted `accepted` so far: a parent of a suspended certificate is
in the past, accepted or missing. Those of an accepted certificate more than one round above
`gcRound` are in the past or accepted. -/
structure Accepting (received : Set (Certificate K D)) (past : D → Prop) (gcRound : ℕ)
    (inner : Inner K D) (accepted : List (Certificate K D)) : Prop where
  stored : ∀ d, inner.certificateStore.contains d = true → past d ∨ ∃ a ∈ accepted, a.digest = d
  waiting : Waiting (fun d c => d ∈ c.parents) id received
    (fun d => past d ∨ ∃ a ∈ accepted, a.digest = d) inner.state.suspended
  above : State.ChildrenAbove received inner.state.missing
  ordered : EachAfter (fun before c => gcRound + 1 < c.round →
    ∀ d ∈ c.parents, past d ∨ ∃ a ∈ before, a.digest = d) accepted

theorem contains_foldl_accept :
    (cs.foldl acceptCertificateInternal inner).certificateStore.contains d = true ↔
      inner.certificateStore.contains d = true ∨ ∃ c ∈ cs, c.digest = d := by
  induction cs generalizing inner with
  | nil => simp
  | cons c cs ih =>
    have hwrite : (inner.acceptCertificateInternal c).certificateStore.contains d = true ↔
        inner.certificateStore.contains d = true ∨ c.digest = d := by
      rw [acceptCertificateInternal, CertificateStore.contains, CertificateStore.write]
      by_cases heq : c.digest = d
      · simp [heq]
      · rw [AList.lookup_insert_ne (Ne.symm heq), CertificateStore.contains]
        simp [heq]
    rw [List.foldl_cons, ih, hwrite, or_assoc, List.exists_mem_cons_iff]

namespace Accepting

variable [SetOrder D]

theorem acceptWithChildren (h : Accepting received past gcRound inner accepted)
    (hparents : gcRound + 1 < c.round →
      ∀ d ∈ c.parents, past d ∨ ∃ a ∈ accepted, a.digest = d)
    (hok : inner.acceptWithChildren c = .ok inner') :
    ∃ cs, Accepting received past gcRound inner' (accepted ++ cs) ∧
      inner'.newCertificates = inner.newCertificates ++ cs ∧ inner'.gcRound = inner.gcRound := by
  obtain ⟨toAccept, state, hchildren, heq⟩ := acceptWithChildren_cases hok
  have hwaiting : Waiting (fun d c => d ∈ c.parents) id received
      (fun d => (past d ∨ ∃ a ∈ accepted, a.digest = d) ∨ d = c.digest) inner.state.suspended :=
    h.waiting.mono fun d hd => .inl hd
  obtain ⟨ht, hmissing⟩ :=
    State.acceptChildren_ordered hwaiting (fun d hd => .inr hd) hchildren
  set cs := toAccept.map SuspendedCertificate.certificate with hcs
  obtain ⟨hqueue, hstate, hround⟩ := foldl_accept_eq { inner with state } (c :: cs)
  rw [← heq] at hqueue hstate hround
  have hsettled : ∀ before : List (Certificate K D), ∀ d,
      ((past d ∨ ∃ a ∈ accepted, a.digest = d) ∨ d = c.digest) ∨ (∃ a ∈ before, a.digest = d) →
        past d ∨ ∃ a ∈ accepted ++ c :: before, a.digest = d := by
    rintro before d (((hd | ⟨a, ha, hd⟩) | hd) | ⟨a, ha, hd⟩)
    · exact .inl hd
    · exact .inr ⟨a, List.mem_append_left _ ha, hd⟩
    · exact .inr ⟨c, by simp, hd.symm⟩
    · exact .inr ⟨a, by simp [ha], hd⟩
  refine ⟨c :: cs, ⟨?_, ?_, ?_, ?_⟩, hqueue, hround⟩
  · intro d hd
    rw [heq] at hd
    rcases contains_foldl_accept.mp hd with hd | ⟨x, hx, hd⟩
    · exact (h.stored d hd).imp_right fun ⟨a, ha, heq⟩ => ⟨a, List.mem_append_left _ ha, heq⟩
    · exact .inr ⟨x, List.mem_append_right _ hx, hd⟩
  · rw [hstate]
    exact ht.waiting.mono (hsettled cs)
  · rw [hstate]
    exact fun k children hk => h.above k children (hmissing k children hk)
  · have hfirst : EachAfter (fun before x => gcRound + 1 < x.round → ∀ d ∈ x.parents,
        past d ∨ ∃ a ∈ accepted ++ before, a.digest = d) [c] :=
      EachAfter.nil.concat (by simpa using hparents)
    refine h.ordered.append (hfirst.append (ht.ordered.mono fun before x hx _ d hd => ?_))
    exact hsettled before d (hx d hd)

theorem underLock (hbound : ∀ x ∈ received, ∀ y ∈ received, x.digest = y.digest → x.round = y.round)
    (h : Accepting received past inner.gcRound inner []) (hc : c ∈ received) {earlySuspend : Bool}
    {answer : Except (DagError K D) Unit}
    (hok : inner.underLock config c earlySuspend = .ok (answer, inner')) :
    ∃ cs, Accepting received past inner.gcRound inner' cs ∧
      inner'.newCertificates = inner.newCertificates ++ cs ∧ inner'.gcRound = inner.gcRound := by
  have hsame : ∃ cs, Accepting received past inner.gcRound inner cs ∧
      inner.newCertificates = inner.newCertificates ++ cs ∧ inner.gcRound = inner.gcRound :=
    ⟨[], h, (List.append_nil _).symm, rfl⟩
  unfold Inner.underLock at hok
  split_ifs at hok with hsuspended hround
  · cases hok
    exact hsame
  · have hone : c.round ≠ 1 := by omega
    rw [getMissingParents, if_neg hone] at hok
    have hsettled : ∀ d ∈ c.parents, (past d ∨ ∃ a ∈ ([] : List (Certificate K D)), a.digest = d) ∨
        d ∈ c.parents.filter fun d => !inner.certificateStore.contains d := by
      intro d hd
      by_cases hstored : inner.certificateStore.contains d
      · exact .inl (h.stored d hstored)
      · exact .inr (List.mem_filter.mpr ⟨hd, by simpa using hstored⟩)
    cases hparents : c.parents.filter fun d => !inner.certificateStore.contains d with
    | nil =>
      rw [hparents] at hok hsettled
      obtain ⟨accepted, haccept, heq⟩ := Except.eq_ok_of_map hok
      cases heq
      exact h.acceptWithChildren
        (fun _ d hd => (hsettled d hd).resolve_right List.not_mem_nil) haccept
    | cons d ds =>
      rw [hparents] at hok hsettled
      obtain ⟨state, hinsert, heq⟩ := Except.eq_ok_of_map hok
      cases heq
      refine ⟨[], ⟨h.stored, ?_, ?_, h.ordered⟩, (List.append_nil _).symm, rfl⟩
      · exact State.insert_waiting hc h.waiting hsettled hinsert
      · exact State.insert_childrenAbove (by omega) (fun x hx heq => hbound x hx c hc heq) h.above
          hinsert
  · obtain ⟨accepted, haccept, heq⟩ := Except.eq_ok_of_map hok
    cases heq
    exact h.acceptWithChildren (fun hlt => absurd hlt hround) haccept

/-- Garbage collection releases certificates one round above its round, and what these release. -/
theorem collectGarbage (h : Accepting received past gcRound inner [])
    (hok : inner.collectGarbage gcRound = .ok inner') :
    ∃ cs, Accepting received past gcRound inner' cs ∧
      inner'.newCertificates = inner.newCertificates ++ cs ∧ inner'.gcRound = inner.gcRound := by
  obtain ⟨⟨released, state⟩, hgc, hfold⟩ := Except.eq_ok_of_bind hok
  obtain ⟨hreleased, hsuspended, hmissing⟩ := State.runGc_cases hgc
  have hrounds : ∀ s ∈ released, s.certificate.round = gcRound + 1 := by
    intro s hs
    obtain ⟨d, hd, s', hs', heq⟩ := hreleased s hs
    rw [heq]
    exact State.certificatesAboveGcRound_round h.waiting h.above hd hs'
  have hstart : Accepting received past gcRound { inner with state } [] :=
    ⟨h.stored, h.waiting.of_subset hsuspended,
      fun k children hk => h.above k children (hmissing k children hk), h.ordered⟩
  refine Except.foldlM_invariant
    (I := fun i => ∃ cs, Accepting received past gcRound i cs ∧
      i.newCertificates = inner.newCertificates ++ cs ∧ i.gcRound = inner.gcRound)
    ?_ ⟨[], hstart, (List.append_nil _).symm, rfl⟩ hfold
  rintro i i' s hs ⟨cs, hi, hqueue, hround⟩ hstep
  have hnot : ¬gcRound + 1 < s.certificate.round := by
    rw [hrounds s hs]
    exact lt_irrefl _
  obtain ⟨cs', hi', hqueue', hround'⟩ :=
    hi.acceptWithChildren (fun hlt => absurd hlt hnot) hstep
  exact ⟨cs ++ cs', hi', by rw [hqueue', hqueue, List.append_assoc], hround'.trans hround⟩

end Accepting

end Inner

/-! ## Every run -/

/-- A certificate of this digest was written to the store and sent to consensus. -/
def Accepted (log : List (Action K D)) (digest : D) : Prop :=
  (∃ c, c.digest = digest ∧ .write c ∈ log) ∧ ∃ c gcRound, c.digest = digest ∧ .send c gcRound ∈ log

/-- A certificate sent more than one round above the garbage collection round comes after its
parents, except those stored in an earlier run. -/
def ParentsBefore (store : CertificateStore K D) (before : List (Action K D))
    (action : Action K D) : Prop :=
  ∀ c gcRound, action = .send c gcRound → gcRound + 1 < c.round →
    ∀ d ∈ c.parents, store.contains d = true ∨ Accepted before d

namespace Tasks

variable {received : Set (Certificate K D)} {store : CertificateStore K D}
  {tasks tasks' : Tasks K D} {log : List (Action K D)} {gcRound : ℕ} {config : Config K D}
  {event : TaskEvent K D} {call : Call K D}

omit [DecidableEq K] [DecidableEq D] in
theorem accepted_append (h : Accepted log d) (log' : List (Action K D)) :
    Accepted (log ++ log') d := by
  obtain ⟨⟨c, hc, hwrite⟩, c', g, hc', hsend⟩ := h
  exact ⟨⟨c, hc, List.mem_append_left _ hwrite⟩, c', g, hc', List.mem_append_left _ hsend⟩

omit [DecidableEq K] in
theorem known_actions (h : (store.contains d = true ∨ Accepted log d) ∨ ∃ a ∈ cs, a.digest = d) :
    store.contains d = true ∨ Accepted (log ++ actions gcRound cs) d := by
  rcases h with (h | h) | ⟨a, ha, had⟩
  · exact .inl h
  · exact .inr (accepted_append h _)
  · have hwrite : .write a ∈ actions gcRound cs := List.mem_flatMap.mpr ⟨a, ha, by simp⟩
    have hsend : .send a gcRound ∈ actions gcRound cs := List.mem_flatMap.mpr ⟨a, ha, by simp⟩
    exact .inr ⟨⟨a, had, List.mem_append_right _ hwrite⟩,
      a, gcRound, had, List.mem_append_right _ hsend⟩

omit [DecidableEq K] in
theorem parentsBefore_actions (hlog : EachAfter (ParentsBefore store) log)
    (hcs : EachAfter (fun before c => gcRound + 1 < c.round → ∀ d ∈ c.parents,
      (store.contains d = true ∨ Accepted log d) ∨ ∃ a ∈ before, a.digest = d) cs) :
    EachAfter (ParentsBefore store) (log ++ actions gcRound cs) := by
  induction cs using List.reverseRecOn with
  | nil => simpa [actions] using hlog
  | append_singleton cs c ih =>
    obtain ⟨hcs, hc⟩ := EachAfter.concat_iff.mp hcs
    have heq : log ++ actions gcRound (cs ++ [c]) =
        log ++ actions gcRound cs ++ [.write c] ++ [.send c gcRound] := by
      simp [actions]
    rw [heq]
    refine ((ih hcs).concat ?_).concat ?_
    · intro c' g hsend
      cases hsend
    · intro c' g hsend hround d hd
      cases hsend
      exact (known_actions (hc hround d hd)).imp_right fun hd => accepted_append hd _

/-- What was stored since the start was sent, and every critical section starts with suspended
certificates whose parents are known or missing. -/
structure Causal (received : Set (Certificate K D)) (store : CertificateStore K D)
    (tasks : Tasks K D) : Prop where
  accepting : tasks.inner.Accepting received
    (fun d => store.contains d = true ∨ Accepted tasks.log d) tasks.inner.gcRound []
  calls : ∀ call ∈ tasks.calls, call.certificate ∈ received
  collecting : ∀ g, tasks.collecting = some g → g = tasks.inner.gcRound
  log : EachAfter (ParentsBefore store) tasks.log

omit [DecidableEq K] in
theorem Causal.new : Causal received store (new store gcRound : Tasks K D) where
  accepting :=
    { stored := fun d hd => .inl (.inl hd)
      waiting :=
        { received := fun x s hs => by simp [Tasks.new, Inner.new, State.empty] at hs
          digest := fun x s hs => by simp [Tasks.new, Inner.new, State.empty] at hs
          needs := fun x s hs => by simp [Tasks.new, Inner.new, State.empty] at hs }
      above := fun k children hk => by simp [Tasks.new, Inner.new, State.empty] at hk
      ordered := EachAfter.nil }
  calls call hcall := by simp [Tasks.new] at hcall
  collecting g hg := by simp [Tasks.new] at hg
  log := EachAfter.nil

omit [DecidableEq K] in
theorem Causal.exit (h : Causal received store tasks) {result : Except (Fault K D) (Inner K D)}
    (hresult : ∀ inner, result = .ok inner → ∃ cs,
      inner.Accepting received (fun d => store.contains d = true ∨ Accepted tasks.log d)
          tasks.inner.gcRound cs ∧
        inner.newCertificates = tasks.inner.newCertificates ++ cs ∧
        inner.gcRound = tasks.inner.gcRound) :
    Causal received store (tasks.exit result) := by
  cases result with
  | error fault => exact ⟨h.accepting, h.calls, h.collecting, h.log⟩
  | ok inner =>
    obtain ⟨cs, haccepting, hqueue, hround⟩ := hresult inner rfl
    have hsent : tasks.exit (.ok inner) =
        { tasks with inner, log := tasks.log ++ actions tasks.inner.gcRound cs } := by
      rw [Tasks.exit, hqueue, List.drop_left]
    rw [hsent]
    refine ⟨⟨?_, ?_, haccepting.above, EachAfter.nil⟩, h.calls, ?_, ?_⟩
    · exact fun d hd => .inl (known_actions (haccepting.stored d hd))
    · exact haccepting.waiting.mono fun d hd => .inl (known_actions hd)
    · exact fun g hg => (h.collecting g hg).trans hround.symm
    · exact parentsBefore_actions h.log haccepting.ordered

theorem certificate_of_next {call' : Call K D} {inner : Inner K D}
    (h : call.next config inner = some call') : call'.certificate = call.certificate := by
  unfold Call.next at h
  split at h
  all_goals grind

theorem received_of_resume (hcalls : ∀ call ∈ tasks.calls, call.certificate ∈ received)
    (hcall : call ∈ tasks.calls) :
    ∀ x ∈ tasks.calls.erase call ++ (call.next config tasks.inner).toList,
      x.certificate ∈ received := by
  intro x hx
  rcases List.mem_append.mp hx with hx | hx
  · exact hcalls x (List.mem_of_mem_erase hx)
  · rw [certificate_of_next (Option.mem_toList.mp hx)]
    exact hcalls call hcall

variable [SetOrder D]

/-- What a step does: it starts or resumes a call, stores the garbage collection round, collects, or
takes a certificate from the queue. -/
theorem step_cases (h : tasks.step config event = some tasks') :
    (∃ call : Call K D, (∀ received, Receives received event → call.certificate ∈ received) ∧
        tasks' = { tasks with calls := tasks.calls ++ [call] }) ∨
      (∃ call ∈ tasks.calls, event = .resume call ∧ tasks' = tasks.resume config call) ∨
      (∃ gcRound, event = .storeGcRound gcRound ∧
        tasks' = { tasks with inner := { tasks.inner with gcRound }, collecting := some gcRound }) ∨
      (∃ gcRound, tasks.collecting = some gcRound ∧
        tasks' = { tasks with collecting := none }.exit (tasks.inner.collectGarbage gcRound)) ∨
      ∃ newCertificates, tasks' = { tasks with inner := { tasks.inner with newCertificates } } := by
  unfold Tasks.step at h
  split_ifs at h
  cases event with
  | tryAccept c =>
    cases h
    exact .inl ⟨.tryAcceptCertificate c, fun _ hc => hc, rfl⟩
  | acceptFetched c =>
    cases h
    exact .inl ⟨.tryAcceptFetchedCertificate c, fun _ hc => hc, rfl⟩
  | acceptOwn c =>
    cases h
    exact .inl ⟨.acceptOwnCertificate c, fun _ hc => hc, rfl⟩
  | resume call =>
    dsimp only at h
    split_ifs at h with hcall
    cases h
    exact .inr (.inl ⟨call, hcall, rfl, rfl⟩)
  | storeGcRound g =>
    dsimp only at h
    split at h <;> cases h
    exact .inr (.inr (.inl ⟨g, rfl, rfl⟩))
  | collectGarbage =>
    dsimp only at h
    split at h <;> cases h
    next g hcollecting => exact .inr (.inr (.inr (.inl ⟨g, hcollecting, rfl⟩)))
  | consume =>
    dsimp only at h
    split at h <;> cases h
    exact .inr (.inr (.inr (.inr ⟨_, rfl⟩)))

theorem Causal.resume
    (hbound : ∀ x ∈ received, ∀ y ∈ received, x.digest = y.digest → x.round = y.round)
    (h : Causal received store tasks) (hcall : call ∈ tasks.calls) :
    Causal received store (tasks.resume config call) := by
  have hcalls : Causal received store { tasks with
      calls := tasks.calls.erase call ++ (call.next config tasks.inner).toList } :=
    ⟨h.accepting, received_of_resume h.calls hcall, h.collecting, h.log⟩
  unfold Tasks.resume
  split
  · refine hcalls.exit fun inner hinner => ?_
    obtain ⟨⟨answer, inner'⟩, hlock, rfl⟩ := Except.eq_ok_of_map hinner
    exact h.accepting.underLock hbound (h.calls call hcall) hlock
  · exact hcalls

theorem Causal.step
    (hbound : ∀ x ∈ received, ∀ y ∈ received, x.digest = y.digest → x.round = y.round)
    (h : Causal received store tasks) (hreceives : Receives received event)
    (hstep : tasks.step config event = some tasks') :
    Causal received store tasks' := by
  obtain ⟨call, hcall, rfl⟩ | ⟨call, hcall, -, rfl⟩ | ⟨g, -, rfl⟩ | ⟨g, hcollecting, rfl⟩ |
    ⟨queue, rfl⟩ := step_cases hstep
  · refine ⟨h.accepting, fun x hx => ?_, h.collecting, h.log⟩
    rcases List.mem_append.mp hx with hx | hx
    · exact h.calls x hx
    · rw [List.mem_singleton.mp hx]
      exact hcall received hreceives
  · exact h.resume hbound hcall
  · exact ⟨⟨h.accepting.stored, h.accepting.waiting, h.accepting.above, EachAfter.nil⟩, h.calls,
      fun g' hg' => (Option.some.inj hg').symm, h.log⟩
  · have hcollected : Causal received store { tasks with collecting := none } :=
      ⟨h.accepting, h.calls, fun g' hg' => (Option.some_ne_none g' hg'.symm).elim, h.log⟩
    refine hcollected.exit fun inner hinner => ?_
    have hg := h.collecting g hcollecting
    subst hg
    exact h.accepting.collectGarbage hinner
  · exact ⟨⟨h.accepting.stored, h.accepting.waiting, h.accepting.above, EachAfter.nil⟩, h.calls,
      h.collecting, h.log⟩

/-- A certificate that is sent more than one round above the garbage collection round comes after
its parents were stored and sent, whatever the interleaving. A parent stored in an earlier run is
not sent again. -/
theorem sent_after_parents
    (hbound : ∀ x ∈ received, ∀ y ∈ received, x.digest = y.digest → x.round = y.round)
    (h : (machine config store gcRound).Reached (fun _ => Receives received) tasks)
    {before after : List (Action K D)} {c : Certificate K D} {g : ℕ}
    (hlog : tasks.log = before ++ .send c g :: after) (hround : g + 1 < c.round) :
    ∀ d ∈ c.parents, store.contains d = false →
      (∃ p, p.digest = d ∧ .write p ∈ before) ∧ ∃ p g', p.digest = d ∧ .send p g' ∈ before := by
  have hcausal : Causal received store tasks := h.invariant Causal.new
    fun _ _ _ hcausal hreceives hstep => hcausal.step hbound hreceives hstep
  intro d hd hnew
  refine (hcausal.log before _ after hlog c g rfl hround d hd).resolve_left ?_
  rw [hnew]
  exact Bool.false_ne_true

end Tasks

namespace Sample

/-- A chain: each certificate names the one of the round before. -/
def link (round : ℕ) : Certificate (Fin 4) ℕ := ⟨⟨0, round, 0, 0, [], [round - 1], round, []⟩⟩

def config : Config (Fin 4) ℕ := ⟨Narwhal.Sample.committee, [0], fun _ => .ok ()⟩

/-- A certificate is received and its call goes through. -/
def tryAccept (c : Certificate (Fin 4) ℕ) : List (TaskEvent (Fin 4) ℕ) :=
  .tryAccept c :: [Stage.contains, .checkSuspended, .sanitize, .lock].map fun stage =>
    .resume { Call.tryAcceptCertificate c with stage }

instance decidableReceives (cs : List (Certificate (Fin 4) ℕ)) :
    ∀ e, Decidable (Tasks.Receives {c | c ∈ cs} e)
  | .tryAccept c | .acceptFetched c | .acceptOwn c => inferInstanceAs (Decidable (c ∈ cs))
  | .resume _ | .storeGcRound _ | .collectGarbage | .consume => .isTrue trivial

def chain : List (Certificate (Fin 4) ℕ) := [link 3, link 2, link 1]

/-- The chain arrives in the wrong order. -/
def arrived : Tasks (Fin 4) ℕ :=
  (Tasks.machine config .empty 0).after (.new .empty 0) (chain.flatMap tryAccept)

theorem reached_arrived : (Tasks.machine config .empty 0).Reached
    (fun _ => Tasks.Receives {c | c ∈ chain}) arrived :=
  Machine.Reached.start.after (by decide +kernel)

theorem round_of_digest_chain : ∀ x ∈ chain, ∀ y ∈ chain, x.digest = y.digest →
    x.round = y.round := by
  decide

/-- What is done before the last certificate of the chain is sent. -/
def beforeLast : List (Action (Fin 4) ℕ) :=
  Tasks.actions 0 [link 1, link 2] ++ [.write (link 3)]

theorem log_arrived : arrived.log = beforeLast ++ .send (link 3) 0 :: [] := by decide +kernel

end Sample

/-- A chain that arrives in the wrong order is sent in causal order. -/
theorem Tasks.sent_after_parents_chain :
    Sample.arrived.log = Sample.beforeLast ++ .send (Sample.link 3) 0 :: [] ∧
      ∀ d ∈ (Sample.link 3).parents, (∃ p, p.digest = d ∧ .write p ∈ Sample.beforeLast) ∧
        ∃ p g, p.digest = d ∧ .send p g ∈ Sample.beforeLast :=
  ⟨Sample.log_arrived, fun d hd => sent_after_parents Sample.round_of_digest_chain
    Sample.reached_arrived Sample.log_arrived (by decide) d hd rfl⟩

end Synchronizer

end Narwhal

import NarwhalGeth.Narwhal.Recovery

/-!
# Replaying committed sub-dags to the executor

Consensus persists a committed sub-dag before it is sent to the executor. After a restart the
executor is given again what was persisted from the last executed sub-dag on. If the certificate
store keeps the committed certificates, each lifetime is handed a stretch of one sequence of
sub-dags.
-/

namespace Narwhal

variable {K D : Type} [DecidableEq K] [DecidableEq D] {subDags : List (CommittedSubDag K D)}
  {c : Certificate K D} {validator : Validator K D} {certStore : CertificateStore K D}
  {state : ConsensusState K D}

/-! ## Restoring the output of consensus -/

/-- The sub-dags committed with a sequence number of at least `start`, in key order. -/
def ConsensusStore.readCommittedSubDagsFrom (store : ConsensusStore K D) (start : ℕ) :
    List (CommittedSubDagShell D) :=
  store.committedSubDagsByIndex.valuesFrom start

def CertificateStore.readAll (store : CertificateStore K D) (ids : List D) :
    List (Option (Certificate K D)) :=
  ids.map store.read

/-- Expands a compressed sub-dag without the certificates that are not stored. The leader has to be
stored. -/
def CertificateStore.expand (store : CertificateStore K D)
    (compressedSubDag : CommittedSubDagShell D) : Option (CommittedSubDag K D) :=
  let certificates := (store.readAll compressedSubDag.certificates).filterMap id
  (store.read compressedSubDag.leader).map fun leader =>
    { certificates, leader, subDagIndex := compressedSubDag.subDagIndex }

/-- The sub-dags that the executor may not have executed, or nothing if a leader is not stored. -/
def getRestoredConsensusOutput (consensusStore : ConsensusStore K D)
    (certificateStore : CertificateStore K D) (lastExecutedSubDagIndex : ℕ) :
    Option (List (CommittedSubDag K D)) :=
  (consensusStore.readCommittedSubDagsFrom lastExecutedSubDagIndex).mapM certificateStore.expand

/-! ## A node with an executor -/

/-- One life of the node: the last executed index it started with, and the sub-dags handed to the
execution state. -/
structure Lifetime (K D : Type) where
  lastExecuted : ℕ
  handed : List (CommittedSubDag K D)

/-- A node with the sub-dags on their way to the execution state: those that consensus still sends,
the channel to the subscriber, its ordered futures and the channel to the notifier. -/
structure ExecutorNode (K D : Type) where
  validator : Validator K D
  outputs : List (CommittedSubDag K D)
  sequence : List (CommittedSubDag K D)
  waiting : List (CommittedSubDag K D)
  notifier : List (CommittedSubDag K D)
  current : Lifetime K D
  past : List (Lifetime K D)

inductive ExecutorEvent (K D : Type) where
  /-- The primary writes and deletes certificates. -/
  | storeCertificates (certStore : CertificateStore K D)
  /-- Consensus processes a certificate and persists what it commits. -/
  | deliver (certificate : Certificate K D)
  /-- Consensus sends a sub-dag to the subscriber. -/
  | send
  /-- The subscriber receives a sub-dag and fetches its payload. -/
  | receive
  /-- The payload of the first sub-dag is there. -/
  | notify
  | handle
  | crash
  /-- The node crashes while consensus processes a certificate, after persisting `k` sub-dags. -/
  | crashDuring (certificate : Certificate K D) (k : ℕ)
  | restart (lastExecutedSubDagIndex : ℕ)

namespace ExecutorNode

/-- A node with empty stores that was not started yet. -/
def new : ExecutorNode K D :=
  ⟨{ Validator.new with memory := none }, [], [], [], [], ⟨0, []⟩, []⟩

/-- The lifetimes of the node. -/
def lifetimes (node : ExecutorNode K D) : List (Lifetime K D) := node.past ++ [node.current]

/-- What is not on disk is lost. -/
def stop (node : ExecutorNode K D) (validator : Validator K D) : ExecutorNode K D :=
  ⟨validator, [], [], [], [], ⟨0, []⟩, node.past ++ [node.current]⟩

/-- A step of the consensus task between two certificates. -/
def consensus (b : Bullshark K) (node : ExecutorNode K D) (event : Event K D) :
    Option (Validator K D) :=
  if node.outputs.isEmpty ∧ node.validator.memory.isSome then
    (node.validator.step b event).toOption
  else none

def step (b : Bullshark K) (node : ExecutorNode K D) :
    ExecutorEvent K D → Option (ExecutorNode K D)
  | .storeCertificates certStore =>
    some { node with validator := { node.validator with certStore } }
  | .deliver certificate =>
    (node.consensus b (.deliver certificate)).map fun validator =>
      { node with
        validator
        outputs := validator.emitted.drop node.validator.emitted.length }
  | .send =>
    match node.outputs with
    | [] => none
    | subDag :: outputs => some { node with outputs, sequence := node.sequence ++ [subDag] }
  | .receive =>
    match node.sequence with
    | [] => none
    | subDag :: sequence => some { node with sequence, waiting := node.waiting ++ [subDag] }
  | .notify =>
    match node.waiting with
    | [] => none
    | message :: waiting => some { node with waiting, notifier := node.notifier ++ [message] }
  | .handle =>
    match node.notifier with
    | [] => none
    | message :: notifier =>
      some { node with
        notifier
        current := { node.current with handed := node.current.handed ++ [message] } }
  | .crash =>
    if node.validator.memory.isSome then some (node.stop { node.validator with memory := none })
    else none
  | .crashDuring certificate k =>
    (node.consensus b (.crashDuring certificate k)).map node.stop
  | .restart lastExecutedSubDagIndex =>
    if node.validator.memory.isSome then none
    else do
      let waiting ← getRestoredConsensusOutput node.validator.consensusStore
        node.validator.certStore lastExecutedSubDagIndex
      let validator ← (node.validator.step b .restart).toOption
      return { node with validator, waiting, current := ⟨lastExecutedSubDagIndex, []⟩ }

def machine (b : Bullshark K) : Machine (ExecutorNode K D) (ExecutorEvent K D) where
  start := new
  next := step b

/-- Every committed certificate is in the certificate store. -/
def KeepsCommitted (node : ExecutorNode K D) : Prop :=
  ∀ s ∈ node.validator.emitted, ∀ c ∈ s.leader :: s.certificates,
    node.validator.certStore.read c.digest = some c

/-- At a restart the certificate store has kept the committed certificates, and what the execution
state has executed was handed to it. -/
def Relies (node : ExecutorNode K D) : ExecutorEvent K D → Prop
  | .restart lastExecuted => node.KeepsCommitted ∧
    (lastExecuted = 0 ∨ ∃ l ∈ node.lifetimes, ∃ s ∈ l.handed, s.subDagIndex = lastExecuted)
  | _ => True

end ExecutorNode

/-! ## What is on disk -/

/-- The disk of consensus holds the emitted sub-dags, which are numbered from one. -/
structure Recorded (store : ConsensusStore K D) (emitted : List (CommittedSubDag K D)) : Prop where
  indices : emitted.map CommittedSubDag.subDagIndex = List.range' 1 emitted.length
  shells : ∀ i shell, store.committedSubDagsByIndex.lookup i = some shell ↔
    ∃ s ∈ emitted, s.subDagIndex = i ∧ .fromSubDag s = shell

namespace Recorded

variable {b : Bullshark K} {store : ConsensusStore K D} {emitted : List (CommittedSubDag K D)}
  {s s' : CommittedSubDag K D}

section

omit [DecidableEq K] [DecidableEq D]

section

variable (h : Recorded store emitted)

include h

theorem index_mem (hs : s ∈ emitted) : 1 ≤ s.subDagIndex ∧ s.subDagIndex ≤ emitted.length := by
  have hmem := List.mem_map_of_mem (f := CommittedSubDag.subDagIndex) hs
  rw [h.indices, List.mem_range'_1] at hmem
  omega

theorem exists_of_index {i : ℕ} (hpos : 1 ≤ i) (hle : i ≤ emitted.length) :
    ∃ s ∈ emitted, s.subDagIndex = i := by
  have hmem : i ∈ emitted.map CommittedSubDag.subDagIndex := by
    rw [h.indices, List.mem_range'_1]
    omega
  exact List.mem_map.mp hmem

theorem eq_of_index (hs : s ∈ emitted) (hs' : s' ∈ emitted) (heq : s.subDagIndex = s'.subDagIndex) :
    s = s' := by
  have hnodup : (emitted.map CommittedSubDag.subDagIndex).Nodup := by
    rw [h.indices]
    exact List.nodup_range'
  exact List.inj_on_of_nodup_map hnodup hs hs' heq

theorem append_indices (hs : s.subDagIndex = emitted.length + 1) :
    (emitted ++ [s]).map CommittedSubDag.subDagIndex = List.range' 1 (emitted ++ [s]).length := by
  rw [List.map_append, h.indices, List.length_append, List.length_singleton, List.range'_concat,
    List.map_singleton, hs]
  simp [Nat.add_comm]

end

end

theorem commitLeader (b : Bullshark K) (core : Core K D) (h : Recorded core.store emitted)
    (hlatest : core.state.latestSubDagIndex = emitted.length) (L : Certificate K D) :
    Recorded (b.commitLeader core L).2.store (emitted ++ [(b.commitLeader core L).1]) ∧
      (b.commitLeader core L).2.state.latestSubDagIndex = emitted.length + 1 := by
  have hindex := core.state.foldl_update_latestSubDagIndex (orderDag b.gcDepth L core.state)
    b.gcDepth
  have hnext : (b.commitLeader core L).1.subDagIndex = emitted.length + 1 := by
    simp only [Bullshark.commitLeader, hindex, hlatest]
  have hstore : (b.commitLeader core L).2.store.committedSubDagsByIndex =
      core.store.committedSubDagsByIndex.insert (b.commitLeader core L).1.subDagIndex
        (.fromSubDag (b.commitLeader core L).1) := rfl
  refine ⟨⟨h.append_indices hnext, fun i shell => ?_⟩, hnext⟩
  generalize (b.commitLeader core L).1 = s at hnext hstore
  rw [hstore]
  by_cases hi : i = s.subDagIndex
  · subst hi
    rw [AList.lookup_insert, Option.some.injEq]
    constructor
    · exact fun heq => ⟨s, by simp, rfl, heq⟩
    · rintro ⟨s', hs', heq, hshell⟩
      rcases List.mem_append.mp hs' with hs' | hs'
      · have hle := (h.index_mem hs').2
        omega
      · rwa [List.mem_singleton.mp hs'] at hshell
  · rw [AList.lookup_insert_ne hi, h.shells]
    constructor
    · rintro ⟨s', hs', hrest⟩
      exact ⟨s', List.mem_append_left _ hs', hrest⟩
    · rintro ⟨s', hs', heq, hshell⟩
      rcases List.mem_append.mp hs' with hs' | hs'
      · exact ⟨s', hs', heq, hshell⟩
      · rw [List.mem_singleton.mp hs'] at heq
        exact absurd heq.symm hi

theorem commitLeaders (b : Bullshark K) (core : Core K D) (h : Recorded core.store emitted)
    (hlatest : core.state.latestSubDagIndex = emitted.length) (leaders : List (Certificate K D)) :
    Recorded (b.commitLeaders core leaders).2.store (emitted ++ (b.commitLeaders core leaders).1) ∧
      (b.commitLeaders core leaders).2.state.latestSubDagIndex =
        (emitted ++ (b.commitLeaders core leaders).1).length := by
  induction leaders generalizing core emitted with
  | nil => simpa [Bullshark.commitLeaders] using ⟨h, hlatest⟩
  | cons L leaders ih =>
    obtain ⟨hrecorded, hnext⟩ := h.commitLeader b core hlatest L
    have hrest := ih _ hrecorded (by rw [hnext, List.length_append, List.length_singleton])
    rw [List.append_assoc, List.singleton_append] at hrest
    exact hrest

theorem latestSubDagIndex_tryInsert {state' : ConsensusState K D} {inserted : Bool}
    (h : state.tryInsert c = .ok (state', inserted)) :
    state'.latestSubDagIndex = state.latestSubDagIndex := by
  obtain ⟨a, -, heq⟩ := Except.eq_ok_of_map h
  cases heq
  rfl

theorem processCertificate (core : Core K D) {core' : Core K D} (h : Recorded core.store emitted)
    (hlatest : core.state.latestSubDagIndex = emitted.length) {outcome : Outcome}
    (hok : b.processCertificate core c = .ok (outcome, subDags, core')) :
    Recorded core'.store (emitted ++ subDags) ∧
      core'.state.latestSubDagIndex = (emitted ++ subDags).length := by
  rcases Bullshark.processCertificate_cases hok with
    ⟨state, hinsert, rfl, rfl⟩ | ⟨state, leaders, hinsert, -, hcommit⟩
  · rw [List.append_nil]
    exact ⟨h, (latestSubDagIndex_tryInsert hinsert).trans hlatest⟩
  · have hcommitted := h.commitLeaders b { core with state }
      ((latestSubDagIndex_tryInsert hinsert).trans hlatest) leaders
    rwa [← hcommit] at hcommitted

theorem processPartially (core : Core K D) (h : Recorded core.store emitted)
    (hlatest : core.state.latestSubDagIndex = emitted.length) {k : ℕ}
    (hok : b.processPartially core c k = .ok (subDags, store)) :
    Recorded store (emitted ++ subDags) := by
  obtain ⟨state, inserted, hinsert, ⟨rfl, rfl⟩ | ⟨outcome, leaders, -, rfl, rfl⟩⟩ :=
    Bullshark.processPartially_cases hok
  · rwa [List.append_nil]
  · exact (h.commitLeaders b { core with state }
      ((latestSubDagIndex_tryInsert hinsert).trans hlatest) _).1

section

omit [DecidableEq K] [DecidableEq D]

section

variable (h : Recorded store emitted)

include h

theorem getLatestSubDagIndex : store.getLatestSubDagIndex = emitted.length := by
  refine max?_getD_eq (fun i hi => ?_) ?_
  · obtain ⟨shell, hshell⟩ := Option.isSome_iff_exists.mp (AList.lookup_isSome.mpr hi)
    obtain ⟨s, hs, rfl, -⟩ := (h.shells i shell).mp hshell
    exact (h.index_mem hs).2
  · rcases Nat.eq_zero_or_pos emitted.length with hzero | hpos
    · exact .inl hzero
    · obtain ⟨s, hs, hindex⟩ := h.exists_of_index hpos le_rfl
      exact .inr (Assoc.mem_keys_of_lookup ((h.shells _ _).mpr ⟨s, hs, hindex, rfl⟩))

theorem indices_drop (start : ℕ) :
    (emitted.drop (start - 1)).map CommittedSubDag.subDagIndex =
      List.range' (max start 1) (emitted.length - (start - 1)) := by
  rw [List.map_drop, h.indices, List.drop_range', Nat.mul_one]
  congr 1
  omega

theorem mem_drop_iff (start : ℕ) :
    s ∈ emitted.drop (start - 1) ↔ s ∈ emitted ∧ start ≤ s.subDagIndex := by
  constructor
  · intro hs
    have hmem := List.mem_map_of_mem (f := CommittedSubDag.subDagIndex) hs
    rw [h.indices_drop, List.mem_range'_1] at hmem
    exact ⟨List.mem_of_mem_drop hs, by omega⟩
  · rintro ⟨hs, hle⟩
    have hbounds := h.index_mem hs
    have hmem : s.subDagIndex ∈ (emitted.drop (start - 1)).map CommittedSubDag.subDagIndex := by
      rw [h.indices_drop, List.mem_range'_1]
      omega
    obtain ⟨s', hs', heq⟩ := List.mem_map.mp hmem
    rwa [← h.eq_of_index (List.mem_of_mem_drop hs') hs heq]

theorem readCommittedSubDagsFrom (start : ℕ) :
    store.readCommittedSubDagsFrom start =
      (emitted.drop (start - 1)).map CommittedSubDagShell.fromSubDag := by
  refine Assoc.valuesFrom_eq_map CommittedSubDag.subDagIndex ?_ fun i shell => ?_
  · rw [h.indices_drop]
    exact List.pairwise_lt_range'
  · simp only [h.shells, h.mem_drop_iff]
    constructor
    · rintro ⟨⟨s, hs, rfl, rfl⟩, hle⟩
      exact ⟨s, ⟨hs, hle⟩, rfl, rfl⟩
    · rintro ⟨s, ⟨hs, hle⟩, rfl, rfl⟩
      exact ⟨⟨s, hs, rfl, rfl⟩, hle⟩

end

end

omit [DecidableEq K] in
theorem expand_fromSubDag
    (hkeeps : ∀ c ∈ s.leader :: s.certificates, certStore.read c.digest = some c) :
    certStore.expand (.fromSubDag s) = some s := by
  have hcertificates : certStore.readAll (s.certificates.map Certificate.digest) =
      s.certificates.map some := by
    rw [CertificateStore.readAll, List.map_map]
    exact List.map_congr_left fun c hc => hkeeps c (List.mem_cons_of_mem _ hc)
  rw [CertificateStore.expand, CommittedSubDagShell.fromSubDag, hcertificates,
    hkeeps s.leader List.mem_cons_self]
  simp

omit [DecidableEq K] in
theorem getRestoredConsensusOutput (h : Recorded store emitted)
    (hkeeps : ∀ s ∈ emitted, ∀ c ∈ s.leader :: s.certificates, certStore.read c.digest = some c)
    (start : ℕ) :
    Narwhal.getRestoredConsensusOutput store certStore start = some (emitted.drop (start - 1)) := by
  have hexpand : ∀ s ∈ emitted.drop (start - 1),
      (certStore.expand ∘ CommittedSubDagShell.fromSubDag) s = some s :=
    fun s hs => expand_fromSubDag (hkeeps s (List.mem_of_mem_drop hs))
  rw [Narwhal.getRestoredConsensusOutput, h.readCommittedSubDagsFrom, List.mapM_map,
    List.mapM_eq_some_map hexpand, List.map_id']

end Recorded

/-! ## Every run -/

/-- A lifetime is handed a stretch of the emitted sub-dags that starts at the last executed one. -/
def Lifetime.Stretch (emitted : List (CommittedSubDag K D)) (l : Lifetime K D) : Prop :=
  l.handed <+: emitted.drop (l.lastExecuted - 1) ∧ l.lastExecuted - 1 ≤ emitted.length

omit [DecidableEq K] [DecidableEq D] in
theorem Lifetime.Stretch.append {emitted : List (CommittedSubDag K D)} {l : Lifetime K D}
    (h : l.Stretch emitted) (subDags : List (CommittedSubDag K D)) :
    l.Stretch (emitted ++ subDags) := by
  refine ⟨h.1.trans ?_, h.2.trans (by simp)⟩
  rw [List.drop_append_of_le_length h.2]
  exact List.prefix_append _ _

namespace ExecutorNode

variable {b : Bullshark K} {node node' : ExecutorNode K D}

/-- The sub-dags handed in this lifetime and those on their way. -/
def pipeline (node : ExecutorNode K D) : List (CommittedSubDag K D) :=
  node.current.handed ++ (node.notifier ++ (node.waiting ++ (node.sequence ++ node.outputs)))

theorem consensus_cases {event : Event K D} (h : node.consensus b event = some validator) :
    node.outputs = [] ∧ ∃ state, node.validator.memory = some state ∧
      node.validator.step b event = .ok validator := by
  unfold consensus at h
  split_ifs at h with hidle
  obtain ⟨state, hstate⟩ := Option.isSome_iff_exists.mp hidle.2
  exact ⟨List.isEmpty_iff.mp hidle.1, state, hstate, Except.eq_ok_of_toOption h⟩

/-- The invariant of the node: a running node hands on what was emitted from the last executed
sub-dag on. -/
structure Replays (node : ExecutorNode K D) : Prop where
  recorded : Recorded node.validator.consensusStore node.validator.emitted
  latest : ∀ state, node.validator.memory = some state →
    state.latestSubDagIndex = node.validator.emitted.length
  running : node.validator.memory.isSome = true →
    node.pipeline = node.validator.emitted.drop (node.current.lastExecuted - 1)
  down : node.validator.memory = none → node.pipeline = []
  started : node.current.lastExecuted - 1 ≤ node.validator.emitted.length
  past : ∀ l ∈ node.past, l.Stretch node.validator.emitted

namespace Replays

section

omit [DecidableEq K] [DecidableEq D]

theorem new : Replays (new : ExecutorNode K D) where
  recorded :=
    { indices := rfl
      shells := fun i shell => by simp [ExecutorNode.new, Validator.new, ConsensusStore.empty] }
  latest state hstate := by simp [ExecutorNode.new] at hstate
  running hsome := by simp [ExecutorNode.new] at hsome
  down _ := rfl
  started := le_rfl
  past l hl := by simp [ExecutorNode.new] at hl

theorem current (h : Replays node) : node.current.Stretch node.validator.emitted := by
  refine ⟨?_, h.started⟩
  have hstretch : node.current.handed <+: node.pipeline := List.prefix_append _ _
  cases hmemory : node.validator.memory with
  | none =>
    rw [h.down hmemory, List.prefix_nil] at hstretch
    rw [hstretch]
    exact List.nil_prefix
  | some state => rwa [h.running (by rw [hmemory]; rfl)] at hstretch

theorem lifetimes (h : Replays node) : ∀ l ∈ node.lifetimes, l.Stretch node.validator.emitted := by
  intro l hl
  rcases List.mem_append.mp hl with hl | hl
  · exact h.past l hl
  · rw [List.mem_singleton.mp hl]
    exact h.current

theorem pass (h : Replays node) (hvalidator : node'.validator = node.validator)
    (hpast : node'.past = node.past)
    (hstart : node'.current.lastExecuted = node.current.lastExecuted)
    (hpipeline : node'.pipeline = node.pipeline) : Replays node' where
  recorded := hvalidator ▸ h.recorded
  latest := hvalidator ▸ h.latest
  running := by
    rw [hvalidator, hpipeline, hstart]
    exact h.running
  down := by
    rw [hvalidator, hpipeline]
    exact h.down
  started := by
    rw [hvalidator, hstart]
    exact h.started
  past := by
    rw [hvalidator, hpast]
    exact h.past

theorem stop (h : Replays node) (hmemory : validator.memory = none)
    (hemitted : validator.emitted = node.validator.emitted ++ subDags)
    (hrecorded : Recorded validator.consensusStore validator.emitted) :
    Replays (node.stop validator) where
  recorded := hrecorded
  latest state hstate := by
    change validator.memory = some state at hstate
    rw [hmemory] at hstate
    cases hstate
  running hsome := by
    change validator.memory.isSome = true at hsome
    rw [hmemory] at hsome
    cases hsome
  down _ := rfl
  started := Nat.zero_le _
  past l hl := by
    change l.Stretch validator.emitted
    rw [hemitted]
    exact (h.lifetimes l hl).append subDags

end

theorem deliver (h : Replays node) (hok : node.consensus b (.deliver c) = some validator) :
    Replays { node with
      validator
      outputs := validator.emitted.drop node.validator.emitted.length } := by
  obtain ⟨houtputs, state, hmemory, hstep⟩ := consensus_cases hok
  rw [Validator.step, hmemory] at hstep
  obtain ⟨⟨outcome, subDags, core⟩, hprocess, rfl⟩ := Except.eq_ok_of_map hstep
  obtain ⟨hrecorded, hlatest⟩ :=
    h.recorded.processCertificate ⟨state, _⟩ (h.latest state hmemory) hprocess
  have hpipeline := h.running (by rw [hmemory]; rfl)
  rw [pipeline, houtputs, List.append_nil] at hpipeline
  refine ⟨hrecorded, fun state' hstate' => ?_, fun _ => ?_, fun hnone => ?_, ?_,
    fun l hl => (h.past l hl).append subDags⟩
  · cases hstate'
    exact hlatest
  · change node.current.handed ++ (node.notifier ++ (node.waiting ++ (node.sequence ++
      (node.validator.emitted ++ subDags).drop node.validator.emitted.length))) = _
    rw [List.drop_left, List.drop_append_of_le_length h.started, ← hpipeline]
    simp only [List.append_assoc]
  · cases hnone
  · exact h.started.trans (by simp)

theorem crashDuring (h : Replays node) {k : ℕ}
    (hok : node.consensus b (.crashDuring c k) = some validator) :
    Replays (node.stop validator) := by
  obtain ⟨-, state, hmemory, hstep⟩ := consensus_cases hok
  rw [Validator.step, hmemory] at hstep
  obtain ⟨⟨subDags, store⟩, hprocess, rfl⟩ := Except.eq_ok_of_map hstep
  exact h.stop rfl rfl
    (h.recorded.processPartially ⟨state, _⟩ (h.latest state hmemory) hprocess)

theorem latestSubDagIndex_newFromStore {lastCommitted : Assoc K ℕ} {latestSubDagIndex : ℕ}
    (h : ConsensusState.newFromStore lastCommitted latestSubDagIndex certStore = .ok state) :
    state.latestSubDagIndex = latestSubDagIndex := by
  unfold ConsensusState.newFromStore at h
  split at h <;> cases h
  rfl

/-- A restarted node begins with the stretch that was on disk, and consensus goes on from its
end. -/
theorem restart (h : Replays node) {lastExecuted : ℕ} (hdown : node.validator.memory = none)
    (hrelies : node.Relies (.restart lastExecuted)) {waiting : List (CommittedSubDag K D)}
    (hrestored : getRestoredConsensusOutput node.validator.consensusStore
      node.validator.certStore lastExecuted = some waiting)
    (hok : node.validator.step b .restart = .ok validator) :
    Replays { node with validator, waiting, current := ⟨lastExecuted, []⟩ } := by
  obtain ⟨hkeeps, hexecuted⟩ := hrelies
  rw [h.recorded.getRestoredConsensusOutput hkeeps] at hrestored
  cases hrestored
  obtain ⟨state, hstate, rfl⟩ := Except.eq_ok_of_map hok
  have hempty := h.down hdown
  simp only [pipeline, List.append_eq_nil_iff] at hempty
  obtain ⟨-, hnotifier, -, hsequence, houtputs⟩ := hempty
  refine ⟨h.recorded, fun state' hstate' => ?_, fun _ => ?_, fun hnone => ?_, ?_, h.past⟩
  · cases hstate'
    rw [latestSubDagIndex_newFromStore hstate]
    exact h.recorded.getLatestSubDagIndex
  · simp [pipeline, hnotifier, hsequence, houtputs]
  · cases hnone
  · rcases hexecuted with rfl | ⟨l, hl, s, hs, rfl⟩
    · exact Nat.zero_le _
    · have hmem := List.mem_of_mem_drop ((h.lifetimes l hl).1.subset hs)
      have hle := (h.recorded.index_mem hmem).2
      exact (Nat.sub_le _ _).trans hle

theorem step (h : Replays node) {event : ExecutorEvent K D} (hrelies : node.Relies event)
    (hstep : node.step b event = some node') : Replays node' := by
  cases event with
  | storeCertificates certStore =>
    cases hstep
    exact ⟨h.recorded, h.latest, h.running, h.down, h.started, h.past⟩
  | deliver c =>
    obtain ⟨validator, hok, rfl⟩ := Option.map_eq_some_iff.mp hstep
    exact h.deliver hok
  | send =>
    simp only [ExecutorNode.step] at hstep
    split at hstep <;> cases hstep
    next s outputs houtputs => exact h.pass rfl rfl rfl (by simp [pipeline, houtputs])
  | receive =>
    simp only [ExecutorNode.step] at hstep
    split at hstep <;> cases hstep
    next s sequence hsequence => exact h.pass rfl rfl rfl (by simp [pipeline, hsequence])
  | notify =>
    simp only [ExecutorNode.step] at hstep
    split at hstep <;> cases hstep
    next s waiting hwaiting => exact h.pass rfl rfl rfl (by simp [pipeline, hwaiting])
  | handle =>
    simp only [ExecutorNode.step] at hstep
    split at hstep <;> cases hstep
    next s notifier hnotifier => exact h.pass rfl rfl rfl (by simp [pipeline, hnotifier])
  | crash =>
    simp only [ExecutorNode.step] at hstep
    split_ifs at hstep
    cases hstep
    exact h.stop rfl (List.append_nil _).symm h.recorded
  | crashDuring c k =>
    obtain ⟨validator, hok, rfl⟩ := Option.map_eq_some_iff.mp hstep
    exact h.crashDuring hok
  | restart lastExecuted =>
    simp only [ExecutorNode.step] at hstep
    split_ifs at hstep with hmemory
    obtain ⟨waiting, hrestored, hstep⟩ := Option.bind_eq_some_iff.mp hstep
    obtain ⟨validator, hok, hstep⟩ := Option.bind_eq_some_iff.mp hstep
    cases hstep
    exact h.restart (by simpa using hmemory) hrelies hrestored (Except.eq_ok_of_toOption hok)

end Replays

/-- In each lifetime the execution state is handed sub-dags with consecutive numbers from the last
executed one on, the same under the same number in all lifetimes. -/
theorem handed_consecutive (h : (machine b).Reached Relies node) :
    (∀ l ∈ node.lifetimes, l.handed.map CommittedSubDag.subDagIndex =
        List.range' (max l.lastExecuted 1) l.handed.length) ∧
      ∀ l ∈ node.lifetimes, ∀ l' ∈ node.lifetimes, ∀ s ∈ l.handed, ∀ s' ∈ l'.handed,
        s.subDagIndex = s'.subDagIndex →
          s.leader = s'.leader ∧ s.certificates = s'.certificates := by
  have hreplays : Replays node := h.invariant Replays.new
    fun _ _ _ hreplays hrelies hstep => hreplays.step hrelies hstep
  refine ⟨fun l hl => ?_, fun l hl l' hl' s hs s' hs' heq => ?_⟩
  · obtain ⟨hstretch, -⟩ := hreplays.lifetimes l hl
    have hindices := hstretch.map CommittedSubDag.subDagIndex
    rw [hreplays.recorded.indices_drop] at hindices
    have hlength := hindices.length_le
    rw [List.length_map, List.length_range'] at hlength
    rw [List.prefix_iff_eq_take.mp hindices, List.length_map,
      List.take_range'_of_length_ge hlength]
  · have hmem : ∀ l ∈ node.lifetimes, ∀ s ∈ l.handed, s ∈ node.validator.emitted :=
      fun l hl s hs => List.mem_of_mem_drop ((hreplays.lifetimes l hl).1.subset hs)
    rw [hreplays.recorded.eq_of_index (hmem l hl s hs) (hmem l' hl' s' hs') heq]
    exact ⟨rfl, rfl⟩

instance (node : ExecutorNode K D) : ∀ event, Decidable (node.Relies event)
  | .restart lastExecuted => inferInstanceAs (Decidable
      ((∀ s ∈ node.validator.emitted, ∀ c ∈ s.leader :: s.certificates,
        node.validator.certStore.read c.digest = some c) ∧
      (lastExecuted = 0 ∨ ∃ l ∈ node.lifetimes, ∃ s ∈ l.handed, s.subDagIndex = lastExecuted)))
  | .storeCertificates _ | .deliver _ | .send | .receive | .notify | .handle | .crash
  | .crashDuring _ _ => .isTrue trivial

end ExecutorNode

namespace Sample

/-- The first sub-dag is executed and the second persisted when the node crashes. After the restart
both are handed on. -/
def crashAfterPersisting : List (ExecutorEvent (Fin 4) ℕ) :=
  [ExecutorEvent.restart 0,
    .storeCertificates (certificates.foldl CertificateStore.write .empty)] ++
    (roundOne ++ roundTwo ++ roundThree.take 2).map ExecutorEvent.deliver ++
    [ExecutorEvent.send, .receive, .notify, .handle] ++
    (roundThree.drop 2 ++ roundFour ++ roundFive.take 1).map ExecutorEvent.deliver ++
    [ExecutorEvent.crashDuring (certificate 1 5 [0, 1, 2]) 1, .restart 1, .notify, .handle, .notify,
      .handle]

def replayed : ExecutorNode (Fin 4) ℕ :=
  (ExecutorNode.machine (bullshark 50)).after .new crashAfterPersisting

theorem reached_replayed :
    (ExecutorNode.machine (bullshark 50)).Reached ExecutorNode.Relies replayed :=
  Machine.Reached.start.after (by decide +kernel)

end Sample

theorem ExecutorNode.handed_consecutive_sample :
    Sample.replayed.lifetimes.map (fun l => (l.lastExecuted, l.handed.length)) =
        [(0, 1), (1, 2)] ∧
      (∀ l ∈ Sample.replayed.lifetimes, l.handed.map CommittedSubDag.subDagIndex =
        List.range' (max l.lastExecuted 1) l.handed.length) ∧
      ∀ l ∈ Sample.replayed.lifetimes, ∀ l' ∈ Sample.replayed.lifetimes,
        ∀ s ∈ l.handed, ∀ s' ∈ l'.handed, s.subDagIndex = s'.subDagIndex →
          s.leader = s'.leader ∧ s.certificates = s'.certificates :=
  ⟨by decide +kernel, handed_consecutive Sample.reached_replayed⟩

end Narwhal

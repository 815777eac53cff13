import NarwhalGeth.Lib.Machine
import NarwhalGeth.Narwhal.CertificateStore
import NarwhalGeth.Narwhal.Integrity

/-!
# Crash recovery

After a crash, consensus rebuilds its state from the consensus store and the certificate store. The
DAG is loaded from the round after the *minimum* of the recorded last committed rounds, so a
certificate of an authority without a record is lost when it is not above that minimum. Where none
is lost, recovery re-establishes the refinement of the ledger.
-/

namespace Narwhal

variable {K D : Type} [DecidableEq K] [DecidableEq D] {c : Certificate K D}
  {emitted : List (CommittedSubDag K D)} {certs delivered : Set (Certificate K D)} {P : Pool K D}
  {lastCommitted : Assoc K ℕ} {dag : Dag K D}

namespace ConsensusState

/-- Loads the DAG from the certificates above the minimum last committed round. -/
def constructDagFromCertStore (certStore : CertificateStore K D) (lastCommitted : Assoc K ℕ) :
    Except (Fault K D) (Dag K D) :=
  let minCommittedRound := lastCommitted.values.min?.getD 0
  match certStore.afterRound (minCommittedRound + 1) with
  | none => .error (.panic "CertificateStore invariant violation")
  | some certificates =>
    certificates.foldlM (fun dag cert => (tryInsertInDag dag lastCommitted cert).map Prod.fst) ∅

def newFromStore (recoverLastCommitted : Assoc K ℕ) (latestSubDagIndex : ℕ)
    (certStore : CertificateStore K D) : Except (Fault K D) (ConsensusState K D) :=
  match constructDagFromCertStore certStore recoverLastCommitted with
  | .error _ => .error (.panic "error when recovering DAG from store")
  | .ok dag =>
    .ok
      { lastCommittedRound := recoverLastCommitted.values.max?.getD 0
        lastCommitted := recoverLastCommitted
        latestSubDagIndex
        dag }

end ConsensusState

/-! ## A validator that crashes and restarts -/

/-- Processing cut short by a crash: the commit of the first `k` leaders is persisted. -/
def Bullshark.processPartially (b : Bullshark K) (core : Core K D) (certificate : Certificate K D)
    (k : ℕ) : Except (Fault K D) (List (CommittedSubDag K D) × ConsensusStore K D) := do
  let (state, inserted) ← core.state.tryInsert certificate
  if !inserted then return ([], core.store)
  else
    let (_, leaders) ← b.electLeaders state certificate.round
    let (subDags, core) := b.commitLeaders { core with state } (leaders.take k)
    return (subDags, core.store)

/-- A validator's disk, its consensus task while it runs, what it has emitted, and the certificates
the task was given or has loaded. -/
structure Validator (K D : Type) where
  certStore : CertificateStore K D
  consensusStore : ConsensusStore K D
  memory : Option (ConsensusState K D)
  emitted : List (CommittedSubDag K D)
  known : List (Certificate K D)

inductive Event (K D : Type) where
  /-- The primary writes a certificate to its store. -/
  | write (certificate : Certificate K D)
  /-- Consensus is given a certificate and processes it. -/
  | deliver (certificate : Certificate K D)
  /-- The validator crashes while consensus is idle. -/
  | crash
  /-- The validator crashes while consensus processes a certificate, after persisting `k`
  sub-dags. -/
  | crashDuring (certificate : Certificate K D) (k : ℕ)
  | restart

namespace Validator

def new : Validator K D := ⟨.empty, .empty, some .new, [], []⟩

def step (b : Bullshark K) (v : Validator K D) : Event K D → Except (Fault K D) (Validator K D)
  | .write c => .ok { v with certStore := v.certStore.write c }
  | .deliver c =>
    match v.memory with
    | none => .ok v
    | some state =>
      (b.processCertificate ⟨state, v.consensusStore⟩ c).map fun (_, subDags, core) =>
        { v with consensusStore := core.store, memory := some core.state,
                 emitted := v.emitted ++ subDags, known := c :: v.known }
  | .crash => .ok { v with memory := none }
  | .crashDuring c k =>
    match v.memory with
    | none => .ok v
    | some state =>
      (b.processPartially ⟨state, v.consensusStore⟩ c k).map fun (subDags, store) =>
        { v with consensusStore := store, memory := none, emitted := v.emitted ++ subDags }
  | .restart =>
    (ConsensusState.newFromStore v.consensusStore.readLastCommitted
      v.consensusStore.getLatestSubDagIndex v.certStore).map fun state =>
        { v with memory := some state, known := v.certStore.certificates }

/-- Certificates are written parents first, given to a running task parents first and only once
written, and a validator restarts when it is down. -/
def Enabled (P : Pool K D) (v : Validator K D) : Event K D → Prop
  | .write c => c ∈ P ∧ ∀ p ∈ P, p.IsParent c → p ∈ v.certStore.certificates
  | .deliver c | .crashDuring c _ =>
    v.memory.isSome ∧ c ∈ v.certStore.certificates ∧ ∀ p ∈ P, p.IsParent c → p ∈ v.known
  | .crash => True
  | .restart => v.memory = none

/-- Restarting loses no pending certificate: those of authorities without a last committed round are
above the minimum of the recorded ones, or garbage collected. -/
def Recoverable (gcDepth : ℕ) (v : Validator K D) : Prop :=
  ∀ c ∈ v.certStore.certificates, v.consensusStore.lastCommitted.lookup c.origin = none →
    c.round ≤ v.consensusStore.lastCommitted.values.min?.getD 0 →
    c.round + gcDepth < v.consensusStore.lastCommitted.values.max?.getD 0

/-- The condition on a restart. -/
def SafeRestart (gcDepth : ℕ) (v : Validator K D) (e : Event K D) : Prop :=
  e = .restart → v.Recoverable gcDepth

/-- The validator as a machine. An event that ends in a fault has no step. -/
def machine (b : Bullshark K) : Machine (Validator K D) (Event K D) where
  start := .new
  next v e := (v.step b e).toOption

/-- The validators reached by enabled events that all meet a condition. -/
def Execution (P : Pool K D) (b : Bullshark K) (condition : Validator K D → Event K D → Prop) :
    Validator K D → Prop :=
  (machine b).Reached fun v e => v.Enabled P e ∧ condition v e

end Validator

/-! ## What the consensus store records -/

theorem max?_getD_eq {xs : List ℕ} {top : ℕ} (hle : ∀ x ∈ xs, x ≤ top)
    (htop : top = 0 ∨ top ∈ xs) : xs.max?.getD 0 = top := by
  cases hmax : xs.max? with
  | none =>
    rw [List.max?_eq_none_iff] at hmax
    subst hmax
    exact (htop.resolve_right (by simp)).symm
  | some m =>
    obtain ⟨hmem, hupper⟩ := List.max?_eq_some_iff.mp hmax
    have h₁ := hle m hmem
    rw [Option.getD_some]
    rcases htop with rfl | htop
    · omega
    · have h₂ := hupper top htop
      omega

/-- The disk of consensus records what its memory has committed. -/
structure Synced (core : Core K D) : Prop where
  committedRound : ∀ k, (core.store.lastCommitted.lookup k).getD 0 = core.state.committedRound k
  index_le : ∀ i ∈ core.store.committedSubDagsByIndex.keys, i ≤ core.state.latestSubDagIndex
  index_mem : core.state.latestSubDagIndex = 0 ∨
    core.state.latestSubDagIndex ∈ core.store.committedSubDagsByIndex.keys

namespace Synced

variable {b : Bullshark K} {core : Core K D}

theorem commitLeader (h : Synced core) (L : Certificate K D) :
    Synced (b.commitLeader core L).2 := by
  have hindex := core.state.foldl_update_latestSubDagIndex (orderDag b.gcDepth L core.state)
    b.gcDepth
  refine ⟨fun k => ?_, fun i hi => ?_, .inr ?_⟩
  · simp only [Bullshark.commitLeader, ConsensusStore.writeConsensusState,
      ConsensusState.committedRound]
    have hle := core.state.committedRound_le_foldl_update (orderDag b.gcDepth L core.state)
      b.gcDepth k
    unfold ConsensusState.committedRound at hle
    by_cases hk : k ∈ ((orderDag b.gcDepth L core.state).foldl
        (fun state x => state.update x b.gcDepth) core.state).lastCommitted
    · rw [AList.lookup_union_left hk]
    · rw [AList.lookup_union_right hk]
      have hold := h.committedRound k
      rw [AList.lookup_eq_none.mpr hk] at hle ⊢
      unfold ConsensusState.committedRound at hold
      rw [Option.getD_none] at hle ⊢
      omega
  · simp only [Bullshark.commitLeader, ConsensusStore.writeConsensusState, AList.keys_insert,
      List.mem_cons, hindex] at hi ⊢
    rcases hi with rfl | hi
    · exact le_rfl
    · exact (h.index_le i (List.mem_of_mem_erase hi)).trans (Nat.le_succ _)
  · simp only [Bullshark.commitLeader, ConsensusStore.writeConsensusState, AList.keys_insert,
      List.mem_cons, true_or]

theorem commitLeaders (h : Synced core) (leaders : List (Certificate K D)) :
    Synced (b.commitLeaders core leaders).2 := by
  induction leaders generalizing core with
  | nil => exact h
  | cons L leaders ih => exact ih (h.commitLeader L)

end Synced

/-! ## Loading the DAG -/

/-- The DAG holds the certificates of a set that are above the last committed rounds. -/
def Loaded (lastCommitted : Assoc K ℕ) (certs : Set (Certificate K D)) (dag : Dag K D) : Prop :=
  ∀ r k d c, dag.cell r k = some (d, c) ↔
    c ∈ certs ∧ c.round = r ∧ c.origin = k ∧ d = c.digest ∧ (lastCommitted.lookup k).getD 0 < r

theorem Loaded.tryInsertInDag (h : Loaded lastCommitted certs dag) (hcerts : ∀ c ∈ certs, c ∈ P)
    {x : Certificate K D} (hx : x ∈ P) :
    ∃ dag' inserted, Narwhal.tryInsertInDag dag lastCommitted x = .ok (dag', inserted) ∧
      Loaded lastCommitted (insert x certs) dag' := by
  rcases tryInsertInDag_cases dag lastCommitted x with
    ⟨hle, heq⟩ | ⟨-, d, existing, hcell, hne, -⟩ | ⟨hlt, -, dag', heq, hwrite⟩
  · refine ⟨dag, false, heq, fun r k d c => ?_⟩
    rw [h, Set.mem_insert_iff]
    constructor
    · exact fun hc => ⟨.inr hc.1, hc.2⟩
    · rintro ⟨rfl | hc, hrest⟩
      · obtain ⟨rfl, rfl, -, hlt⟩ := hrest
        omega
      · exact ⟨hc, hrest⟩
  · obtain ⟨hmem, hround, horigin, -⟩ := (h _ _ _ _).mp hcell
    rw [P.eq_of_origin_round existing (hcerts _ hmem) x hx horigin hround] at hne
    exact absurd rfl hne
  · refine ⟨dag', true, heq, fun r k d c => ?_⟩
    rw [hwrite, Set.mem_insert_iff]
    split_ifs with hcell
    · obtain ⟨rfl, rfl⟩ := hcell
      rw [Option.some.injEq, Prod.mk.injEq]
      constructor
      · rintro ⟨rfl, rfl⟩
        exact ⟨.inl rfl, rfl, rfl, rfl, hlt⟩
      · rintro ⟨hc, hround, horigin, rfl, -⟩
        have hcP : c ∈ P := by
          rcases hc with rfl | hc
          · exact hx
          · exact hcerts c hc
        rw [P.eq_of_origin_round c hcP x hx horigin hround]
        exact ⟨rfl, rfl⟩
    · rw [h]
      constructor
      · exact fun hc => ⟨.inr hc.1, hc.2⟩
      · rintro ⟨rfl | hc, hrest⟩
        · exact absurd ⟨hrest.1.symm, hrest.2.1.symm⟩ hcell
        · exact ⟨hc, hrest⟩

theorem Loaded.foldlM (h : Loaded lastCommitted certs dag) (hcerts : ∀ c ∈ certs, c ∈ P)
    {xs : List (Certificate K D)} (hxs : ∀ x ∈ xs, x ∈ P) :
    ∃ dag', xs.foldlM
        (fun dag cert => (Narwhal.tryInsertInDag dag lastCommitted cert).map Prod.fst) dag =
          .ok dag' ∧
      Loaded lastCommitted (certs ∪ {c | c ∈ xs}) dag' := by
  induction xs generalizing dag certs with
  | nil => exact ⟨dag, rfl, by simpa using h⟩
  | cons x xs ih =>
    have hx := hxs x List.mem_cons_self
    obtain ⟨dag', inserted, heq, hloaded⟩ := h.tryInsertInDag hcerts hx
    obtain ⟨dag'', hfold, hloaded'⟩ := ih hloaded
      (by rintro c (rfl | hc)
          · exact hx
          · exact hcerts c hc)
      fun y hy => hxs y (List.mem_cons_of_mem _ hy)
    refine ⟨dag'', ?_, ?_⟩
    · rw [List.foldlM_cons, heq]
      exact hfold
    · have hset : insert x certs ∪ {c | c ∈ xs} = certs ∪ {c | c ∈ x :: xs} := by
        ext c
        simp only [Set.mem_union, Set.mem_insert_iff, Set.mem_ofPred_eq, List.mem_cons]
        tauto
      rwa [hset] at hloaded'

section Records

variable {lastCommitted : Assoc K ℕ} {A : Frontier K}

omit [DecidableEq D] in
theorem committedRound_of_record
    (hround : ∀ k, (lastCommitted.lookup k).getD 0 = A.committedRound k) {k : K} {r : ℕ}
    (hr : lastCommitted.lookup k = some r) : r = A.committedRound k := by
  rw [← hround, hr, Option.getD_some]

theorem max?_records (hbound : ∀ k, A.committedRound k ≤ A.lastCommittedRound)
    (hreached : A.lastCommittedRound = 0 ∨ ∃ k, A.committedRound k = A.lastCommittedRound)
    (hround : ∀ k, (lastCommitted.lookup k).getD 0 = A.committedRound k) :
    lastCommitted.values.max?.getD 0 = A.lastCommittedRound := by
  refine max?_getD_eq (fun r hr => ?_) ?_
  · obtain ⟨k, hk⟩ := Assoc.mem_values_iff.mp hr
    rw [committedRound_of_record hround hk]
    exact hbound k
  · rcases Nat.eq_zero_or_pos A.lastCommittedRound with hzero | hpos
    · exact .inl hzero
    · obtain ⟨k, hk⟩ := hreached.resolve_left (by omega)
      refine .inr (Assoc.mem_values_iff.mpr ⟨k, ?_⟩)
      cases hlook : lastCommitted.lookup k with
      | none =>
        have hzero := hround k
        rw [hlook, Option.getD_none] at hzero
        omega
      | some r => rw [committedRound_of_record hround hlook, hk]

theorem min?_records_le {k : K} {r : ℕ} (hr : lastCommitted.lookup k = some r) :
    lastCommitted.values.min?.getD 0 ≤ r := by
  have hmem := Assoc.mem_values_iff.mpr ⟨k, hr⟩
  cases hmin : lastCommitted.values.min? with
  | none =>
    rw [List.min?_eq_none_iff.mp hmin] at hmem
    exact absurd hmem List.not_mem_nil
  | some m => exact (List.min?_eq_some_iff.mp hmin).2 r hmem

end Records

/-- Where recovery loses no pending certificate, it rebuilds a state that refines the frontier on
disk, with every stored certificate delivered. -/
theorem Refines.newFromStore {gcDepth : ℕ} {A : Frontier K} {v : Validator K D}
    (hfits : ∀ c ∈ P, c.round + gcDepth < 2 ^ 64)
    (hbound : ∀ k, A.committedRound k ≤ A.lastCommittedRound)
    (hreached : A.lastCommittedRound = 0 ∨ ∃ k, A.committedRound k = A.lastCommittedRound)
    (hround : ∀ k, (v.consensusStore.lastCommitted.lookup k).getD 0 = A.committedRound k)
    (hcerts : v.certStore.WellFormed P)
    (hclosed : ∀ c ∈ v.certStore.certificates, ∀ p ∈ P, p.IsParent c →
      p ∈ v.certStore.certificates) (hsafe : v.Recoverable gcDepth) (n : ℕ) :
    ∃ dag, ConsensusState.newFromStore v.consensusStore.readLastCommitted n v.certStore =
        .ok ⟨A.lastCommittedRound, v.consensusStore.lastCommitted, n, dag⟩ ∧
      Refines P gcDepth {c | c ∈ v.certStore.certificates}
        ⟨A.lastCommittedRound, v.consensusStore.lastCommitted, n, dag⟩ A := by
  have hmax := max?_records hbound hreached hround
  have hpool : ∀ c ∈ v.certStore.certificates, c ∈ P := fun c hc =>
    (hcerts.pool _ c (hcerts.mem_certificates.mp hc)).1
  obtain ⟨certs, hafter, hmem⟩ := hcerts.afterRound
    (v.consensusStore.lastCommitted.values.min?.getD 0 + 1)
  have hempty :
      Loaded v.consensusStore.lastCommitted (∅ : Set (Certificate K D)) (∅ : Dag K D) := by
    intro r k d c
    simp [Dag.cell]
  obtain ⟨dag, hfold, hloaded⟩ := hempty.foldlM (P := P) (fun c hc => hc.elim)
    fun c hc => hpool c ((hmem c).mp hc).1
  rw [Set.empty_union] at hloaded
  refine ⟨dag, ?_, hround, rfl, hbound, hfits, hpool, ?_, ?_, ?_⟩
  · simp only [ConsensusState.newFromStore, ConsensusState.constructDagFromCertStore,
      ConsensusStore.readLastCommitted, hafter, hfold, hmax]
  · intro r k d c hcell
    obtain ⟨hc, hr, ho, hd, hlt⟩ := (hloaded r k d c).mp hcell
    exact ⟨((hmem c).mp hc).1, hr, ho, hd, hround k ▸ hlt⟩
  · rintro c hc ⟨hlt, hgc⟩
    refine (hloaded _ _ _ _).mpr ⟨(hmem c).mpr ⟨hc, ?_⟩, rfl, rfl, rfl, (hround _).symm ▸ hlt⟩
    -- A certificate at or below the minimum belongs to an authority without a record.
    by_contra hlow
    cases hlook : v.consensusStore.lastCommitted.lookup c.origin with
    | none =>
      have hlost := hsafe c hc hlook (by omega)
      omega
    | some r =>
      have hle := min?_records_le hlook
      have hr := committedRound_of_record hround hlook
      omega
  · exact fun c hc p hp hparent => .inl (hclosed c hc p hp hparent)

/-! ## The invariant of an execution -/

/-- The disk and, while the task runs, the memory of a validator describe the ledger of some
committed leaders. -/
structure Durable (P : Pool K D) (b : Bullshark K) (v : Validator K D)
    (leaders : List (Certificate K D)) (A : Frontier K) : Prop where
  ledger : Ledger P b.gcDepth .start 0 leaders v.emitted A
  anchored : P.Anchored b.committee b.leaderAuthority leaders
  storedRound : ∀ k, (v.consensusStore.lastCommitted.lookup k).getD 0 = A.committedRound k
  index_le : ∀ i ∈ v.consensusStore.committedSubDagsByIndex.keys, i ≤ leaders.length
  index_mem : leaders.length = 0 ∨
    leaders.length ∈ v.consensusStore.committedSubDagsByIndex.keys
  certs : v.certStore.WellFormed P
  closed : ∀ c ∈ v.certStore.certificates, ∀ p ∈ P, p.IsParent c → p ∈ v.certStore.certificates
  memory : ∀ state, v.memory = some state →
    Ledgered P b {c | c ∈ v.known} state v.emitted leaders A ∧ Synced ⟨state, v.consensusStore⟩

variable {P : Pool K D} {b : Bullshark K} {v v' : Validator K D} {leaders : List (Certificate K D)}
  {A : Frontier K}

theorem Bullshark.processPartially_cases {core : Core K D} {k : ℕ}
    {subDags : List (CommittedSubDag K D)} {store : ConsensusStore K D}
    (h : b.processPartially core c k = .ok (subDags, store)) :
    ∃ state inserted, core.state.tryInsert c = .ok (state, inserted) ∧
      ((subDags = [] ∧ store = core.store) ∨ ∃ outcome leaders,
        b.electLeaders state c.round = .ok (outcome, leaders) ∧
        subDags = (b.commitLeaders { core with state } (leaders.take k)).1 ∧
        store = (b.commitLeaders { core with state } (leaders.take k)).2.store) := by
  obtain ⟨⟨state, inserted⟩, hinsert, hrest⟩ := Except.eq_ok_of_bind h
  refine ⟨state, inserted, hinsert, ?_⟩
  cases inserted with
  | false =>
    cases hrest
    exact .inl ⟨rfl, rfl⟩
  | true =>
    obtain ⟨⟨outcome, leaders⟩, helect, hcommit⟩ := Except.eq_ok_of_bind hrest
    cases hcommit
    exact .inr ⟨outcome, leaders, helect, rfl, rfl⟩

namespace Durable

theorem new (hfits : ∀ c ∈ P, c.round + b.gcDepth < 2 ^ 64) :
    Durable P b .new [] .start where
  ledger := .nil _ _
  anchored := .inl rfl
  storedRound _ := rfl
  index_le i hi := by simp [Validator.new, ConsensusStore.empty] at hi
  index_mem := .inl rfl
  certs := .empty P
  closed c hc := by simp [Validator.new, CertificateStore.certificates, CertificateStore.empty,
    Assoc.values] at hc
  memory state hstate := by
    cases hstate
    refine ⟨?_, fun _ => rfl, fun i hi => ?_, .inl rfl⟩
    · have hnew := Ledgered.new hfits
      have hempty :
          ({c | c ∈ (Validator.new : Validator K D).known} : Set (Certificate K D)) = ∅ := by
        simp [Validator.new]
      rwa [hempty]
    · simp [Validator.new, ConsensusStore.empty] at hi

theorem pool (h : Durable P b v leaders A) (hc : c ∈ v.certStore.certificates) : c ∈ P :=
  (h.certs.pool _ c (h.certs.mem_certificates.mp hc)).1

theorem write (h : Durable P b v leaders A) (hc : c ∈ P)
    (hparents : ∀ p ∈ P, p.IsParent c → p ∈ v.certStore.certificates) :
    Durable P b { v with certStore := v.certStore.write c } leaders A where
  ledger := h.ledger
  anchored := h.anchored
  storedRound := h.storedRound
  index_le := h.index_le
  index_mem := h.index_mem
  certs := h.certs.write hc
  closed x hx p hp hparent := by
    refine (h.certs.mem_certificates_write hc).mpr (.inr ?_)
    rcases (h.certs.mem_certificates_write hc).mp hx with rfl | hx
    · exact hparents p hp hparent
    · exact h.closed x hx p hp hparent
  memory := h.memory

theorem commit (hq : P.Quorate b.committee) (core : Core K D)
    (h : Ledgered P b delivered core.state emitted leaders A) (hsynced : Synced core)
    (hanchored : P.Anchored b.committee b.leaderAuthority leaders) {round : ℕ}
    {new : List (Certificate K D)} (hnew : new = [] ∨ ∃ m j L found,
      Elects b core.state round m j L found ∧ new = (L :: found).reverse) (k : ℕ) :
    ∃ A', Ledgered P b delivered (b.commitLeaders core (new.take k)).2.state
        (emitted ++ (b.commitLeaders core (new.take k)).1) (leaders ++ new.take k) A' ∧
      Synced (b.commitLeaders core (new.take k)).2 ∧
      P.Anchored b.committee b.leaderAuthority (leaders ++ new.take k) := by
  rcases hnew with rfl | ⟨m, j, L, found, he, rfl⟩
  · rw [List.take_nil, Bullshark.commitLeaders, List.append_nil, List.append_nil]
    exact ⟨A, h, hsynced, hanchored⟩
  obtain ⟨A', hcommitted⟩ := h.commitLeaders core ((h.refines.committable he).take k)
  refine ⟨A', hcommitted, hsynced.commitLeaders _, ?_⟩
  refine Pool.Anchored.of_prefix (.inr ⟨L, h.refines.anchor he, List.prefix_rfl⟩) ?_
  rw [← h.append_elected hq hanchored he]
  exact (List.prefix_append_right_inj _).mpr (List.take_prefix _ _)

/-- The disk that goes with a memory in agreement with the ledger, whether the memory survives or
not. -/
theorem of_core (core : Core K D) (hledgered : Ledgered P b delivered core.state emitted leaders A)
    (hsynced : Synced core) (hanchored : P.Anchored b.committee b.leaderAuthority leaders)
    (h : ∃ leaders' A', Durable P b v leaders' A') {memory : Option (ConsensusState K D)}
    {known : List (Certificate K D)}
    (hmemory : ∀ state, memory = some state → state = core.state ∧ delivered = {c | c ∈ known}) :
    Durable P b ⟨v.certStore, core.store, memory, emitted, known⟩ leaders A := by
  obtain ⟨_, _, h⟩ := h
  refine ⟨hledgered.ledger, hanchored, fun k => ?_, hledgered.index ▸ hsynced.index_le,
    hledgered.index ▸ hsynced.index_mem, h.certs, h.closed, fun state hstate => ?_⟩
  · exact (hsynced.committedRound k).trans (hledgered.refines.committedRound k)
  · obtain ⟨rfl, rfl⟩ := hmemory state hstate
    exact ⟨hledgered, hsynced⟩

theorem insert (h : Durable P b v leaders A) {state state' : ConsensusState K D}
    (hmemory : v.memory = some state)
    (hstate' : Refines P b.gcDepth (insert c {x | x ∈ v.known}) state' A)
    (hmap : state'.lastCommitted = state.lastCommitted)
    (hindex : state'.latestSubDagIndex = state.latestSubDagIndex) :
    Ledgered P b {x | x ∈ c :: v.known} state' v.emitted leaders A ∧
      Synced ⟨state', v.consensusStore⟩ := by
  obtain ⟨hledgered, hsynced⟩ := h.memory state hmemory
  have hset : Insert.insert c {x | x ∈ v.known} = {x | x ∈ c :: v.known} := by
    ext x
    simp
  refine ⟨⟨hset ▸ hstate', hledgered.ledger, hindex.trans hledgered.index⟩, ?_⟩
  refine ⟨fun k => (hsynced.committedRound k).trans ?_, ?_, ?_⟩
  · rw [ConsensusState.committedRound, ConsensusState.committedRound, hmap]
  · exact fun i hi => hindex ▸ hsynced.index_le i hi
  · exact hindex ▸ hsynced.index_mem

theorem deliver (hq : P.Quorate b.committee) (h : Durable P b v leaders A)
    (henabled : v.Enabled P (.deliver c)) (heq : v.step b (.deliver c) = .ok v') :
    ∃ leaders' A', Durable P b v' leaders' A' := by
  obtain ⟨hsome, hc, hparents⟩ := henabled
  obtain ⟨state, hmemory⟩ := Option.isSome_iff_exists.mp hsome
  obtain ⟨hledgered, -⟩ := h.memory state hmemory
  simp only [Validator.step, hmemory] at heq
  obtain ⟨⟨outcome, subDags, core⟩, hok, rfl⟩ := Except.eq_ok_of_map heq
  obtain ⟨state', newLeaders, hstate', hmap, hindex, hcommit, hnew⟩ :=
    hledgered.refines.processCertificate hledgered.even (h.pool hc)
      (fun p hp hparent => .inl (hparents p hp hparent)) hok
  obtain ⟨hledgered', hsynced'⟩ := h.insert hmemory hstate' hmap hindex
  obtain ⟨A', hledgered'', hsynced'', hanchored⟩ := commit hq ⟨state', v.consensusStore⟩
    hledgered' hsynced' h.anchored hnew newLeaders.length
  rw [List.take_length] at hledgered'' hsynced'' hanchored
  rw [← hcommit] at hledgered'' hsynced''
  exact ⟨_, _, of_core _ hledgered'' hsynced'' hanchored ⟨_, _, h⟩
    (by rintro _ ⟨⟩; exact ⟨rfl, rfl⟩)⟩

theorem crashDuring (hq : P.Quorate b.committee) (h : Durable P b v leaders A) {k : ℕ}
    (henabled : v.Enabled P (.crashDuring c k)) (heq : v.step b (.crashDuring c k) = .ok v') :
    ∃ leaders' A', Durable P b v' leaders' A' := by
  obtain ⟨hsome, hc, hparents⟩ := henabled
  obtain ⟨state, hmemory⟩ := Option.isSome_iff_exists.mp hsome
  obtain ⟨hledgered, -⟩ := h.memory state hmemory
  simp only [Validator.step, hmemory] at heq
  obtain ⟨⟨subDags, store⟩, hok, rfl⟩ := Except.eq_ok_of_map heq
  obtain ⟨state', inserted, hinsert, hcases⟩ := Bullshark.processPartially_cases hok
  obtain ⟨hstate', hmap, hindex⟩ := hledgered.refines.tryInsert (h.pool hc)
    (fun p hp hparent => .inl (hparents p hp hparent)) hinsert
  obtain ⟨hledgered', hsynced'⟩ := h.insert hmemory hstate' hmap hindex
  have hlost : ∀ state, (none : Option (ConsensusState K D)) = some state → False := by simp
  rcases hcases with ⟨rfl, rfl⟩ | ⟨outcome, newLeaders, helect, rfl, rfl⟩
  · rw [List.append_nil]
    exact ⟨_, _, of_core ⟨state', v.consensusStore⟩ hledgered' hsynced' h.anchored
      ⟨_, _, h⟩ (fun s hs => (hlost s hs).elim)⟩
  · obtain ⟨A', hledgered'', hsynced'', hanchored⟩ := commit hq ⟨state', v.consensusStore⟩
      hledgered' hsynced' h.anchored
      (hledgered'.refines.electLeaders_cases hledgered'.even helect) k
    exact ⟨_, _, of_core _ hledgered'' hsynced'' hanchored ⟨_, _, h⟩
      (fun s hs => (hlost s hs).elim)⟩

theorem restart (hfits : ∀ c ∈ P, c.round + b.gcDepth < 2 ^ 64) (h : Durable P b v leaders A)
    (hsafe : v.Recoverable b.gcDepth) (heq : v.step b .restart = .ok v') :
    Durable P b v' leaders A := by
  have hbound : ∀ k, A.committedRound k ≤ A.lastCommittedRound :=
    h.ledger.committedRound_le_last fun _ => le_rfl
  have hreached := h.ledger.exists_committedRound_eq (fun _ => le_rfl) (.inl rfl)
  obtain ⟨dag, hok, hrefines⟩ := Refines.newFromStore hfits hbound hreached h.storedRound h.certs
    h.closed hsafe v.consensusStore.getLatestSubDagIndex
  simp only [Validator.step, hok] at heq
  cases heq
  refine ⟨h.ledger, h.anchored, h.storedRound, h.index_le, h.index_mem, h.certs, h.closed, ?_⟩
  rintro state ⟨⟩
  have hindex : v.consensusStore.getLatestSubDagIndex = leaders.length :=
    max?_getD_eq h.index_le h.index_mem
  exact ⟨⟨hrefines, h.ledger, hindex⟩, fun _ => rfl, hindex ▸ h.index_le, hindex ▸ h.index_mem⟩

theorem step (hq : P.Quorate b.committee) (hfits : ∀ c ∈ P, c.round + b.gcDepth < 2 ^ 64)
    (h : Durable P b v leaders A) {e : Event K D} (henabled : v.Enabled P e)
    (hsafe : v.SafeRestart b.gcDepth e) (heq : v.step b e = .ok v') :
    ∃ leaders' A', Durable P b v' leaders' A' := by
  cases e with
  | write c =>
    cases heq
    exact ⟨leaders, A, h.write henabled.1 henabled.2⟩
  | deliver c => exact h.deliver hq henabled heq
  | crash =>
    cases heq
    exact ⟨leaders, A, h.ledger, h.anchored, h.storedRound, h.index_le, h.index_mem, h.certs,
      h.closed, by simp⟩
  | crashDuring c k => exact h.crashDuring hq henabled heq
  | restart => exact ⟨leaders, A, h.restart hfits (hsafe rfl) heq⟩

end Durable

theorem Validator.Execution.durable (hq : P.Quorate b.committee)
    (hfits : ∀ c ∈ P, c.round + b.gcDepth < 2 ^ 64)
    (h : Execution P b (SafeRestart b.gcDepth) v) : ∃ leaders A, Durable P b v leaders A := by
  refine Machine.Reached.invariant (I := fun v => ∃ leaders A, Durable P b v leaders A)
    ⟨[], .start, .new hfits⟩ ?_ h
  rintro v e v' ⟨leaders, A, hv⟩ ⟨henabled, hsafe⟩ heq
  exact hv.step hq hfits henabled hsafe (Except.eq_ok_of_toOption heq)

/-- A validator that restarts any number of times, each time where no pending certificate is lost,
emits a sequence that is prefix-comparable with that of every validator that never crashes, without
repetitions and gaps. No round overflows with the depth. -/
theorem Validator.Execution.emitted_comparable (hq : P.Quorate b.committee)
    (hfits : ∀ c ∈ P, c.round + b.gcDepth < 2 ^ 64)
    (h : Execution P b (SafeRestart b.gcDepth) v) {certificates : List (Certificate K D)}
    (hpool : ∀ c ∈ certificates, c ∈ P) (hfirst : ParentsFirst P certificates) :
    (v.emitted <+: (b.run certificates).emitted ∨ (b.run certificates).emitted <+: v.emitted) ∧
      (committedSequence v.emitted).Nodup ∧
      v.emitted.map CommittedSubDag.subDagIndex = List.range' 1 v.emitted.length := by
  obtain ⟨leaders, A, hv⟩ := h.durable hq hfits
  obtain ⟨leaders', A', hledger', hanchored'⟩ := Bullshark.run_anchored hq hfits hpool hfirst
  have hintegrity : Integrity b.gcDepth [] v.emitted := hv.ledger.integrity (by simp)
  exact ⟨hv.ledger.comparable hledger' (hv.anchored.comparable hq hanchored'), hintegrity.nodup,
    hintegrity.index⟩

/-! ## Concrete executions -/

namespace Validator

instance (v : Validator K D) (gcDepth : ℕ) : Decidable (v.Recoverable gcDepth) :=
  inferInstanceAs (Decidable (∀ c ∈ v.certStore.certificates, _ → _ → _))

instance (v : Validator K D) (gcDepth : ℕ) : ∀ e, Decidable (v.SafeRestart gcDepth e)
  | .restart => decidable_of_iff (v.Recoverable gcDepth) ⟨fun h _ => h, fun h => h rfl⟩
  | .write _ | .deliver _ | .crash | .crashDuring _ _ => .isTrue nofun

/-- For a finite pool it can be checked whether an event is enabled. -/
instance {certs : List (Certificate K D)} {hround horigin hdigest} (v : Validator K D) :
    ∀ e, Decidable (v.Enabled (.ofList certs hround horigin hdigest) e)
  | .write c => inferInstanceAs (Decidable
      (c ∈ certs ∧ ∀ p ∈ certs, p.IsParent c → p ∈ v.certStore.certificates))
  | .deliver c | .crashDuring c _ => inferInstanceAs (Decidable
      (v.memory.isSome ∧ c ∈ v.certStore.certificates ∧
        ∀ p ∈ certs, p.IsParent c → p ∈ v.known))
  | .crash => inferInstanceAs (Decidable True)
  | .restart => inferInstanceAs (Decidable (v.memory = none))

end Validator

namespace Sample

instance (v : Validator (Fin 4) ℕ) (e : Event (Fin 4) ℕ) : Decidable (v.Enabled pool e) :=
  inferInstanceAs (Decidable (v.Enabled (.ofList certificates _ _ _) e))

/-- The validator crashes after the first commit, when no certificate of the fourth authority is
committed. -/
def crashAfterFirstCommit : List (Event (Fin 4) ℕ) :=
  certificates.map .write ++ (roundOne ++ roundTwo ++ roundThree).map .deliver ++
    [.crash, .restart] ++ (roundFour ++ roundFive).map .deliver

/-- The validator crashes while it commits the first leader, before the sub-dag is persisted. -/
def crashBeforeFirstCommit : List (Event (Fin 4) ℕ) :=
  certificates.map .write ++ (roundOne ++ roundTwo ++ [certificate 0 3 [0, 2, 3]]).map .deliver ++
    [.crashDuring (certificate 1 3 [0, 1, 2]) 0, .restart] ++
    (roundThree ++ roundFour ++ roundFive).map .deliver

end Sample

/-- A crash before the first commit is safe, and the validator catches up. -/
theorem Validator.Execution.emitted_comparable_sample :
    let b := Sample.bullshark 50
    let v := (Validator.machine b).after (.new : Validator (Fin 4) ℕ) Sample.crashBeforeFirstCommit
    v.emitted.length = 2 ∧
      (v.emitted <+: (b.run Sample.certificates).emitted ∨
        (b.run Sample.certificates).emitted <+: v.emitted) ∧
      (committedSequence v.emitted).Nodup ∧
      v.emitted.map CommittedSubDag.subDagIndex = List.range' 1 v.emitted.length := by
  intro b v
  have hexecution : Execution Sample.pool b (SafeRestart b.gcDepth) v :=
    Machine.Reached.start.after (by decide +kernel)
  exact ⟨by decide +kernel, Validator.Execution.emitted_comparable Sample.pool_quorate
    Sample.pool_fits hexecution (fun c hc => hc)
    (Sample.parentsFirst_of_forall_fin (by decide +kernel))⟩

/-- Recovery loses the first certificate of the slow authority, which the crash-free run commits in
its second sub-dag. -/
theorem Validator.Execution.recovery_forks :
    let b := Sample.bullshark 50
    let v := (Validator.machine b).after (.new : Validator (Fin 4) ℕ) Sample.crashAfterFirstCommit
    Execution Sample.pool b (fun _ _ => True) v ∧
      Sample.pool.Quorate b.committee ∧ ParentsFirst Sample.pool Sample.certificates ∧
      ¬(v.emitted <+: (b.run Sample.certificates).emitted ∨
        (b.run Sample.certificates).emitted <+: v.emitted) := by
  intro b v
  refine ⟨Machine.Reached.start.after (by decide +kernel), Sample.pool_quorate,
    Sample.parentsFirst_of_forall_fin (by decide +kernel), by decide +kernel⟩

end Narwhal

import NarwhalGeth.Lib.Gapless
import NarwhalGeth.Lib.Machine
import NarwhalGeth.Gateway.Relay

/-!
# Ordered delivery to geth

A Narwhal process hands the committed sub-dags to its relay from the first one on, whenever it
restarts. The relay sends one message at a time, the gateway queues them and notifies geth of each,
and the adapter ignores the sub-dags it has seen. Messages of several lifetimes mix in the gateway.
-/

namespace Gateway

open Narwhal
open Geth (Bytes NarwhalCommitEvent NarwhalAdapter NarwhalOutput)

variable {K D H : Type}

/-! ## The pipeline -/

/-- What the pipeline runs on: the encodings, the batches and the committed sub-dags by their index.
-/
structure Deployment (K D H : Type) where
  codec : Codec K D H
  fetchPayload : D → ℕ → Batch
  subDag : ℕ → CommittedSubDag K D

/-- Where the relay is in its call of the gateway: no call, a request sent, a response on its way.
-/
inductive Call where
  | idle | sent | answered
deriving DecidableEq

/-- The state of the pipeline: the lifetime of the Narwhal process, the last sub-dag handed to its
relay and the relay's call; the requests at the gateway, with their lifetimes, and its queue; the
adapter and the outputs the miner has taken from it. -/
structure Delivery (H : Type) where
  lifetime : ℕ
  handed : ℕ
  call : Call
  requests : List (ℕ × GatewayConsensusOutput)
  txCo : List GatewayConsensusOutput
  adapter : NarwhalAdapter H
  taken : List (NarwhalOutput H)

inductive DeliveryEvent where
  | relay
  | deliver (i : ℕ)
  | respond
  | cancel (i : ℕ)
  | restart
  | notify
  | waitForCommit
deriving DecidableEq

namespace Delivery

/-- The capacity of the gateway's queue. -/
def txCoSize : ℕ := 500

def start : Delivery H :=
  ⟨0, SimpleExecutionState.lastExecutedSubDagIndex, .idle, [], [],
    NarwhalAdapter.getNarwhalAdapter, []⟩

/-- The outputs that were placed on the adapter's channel. -/
def placed (s : Delivery H) : List (NarwhalOutput H) := s.taken ++ s.adapter.outc

/-- The relay takes the next sub-dag from the executor and calls the gateway. -/
def relay (d : Deployment K D H) (s : Delivery H) : Option (Delivery H) :=
  if s.call ≠ .idle then none
  else
    match handleEthereumBlock d.codec (fetchPayloads d.fetchPayload (d.subDag (s.handed + 1))) with
    | none => none
    | some none => some { s with handed := s.handed + 1 }
    | some (some request) =>
      some { s with
        handed := s.handed + 1
        call := .sent
        requests := s.requests ++ [(s.lifetime, request)] }

/-- The gateway puts a request on its queue, as soon as there is room, and answers. -/
def deliverConsensusOutput (s : Delivery H) (i : ℕ) : Option (Delivery H) :=
  match s.requests[i]? with
  | none => none
  | some (lifetime, request) =>
    if txCoSize ≤ s.txCo.length then none
    else
      some { s with
        call := if lifetime = s.lifetime then .answered else s.call
        requests := s.requests.eraseIdx i
        txCo := s.txCo ++ [request] }

/-- The response reaches the relay. -/
def respond (s : Delivery H) : Option (Delivery H) :=
  if s.call = .answered then some { s with call := .idle } else none

/-- A request is dropped with the connection of the process that sent it. -/
def cancel (s : Delivery H) (i : ℕ) : Option (Delivery H) :=
  match s.requests[i]? with
  | none => none
  | some (lifetime, _) =>
    if lifetime = s.lifetime then none else some { s with requests := s.requests.eraseIdx i }

/-- The Narwhal process ends, at whatever point its relay is, and is started again. -/
def restart (s : Delivery H) : Delivery H :=
  { s with
    lifetime := s.lifetime + 1
    handed := SimpleExecutionState.lastExecutedSubDagIndex
    call := .idle }

/-- The gateway takes the next message and notifies geth, whose channel must have room for a new
output. -/
def notify (d : Deployment K D H) (s : Delivery H) : Option (Delivery H) :=
  match s.txCo with
  | [] => none
  | request :: txCo => do
    let event ← commitEvent d.codec request
    let (_, adapter) ← s.adapter.notify d.codec.decodeHeader event
    if NarwhalAdapter.outcSize < adapter.outc.length then none
    else some { s with txCo, adapter }

/-- The miner, and nobody else, takes an output from the adapter's channel, after a block it has
broadcast. -/
def waitForCommit (s : Delivery H) : Option (Delivery H) :=
  s.adapter.waitForCommit.map fun (output, adapter) =>
    { s with adapter, taken := s.taken ++ [output] }

def step (d : Deployment K D H) (s : Delivery H) : DeliveryEvent → Option (Delivery H)
  | .relay => s.relay d
  | .deliver i => s.deliverConsensusOutput i
  | .respond => s.respond
  | .cancel i => s.cancel i
  | .restart => some s.restart
  | .notify => s.notify d
  | .waitForCommit => s.waitForCommit

def machine (d : Deployment K D H) : Machine (Delivery H) DeliveryEvent := ⟨start, step d⟩

end Delivery

/-! ## The order of the messages -/

/-- Geth is to be notified of the sub-dags that contain a batch. -/
def Deployment.HasBatches (d : Deployment K D H) (i : ℕ) : Prop :=
  0 < i ∧ 0 < (d.subDag i).numBatches

/-- Every sub-dag carries its index, and its batches hold the given proposals. -/
structure Deployment.Commits (d : Deployment K D H) (proposals : D → ℕ → List Proposal)
    (header : Proposal → Geth.Header H) : Prop where
  index : ∀ i, (d.subDag i).subDagIndex = i
  proposes : ∀ i, Proposes d.codec d.fetchPayload proposals header (d.subDag i)

namespace Delivery

variable {d : Deployment K D H} {proposals : D → ℕ → List Proposal}
  {header : Proposal → Geth.Header H} {s s' : Delivery H} {queue order order' : List ℕ} {i n : ℕ}
  {guard : Delivery H → DeliveryEvent → Prop}

/-- The sub-dags below this index have been relayed in the present lifetime. -/
def relayed (s : Delivery H) : ℕ := if s.call = .sent then s.handed else s.handed + 1

/-- The list has all sub-dags with a batch below an index. -/
def Covers (d : Deployment K D H) (order : List ℕ) (n : ℕ) : Prop :=
  ∀ i, i < n → d.HasBatches i → i ∈ order

theorem Covers.mono (h : Covers d order n) (hsubset : order ⊆ order') : Covers d order' n :=
  fun i hi hbatches => hsubset (h i hi hbatches)

theorem Covers.succ (h : Covers d order n) (hn : d.HasBatches n → n ∈ order) :
    Covers d order (n + 1) := by
  intro i hi hbatches
  rcases Nat.lt_succ_iff_lt_or_eq.mp hi with hi | rfl
  · exact h i hi hbatches
  · exact hn hbatches

/-- A request carries the message of a sub-dag, and all earlier ones have reached the queue. One of
the present lifetime is what the relay waits for. -/
structure Pending (d : Deployment K D H) (proposals : D → ℕ → List Proposal) (s : Delivery H)
    (order : List ℕ) (request : ℕ × GatewayConsensusOutput) (i : ℕ) : Prop where
  hasBatches : d.HasBatches i
  message : request.2 = message d.codec proposals (d.subDag i)
  covers : Covers d order i
  old : request.1 ≤ s.lifetime
  awaited : request.1 = s.lifetime → s.call = .sent ∧ i = s.handed

/-- The gateway's queue holds the messages of the sub-dags `queue`, and the adapter's channel got
the outputs of those it has marked. A sub-dag leaves the gateway after all earlier ones. -/
structure Ordered (d : Deployment K D H) (proposals : D → ℕ → List Proposal)
    (header : Proposal → Geth.Header H) (s : Delivery H) (queue : List ℕ) : Prop where
  txCo : s.txCo = queue.map fun i => message d.codec proposals (d.subDag i)
  placed : s.placed =
    s.adapter.committedSeqs.reverse.map fun i => commitOutput proposals header (d.subDag i)
  hasBatches : ∀ i ∈ s.adapter.committedSeqs.reverse ++ queue, d.HasBatches i
  nodup : s.adapter.committedSeqs.Nodup
  gapless : Gapless d.HasBatches (s.adapter.committedSeqs.reverse ++ queue)
  requests : ∀ request ∈ s.requests,
    ∃ i, Pending d proposals s (s.adapter.committedSeqs.reverse ++ queue) request i
  lifetimes : (s.requests.map Prod.fst).Nodup
  covers : Covers d (s.adapter.committedSeqs.reverse ++ queue) s.relayed

namespace Ordered

theorem start : Ordered d proposals header (start : Delivery H) [] where
  txCo := rfl
  placed := rfl
  hasBatches := by simp [Delivery.start, NarwhalAdapter.getNarwhalAdapter]
  nodup := .nil
  gapless := .nil
  requests := by simp [Delivery.start]
  lifetimes := .nil
  covers := by
    intro i hi hbatches
    have hzero : i < 1 := hi
    have hpos := hbatches.1
    omega

theorem lifetime_ne (h : Ordered d proposals header s queue) (hcall : s.call ≠ .sent)
    {request : ℕ × GatewayConsensusOutput} (hmem : request ∈ s.requests) :
    request.1 ≠ s.lifetime := by
  obtain ⟨i, hi⟩ := h.requests request hmem
  exact fun heq => hcall (hi.awaited heq).1

theorem relay (hd : d.Commits proposals header) (h : Ordered d proposals header s queue)
    (hstep : s.relay d = some s') : Ordered d proposals header s' queue := by
  unfold Delivery.relay at hstep
  split_ifs at hstep with hcall
  have hidle : s.call = .idle := not_not.mp hcall
  have hsent : s.call ≠ .sent := by simp [hidle]
  have hcovers := h.covers
  unfold relayed at hcovers
  rw [if_neg hsent] at hcovers
  rw [(hd.proposes (s.handed + 1)).handleEthereumBlock_fetchPayloads] at hstep
  by_cases hbatches : (d.subDag (s.handed + 1)).numBatches = 0
  · rw [if_pos hbatches] at hstep
    cases hstep
    refine { h with requests := ?_, covers := ?_ }
    · intro request hmem
      obtain ⟨i, hi⟩ := h.requests request hmem
      exact ⟨i, { hi with awaited := fun heq => absurd heq (h.lifetime_ne hsent hmem) }⟩
    · unfold relayed
      rw [if_neg hsent]
      exact hcovers.succ fun hpos => absurd hbatches (Nat.ne_of_gt hpos.2)
  · rw [if_neg hbatches] at hstep
    cases hstep
    refine { h with requests := ?_, lifetimes := ?_, covers := hcovers }
    · intro request hmem
      rcases List.mem_append.mp hmem with hmem | hmem
      · obtain ⟨i, hi⟩ := h.requests request hmem
        exact ⟨i, { hi with awaited := fun heq => absurd heq (h.lifetime_ne hsent hmem) }⟩
      · rw [List.mem_singleton] at hmem
        subst hmem
        exact ⟨s.handed + 1, ⟨Nat.succ_pos _, Nat.pos_of_ne_zero hbatches⟩, rfl, hcovers, le_refl _,
          fun _ => ⟨rfl, rfl⟩⟩
    · rw [List.map_append, List.nodup_append]
      refine ⟨h.lifetimes, List.nodup_singleton _, ?_⟩
      intro l hl l' hl'
      obtain ⟨request, hmem, rfl⟩ := List.mem_map.mp hl
      rw [List.mem_singleton.mp hl']
      exact h.lifetime_ne hsent hmem

section

variable (h : Ordered d proposals header s queue)

include h

theorem deliverConsensusOutput (hstep : s.deliverConsensusOutput i = some s') :
    ∃ j, Ordered d proposals header s' (queue ++ [j]) := by
  unfold Delivery.deliverConsensusOutput at hstep
  split at hstep
  case h_1 => cases hstep
  rename_i lifetime request hget
  by_cases hfull : txCoSize ≤ s.txCo.length
  · rw [if_pos hfull] at hstep
    cases hstep
  rw [if_neg hfull] at hstep
  cases hstep
  obtain ⟨j, hj⟩ := h.requests _ (List.mem_of_getElem? hget)
  obtain ⟨hlt, heq⟩ := List.getElem?_eq_some_iff.mp hget
  have hperm := (List.getElem_cons_eraseIdx_perm hlt).map Prod.fst
  rw [heq] at hperm
  obtain ⟨hother, hlifetimes⟩ := List.nodup_cons.mp (hperm.nodup_iff.mpr h.lifetimes)
  have hsubset := List.subset_append_left (s.adapter.committedSeqs.reverse ++ queue) [j]
  refine ⟨j, ?_, h.placed, ?_, h.nodup, ?_, ?_, hlifetimes, ?_⟩
  · rw [List.map_append, ← h.txCo]
    exact congrArg (fun message => s.txCo ++ [message]) hj.message
  · rw [← List.append_assoc]
    intro k hk
    rcases List.mem_append.mp hk with hk | hk
    · exact h.hasBatches k hk
    · exact List.mem_singleton.mp hk ▸ hj.hasBatches
  · rw [← List.append_assoc]
    exact h.gapless.concat hj.covers
  · rw [← List.append_assoc]
    intro other hmem
    obtain ⟨k, hk⟩ := h.requests other (List.mem_of_mem_eraseIdx hmem)
    refine ⟨k, hk.hasBatches, hk.message, hk.covers.mono hsubset, hk.old, fun hnow => ?_⟩
    -- two requests are from different lifetimes, so that the relay still waits for the other one
    have hne : lifetime ≠ s.lifetime := by
      rintro rfl
      exact hother (List.mem_map.mpr ⟨other, hmem, hnow⟩)
    exact ⟨(if_neg hne).trans (hk.awaited hnow).1, (hk.awaited hnow).2⟩
  · rw [← List.append_assoc]
    unfold relayed
    dsimp only
    by_cases hnow : lifetime = s.lifetime
    · obtain ⟨hsent, rfl⟩ := hj.awaited hnow
      rw [if_pos hnow, if_neg (by decide)]
      exact (hj.covers.mono hsubset).succ fun _ => by simp
    · rw [if_neg hnow]
      exact h.covers.mono hsubset

theorem respond (hstep : s.respond = some s') : Ordered d proposals header s' queue := by
  unfold Delivery.respond at hstep
  split_ifs at hstep with hanswered
  cases hstep
  have hsent : s.call ≠ .sent := by simp [hanswered]
  refine { h with requests := ?_, covers := ?_ }
  · intro request hmem
    obtain ⟨i, hi⟩ := h.requests request hmem
    exact ⟨i, { hi with awaited := fun heq => absurd heq (h.lifetime_ne hsent hmem) }⟩
  · have hcovers := h.covers
    unfold relayed at hcovers
    rwa [if_neg hsent] at hcovers

theorem cancel (hstep : s.cancel i = some s') : Ordered d proposals header s' queue := by
  unfold Delivery.cancel at hstep
  split at hstep
  case h_1 => cases hstep
  split_ifs at hstep
  cases hstep
  have hsublist := (List.eraseIdx_sublist s.requests i)
  refine { h with requests := ?_, lifetimes := h.lifetimes.sublist (hsublist.map _) }
  intro request hmem
  obtain ⟨j, hj⟩ := h.requests request (hsublist.subset hmem)
  exact ⟨j, { hj with }⟩

/-- After a restart the requests of the former lifetime are like those of any earlier one. -/
theorem restart : Ordered d proposals header s.restart queue := by
  refine { h with requests := ?_, covers := ?_ }
  · intro request hmem
    obtain ⟨i, hi⟩ := h.requests request hmem
    have hold : request.1 < s.lifetime + 1 := Nat.lt_succ_of_le hi.old
    exact ⟨i, { hi with
      old := Nat.le_of_lt hold
      awaited := fun heq => absurd heq (Nat.ne_of_lt hold) }⟩
  · intro i hi hbatches
    have hzero : i < 1 := hi
    have hpos := hbatches.1
    omega

end

theorem ignore (h : Ordered d proposals header s (i :: queue))
    (hseen : i ∈ s.adapter.committedSeqs) :
    Ordered d proposals header
      { s with txCo := queue.map fun j => message d.codec proposals (d.subDag j) } queue := by
  have hmarked := List.mem_reverse.mpr hseen
  have hsubset : s.adapter.committedSeqs.reverse ++ i :: queue ⊆
      s.adapter.committedSeqs.reverse ++ queue := by
    apply List.append_subset.mpr
    refine ⟨List.subset_append_left _ _, List.cons_subset.mpr ⟨?_, List.subset_append_right _ _⟩⟩
    exact List.mem_append_left _ hmarked
  have hsublist := (List.sublist_cons_self i queue).append_left s.adapter.committedSeqs.reverse
  refine { h with
    txCo := rfl
    hasBatches := ?_
    gapless := h.gapless.drop_mem hmarked
    requests := ?_
    covers := h.covers.mono hsubset }
  · intro k hk
    exact h.hasBatches k (hsublist.subset hk)
  · intro request hmem
    obtain ⟨k, hk⟩ := h.requests request hmem
    exact ⟨k, { hk with covers := hk.covers.mono hsubset }⟩

theorem mark (h : Ordered d proposals header s (i :: queue)) (hnew : i ∉ s.adapter.committedSeqs) :
    Ordered d proposals header
      { s with
        txCo := queue.map fun j => message d.codec proposals (d.subDag j)
        adapter :=
          { s.adapter with
            committedSeqs := i :: s.adapter.committedSeqs
            outc := s.adapter.outc ++ [commitOutput proposals header (d.subDag i)] } } queue := by
  have horder : (i :: s.adapter.committedSeqs).reverse ++ queue =
      s.adapter.committedSeqs.reverse ++ i :: queue := by
    simp
  refine ⟨rfl, ?_, ?_, List.nodup_cons.mpr ⟨hnew, h.nodup⟩, ?_, ?_, h.lifetimes, ?_⟩
  · have hplaced := h.placed
    unfold Delivery.placed at hplaced ⊢
    rw [List.reverse_cons, List.map_append, ← hplaced, List.append_assoc]
    rfl
  · rw [horder]
    exact h.hasBatches
  · rw [horder]
    exact h.gapless
  · rw [horder]
    intro request hmem
    obtain ⟨k, hk⟩ := h.requests request hmem
    exact ⟨k, { hk with }⟩
  · rw [horder]
    exact h.covers

theorem notify (hd : d.Commits proposals header) (h : Ordered d proposals header s queue)
    (hstep : s.notify d = some s') : ∃ queue', Ordered d proposals header s' queue' := by
  unfold Delivery.notify at hstep
  rw [h.txCo] at hstep
  cases queue with
  | nil => cases hstep
  | cons i queue =>
    rw [List.map_cons] at hstep
    obtain ⟨event, hevent, hstep⟩ := Option.bind_eq_some_iff.mp hstep
    rw [(hd.proposes i).commitEvent_message] at hevent
    cases hevent
    obtain ⟨⟨resp, adapter⟩, hnotify, hstep⟩ := Option.bind_eq_some_iff.mp hstep
    dsimp only at hstep
    split_ifs at hstep
    cases hstep
    have hseq : (commitOutput proposals header (d.subDag i)).evt.narwhalSequenceNumber = i :=
      hd.index i
    refine ⟨queue, ?_⟩
    rcases NarwhalAdapter.notify_cases hnotify with ⟨hseen, rfl⟩ | ⟨headers, hnew, hdecode, rfl⟩
    · exact h.ignore (hseq ▸ hseen)
    · rw [(hd.proposes i).mapM_decodeHeader] at hdecode
      cases hdecode
      rw [hseq] at hnew ⊢
      exact h.mark hnew

theorem waitForCommit (h : Ordered d proposals header s queue)
    (hstep : s.waitForCommit = some s') : Ordered d proposals header s' queue := by
  unfold Delivery.waitForCommit NarwhalAdapter.waitForCommit at hstep
  have hplaced := h.placed
  unfold Delivery.placed at hplaced
  split at hstep
  · cases hstep
  · rename_i output outc houtc
    cases hstep
    refine { h with placed := ?_, requests := ?_ }
    · rw [← hplaced, houtc]
      exact List.append_assoc _ _ _
    · intro request hmem
      obtain ⟨i, hi⟩ := h.requests request hmem
      exact ⟨i, { hi with }⟩

theorem step (hd : d.Commits proposals header) (h : Ordered d proposals header s queue)
    {e : DeliveryEvent} (hstep : s.step d e = some s') :
    ∃ queue', Ordered d proposals header s' queue' := by
  cases e with
  | relay => exact ⟨queue, h.relay hd hstep⟩
  | deliver i =>
    obtain ⟨j, hj⟩ := h.deliverConsensusOutput hstep
    exact ⟨queue ++ [j], hj⟩
  | respond => exact ⟨queue, h.respond hstep⟩
  | cancel i => exact ⟨queue, h.cancel hstep⟩
  | restart =>
    cases hstep
    exact ⟨queue, h.restart⟩
  | notify => exact h.notify hd hstep
  | waitForCommit => exact ⟨queue, h.waitForCommit hstep⟩

theorem of_reached (hd : d.Commits proposals header) (h : (machine d).Reached guard s) :
    ∃ queue, Ordered d proposals header s queue :=
  Machine.Reached.invariant (I := fun s => ∃ queue, Ordered d proposals header s queue)
    ⟨[], Ordered.start⟩ (fun _ _ _ ⟨_, hs⟩ _ hstep => hs.step hd hstep) h

theorem committedSeqs_increasing (h : Ordered d proposals header s queue) :
    s.adapter.committedSeqs.reverse.Pairwise (· < ·) :=
  h.gapless.of_append.pairwise_lt (List.nodup_reverse.mpr h.nodup)
    fun i hi => h.hasBatches i (List.mem_append_left _ hi)

end Ordered

/-! ## Delivery -/

theorem relay_isSome (hd : d.Commits proposals header) (hidle : s.call = .idle) :
    (s.relay d).isSome := by
  unfold relay
  rw [if_neg (not_not.mpr hidle), (hd.proposes _).handleEthereumBlock_fetchPayloads]
  split_ifs <;> rfl

/-- The gateway and geth do not panic: a message in the queue is notified as soon as the adapter's
channel has room. -/
theorem notify_isSome (hd : d.Commits proposals header) (h : (machine d).Reached guard s)
    (htxCo : s.txCo ≠ []) (hroom : s.adapter.outc.length < NarwhalAdapter.outcSize) :
    (s.notify d).isSome := by
  obtain ⟨queue, hordered⟩ := Ordered.of_reached hd h
  unfold notify
  rw [hordered.txCo] at htxCo ⊢
  cases queue with
  | nil => exact absurd rfl htxCo
  | cons i queue =>
    obtain ⟨resp, adapter, hnotify, hlength⟩ :=
      NarwhalAdapter.exists_notify (hd.proposes i).mapM_decodeHeader s.adapter
    have hfits : ¬ NarwhalAdapter.outcSize < adapter.outc.length := by omega
    simp [(hd.proposes i).commitEvent_message, hnotify, hfits]

/-- However often Narwhal restarts, the outputs on the adapter's channel have increasing sequence
numbers, are of sub-dags with batches and have the headers of their proposals in commit order. -/
theorem placed_in_order (hd : d.Commits proposals header)
    (h : (machine d).Reached (fun _ _ => True) s) :
    s.placed.Pairwise (fun x y => x.evt.narwhalSequenceNumber < y.evt.narwhalSequenceNumber) ∧
    ∀ output ∈ s.placed, ∃ i, 0 < i ∧ output.evt.narwhalSequenceNumber = i ∧
      (∃ cert ∈ (d.subDag i).certificates, cert.header.payload ≠ []) ∧
      output.headers = (commitOrder proposals (d.subDag i)).map header := by
  obtain ⟨queue, hordered⟩ := Ordered.of_reached hd h
  rw [hordered.placed]
  constructor
  · rw [List.pairwise_map]
    refine hordered.committedSeqs_increasing.imp fun {i j} hlt => ?_
    show (d.subDag i).subDagIndex < (d.subDag j).subDagIndex
    rwa [hd.index, hd.index]
  · intro output hmem
    obtain ⟨i, hi, rfl⟩ := List.mem_map.mp hmem
    obtain ⟨hpos, hbatches⟩ := hordered.hasBatches i (List.mem_append_left _ hi)
    exact ⟨i, hpos, hd.index i, CommittedSubDag.numBatches_pos.mp hbatches, rfl⟩

namespace Sample

def cert (round : ℕ) (payload : List (ℕ × ℕ × ℕ)) : Certificate ℕ ℕ :=
  ⟨⟨0, round, 0, 0, payload, [], round, []⟩⟩

/-- The first and the third sub-dag have batches. -/
def subDag (i : ℕ) : CommittedSubDag ℕ ℕ where
  certificates :=
    if i = 1 then [cert 1 [(10, 0, 0), (11, 0, 0)], cert 2 [(12, 0, 0)]]
    else if i = 3 then [cert 3 [], cert 4 [(13, 0, 0)]]
    else []
  leader := cert (2 * i) []
  subDagIndex := i

/-- A batch has two proposals, but for one that is empty. -/
def batch (digest _workerId : ℕ) : List Proposal :=
  if digest = 11 then [] else [⟨[], [digest.toUInt8]⟩, ⟨[], [digest.toUInt8 + 10]⟩]

def decodeHeader : Bytes → Option (Geth.Header ℕ)
  | [number] => some ⟨0, number.toNat, 0, 0⟩
  | _ => none

def proposed (p : Proposal) : Geth.Header ℕ := ⟨0, (p.ethereumHeader.headD 0).toNat, 0, 0⟩

def codec : Codec ℕ ℕ ℕ where
  encodeProposal := Proposal.ethereumHeader
  decodeProposal bytes := some ⟨[], bytes⟩
  serialize subDag := List.replicate subDag.subDagIndex 0
  deserialize bytes := some (subDag bytes.length)
  decodeHeader := decodeHeader

def deployment : Deployment ℕ ℕ ℕ where
  codec := codec
  fetchPayload digest workerId := ⟨(batch digest workerId).map codec.encodeProposal⟩
  subDag := subDag

theorem eq_of_mem_batch {digest workerId : ℕ} {p : Proposal} (h : p ∈ batch digest workerId) :
    ∃ number, p = ⟨[], [number]⟩ := by
  unfold batch at h
  split_ifs at h
  · cases h
  · simp only [List.mem_cons, List.not_mem_nil, or_false] at h
    rcases h with rfl | rfl
    · exact ⟨_, rfl⟩
    · exact ⟨_, rfl⟩

theorem commits : deployment.Commits batch proposed where
  index _ := rfl
  proposes i :=
    { serialized := by simp [deployment, codec, subDag]
      transactions := fun _ _ _ _ => rfl
      encoded := by
        intro p hp
        simp only [commitOrder, List.mem_flatMap] at hp
        obtain ⟨_, _, _, _, hp⟩ := hp
        obtain ⟨number, rfl⟩ := eq_of_mem_batch hp
        rfl
      decodable := by
        intro p hp
        simp only [commitOrder, List.mem_flatMap] at hp
        obtain ⟨_, _, _, _, hp⟩ := hp
        obtain ⟨number, rfl⟩ := eq_of_mem_batch hp
        rfl }

/-- Narwhal restarts while the message of the third sub-dag is under way. It reaches the queue after
that of the first one, which is relayed again. -/
def restarted : Delivery ℕ :=
  (machine deployment).after start
    [.relay, .deliver 0, .respond, .relay, .relay, .restart, .relay, .deliver 1, .notify,
      .deliver 0, .waitForCommit, .notify, .notify]

end Sample

/-- Geth receives the first and the third sub-dag once, with their headers. -/
theorem placed_in_order_restart :
    Sample.restarted.placed.map (fun output => output.headers.map Geth.Header.number) =
      [[10, 20, 12, 22], [13, 23]] ∧
    Sample.restarted.placed.Pairwise
      (fun x y => x.evt.narwhalSequenceNumber < y.evt.narwhalSequenceNumber) :=
  ⟨by decide +kernel, (placed_in_order Sample.commits
    (Machine.Reached.start.after (m := machine Sample.deployment) (by decide +kernel))).1⟩

end Delivery

end Gateway

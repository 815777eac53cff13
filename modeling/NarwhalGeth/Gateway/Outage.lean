import NarwhalGeth.Lib.Rpc
import NarwhalGeth.Gateway.Delivery

/-!
# Failed calls on the way to geth

In one lifetime of Narwhal, the calls of the relay to the gateway and of the gateway to geth may
fail. The relay and the notifier discard the result of a call and go on with the next sub-dag. Only
a failed connection to geth ends the notifier.
-/

namespace Gateway

open Narwhal
open Geth (Bytes NarwhalCommitEvent NarwhalAdapter NarwhalOutput)

variable {K D H : Type}

/-! ## The pipeline with failures -/

/-- The state of the pipeline in one lifetime: the last sub-dag handed to the relay and the relay's
calls, the gateway's queue, whether its notifier runs and the calls of that, the adapter and the
outputs the miner has taken from it. -/
structure Outage (H : Type) where
  handed : ℕ
  deliver : Rpc GatewayConsensusOutput
  txCo : List GatewayConsensusOutput
  notifying : Bool
  notify : Rpc NarwhalCommitEvent
  adapter : NarwhalAdapter H
  taken : List (NarwhalOutput H)

inductive OutageEvent where
  | relay
  | deliver (i : ℕ)
  | deliverResponse
  | deliverError
  | deliverDropped (i : ℕ)
  | connectError
  | notify
  | notified (i : ℕ)
  | notifyResponse
  | notifyError
  | notifyDropped (i : ℕ)
  | waitForCommit
deriving DecidableEq

namespace Outage

def start : Outage H :=
  ⟨SimpleExecutionState.lastExecutedSubDagIndex, .start, [], true, .start,
    NarwhalAdapter.getNarwhalAdapter, []⟩

/-- The outputs that were placed on the adapter's channel. -/
def placed (s : Outage H) : List (NarwhalOutput H) := s.taken ++ s.adapter.outc

/-- The sequence numbers of these outputs. -/
def placedSeqs (s : Outage H) : List ℕ :=
  s.placed.map fun output => output.evt.narwhalSequenceNumber

/-- The relay takes the next sub-dag and calls the gateway. -/
def relay (d : Deployment K D H) (s : Outage H) : Option (Outage H) :=
  if s.deliver.phase ≠ .idle then none
  else
    match handleEthereumBlock d.codec (fetchPayloads d.fetchPayload (d.subDag (s.handed + 1))) with
    | none => none
    | some none => some { s with handed := s.handed + 1 }
    | some (some request) => (s.deliver.send request).map fun deliver =>
      { s with handed := s.handed + 1, deliver }

/-- The gateway puts a request on its queue, which is closed without the notifier, and answers. -/
def deliverConsensusOutput (s : Outage H) (i : ℕ) : Option (Outage H) := do
  let (request, deliver) ← s.deliver.finish i
  if !s.notifying then some { s with deliver }
  else if Delivery.txCoSize ≤ s.txCo.length then none
  else some { s with deliver, txCo := s.txCo ++ [request] }

/-- The notifier takes a message and cannot connect to geth: it panics. -/
def connectError (s : Outage H) : Option (Outage H) :=
  match s.txCo with
  | [] => none
  | _ :: txCo =>
    if s.notifying ∧ s.notify.phase = .idle then some { s with txCo, notifying := false } else none

/-- The notifier takes a message and notifies geth. -/
def sendNotify (d : Deployment K D H) (s : Outage H) : Option (Outage H) :=
  match s.txCo with
  | [] => none
  | request :: txCo =>
    if s.notifying then do
      let event ← commitEvent d.codec request
      let notify ← s.notify.send event
      return { s with txCo, notify }
    else none

/-- Geth handles an event. -/
def handleNotify (d : Deployment K D H) (s : Outage H) (i : ℕ) : Option (Outage H) := do
  let (event, notify) ← s.notify.finish i
  let (_, adapter) ← s.adapter.notify d.codec.decodeHeader event
  if NarwhalAdapter.outcSize < adapter.outc.length then none
  else some { s with notify, adapter }

/-- The miner takes an output from the adapter's channel. -/
def waitForCommit (s : Outage H) : Option (Outage H) :=
  s.adapter.waitForCommit.map fun (output, adapter) =>
    { s with adapter, taken := s.taken ++ [output] }

def step (d : Deployment K D H) (s : Outage H) : OutageEvent → Option (Outage H)
  | .relay => s.relay d
  | .deliver i => s.deliverConsensusOutput i
  | .deliverResponse => s.deliver.respond.map fun deliver => { s with deliver }
  | .deliverError => s.deliver.fail.map fun deliver => { s with deliver }
  | .deliverDropped i => (s.deliver.drop i).map fun deliver => { s with deliver }
  | .connectError => s.connectError
  | .notify => s.sendNotify d
  | .notified i => s.handleNotify d i
  | .notifyResponse => s.notify.respond.map fun notify => { s with notify }
  | .notifyError => s.notify.fail.map fun notify => { s with notify }
  | .notifyDropped i => (s.notify.drop i).map fun notify => { s with notify }
  | .waitForCommit => s.waitForCommit

def machine (d : Deployment K D H) : Machine (Outage H) OutageEvent := ⟨start, step d⟩

/-- A call fails only after its request was handled, or when the notifier has ended. -/
def FailsHandled (s : Outage H) : OutageEvent → Prop
  | .deliverError => s.deliver.phase = .answered ∨ s.notifying = false
  | .notifyError => s.notify.phase = .answered
  | _ => True

instance decidableFailsHandled (s : Outage H) : ∀ e, Decidable (s.FailsHandled e)
  | .deliverError => inferInstanceAs (Decidable (_ ∨ _))
  | .notifyError => inferInstanceAs (Decidable (_ = _))
  | .relay | .deliver _ | .deliverResponse | .deliverDropped _ | .connectError | .notify
  | .notified _ | .notifyResponse | .notifyDropped _ | .waitForCommit => .isTrue trivial

end Outage

/-! ## What keeps the events in order -/

/-- Every sub-dag carries its index and survives serialization. -/
structure Deployment.Indexed (d : Deployment K D H) : Prop where
  index : ∀ i, (d.subDag i).subDagIndex = i
  serialized : ∀ i, d.codec.deserialize (d.codec.serialize (d.subDag i)) = some (d.subDag i)

namespace Outage

variable {d : Deployment K D H} {s s' : Outage H} {queue requests : List ℕ} {i : ℕ}
  {e : OutageEvent}

/-- The messages are those of the sub-dags with the given indices. -/
def Carries (d : Deployment K D H) (messages : List GatewayConsensusOutput) (indices : List ℕ) :
    Prop :=
  messages.map GatewayConsensusOutput.subDag = indices.map fun i => d.codec.serialize (d.subDag i)

/-- The sequence numbers on their way, in the order in which they were handed to the relay. -/
def order (s : Outage H) (queue requests : List ℕ) : List ℕ :=
  s.placedSeqs ++ (s.notify.pending.map NarwhalCommitEvent.narwhalSequenceNumber ++
    (queue ++ requests))

/-- While the notifier runs, nothing handed to the relay is lost or overtaken. -/
structure Flowing (d : Deployment K D H) (s : Outage H) (queue requests : List ℕ) : Prop where
  notifying : s.notifying = true
  notify : s.notify.Sequential
  deliver : s.deliver.Sequential
  queued : Carries d s.txCo queue
  requested : Carries d s.deliver.pending requests
  marked : ∀ n ∈ s.adapter.committedSeqs, n ∈ s.placedSeqs
  gapless : Gapless d.HasBatches (s.order queue requests)
  covers : Delivery.Covers d (s.order queue requests) (s.handed + 1)

/-- After the notifier has ended, nothing more reaches geth. -/
structure Ended (d : Deployment K D H) (s : Outage H) : Prop where
  notifying : s.notifying = false
  handling : s.notify.handling = []
  gapless : Gapless d.HasBatches s.placedSeqs

/-- What the miner takes stays among the outputs placed. -/
theorem waitForCommit_cases (hstep : s.waitForCommit = some s') :
    ∃ output outc, s.adapter.outc = output :: outc ∧
      s' = { s with adapter := { s.adapter with outc }, taken := s.taken ++ [output] } := by
  unfold Outage.waitForCommit NarwhalAdapter.waitForCommit at hstep
  split at hstep
  · cases hstep
  · rename_i output outc houtc
    cases hstep
    exact ⟨output, outc, houtc, rfl⟩

namespace Flowing

theorem start : Flowing d (start : Outage H) [] [] where
  notifying := rfl
  notify := .start
  deliver := .start
  queued := rfl
  requested := rfl
  marked := by simp [Outage.start, NarwhalAdapter.getNarwhalAdapter]
  gapless := .nil
  covers := by
    intro i hi hbatches
    have hzero : i < 1 := hi
    have hpos := hbatches.1
    omega

section

variable (h : Flowing d s queue requests)

include h

theorem placed_gapless : Gapless d.HasBatches s.placedSeqs :=
  h.gapless.of_append

theorem relay (hstep : s.relay d = some s') : ∃ requests', Flowing d s' queue requests' := by
  unfold Outage.relay at hstep
  split_ifs at hstep with hidle
  cases hhandle : handleEthereumBlock d.codec
      (fetchPayloads d.fetchPayload (d.subDag (s.handed + 1))) with
  | none =>
    rw [hhandle] at hstep
    cases hstep
  | some request =>
    rw [hhandle] at hstep
    rcases handleEthereumBlock_cases hhandle with ⟨rfl, hempty⟩ | ⟨message, rfl, hserialized, hpos⟩
    · cases hstep
      refine ⟨requests, { h with covers := ?_ }⟩
      exact h.covers.succ fun hbatches => absurd hempty (Nat.ne_of_gt hbatches.2)
    · obtain ⟨deliver, hsend, rfl⟩ := Option.map_eq_some_iff.mp hstep
      obtain ⟨hsequential, hbefore, hafter⟩ := h.deliver.send hsend
      have hrequests : requests = [] := by
        have hrequested := h.requested
        rw [Carries, hbefore] at hrequested
        exact List.map_eq_nil_iff.mp hrequested.symm
      subst hrequests
      have horder : ({ s with handed := s.handed + 1, deliver } : Outage H).order queue
          [s.handed + 1] = s.order queue [] ++ [s.handed + 1] := by
        simp [order, placedSeqs, placed]
      refine ⟨[s.handed + 1], { h with
        deliver := hsequential
        requested := ?_
        gapless := ?_
        covers := ?_ }⟩
      · rw [Carries, hafter]
        exact congrArg (fun bytes => [bytes]) hserialized
      · rw [horder]
        exact h.gapless.concat h.covers
      · rw [horder]
        exact (h.covers.mono (List.subset_append_left _ _)).succ fun _ => by simp

theorem deliverConsensusOutput (hstep : s.deliverConsensusOutput i = some s') :
    ∃ queue', Flowing d s' queue' [] := by
  obtain ⟨⟨request, deliver⟩, hfinish, hstep⟩ := Option.bind_eq_some_iff.mp hstep
  dsimp only at hstep
  rw [if_neg (by simp [h.notifying])] at hstep
  split_ifs at hstep
  cases hstep
  obtain ⟨hsequential, hbefore, hafter⟩ := h.deliver.finish hfinish
  have hrequested := h.requested
  rw [Carries, hbefore] at hrequested
  obtain ⟨j, rfl, hserialized⟩ : ∃ j, requests = [j] ∧
      d.codec.serialize (d.subDag j) = request.subDag :=
    List.map_eq_singleton_iff.mp hrequested.symm
  have horder : ({ s with deliver, txCo := s.txCo ++ [request] } : Outage H).order (queue ++ [j])
      [] = s.order queue [j] := by
    simp [order, placedSeqs, placed]
  refine ⟨queue ++ [j], { h with
    deliver := hsequential
    queued := ?_
    requested := ?_
    gapless := ?_
    covers := ?_ }⟩
  · have hqueued := h.queued
    unfold Carries at hqueued ⊢
    rw [List.map_append, List.map_append, hqueued, List.map_singleton, List.map_singleton,
      hserialized]
  · rw [Carries, hafter]
    rfl
  · rw [horder]
    exact h.gapless
  · rw [horder]
    exact h.covers

theorem deliver_congr {deliver : Rpc GatewayConsensusOutput}
    (hdeliver : deliver.Sequential ∧ deliver.pending = s.deliver.pending) :
    Flowing d { s with deliver } queue requests :=
  { h with
    deliver := hdeliver.1
    requested := by rw [Carries, hdeliver.2]; exact h.requested }

theorem notify_congr {notify : Rpc NarwhalCommitEvent}
    (hnotify : notify.Sequential ∧ notify.pending = s.notify.pending) :
    Flowing d { s with notify } queue requests := by
  have horder : ({ s with notify } : Outage H).order queue requests = s.order queue requests := by
    simp [order, placedSeqs, placed, hnotify.2]
  exact { h with
    notify := hnotify.1
    gapless := horder ▸ h.gapless
    covers := horder ▸ h.covers }

theorem connectError (hstep : s.connectError = some s') : Ended d s' := by
  unfold Outage.connectError at hstep
  split at hstep
  · cases hstep
  · split_ifs at hstep with hidle
    cases hstep
    refine ⟨rfl, ?_, h.placed_gapless⟩
    have hsequential := h.notify
    cases hs : s.notify with
    | mk phase handling =>
      rw [hs] at hsequential hidle
      cases hsequential with
      | quiet => rfl
      | waiting => cases hidle.2

end

theorem sendNotify (hd : d.Indexed) (h : Flowing d s queue requests)
    (hstep : s.sendNotify d = some s') : ∃ queue', Flowing d s' queue' requests := by
  unfold Outage.sendNotify at hstep
  split at hstep
  · cases hstep
  · rename_i request txCo htxCo
    rw [if_pos h.notifying] at hstep
    obtain ⟨event, hevent, hstep⟩ := Option.bind_eq_some_iff.mp hstep
    obtain ⟨notify, hsend, hstep⟩ := Option.bind_eq_some_iff.mp hstep
    cases hstep
    obtain ⟨hsequential, hbefore, hafter⟩ := h.notify.send hsend
    have hqueued := h.queued
    rw [Carries, htxCo] at hqueued
    cases queue with
    | nil => cases hqueued
    | cons j queue =>
      obtain ⟨hserialized, hrest⟩ := List.cons.inj hqueued
      have hseq : event.narwhalSequenceNumber = j := by
        unfold commitEvent at hevent
        rw [hserialized, hd.serialized] at hevent
        cases hevent
        exact hd.index j
      have horder : ({ s with txCo, notify } : Outage H).order queue requests =
          s.order (j :: queue) requests := by
        simp [order, placedSeqs, placed, hbefore, hafter, hseq]
      refine ⟨queue, { h with
        notify := hsequential
        queued := hrest
        gapless := ?_
        covers := ?_ }⟩
      · rw [horder]
        exact h.gapless
      · rw [horder]
        exact h.covers

theorem handleNotify (h : Flowing d s queue requests) (hstep : s.handleNotify d i = some s') :
    Flowing d s' queue requests := by
  obtain ⟨⟨event, notify⟩, hfinish, hstep⟩ := Option.bind_eq_some_iff.mp hstep
  obtain ⟨⟨resp, adapter⟩, hnotify, hstep⟩ := Option.bind_eq_some_iff.mp hstep
  dsimp only at hstep
  split_ifs at hstep
  cases hstep
  obtain ⟨hsequential, hbefore, hafter⟩ := h.notify.finish hfinish
  have horder : s.order queue requests =
      s.placedSeqs ++ event.narwhalSequenceNumber :: (queue ++ requests) := by
    simp [order, hbefore]
  have hgapless := h.gapless
  have hcovers := h.covers
  rw [horder] at hgapless hcovers
  rcases NarwhalAdapter.notify_cases hnotify with ⟨hseen, rfl⟩ | ⟨headers, hnew, -, rfl⟩
  · have hplaced := h.marked _ hseen
    have horder' : ({ s with notify } : Outage H).order queue requests =
        s.placedSeqs ++ (queue ++ requests) := by
      simp [order, placedSeqs, placed, hafter]
    refine { h with notify := hsequential, gapless := ?_, covers := ?_ }
    · rw [horder']
      exact hgapless.drop_mem hplaced
    · rw [horder']
      apply hcovers.mono
      apply List.append_subset.mpr
      refine ⟨List.subset_append_left _ _, List.cons_subset.mpr ⟨?_, List.subset_append_right _ _⟩⟩
      exact List.mem_append_left _ hplaced
  · refine { h with notify := hsequential, marked := ?_, gapless := ?_, covers := ?_ }
    · intro n hn
      rcases List.mem_cons.mp hn with rfl | hn
      · simp [placedSeqs, placed]
      · have hplaced := h.marked n hn
        simp only [placedSeqs, placed, List.map_append, List.mem_append] at hplaced ⊢
        tauto
    · simpa [order, placedSeqs, placed, hafter] using hgapless
    · simpa [order, placedSeqs, placed, hafter] using hcovers

theorem waitForCommit (h : Flowing d s queue requests) (hstep : s.waitForCommit = some s') :
    Flowing d s' queue requests := by
  obtain ⟨output, outc, houtc, rfl⟩ := waitForCommit_cases hstep
  have hseqs : ({ s with adapter := { s.adapter with outc }, taken := s.taken ++ [output] } :
      Outage H).placedSeqs = s.placedSeqs := by
    simp [placedSeqs, placed, houtc]
  refine { h with marked := ?_, gapless := ?_, covers := ?_ }
  · rw [hseqs]
    exact h.marked
  · unfold order
    rw [hseqs]
    exact h.gapless
  · unfold order
    rw [hseqs]
    exact h.covers

theorem step (hd : d.Indexed) (h : Flowing d s queue requests) (hfails : s.FailsHandled e)
    (hstep : s.step d e = some s') :
    (∃ queue' requests', Flowing d s' queue' requests') ∨ Ended d s' := by
  cases e with
  | relay =>
    obtain ⟨requests', h'⟩ := h.relay hstep
    exact .inl ⟨queue, requests', h'⟩
  | deliver i =>
    obtain ⟨queue', h'⟩ := h.deliverConsensusOutput hstep
    exact .inl ⟨queue', [], h'⟩
  | deliverResponse =>
    obtain ⟨deliver, hrespond, rfl⟩ := Option.map_eq_some_iff.mp hstep
    exact .inl ⟨queue, requests, h.deliver_congr (h.deliver.respond hrespond)⟩
  | deliverError =>
    obtain ⟨deliver, hfail, rfl⟩ := Option.map_eq_some_iff.mp hstep
    rcases hfails with hanswered | hended
    · exact .inl ⟨queue, requests, h.deliver_congr (h.deliver.fail hanswered hfail)⟩
    · rw [h.notifying] at hended
      cases hended
  | deliverDropped i =>
    obtain ⟨deliver, hdrop, -⟩ := Option.map_eq_some_iff.mp hstep
    rw [h.deliver.drop] at hdrop
    cases hdrop
  | connectError => exact .inr (h.connectError hstep)
  | notify =>
    obtain ⟨queue', h'⟩ := h.sendNotify hd hstep
    exact .inl ⟨queue', requests, h'⟩
  | notified i => exact .inl ⟨queue, requests, h.handleNotify hstep⟩
  | notifyResponse =>
    obtain ⟨notify, hrespond, rfl⟩ := Option.map_eq_some_iff.mp hstep
    exact .inl ⟨queue, requests, h.notify_congr (h.notify.respond hrespond)⟩
  | notifyError =>
    obtain ⟨notify, hfail, rfl⟩ := Option.map_eq_some_iff.mp hstep
    exact .inl ⟨queue, requests, h.notify_congr (h.notify.fail hfails hfail)⟩
  | notifyDropped i =>
    obtain ⟨notify, hdrop, -⟩ := Option.map_eq_some_iff.mp hstep
    rw [h.notify.drop] at hdrop
    cases hdrop
  | waitForCommit => exact .inl ⟨queue, requests, h.waitForCommit hstep⟩

end Flowing

theorem Ended.step (h : Ended d s) (hstep : s.step d e = some s') :
    Ended d s' := by
  obtain ⟨hnotifying, hhandling, hgapless⟩ := h
  cases e with
  | relay =>
    change s.relay d = some s' at hstep
    unfold Outage.relay at hstep
    split_ifs at hstep
    split at hstep
    · cases hstep
    · cases hstep
      exact ⟨hnotifying, hhandling, hgapless⟩
    · obtain ⟨deliver, -, rfl⟩ := Option.map_eq_some_iff.mp hstep
      exact ⟨hnotifying, hhandling, hgapless⟩
  | deliver i =>
    obtain ⟨⟨request, deliver⟩, -, hstep⟩ := Option.bind_eq_some_iff.mp hstep
    dsimp only at hstep
    rw [if_pos (by simp [hnotifying])] at hstep
    cases hstep
    exact ⟨hnotifying, hhandling, hgapless⟩
  | deliverResponse =>
    obtain ⟨deliver, -, rfl⟩ := Option.map_eq_some_iff.mp hstep
    exact ⟨hnotifying, hhandling, hgapless⟩
  | deliverError =>
    obtain ⟨deliver, -, rfl⟩ := Option.map_eq_some_iff.mp hstep
    exact ⟨hnotifying, hhandling, hgapless⟩
  | deliverDropped i =>
    obtain ⟨deliver, -, rfl⟩ := Option.map_eq_some_iff.mp hstep
    exact ⟨hnotifying, hhandling, hgapless⟩
  | connectError =>
    change s.connectError = some s' at hstep
    unfold Outage.connectError at hstep
    split at hstep
    · cases hstep
    · simp [hnotifying] at hstep
  | notify =>
    change s.sendNotify d = some s' at hstep
    unfold Outage.sendNotify at hstep
    split at hstep
    · cases hstep
    · simp [hnotifying] at hstep
  | notified i =>
    obtain ⟨⟨event, notify⟩, hfinish, -⟩ := Option.bind_eq_some_iff.mp hstep
    simp [Rpc.finish, hhandling] at hfinish
  | notifyResponse =>
    obtain ⟨notify, hrespond, rfl⟩ := Option.map_eq_some_iff.mp hstep
    unfold Rpc.respond at hrespond
    split_ifs at hrespond
    cases hrespond
    exact ⟨hnotifying, hhandling, hgapless⟩
  | notifyError =>
    obtain ⟨notify, hfail, rfl⟩ := Option.map_eq_some_iff.mp hstep
    unfold Rpc.fail at hfail
    split_ifs at hfail
    cases hfail
    exact ⟨hnotifying, by simp [hhandling], hgapless⟩
  | notifyDropped i =>
    obtain ⟨notify, hdrop, -⟩ := Option.map_eq_some_iff.mp hstep
    simp [Rpc.drop, hhandling] at hdrop
  | waitForCommit =>
    obtain ⟨output, outc, houtc, rfl⟩ := waitForCommit_cases hstep
    refine ⟨hnotifying, hhandling, ?_⟩
    simpa [placedSeqs, placed, houtc] using hgapless

/-- If a call fails only after its request was handled or after the notifier has ended, an output
comes to the adapter's channel after those of all earlier sub-dags with a batch. -/
theorem placed_without_gap (hd : d.Indexed) (h : (machine d).Reached FailsHandled s) :
    Gapless d.HasBatches s.placedSeqs := by
  have hinvariant : (∃ queue requests, Flowing d s queue requests) ∨ Ended d s := by
    refine Machine.Reached.invariant
      (I := fun s => (∃ queue requests, Flowing d s queue requests) ∨ Ended d s)
      (.inl ⟨[], [], Flowing.start⟩) ?_ h
    intro s e s' hs hfails hstep
    rcases hs with ⟨queue, requests, hs⟩ | hs
    · exact hs.step hd hfails hstep
    · exact .inr (hs.step hstep)
  rcases hinvariant with ⟨queue, requests, hs⟩ | hs
  · exact hs.placed_gapless
  · exact hs.gapless

/-- The responses of two calls are lost. -/
theorem placed_without_gap_sample :
    let s := (machine Delivery.Sample.deployment).after start
      [.relay, .deliver 0, .deliverError, .notify, .notified 0, .notifyError, .relay, .relay,
        .deliver 0, .deliverResponse, .notify, .notified 0, .notifyResponse, .relay]
    s.placedSeqs = [1, 3] ∧ Gapless Delivery.Sample.deployment.HasBatches s.placedSeqs := by
  intro s
  refine ⟨by decide +kernel, placed_without_gap ⟨Delivery.Sample.commits.index,
    fun i => (Delivery.Sample.commits.proposes i).serialized⟩ ?_⟩
  exact Machine.Reached.start.after (m := machine Delivery.Sample.deployment) (by decide +kernel)

/-- The call for the first sub-dag fails and the relay goes on. Geth gets the third sub-dag only. -/
theorem failed_call_loses_event :
    let s := (machine Delivery.Sample.deployment).after start
      [.relay, .deliverError, .deliverDropped 0, .relay, .relay, .deliver 0, .deliverResponse,
        .notify, .notified 0]
    (machine Delivery.Sample.deployment).Reached (fun _ _ => True) s ∧ s.placedSeqs = [3] ∧
      ¬ Gapless Delivery.Sample.deployment.HasBatches s.placedSeqs := by
  intro s
  have hplaced : s.placedSeqs = [3] := by decide +kernel
  refine ⟨Machine.Reached.start.after (by decide +kernel), hplaced, fun h => ?_⟩
  have hfirst : Delivery.Sample.deployment.HasBatches 1 := by
    constructor <;> decide +kernel
  rw [hplaced] at h
  exact absurd (h [] 3 [] rfl 1 (by decide) hfirst) List.not_mem_nil

end Outage

end Gateway

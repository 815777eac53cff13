import NarwhalGeth.Gateway.Delivery

/-!
# Every sub-dag reaches geth

While Narwhal does not restart, the pipeline cannot stop short of a sub-dag unless the miner lets
the adapter's channel run full: every step but a restart uses up some of the work that is left, and
when only the miner could take a step, the gateway's queue is empty and the relay waits for the
executor.
-/

namespace Gateway.Delivery

open Narwhal
open Geth (NarwhalAdapter)

variable {K D H : Type} {d : Deployment K D H} {proposals : D → ℕ → List Proposal}
  {header : Proposal → Geth.Header H} {s s' : Delivery H} {n i : ℕ} {e : DeliveryEvent}
  {queue : List ℕ}

instance : DecidablePred d.HasBatches := fun _ => inferInstanceAs (Decidable (_ ∧ _))

/-- However often Narwhal restarts, geth has received the sub-dags with batches below some index,
all of them, once and in order. -/
theorem placed_eq_subDags (hd : d.Commits proposals header)
    (h : (machine d).Reached (fun _ _ => True) s) :
    ∃ n, s.placed = ((List.range n).filter fun i => d.HasBatches i).map
      fun i => commitOutput proposals header (d.subDag i) := by
  obtain ⟨queue, hordered⟩ := Ordered.of_reached hd h
  obtain ⟨n, hn⟩ := hordered.gapless.of_append.exists_eq_filter_range
    (List.nodup_reverse.mpr hordered.nodup)
    fun i hi => hordered.hasBatches i (List.mem_append_left _ hi)
  exact ⟨n, by rw [hordered.placed, hn]⟩

theorem placed_eq_subDags_restart :
    Sample.restarted.placed.length = 2 ∧
    ∃ n, Sample.restarted.placed =
      ((List.range n).filter fun i => Sample.deployment.HasBatches i).map
        fun i => commitOutput Sample.batch Sample.proposed (Sample.deployment.subDag i) :=
  ⟨by decide +kernel, placed_eq_subDags Sample.commits
    (Machine.Reached.start.after (m := machine Sample.deployment) (by decide +kernel))⟩

/-! ## The work that is left -/

/-- Narwhal does not restart, and hands no sub-dag after the given one to its relay. -/
def Onward (n : ℕ) (s : Delivery H) (e : DeliveryEvent) : Prop :=
  e ≠ .restart ∧ (e = .relay → s.handed < n)

instance (s : Delivery H) (e : DeliveryEvent) : Decidable (Onward n s e) :=
  inferInstanceAs (Decidable (_ ∧ _))

theorem Onward.of_ne (hrestart : e ≠ .restart) (hrelay : e ≠ .relay) :
    Onward n s e :=
  ⟨hrestart, fun heq => absurd heq hrelay⟩

def Call.work : Call → ℕ
  | .idle => 0
  | .answered => 1
  | .sent => 2

/-- A bound for the steps until the sub-dags up to the given one have reached geth. -/
def work (n : ℕ) (s : Delivery H) : ℕ :=
  6 * (n - s.handed) + Call.work s.call + 3 * s.requests.length + 2 * s.txCo.length +
    s.adapter.outc.length

/-- The gateway is handling the request that the relay waits for. -/
def Awaits (s : Delivery H) : Prop := s.call = .sent → s.lifetime ∈ s.requests.map Prod.fst

theorem length_eraseIdx_requests {request : ℕ × GatewayConsensusOutput}
    (hget : s.requests[i]? = some request) :
    (s.requests.eraseIdx i).length + 1 = s.requests.length := by
  obtain ⟨hlt, -⟩ := List.getElem?_eq_some_iff.mp hget
  rw [List.length_eraseIdx_of_lt hlt]
  omega

theorem Awaits.eraseIdx (h : s.Awaits) (hsent : s.call = .sent) {lifetime : ℕ}
    {request : GatewayConsensusOutput} (hget : s.requests[i]? = some (lifetime, request))
    (hne : lifetime ≠ s.lifetime) : s.lifetime ∈ (s.requests.eraseIdx i).map Prod.fst := by
  obtain ⟨other, hmem, hother⟩ := List.mem_map.mp (h hsent)
  obtain ⟨hlt, heq⟩ := List.getElem?_eq_some_iff.mp hget
  rcases List.mem_cons.mp ((List.getElem_cons_eraseIdx_perm hlt).mem_iff.mpr hmem) with rfl | hmem
  · rw [heq] at hother
    exact absurd hother hne
  · exact List.mem_map.mpr ⟨other, hmem, hother⟩

theorem Awaits.relay (hstep : s.relay d = some s') (hn : s.handed < n) :
    s'.Awaits ∧ s'.work n < s.work n := by
  unfold Delivery.relay at hstep
  split_ifs at hstep with hcall
  have hidle : s.call = .idle := not_not.mp hcall
  split at hstep
  · cases hstep
  · cases hstep
    refine ⟨fun hsent => ?_, ?_⟩
    · rw [hidle] at hsent
      cases hsent
    · unfold work
      dsimp only
      omega
  · cases hstep
    refine ⟨fun _ => by simp, ?_⟩
    simp only [work, hidle, Call.work, List.length_append, List.length_singleton]
    omega

theorem Awaits.deliver (h : s.Awaits) (hordered : Ordered d proposals header s queue)
    (hstep : s.deliverConsensusOutput i = some s') :
    s'.Awaits ∧ s'.work n < s.work n := by
  unfold deliverConsensusOutput at hstep
  split at hstep
  case h_1 => cases hstep
  rename_i lifetime request hget
  have hlength := length_eraseIdx_requests hget
  split_ifs at hstep with hfull hnow
  · -- the relay waits for a request of the present lifetime
    cases hstep
    obtain ⟨j, hj⟩ := hordered.requests _ (List.mem_of_getElem? hget)
    refine ⟨fun hsent => (by cases hsent), ?_⟩
    simp only [work, (hj.awaited hnow).1, Call.work, List.length_append, List.length_singleton]
    omega
  · cases hstep
    refine ⟨fun hsent => h.eraseIdx hsent hget hnow, ?_⟩
    simp only [work, List.length_append, List.length_singleton]
    omega

theorem Awaits.respond (hstep : s.respond = some s') : s'.Awaits ∧ s'.work n < s.work n := by
  unfold Delivery.respond at hstep
  split_ifs at hstep with hanswered
  cases hstep
  refine ⟨fun hsent => (by cases hsent), ?_⟩
  simp only [work, hanswered, Call.work]
  omega

theorem Awaits.cancel (h : s.Awaits) (hstep : s.cancel i = some s') :
    s'.Awaits ∧ s'.work n < s.work n := by
  unfold Delivery.cancel at hstep
  split at hstep
  case h_1 => cases hstep
  rename_i lifetime request hget
  split_ifs at hstep with hnow
  cases hstep
  have hlength := length_eraseIdx_requests hget
  refine ⟨fun hsent => h.eraseIdx hsent hget hnow, ?_⟩
  unfold work
  dsimp only
  omega

theorem Awaits.notify (h : s.Awaits) (hstep : s.notify d = some s') :
    s'.Awaits ∧ s'.work n < s.work n := by
  unfold Delivery.notify at hstep
  split at hstep
  case h_1 => cases hstep
  rename_i request txCo htxCo
  obtain ⟨event, hevent, hstep⟩ := Option.bind_eq_some_iff.mp hstep
  obtain ⟨⟨resp, adapter⟩, hnotify, hstep⟩ := Option.bind_eq_some_iff.mp hstep
  dsimp only at hstep
  split_ifs at hstep
  cases hstep
  have hlength : adapter.outc.length ≤ s.adapter.outc.length + 1 := by
    rcases NarwhalAdapter.notify_cases hnotify with ⟨-, rfl⟩ | ⟨headers, -, -, rfl⟩
    · exact Nat.le_succ _
    · simp
  refine ⟨h, ?_⟩
  simp only [work, htxCo, List.length_cons]
  omega

theorem Awaits.waitForCommit (h : s.Awaits) (hstep : s.waitForCommit = some s') :
    s'.Awaits ∧ s'.work n < s.work n := by
  unfold Delivery.waitForCommit NarwhalAdapter.waitForCommit at hstep
  split at hstep
  · cases hstep
  · rename_i output outc houtc
    cases hstep
    refine ⟨h, ?_⟩
    simp only [work, houtc, List.length_cons]
    omega

/-- Every step but a restart does some of the work. -/
theorem Awaits.step (h : s.Awaits) (hordered : Ordered d proposals header s queue)
    (honward : Onward n s e) (hstep : s.step d e = some s') :
    s'.Awaits ∧ s'.work n < s.work n := by
  cases e with
  | relay => exact Awaits.relay hstep (honward.2 rfl)
  | deliver i => exact h.deliver hordered hstep
  | respond => exact Awaits.respond hstep
  | cancel i => exact h.cancel hstep
  | restart => exact absurd rfl honward.1
  | notify => exact h.notify hstep
  | waitForCommit => exact h.waitForCommit hstep

theorem Awaits.of_reached (hd : d.Commits proposals header)
    {guard : Delivery H → DeliveryEvent → Prop} (h : (machine d).Reached guard s) : s.Awaits := by
  induction h with
  | start => exact fun hsent => by cases hsent
  | @next s s' e rest _ eq ih =>
    obtain ⟨queue, hordered⟩ := Ordered.of_reached hd rest
    by_cases hrestart : e = .restart
    · subst hrestart
      cases eq
      exact fun hsent => by cases hsent
    · exact (ih.step hordered (n := s.handed + 1) ⟨hrestart, fun _ => Nat.lt_succ_self _⟩ eq).1

/-! ## When no step is left -/

/-- No step is possible without the miner, a restart or a later sub-dag. -/
def Halted (d : Deployment K D H) (n : ℕ) (s : Delivery H) : Prop :=
  ∀ e, e ≠ .waitForCommit → Onward n s e → s.step d e = none

theorem Halted.isNone (h : Halted d n s) (he : e ≠ .waitForCommit) (honward : Onward n s e) :
    ¬ (s.step d e).isSome := by
  rw [h e he honward]
  exact Bool.false_ne_true

theorem Halted.txCo_eq_nil (h : Halted d n s) (hd : d.Commits proposals header)
    (hreached : (machine d).Reached (fun _ _ => True) s)
    (hroom : s.adapter.outc.length < NarwhalAdapter.outcSize) : s.txCo = [] := by
  by_contra htxCo
  exact h.isNone (e := .notify) (by decide) (.of_ne (by decide) (by decide))
    (notify_isSome hd hreached htxCo hroom)

theorem Halted.requests_eq_nil (h : Halted d n s) (htxCo : s.txCo = []) : s.requests = [] := by
  have hdeliver : s.deliverConsensusOutput 0 = none :=
    h (.deliver 0) (by decide) (.of_ne (by decide) (by decide))
  unfold deliverConsensusOutput at hdeliver
  cases hrequests : s.requests with
  | nil => rfl
  | cons request requests => simp [hrequests, htxCo, txCoSize] at hdeliver

theorem Halted.idle (h : Halted d n s) (hrequests : s.requests = []) (hawaits : s.Awaits) :
    s.call = .idle := by
  have hrespond : s.respond = none := h .respond (by decide) (.of_ne (by decide) (by decide))
  cases hcall : s.call with
  | idle => rfl
  | sent =>
    have hmem := hawaits hcall
    rw [hrequests] at hmem
    cases hmem
  | answered => simp [respond, hcall] at hrespond

theorem Halted.placed (h : Halted d n s) (hd : d.Commits proposals header)
    (hreached : (machine d).Reached (fun _ _ => True) s) (hn : d.HasBatches n)
    (hroom : s.adapter.outc.length < NarwhalAdapter.outcSize) :
    commitOutput proposals header (d.subDag n) ∈ s.placed := by
  obtain ⟨queue, hordered⟩ := Ordered.of_reached hd hreached
  have htxCo := h.txCo_eq_nil hd hreached hroom
  have hidle := h.idle (h.requests_eq_nil htxCo) (Awaits.of_reached hd hreached)
  have hhanded : n ≤ s.handed := by
    by_contra hlt
    exact h.isNone (e := .relay) (by decide) ⟨by decide, fun _ => not_le.mp hlt⟩
      (relay_isSome hd hidle)
  obtain rfl : queue = [] := List.map_eq_nil_iff.mp (hordered.txCo.symm.trans htxCo)
  have hcovers := hordered.covers
  rw [relayed, hidle, if_neg (by decide), List.append_nil] at hcovers
  rw [hordered.placed]
  exact List.mem_map_of_mem (hcovers n (Nat.lt_succ_of_le hhanded) hn)

/-- From every state of the pipeline, a run without another restart takes a bounded number of steps
up to a given sub-dag, in any order of the processes. If it cannot go on without the miner, geth has
received the sub-dag or its adapter's channel is full. -/
theorem delivers (hd : d.Commits proposals header) (h : (machine d).Reached (fun _ _ => True) s)
    (hn : d.HasBatches n) {events : List DeliveryEvent}
    (hruns : (machine d).Runs (Onward n) s events) :
    events.length ≤ s.work n ∧
      (Halted d n ((machine d).after s events) →
        ((machine d).after s events).adapter.outc.length < NarwhalAdapter.outcSize →
        commitOutput proposals header (d.subDag n) ∈ ((machine d).after s events).placed) := by
  have hnext (s : Delivery H) (e : DeliveryEvent) (s' : Delivery H)
      (hreached : (machine d).Reached (fun _ _ => True) s) (honward : Onward n s e)
      (hstep : s.step d e = some s') :
      (machine d).Reached (fun _ _ => True) s' ∧ s'.work n < s.work n := by
    obtain ⟨queue, hordered⟩ := Ordered.of_reached hd hreached
    exact ⟨hreached.next trivial hstep,
      ((Awaits.of_reached hd hreached).step hordered honward hstep).2⟩
  obtain ⟨hafter, hlength⟩ := hruns.length_add_le hnext h
  exact ⟨(Nat.le_add_right _ _).trans hlength, fun hhalted hroom =>
    hhalted.placed hd hafter hn hroom⟩

/-- Narwhal restarts while the message of the first sub-dag is under way. -/
def Sample.interrupted : Delivery ℕ :=
  (machine deployment).after start [.relay, .restart]

/-- The message is relayed a second time; both copies pass the gateway. -/
def Sample.handingOn : List DeliveryEvent :=
  [.relay, .deliver 1, .deliver 0, .notify, .respond, .notify]

theorem delivers_interrupted :
    let s := (machine Sample.deployment).after Sample.interrupted Sample.handingOn
    Halted Sample.deployment 1 s ∧ Sample.interrupted.work 1 = 9 ∧
      commitOutput Sample.batch Sample.proposed (Sample.deployment.subDag 1) ∈ s.placed := by
  intro s
  have hrequests : s.requests.length = 0 := by decide +kernel
  have hhalted : Halted Sample.deployment 1 s := by
    intro e he honward
    cases e with
    | relay => exact absurd (honward.2 rfl) (by decide +kernel)
    | deliver i =>
      simp [step, deliverConsensusOutput, List.eq_nil_of_length_eq_zero hrequests]
    | cancel i => simp [step, Delivery.cancel, List.eq_nil_of_length_eq_zero hrequests]
    | restart => exact absurd rfl honward.1
    | respond | notify => rfl
    | waitForCommit => exact absurd rfl he
  exact ⟨hhalted, by decide +kernel, (delivers Sample.commits
    (Machine.Reached.start.after (m := machine Sample.deployment) (by decide +kernel))
    (by decide +kernel) (by decide +kernel)).2 hhalted (by decide +kernel)⟩

end Gateway.Delivery

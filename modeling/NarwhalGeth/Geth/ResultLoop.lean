import NarwhalGeth.Geth.Worker

/-!
# What the result loop writes

The adapter pairs submitted blocks with commit events by their position in two queues, and accepts a
block by its number. So two nodes may write different blocks of one height, and a node may be handed
an event without its block or write two of its own blocks of one height.
-/

namespace Geth

namespace Worker

variable {H : Type} {rest : List (NarwhalOutput H)} {output : NarwhalOutput H}
  {req : NarwhalCommitEvent} {answer : GatewayAnswer} {e : WorkerEvent H} {block : Block H}
  {stored : Bool}

/-! ## Two nodes and one event -/

/-- The result loop accepts its block against the next event, and hands it to the chain. -/
def Writes (w : Worker H) (block : Block H) : Prop :=
  ∃ next, w.commit = some next ∧
    ∀ stored, ∃ final, next.write stored = some final ∧ final.written = w.written ++ [block]

/-- The header of the block is the first of its height in the event. -/
def Decides (engine : Engine H) (output : NarwhalOutput H) (block : Block H) : Prop :=
  ∃ before header after, output.headers = before ++ header :: after ∧
    engine.hashHeader header = engine.hash block ∧ ∀ x ∈ before, x.number ≠ block.number

theorem writes_iff {w : Worker H} (hphase : w.phase = .waiting block)
    (houtc : w.adapter.outc = output :: rest) :
    w.Writes block ↔ ∃ header ∈ output.headers, header.number = block.number := by
  unfold Writes commit
  rw [hphase]
  dsimp only
  rw [NarwhalAdapter.waitForCommit, houtc]
  dsimp only
  cases hrebuild : NarwhalAdapter.rebuildHeaderWithNarwhalSig block output with
  | ok block' =>
    obtain ⟨rfl, hheader⟩ := NarwhalAdapter.rebuildHeaderWithNarwhalSig_eq_ok.mp hrebuild
    exact ⟨fun _ => hheader, fun _ => ⟨_, rfl, fun stored => ⟨_, rfl, rfl⟩⟩⟩
  | error e =>
    have hnone := NarwhalAdapter.rebuildHeaderWithNarwhalSig_eq_error hrebuild
    constructor
    · rintro ⟨next, hnext, hwrite⟩
      cases hnext
      obtain ⟨final, hfinal, -⟩ := hwrite true
      cases hfinal
    · rintro ⟨header, hmem, hnumber⟩
      exact absurd hnumber (hnone header hmem)

/-- Two nodes that wait with blocks of one height for the same event never write both blocks, and
none that the event does not decide for, exactly if the event has no header of that height. -/
theorem writes_decided_iff (engine : Engine H) {w₁ w₂ : Worker H} {b₁ b₂ : Block H}
    {output : NarwhalOutput H} {rest₁ rest₂ : List (NarwhalOutput H)}
    (hphase₁ : w₁.phase = .waiting b₁) (hphase₂ : w₂.phase = .waiting b₂)
    (houtc₁ : w₁.adapter.outc = output :: rest₁) (houtc₂ : w₂.adapter.outc = output :: rest₂)
    (hheight : b₁.number = b₂.number) :
    (¬(w₁.Writes b₁ ∧ w₂.Writes b₂) ∧ (w₁.Writes b₁ → Decides engine output b₁) ∧
        (w₂.Writes b₂ → Decides engine output b₂)) ↔
      ∀ header ∈ output.headers, header.number ≠ b₁.number := by
  have h₁ := writes_iff hphase₁ houtc₁
  have h₂ := writes_iff hphase₂ houtc₂
  rw [← hheight] at h₂
  constructor
  · rintro ⟨hexclusive, -⟩ header hmem hnumber
    exact hexclusive ⟨h₁.mpr ⟨header, hmem, hnumber⟩, h₂.mpr ⟨header, hmem, hnumber⟩⟩
  · intro hnone
    have hwrites₁ : ¬w₁.Writes b₁ := fun h => by
      obtain ⟨header, hmem, hnumber⟩ := h₁.mp h
      exact hnone header hmem hnumber
    have hwrites₂ : ¬w₂.Writes b₂ := fun h => by
      obtain ⟨header, hmem, hnumber⟩ := h₂.mp h
      exact hnone header hmem hnumber
    exact ⟨fun h => hwrites₁ h.1, fun h => absurd h hwrites₁, fun h => absurd h hwrites₂⟩

/-- Two nodes have submitted blocks of height one, and the event has a header of height two only. -/
theorem writes_decided_iff_other_height :
    let w₁ := Sample.node (Sample.sealTask 1 1 ++ Sample.submit ++ [.notify ⟨1, [[2, 3]]⟩])
    let w₂ := Sample.node (Sample.sealTask 1 2 ++ Sample.submit ++ [.notify ⟨1, [[2, 3]]⟩])
    let b₁ := Sample.sealedBlock 1 1
    let b₂ := Sample.sealedBlock 1 2
    let output : NarwhalOutput ℕ := ⟨[(Sample.sealedBlock 2 3).header], ⟨1, [[2, 3]]⟩⟩
    ¬(w₁.Writes b₁ ∧ w₂.Writes b₂) ∧ (w₁.Writes b₁ → Decides Sample.engine output b₁) ∧
      (w₂.Writes b₂ → Decides Sample.engine output b₂) := by
  intro w₁ w₂ b₁ b₂ output
  have hphase₁ : w₁.phase = .waiting b₁ := by decide +kernel
  have hphase₂ : w₂.phase = .waiting b₂ := by decide +kernel
  have houtc₁ : w₁.adapter.outc = [output] := by decide +kernel
  have houtc₂ : w₂.adapter.outc = [output] := by decide +kernel
  exact (writes_decided_iff Sample.engine hphase₁ hphase₂ houtc₁ houtc₂ rfl).mpr (by decide +kernel)

/-- Two nodes have submitted different blocks of height one. The event has the header of the second
only, and both write their own. -/
theorem both_write_own_block :
    let w₁ := Sample.node (Sample.sealTask 1 1 ++ Sample.submit ++ [.notify ⟨1, [[1, 2]]⟩])
    let w₂ := Sample.node (Sample.sealTask 1 2 ++ Sample.submit ++ [.notify ⟨1, [[1, 2]]⟩])
    let b₁ := Sample.sealedBlock 1 1
    let b₂ := Sample.sealedBlock 1 2
    let output : NarwhalOutput ℕ := ⟨[b₂.header], ⟨1, [[1, 2]]⟩⟩
    (Machine.Reached (machine Sample.engine Sample.decode) (fun _ _ => True) w₁ ∧
        Machine.Reached (machine Sample.engine Sample.decode) (fun _ _ => True) w₂) ∧
      (b₁.number = b₂.number ∧ Sample.engine.hash b₁ ≠ Sample.engine.hash b₂) ∧
      (w₁.submitted = [b₁] ∧ w₂.submitted = [b₂]) ∧
      (w₁.adapter.outc = [output] ∧ w₂.adapter.outc = [output]) ∧
      (w₁.Writes b₁ ∧ w₂.Writes b₂) ∧ ¬Decides Sample.engine output b₁ := by
  intro w₁ w₂ b₁ b₂ output
  have hphase₁ : w₁.phase = .waiting b₁ := by decide +kernel
  have hphase₂ : w₂.phase = .waiting b₂ := by decide +kernel
  have houtc₁ : w₁.adapter.outc = [output] := by decide +kernel
  have houtc₂ : w₂.adapter.outc = [output] := by decide +kernel
  refine ⟨⟨Machine.Reached.start.after (by decide +kernel),
    Machine.Reached.start.after (by decide +kernel)⟩, by decide +kernel, by decide +kernel,
    ⟨houtc₁, houtc₂⟩, ⟨(writes_iff hphase₁ houtc₁).mpr (by decide +kernel),
      (writes_iff hphase₂ houtc₂).mpr (by decide +kernel)⟩, ?_⟩
  rintro ⟨before, header, after, hheaders, hhash, -⟩
  have hmem : header ∈ output.headers := by
    rw [hheaders]
    simp
  rw [List.mem_singleton.mp hmem] at hhash
  exact absurd hhash (by decide +kernel)

/-! ## Blocks and events are paired by position -/

/-- The `k`-th event queued by the adapter has the header of the `k`-th block submitted, checked
when the later of the two happens. -/
def Paired (decode : Bytes → Option (Header H)) (w : Worker H) : WorkerEvent H → Prop
  | .broadcast answer => (w.adapter.broadcast answer).1.isOk →
    ∀ block ∈ w.phase.submitting, ∀ output ∈ w.notified[w.submitted.length]?,
      block.header ∈ output.headers
  | .notify req => req.narwhalSequenceNumber ∉ w.adapter.committedSeqs →
    ∀ headers ∈ req.ethBlockDigest.mapM decode, ∀ block ∈ w.submitted[w.notified.length]?,
      block.header ∈ headers
  | _ => True

/-- The submitted blocks are those answered and the one awaited, the queued events those taken and
those in the queue; and blocks and events match by position. -/
structure Fifo (w : Worker H) : Prop where
  split : ∃ (blocks : List (Block H)) (outputs : List (NarwhalOutput H)),
    blocks.length = outputs.length ∧ w.submitted = blocks ++ w.phase.awaited ∧
      w.notified = outputs ++ w.adapter.outc
  matched : ∀ (k : ℕ) (block : Block H) (output : NarwhalOutput H), w.submitted[k]? = some block →
    w.notified[k]? = some output → block.header ∈ output.headers
  running : w.phase ≠ .panicked

namespace Fifo

variable {w w' : Worker H} {decode : Bytes → Option (Header H)}

section

variable (h : Fifo w)

include h

theorem mem_headers (hphase : w.phase = .waiting block) (houtc : w.adapter.outc = output :: rest) :
    block.header ∈ output.headers := by
  obtain ⟨blocks, outputs, hlength, hsubmitted, hnotified⟩ := h.split
  apply h.matched blocks.length
  · rw [hsubmitted, hphase]
    simp [Phase.awaited]
  · rw [hnotified, houtc, hlength]
    simp

theorem rebuild_ok (hphase : w.phase = .waiting block) (houtc : w.adapter.outc = output :: rest) :
    NarwhalAdapter.rebuildHeaderWithNarwhalSig block output = .ok block := by
  rw [NarwhalAdapter.rebuildHeaderWithNarwhalSig_eq_ok]
  exact ⟨rfl, block.header, h.mem_headers hphase houtc, rfl⟩

theorem broadcast (hpaired : w.Paired decode (.broadcast answer))
    (hstep : w.broadcast answer = some w') : Fifo w' := by
  obtain ⟨blocks, outputs, hlength, hsubmitted, hnotified⟩ := h.split
  have houtc := w.adapter.broadcast_outc answer
  unfold Worker.broadcast at hstep
  split at hstep
  case h_2 => cases hstep
  rename_i block hphase
  rw [hphase, Phase.awaited, List.append_nil] at hsubmitted
  split at hstep <;> rename_i adapter hanswer <;> rw [hanswer] at houtc <;> cases hstep
  · refine ⟨⟨blocks, outputs, hlength, ?_, ?_⟩, ?_, nofun⟩
    · rw [hsubmitted, Phase.awaited]
    · rw [hnotified, ← houtc]
    · intro k x output hx houtput
      rcases Nat.lt_or_ge k w.submitted.length with hk | hk
      · rw [List.getElem?_append_left hk] at hx
        exact h.matched k x output hx houtput
      · rw [List.getElem?_append_right hk, List.getElem?_singleton] at hx
        split_ifs at hx with hzero
        have heq : k = w.submitted.length := by omega
        rw [← Option.some.inj hx]
        rw [heq] at houtput
        exact hpaired (by rw [hanswer]; rfl) block (by rw [hphase]; rfl) output houtput
  · refine ⟨⟨blocks, outputs, hlength, ?_, ?_⟩, h.matched, nofun⟩
    · rw [hsubmitted, Phase.awaited, List.append_nil]
    · rw [hnotified, ← houtc]

theorem commit (hstep : w.commit = some w') : Fifo w' := by
  obtain ⟨blocks, outputs, hlength, hsubmitted, hnotified⟩ := h.split
  unfold Worker.commit at hstep
  split at hstep
  case h_2 => cases hstep
  rename_i block hphase
  cases houtc : w.adapter.outc with
  | nil =>
    rw [NarwhalAdapter.waitForCommit, houtc] at hstep
    cases hstep
  | cons output rest =>
    rw [NarwhalAdapter.waitForCommit, houtc] at hstep
    dsimp only at hstep
    rw [h.rebuild_ok hphase houtc] at hstep
    cases hstep
    refine ⟨⟨blocks ++ [block], outputs ++ [output], by simp [hlength], ?_, ?_⟩, h.matched, nofun⟩
    · rw [hsubmitted, hphase]
      simp [Phase.awaited]
    · rw [hnotified, houtc]
      simp

theorem notify (hpaired : w.Paired decode (.notify req)) (hstep : w.notify decode req = some w') :
    Fifo w' := by
  obtain ⟨blocks, outputs, hlength, hsubmitted, hnotified⟩ := h.split
  unfold Worker.notify at hstep
  split_ifs at hstep
  obtain ⟨⟨resp, adapter⟩, hnotify, rfl⟩ := Option.map_eq_some_iff.mp hstep
  rcases NarwhalAdapter.notify_cases hnotify with ⟨-, rfl⟩ | ⟨headers, hfresh, hdecode, rfl⟩
  · refine ⟨⟨blocks, outputs, hlength, hsubmitted, ?_⟩, ?_, h.running⟩
    · simp [hnotified]
    · simpa using h.matched
  · simp only [List.drop_left]
    refine ⟨⟨blocks, outputs, hlength, hsubmitted, ?_⟩, ?_, h.running⟩
    · simp [hnotified]
    · intro k block output hblock houtput
      rcases Nat.lt_or_ge k w.notified.length with hk | hk
      · rw [List.getElem?_append_left hk] at houtput
        exact h.matched k block output hblock houtput
      · rw [List.getElem?_append_right hk, List.getElem?_singleton] at houtput
        split_ifs at houtput with hzero
        have heq : k = w.notified.length := by omega
        rw [heq] at hblock
        rw [← Option.some.inj houtput]
        exact hpaired hfresh headers hdecode block hblock

theorem frame (hframe : Frame w w') : Fifo w' := by
  obtain ⟨-, hphase, hadapter, -, hsubmitted, hnotified, -⟩ := hframe
  constructor
  · rw [hphase, hadapter, hsubmitted, hnotified]
    exact h.split
  · rw [hsubmitted, hnotified]
    exact h.matched
  · rw [hphase]
    exact h.running

theorem sendResult {i : ℕ} (hstep : w.sendResult i = some w') : Fifo w' := by
  unfold Worker.sendResult at hstep
  split at hstep
  · cases hstep
  · dsimp only at hstep
    split_ifs at hstep <;> cases hstep <;> exact ⟨h.split, h.matched, h.running⟩

theorem write (hstep : w.write stored = some w') : Fifo w' := by
  unfold Worker.write at hstep
  split at hstep <;> cases hstep
  rename_i block hphase
  obtain ⟨blocks, outputs, hlength, hsubmitted, hnotified⟩ := h.split
  rw [hphase] at hsubmitted
  exact ⟨⟨blocks, outputs, hlength, hsubmitted, hnotified⟩, h.matched, nofun⟩

end

variable [DecidableEq H] {engine : Engine H}

theorem takeResult (h : Fifo w) (hstep : w.takeResult engine = some w') : Fifo w' := by
  unfold Worker.takeResult at hstep
  split at hstep
  case h_2 => cases hstep
  rename_i block rest hphase hqueue
  dsimp only at hstep
  split_ifs at hstep
  · cases hstep
    exact ⟨h.split, h.matched, h.running⟩
  · obtain ⟨blocks, outputs, hlength, hsubmitted, hnotified⟩ := h.split
    rw [hphase] at hsubmitted
    split at hstep <;> cases hstep
    · exact ⟨h.split, h.matched, h.running⟩
    · exact ⟨⟨blocks, outputs, hlength, hsubmitted, hnotified⟩, h.matched, nofun⟩

theorem step (h : Fifo w) (hpaired : w.Paired decode e) (hstep : w.step engine decode e = some w') :
    Fifo w' := by
  cases e with
  | task block =>
    cases hstep
    exact h.frame (taskLoop_frame engine w block)
  | sealed i => exact h.sendResult hstep
  | stopped i => exact h.frame (stopSealing_frame hstep)
  | newHead number =>
    cases hstep
    exact ⟨h.split, h.matched, h.running⟩
  | imported block =>
    cases hstep
    exact ⟨h.split, h.matched, h.running⟩
  | takeResult => exact h.takeResult hstep
  | broadcast answer => exact h.broadcast hpaired hstep
  | commit => exact h.commit hstep
  | write stored => exact h.write hstep
  | notify req => exact h.notify hpaired hstep

end Fifo

variable [DecidableEq H]

instance decidablePaired (decode : Bytes → Option (Header H)) (w : Worker H) :
    ∀ e, Decidable (w.Paired decode e)
  | .broadcast answer => inferInstanceAs (Decidable ((w.adapter.broadcast answer).1.isOk →
      ∀ block ∈ w.phase.submitting, ∀ output ∈ w.notified[w.submitted.length]?,
        block.header ∈ output.headers))
  | .notify req => inferInstanceAs (Decidable (req.narwhalSequenceNumber ∉ w.adapter.committedSeqs →
      ∀ headers ∈ req.ethBlockDigest.mapM decode, ∀ block ∈ w.submitted[w.notified.length]?,
        block.header ∈ headers))
  | .task _ | .sealed _ | .stopped _ | .newHead _ | .imported _ | .takeResult | .commit
  | .write _ => .isTrue trivial

/-- If the `k`-th event of the adapter has the header of the `k`-th block submitted, the result loop
never panics, and the event it takes for a block has the header of that block and is accepted. -/
theorem awaits_own_block {engine : Engine H} {decode : Bytes → Option (Header H)} {w : Worker H}
    (h : (machine engine decode).Reached (Paired decode) w) :
    w.phase ≠ .panicked ∧
      ∀ block output rest, w.phase = .waiting block → w.adapter.outc = output :: rest →
        block.header ∈ output.headers ∧
          NarwhalAdapter.rebuildHeaderWithNarwhalSig block output = .ok block := by
  have hfifo : Fifo w := Machine.Reached.invariant
    ⟨⟨[], [], rfl, rfl, rfl⟩, nofun, nofun⟩ (fun _ _ _ hw hpaired hstep => hw.step hpaired hstep) h
  refine ⟨hfifo.running, fun block output rest hphase houtc => ?_⟩
  exact ⟨hfifo.mem_headers hphase houtc, hfifo.rebuild_ok hphase houtc⟩

/-- The events of two submitted blocks arrive in the order of the submissions, the second one early.
-/
theorem awaits_own_block_twice :
    let w := Sample.node (Sample.sealTask 1 1 ++ Sample.sealTask 2 1 ++ Sample.submit ++
      [.notify ⟨1, [[1, 1]]⟩, .notify ⟨2, [[5, 5], [2, 1]]⟩, .commit, .write true] ++ Sample.submit)
    (w.phase = .waiting (Sample.sealedBlock 2 1) ∧ w.adapter.outc.length = 1) ∧
      w.phase ≠ .panicked ∧
      ∀ block output rest, w.phase = .waiting block → w.adapter.outc = output :: rest →
        block.header ∈ output.headers ∧
          NarwhalAdapter.rebuildHeaderWithNarwhalSig block output = .ok block := by
  intro w
  exact ⟨by decide +kernel, awaits_own_block (Machine.Reached.start.after
    (m := machine Sample.engine Sample.decode) (by decide +kernel))⟩

/-- The first event after a submission has the block of another signer only, and the result loop
panics. -/
theorem foreign_event_panics :
    let w := Sample.node (Sample.sealTask 1 1 ++ Sample.submit ++ [.notify ⟨1, [[2, 3]]⟩, .commit])
    Machine.Reached (machine Sample.engine Sample.decode) (fun _ _ => True) w ∧
      w.submitted = [Sample.sealedBlock 1 1] ∧ w.phase = .panicked := by
  intro w
  exact ⟨Machine.Reached.start.after (by decide +kernel), by decide +kernel, by decide +kernel⟩

/-! ## The heights written -/

/-- A sealed block is put on the result channel only above the heights put there before. -/
def Ascending (w : Worker H) : WorkerEvent H → Prop
  | .sealed i => w.resultCh.length < resultQueueSize →
    ∀ s ∈ w.sealing[i]?, ∀ x ∈ w.sealed, x.number < s.1.number
  | _ => True

instance decidableAscending (w : Worker H) : ∀ e, Decidable (w.Ascending e)
  | .sealed i => inferInstanceAs (Decidable (w.resultCh.length < resultQueueSize →
      ∀ s ∈ w.sealing[i]?, ∀ x ∈ w.sealed, x.number < s.1.number))
  | .task _ | .stopped _ | .newHead _ | .imported _ | .takeResult | .broadcast _ | .commit
  | .write _ | .notify _ => .isTrue trivial

/-- The blocks written, the one in the hands of the result loop and those on the result channel were
put on the channel in this order. -/
structure Ordered (w : Worker H) : Prop where
  sublist : (w.written ++ (w.phase.current ++ w.resultCh)).Sublist w.sealed
  increasing : w.sealed.Pairwise fun x y => x.number < y.number

namespace Ordered

variable {w w' : Worker H} {engine : Engine H} {decode : Bytes → Option (Header H)}

omit [DecidableEq H] in
theorem frame (h : Ordered w) (hframe : Frame w w') : Ordered w' := by
  obtain ⟨hresult, hphase, -, hsealed, -, -, hwritten⟩ := hframe
  constructor
  · rw [hresult, hphase, hsealed, hwritten]
    exact h.sublist
  · rw [hsealed]
    exact h.increasing

omit [DecidableEq H] in
theorem sendResult (h : Ordered w) {i : ℕ} (hascending : w.Ascending (.sealed i))
    (hstep : w.sendResult i = some w') : Ordered w' := by
  unfold Worker.sendResult at hstep
  split at hstep
  · cases hstep
  · rename_i block interrupted hsealing
    dsimp only at hstep
    split_ifs at hstep with hspace
    · cases hstep
      constructor
      · have hsublist := h.sublist.append (List.Sublist.refl [block])
        rwa [List.append_assoc, List.append_assoc] at hsublist
      · refine List.pairwise_append.mpr ⟨h.increasing, List.pairwise_singleton _ _, ?_⟩
        intro x hx y hy
        rw [List.mem_singleton.mp hy]
        exact hascending hspace _ hsealing x hx
    · cases hstep
      exact ⟨h.sublist, h.increasing⟩

theorem takeResult (h : Ordered w) (hstep : w.takeResult engine = some w') : Ordered w' := by
  have hsublist := h.sublist
  unfold Worker.takeResult at hstep
  split at hstep
  case h_2 => cases hstep
  rename_i block rest hphase hqueue
  rw [hphase, hqueue] at hsublist
  have hskip : (w.written ++ (w.phase.current ++ rest)).Sublist w.sealed := by
    rw [hphase]
    exact ((List.sublist_cons_self block rest).append_left _).trans hsublist
  dsimp only at hstep
  split_ifs at hstep
  · cases hstep
    exact ⟨hskip, h.increasing⟩
  · split at hstep <;> cases hstep
    · exact ⟨hskip, h.increasing⟩
    · exact ⟨hsublist, h.increasing⟩

section

omit [DecidableEq H]

theorem broadcast (h : Ordered w) (hstep : w.broadcast answer = some w') : Ordered w' := by
  have hsublist := h.sublist
  unfold Worker.broadcast at hstep
  split at hstep
  case h_2 => cases hstep
  rename_i block hphase
  rw [hphase] at hsublist
  split at hstep <;> cases hstep <;> exact ⟨hsublist, h.increasing⟩

theorem commit (h : Ordered w) (hstep : w.commit = some w') : Ordered w' := by
  have hsublist := h.sublist
  unfold Worker.commit at hstep
  split at hstep
  case h_2 => cases hstep
  rename_i block hphase
  rw [hphase] at hsublist
  split at hstep
  · cases hstep
  · split at hstep <;> cases hstep
    · rename_i hok
      obtain ⟨rfl, -⟩ := NarwhalAdapter.rebuildHeaderWithNarwhalSig_eq_ok.mp hok
      exact ⟨hsublist, h.increasing⟩
    · exact ⟨((List.sublist_cons_self block w.resultCh).append_left _).trans hsublist, h.increasing⟩

theorem write (h : Ordered w) (hstep : w.write stored = some w') :
    Ordered w' := by
  have hsublist := h.sublist
  unfold Worker.write at hstep
  split at hstep <;> cases hstep
  rename_i block hphase
  rw [hphase] at hsublist
  refine ⟨?_, h.increasing⟩
  change ((w.written ++ [block]) ++ ([] ++ w.resultCh)).Sublist w.sealed
  rwa [List.append_assoc]

theorem notify (h : Ordered w) (hstep : w.notify decode req = some w') :
    Ordered w' := by
  unfold Worker.notify at hstep
  split_ifs at hstep
  obtain ⟨_, -, rfl⟩ := Option.map_eq_some_iff.mp hstep
  exact ⟨h.sublist, h.increasing⟩

end

theorem step (h : Ordered w) (hascending : w.Ascending e) (hstep : w.step engine decode e = some w')
    : Ordered w' := by
  cases e with
  | task block =>
    cases hstep
    exact h.frame (taskLoop_frame engine w block)
  | sealed i => exact h.sendResult hascending hstep
  | stopped i => exact h.frame (stopSealing_frame hstep)
  | newHead number =>
    cases hstep
    exact ⟨h.sublist, h.increasing⟩
  | imported block =>
    cases hstep
    exact ⟨h.sublist, h.increasing⟩
  | takeResult => exact h.takeResult hstep
  | broadcast answer => exact h.broadcast hstep
  | commit => exact h.commit hstep
  | write stored => exact h.write hstep
  | notify req => exact h.notify hstep

end Ordered

/-- In every run that puts sealed blocks on the result channel in increasing heights, the blocks
handed to the chain have strictly increasing heights. -/
theorem written_increasing {engine : Engine H} {decode : Bytes → Option (Header H)} {w : Worker H}
    (h : (machine engine decode).Reached Ascending w) :
    w.written.Pairwise fun x y => x.number < y.number := by
  have hordered : Ordered w := Machine.Reached.invariant ⟨List.Sublist.refl _, .nil⟩
    (fun _ _ _ hw hascending hstep => hw.step hascending hstep) h
  exact hordered.increasing.sublist ((List.sublist_append_left _ _).trans hordered.sublist)

/-- A node seals and writes a block of height one and then of height two. -/
theorem written_increasing_two :
    let w := Sample.node (Sample.sealTask 1 1 ++ Sample.submit ++
      [.notify ⟨1, [[1, 1]]⟩, .commit, .write true] ++ Sample.sealTask 2 1 ++ Sample.submit ++
      [.notify ⟨2, [[2, 1]]⟩, .commit, .write true])
    w.written.length = 2 ∧ w.written.Pairwise fun x y => x.number < y.number := by
  intro w
  exact ⟨by decide +kernel, written_increasing (Machine.Reached.start.after
    (m := machine Sample.engine Sample.decode) (by decide +kernel))⟩

/-- While the first block of height one is awaited, a resubmission seals a second one. Both are
written. -/
theorem resubmission_writes_twice :
    let w := Sample.node (Sample.sealTask 1 1 ++ Sample.submit ++ Sample.sealTask 1 2 ++
      [.notify ⟨1, [[1, 1]]⟩, .commit, .write true, .newHead 1] ++ Sample.submit ++
      [.notify ⟨2, [[1, 2]]⟩, .commit, .write true])
    Machine.Reached (machine Sample.engine Sample.decode) (fun _ _ => True) w ∧
      w.written = [Sample.sealedBlock 1 1, Sample.sealedBlock 1 2] := by
  intro w
  exact ⟨Machine.Reached.start.after (by decide +kernel), by decide +kernel⟩

end Worker

end Geth

import Mathlib.Data.List.Induction
import NarwhalGeth.Lib.Fallible
import NarwhalGeth.Geth.Adapter

/-!
# Requests that do not decode

The adapter marks the sequence number of a request before it decodes the headers. A header that does
not decode ends the process, with the number marked.
-/

namespace Geth

namespace NarwhalAdapter

variable {H : Type} {out : NarwhalOutput H}

/-! ## The handler, with the state it leaves -/

/-- How the handler of a request ends. -/
inductive NotifyResult where
  | response (resp : String)
  | panic (headerBytes : Bytes)

variable (decode : Bytes → Option (Header H))

/-- Decodes the headers in turn, up to the first that does not decode. -/
def decodeHeaders : List Bytes → Except Bytes (List (Header H))
  | [] => .ok []
  | headerBytes :: rest =>
    match decode headerBytes with
    | none => .error headerBytes
    | some header => (decodeHeaders rest).map (header :: ·)

/-- Handles a request: the result, and the adapter as the handler leaves it. -/
def handleNotify (adapter : NarwhalAdapter H) (req : NarwhalCommitEvent) :
    NotifyResult × NarwhalAdapter H :=
  if req.narwhalSequenceNumber ∈ adapter.committedSeqs then
    (.response "already got it, but thanks tho", adapter)
  else
    let adapter :=
      { adapter with committedSeqs := req.narwhalSequenceNumber :: adapter.committedSeqs }
    match decodeHeaders decode req.ethBlockDigest with
    | .error headerBytes => (.panic headerBytes, adapter)
    | .ok headers => (.response "thanks", { adapter with outc := adapter.outc ++ [⟨headers, req⟩] })

/-- The server of the adapter. A panic in a handler ends the process. -/
structure Server (H : Type) where
  adapter : NarwhalAdapter H
  running : Bool

def Server.serve (server : Server H) (req : NarwhalCommitEvent) : Server H :=
  if server.running then
    match server.adapter.handleNotify decode req with
    | (.response _, adapter) => { server with adapter }
    | (.panic _, adapter) => ⟨adapter, false⟩
  else server

/-- The server after a sequence of requests. While the channel is full, a handler waits for the
miner. -/
def serveAll (reqs : List NarwhalCommitEvent) : Server H :=
  reqs.foldl (Server.serve decode) ⟨getNarwhalAdapter, true⟩

/-- The output of a request whose headers all decode. -/
def output (req : NarwhalCommitEvent) : Option (NarwhalOutput H) :=
  (req.ethBlockDigest.mapM decode).map fun headers => ⟨headers, req⟩

/-! ## Atomicity -/

/-- The channel has received the first request that decodes for each sequence number, and a request
that does not decode leaves the marks as they were. -/
structure Atomic (reqs : List NarwhalCommitEvent) : Prop where
  received : ∀ n, (serveAll decode reqs).adapter.outc.filter
      (fun out => out.evt.narwhalSequenceNumber = n) =
    (reqs.findSome? fun req =>
      if req.narwhalSequenceNumber = n then output decode req else none).toList
  unmarked : ∀ before req after, reqs = before ++ req :: after → output decode req = none →
    (serveAll decode (before ++ [req])).adapter.committedSeqs =
      (serveAll decode before).adapter.committedSeqs

/-- The first request with each sequence number decodes. -/
def FirstDecode (reqs : List NarwhalCommitEvent) : Prop :=
  ∀ before req after, reqs = before ++ req :: after →
    (∀ r ∈ before, r.narwhalSequenceNumber ≠ req.narwhalSequenceNumber) →
    (output decode req).isSome

variable {decode} {reqs : List NarwhalCommitEvent} {req : NarwhalCommitEvent} {server : Server H}

theorem toOption_decodeHeaders (bytes : List Bytes) :
    (decodeHeaders decode bytes).toOption = bytes.mapM decode := by
  induction bytes with
  | nil => rfl
  | cons headerBytes rest ih =>
    unfold decodeHeaders
    rw [List.mapM_cons, ← ih]
    cases decode headerBytes with
    | none => rfl
    | some header => cases decodeHeaders decode rest <;> rfl

/-- The handler gives the response and the adapter of `notify`, and panics where that has none. -/
theorem notify_eq_handleNotify (adapter : NarwhalAdapter H) (req : NarwhalCommitEvent) :
    adapter.notify decode req = match adapter.handleNotify decode req with
      | (.response resp, adapter) => some (resp, adapter)
      | (.panic _, _) => none := by
  unfold notify handleNotify
  split_ifs
  · rfl
  · rw [← toOption_decodeHeaders]
    cases decodeHeaders decode req.ethBlockDigest <;> rfl

theorem serveAll_concat (reqs : List NarwhalCommitEvent) (req : NarwhalCommitEvent) :
    serveAll decode (reqs ++ [req]) = (serveAll decode reqs).serve decode req := by
  unfold serveAll
  rw [List.foldl_append]
  rfl

theorem serve_of_marked (h : req.narwhalSequenceNumber ∈ server.adapter.committedSeqs) :
    server.serve decode req = server := by
  unfold Server.serve handleNotify
  split_ifs <;> rfl

theorem serve_of_output (hrunning : server.running = true)
    (hnew : req.narwhalSequenceNumber ∉ server.adapter.committedSeqs)
    (hout : output decode req = some out) :
    server.serve decode req =
      { server with
        adapter :=
          { server.adapter with
            committedSeqs := req.narwhalSequenceNumber :: server.adapter.committedSeqs
            outc := server.adapter.outc ++ [out] } } := by
  obtain ⟨headers, hheaders, rfl⟩ := Option.map_eq_some_iff.mp hout
  rw [← toOption_decodeHeaders] at hheaders
  unfold Server.serve handleNotify
  rw [if_pos hrunning, if_neg hnew, Except.eq_ok_of_toOption hheaders]

theorem serve_of_no_output (hrunning : server.running = true)
    (hnew : req.narwhalSequenceNumber ∉ server.adapter.committedSeqs)
    (hout : output decode req = none) :
    (server.serve decode req).adapter.committedSeqs =
      req.narwhalSequenceNumber :: server.adapter.committedSeqs := by
  have hheaders := Option.map_eq_none_iff.mp hout
  rw [← toOption_decodeHeaders] at hheaders
  unfold Server.serve handleNotify
  rw [if_pos hrunning, if_neg hnew]
  cases hdecode : decodeHeaders decode req.ethBlockDigest with
  | error headerBytes => rfl
  | ok headers => simp [hdecode, Except.toOption] at hheaders

theorem FirstDecode.of_append {reqs' : List NarwhalCommitEvent}
    (h : FirstDecode decode (reqs ++ reqs')) : FirstDecode decode reqs := by
  intro before req after heq
  exact h before req (after ++ reqs') (by rw [heq, List.append_assoc, List.cons_append])

/-- What holds of the server while the first request with each sequence number decodes. -/
structure Served (decode : Bytes → Option (Header H)) (reqs : List NarwhalCommitEvent) : Prop where
  running : (serveAll decode reqs).running = true
  marked : ∀ n, n ∈ (serveAll decode reqs).adapter.committedSeqs ↔
    ∃ req ∈ reqs, req.narwhalSequenceNumber = n
  received : ∀ n, (serveAll decode reqs).adapter.outc.filter
      (fun out => out.evt.narwhalSequenceNumber = n) =
    (reqs.findSome? fun req =>
      if req.narwhalSequenceNumber = n then output decode req else none).toList
  first : ∀ n ∈ (serveAll decode reqs).adapter.committedSeqs,
    (reqs.findSome? fun req =>
      if req.narwhalSequenceNumber = n then output decode req else none).isSome

namespace Served

theorem nil : Served decode [] where
  running := rfl
  marked := by simp [serveAll, getNarwhalAdapter]
  received := by simp [serveAll, getNarwhalAdapter]
  first := by simp [serveAll, getNarwhalAdapter]

theorem concat_marked (h : Served decode reqs)
    (hmarked : req.narwhalSequenceNumber ∈ (serveAll decode reqs).adapter.committedSeqs) :
    Served decode (reqs ++ [req]) := by
  have hserve : serveAll decode (reqs ++ [req]) = serveAll decode reqs := by
    rw [serveAll_concat, serve_of_marked hmarked]
  have hfind : ∀ n, ((reqs ++ [req]).findSome? fun r =>
      if r.narwhalSequenceNumber = n then output decode r else none) =
      reqs.findSome? fun r =>
        if r.narwhalSequenceNumber = n then output decode r else none := by
    intro n
    rw [List.findSome?_append]
    by_cases hn : req.narwhalSequenceNumber = n
    · subst hn
      exact Option.or_of_isSome (h.first _ hmarked)
    · simp [hn]
  refine ⟨hserve ▸ h.running, ?_, ?_, ?_⟩
  · intro n
    rw [hserve, h.marked]
    constructor
    · rintro ⟨r, hr, hn⟩
      exact ⟨r, List.mem_append_left _ hr, hn⟩
    · rintro ⟨r, hr, hn⟩
      rcases List.mem_append.mp hr with hr | hr
      · exact ⟨r, hr, hn⟩
      · rw [← hn, List.mem_singleton.mp hr]
        exact (h.marked _).mp hmarked
  · intro n
    rw [hserve, hfind]
    exact h.received n
  · intro n hn
    rw [hserve] at hn
    rw [hfind]
    exact h.first n hn

theorem concat_new (h : Served decode reqs)
    (hnew : req.narwhalSequenceNumber ∉ (serveAll decode reqs).adapter.committedSeqs)
    (hout : output decode req = some out) :
    Served decode (reqs ++ [req]) := by
  have hserve : serveAll decode (reqs ++ [req]) = _ := serveAll_concat reqs req
  rw [serve_of_output h.running hnew hout] at hserve
  have hevt : out.evt = req := by
    obtain ⟨headers, -, rfl⟩ := Option.map_eq_some_iff.mp hout
    rfl
  have hnone : (reqs.findSome? fun r =>
      if r.narwhalSequenceNumber = req.narwhalSequenceNumber then output decode r else none) =
      none := by
    apply List.findSome?_eq_none_iff.mpr
    intro r hr
    apply if_neg
    intro hseq
    exact hnew ((h.marked _).mpr ⟨r, hr, hseq⟩)
  have hfind : ∀ n, ((reqs ++ [req]).findSome? fun r =>
      if r.narwhalSequenceNumber = n then output decode r else none) =
      if req.narwhalSequenceNumber = n then some out
      else reqs.findSome? fun r =>
        if r.narwhalSequenceNumber = n then output decode r else none := by
    intro n
    rw [List.findSome?_append]
    by_cases hn : req.narwhalSequenceNumber = n
    · subst hn
      simp [hnone, hout]
    · simp [hn]
  refine ⟨hserve ▸ h.running, ?_, ?_, ?_⟩
  · intro n
    have hmarked := h.marked n
    rw [hserve]
    simp only [List.mem_cons, List.mem_append, hmarked]
    constructor
    · rintro (rfl | ⟨r, hr, hn⟩)
      · exact ⟨req, .inr (.inl rfl), rfl⟩
      · exact ⟨r, .inl hr, hn⟩
    · rintro ⟨r, hr | rfl | hr, hn⟩
      · exact .inr ⟨r, hr, hn⟩
      · exact .inl hn.symm
      · exact absurd hr List.not_mem_nil
  · intro n
    have hreceived := h.received n
    rw [hserve, hfind]
    dsimp only
    rw [List.filter_append, hreceived]
    by_cases hn : req.narwhalSequenceNumber = n
    · subst hn
      simp [hnone, hevt]
    · simp [hevt, hn]
  · intro n hn
    rw [hserve] at hn
    rw [hfind]
    rcases List.mem_cons.mp hn with rfl | hn
    · simp
    · split_ifs
      · rfl
      · exact h.first n hn

theorem of_firstDecode (h : FirstDecode decode reqs) : Served decode reqs := by
  induction reqs using List.reverseRecOn with
  | nil => exact nil
  | append_singleton reqs req ih =>
    have hserved := ih h.of_append
    by_cases hmarked : req.narwhalSequenceNumber ∈ (serveAll decode reqs).adapter.committedSeqs
    · exact hserved.concat_marked hmarked
    · have hfirst : ∀ r ∈ reqs, r.narwhalSequenceNumber ≠ req.narwhalSequenceNumber := by
        intro r hr hseq
        exact hmarked ((hserved.marked _).mpr ⟨r, hr, hseq⟩)
      obtain ⟨out, hout⟩ := Option.isSome_iff_exists.mp (h reqs req [] rfl hfirst)
      exact hserved.concat_new hmarked hout

end Served

theorem Atomic.firstDecode (h : Atomic decode reqs) : FirstDecode decode reqs := by
  intro before
  -- on the number of requests before it: those are served as they should be
  induction hlength : before.length using Nat.strongRecOn generalizing before with
  | ind n ih =>
    intro req after heq hfirst
    by_contra hsome
    have hout : output decode req = none := Option.not_isSome_iff_eq_none.mp hsome
    have hbefore : FirstDecode decode before := by
      intro before' req' after' heq'
      have hshorter : before'.length < n := by
        rw [← hlength, heq', List.length_append, List.length_cons]
        omega
      exact ih _ hshorter before' rfl req' (after' ++ req :: after) (by rw [heq, heq']; simp)
    have hserved := Served.of_firstDecode hbefore
    have hnew : req.narwhalSequenceNumber ∉ (serveAll decode before).adapter.committedSeqs := by
      rw [hserved.marked]
      rintro ⟨r, hr, hseq⟩
      exact hfirst r hr hseq
    have hunmarked := h.unmarked before req after heq hout
    rw [serveAll_concat, serve_of_no_output hserved.running hnew hout] at hunmarked
    exact List.cons_ne_self _ _ hunmarked

/-- The adapter handles a sequence of requests atomically exactly if the first request with each
sequence number decodes. -/
theorem atomic_iff (decode : Bytes → Option (Header H)) (reqs : List NarwhalCommitEvent) :
    Atomic decode reqs ↔ FirstDecode decode reqs := by
  constructor
  · exact Atomic.firstDecode
  · intro h
    refine ⟨(Served.of_firstDecode h).received, ?_⟩
    intro before req after heq hout
    have hbefore : FirstDecode decode before := (heq ▸ h).of_append
    have hmarked : req.narwhalSequenceNumber ∈ (serveAll decode before).adapter.committedSeqs := by
      by_contra hnew
      have hsome := h before req after heq fun r hr hseq =>
        hnew (((Served.of_firstDecode hbefore).marked _).mpr ⟨r, hr, hseq⟩)
      rw [hout] at hsome
      cases hsome
    rw [serveAll_concat, serve_of_marked hmarked]

/-- A request whose header does not decode marks its number, and the well-formed one with the same
number is not received. -/
theorem undecodable_request_marked :
    let decode : Bytes → Option (Header ℕ) := fun bytes =>
      if bytes = [] then none else some ⟨0, bytes.length, 0, 0⟩
    let reqs : List NarwhalCommitEvent := [⟨1, [[5], []]⟩, ⟨1, [[5]]⟩]
    (serveAll decode reqs).adapter.committedSeqs = [1] ∧
      (serveAll decode reqs).adapter.outc = [] ∧ ¬ Atomic decode reqs := by
  intro decode reqs
  refine ⟨by decide +kernel, by decide +kernel, fun h => ?_⟩
  have hunmarked := h.unmarked [] ⟨1, [[5], []]⟩ [⟨1, [[5]]⟩] rfl (by decide +kernel)
  exact absurd hunmarked (by decide +kernel)

end NarwhalAdapter

end Geth

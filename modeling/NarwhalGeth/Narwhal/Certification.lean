import Mathlib.Data.List.TakeWhile
import NarwhalGeth.Lib.EachAfter
import NarwhalGeth.Narwhal.Messages

/-!
# Certificates from votes

The proposer of a header collects votes until their authors hold a quorum and assembles them to a
certificate. The signers are recorded as a bitmap over the authorities in the order of their keys,
which is found by merging the sorted votes with the keys.
-/

namespace Narwhal

variable {K D : Type} [LinearOrder K] {votes : List (K × Signature)} {keys : List K}

/-- A committee whose authorities are iterated in the order of their keys, as those of the code's
`BTreeMap` are. -/
structure OrderedCommittee (K : Type) [LinearOrder K] extends Committee K where
  sorted : authorities.keys.Pairwise (· < ·)

/-! ## The bitmap of the signers -/

/-- The votes that are still in the queue, those taken from it and the stake of their authors. -/
structure VoteMerge (K : Type) where
  votes : List (K × Signature)
  sigs : List (K × Signature)
  weight : ℕ

namespace VoteMerge

/-- Takes the front vote with its repeats, if it is of the authority. -/
def visit (committee : Committee K) (m : VoteMerge K) (pk : K) : Option (VoteMerge K) :=
  match m.votes with
  | [] => none
  | vote :: votes =>
    if pk = vote.1 then
      some ⟨votes.dropWhile (· = vote), m.sigs ++ [vote], (m.weight + committee.stake pk) % 2 ^ 64⟩
    else none

/-- The pass over the authorities from an index on, with the indices of those that signed. -/
def run (committee : Committee K) : List K → ℕ → VoteMerge K → List ℕ × VoteMerge K
  | [], _, m => ([], m)
  | pk :: keys, index, m =>
    match m.visit committee pk with
    | none => run committee keys (index + 1) m
    | some m =>
      let rest := run committee keys (index + 1) m
      (index :: rest.1, rest.2)

/-- The votes sorted by their authors, before the pass. -/
def start (votes : List (K × Signature)) : VoteMerge K :=
  ⟨votes.insertionSort fun v w => v.1 ≤ w.1, [], 0⟩

theorem mem_start {vote : K × Signature} :
    vote ∈ (start votes).votes ↔ vote ∈ votes :=
  List.mem_insertionSort _

variable {committee : Committee K} {m m' : VoteMerge K} {pk : K} {vote : K × Signature}

theorem visit_eq_some (h : m.visit committee pk = some m') :
    ∃ vote votes, m.votes = vote :: votes ∧ pk = vote.1 ∧
      m' = ⟨votes.dropWhile (· = vote), m.sigs ++ [vote],
        (m.weight + committee.stake pk) % 2 ^ 64⟩ := by
  unfold visit at h
  split at h
  case h_1 => cases h
  case h_2 vote votes hvotes =>
    split_ifs at h with hpk
    exact ⟨vote, votes, hvotes, hpk, (Option.some.inj h).symm⟩

theorem visit_eq_none (h : m.visit committee pk = none) :
    m.votes = [] ∨ ∃ vote votes, m.votes = vote :: votes ∧ pk ≠ vote.1 := by
  unfold visit at h
  split at h
  case h_1 hvotes => exact .inl hvotes
  case h_2 vote votes hvotes =>
    split_ifs at h with hpk
    exact .inr ⟨vote, votes, hvotes, hpk⟩

theorem le_of_mem_run {i : ℕ} {index : ℕ} (h : index ∈ (run committee keys i m).1) : i ≤ index := by
  induction keys generalizing i m with
  | nil => cases h
  | cons pk keys ih =>
    rw [run] at h
    split at h
    · exact Nat.le_of_succ_le (ih h)
    · rcases List.mem_cons.mp h with rfl | h
      · exact Nat.le_refl _
      · exact Nat.le_of_succ_le (ih h)

theorem run_increasing (keys : List K) (i : ℕ) (m : VoteMerge K) :
    (run committee keys i m).1.Pairwise (· < ·) := by
  induction keys generalizing i m with
  | nil => exact List.Pairwise.nil
  | cons pk keys ih =>
    rw [run]
    split
    · exact ih (i + 1) m
    · exact List.Pairwise.cons (fun _ h => le_of_mem_run h) (ih (i + 1) _)

/-- The queue holds its votes in the order of their authors, and one signature of each. -/
structure Ordered (votes : List (K × Signature)) : Prop where
  sorted : votes.Pairwise fun v w => v.1 ≤ w.1
  single : ∀ v ∈ votes, ∀ w ∈ votes, v.1 = w.1 → v = w

theorem Ordered.start (hsingle : ∀ v ∈ votes, ∀ w ∈ votes, v.1 = w.1 → v = w) :
    Ordered (start votes).votes := by
  have : Std.Total fun v w : K × Signature => v.1 ≤ w.1 := ⟨fun v w => le_total v.1 w.1⟩
  have : IsTrans (K × Signature) fun v w => v.1 ≤ w.1 := ⟨fun _ _ _ => le_trans⟩
  exact ⟨List.pairwise_insertionSort _ votes,
    fun v hv w hw => hsingle v (mem_start.mp hv) w (mem_start.mp hw)⟩

theorem Ordered.sublist {votes' : List (K × Signature)} (h : Ordered votes)
    (hsub : votes'.Sublist votes) : Ordered votes' where
  sorted := h.sorted.sublist hsub
  single v hv w hw := h.single v (hsub.subset hv) w (hsub.subset hw)

theorem Ordered.mem_dropWhile (h : Ordered (vote :: votes)) (v : K × Signature) :
    v ∈ votes.dropWhile (· = vote) ↔ v ∈ votes ∧ vote.1 < v.1 := by
  induction votes with
  | nil => simp
  | cons w votes ih =>
    have hrest : Ordered (vote :: votes) := h.sublist ((List.sublist_cons_self w votes).cons_cons _)
    by_cases hw : w = vote
    · rw [List.dropWhile_cons_of_pos (by simpa using hw), ih hrest, List.mem_cons, hw]
      constructor
      · exact fun hv => ⟨.inr hv.1, hv.2⟩
      · rintro ⟨rfl | hv, hlt⟩
        · exact absurd hlt (lt_irrefl _)
        · exact ⟨hv, hlt⟩
    · -- `w` is of a later author, and so are the votes behind it
      have hlt : vote.1 < w.1 := by
        refine lt_of_le_of_ne (List.rel_of_pairwise_cons h.sorted List.mem_cons_self) fun heq => ?_
        exact hw (h.single w (by simp) vote (by simp) heq.symm)
      have hle : ∀ v ∈ w :: votes, w.1 ≤ v.1 := by
        intro v hv
        rcases List.mem_cons.mp hv with rfl | hv
        · exact le_refl _
        · exact List.rel_of_pairwise_cons h.sorted.of_cons hv
      rw [List.dropWhile_cons_of_neg (by simpa using hw)]
      exact ⟨fun hv => ⟨hv, hlt.trans_le (hle v hv)⟩, fun hv => hv.1⟩

theorem mem_run_or (i : ℕ) (hvote : vote ∈ m.votes) :
    vote ∈ (run committee keys i m).2.votes ∨ vote.1 ∈ keys := by
  induction keys generalizing i m with
  | nil => exact .inl hvote
  | cons pk keys ih =>
    rw [run]
    split
    case h_1 => exact (ih (i + 1) hvote).imp_right (List.mem_cons_of_mem _)
    case h_2 m' hvisit =>
      obtain ⟨front, votes, hvotes, rfl, rfl⟩ := visit_eq_some hvisit
      by_cases heq : vote = front
      · exact .inr (heq ▸ List.mem_cons_self)
      · have hrest : vote ∈ votes.dropWhile (· = front) := by
          rw [hvotes, List.mem_cons] at hvote
          have hsplit := List.takeWhile_append_dropWhile (p := (· = front)) (l := votes)
          rw [← hsplit, List.mem_append] at hvote
          rcases hvote with hvote | hvote | hvote
          · exact absurd hvote heq
          · exact absurd (by simpa using List.mem_takeWhile_imp hvote) heq
          · exact hvote
        exact (ih (i + 1) hrest).imp_right (List.mem_cons_of_mem _)

theorem not_voter_of_visit_eq_none (hkeys : ∀ key ∈ keys, pk < key) (hvotes : Ordered m.votes)
    (hmem : ∀ vote ∈ m.votes, vote.1 ∈ pk :: keys) (h : m.visit committee pk = none) :
    ∀ vote ∈ m.votes, pk < vote.1 := by
  obtain hnil | ⟨front, votes, hcons, hne⟩ := visit_eq_none h
  · simp [hnil]
  · rw [hcons] at hvotes hmem ⊢
    have hfront : pk < front.1 := by
      rcases List.mem_cons.mp (hmem front List.mem_cons_self) with heq | hkey
      · exact absurd heq.symm hne
      · exact hkeys _ hkey
    intro vote hvote
    rcases List.mem_cons.mp hvote with rfl | hvote
    · exact hfront
    · exact hfront.trans_le (List.rel_of_pairwise_cons hvotes.sorted hvote)

omit [LinearOrder K] in
theorem signedByFrom_skip (authority : Sigma fun _ : K => Authority)
    (authorities : List (Sigma fun _ : K => Authority)) {i : ℕ} {indexes : List ℕ}
    (h : ∀ index ∈ indexes, i < index) :
    SignedCertificate.signedByFrom (authority :: authorities) i indexes =
      SignedCertificate.signedByFrom authorities (i + 1) indexes := by
  cases indexes with
  | nil => rfl
  | cons index indexes =>
    rw [SignedCertificate.signedByFrom, if_neg (Nat.ne_of_gt (h index List.mem_cons_self))]

/-- What the pass over the authorities finds when all votes are of authorities: one vote of each
author, in the order of the keys, and the indices of these authors. -/
structure Found (committee : Committee K) (authorities : List (Sigma fun _ : K => Authority))
    (i : ℕ) (m : VoteMerge K) (names : List K) (found : List ℕ × VoteMerge K) : Prop where
  votes : found.2.votes = []
  signedBy : (SignedCertificate.signedByFrom authorities i found.1).2 = names
  weight : m.weight < 2 ^ 64 →
    found.2.weight = (m.weight + (names.map committee.stake).sum) % 2 ^ 64
  sigs : ∃ sigs, found.2.sigs = m.sigs ++ sigs ∧ sigs.map Prod.fst = names ∧
    ∀ vote ∈ sigs, vote ∈ m.votes

theorem run_found {authorities : List (Sigma fun _ : K => Authority)}
    (hkeys : authorities.keys.Pairwise (· < ·)) (hvotes : Ordered m.votes)
    (hmem : ∀ vote ∈ m.votes, vote.1 ∈ authorities.keys) (i : ℕ) :
    Found committee authorities i m (authorities.keys.filter (· ∈ m.votes.map Prod.fst))
      (run committee authorities.keys i m) := by
  induction authorities generalizing i m with
  | nil =>
    have hnil : m.votes = [] := List.eq_nil_iff_forall_not_mem.mpr fun vote hvote => by
      simpa using hmem vote hvote
    exact ⟨hnil, rfl, fun h => (Nat.mod_eq_of_lt h).symm, [], (List.append_nil _).symm, rfl,
      by simp⟩
  | cons authority authorities ih =>
    rw [List.keys_cons] at hkeys hmem ⊢
    have hlater : ∀ pk ∈ authorities.keys, authority.1 < pk := fun pk hpk =>
      List.rel_of_pairwise_cons hkeys hpk
    rw [run]
    split
    case h_1 hvisit =>
      have hgt := not_voter_of_visit_eq_none hlater hvotes hmem hvisit
      have hnot : authority.1 ∉ m.votes.map Prod.fst := by
        rintro hvoter
        obtain ⟨vote, hvote, heq⟩ := List.mem_map.mp hvoter
        exact absurd (hgt vote hvote) (heq ▸ lt_irrefl _)
      have hrest := ih hkeys.of_cons hvotes (fun vote hvote =>
        (List.mem_cons.mp (hmem vote hvote)).resolve_left (hgt vote hvote).ne') (i + 1)
      rw [List.filter_cons_of_neg (by simpa using hnot)]
      refine ⟨hrest.votes, ?_, hrest.weight, hrest.sigs⟩
      rw [signedByFrom_skip _ _ fun index h => le_of_mem_run h]
      exact hrest.signedBy
    case h_2 m' hvisit =>
      obtain ⟨vote, votes, hcons, hpk, rfl⟩ := visit_eq_some hvisit
      rw [hcons] at hvotes hmem ⊢
      have hdrop := hvotes.mem_dropWhile
      have hrest := ih (m := ⟨votes.dropWhile (· = vote), m.sigs ++ [vote],
          (m.weight + committee.stake authority.1) % 2 ^ 64⟩) hkeys.of_cons
        (hvotes.sublist ((List.dropWhile_sublist _).cons _)) (fun v hv => by
          obtain ⟨hv, hlt⟩ := (hdrop v).mp hv
          exact (List.mem_cons.mp (hmem v (List.mem_cons_of_mem _ hv))).resolve_left
            (hpk ▸ hlt).ne') (i + 1)
      -- the remaining authorities voted if they have a vote behind the repeats
      have hnames : authorities.keys.filter (· ∈ (vote :: votes).map Prod.fst) =
          authorities.keys.filter (· ∈ (votes.dropWhile (· = vote)).map Prod.fst) := by
        apply List.filter_congr
        intro pk hmem
        have hlt : vote.1 < pk := hpk ▸ hlater pk hmem
        rw [decide_eq_decide, List.map_cons, List.mem_cons, or_iff_right hlt.ne', List.mem_map,
          List.mem_map]
        refine exists_congr fun v => ?_
        rw [hdrop v]
        constructor
        · rintro ⟨hv, rfl⟩
          exact ⟨⟨hv, hlt⟩, rfl⟩
        · rintro ⟨⟨hv, -⟩, rfl⟩
          exact ⟨hv, rfl⟩
      rw [List.filter_cons_of_pos (by simp [hpk]), hnames]
      obtain ⟨sigs, hsigs, hfst, hsub⟩ := hrest.sigs
      refine ⟨hrest.votes, ?_, ?_, vote :: sigs, ?_, ?_, ?_⟩
      · rw [SignedCertificate.signedByFrom, if_pos rfl]
        exact congrArg (authority.1 :: ·) hrest.signedBy
      · intro _
        rw [hrest.weight (Nat.mod_lt _ (by decide)), List.map_cons, List.sum_cons, Nat.mod_add_mod,
          Nat.add_assoc]
      · rw [hsigs, List.append_assoc]
        rfl
      · rw [List.map_cons, hfst, hpk]
      · intro v hv
        rcases List.mem_cons.mp hv with rfl | hv
        · exact hcons ▸ List.mem_cons_self
        · exact hcons ▸ List.mem_cons_of_mem _ ((hdrop v).mp (hsub v hv)).1

end VoteMerge

/-! ## Certificates -/

namespace SignedCertificate

/-- A bitmap is made from increasing indices only. -/
def bitmap (indexes : List ℕ) : Except (DagError K D) (List ℕ) :=
  if indexes.Pairwise (· < ·) then .ok indexes
  else .error (.invalidBitmap ("Failed to convert votes into a bitmap of authority keys. " ++
    "Something is likely very wrong..."))

variable (aggregate : List Signature → Option Signature)

/-- The aggregate of no signatures is the default one. -/
def aggregateSigs (sigs : List Signature) : Except (DagError K D) Signature :=
  if sigs = [] then .ok []
  else
    match aggregate sigs with
    | some signature => .ok signature
    | none => .error .invalidSignature

def mergeVotes (committee : Committee K) (votes : List (K × Signature)) : List ℕ × VoteMerge K :=
  VoteMerge.run committee committee.authorities.keys 0 (VoteMerge.start votes)

def newUnsafe (committee : Committee K) (header : Header K D) (votes : List (K × Signature))
    (checkStake : Bool) : Except (DagError K D) (SignedCertificate K D) := do
  let found := mergeVotes committee votes
  let signedAuthorities ← bitmap found.1
  match found.2.votes with
  | vote :: _ => .error (.unknownAuthority vote.1)
  | [] =>
    if checkStake ∧ found.2.weight < committee.quorumThreshold then
      .error .certificateRequiresQuorum
    else
      let aggregatedSignature ← aggregateSigs aggregate (found.2.sigs.map Prod.snd)
      return ⟨⟨header⟩, aggregatedSignature, signedAuthorities⟩

def new (committee : Committee K) (header : Header K D) (votes : List (K × Signature)) :
    Except (DagError K D) (SignedCertificate K D) :=
  newUnsafe aggregate committee header votes true

/-- The stake of the distinct voters. -/
def voterStake (committee : Committee K) (voters : List K) : ℕ :=
  ∑ name ∈ voters.toFinset, committee.stake name

/-- Signatures from the list can be aggregated, if there is one at all. -/
def Aggregates (signatures : List Signature) : Prop :=
  ∀ sigs, sigs ≠ [] → sigs ⊆ signatures → (aggregate sigs).isSome

/-- The certificate is for the header, its signers are the voters in the order of the keys, and its
signature aggregates one signature of each in that order. -/
structure Certifies (committee : OrderedCommittee K) (header : Header K D)
    (votes : List (K × Signature)) (certificate : SignedCertificate K D) : Prop where
  header : certificate.header = header
  signers : (certificate.signedBy committee.toCommittee).2 =
    committee.authorities.keys.filter (· ∈ votes.map Prod.fst)
  stake : (certificate.signedBy committee.toCommittee).1 =
    voterStake committee.toCommittee (votes.map Prod.fst)
  signature : ∃ sigs, aggregate sigs = some certificate.aggregatedSignature ∧
    List.Forall₂ (fun name sig => (name, sig) ∈ votes)
      (certificate.signedBy committee.toCommittee).2 sigs

variable {aggregate} {committee : OrderedCommittee K} {header : Header K D}
  {votes : List (K × Signature)}

/-- The stake of the voters does not wrap around. -/
theorem voterStake_mod {committee : Committee K} (hstake : committee.allStake < 2 ^ 64)
    (voters : List K) : voterStake committee voters % 2 ^ 64 = voterStake committee voters :=
  Nat.mod_eq_of_lt ((committee.sum_stake_le _).trans_lt hstake)

theorem sum_filter_voters {voters : List K} (hmem : ∀ name ∈ voters, name ∈ committee.roster) :
    ((committee.authorities.keys.filter (· ∈ voters)).map committee.stake).sum =
      voterStake committee.toCommittee voters := by
  rw [voterStake, ← List.sum_toFinset _ (committee.authorities.keys_nodup.filter _)]
  apply Finset.sum_congr ?_ fun _ _ => rfl
  ext name
  rw [List.mem_toFinset, List.mem_toFinset, List.mem_filter, decide_eq_true_eq]
  exact ⟨And.right, fun h => ⟨List.mem_toFinset.mp (hmem name h), h⟩⟩

omit [LinearOrder K] in
theorem forall_voter_of_forall_vote {p : K → Prop} (h : ∀ vote ∈ votes, p vote.1) :
    ∀ name ∈ votes.map Prod.fst, p name :=
  List.forall_mem_map.mpr h

theorem found_of_members (hsingle : ∀ v ∈ votes, ∀ w ∈ votes, v.1 = w.1 → v = w)
    (hmem : ∀ vote ∈ votes, vote.1 ∈ committee.roster) :
    VoteMerge.Found committee.toCommittee committee.authorities.entries 0 (VoteMerge.start votes)
      (committee.authorities.keys.filter (· ∈ votes.map Prod.fst))
      (mergeVotes committee.toCommittee votes) := by
  have hnames : committee.authorities.keys.filter (· ∈ (VoteMerge.start votes).votes.map Prod.fst) =
      committee.authorities.keys.filter (· ∈ votes.map Prod.fst) := by
    apply List.filter_congr
    intro name _
    simp only [List.mem_map, VoteMerge.mem_start]
  rw [← hnames]
  exact VoteMerge.run_found committee.sorted (.start hsingle)
    (fun vote hvote => List.mem_toFinset.mp (hmem vote (VoteMerge.mem_start.mp hvote))) 0

theorem bitmap_mergeVotes (committee : Committee K) (votes : List (K × Signature)) :
    (bitmap (mergeVotes committee votes).1 : Except (DagError K D) (List ℕ)) =
      .ok (mergeVotes committee votes).1 :=
  if_pos (VoteMerge.run_increasing _ _ _)

theorem new_of_found {committee : Committee K}
    (hvotes : (mergeVotes committee votes).2.votes = [])
    (hweight : committee.quorumThreshold ≤ (mergeVotes committee votes).2.weight) :
    new aggregate committee header votes =
      (aggregateSigs aggregate ((mergeVotes committee votes).2.sigs.map Prod.snd)).map
        fun aggregatedSignature =>
          ⟨⟨header⟩, aggregatedSignature, (mergeVotes committee votes).1⟩ := by
  rw [new, newUnsafe, bitmap_mergeVotes]
  simp only [bind, Except.bind, hvotes, Nat.not_lt.mpr hweight, and_false, if_false]
  rfl

theorem found_of_new {committee : Committee K} {certificate : SignedCertificate K D}
    (h : new aggregate committee header votes = .ok certificate) :
    (mergeVotes committee votes).2.votes = [] ∧
      committee.quorumThreshold ≤ (mergeVotes committee votes).2.weight := by
  rw [new, newUnsafe, bitmap_mergeVotes] at h
  simp only [bind, Except.bind] at h
  split at h
  case h_1 => cases h
  case h_2 hvotes =>
    split_ifs at h with hweight
    exact ⟨hvotes, not_lt.mp fun hlt => hweight ⟨trivial, hlt⟩⟩

theorem new_of_quorum (header : Header K D) (htotal : committee.allStake < 2 ^ 64)
    (hsingle : ∀ v ∈ votes, ∀ w ∈ votes, v.1 = w.1 → v = w)
    (hmem : ∀ vote ∈ votes, vote.1 ∈ committee.roster)
    (haggregate : Aggregates aggregate (votes.map Prod.snd))
    (hquorum : committee.quorumThreshold ≤
      voterStake committee.toCommittee (votes.map Prod.fst)) :
    ∃ certificate, new aggregate committee.toCommittee header votes = .ok certificate ∧
      Certifies aggregate committee header votes certificate := by
  have hfound := found_of_members hsingle hmem
  obtain ⟨sigs, hsigs, hfst, hsub⟩ := hfound.sigs
  replace hsigs : (mergeVotes committee.toCommittee votes).2.sigs = sigs := hsigs
  have hstake := sum_filter_voters (forall_voter_of_forall_vote hmem)
  have hweight := hfound.weight (Nat.two_pow_pos 64)
  rw [hstake, VoteMerge.start, Nat.zero_add, voterStake_mod htotal] at hweight
  have hne : sigs.map Prod.snd ≠ [] := by
    intro hnil
    rw [List.map_eq_nil_iff.mp hnil, List.map_nil] at hfst
    rw [← hfst, List.map_nil, List.sum_nil] at hstake
    rw [← hstake, Committee.quorumThreshold] at hquorum
    omega
  obtain ⟨signature, hsignature⟩ := Option.isSome_iff_exists.mp
    (haggregate (sigs.map Prod.snd) hne
      (List.map_subset _ fun vote hvote => VoteMerge.mem_start.mp (hsub vote hvote)))
  refine ⟨⟨⟨header⟩, signature, (mergeVotes committee.toCommittee votes).1⟩, ?_, rfl,
    hfound.signedBy, ?_, sigs.map Prod.snd, hsignature, ?_⟩
  · rw [new_of_found hfound.votes (hweight ▸ hquorum), hsigs, aggregateSigs, if_neg hne, hsignature]
    rfl
  · rw [signedBy_weight, signedBy, hfound.signedBy, hstake, voterStake_mod htotal]
  · rw [signedBy, hfound.signedBy, ← hfst, List.forall₂_map_left_iff, List.forall₂_map_right_iff,
      List.forall₂_same]
    exact fun vote hvote => VoteMerge.mem_start.mp (hsub vote hvote)

theorem quorum_of_new (htotal : committee.allStake < 2 ^ 64)
    (hsingle : ∀ v ∈ votes, ∀ w ∈ votes, v.1 = w.1 → v = w)
    {certificate : SignedCertificate K D}
    (h : new aggregate committee.toCommittee header votes = .ok certificate) :
    (∀ vote ∈ votes, vote.1 ∈ committee.roster) ∧
      committee.quorumThreshold ≤ voterStake committee.toCommittee (votes.map Prod.fst) := by
  obtain ⟨hvotes, hweight⟩ := found_of_new h
  have hmem : ∀ vote ∈ votes, vote.1 ∈ committee.roster := by
    intro vote hvote
    have hleft : vote ∈ (mergeVotes committee.toCommittee votes).2.votes ∨
        vote.1 ∈ committee.authorities.keys :=
      VoteMerge.mem_run_or 0 (VoteMerge.mem_start.mpr hvote)
    rw [hvotes] at hleft
    exact List.mem_toFinset.mpr (hleft.resolve_left List.not_mem_nil)
  refine ⟨hmem, ?_⟩
  rw [(found_of_members hsingle hmem).weight (Nat.two_pow_pos 64),
    sum_filter_voters (forall_voter_of_forall_vote hmem), VoteMerge.start, Nat.zero_add,
    voterStake_mod htotal] at hweight
  exact hweight

/-- If the total stake fits into 64 bits, votes with one signature for each author make a
certificate exactly if the authors hold a quorum, and the signers read back from the bitmap are the
voters in the order of the aggregated signatures. -/
theorem signers_round_trip (aggregate : List Signature → Option Signature)
    (committee : OrderedCommittee K) (htotal : committee.allStake < 2 ^ 64) (header : Header K D)
    (votes : List (K × Signature)) (hsingle : ∀ v ∈ votes, ∀ w ∈ votes, v.1 = w.1 → v = w)
    (haggregate : Aggregates aggregate (votes.map Prod.snd)) :
    ((∃ certificate, new aggregate committee.toCommittee header votes = .ok certificate) ↔
      (∀ vote ∈ votes, vote.1 ∈ committee.roster) ∧
        committee.quorumThreshold ≤ voterStake committee.toCommittee (votes.map Prod.fst)) ∧
    ∀ certificate, new aggregate committee.toCommittee header votes = .ok certificate →
      Certifies aggregate committee header votes certificate := by
  refine ⟨⟨fun ⟨_, h⟩ => quorum_of_new htotal hsingle h, fun ⟨hmem, hquorum⟩ => ?_⟩, ?_⟩
  · obtain ⟨certificate, h, -⟩ := new_of_quorum header htotal hsingle hmem haggregate hquorum
    exact ⟨certificate, h⟩
  · intro certificate h
    obtain ⟨hmem, hquorum⟩ := quorum_of_new htotal hsingle h
    obtain ⟨certificate', h', hcertifies⟩ :=
      new_of_quorum header htotal hsingle hmem haggregate hquorum
    rw [h, Except.ok.injEq] at h'
    exact h' ▸ hcertifies

end SignedCertificate

/-- The sample committee iterates its authorities in the order of their numbers. -/
def Sample.orderedCommittee : OrderedCommittee (Fin 4) where
  toCommittee := Sample.committee
  sorted := by decide

def Sample.header : Header (Fin 4) ℕ where
  author := 0
  round := 1
  epoch := 0
  createdAt := 0
  payload := []
  parents := []
  digest := 7
  signature := []

/-- Three of four authorities vote, one of them twice. -/
theorem SignedCertificate.signers_round_trip_sample :
    ∃ certificate, new (fun sigs => some sigs.flatten) Sample.committee Sample.header
        [(3, [3]), (0, [0]), (3, [3]), (2, [2])] = .ok certificate ∧
      certificate.signedBy Sample.committee = (3, [0, 2, 3]) := by
  obtain ⟨hiff, hcertifies⟩ := signers_round_trip (fun sigs => some sigs.flatten)
    Sample.orderedCommittee (by decide) Sample.header [(3, [3]), (0, [0]), (3, [3]), (2, [2])]
    (by decide) (fun _ _ _ => rfl)
  obtain ⟨certificate, h⟩ := hiff.mpr (by decide)
  exact ⟨certificate, h, Prod.ext (hcertifies certificate h).stake
    (hcertifies certificate h).signers⟩

/-- The total stake wraps around to zero. -/
def Sample.halves : Committee (Fin 4) where
  authorities := [⟨0, ⟨2 ^ 63, [0]⟩⟩, ⟨1, ⟨2 ^ 63, [1]⟩⟩].toAList
  epoch := 0

/-- The votes of all authorities make no certificate, since their stake wraps around to zero. -/
theorem SignedCertificate.overflow_refuses_votes :
    let votes : List (Fin 4 × Signature) := [(0, [0]), (1, [1])]
    Sample.halves.authorities.keys.Pairwise (· < ·) ∧
      (∀ vote ∈ votes, vote.1 ∈ Sample.halves.roster) ∧
      Sample.halves.quorumThreshold ≤ voterStake Sample.halves (votes.map Prod.fst) ∧
      ¬∃ certificate, new (fun sigs => some sigs.flatten) Sample.halves Sample.header votes =
        .ok certificate := by
  intro votes
  refine ⟨by decide, by decide, by decide, fun ⟨certificate, h⟩ => ?_⟩
  have hweight : ¬Sample.halves.quorumThreshold ≤ (mergeVotes Sample.halves votes).2.weight := by
    decide +kernel
  exact hweight (found_of_new h).2

/-! ## The aggregation of votes -/

/-- The author and the signature of a vote for a header. -/
structure Vote (K : Type) where
  author : K
  signature : Signature

/-- Aggregates votes for a particular header into a certificate. -/
structure VotesAggregator (K : Type) where
  weight : ℕ
  votes : List (K × Signature)
  used : Finset K

namespace VotesAggregator

open SignedCertificate (voterStake)

def new : VotesAggregator K := ⟨0, [], ∅⟩

/-- The weight is reset when a quorum is reached, whether or not the votes make a certificate. -/
def append (aggregate : List Signature → Option Signature) (committee : Committee K)
    (header : Header K D) (aggregator : VotesAggregator K) (vote : Vote K) :
    Except (DagError K D) (Option (SignedCertificate K D)) × VotesAggregator K :=
  if vote.author ∈ aggregator.used then (.error (.authorityReuse vote.author), aggregator)
  else
    let used := insert vote.author aggregator.used
    let votes := aggregator.votes ++ [(vote.author, vote.signature)]
    let weight := (aggregator.weight + committee.stake vote.author) % 2 ^ 64
    if committee.quorumThreshold ≤ weight then
      ((SignedCertificate.new aggregate committee header votes).map some, ⟨0, votes, used⟩)
    else (.ok none, ⟨weight, votes, used⟩)

/-- The answers to a sequence of votes, each with its vote. -/
def appendAll (aggregate : List Signature → Option Signature) (committee : Committee K)
    (header : Header K D) (votes : List (Vote K)) :
    List (Vote K × Except (DagError K D) (Option (SignedCertificate K D))) × VotesAggregator K :=
  votes.foldl (fun acc vote =>
    let answer := acc.2.append aggregate committee header vote
    (acc.1 ++ [(vote, answer.1)], answer.2)) ([], new)

/-- The stake of the distinct authors of the votes. -/
def seenStake (committee : Committee K) (votes : List (Vote K)) : ℕ :=
  voterStake committee (votes.map Vote.author)

/-- The right answer to a vote after others: an error to an author seen before, a certificate of all
authors seen when they reach the quorum, and nothing otherwise. -/
def Answered (committee : OrderedCommittee K) (header : Header K D) (before : List (Vote K))
    (vote : Vote K) (answer : Except (DagError K D) (Option (SignedCertificate K D))) : Prop :=
  if vote.author ∈ before.map Vote.author then answer = .error (.authorityReuse vote.author)
  else if seenStake committee.toCommittee before < committee.quorumThreshold ∧
      committee.quorumThreshold ≤ seenStake committee.toCommittee (before ++ [vote]) then
    ∃ certificate, answer = .ok (some certificate) ∧ certificate.header = header ∧
      ∀ name, name ∈ (certificate.signedBy committee.toCommittee).2 ↔
        name ∈ (before ++ [vote]).map Vote.author
  else answer = .ok none

/-- Whether an answer is a certificate. -/
def certified : Except (DagError K D) (Option (SignedCertificate K D)) → Bool
  | .ok (some _) => true
  | _ => false

/-- What the aggregator keeps of the votes. Below the quorum its weight is their stake, and then at
most what their stake exceeds the quorum by. -/
structure Seen (committee : Committee K) (votes : List (Vote K)) (aggregator : VotesAggregator K) :
    Prop where
  used : ∀ name, name ∈ aggregator.used ↔ name ∈ votes.map Vote.author
  authors : ∀ name, name ∈ aggregator.votes.map Prod.fst ↔ name ∈ votes.map Vote.author
  nodup : (aggregator.votes.map Prod.fst).Nodup
  sigs : aggregator.votes.map Prod.snd ⊆ votes.map Vote.signature
  below : seenStake committee votes < committee.quorumThreshold →
    aggregator.weight = seenStake committee votes
  above : committee.quorumThreshold ≤ seenStake committee votes →
    aggregator.weight + committee.quorumThreshold ≤ seenStake committee votes

section Step

variable {committee : Committee K} {before : List (Vote K)} {vote : Vote K}

theorem seenStake_concat_of_mem (committee : Committee K)
    (h : vote.author ∈ before.map Vote.author) :
    seenStake committee (before ++ [vote]) = seenStake committee before := by
  rw [seenStake, seenStake, voterStake, voterStake, List.map_append, List.toFinset_append]
  congr 1
  apply Finset.union_eq_left.mpr
  simpa using h

theorem seenStake_concat_of_not_mem (committee : Committee K)
    (h : vote.author ∉ before.map Vote.author) :
    seenStake committee (before ++ [vote]) =
      seenStake committee before + committee.stake vote.author := by
  rw [seenStake, seenStake, voterStake, voterStake, List.map_append, List.toFinset_append,
    Finset.sum_union (by simpa using h)]
  simp

theorem seenStake_lt (htotal : 2 * committee.allStake < 2 ^ 64) (votes : List (Vote K)) :
    seenStake committee votes < 2 * committee.quorumThreshold ∧
      seenStake committee votes < 2 ^ 64 := by
  have hle : seenStake committee votes ≤ committee.allStake :=
    committee.sum_stake_le (votes.map Vote.author).toFinset
  have hlt := Committee.allStake_add_lt_quorum_add_quorum htotal
  omega

theorem Seen.record {aggregator : VotesAggregator K} (h : Seen committee before aggregator)
    (hnew : vote.author ∉ before.map Vote.author) {weight : ℕ}
    (hbelow : seenStake committee (before ++ [vote]) < committee.quorumThreshold →
      weight = seenStake committee (before ++ [vote]))
    (habove : committee.quorumThreshold ≤ seenStake committee (before ++ [vote]) →
      weight + committee.quorumThreshold ≤ seenStake committee (before ++ [vote])) :
    Seen committee (before ++ [vote])
      ⟨weight, aggregator.votes ++ [(vote.author, vote.signature)],
        insert vote.author aggregator.used⟩ where
  used name := by
    rw [Finset.mem_insert, h.used, List.map_append, List.mem_append, or_comm]
    exact or_congr_right List.mem_singleton.symm
  authors name := by
    rw [List.map_append, List.mem_append, h.authors, List.map_append, List.mem_append]
    rfl
  nodup := by
    rw [List.map_append, List.nodup_append]
    refine ⟨h.nodup, List.nodup_singleton _, ?_⟩
    rintro name hname _ hauthor rfl
    rw [h.authors] at hname
    have heq : name = vote.author := List.mem_singleton.mp hauthor
    exact hnew (heq ▸ hname)
  sigs := by
    rw [List.map_append, List.map_append]
    exact List.append_subset.mpr ⟨List.Subset.trans h.sigs (List.subset_append_left _ _),
      List.subset_append_right _ _⟩
  below := hbelow
  above := habove

end Step

section Run

variable {aggregate : List Signature → Option Signature} {committee : OrderedCommittee K}
  {header : Header K D} {before : List (Vote K)} {vote : Vote K} {aggregator : VotesAggregator K}

/-- The recorded votes make a certificate of all authors seen, once they hold a quorum. -/
theorem Seen.certificate (header : Header K D) (htotal : 2 * committee.allStake < 2 ^ 64)
    (h : Seen committee.toCommittee before aggregator)
    (hmem : ∀ v ∈ before, v.author ∈ committee.roster)
    (haggregate : SignedCertificate.Aggregates aggregate (before.map Vote.signature))
    (hquorum : committee.quorumThreshold ≤ seenStake committee.toCommittee before) :
    ∃ certificate : SignedCertificate K D,
      SignedCertificate.new aggregate committee.toCommittee header aggregator.votes =
        .ok certificate ∧ certificate.header = header ∧
      ∀ name, name ∈ (certificate.signedBy committee.toCommittee).2 ↔
        name ∈ before.map Vote.author := by
  have hroster : ∀ name ∈ before.map Vote.author, name ∈ committee.roster :=
    List.forall_mem_map.mpr hmem
  have hstake : voterStake committee.toCommittee (aggregator.votes.map Prod.fst) =
      seenStake committee.toCommittee before := by
    rw [seenStake, voterStake, voterStake]
    congr 1
    ext name
    rw [List.mem_toFinset, List.mem_toFinset, h.authors]
  obtain ⟨certificate, hnew, hcertifies⟩ := SignedCertificate.new_of_quorum header (by omega)
    (fun v hv w hw => List.inj_on_of_nodup_map h.nodup hv hw)
    (fun v hv => hroster _ ((h.authors _).mp (List.mem_map_of_mem hv)))
    (fun sigs hne hsub => haggregate sigs hne (List.Subset.trans hsub h.sigs)) (hstake ▸ hquorum)
  refine ⟨certificate, hnew, hcertifies.header, fun name => ?_⟩
  rw [hcertifies.signers, List.mem_filter, decide_eq_true_eq, h.authors]
  exact ⟨And.right, fun hname => ⟨List.mem_toFinset.mp (hroster name hname), hname⟩⟩

theorem Seen.append (htotal : 2 * committee.allStake < 2 ^ 64)
    (h : Seen committee.toCommittee before aggregator)
    (hmem : ∀ v ∈ before ++ [vote], v.author ∈ committee.roster)
    (haggregate : SignedCertificate.Aggregates aggregate
      ((before ++ [vote]).map Vote.signature)) :
    Answered committee header before vote
        (aggregator.append aggregate committee.toCommittee header vote).1 ∧
      Seen committee.toCommittee (before ++ [vote])
        (aggregator.append aggregate committee.toCommittee header vote).2 := by
  rw [Answered, VotesAggregator.append]
  by_cases hused : vote.author ∈ before.map Vote.author
  · rw [if_pos hused, if_pos ((h.used _).mpr hused)]
    have hstake := seenStake_concat_of_mem committee.toCommittee hused
    have hauthors : ∀ name, name ∈ (before ++ [vote]).map Vote.author ↔
        name ∈ before.map Vote.author := by
      intro name
      rw [List.map_append, List.mem_append, or_iff_left_of_imp]
      intro hname
      exact List.mem_singleton.mp hname ▸ hused
    refine ⟨rfl, fun name => ?_, fun name => ?_, h.nodup, ?_, ?_, ?_⟩
    · rw [h.used, hauthors]
    · rw [h.authors, hauthors]
    · rw [List.map_append]
      exact List.Subset.trans h.sigs (List.subset_append_left _ _)
    · rw [hstake]
      exact h.below
    · rw [hstake]
      exact h.above
  · rw [if_neg hused, if_neg (mt (h.used _).mp hused)]
    have hstake := seenStake_concat_of_not_mem committee.toCommittee hused
    obtain ⟨hlt, hfits⟩ := seenStake_lt htotal (before ++ [vote])
    by_cases hreached : committee.quorumThreshold ≤ seenStake committee.toCommittee before
    · -- a quorum was reached before, and what has come since is below it
      have habove := h.above hreached
      rw [Nat.mod_eq_of_lt (by omega), if_neg (fun hcross => Nat.not_lt.mpr hreached hcross.1),
        if_neg (by omega)]
      exact ⟨rfl, h.record hused (fun hbelow => by omega) fun _ => by omega⟩
    · have hweight := h.below (Nat.not_le.mp hreached)
      rw [hweight, ← hstake, Nat.mod_eq_of_lt hfits]
      by_cases hquorum : committee.quorumThreshold ≤
          seenStake committee.toCommittee (before ++ [vote])
      · rw [if_pos ⟨Nat.not_le.mp hreached, hquorum⟩, if_pos hquorum]
        have hseen := h.record hused (fun hbelow => absurd hquorum (Nat.not_le.mpr hbelow))
          (fun _ => (Nat.zero_add _).trans_le hquorum)
        obtain ⟨certificate, hnew, hheader, hsigners⟩ :=
          hseen.certificate header htotal hmem haggregate hquorum
        exact ⟨⟨certificate, congrArg (Except.map some) hnew, hheader, hsigners⟩, hseen⟩
      · rw [if_neg (fun hcross => hquorum hcross.2), if_neg hquorum]
        exact ⟨rfl, h.record hused (fun _ => rfl) fun habove => absurd habove hquorum⟩

theorem appendAll_concat (votes : List (Vote K)) :
    appendAll aggregate committee.toCommittee header (votes ++ [vote]) =
      let acc := appendAll aggregate committee.toCommittee header votes
      let answer := acc.2.append aggregate committee.toCommittee header vote
      (acc.1 ++ [(vote, answer.1)], answer.2) := by
  rw [appendAll, List.foldl_append]
  rfl

theorem certified_of_answered {answer : Except (DagError K D) (Option (SignedCertificate K D))}
    (h : Answered committee header before vote answer) :
    certified answer = true ↔
      seenStake committee.toCommittee before < committee.quorumThreshold ∧
        committee.quorumThreshold ≤ seenStake committee.toCommittee (before ++ [vote]) := by
  rw [Answered] at h
  split_ifs at h with hused hcross
  · rw [h, seenStake_concat_of_mem _ hused]
    simp [certified]
  · obtain ⟨certificate, rfl, -⟩ := h
    simpa [certified] using hcross
  · rw [h]
    simpa [certified] using hcross

/-- The answers to the votes so far and the state they leave. -/
structure Answers (committee : OrderedCommittee K) (header : Header K D) (votes : List (Vote K))
    (result : List (Vote K × Except (DagError K D) (Option (SignedCertificate K D))) ×
      VotesAggregator K) : Prop where
  seen : Seen committee.toCommittee votes result.2
  inOrder : result.1.map Prod.fst = votes
  answered : EachAfter (fun before entry =>
    Answered committee header (before.map Prod.fst) entry.1 entry.2) result.1
  once : result.1.countP (fun entry => certified entry.2) =
    if committee.quorumThreshold ≤ seenStake committee.toCommittee votes then 1 else 0

theorem answers_appendAll (htotal : 2 * committee.allStake < 2 ^ 64) (header : Header K D)
    (votes : List (Vote K))
    (hmem : ∀ vote ∈ votes, vote.author ∈ committee.roster)
    (haggregate : SignedCertificate.Aggregates aggregate (votes.map Vote.signature)) :
    Answers committee header votes
      (appendAll aggregate committee.toCommittee header votes) := by
  induction votes using List.reverseRecOn with
  | nil =>
    have hzero : seenStake committee.toCommittee [] = 0 := rfl
    have hpos : 0 < committee.quorumThreshold := Nat.succ_pos _
    refine ⟨⟨fun name => by simp [appendAll, new], fun _ => Iff.rfl, List.nodup_nil,
      List.Subset.refl _, fun _ => hzero.symm, fun habove => ?_⟩, rfl, .nil, ?_⟩
    · exact absurd habove (Nat.not_le.mpr hpos)
    · rw [hzero, if_neg (Nat.not_le.mpr hpos)]
      rfl
  | append_singleton votes vote ih =>
    have hrest := ih (fun v hv => hmem v (List.mem_append_left _ hv)) fun sigs hne hsub =>
      haggregate sigs hne (List.Subset.trans hsub (by
        rw [List.map_append]
        exact List.subset_append_left _ _))
    obtain ⟨hanswer, hseen⟩ := hrest.seen.append htotal hmem haggregate
    rw [appendAll_concat]
    refine ⟨hseen, ?_, hrest.answered.concat ?_, ?_⟩
    · rw [List.map_append, hrest.inOrder]
      rfl
    · rw [hrest.inOrder]
      exact hanswer
    · -- the stake of the authors only grows, so it crosses the quorum once
      have hle : seenStake committee.toCommittee votes ≤
          seenStake committee.toCommittee (votes ++ [vote]) := by
        by_cases hused : vote.author ∈ votes.map Vote.author
        · rw [seenStake_concat_of_mem _ hused]
        · rw [seenStake_concat_of_not_mem _ hused]
          exact Nat.le_add_right _ _
      rw [List.countP_append, List.countP_singleton, hrest.once]
      simp only [certified_of_answered hanswer]
      split_ifs <;> omega

end Run

/-- Whatever the order of the votes, a repeated vote is answered with an error, and a certificate is
returned once, at the vote with which the authors first hold a quorum. Twice the total stake fits
into 64 bits. -/
theorem votes_certify_once (aggregate : List Signature → Option Signature)
    (committee : OrderedCommittee K) (htotal : 2 * committee.allStake < 2 ^ 64)
    (header : Header K D) (votes : List (Vote K))
    (hmem : ∀ vote ∈ votes, vote.author ∈ committee.roster)
    (haggregate : SignedCertificate.Aggregates aggregate (votes.map Vote.signature)) :
    let answers := (appendAll aggregate committee.toCommittee header votes).1
    answers.map Prod.fst = votes ∧
    EachAfter (fun before entry =>
      Answered committee header (before.map Prod.fst) entry.1 entry.2) answers ∧
    answers.countP (fun entry => certified entry.2) =
      if committee.quorumThreshold ≤ seenStake committee.toCommittee votes then 1 else 0 := by
  have h := answers_appendAll htotal header votes hmem haggregate
  exact ⟨h.inOrder, h.answered, h.once⟩

/-- All four authorities vote, the first one twice. -/
theorem votes_certify_once_sample :
    (appendAll (fun sigs => some sigs.flatten) Sample.committee Sample.header
      [⟨1, [1]⟩, ⟨1, [1]⟩, ⟨0, [0]⟩, ⟨3, [3]⟩, ⟨2, [2]⟩]).1.countP
        (fun entry => certified entry.2) = 1 :=
  (votes_certify_once (fun sigs => some sigs.flatten) Sample.orderedCommittee (by decide)
    Sample.header [⟨1, [1]⟩, ⟨1, [1]⟩, ⟨0, [0]⟩, ⟨3, [3]⟩, ⟨2, [2]⟩] (by decide)
    (fun _ _ _ => rfl)).2.2.trans (by decide)

/-- Each of three votes is answered with a certificate, since twice the total stake wraps around. -/
theorem overflow_certifies_thrice :
    let votes : List (Vote (Fin 4)) := [⟨0, [0]⟩, ⟨1, [1]⟩, ⟨2, [2]⟩]
    Sample.overflowing.authorities.keys.Pairwise (· < ·) ∧
      (∀ vote ∈ votes, vote.author ∈ Sample.overflowing.roster) ∧
      (appendAll (fun sigs => some sigs.flatten) Sample.overflowing Sample.header
        votes).1.countP (fun entry => certified entry.2) = 3 :=
  ⟨by decide, by decide, by decide +kernel⟩

end VotesAggregator

end Narwhal

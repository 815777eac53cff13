import Mathlib.Order.Interval.Finset.Nat
import NarwhalGeth.Clique.Recents

/-!
# The signer set

The votes on an address are by different current signers and ask for the same change, so a signer is
removed by more than half of the signers. The only way to an empty signer set is that the last
signer removes itself. As long as there is a signer, one of them has not signed a recent block, and
the chain can be extended.
-/

namespace Clique

variable {H : Type} {change : Address → Bool} {tally : Assoc Address Tally} {count : Address → ℕ}

namespace Voting

variable {config : Config H} {header : Header H} {v v' : Voting} {number : ℕ}
  {signer address : Address} {authorize : Bool} {votes : List Vote}

/-! ## The tally counts the votes -/

/-- The tally has the given count of each address. -/
def Counts (tally : Assoc Address Tally) (change : Address → Bool) (count : Address → ℕ) : Prop :=
  ∀ address, tally.lookup address =
    if count address = 0 then none else some ⟨change address, count address⟩

/-- The number of votes on an address. -/
def votesOn (votes : List Vote) (address : Address) : ℕ :=
  votes.countP fun vote => vote.address = address

/-- The votes are by different current signers, each asks for a change, and the tally counts
them. -/
structure Counted (v : Voting) : Prop where
  signers : ∀ vote ∈ v.votes, vote.signer ∈ v.signers
  distinct : v.votes.Pairwise fun vote vote' =>
    vote.signer = vote'.signer → vote.address ≠ vote'.address
  change : ∀ vote ∈ v.votes, vote.authorize = decide (vote.address ∉ v.signers)
  tally : Counts v.tally (fun address => decide (address ∉ v.signers)) (votesOn v.votes)

theorem Counted.withRecents (h : v.Counted) (recents : Assoc ℕ Address) :
    Counted { v with recents } :=
  ⟨h.signers, h.distinct, h.change, h.tally⟩

theorem validVote_iff : v.validVote address authorize = true ↔
    authorize = decide (address ∉ v.signers) := by
  by_cases haddress : address ∈ v.signers <;> cases authorize <;> simp [validVote, haddress]

theorem votesOn_append (votes votes' : List Vote) (address : Address) :
    votesOn (votes ++ votes') address = votesOn votes address + votesOn votes' address :=
  List.countP_append

theorem votesOn_pos_of_mem {vote : Vote} (h : vote ∈ votes) : 0 < votesOn votes vote.address :=
  List.countP_pos_iff.mpr ⟨vote, h, by simp⟩

theorem votesOn_filter_address (votes : List Vote) (address other : Address) :
    votesOn (votes.filter fun vote => vote.address ≠ address) other =
      if other = address then 0 else votesOn votes other := by
  unfold votesOn
  rw [List.countP_filter]
  split_ifs with h
  · rw [List.countP_eq_zero]
    intro vote _ hvote
    simp [h] at hvote
  · refine List.countP_congr fun vote _ => ?_
    simp only [Bool.and_eq_true, decide_eq_true_eq, ne_eq]
    exact ⟨fun hvote => hvote.1, fun hvote => ⟨hvote, fun heq => h (hvote.symm.trans heq)⟩⟩

theorem Counts.congr {count' : Address → ℕ} (h : Counts tally change count)
    (heq : ∀ address, count address = count' address) : Counts tally change count' := by
  intro address
  rw [h, heq]

theorem Counts.uncast (h : Counts v.tally change count) (hpos : 0 < count address) :
    Counts (v.uncast address (change address)).tally change
      (Function.update count address (count address - 1)) := by
  have hlookup : v.tally.lookup address = some ⟨change address, count address⟩ := by
    rw [h, if_neg hpos.ne']
  intro other
  rw [Voting.uncast, hlookup]
  dsimp only
  rw [if_neg (not_not.mpr rfl)]
  by_cases hother : other = address
  · subst hother
    rw [Function.update_self]
    split_ifs with hmany hone hone
    · omega
    · rw [AList.lookup_insert]
    · rw [AList.lookup_erase]
    · omega
  · rw [Function.update_of_ne hother, ← h other]
    split_ifs
    · rw [AList.lookup_insert_ne hother]
    · rw [AList.lookup_erase_ne hother]

theorem Counts.foldl_uncast (votes : List Vote) (h : Counts v.tally change count)
    (hvotes : ∀ vote ∈ votes, vote.authorize = change vote.address)
    (hle : ∀ address, votesOn votes address ≤ count address) :
    Counts (votes.foldl (fun v vote => v.uncast vote.address vote.authorize) v).tally change
      fun address => count address - votesOn votes address := by
  induction votes generalizing v count with
  | nil => simpa [votesOn] using h
  | cons vote votes ih =>
    have hcons : ∀ address, votesOn (vote :: votes) address =
        votesOn votes address + if vote.address = address then 1 else 0 := by
      intro address
      simp [votesOn, List.countP_cons]
    have hpos : 0 < count vote.address :=
      (votesOn_pos_of_mem List.mem_cons_self).trans_le (hle vote.address)
    have hfirst := h.uncast hpos
    rw [← hvotes vote List.mem_cons_self] at hfirst
    have hrest := ih hfirst (fun x hx => hvotes x (List.mem_cons_of_mem _ hx)) fun address => by
      have hbound := hle address
      rw [hcons] at hbound
      by_cases haddress : address = vote.address
      · subst haddress
        rw [Function.update_self]
        rw [if_pos rfl] at hbound
        omega
      · rw [Function.update_of_ne haddress]
        omega
    refine hrest.congr fun address => ?_
    rw [hcons]
    by_cases haddress : address = vote.address
    · subst haddress
      rw [Function.update_self, if_pos rfl, Nat.sub_sub, Nat.add_comm 1]
    · rw [Function.update_of_ne haddress, if_neg (Ne.symm haddress), Nat.add_zero]

namespace Counted

section

variable (h : v.Counted)

include h

theorem discardVote (signer address : Address) :
    (v.discardVote signer address).Counted ∧
      ∀ vote ∈ (v.discardVote signer address).votes,
        vote.signer = signer → vote.address ≠ address := by
  unfold Voting.discardVote
  cases hfind : v.votes.find? fun vote => vote.signer = signer ∧ vote.address = address with
  | none =>
    refine ⟨h, fun vote hvote hsigner haddress => ?_⟩
    have hnot := List.find?_eq_none.mp hfind vote hvote
    simp [hsigner, haddress] at hnot
  | some vote =>
    obtain ⟨hmatch, front, back, hsplit, hfront⟩ := List.find?_eq_some_iff_append.mp hfind
    obtain ⟨rfl, rfl⟩ : vote.signer = signer ∧ vote.address = address := by simpa using hmatch
    have hother : ∀ x ∈ front,
        ¬ decide (x.signer = vote.signer ∧ x.address = vote.address) = true :=
      fun x hx => by simpa only [Bool.not_eq_true', Bool.not_eq_true] using hfront x hx
    have herase : v.votes.eraseP (fun x => x.signer = vote.signer ∧ x.address = vote.address) =
        front ++ back := by
      rw [hsplit, List.eraseP_append_right _ hother, List.eraseP_cons_of_pos (by simp)]
    have hsub : (front ++ back).Sublist v.votes := by
      rw [hsplit]
      exact (List.sublist_cons_self vote back).append_left front
    have hmem : vote ∈ v.votes := List.mem_of_find?_eq_some hfind
    obtain ⟨hsigners, hrecents, -⟩ := v.uncast_frame vote.address vote.authorize
    dsimp only
    rw [herase]
    constructor
    · constructor
      · exact fun x hx => hsigners ▸ h.signers x (hsub.subset hx)
      · exact h.distinct.sublist hsub
      · exact fun x hx => hsigners ▸ h.change x (hsub.subset hx)
      · have htally := h.tally.uncast (votesOn_pos_of_mem hmem)
        rw [← h.change vote hmem] at htally
        dsimp only
        rw [hsigners]
        refine htally.congr fun other => ?_
        rw [hsplit, votesOn_append, votesOn_append]
        by_cases hother : other = vote.address
        · subst hother
          simp [votesOn]
        · rw [Function.update_of_ne hother, votesOn_append]
          simp [votesOn, Ne.symm hother]
    · intro x hx hsigner haddress
      rcases List.mem_append.mp hx with hx | hx
      · have hnot := hfront x hx
        simp [hsigner, haddress] at hnot
      · have hdistinct := h.distinct
        rw [hsplit] at hdistinct
        have hlater := (List.pairwise_cons.mp (List.pairwise_append.mp hdistinct).2.1).1 x hx
        exact hlater hsigner.symm haddress.symm

theorem addVote (number : ℕ) (authorize : Bool) (hsigner : signer ∈ v.signers)
    (hnew : ∀ vote ∈ v.votes, vote.signer = signer → vote.address ≠ address) :
    (v.addVote signer number address authorize).Counted := by
  unfold Voting.addVote Voting.cast
  by_cases hvalid : v.validVote address authorize = true
  · rw [if_pos hvalid]
    have hchange := validVote_iff.mp hvalid
    dsimp only
    rw [if_pos rfl]
    constructor
    · intro vote hvote
      rcases List.mem_append.mp hvote with hvote | hvote
      · exact h.signers vote hvote
      · rw [List.mem_singleton.mp hvote]
        exact hsigner
    · refine List.pairwise_append.mpr ⟨h.distinct, List.pairwise_singleton _ _, ?_⟩
      intro vote hvote vote' hvote' heq
      rw [List.mem_singleton.mp hvote'] at heq ⊢
      exact hnew vote hvote heq
    · intro vote hvote
      rcases List.mem_append.mp hvote with hvote | hvote
      · exact h.change vote hvote
      · rw [List.mem_singleton.mp hvote]
        exact hchange
    · intro other
      have hcount : votesOn (v.votes ++ [⟨signer, number, address, authorize⟩]) other =
          votesOn v.votes other + if address = other then 1 else 0 := by
        rw [votesOn_append]
        simp [votesOn, List.countP_cons]
      have hold := h.tally address
      dsimp only
      rw [hcount]
      by_cases hother : other = address
      · subst hother
        rw [if_pos rfl, if_neg (Nat.succ_ne_zero _)]
        by_cases hzero : votesOn v.votes other = 0
        · rw [if_pos hzero] at hold
          rw [hold, AList.lookup_insert, hzero, hchange]
        · rw [if_neg hzero] at hold
          rw [hold, AList.lookup_insert]
      · have hkept : ∀ tally, (v.tally.insert address tally).lookup other = v.tally.lookup other :=
          fun tally => AList.lookup_insert_ne hother
        rw [if_neg (Ne.symm hother), Nat.add_zero, ← h.tally other]
        cases v.tally.lookup address <;> exact hkept _
  · rw [if_neg hvalid]
    exact h

theorem forget {signers : Finset Address} (recents : Assoc ℕ Address)
    (hsame : ∀ other, other ≠ address → (other ∈ signers ↔ other ∈ v.signers))
    (hsub : votes.Sublist v.votes) (hsigners : ∀ vote ∈ votes, vote.signer ∈ signers)
    (htally : Counts tally (fun address => decide (address ∉ v.signers)) (votesOn votes)) :
    Counted ⟨signers, recents, votes.filter fun vote => vote.address ≠ address,
      tally.erase address⟩ := by
  have hmem : ∀ vote ∈ votes.filter fun vote => vote.address ≠ address,
      vote ∈ votes ∧ vote.address ≠ address := fun vote hvote => by
    simpa using List.mem_filter.mp hvote
  constructor
  · exact fun vote hvote => hsigners vote (hmem vote hvote).1
  · exact (h.distinct.sublist hsub).filter _
  · intro vote hvote
    obtain ⟨hvote, hne⟩ := hmem vote hvote
    simp only [hsame vote.address hne]
    exact h.change vote (hsub.subset hvote)
  · intro other
    dsimp only
    rw [votesOn_filter_address]
    by_cases hother : other = address
    · rw [hother, AList.lookup_erase, if_pos rfl, if_pos rfl]
    · rw [AList.lookup_erase_ne hother, htally, if_neg hother]
      simp only [hsame other hother]

theorem settle (number : ℕ) (address : Address) : (v.settle number address).Counted := by
  unfold Voting.settle
  dsimp only
  split_ifs with hpassed hauthorize
  · refine h.forget v.recents (fun other hother => ?_) (List.Sublist.refl _) (fun vote hvote => ?_)
      h.tally
    · rw [Finset.mem_insert, or_iff_right hother]
    · exact Finset.mem_insert_of_mem (h.signers vote hvote)
  · set shrunk := shiftRecents number { v with signers := v.signers.erase address }
    obtain ⟨hsigners, hvotes, htally⟩ :=
      shiftRecents_frame number { v with signers := v.signers.erase address }
    have herased : (discardVotesOf address shrunk).signers = v.signers.erase address :=
      (discardVotesOf_frame address shrunk).1.trans hsigners
    have hkept : (discardVotesOf address shrunk).votes =
        v.votes.filter fun vote => vote.signer ≠ address :=
      congrArg (List.filter _) hvotes
    have hcounts : Counts (discardVotesOf address shrunk).tally
        (fun other => decide (other ∉ v.signers))
        (votesOn (v.votes.filter fun vote => vote.signer ≠ address)) := by
      -- The votes of the removed signer are part of the count.
      have hsplit : ∀ other, votesOn v.votes other =
          votesOn (v.votes.filter fun vote => vote.signer = address) other +
            votesOn (v.votes.filter fun vote => vote.signer ≠ address) other := by
        intro other
        have hcount := List.countP_eq_countP_filter_add v.votes
          (fun vote => decide (vote.address = other)) fun vote => decide (vote.signer = address)
        simpa [votesOn] using hcount
      have hshrunk : Counts shrunk.tally (fun other => decide (other ∉ v.signers))
          (votesOn v.votes) := htally.symm ▸ h.tally
      have hfold := hshrunk.foldl_uncast (v.votes.filter fun vote => vote.signer = address)
        (fun vote hvote => h.change vote (List.mem_of_mem_filter hvote))
        (fun other => by rw [hsplit]; exact Nat.le_add_right _ _)
      unfold discardVotesOf
      dsimp only
      rw [show shrunk.votes = v.votes from hvotes]
      refine hfold.congr fun other => ?_
      rw [hsplit, Nat.add_sub_cancel_left]
    rw [herased, hkept]
    refine h.forget _ (fun other hother => ?_) List.filter_sublist (fun vote hvote => ?_) hcounts
    · rw [Finset.mem_erase, and_iff_right hother]
    · obtain ⟨hmem, hne⟩ := List.mem_filter.mp hvote
      exact Finset.mem_erase.mpr ⟨by simpa using hne, h.signers vote hmem⟩
  · exact h

theorem expire (config : Config H) (number : ℕ) : (v.expire config number).Counted := by
  have hreset : (v.reset config number).Counted := by
    unfold reset
    split_ifs
    · exact ⟨nofun, .nil, nofun, fun _ => rfl⟩
    · exact h
  obtain ⟨hsigners, hvotes, htally⟩ := shiftRecents_frame number (v.reset config number)
  refine ⟨?_, ?_, ?_, ?_⟩ <;> simp only [Voting.expire, hsigners, hvotes, htally]
  · exact hreset.signers
  · exact hreset.distinct
  · exact hreset.change
  · exact hreset.tally

theorem vote (number : ℕ) (authorize : Bool) (address : Address) (hsigner : signer ∈ v.signers) :
    (v.vote signer number address authorize).Counted := by
  obtain ⟨hdiscard, hnew⟩ := h.discardVote signer address
  refine (hdiscard.addVote number authorize ?_ hnew).settle number address
  rw [(v.discardVote_frame signer address).1]
  exact hsigner

theorem applyHeader (happly : v.applyHeader config header = .ok v') : v'.Counted := by
  obtain ⟨signer, authorize, -, hsigner, -, -, rfl⟩ := applyHeader_eq_ok happly
  have hexpired := h.expire config header.number
  have hmember : signer ∈ (v.expire config header.number).signers := by
    rwa [expire_signers]
  generalize v.expire config header.number = expired at hexpired hmember ⊢
  have hready := hexpired.withRecents (expired.recents.insert header.number signer)
  exact hready.vote header.number authorize header.coinbase hmember

end

end Counted

/-! ## The last signer -/

theorem settle_signers (number : ℕ) (address : Address) (v : Voting) :
    (v.settle number address).signers =
      let tally := (v.tally.lookup address).getD ⟨false, 0⟩
      if v.signers.card / 2 < tally.votes then
        if tally.authorize then insert address v.signers else v.signers.erase address
      else v.signers := by
  unfold settle
  dsimp only
  split_ifs
  · rfl
  · exact (discardVotesOf_frame address _).1.trans (shiftRecents_frame number _).1
  · rfl

/-- A vote empties the signer set exactly if the only signer votes to drop itself. -/
theorem Counted.vote_signers_eq_empty_iff (h : v.Counted) (hsigner : signer ∈ v.signers) :
    (v.vote signer number address authorize).signers = ∅ ↔
      v.signers = {signer} ∧ address = signer ∧ authorize = false := by
  obtain ⟨hdiscard, hnew⟩ := h.discardVote signer address
  obtain ⟨hsigners, -⟩ := v.discardVote_frame signer address
  have hmember : signer ∈ (v.discardVote signer address).signers := hsigners ▸ hsigner
  have hcounted := hdiscard.addVote number authorize hmember hnew
  obtain ⟨hsigners', -⟩ :=
    (v.discardVote signer address).addVote_frame signer number address authorize
  have htally := hcounted.tally address
  rw [Voting.vote, settle_signers, hsigners'.trans hsigners]
  rw [hsigners'.trans hsigners] at htally
  dsimp only
  constructor
  · intro hempty
    have hne : v.signers ≠ ∅ := Finset.ne_empty_of_mem hsigner
    split_ifs at hempty with hpassed hauthorize
    · exact absurd hempty (Finset.insert_ne_empty _ _)
    · have hsub : ∀ other ∈ v.signers, other = address := fun other hother => by
        by_contra hother'
        exact Finset.notMem_empty other (hempty ▸ Finset.mem_erase.mpr ⟨hother', hother⟩)
      obtain rfl := hsub signer hsigner
      refine ⟨Finset.eq_singleton_iff_unique_mem.mpr ⟨hsigner, hsub⟩, rfl, ?_⟩
      -- A vote to add the signer again is not cast, and there is no other vote on it.
      by_contra htrue
      have hinvalid : ¬ (v.discardVote signer signer).validVote signer authorize = true := by
        rw [validVote_iff, hsigners]
        simpa [hsigner] using htrue
      have hsame : (v.discardVote signer signer).addVote signer number signer authorize =
          v.discardVote signer signer := by
        rw [Voting.addVote, Voting.cast, if_neg hinvalid]
        rfl
      have hzero : votesOn (v.discardVote signer signer).votes signer = 0 := by
        refine List.countP_eq_zero.mpr fun vote hvote haddress => ?_
        have hvoter := hsub vote.signer (hsigners ▸ hdiscard.signers vote hvote)
        exact hnew vote hvote hvoter (by simpa using haddress)
      rw [hsame, hzero, if_pos rfl] at htally
      rw [hsame, htally] at hpassed
      exact absurd hpassed (Nat.not_lt_zero _)
    · exact absurd hempty hne
  · rintro ⟨hsole, rfl, rfl⟩
    have hvalid : (v.discardVote address address).validVote address false = true := by
      rw [validVote_iff, hsigners]
      simp [hsigner]
    have hvote : ⟨address, number, address, false⟩ ∈
        ((v.discardVote address address).addVote address number address false).votes := by
      rw [Voting.addVote, Voting.cast, if_pos hvalid]
      exact List.mem_append_right _ (List.mem_singleton_self _)
    have hpos := votesOn_pos_of_mem hvote
    rw [if_neg hpos.ne'] at htally
    rw [htally, Option.getD_some, if_pos, if_neg]
    · rw [hsole, Finset.erase_singleton]
    · simp [hsigner]
    · rw [hsole, Finset.card_singleton]
      exact hpos

/-- The only signer drops itself. -/
def SoleDrop (config : Config H) (v : Voting) (header : Header H) : Prop :=
  ∃ signer, ecrecover config header = .ok signer ∧ v.signers = {signer} ∧
    header.coinbase = signer ∧ header.nonce = nonceDropVote

theorem authorizes_eq_false {nonce : UInt64} :
    authorizes nonce = some false ↔ nonce = nonceDropVote := by
  unfold authorizes
  split_ifs with hauth hdrop
  · subst hauth
    decide
  · simp [hdrop]
  · simp [hdrop]

theorem Counted.applyHeader_signers_eq_empty_iff (h : v.Counted)
    (happly : v.applyHeader config header = .ok v') :
    v'.signers = ∅ ↔ v.SoleDrop config header := by
  obtain ⟨signer, authorize, hrecover, hsigner, -, hnonce, rfl⟩ := applyHeader_eq_ok happly
  have hexpired := h.expire config header.number
  have hsigners := expire_signers config header.number v
  generalize v.expire config header.number = expired at hexpired hsigners ⊢
  have hready := hexpired.withRecents (expired.recents.insert header.number signer)
  rw [hready.vote_signers_eq_empty_iff (hsigners ▸ hsigner)]
  change expired.signers = {signer} ∧ _ ↔ _
  rw [hsigners]
  constructor
  · rintro ⟨hsole, hself, rfl⟩
    exact ⟨signer, hrecover, hsole, hself, authorizes_eq_false.mp hnonce⟩
  · rintro ⟨signer', hrecover', hsole, hself, hdrop⟩
    obtain rfl : signer = signer' := Except.ok.inj (hrecover.symm.trans hrecover')
    refine ⟨hsole, hself, ?_⟩
    rw [authorizes_eq_false.mpr hdrop] at hnonce
    exact (Option.some.inj hnonce).symm

/-! ## A signer that may sign the next block -/

theorem Windowed.exists_signer (h : v.Windowed number) (hne : v.signers.Nonempty) :
    ∃ signer ∈ v.signers, v.mustWait (number + 1) signer = false := by
  by_contra hall
  push Not at hall
  let window := Finset.Icc (max 1 (number + 2 - v.limit)) number
  have hcover : v.signers ⊆ window.image fun seen => (v.recents.lookup seen).getD 0 := by
    intro signer hsigner
    obtain ⟨seen, hseen, hwait⟩ :=
      mustWait_iff.mp (Bool.eq_true_of_not_eq_false (hall signer hsigner))
    obtain ⟨hpos, hle, -⟩ := h seen signer hseen
    refine Finset.mem_image.mpr ⟨seen, Finset.mem_Icc.mpr ⟨?_, hle⟩, by rw [hseen]; rfl⟩
    exact max_le hpos (by omega)
  have hsize : v.signers.card ≤ number + 1 - max 1 (number + 2 - v.limit) :=
    (Finset.card_le_card hcover).trans (Finset.card_image_le.trans_eq (Nat.card_Icc _ _))
  have hpos : 0 < v.signers.card := hne.card_pos
  rw [limit] at hsize
  omega

end Voting

namespace Snapshot

variable {config : Config H} {header : Header H} {headers : List (Header H)} {snap : Snapshot H}
  {hash : H} {signers : List Address}

theorem counted_of_apply (h : (newSnapshot 0 hash signers).apply config headers = .ok snap) :
    snap.Counted :=
  apply_invariant (I := fun v _ => v.Counted) (fun _ _ _ _ hv _ hstep => hv.applyHeader hstep)
    ⟨fun _ hvote => absurd hvote List.not_mem_nil, .nil,
      fun _ hvote => absurd hvote List.not_mem_nil, fun _ => rfl⟩ h

theorem inturn_isSome (h : snap.signers.Nonempty) (number : ℕ) (signer : Address) :
    (snap.inturn number signer).isSome := by
  have hlength : snap.sortedSigners.length ≠ 0 := by
    rw [← Multiset.coe_card, Voting.coe_sortedSigners]
    exact h.card_ne_zero
  rw [Voting.inturn, if_neg hlength]
  rfl

/-- The signer set of a chain is empty exactly after a block in which the only signer drops itself.
Otherwise no turn divides by zero, and a signer need not wait whose next block can be applied. -/
theorem signers_eq_empty_iff (hgenesis : signers ≠ [])
    (hchain : (newSnapshot 0 hash signers).apply config headers = .ok snap) :
    (snap.signers = ∅ ↔ ∃ front header middle, headers = front ++ [header] ∧
      (newSnapshot 0 hash signers).apply config front = .ok middle ∧
      middle.SoleDrop config header) ∧
      (snap.signers.Nonempty → (∀ number signer, (snap.inturn number signer).isSome) ∧
        ∃ signer ∈ snap.signers, snap.mustWait (snap.number + 1) signer = false ∧
          ∀ header, header.number = snap.number + 1 → ecrecover config header = .ok signer →
            (Voting.authorizes header.nonce).isSome →
            ∃ snap', snap.apply config [header] = .ok snap') := by
  constructor
  · rcases List.eq_nil_or_concat headers with rfl | ⟨front, header, rfl⟩
    · obtain rfl := Except.ok.inj hchain
      refine iff_of_false (fun hempty => ?_) ?_
      · obtain ⟨signer, hsigner⟩ := List.exists_mem_of_ne_nil signers hgenesis
        exact Finset.notMem_empty signer (hempty ▸ List.mem_toFinset.mpr hsigner)
      · rintro ⟨front, header, middle, hnil, -⟩
        simp at hnil
    · rw [List.concat_eq_append] at hchain ⊢
      have hnumbered := (apply_eq_ok hchain).1
      rw [apply_append_of_numbered hnumbered] at hchain
      obtain ⟨middle, hmiddle, hlast⟩ := Except.eq_ok_of_bind hchain
      have hnumber := (apply_eq_ok hlast).1.1
      rw [apply_singleton hnumber] at hlast
      obtain ⟨v, hv, rfl⟩ := Except.eq_ok_of_map hlast
      change v.signers = ∅ ↔ _
      rw [(counted_of_apply hmiddle).applyHeader_signers_eq_empty_iff hv]
      constructor
      · exact fun hdrop => ⟨front, header, middle, rfl, hmiddle, hdrop⟩
      · rintro ⟨front', header', middle', hsplit, hmiddle', hdrop⟩
        obtain ⟨rfl, hheader⟩ := List.append_inj' hsplit rfl
        obtain rfl := List.singleton_inj.mp hheader
        obtain rfl := Except.ok.inj (hmiddle.symm.trans hmiddle')
        exact hdrop
  · intro hne
    obtain ⟨signer, hsigner, hwait⟩ := (windowed_of_apply hchain).exists_signer hne
    refine ⟨inturn_isSome hne, signer, hsigner, hwait, fun header hnumber hrecover hnonce => ?_⟩
    refine (apply_next hnumber hrecover hsigner).2 (fun seen hseen => ?_) hnonce
    rw [hnumber] at hseen
    have hmust := (windowed_of_apply hchain).mustWait_iff_expire.mpr ⟨seen, hseen⟩
    rw [hwait] at hmust
    cases hmust

end Snapshot

namespace Sample

/-- A local signer without proposals. -/
def author (signer : Address) : LocalSigner ℕ :=
  ⟨signer, fun _ => .ok (UInt8.ofNat signer :: List.replicate 64 0), ∅⟩

end Sample

namespace Snapshot

/-- Three signers have added a fourth one. -/
theorem signers_eq_empty_iff_sample :
    let snap := Sample.after [1, 2, 3] Sample.blocks
    snap.signers = {1, 2, 3, 4} ∧ (∀ number signer, (snap.inturn number signer).isSome) ∧
      ∃ signer ∈ snap.signers, snap.mustWait (snap.number + 1) signer = false := by
  intro snap
  have hsigners : snap.signers = {1, 2, 3, 4} := by decide +kernel
  have hchain : (newSnapshot 0 100 [1, 2, 3]).apply Sample.config Sample.blocks = .ok snap := by
    decide +kernel
  obtain ⟨hinturn, signer, hsigner, hwait, -⟩ := (signers_eq_empty_iff (List.cons_ne_nil _ _)
    hchain).2 (hsigners ▸ Finset.insert_nonempty _ _)
  exact ⟨hsigners, hinturn, signer, hsigner, hwait⟩

/-- The only signer of a chain drops itself. No block can be applied after it, and the preparation
of the next one divides by zero. -/
theorem sole_signer_drops_itself :
    let header := Sample.block 1 1 1 nonceDropVote 2
    let chain := Sample.chain (Sample.genesis [1]) [header]
    let snap := Sample.after [1] [header]
    let next := { Sample.genesis [] with parentHash := 101, number := 2 }
    (verifyHeader Sample.config chain ⟨∅, ∅⟩ 10 header []).1 = .ok () ∧
      (snapshot Sample.config chain ⟨∅, ∅⟩ 1 101 []).1 = .ok snap ∧ snap.signers = ∅ ∧
      (∀ block snap', snap.apply Sample.config [block] ≠ .ok snap') ∧
      (prepare Sample.config chain ⟨∅, ∅⟩ (Sample.author 1) 0 10 10 next).1 =
        .error .integerDivideByZero := by
  intro header chain snap next
  have hempty : snap.signers = ∅ := by decide +kernel
  refine ⟨by decide +kernel, by decide +kernel, hempty, fun block snap' happly => ?_,
    by decide +kernel⟩
  rw [apply_singleton (apply_eq_ok happly).1.1] at happly
  obtain ⟨v, hv, -⟩ := Except.eq_ok_of_map happly
  obtain ⟨signer, -, -, hsigner, -⟩ := Voting.applyHeader_eq_ok hv
  exact Finset.notMem_empty signer (hempty ▸ hsigner)

end Snapshot

end Clique

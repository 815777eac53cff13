import NarwhalGeth.Clique.Retrieval

/-!
# Recent signers

A signer may sign one block among as many in a row as are more than half of the signers. The rule
stands in three places: the verifier compares block numbers by an unsigned subtraction, the snapshot
deletes the signers that may sign again, and the local signer guards the subtraction. The rules
agree as soon as the block number reaches the window; before that, the subtraction wraps around.
-/

namespace Clique

variable {H : Type}

namespace Voting

variable {config : Config H} {header : Header H} {v v' : Voting} {number seen : ℕ}
  {signer address : Address}

/-! ## What each part of a step keeps -/

theorem uncast_frame (v : Voting) (address : Address) (authorize : Bool) :
    (v.uncast address authorize).signers = v.signers ∧
      (v.uncast address authorize).recents = v.recents ∧
      (v.uncast address authorize).votes = v.votes := by
  unfold uncast
  split
  · exact ⟨rfl, rfl, rfl⟩
  · split_ifs <;> exact ⟨rfl, rfl, rfl⟩

theorem foldl_uncast_frame (votes : List Vote) (v : Voting) :
    (votes.foldl (fun v vote => v.uncast vote.address vote.authorize) v).signers = v.signers ∧
      (votes.foldl (fun v vote => v.uncast vote.address vote.authorize) v).recents =
        v.recents := by
  induction votes generalizing v with
  | nil => exact ⟨rfl, rfl⟩
  | cons vote votes ih =>
    obtain ⟨hsigners, hrecents, -⟩ := v.uncast_frame vote.address vote.authorize
    obtain ⟨hsigners', hrecents'⟩ := ih (v.uncast vote.address vote.authorize)
    exact ⟨hsigners'.trans hsigners, hrecents'.trans hrecents⟩

theorem reset_frame (config : Config H) (number : ℕ) (v : Voting) :
    (v.reset config number).signers = v.signers ∧
      (v.reset config number).recents = v.recents := by
  unfold reset
  split_ifs <;> exact ⟨rfl, rfl⟩

theorem shiftRecents_frame (number : ℕ) (v : Voting) :
    (v.shiftRecents number).signers = v.signers ∧ (v.shiftRecents number).votes = v.votes ∧
      (v.shiftRecents number).tally = v.tally := by
  unfold shiftRecents
  split_ifs <;> exact ⟨rfl, rfl, rfl⟩

theorem expire_signers (config : Config H) (number : ℕ) (v : Voting) :
    (v.expire config number).signers = v.signers :=
  (shiftRecents_frame number _).1.trans (reset_frame config number v).1

theorem discardVote_frame (signer address : Address) (v : Voting) :
    (v.discardVote signer address).signers = v.signers ∧
      (v.discardVote signer address).recents = v.recents := by
  unfold discardVote
  split
  · exact ⟨rfl, rfl⟩
  · rename_i vote _
    exact ⟨(v.uncast_frame vote.address vote.authorize).1,
      (v.uncast_frame vote.address vote.authorize).2.1⟩

theorem addVote_frame (signer : Address) (number : ℕ) (address : Address) (authorize : Bool)
    (v : Voting) :
    (v.addVote signer number address authorize).signers = v.signers ∧
      (v.addVote signer number address authorize).recents = v.recents := by
  unfold addVote cast
  dsimp only
  split_ifs <;> exact ⟨rfl, rfl⟩

theorem discardVotesOf_frame (signer : Address) (v : Voting) :
    (v.discardVotesOf signer).signers = v.signers ∧
      (v.discardVotesOf signer).recents = v.recents :=
  foldl_uncast_frame _ v

/-- Only a vote that passes changes the signers, and only a signer that is removed shifts the recent
ones. -/
theorem settle_cases (number : ℕ) (address : Address) (v : Voting) :
    v.settle number address = v ∨
      (v.settle number address).signers = insert address v.signers ∧
        (v.settle number address).recents = v.recents ∨
      (v.settle number address).signers = v.signers.erase address ∧
        (v.settle number address).recents =
          (shiftRecents number { v with signers := v.signers.erase address }).recents := by
  unfold settle
  dsimp only
  split_ifs with hpassed hauthorize
  · exact .inr (.inl ⟨rfl, rfl⟩)
  · obtain ⟨hsigners, hrecents⟩ := discardVotesOf_frame address
      (shiftRecents number { v with signers := v.signers.erase address })
    exact .inr (.inr ⟨hsigners.trans (shiftRecents_frame number _).1, hrecents⟩)
  · exact .inl rfl

theorem applyHeader_eq_ok (h : v.applyHeader config header = .ok v') :
    ∃ signer authorize, ecrecover config header = .ok signer ∧ signer ∈ v.signers ∧
      (∀ seen, (v.expire config header.number).recents.lookup seen ≠ some signer) ∧
      authorizes header.nonce = some authorize ∧
      v' = vote signer header.number header.coinbase authorize { v.expire config header.number with
        recents := (v.expire config header.number).recents.insert header.number signer } := by
  unfold applyHeader at h
  dsimp only at h
  split at h
  · cases h
  · rename_i signer hsigner
    split_ifs at h with hauthorized hrecent
    split at h
    · cases h
    · rename_i authorize hnonce
      rw [expire_signers] at hauthorized
      refine ⟨signer, authorize, hsigner, hauthorized, fun seen hseen => hrecent ?_, hnonce,
        (Except.ok.inj h).symm⟩
      exact List.any_eq_true.mpr ⟨⟨seen, signer⟩, Assoc.mem_entries_iff.mpr hseen, by simp⟩

/-! ## The window of recent blocks -/

/-- The recent blocks are those of the current window. -/
def Windowed (v : Voting) (number : ℕ) : Prop :=
  ∀ seen signer, v.recents.lookup seen = some signer →
    0 < seen ∧ seen ≤ number ∧ number < seen + v.limit

theorem lookup_shiftRecents (h : (v.shiftRecents number).recents.lookup seen = some signer) :
    v.recents.lookup seen = some signer ∧ (number ≤ seen + v.limit → number < seen + v.limit) := by
  unfold shiftRecents at h
  split_ifs at h with hlimit
  · by_cases hseen : seen = number - v.limit
    · subst hseen
      rw [AList.lookup_erase] at h
      cases h
    · rw [AList.lookup_erase_ne hseen] at h
      exact ⟨h, by omega⟩
  · exact ⟨h, by omega⟩

theorem limit_eq_of_signers (h : v'.signers = v.signers) : v'.limit = v.limit := by
  rw [limit, limit, h]

theorem Windowed.expire (h : v.Windowed number)
    (hseen : (v.expire config (number + 1)).recents.lookup seen = some signer) :
    v.recents.lookup seen = some signer ∧ number + 1 < seen + v.limit := by
  obtain ⟨hsigners, hrecents⟩ := reset_frame config (number + 1) v
  obtain ⟨hlookup, hshift⟩ := lookup_shiftRecents hseen
  rw [limit_eq_of_signers hsigners] at hshift
  rw [hrecents] at hlookup
  obtain ⟨-, -, hwindow⟩ := h seen signer hlookup
  exact ⟨hlookup, hshift (by omega)⟩

theorem Windowed.settle (h : v.Windowed number) (address : Address) :
    (v.settle number address).Windowed number := by
  rcases v.settle_cases number address with heq | ⟨hsigners, hrecents⟩ | ⟨hsigners, hrecents⟩
  · rwa [heq]
  · intro seen signer hseen
    rw [hrecents] at hseen
    obtain ⟨hpos, hle, hwindow⟩ := h seen signer hseen
    have hgrow : v.signers.card ≤ (insert address v.signers).card :=
      Finset.card_le_card (Finset.subset_insert _ _)
    refine ⟨hpos, hle, ?_⟩
    rw [limit] at hwindow ⊢
    rw [hsigners]
    omega
  · intro seen signer hseen
    rw [hrecents] at hseen
    obtain ⟨hlookup, hshift⟩ := lookup_shiftRecents hseen
    obtain ⟨hpos, hle, hwindow⟩ := h seen signer hlookup
    -- The window shrinks by one block at most, which is shifted out.
    have hshrink : v.signers.card - 1 ≤ (v.signers.erase address).card :=
      Finset.pred_card_le_card_erase
    refine ⟨hpos, hle, ?_⟩
    rw [limit] at hwindow hshift ⊢
    rw [hsigners]
    exact hshift (by dsimp only; omega)

theorem Windowed.applyHeader (h : v.Windowed number) (hnumber : header.number = number + 1)
    (happly : v.applyHeader config header = .ok v') : v'.Windowed (number + 1) := by
  obtain ⟨signer, authorize, -, -, -, -, rfl⟩ := applyHeader_eq_ok happly
  rw [hnumber]
  refine Windowed.settle (fun seen other hseen => ?_) _
  obtain ⟨hsigners, hrecents⟩ := addVote_frame signer (number + 1) header.coinbase authorize
    (discardVote signer header.coinbase { v.expire config (number + 1) with
      recents := (v.expire config (number + 1)).recents.insert (number + 1) signer })
  obtain ⟨hsigners', hrecents'⟩ := discardVote_frame signer header.coinbase
    { v.expire config (number + 1) with
      recents := (v.expire config (number + 1)).recents.insert (number + 1) signer }
  rw [hrecents, hrecents'] at hseen
  rw [limit_eq_of_signers
    (hsigners.trans (hsigners'.trans (expire_signers config (number + 1) v)))]
  rcases Assoc.lookup_insert_cases hseen with ⟨rfl, -⟩ | hseen
  · exact ⟨Nat.succ_pos number, le_rfl, Nat.lt_add_of_pos_right (Nat.succ_pos _)⟩
  · obtain ⟨hlookup, hwindow⟩ := h.expire hseen
    obtain ⟨hpos, hle, -⟩ := h seen other hlookup
    exact ⟨hpos, hle.trans (Nat.le_succ number), hwindow⟩

end Voting

namespace Snapshot

variable {config : Config H} {header : Header H} {headers : List (Header H)}
  {snap : Snapshot H} {signer : Address} {hash : H} {signers : List Address}

theorem windowed_of_apply (h : (newSnapshot 0 hash signers).apply config headers = .ok snap) :
    snap.Windowed snap.number :=
  apply_invariant (fun _ _ _ _ hv hnumber hstep => hv.applyHeader hnumber hstep)
    (fun _ _ hseen => by cases hseen) h

/-! ## The three rules -/

theorem apply_singleton (hnumber : header.number = snap.number + 1) :
    snap.apply config [header] = (snap.toVoting.applyHeader config header).map fun v =>
      ⟨v, snap.number + 1, config.hash header⟩ := by
  rw [apply_eq, if_pos ⟨hnumber, trivial⟩, List.foldlM_cons]
  cases snap.toVoting.applyHeader config header <;> rfl

/-- The next block of an authorised signer is refused if the signer is still in the window. -/
theorem apply_next (hnumber : header.number = snap.number + 1)
    (hsigner : ecrecover config header = .ok signer) (hauthorized : signer ∈ snap.signers) :
    (snap.apply config [header] = .error .recentlySigned ↔
      ∃ seen, (snap.expire config header.number).recents.lookup seen = some signer) ∧
      ((∀ seen, (snap.expire config header.number).recents.lookup seen ≠ some signer) →
        (Voting.authorizes header.nonce).isSome →
          ∃ snap', snap.apply config [header] = .ok snap') := by
  have hany : ((snap.expire config header.number).recents.entries.any fun e => e.2 = signer) =
      true ↔ ∃ seen, (snap.expire config header.number).recents.lookup seen = some signer := by
    simp only [List.any_eq_true, decide_eq_true_eq]
    constructor
    · rintro ⟨⟨seen, other⟩, hmem, rfl⟩
      exact ⟨seen, Assoc.mem_entries_iff.mp hmem⟩
    · rintro ⟨seen, hseen⟩
      exact ⟨⟨seen, signer⟩, Assoc.mem_entries_iff.mpr hseen, rfl⟩
  have hmember : ¬ signer ∉ (snap.expire config header.number).signers := by
    rw [Voting.expire_signers]
    exact not_not.mpr hauthorized
  rw [apply_singleton hnumber, Voting.applyHeader, hsigner]
  dsimp only
  rw [if_neg hmember]
  by_cases hrecent : ∃ seen, (snap.expire config header.number).recents.lookup seen = some signer
  · rw [if_pos (hany.mpr hrecent)]
    refine ⟨⟨fun _ => hrecent, fun _ => rfl⟩, fun hnone => ?_⟩
    obtain ⟨seen, hseen⟩ := hrecent
    exact absurd hseen (hnone seen)
  · rw [if_neg fun hfound => hrecent (hany.mp hfound)]
    refine ⟨⟨fun heq => ?_, fun hseen => absurd hseen hrecent⟩, fun _ hnonce => ?_⟩
    · cases hauthorize : Voting.authorizes header.nonce <;> rw [hauthorize] at heq <;> cases heq
    · obtain ⟨authorize, hauthorize⟩ := Option.isSome_iff_exists.mp hnonce
      rw [hauthorize]
      exact ⟨_, rfl⟩

end Snapshot

namespace Voting

variable {config : Config H} {v : Voting} {number : ℕ} {signer : Address}

theorem recentlySigned_iff : v.recentlySigned number signer = true ↔
    ∃ seen, v.recents.lookup seen = some signer ∧ sub64 number v.limit < seen := by
  simp only [recentlySigned, List.any_eq_true, decide_eq_true_eq]
  constructor
  · rintro ⟨⟨seen, other⟩, hmem, rfl, hlt⟩
    exact ⟨seen, Assoc.mem_entries_iff.mp hmem, hlt⟩
  · rintro ⟨seen, hseen, hlt⟩
    exact ⟨⟨seen, signer⟩, Assoc.mem_entries_iff.mpr hseen, rfl, hlt⟩

theorem mustWait_iff : v.mustWait number signer = true ↔
    ∃ seen, v.recents.lookup seen = some signer ∧
      (number < v.limit ∨ number - v.limit < seen) := by
  simp only [mustWait, List.any_eq_true, decide_eq_true_eq]
  constructor
  · rintro ⟨⟨seen, other⟩, hmem, rfl, hwait⟩
    exact ⟨seen, Assoc.mem_entries_iff.mp hmem, hwait⟩
  · rintro ⟨seen, hseen, hwait⟩
    exact ⟨⟨seen, signer⟩, Assoc.mem_entries_iff.mpr hseen, rfl, hwait⟩

/-- The local signer waits as long as the snapshot refuses its blocks. -/
theorem Windowed.mustWait_iff_expire (h : v.Windowed number) :
    v.mustWait (number + 1) signer = true ↔
      ∃ seen, (v.expire config (number + 1)).recents.lookup seen = some signer := by
  rw [mustWait_iff]
  constructor
  · rintro ⟨seen, hseen, hwait⟩
    obtain ⟨hsigners, hrecents⟩ := reset_frame config (number + 1) v
    refine ⟨seen, ?_⟩
    rw [Voting.expire, shiftRecents, limit_eq_of_signers hsigners, hrecents]
    split_ifs with hlimit
    · rw [AList.lookup_erase_ne (by omega)]
      exact hseen
    · rw [hrecents]
      exact hseen
  · rintro ⟨seen, hseen⟩
    obtain ⟨hlookup, hwindow⟩ := h.expire hseen
    exact ⟨seen, hlookup, by omega⟩

/-- The verifier agrees with the local signer from the first full window on. Before that, it takes
no signer for a recent one. -/
theorem Windowed.recentlySigned_iff_mustWait (h : v.Windowed number) (hrange : number + 1 < 2 ^ 64)
    (hsize : v.signers.card < 2 ^ 63) :
    (v.recentlySigned (number + 1) signer = true ↔ v.mustWait (number + 1) signer = true) ↔
      v.limit ≤ number + 1 ∨ ∀ seen, v.recents.lookup seen ≠ some signer := by
  rw [recentlySigned_iff, mustWait_iff]
  have hlimit : v.limit < 2 ^ 64 := by
    rw [limit]
    omega
  rcases le_or_gt v.limit (number + 1) with hle | hlt
  · have hsub : sub64 (number + 1) v.limit = number + 1 - v.limit := by
      rw [sub64]
      omega
    rw [hsub]
    refine iff_of_true (exists_congr fun seen => and_congr_right fun _ => ?_) (.inl hle)
    omega
  · have hsub : sub64 (number + 1) v.limit = number + 1 + 2 ^ 64 - v.limit := by
      rw [sub64]
      omega
    have hnever : ¬ ∃ seen, v.recents.lookup seen = some signer ∧
        sub64 (number + 1) v.limit < seen := by
      rintro ⟨seen, hseen, hless⟩
      obtain ⟨-, hrecent, -⟩ := h seen signer hseen
      omega
    rw [iff_false_left hnever]
    constructor
    · exact fun hfree => .inr fun seen hseen => hfree ⟨seen, hseen, .inl hlt⟩
    · rintro (hle | hfree) ⟨seen, hseen, -⟩
      · exact absurd hle (not_le.mpr hlt)
      · exact hfree seen hseen

end Voting

section Rules

variable {config : Config H} {header : Header H} {headers : List (Header H)}
  {snap : Snapshot H} {signer : Address} {hash : H} {signers : List Address}

theorem verifySeal_recentlySigned (hnumber : header.number ≠ 0)
    (hsigner : ecrecover config header = .ok signer) (hauthorized : signer ∈ snap.signers) :
    verifySeal config snap header = .error .recentlySigned ↔
      snap.recentlySigned header.number signer = true := by
  unfold verifySeal
  dsimp only
  rw [if_neg hnumber, hsigner]
  dsimp only
  rw [if_neg (not_not.mpr hauthorized)]
  split_ifs with hrecent
  · exact ⟨fun _ => hrecent, fun _ => rfl⟩
  · refine ⟨fun heq => ?_, fun hfound => absurd hfound hrecent⟩
    split at heq
    · cases heq
    · split_ifs at heq <;> cases heq

/-- Verifier, snapshot and local signer agree on whether the signer of the next block is a recent
one, and a block with one of the two votes that the verifier accepts can be applied. -/
def RecencyAgrees (config : Config H) (snap : Snapshot H) (header : Header H) (signer : Address) :
    Prop :=
  (verifySeal config snap header = .error .recentlySigned ↔
    snap.apply config [header] = .error .recentlySigned) ∧
  (snap.mustWait header.number signer = true ↔
    snap.apply config [header] = .error .recentlySigned) ∧
  (verifySeal config snap header = .ok () → (Voting.authorizes header.nonce).isSome →
    ∃ snap', snap.apply config [header] = .ok snap')

/-- For the next block of an authorised signer on a chain, the three rules agree exactly when its
number has reached the window or the signer has not signed a recent block. -/
theorem recencyAgrees_iff
    (hchain : (Snapshot.newSnapshot 0 hash signers).apply config headers = .ok snap)
    (hsize : snap.signers.card < 2 ^ 63) (hnumber : header.number = snap.number + 1)
    (hrange : header.number < 2 ^ 64) (hsigner : ecrecover config header = .ok signer)
    (hauthorized : signer ∈ snap.signers) :
    RecencyAgrees config snap header signer ↔
      snap.limit ≤ header.number ∨ ∀ seen, snap.recents.lookup seen ≠ some signer := by
  have hwindow := Snapshot.windowed_of_apply hchain
  obtain ⟨hrefused, happlied⟩ := Snapshot.apply_next hnumber hsigner hauthorized
  have hverify := verifySeal_recentlySigned (by omega) hsigner hauthorized
  have hwait : snap.mustWait header.number signer = true ↔
      ∃ seen, (snap.expire config header.number).recents.lookup seen = some signer := by
    rw [hnumber]
    exact hwindow.mustWait_iff_expire
  have hagree : (snap.recentlySigned header.number signer = true ↔
      snap.mustWait header.number signer = true) ↔
      snap.limit ≤ header.number ∨ ∀ seen, snap.recents.lookup seen ≠ some signer := by
    rw [hnumber] at hrange ⊢
    exact hwindow.recentlySigned_iff_mustWait hrange hsize
  rw [← hagree, RecencyAgrees, hverify, hrefused, ← hwait]
  refine ⟨fun h => h.1, fun h => ⟨h, Iff.rfl, fun hok hnonce => ?_⟩⟩
  refine happlied (fun seen hseen => ?_) hnonce
  -- What the snapshot would refuse, the verifier has refused.
  have hrecent := h.mpr (hwait.mpr ⟨seen, hseen⟩)
  rw [hverify.mpr hrecent] at hok
  cases hok

end Rules

namespace Sample

def after (signers : List Address) (headers : List (Header ℕ)) : Snapshot ℕ :=
  ((Snapshot.newSnapshot 0 100 signers).apply config headers).toOption.getD
    (.newSnapshot 0 100 signers)

/-- The first of four signers signs two blocks in a row, both out of its turn. -/
def twoInARow : List (Header ℕ) := [block 1 1 0 nonceDropVote 1, block 2 1 0 nonceDropVote 1]

end Sample

/-- After three blocks of three signers, who have added a fourth one, the signer of the first block
may sign again. -/
theorem recencyAgrees_iff_sample :
    let snap := Sample.after [1, 2, 3] Sample.blocks
    let header := Sample.block 4 2 0 nonceDropVote 1
    snap.recents.lookup 1 = some 2 ∧ RecencyAgrees Sample.config snap header 2 := by
  intro snap header
  have hchain : (Snapshot.newSnapshot 0 100 [1, 2, 3]).apply Sample.config Sample.blocks =
      .ok snap := by
    decide +kernel
  have hsigner : ecrecover Sample.config header = .ok 2 := by decide +kernel
  have hagrees := recencyAgrees_iff hchain (by decide +kernel) rfl (by decide) hsigner
    (by decide +kernel)
  exact ⟨by decide +kernel, hagrees.mpr (.inl (by decide +kernel))⟩

/-- With four signers, the verifier accepts a second block of the same signer, and no snapshot can
be computed from then on. -/
theorem second_block_accepted :
    let genesis := Sample.genesis [1, 2, 3, 4]
    let chain := Sample.chain genesis Sample.twoInARow
    let snap := Sample.after [1, 2, 3, 4] (Sample.twoInARow.take 1)
    let header := Sample.block 2 1 0 nonceDropVote 1
    (∀ block ∈ Sample.twoInARow,
      (verifyHeader Sample.config chain ⟨∅, ∅⟩ 10 block []).1 = .ok ()) ∧
      ((Snapshot.newSnapshot 0 100 [1, 2, 3, 4]).apply Sample.config (Sample.twoInARow.take 1) =
        .ok snap ∧ snap.apply Sample.config [header] = .error .recentlySigned) ∧
      (snapshot Sample.config chain ⟨∅, ∅⟩ 2 102 []).1 = .error .recentlySigned ∧
      ¬ RecencyAgrees Sample.config snap header 1 := by
  intro genesis chain snap header
  refine ⟨by decide +kernel, by decide +kernel, by decide +kernel, fun hagrees => ?_⟩
  have hrefused : verifySeal Sample.config snap header = .error .recentlySigned :=
    hagrees.1.mpr (by decide +kernel)
  exact absurd hrefused (by decide +kernel)

end Clique

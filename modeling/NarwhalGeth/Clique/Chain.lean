import NarwhalGeth.Clique.Signers

/-!
# Snapshots and their chains

What a snapshot has of its chain. The tally counts the votes, and was at most half of the signers
when the last vote on an address was counted. The recent blocks are those that the next block has to
keep away from, so two blocks of one signer are at least a window apart.
-/

namespace Clique

variable {H : Type} {config : Config H} {header : Header H} {headers : List (Header H)}
  {hash : H} {signers : List Address} {snap : Snapshot H} {signer address : Address}

namespace Snapshot

/-- What holds at the genesis block and is kept by every header, with the headers before it, holds
in every snapshot of a chain. -/
theorem chain_induction {I : List (Header H) → Snapshot H → Prop}
    (hgenesis : I [] (newSnapshot 0 hash signers))
    (hstep : ∀ front header before v,
      (newSnapshot 0 hash signers).apply config front = .ok before → I front before →
      header.number = before.number + 1 → before.toVoting.applyHeader config header = .ok v →
      I (front ++ [header]) ⟨v, before.number + 1, config.hash header⟩)
    (h : (newSnapshot 0 hash signers).apply config headers = .ok snap) : I headers snap := by
  induction headers using List.reverseRecOn generalizing snap with
  | nil =>
    obtain rfl := Except.ok.inj h
    exact hgenesis
  | append_singleton front header ih =>
    rw [apply_append_of_numbered (apply_eq_ok h).1] at h
    obtain ⟨before, hbefore, hlast⟩ := Except.eq_ok_of_bind h
    have hnumber := (apply_eq_ok hlast).1.1
    rw [apply_singleton hnumber] at hlast
    obtain ⟨v, hv, rfl⟩ := Except.eq_ok_of_map hlast
    exact hstep front header before v hbefore (ih hbefore) hnumber hv

theorem apply_cut {front back : List (Header H)}
    (h : (newSnapshot 0 hash signers).apply config (front ++ header :: back) = .ok snap) :
    ∃ before v, (newSnapshot 0 hash signers).apply config front = .ok before ∧
      header.number = before.number + 1 ∧
      before.toVoting.applyHeader config header = .ok v := by
  rw [apply_append_of_numbered (apply_eq_ok h).1] at h
  obtain ⟨before, hbefore, hrest⟩ := Except.eq_ok_of_bind h
  obtain ⟨hnumbered, hfold, -⟩ := apply_eq_ok hrest
  rw [List.foldlM_cons] at hfold
  obtain ⟨v, hv, -⟩ := Except.eq_ok_of_bind hfold
  exact ⟨before, v, hbefore, hnumbered.1, hv⟩

theorem number_le_of_mem (h : (newSnapshot 0 hash signers).apply config headers = .ok snap)
    (hmem : header ∈ headers) : header.number ≤ snap.number := by
  revert hmem
  refine chain_induction (I := fun headers snap => header ∈ headers → header.number ≤ snap.number)
    (fun hmem => absurd hmem List.not_mem_nil) (fun front last before v _ ih hnumber _ hmem => ?_) h
  rcases List.mem_append.mp hmem with hmem | hmem
  · exact (ih hmem).trans (Nat.le_succ _)
  · rw [List.mem_singleton.mp hmem]
    exact hnumber.le

end Snapshot

/-! ## The tally -/

namespace Voting

variable {v v' : Voting} {number : ℕ} {authorize : Bool}

/-- The vote of a header on an address is counted. -/
def CountsVote (v : Voting) (header : Header H) (address : Address) : Prop :=
  header.coinbase = address ∧
    ∃ authorize, authorizes header.nonce = some authorize ∧ v.validVote address authorize = true

theorem expire_votes (config : Config H) (number : ℕ) (v : Voting) :
    (v.expire config number).votes.Sublist v.votes := by
  rw [expire, (shiftRecents_frame number _).2.1, reset]
  split_ifs
  · exact List.nil_sublist _
  · exact List.Sublist.refl _

theorem discardVote_votes (signer address : Address) (v : Voting) :
    (v.discardVote signer address).votes.Sublist v.votes := by
  unfold discardVote
  split
  · exact List.Sublist.refl _
  · exact List.eraseP_sublist

theorem settle_votes (number : ℕ) (address : Address) (v : Voting) :
    (v.settle number address).votes.Sublist v.votes := by
  unfold settle
  dsimp only
  split_ifs
  · exact List.filter_sublist
  · refine List.filter_sublist.trans ?_
    unfold discardVotesOf
    dsimp only
    rw [(shiftRecents_frame number _).2.1]
    exact List.filter_sublist
  · exact List.Sublist.refl _

theorem votesOn_addVote (signer : Address) (number : ℕ) (v : Voting) {other : Address}
    (h : ¬ (address = other ∧ v.validVote address authorize = true)) :
    votesOn (v.addVote signer number address authorize).votes other = votesOn v.votes other := by
  unfold addVote cast
  by_cases hvalid : v.validVote address authorize = true
  · have hne : address ≠ other := fun heq => h ⟨heq, hvalid⟩
    rw [if_pos hvalid]
    dsimp only
    rw [if_pos rfl, votesOn_append]
    simp [votesOn, hne]
  · rw [if_neg hvalid]
    rfl

/-- A vote that has not passed has at most half of the signers, and one that has is forgotten. -/
theorem Counted.votesOn_settle (h : v.Counted) (number : ℕ) (address : Address) :
    votesOn (v.settle number address).votes address ≤ v.signers.card / 2 := by
  unfold Voting.settle
  dsimp only
  split_ifs with hpassed
  · rw [votesOn_filter_address, if_pos rfl]
    exact Nat.zero_le _
  · rw [votesOn_filter_address, if_pos rfl]
    exact Nat.zero_le _
  · by_cases hzero : votesOn v.votes address = 0
    · rw [hzero]
      exact Nat.zero_le _
    · rw [h.tally, if_neg hzero] at hpassed
      exact not_lt.mp hpassed

/-- A header whose vote is counted leaves at most half of the signers with a vote on the address.
Another one does not raise their number. -/
theorem Counted.votesOn_applyHeader (h : v.Counted)
    (happly : v.applyHeader config header = .ok v') (address : Address) :
    (v.CountsVote header address → votesOn v'.votes address ≤ v.signers.card / 2) ∧
      (¬ v.CountsVote header address → votesOn v'.votes address ≤ votesOn v.votes address) := by
  obtain ⟨signer, authorize, -, hsigner, -, hnonce, rfl⟩ := applyHeader_eq_ok happly
  have hexpired := h.expire config header.number
  have hsigners := expire_signers config header.number v
  have hvotes := expire_votes config header.number v
  have hmember : signer ∈ (v.expire config header.number).signers := hsigners ▸ hsigner
  generalize v.expire config header.number = expired at hexpired hmember hsigners hvotes ⊢
  have hready := hexpired.withRecents (expired.recents.insert header.number signer)
  obtain ⟨hdiscard, hnew⟩ := hready.discardVote signer header.coinbase
  have hframe := (discardVote_frame signer header.coinbase { expired with
    recents := expired.recents.insert header.number signer }).1
  have hless := discardVote_votes signer header.coinbase { expired with
    recents := expired.recents.insert header.number signer }
  unfold Voting.vote
  generalize Voting.discardVote signer header.coinbase _ = discarded at hdiscard hnew hframe hless ⊢
  constructor
  · rintro ⟨rfl, -⟩
    have hadded := hdiscard.addVote header.number authorize (hframe ▸ hmember) hnew
    refine (hadded.votesOn_settle header.number header.coinbase).trans_eq ?_
    rw [(addVote_frame signer header.number header.coinbase authorize discarded).1, hframe,
      hsigners]
  · intro hnot
    have hvalid : ¬ (header.coinbase = address ∧
        discarded.validVote header.coinbase authorize = true) := by
      rintro ⟨rfl, hvalid⟩
      refine hnot ⟨rfl, authorize, hnonce, ?_⟩
      rw [validVote_iff] at hvalid ⊢
      rw [hvalid, hframe, hsigners]
    calc votesOn (Voting.settle header.number header.coinbase _).votes address
        ≤ votesOn (Voting.addVote signer header.number header.coinbase authorize discarded).votes
            address := (settle_votes _ _ _).countP_le
      _ = votesOn discarded.votes address := votesOn_addVote signer header.number discarded hvalid
      _ ≤ votesOn v.votes address := (hless.trans hvotes).countP_le

end Voting

namespace Snapshot

/-- The last header of a chain whose vote on an address was counted, with the signers before it. -/
def LastCounted (config : Config H) (genesis : Snapshot H) (headers : List (Header H))
    (address : Address) (voters : Finset Address) : Prop :=
  ∃ front header back before, headers = front ++ header :: back ∧
    genesis.apply config front = .ok before ∧ before.signers = voters ∧
    before.CountsVote header address ∧
    ∀ middle next rest between, back = middle ++ next :: rest →
      genesis.apply config (front ++ header :: middle) = .ok between →
      ¬ between.CountsVote next address

theorem LastCounted.append {genesis before : Snapshot H} {voters : Finset Address}
    (h : LastCounted config genesis headers address voters)
    (hbefore : genesis.apply config headers = .ok before)
    (hnot : ¬ before.CountsVote header address) :
    LastCounted config genesis (headers ++ [header]) address voters := by
  obtain ⟨front, last, back, middle, rfl, hfront, hvoters, hcounts, hback⟩ := h
  refine ⟨front, last, back ++ [header], middle, by simp, hfront, hvoters, hcounts, ?_⟩
  intro inner next rest between hsplit hbetween
  rcases List.eq_nil_or_concat rest with rfl | ⟨rest, end', rfl⟩
  · obtain ⟨rfl, hnext⟩ := List.append_inj' hsplit rfl
    obtain rfl := List.singleton_inj.mp hnext
    obtain rfl := Except.ok.inj (hbefore.symm.trans hbetween)
    exact hnot
  · rw [List.concat_eq_append, ← List.cons_append, ← List.append_assoc] at hsplit
    obtain ⟨rfl, -⟩ := List.append_inj' hsplit rfl
    exact hback inner next rest between rfl hbetween

theorem exists_lastCounted (h : (newSnapshot 0 hash signers).apply config headers = .ok snap)
    (hpos : 0 < Voting.votesOn snap.votes address) :
    ∃ voters, LastCounted config (newSnapshot 0 hash signers) headers address voters ∧
      Voting.votesOn snap.votes address ≤ voters.card / 2 := by
  revert hpos
  refine chain_induction (I := fun headers snap => 0 < Voting.votesOn snap.votes address →
    ∃ voters, LastCounted config (newSnapshot 0 hash signers) headers address voters ∧
      Voting.votesOn snap.votes address ≤ voters.card / 2)
    (fun hpos => absurd hpos (Nat.lt_irrefl 0))
    (fun front header before v hbefore ih _ happly hpos => ?_) h
  obtain ⟨hcounted, hother⟩ := (counted_of_apply hbefore).votesOn_applyHeader happly address
  by_cases hcounts : before.CountsVote header address
  · exact ⟨before.signers, ⟨front, header, [], before, rfl, hbefore, rfl, hcounts, by simp⟩,
      hcounted hcounts⟩
  · obtain ⟨voters, hlast, hle⟩ := ih (hpos.trans_le (hother hcounts))
    exact ⟨voters, hlast.append hbefore hcounts, (hother hcounts).trans hle⟩

/-- The tally counts the votes on each address. They ask for a change and are by different current
signers, and when the last one was counted the tally was at most half of the signers. -/
theorem tally_exact (h : (newSnapshot 0 hash signers).apply config headers = .ok snap) :
    (∀ address, (snap.tally.lookup address).isSome ↔
      ∃ vote ∈ snap.votes, vote.address = address) ∧
    (∀ address tally, snap.tally.lookup address = some tally →
      tally.votes = snap.votes.countP fun vote => vote.address = address) ∧
    (∀ vote ∈ snap.votes, vote.authorize = decide (vote.address ∉ snap.signers)) ∧
    (∀ vote ∈ snap.votes, vote.signer ∈ snap.signers) ∧
    snap.votes.Pairwise (fun vote vote' =>
      vote.signer = vote'.signer → vote.address ≠ vote'.address) ∧
    ∀ address tally, snap.tally.lookup address = some tally →
      ∃ voters, LastCounted config (newSnapshot 0 hash signers) headers address voters ∧
        2 * tally.votes ≤ voters.card := by
  have hcounted := counted_of_apply h
  have hlookup : ∀ address tally, snap.tally.lookup address = some tally →
      tally.votes = Voting.votesOn snap.votes address ∧ 0 < Voting.votesOn snap.votes address := by
    intro address tally htally
    rw [hcounted.tally] at htally
    split_ifs at htally with hzero
    obtain rfl := Option.some.inj htally
    exact ⟨rfl, Nat.pos_of_ne_zero hzero⟩
  refine ⟨fun address => ?_, fun address tally htally => (hlookup address tally htally).1,
    hcounted.change, hcounted.signers, hcounted.distinct, fun address tally htally => ?_⟩
  · have hvotes : 0 < Voting.votesOn snap.votes address ↔
        ∃ vote ∈ snap.votes, vote.address = address := by
      simp [Voting.votesOn, List.countP_pos_iff]
    rw [← hvotes, hcounted.tally]
    split_ifs with hzero
    · simp [hzero]
    · simp [Nat.pos_of_ne_zero hzero]
  · obtain ⟨hvotes, hpos⟩ := hlookup address tally htally
    obtain ⟨voters, hlast, hle⟩ := exists_lastCounted h hpos
    exact ⟨voters, hlast, by omega⟩

/-- One of three signers has voted for a fourth one. -/
theorem tally_exact_sample :
    let snap := Sample.after [1, 2, 3] (Sample.blocks.take 1)
    snap.tally.lookup 4 = some ⟨true, 1⟩ ∧
      (∀ vote ∈ snap.votes, vote.authorize = decide (vote.address ∉ snap.signers)) ∧
      ∃ voters, LastCounted Sample.config (newSnapshot 0 100 [1, 2, 3]) (Sample.blocks.take 1) 4
        voters ∧ 2 * 1 ≤ voters.card := by
  intro snap
  have hchain : (newSnapshot 0 100 [1, 2, 3]).apply Sample.config (Sample.blocks.take 1) =
      .ok snap := by
    decide +kernel
  have htally : snap.tally.lookup 4 = some ⟨true, 1⟩ := by decide +kernel
  obtain ⟨-, -, hchange, -, -, hlast⟩ := tally_exact hchain
  exact ⟨htally, hchange, hlast 4 ⟨true, 1⟩ htally⟩

end Snapshot

/-! ## The signing window -/

namespace Voting

variable {v v' : Voting} {number seen : ℕ}

/-- All blocks that the next block has to keep away from are among the recent ones. -/
def Remembers (config : Config H) (v : Voting) (headers : List (Header H)) (number : ℕ) : Prop :=
  ∀ header ∈ headers, ∀ signer, ecrecover config header = .ok signer →
    number + 1 < header.number + v.limit → v.recents.lookup header.number = some signer

theorem lookup_shiftRecents_of_lt (h : v.recents.lookup seen = some signer)
    (hlt : number < seen + v.limit) :
    (v.shiftRecents number).recents.lookup seen = some signer := by
  unfold shiftRecents
  split_ifs with hlimit
  · rw [AList.lookup_erase_ne (by omega)]
    exact h
  · exact h

theorem lookup_settle (h : v.recents.lookup seen = some signer)
    (hlt : number < seen + (v.settle number address).limit) :
    (v.settle number address).recents.lookup seen = some signer := by
  rcases v.settle_cases number address with heq | ⟨-, hrecents⟩ | ⟨hsigners, hrecents⟩
  · rwa [heq]
  · rwa [hrecents]
  · rw [limit, hsigners] at hlt
    rw [hrecents]
    exact lookup_shiftRecents_of_lt h hlt

theorem limit_settle_le (number : ℕ) (address : Address) (v : Voting) :
    (v.settle number address).limit ≤ v.limit + 1 := by
  rcases v.settle_cases number address with heq | ⟨hsigners, -⟩ | ⟨hsigners, -⟩
  · rw [heq]
    exact Nat.le_succ _
  · have hgrow : (insert address v.signers).card ≤ v.signers.card + 1 :=
      Finset.card_insert_le address v.signers
    rw [limit, limit, hsigners]
    omega
  · have hshrink : (v.signers.erase address).card ≤ v.signers.card := Finset.card_erase_le
    rw [limit, limit, hsigners]
    omega

theorem of_lookup_settle (h : (v.settle number address).recents.lookup seen = some signer) :
    v.recents.lookup seen = some signer := by
  rcases v.settle_cases number address with heq | ⟨-, hrecents⟩ | ⟨-, hrecents⟩
  · rwa [heq] at h
  · rwa [hrecents] at h
  · rw [hrecents] at h
    exact (lookup_shiftRecents h).1

theorem of_lookup_expire (h : (v.expire config number).recents.lookup seen = some signer) :
    v.recents.lookup seen = some signer := by
  rw [← (reset_frame config number v).2]
  exact (lookup_shiftRecents h).1

theorem lookup_expire_of_lt (h : v.recents.lookup seen = some signer)
    (hlt : number < seen + v.limit) :
    (v.expire config number).recents.lookup seen = some signer := by
  obtain ⟨hsigners, hrecents⟩ := reset_frame config number v
  rw [← hrecents] at h
  rw [← limit_eq_of_signers hsigners] at hlt
  exact lookup_shiftRecents_of_lt h hlt

theorem cast_frame (signer : Address) (number : ℕ) (address : Address) (authorize : Bool)
    (v : Voting) :
    ((v.discardVote signer address).addVote signer number address authorize).signers = v.signers ∧
      ((v.discardVote signer address).addVote signer number address authorize).recents =
        v.recents := by
  obtain ⟨hsigners, hrecents⟩ := v.discardVote_frame signer address
  obtain ⟨hsigners', hrecents'⟩ :=
    (v.discardVote signer address).addVote_frame signer number address authorize
  exact ⟨hsigners'.trans hsigners, hrecents'.trans hrecents⟩

theorem of_lookup_applyHeader (happly : v.applyHeader config header = .ok v')
    (h : v'.recents.lookup seen = some signer) :
    v.recents.lookup seen = some signer ∨
      seen = header.number ∧ ecrecover config header = .ok signer := by
  obtain ⟨author, authorize, hauthor, -, -, -, rfl⟩ := applyHeader_eq_ok happly
  have hcast := of_lookup_settle h
  rw [(cast_frame author header.number header.coinbase authorize _).2] at hcast
  rcases Assoc.lookup_insert_cases hcast with ⟨rfl, rfl⟩ | hseen
  · exact .inr ⟨rfl, hauthor⟩
  · exact .inl (of_lookup_expire hseen)

theorem Remembers.applyHeader (h : v.Remembers config headers number)
    (hle : ∀ header ∈ headers, header.number ≤ number) (hnumber : header.number = number + 1)
    (happly : v.applyHeader config header = .ok v') :
    v'.Remembers config (headers ++ [header]) (number + 1) := by
  obtain ⟨author, authorize, hauthor, -, -, -, rfl⟩ := applyHeader_eq_ok happly
  obtain ⟨hsigners, hrecents⟩ := cast_frame author header.number header.coinbase authorize
    { v.expire config header.number with
      recents := (v.expire config header.number).recents.insert header.number author }
  unfold vote
  generalize addVote author header.number header.coinbase authorize _ = cast at hsigners hrecents ⊢
  replace hsigners := limit_eq_of_signers (hsigners.trans (expire_signers config header.number v))
  have hwindow := limit_settle_le header.number header.coinbase cast
  intro other hother signer hsigner hlt
  refine lookup_settle ?_ (by omega)
  rw [hrecents]
  rcases List.mem_append.mp hother with hother | hother
  · have hbelow := hle other hother
    -- The window was at most one block shorter.
    have hlimit : number + 1 < other.number + v.limit := by omega
    rw [AList.lookup_insert_ne (by omega)]
    exact lookup_expire_of_lt (h other hother signer hsigner hlimit) (hnumber ▸ hlimit)
  · obtain rfl := List.mem_singleton.mp hother
    obtain rfl := Except.ok.inj (hauthor.symm.trans hsigner)
    rw [AList.lookup_insert]

end Voting

namespace Snapshot

theorem recents_of_apply (h : (newSnapshot 0 hash signers).apply config headers = .ok snap) :
    (∀ seen signer, snap.recents.lookup seen = some signer →
      ∃ header ∈ headers, header.number = seen ∧ ecrecover config header = .ok signer) ∧
      snap.Remembers config headers snap.number := by
  refine chain_induction (I := fun headers snap =>
    (∀ seen signer, snap.recents.lookup seen = some signer →
      ∃ header ∈ headers, header.number = seen ∧ ecrecover config header = .ok signer) ∧
      snap.Remembers config headers snap.number)
    ⟨fun seen signer hseen => (by cases hseen), fun _ hmem => absurd hmem List.not_mem_nil⟩
    (fun front header before v hbefore ih hnumber happly => ⟨fun seen signer hseen => ?_, ?_⟩) h
  · rcases Voting.of_lookup_applyHeader happly hseen with hold | ⟨rfl, hsigner⟩
    · obtain ⟨other, hother, hfound⟩ := ih.1 seen signer hold
      exact ⟨other, List.mem_append_left _ hother, hfound⟩
    · exact ⟨header, List.mem_append_right _ (List.mem_singleton_self _), rfl, hsigner⟩
  · exact ih.2.applyHeader (fun _ hmem => number_le_of_mem hbefore hmem) hnumber happly

/-- The recent blocks are those of the current window. Two blocks of one signer are at least as far
apart as the window before the later one is long. -/
theorem signing_window (h : (newSnapshot 0 hash signers).apply config headers = .ok snap) :
    (∀ seen signer, snap.recents.lookup seen = some signer →
      snap.number < seen + snap.limit ∧ seen ≤ snap.number ∧
        ∃ header ∈ headers, header.number = seen ∧ ecrecover config header = .ok signer) ∧
    ∀ front earlier middle later back before signer,
      headers = front ++ earlier :: middle ++ later :: back →
      (newSnapshot 0 hash signers).apply config (front ++ earlier :: middle) = .ok before →
      ecrecover config earlier = .ok signer → ecrecover config later = .ok signer →
      earlier.number + before.limit ≤ later.number := by
  refine ⟨fun seen signer hseen => ?_, ?_⟩
  · obtain ⟨-, hle, hwindow⟩ := windowed_of_apply h seen signer hseen
    exact ⟨hwindow, hle, (recents_of_apply h).1 seen signer hseen⟩
  · rintro front earlier middle later back before signer rfl hbefore hearlier hlater
    obtain ⟨before', v, hbefore', hnumber, happly⟩ := apply_cut h
    obtain rfl := Except.ok.inj (hbefore.symm.trans hbefore')
    obtain ⟨author, authorize, hauthor, -, hfree, -⟩ := Voting.applyHeader_eq_ok happly
    obtain rfl := Except.ok.inj (hauthor.symm.trans hlater)
    by_contra hclose
    have hclose : later.number < earlier.number + before.limit := not_le.mp hclose
    have hrecent := (recents_of_apply hbefore).2 earlier (by simp) author hearlier
      (by rwa [← hnumber])
    exact hfree earlier.number (Voting.lookup_expire_of_lt hrecent hclose)

/-- One of three signers signs the first and the third block. -/
theorem signing_window_sample :
    let first := Sample.block 1 1 0 nonceDropVote 2
    let second := Sample.block 2 2 0 nonceDropVote 2
    let third := Sample.block 3 1 0 nonceDropVote 1
    let before := Sample.after [1, 2, 3] [first, second]
    (Sample.after [1, 2, 3] [first, second, third]).recents.lookup 3 = some 1 ∧
      before.limit = 2 ∧ first.number + before.limit ≤ third.number := by
  intro first second third before
  have hchain : (newSnapshot 0 100 [1, 2, 3]).apply Sample.config [first, second, third] =
      .ok (Sample.after [1, 2, 3] [first, second, third]) := by
    decide +kernel
  have hbefore : (newSnapshot 0 100 [1, 2, 3]).apply Sample.config [first, second] =
      .ok before := by
    decide +kernel
  have hsigner : ecrecover Sample.config first = .ok 1 := by decide +kernel
  have hsigner' : ecrecover Sample.config third = .ok 1 := by decide +kernel
  exact ⟨by decide +kernel, by decide +kernel,
    (signing_window hchain).2 [] first [second] third [] before 1 rfl hbefore hsigner hsigner'⟩

end Snapshot

end Clique

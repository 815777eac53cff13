import NarwhalGeth.Clique.Signers

/-!
# Production of blocks

The miner builds the header of the next block, and the engine prepares and signs it. What it signs
passes the verification on every node with the same chain and can be applied to the snapshot.
-/

namespace Clique

open Geth (Bytes)
open Snapshot (tip)

variable {H : Type} [DecidableEq H] {forks : ChainConfig} {signer : Address}
  {signature extra : Bytes} {v : Voting} {now desired : ℕ}

/-! ## The miner -/

/-- The settings of the miner. -/
structure MinerConfig where
  extra : Bytes
  gasCeil : ℕ

/-- The settings for one sealing task. -/
structure GenerateParams (H : Type) where
  timestamp : ℕ
  forceTime : Bool
  coinbase : Address
  random : H

/-- The gas limit of a new block, the elasticity of the London fork included. -/
def newGasLimit (chain : ChainConfig) (miner : MinerConfig) (parent : Header H) : ℕ :=
  if chain.isLondon (parent.number + 1) then
    calcGasLimit (scaledGasLimit chain parent) miner.gasCeil
  else calcGasLimit parent.gasLimit miner.gasCeil

def newBaseFee (chain : ChainConfig) (parent : Header H) : Option ℕ :=
  if chain.isLondon (parent.number + 1) then some (calcBaseFee chain parent) else none

/-- The header of a new block before the engine prepares it. -/
def newHeader (config : Config H) (chain : ChainConfig) (miner : MinerConfig)
    (params : GenerateParams H) (timestamp : ℕ) (parent : Header H) : Header H where
  parentHash := config.hash parent
  uncleHash := config.zeroHash
  coinbase := params.coinbase
  root := config.zeroHash
  txHash := config.zeroHash
  receiptHash := config.zeroHash
  bloom := []
  difficulty := 0
  number := parent.number + 1
  gasLimit := newGasLimit chain miner parent
  gasUsed := 0
  time := timestamp
  extra := miner.extra
  mixDigest := params.random
  nonce := 0
  baseFee := newBaseFee chain parent

/-- Constructs the header of a sealing task on the given parent. -/
def prepareWork (config : Config H) (chain : ChainReader H) (caches : Caches H)
    (author : LocalSigner H) (miner : MinerConfig) (params : GenerateParams H)
    (pick now later : ℕ) (parent : Header H) : Except Error (Header H) × Caches H :=
  let given := params.timestamp
  let parentTime := parent.time
  if given ≤ parentTime ∧ params.forceTime then
    (.error (.message s!"invalid timestamp, parent {parentTime} given {given}"), caches)
  else
    let timestamp := if given ≤ parentTime then (parentTime + 1) % 2 ^ 64 else given
    prepare config chain caches author pick now later
      (newHeader config chain.config miner params timestamp parent)

/-- What the execution of the transactions puts into a header. -/
structure Execution (H : Type) where
  gasUsed : ℕ
  root : H
  txHash : H
  receiptHash : H
  bloom : Bytes

/-- Assembles the block without uncles. -/
def assemble (config : Config H) (header : Header H) (execution : Execution H) : Header H :=
  { header with
    gasUsed := execution.gasUsed
    root := execution.root
    txHash := execution.txHash
    receiptHash := execution.receiptHash
    bloom := execution.bloom
    uncleHash := config.uncleHash }

/-! ## Gas -/

/-- Without overflows, the limit moves to the desired one by less than the allowed bound. -/
theorem calcGasLimit_eq {parent : ℕ} (hmin : minGasLimit ≤ parent) (hmax : parent ≤ maxGasLimit) :
    calcGasLimit parent desired =
      let delta := parent / gasLimitBoundDivisor - 1
      let desired := max desired minGasLimit
      if parent < desired then min desired (parent + delta)
      else max desired (parent - delta) := by
  unfold calcGasLimit
  unfold minGasLimit at *
  unfold maxGasLimit at hmax
  unfold gasLimitBoundDivisor
  have hdelta : (parent / 1024 + 2 ^ 64 - 1) % 2 ^ 64 = parent / 1024 - 1 := by omega
  have hup : (parent + (parent / 1024 - 1)) % 2 ^ 64 = parent + (parent / 1024 - 1) := by omega
  have hdown : (parent + 2 ^ 64 - (parent / 1024 - 1)) % 2 ^ 64 =
      parent - (parent / 1024 - 1) := by
    omega
  dsimp only
  rw [hdelta, hup, hdown]
  split_ifs <;> omega

theorem calcGasLimit_bounds {parent : ℕ} (hmin : minGasLimit ≤ parent) (hmax : parent ≤ maxGasLimit)
    (hdesired : desired ≤ maxGasLimit) :
    parent < calcGasLimit parent desired + parent / gasLimitBoundDivisor ∧
      calcGasLimit parent desired < parent + parent / gasLimitBoundDivisor ∧
      minGasLimit ≤ calcGasLimit parent desired ∧
      calcGasLimit parent desired ≤ maxGasLimit := by
  rw [calcGasLimit_eq hmin hmax]
  unfold minGasLimit at *
  unfold maxGasLimit at *
  unfold gasLimitBoundDivisor
  dsimp only
  split_ifs <;> omega

theorem int64_eq {n : ℤ} (hlow : -2 ^ 63 ≤ n) (hhigh : n < 2 ^ 63) : int64 n = n := by
  unfold int64
  apply Int.bmod_eq_of_le
  · change -(18446744073709551616 / 2) ≤ n
    omega
  · change n < (18446744073709551616 + 1) / 2
    omega

theorem verifyGaslimit_eq_ok {parent limit : ℕ} (hparent : parent ≤ maxGasLimit)
    (hlimit : limit ≤ maxGasLimit) (hmin : minGasLimit ≤ limit)
    (hlow : parent < limit + parent / gasLimitBoundDivisor)
    (hhigh : limit < parent + parent / gasLimitBoundDivisor) :
    verifyGaslimit parent limit = .ok () := by
  simp only [maxGasLimit] at hparent hlimit
  unfold verifyGaslimit
  have hp : int64 parent = parent := int64_eq (by omega) (by omega)
  have hl : int64 limit = limit := int64_eq (by omega) (by omega)
  have hdiff : int64 ((parent : ℤ) - limit) = parent - limit := int64_eq (by omega) (by omega)
  have hneg : int64 (-((parent : ℤ) - limit)) = limit - parent := by
    rw [int64_eq] <;> omega
  dsimp only
  rw [hp, hl, hdiff, hneg, if_neg, if_neg (not_lt.mpr hmin)]
  split_ifs <;> omega

section Production

variable {config : Config H} {chain : ChainReader H} {caches : Caches H}
  {genesis header parent : Header H} {headers parents : List (Header H)} {snap : Snapshot H}
  {author : LocalSigner H} {miner : MinerConfig} {params : GenerateParams H}

omit [DecidableEq H] in
theorem verifyGas_eq_ok (hmin : minGasLimit ≤ parent.gasLimit)
    (hmax : parent.gasLimit ≤ maxGasLimit / 2) (hceil : miner.gasCeil ≤ maxGasLimit)
    (hnumber : header.number = parent.number + 1)
    (hlimit : header.gasLimit = newGasLimit forks miner parent)
    (hbaseFee : header.baseFee = newBaseFee forks parent) (hused : header.gasUsed ≤ header.gasLimit)
    :
    verifyGas forks parent header = .ok () ∧ header.gasLimit ≤ maxGasLimit := by
  have hhalf : 2 * (maxGasLimit / 2) ≤ maxGasLimit := by
    unfold maxGasLimit
    omega
  have hscaled : minGasLimit ≤ scaledGasLimit forks parent ∧
      scaledGasLimit forks parent ≤ maxGasLimit := by
    unfold scaledGasLimit elasticityMultiplier
    split_ifs
    · omega
    · have hrange : parent.gasLimit * 2 % 2 ^ 64 = parent.gasLimit * 2 := by
        unfold maxGasLimit at *
        omega
      omega
  unfold verifyGas
  rw [newGasLimit] at hlimit
  rw [newBaseFee] at hbaseFee
  dsimp only
  rw [if_neg (not_lt.mpr hused), hnumber]
  by_cases hlondon : forks.isLondon (parent.number + 1) = true
  · rw [if_pos hlondon] at hlimit hbaseFee
    obtain ⟨hlow, hhigh, hfloor, hroof⟩ := calcGasLimit_bounds hscaled.1 hscaled.2 hceil
    rw [← hlimit] at hlow hhigh hfloor hroof
    refine ⟨?_, hroof⟩
    rw [hlondon, Bool.not_true, if_neg Bool.false_ne_true, verifyEip1559Header,
      verifyGaslimit_eq_ok hscaled.2 hroof hfloor hlow hhigh, hbaseFee]
    exact if_neg (not_not.mpr rfl)
  · rw [if_neg hlondon] at hlimit hbaseFee
    obtain ⟨hlow, hhigh, hfloor, hroof⟩ := calcGasLimit_bounds hmin (by omega) hceil
    rw [← hlimit] at hlow hhigh hfloor hroof
    refine ⟨?_, hroof⟩
    rw [Bool.eq_false_of_not_eq_true hlondon, Bool.not_false, if_pos rfl, hbaseFee]
    exact verifyGaslimit_eq_ok (by omega) hroof hfloor hlow hhigh

/-! ## The extra data -/

theorem Address.length_bytes (address : Address) : address.bytes.length = 20 := by
  rw [Address.bytes, List.length_reverse, length_leBytes]

theorem Voting.length_signersBytes (v : Voting) :
    v.signersBytes.length = v.sortedSigners.length * 20 := by
  rw [signersBytes, List.length_flatMap]
  simp [Address.length_bytes]

/-- The extra data of the new block in front of the signature. -/
def extraFront (config : Config H) (v : Voting) (number : ℕ) (extra : Bytes) : Bytes :=
  (extra ++ List.replicate (extraVanity - extra.length) 0).take extraVanity ++
    (if number % config.epoch = 0 then v.signersBytes else [])

section

omit [DecidableEq H]

theorem length_vanity (extra : Bytes) :
    ((extra ++ List.replicate (extraVanity - extra.length) 0).take extraVanity).length =
      extraVanity := by
  rw [List.length_take, List.length_append, List.length_replicate]
  omega

theorem seal_extra (v : Voting) (number : ℕ) (extra : Bytes)
    (hlength : signature.length = extraSeal) :
    let prepared := prepareExtra config v number extra
    prepared.take (prepared.length - extraSeal) = extraFront config v number extra ∧
      signature.take (prepared.drop (prepared.length - extraSeal)).length ++
        (prepared.drop (prepared.length - extraSeal)).drop signature.length = signature := by
  intro prepared
  have hprepared : prepared = extraFront config v number extra ++ List.replicate extraSeal 0 := rfl
  have hfront : prepared.length - extraSeal = (extraFront config v number extra).length := by
    rw [hprepared, List.length_append, List.length_replicate, Nat.add_sub_cancel]
  rw [hfront, hprepared, List.take_left, List.drop_left, List.length_replicate, hlength]
  refine ⟨rfl, ?_⟩
  rw [List.drop_eq_nil_of_le (by rw [List.length_replicate]), List.append_nil,
    List.take_of_length_le hlength.le]

theorem ecrecover_eq_ok {front : Bytes} (hextra : header.extra = front ++ signature)
    (hlength : signature.length = extraSeal)
    (hrecover : config.recover (config.sigHash { header with extra := front }) signature =
      some signer) : ecrecover config header = .ok signer := by
  have hfront : header.extra.length - extraSeal = front.length := by
    rw [hextra, List.length_append, hlength, Nat.add_sub_cancel]
  have hlong : ¬ header.extra.length < extraSeal := by
    rw [hextra, List.length_append, hlength]
    omega
  unfold ecrecover sealHash
  rw [if_neg hlong, hfront, hextra, List.take_left, List.drop_left]
  dsimp only
  rw [hrecover]

end

/-! ## The blocks of a signer -/

/-- A node has a chain on a genesis block, of which some last headers are explicit, and the
snapshots that it holds were computed from it. -/
structure Follows (config : Config H) (genesis : Header H) (headers parents : List (Header H))
    (chain : ChainReader H) (caches : Caches H) : Prop where
  onChain : ∃ stored, headers = stored ++ parents ∧ OnChain config chain genesis stored parents
  held : Held config genesis headers caches
  untrusting : Untrusting config chain genesis headers [] caches
  first : genesis.number = 0 ∧ chain.getHeader (config.hash genesis) 0 = some genesis

/-- The last block of a chain. -/
def head (genesis : Header H) (headers : List (Header H)) : Header H :=
  headers.getLast?.getD genesis

omit [DecidableEq H] in
theorem apply_of_replay (h : replay config genesis headers = .ok snap) :
    ∃ signers, (Snapshot.newSnapshot 0 (config.hash genesis) signers).apply config headers =
      .ok snap := by
  obtain ⟨first, hfirst, happly⟩ := Except.eq_ok_of_bind h
  obtain ⟨signers, -, rfl⟩ := Except.eq_ok_of_map hfirst
  exact ⟨signers, happly⟩

omit [DecidableEq H] in
theorem number_of_replay (h : replay config genesis headers = .ok snap) :
    snap.number = headers.length := by
  obtain ⟨signers, happly⟩ := apply_of_replay h
  obtain ⟨-, -, hnumber, -⟩ := Snapshot.apply_eq_ok happly
  rw [hnumber]
  exact Nat.zero_add headers.length

section

variable (h : Follows config genesis headers parents chain caches)

include h

theorem Follows.snapshot_eq :
    ∃ caches', snapshot config chain caches headers.length
      (tip config (config.hash genesis) headers) parents =
        (replay config genesis headers, caches') := by
  obtain ⟨stored, rfl, honChain⟩ := h.onChain
  exact ⟨_, Prod.ext (Clique.snapshot_eq honChain h.held h.untrusting) rfl⟩

theorem Follows.head_spec :
    (head genesis headers).number = headers.length ∧
      config.hash (head genesis headers) = tip config (config.hash genesis) headers := by
  obtain ⟨stored, hall, honChain⟩ := h.onChain
  have hnumbered := honChain.numbered
  rw [← hall] at hnumbered
  rcases List.eq_nil_or_concat headers with rfl | ⟨front, last, rfl⟩
  · exact ⟨h.first.1, rfl⟩
  · rw [List.concat_eq_append] at hnumbered ⊢
    have hhead : head genesis (front ++ [last]) = last := by simp [head]
    rw [hhead, tip_concat, (numbered_concat.mp hnumbered).2, Nat.zero_add, List.length_append,
      List.length_singleton]
    exact ⟨rfl, rfl⟩

theorem Follows.read_head :
    parents.getLast?.or (chain.getHeader (config.hash (head genesis headers)) headers.length) =
      some (head genesis headers) := by
  obtain ⟨hnumber, -⟩ := h.head_spec
  obtain ⟨stored, rfl, honChain⟩ := h.onChain
  rcases List.eq_nil_or_concat parents with rfl | ⟨front, last, rfl⟩
  · rw [List.append_nil] at hnumber ⊢
    rw [List.getLast?_nil, Option.none_or, ← hnumber]
    cases hlast : stored.getLast? with
    | none =>
      rw [head, hlast, Option.getD_none, h.first.1]
      exact h.first.2
    | some last =>
      rw [head, hlast, Option.getD_some]
      exact honChain.stored last (List.mem_of_getLast? hlast)
  · simp [head]

end

theorem chooseVote_nonce (v : Voting) (proposals : Assoc Address Bool) (pick : ℕ) :
    (chooseVote v proposals pick).2 = nonceAuthVote ∨
      (chooseVote v proposals pick).2 = nonceDropVote := by
  unfold chooseVote
  dsimp only
  split
  · exact .inr rfl
  · rename_i e _
    cases e.2
    · exact .inr rfl
    · exact .inl rfl

/-- What the verifier relies on in the header that a signer prepares on a block. -/
structure Prepared (config : Config H) (forks : ChainConfig) (miner : MinerConfig)
    (snap : Snapshot H) (signer : Address) (parent header : Header H) : Prop where
  number : header.number = parent.number + 1
  parentHash : header.parentHash = config.hash parent
  time : (parent.time + config.period) % 2 ^ 64 ≤ header.time
  gasLimit : header.gasLimit = newGasLimit forks miner parent
  baseFee : header.baseFee = newBaseFee forks parent
  vote : header.nonce = nonceAuthVote ∨ header.nonce = nonceDropVote
  checkpoint : header.number % config.epoch = 0 →
    header.coinbase = 0 ∧ header.nonce = nonceDropVote
  difficulty : calcDifficulty snap signer = some header.difficulty
  mixDigest : header.mixDigest = config.zeroHash

omit [DecidableEq H] in
theorem Prepared.assemble (h : Prepared config forks miner snap signer parent header)
    (execution : Execution H) (extra : Bytes) :
    Prepared config forks miner snap signer parent
      { Clique.assemble config header execution with extra } where
  number := h.number
  parentHash := h.parentHash
  time := h.time
  gasLimit := h.gasLimit
  baseFee := h.baseFee
  vote := h.vote
  checkpoint := h.checkpoint
  difficulty := h.difficulty
  mixDigest := h.mixDigest

theorem prepareWork_eq_ok (author : LocalSigner H) (miner : MinerConfig) {pick later : ℕ}
    (h : Follows config genesis headers [] chain caches)
    (hsnap : replay config genesis headers = .ok snap) (hsigners : snap.signers.Nonempty)
    (hclock : now ≤ later)
    (hforce : params.timestamp ≤ (head genesis headers).time → params.forceTime = false) :
    ∃ prepared,
      (prepareWork config chain caches author miner params pick now later
        (head genesis headers)).1 = .ok prepared ∧
      Prepared config chain.config miner snap author.signer (head genesis headers) prepared ∧
      prepared.extra = prepareExtra config snap.toVoting prepared.number miner.extra := by
  obtain ⟨hnumber, hhash⟩ := h.head_spec
  have hread := h.read_head
  rw [List.getLast?_nil, Option.none_or] at hread
  obtain ⟨caches', hsnapshot⟩ := h.snapshot_eq
  rw [hsnap, ← hhash] at hsnapshot
  have hinturn := Snapshot.inturn_isSome hsigners (snap.number + 1) author.signer
  obtain ⟨inturn, hinturn⟩ := Option.isSome_iff_exists.mp hinturn
  have hdifficulty : calcDifficulty snap author.signer =
      some (if inturn then diffInTurn else diffNoTurn) := by
    rw [calcDifficulty, hinturn]
    rfl
  have hallowed : ¬ (params.timestamp ≤ (head genesis headers).time ∧
      params.forceTime = true) := by
    rintro ⟨hearly, htrue⟩
    rw [hforce hearly] at htrue
    cases htrue
  unfold prepareWork
  dsimp only
  rw [if_neg hallowed]
  unfold prepare
  dsimp only [newHeader]
  rw [hnumber, Nat.add_sub_cancel, hsnapshot]
  dsimp only
  rw [hdifficulty, hread]
  refine ⟨_, rfl, ?_, rfl⟩
  constructor
  case number => rw [hnumber]
  case parentHash => rfl
  case time =>
    dsimp only
    split_ifs <;> omega
  case gasLimit => rw [newGasLimit, hnumber]
  case baseFee => rw [newBaseFee, hnumber]
  case vote =>
    dsimp only
    split_ifs
    · exact chooseVote_nonce snap.toVoting author.proposals pick
    · exact .inr rfl
  case checkpoint =>
    intro hepoch
    dsimp only at hepoch ⊢
    rw [if_neg (not_not.mpr hepoch)]
    exact ⟨rfl, rfl⟩
  case difficulty => exact hdifficulty
  case mixDigest => rfl

/-- The signatures of the local signer are those of its account. -/
def LocalSigner.Genuine (config : Config H) (author : LocalSigner H) : Prop :=
  ∀ header signature, author.signFn (sealHash config header) = .ok signature →
    signature.length = extraSeal ∧
      config.recover (sealHash config header) signature = some author.signer

/-- A signer that signs a block need not wait, and its signature is all that is new in the block. -/
theorem sealBlock_eq_ok {sealed : Header H} {transactions : ℕ}
    (h : Follows config genesis headers [] chain caches)
    (hsnap : replay config genesis headers = .ok snap) (hgenuine : author.Genuine config)
    (hnumber : header.number = headers.length + 1)
    (hparent : header.parentHash = config.hash (head genesis headers))
    (hextra : header.extra = prepareExtra config snap.toVoting header.number extra)
    (hsealed : (sealBlock config chain caches author transactions header).1 = .ok sealed) :
    snap.mustWait header.number author.signer = false ∧
      ∃ signature, signature.length = extraSeal ∧
        sealed = { header with
          extra := extraFront config snap.toVoting header.number extra ++ signature } ∧
        ecrecover config sealed = .ok author.signer := by
  obtain ⟨caches', hsnapshot⟩ := h.snapshot_eq
  rw [hsnap, ← h.head_spec.2, ← hparent] at hsnapshot
  unfold sealBlock at hsealed
  dsimp only at hsealed
  rw [show header.number - 1 = headers.length by omega, hsnapshot] at hsealed
  dsimp only at hsealed
  split_ifs at hsealed with _ _ _ hwait
  refine ⟨Bool.eq_false_of_not_eq_true hwait, ?_⟩
  cases hsign : author.signFn (sealHash config header) with
  | error e =>
    rw [hsign] at hsealed
    cases hsealed
  | ok signature =>
    rw [hsign] at hsealed
    obtain ⟨hlength, hrecover⟩ := hgenuine header signature hsign
    obtain ⟨hfront, hspace⟩ := seal_extra snap.toVoting header.number extra hlength
    rw [← hextra] at hfront hspace
    dsimp only at hsealed
    rw [hfront, hspace] at hsealed
    obtain rfl := Except.ok.inj hsealed
    rw [sealHash, hfront] at hrecover
    exact ⟨signature, hlength, rfl, ecrecover_eq_ok rfl hlength hrecover⟩

/-! ## The verifier -/

/-- The layout of the extra data, the vote of a checkpoint and the range of the fields are all that
the verifier checks in a header on its own. -/
theorem verifyStandalone_eq_ok (hshanghai : forks.shanghaiTime = none)
    (hcancun : forks.cancunTime = none) (htime : header.time ≤ now)
    (hvote : header.nonce = nonceAuthVote ∨ header.nonce = nonceDropVote)
    (hcheckpoint : header.number % config.epoch = 0 →
      header.coinbase = 0 ∧ header.nonce = nonceDropVote)
    (hextra : header.extra = extraFront config v header.number extra ++ signature)
    (hlength : signature.length = extraSeal) (hmix : header.mixDigest = config.zeroHash)
    (huncles : header.uncleHash = config.uncleHash)
    (hdifficulty : header.difficulty = diffInTurn ∨ header.difficulty = diffNoTurn)
    (hgas : header.gasLimit ≤ maxGasLimit) :
    verifyStandalone config forks now header = .ok () := by
  have hsigners : header.extra.length = extraVanity + (if header.number % config.epoch = 0 then
      v.signersBytes else []).length + extraSeal := by
    rw [hextra, extraFront, List.length_append, List.length_append, length_vanity, hlength]
  unfold verifyStandalone ChainConfig.isShanghai ChainConfig.isCancun
  rw [hshanghai, hcancun, hmix, huncles]
  dsimp only
  rw [if_neg (not_lt.mpr htime), if_neg fun hc => hc.2 (hcheckpoint hc.1).1,
    if_neg fun hc => hvote.elim hc.1 hc.2, if_neg fun hc => hc.2 (hcheckpoint hc.1).2,
    if_neg (by omega), if_neg (by omega)]
  have hplain : ¬ (¬ header.number % config.epoch = 0 ∧
      header.extra.length - extraVanity - extraSeal ≠ 0) := by
    rintro ⟨hepoch, hne⟩
    rw [hsigners, if_neg hepoch, List.length_nil] at hne
    omega
  have hwhole : ¬ (header.number % config.epoch = 0 ∧
      (header.extra.length - extraVanity - extraSeal) % 20 ≠ 0) := by
    rintro ⟨hepoch, hne⟩
    rw [hsigners, if_pos hepoch, Voting.length_signersBytes] at hne
    omega
  rw [if_neg hplain, if_neg hwhole, if_neg (not_not.mpr rfl), if_neg (not_not.mpr rfl),
    if_neg fun hc => hdifficulty.elim hc.2.1 hc.2.2, if_neg (not_lt.mpr hgas)]
  rfl

theorem Voting.recentlySigned_eq_false {number : ℕ} (hrange : number < 2 ^ 64)
    (hsize : v.signers.card < 2 ^ 63) (hwait : v.mustWait number signer = false) :
    v.recentlySigned number signer = false := by
  rw [Bool.eq_false_iff] at hwait ⊢
  rw [ne_eq, mustWait_iff] at hwait
  rw [ne_eq, recentlySigned_iff]
  rintro ⟨seen, hseen, hless⟩
  refine hwait ⟨seen, hseen, ?_⟩
  have hlimit : v.limit < 2 ^ 64 := by
    rw [limit]
    omega
  rw [sub64] at hless
  omega

omit [DecidableEq H] in
theorem verifySnapshot_eq_ok (hnumber : header.number = snap.number + 1)
    (hrange : header.number < 2 ^ 64) (hsize : snap.signers.card < 2 ^ 63)
    (hextra : header.extra = extraFront config snap.toVoting header.number extra ++ signature)
    (hlength : signature.length = extraSeal) (hsigner : ecrecover config header = .ok signer)
    (hauthorized : signer ∈ snap.signers) (hwait : snap.mustWait header.number signer = false)
    (hdifficulty : calcDifficulty snap signer = some header.difficulty) :
    verifySnapshot config snap header = .ok () := by
  have hfront : header.extra.take (header.extra.length - extraSeal) =
      extraFront config snap.toVoting header.number extra := by
    rw [hextra, List.length_append, hlength, Nat.add_sub_cancel, List.take_left]
  have hsigners : ¬ (header.number % config.epoch = 0 ∧
      (header.extra.take (header.extra.length - extraSeal)).drop extraVanity ≠
        snap.signersBytes) := by
    rintro ⟨hepoch, hne⟩
    rw [hfront, extraFront, if_pos hepoch, List.drop_left' (length_vanity extra)] at hne
    exact hne rfl
  unfold verifySnapshot verifySeal
  dsimp only
  rw [if_neg hsigners, if_neg (by omega), hsigner]
  dsimp only
  rw [if_neg (not_not.mpr hauthorized), Voting.recentlySigned_eq_false hrange hsize hwait,
    if_neg Bool.false_ne_true]
  rw [calcDifficulty, ← hnumber] at hdifficulty
  obtain ⟨inturn, hinturn, hvalue⟩ := Option.map_eq_some_iff.mp hdifficulty
  rw [hinturn, ← hvalue]
  cases inturn <;> rfl

/-- The next block passes on a node with the chain if it passes each of the groups of checks. -/
theorem verifyHeader_eq_ok (h : Follows config genesis headers parents chain caches)
    (hsnap : replay config genesis headers = .ok snap)
    (hnumber : header.number = headers.length + 1)
    (hparent : header.parentHash = config.hash (head genesis headers))
    (hstandalone : verifyStandalone config chain.config now header = .ok ())
    (htime : ((head genesis headers).time + config.period) % 2 ^ 64 ≤ header.time)
    (hgas : verifyGas chain.config (head genesis headers) header = .ok ())
    (hverified : verifySnapshot config snap header = .ok ()) :
    (verifyHeader config chain caches now header parents).1 = .ok () := by
  obtain ⟨hheight, hhash⟩ := h.head_spec
  obtain ⟨caches', hsnapshot⟩ := h.snapshot_eq
  rw [hsnap, ← hhash, ← hparent] at hsnapshot
  have hread := h.read_head
  rw [← hparent] at hread
  have hlinked : ¬ ((head genesis headers).number ≠ headers.length ∨
      config.hash (head genesis headers) ≠ header.parentHash) :=
    not_or.mpr ⟨not_not.mpr hheight, not_not.mpr hparent.symm⟩
  unfold verifyHeader verifyCascadingFields
  rw [hstandalone]
  dsimp only
  rw [if_neg (by omega), show header.number - 1 = headers.length by omega]
  rcases Option.or_eq_some_iff.mp hread with hlast | ⟨hlast, hstored⟩ <;> rw [hlast]
  on_goal 2 =>
    dsimp only
    rw [hstored]
  all_goals
    dsimp only
    rw [if_neg hlinked, if_neg (not_lt.mpr htime), hgas]
    dsimp only
    rw [hsnapshot]
    exact hverified

section Signed

variable {sealed : Header H} {signer : Address} {extra signature : Bytes}

omit [DecidableEq H] in
theorem Prepared.applies (h : Prepared config forks miner snap signer (head genesis headers) sealed)
    (hsnap : replay config genesis headers = .ok snap) (hnumber : sealed.number = snap.number + 1)
    (hsigner : ecrecover config sealed = .ok signer) (hauthorized : signer ∈ snap.signers)
    (hwait : snap.mustWait sealed.number signer = false) :
    ∃ snap', snap.apply config [sealed] = .ok snap' := by
  obtain ⟨signers, happly⟩ := apply_of_replay hsnap
  have hwindow : snap.Windowed snap.number := Snapshot.windowed_of_apply happly
  refine (Snapshot.apply_next hnumber hsigner hauthorized).2 (fun seen hseen => ?_) ?_
  · rw [hnumber] at hseen hwait
    exact absurd (hwindow.mustWait_iff_expire.mpr ⟨seen, hseen⟩) (Bool.eq_false_iff.mp hwait)
  · unfold Voting.authorizes
    rcases h.vote with hnonce | hnonce <;> rw [hnonce] <;> decide

/-- A prepared block with the signature of an authorised signer passes the verification. -/
theorem Prepared.verifies {clock : ℕ}
    (h : Prepared config chain.config miner snap signer (head genesis headers) sealed)
    (hfollows : Follows config genesis headers parents chain caches)
    (hsnap : replay config genesis headers = .ok snap)
    (hrange : headers.length + 1 < 2 ^ 64) (hsize : snap.signers.card < 2 ^ 63)
    (hshanghai : chain.config.shanghaiTime = none) (hcancun : chain.config.cancunTime = none)
    (hmin : minGasLimit ≤ (head genesis headers).gasLimit)
    (hmax : (head genesis headers).gasLimit ≤ maxGasLimit / 2)
    (hceil : miner.gasCeil ≤ maxGasLimit) (hused : sealed.gasUsed ≤ sealed.gasLimit)
    (huncles : sealed.uncleHash = config.uncleHash)
    (hextra : sealed.extra = extraFront config snap.toVoting sealed.number extra ++ signature)
    (hlength : signature.length = extraSeal) (hsigner : ecrecover config sealed = .ok signer)
    (hauthorized : signer ∈ snap.signers) (hwait : snap.mustWait sealed.number signer = false)
    (htime : sealed.time ≤ clock) :
    (verifyHeader config chain caches clock sealed parents).1 = .ok () := by
  have hnumber : sealed.number = headers.length + 1 := by
    rw [h.number, hfollows.head_spec.1]
  have hnext : sealed.number = snap.number + 1 := by
    rw [hnumber, number_of_replay hsnap]
  have hdifficulty : sealed.difficulty = diffInTurn ∨ sealed.difficulty = diffNoTurn := by
    obtain ⟨inturn, -, hvalue⟩ := Option.map_eq_some_iff.mp h.difficulty
    rw [← hvalue]
    cases inturn
    · exact .inr rfl
    · exact .inl rfl
  obtain ⟨hgas, hlimit⟩ := verifyGas_eq_ok hmin hmax hceil h.number h.gasLimit h.baseFee hused
  exact verifyHeader_eq_ok hfollows hsnap hnumber h.parentHash
    (verifyStandalone_eq_ok hshanghai hcancun htime h.vote h.checkpoint hextra hlength h.mixDigest
      huncles hdifficulty hlimit)
    h.time hgas
    (verifySnapshot_eq_ok hnext (by omega) hsize hextra hlength hsigner hauthorized hwait
      h.difficulty)

end Signed

/-- An authorised signer prepares a header for whatever proposals are pending, unless an earlier
time is forced. If it is not a recent signer, the block passes the verification on every node whose
clock has reached its time, and can be applied. -/
theorem sealed_verifies {cachesAtSeal : Caches H} (author : LocalSigner H) (miner : MinerConfig)
    (params : GenerateParams H) (pick : ℕ) {now later : ℕ}
    (hsnap : replay config genesis headers = .ok snap)
    (hrange : headers.length + 1 < 2 ^ 64) (hsize : snap.signers.card < 2 ^ 63)
    (hfollows : Follows config genesis headers [] chain caches)
    (hseals : Follows config genesis headers [] chain cachesAtSeal)
    (hshanghai : chain.config.shanghaiTime = none) (hcancun : chain.config.cancunTime = none)
    (hmin : minGasLimit ≤ (head genesis headers).gasLimit)
    (hmax : (head genesis headers).gasLimit ≤ maxGasLimit / 2)
    (hceil : miner.gasCeil ≤ maxGasLimit) (hclock : now ≤ later)
    (hforce : params.timestamp ≤ (head genesis headers).time → params.forceTime = false)
    (hauthorized : author.signer ∈ snap.signers) (hgenuine : author.Genuine config) :
    ∃ prepared,
      (prepareWork config chain caches author miner params pick now later
        (head genesis headers)).1 = .ok prepared ∧
      ∀ execution transactions sealed, execution.gasUsed ≤ prepared.gasLimit →
        (sealBlock config chain cachesAtSeal author transactions
          (assemble config prepared execution)).1 = .ok sealed →
        (∃ snap', snap.apply config [sealed] = .ok snap') ∧
        ∀ parents verifier caches clock, Follows config genesis headers parents verifier caches →
          verifier.config = chain.config → sealed.time ≤ clock →
          (verifyHeader config verifier caches clock sealed parents).1 = .ok () := by
  obtain ⟨prepared, hok, hprepared, hextra⟩ :=
    prepareWork_eq_ok author miner hfollows hsnap ⟨_, hauthorized⟩ hclock hforce
  refine ⟨prepared, hok, fun execution transactions sealed hused hsealed => ?_⟩
  have hnumber : (assemble config prepared execution).number = headers.length + 1 := by
    rw [← hfollows.head_spec.1]
    exact hprepared.number
  obtain ⟨hwait, signature, hlength, hform, hsigner⟩ :=
    sealBlock_eq_ok hseals hsnap hgenuine hnumber hprepared.parentHash hextra hsealed
  have hsigned := hprepared.assemble execution
    (extraFront config snap.toVoting (assemble config prepared execution).number miner.extra ++
      signature)
  rw [← hform] at hsigned
  have hsame : sealed.number = (assemble config prepared execution).number := by rw [hform]
  rw [← hsame] at hwait hnumber
  constructor
  · exact hsigned.applies hsnap (by rw [hnumber, number_of_replay hsnap]) hsigner hauthorized hwait
  · intro parents verifier caches clock hverifier hforks htime
    rw [← hforks] at hsigned hshanghai hcancun
    have hlayout : sealed.extra =
        extraFront config snap.toVoting sealed.number miner.extra ++ signature := by
      rw [hsame, hform]
    refine hsigned.verifies hverifier hsnap hrange hsize hshanghai hcancun hmin hmax hceil ?_ ?_
      hlayout hlength hsigner hauthorized hwait htime
    · rw [hform]
      exact hused
    · rw [hform]
      rfl

end Production

namespace Sample

/-- The node of the signer of the first block, with a pending proposal. -/
def localSigner : LocalSigner ℕ := { author 2 with proposals := AList.singleton 5 true }

theorem follows :
    Follows config (genesis [1, 2, 3]) blocks [] (chain (genesis [1, 2, 3]) blocks) caches := by
  have hread : ∀ header ∈ blocks, (chain (genesis [1, 2, 3]) blocks).getHeader
      (config.hash header) header.number = some header := by
    decide +kernel
  have hheld : ∀ front ∈ blocks.inits, ∀ snap ∈
      caches.recents.lookup (tip config (config.hash (genesis [1, 2, 3])) front),
      replay config (genesis [1, 2, 3]) front = .ok snap := by
    decide +kernel
  have huntrusted : ∀ front ∈ blocks.inits, front ≠ [] →
      (trustedCheckpoint config (chain (genesis [1, 2, 3]) blocks) front.length
        (blocks.length - front.length)).isSome = false := by
    decide +kernel
  refine ⟨⟨blocks, rfl, by decide +kernel, ⟨rfl, rfl, rfl, trivial⟩, rfl, hread⟩, ?_, ?_, rfl, rfl⟩
  · rintro front hfront snap (hrecent | hdisk)
    · exact hheld front ((List.mem_inits _ _).mpr hfront) snap hrecent
    · cases hdisk
  · intro front hfront hne htrust
    have hfalse := huntrusted front ((List.mem_inits _ _).mpr hfront) hne
    exact absurd htrust (Bool.eq_false_iff.mp hfalse)

/-- Without transactions. -/
def execution : Execution ℕ := ⟨0, 1, 2, 3, []⟩

def prepared : Header ℕ :=
  (prepareWork config (chain (genesis [1, 2, 3]) blocks) caches localSigner ⟨[42], 30000000⟩
    ⟨9, false, 2, 0⟩ 0 9 9 (head (genesis [1, 2, 3]) blocks)).1.toOption.getD (genesis [])

/-- The checkpoint block after three blocks. -/
def checkpoint : Header ℕ :=
  (sealBlock config (chain (genesis [1, 2, 3]) blocks) caches localSigner 0
    (assemble config prepared execution)).1.toOption.getD (genesis [])

end Sample

/-- The signer of the first block signs the checkpoint block after the third, which lists the signer
that the others have added. -/
theorem sealed_verifies_sample :
    checkpointSigners Sample.checkpoint.extra = .ok [1, 2, 3, 4] ∧
      (verifyHeader Sample.config (Sample.chain (Sample.genesis [1, 2, 3]) Sample.blocks)
        Sample.caches 9 Sample.checkpoint []).1 = .ok () := by
  have hsnap : replay Sample.config (Sample.genesis [1, 2, 3]) Sample.blocks =
      .ok (Sample.after [1, 2, 3] Sample.blocks) := by
    decide +kernel
  have hgenuine : Sample.localSigner.Genuine Sample.config := by
    rintro header signature hsign
    obtain rfl := Except.ok.inj hsign
    exact ⟨rfl, rfl⟩
  obtain ⟨prepared, hprepared, hsealed⟩ := sealed_verifies Sample.localSigner ⟨[42], 30000000⟩
    ⟨9, false, 2, 0⟩ 0 hsnap (by decide) (by decide +kernel) Sample.follows Sample.follows rfl rfl
    (by decide) (by decide) (by decide) (le_refl 9) (fun _ => rfl) (by decide +kernel) hgenuine
  have hsame : Sample.prepared = prepared := by
    rw [Sample.prepared, hprepared]
    rfl
  have hblock : (sealBlock Sample.config (Sample.chain (Sample.genesis [1, 2, 3]) Sample.blocks)
      Sample.caches Sample.localSigner 0 (assemble Sample.config Sample.prepared
        Sample.execution)).1 = .ok Sample.checkpoint := by
    decide +kernel
  rw [hsame] at hblock
  obtain ⟨-, hverified⟩ := hsealed Sample.execution 0 Sample.checkpoint (Nat.zero_le _) hblock
  exact ⟨by decide +kernel, hverified [] _ Sample.caches 9 Sample.follows rfl (by decide +kernel)⟩

end Clique

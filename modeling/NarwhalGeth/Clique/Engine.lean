import NarwhalGeth.Clique.Snapshot
import NarwhalGeth.Lib.FixedWidth

/-!
# The proof-of-authority engine

The engine verifies headers against the snapshot of their parent, which it finds in memory, on disk
or at the genesis block and completes by the headers in between. It also prepares the header of a
new block and seals it.
-/

namespace Clique

open Geth (Bytes)

variable {H : Type} [DecidableEq H]

/-! ## The chain -/

structure ChainConfig where
  londonBlock : Option ℕ
  shanghaiTime : Option ℕ
  cancunTime : Option ℕ

def isForked (fork : Option ℕ) (head : ℕ) : Bool :=
  match fork with
  | none => false
  | some block => decide (block ≤ head)

namespace ChainConfig

def isLondon (config : ChainConfig) (number : ℕ) : Bool := isForked config.londonBlock number

def isShanghai (config : ChainConfig) (time : ℕ) : Bool := isForked config.shanghaiTime time

def isCancun (config : ChainConfig) (time : ℕ) : Bool := isForked config.cancunTime time

end ChainConfig

/-- What the engine reads of the chain. -/
structure ChainReader (H : Type) where
  config : ChainConfig
  getHeader : H → ℕ → Option (Header H)
  getHeaderByNumber : ℕ → Option (Header H)

/-! ## Gas limit and base fee -/

def gasLimitBoundDivisor : ℕ := 1024

def minGasLimit : ℕ := 5000

def maxGasLimit : ℕ := 0x7fffffffffffffff

def elasticityMultiplier : ℕ := 2

def baseFeeChangeDenominator : ℕ := 8

def initialBaseFee : ℕ := 1000000000

/-- A number of 64 bits that is read as a signed one. -/
def int64 (n : ℤ) : ℤ := n.bmod (2 ^ 64)

def verifyGaslimit (parentGasLimit headerGasLimit : ℕ) : Except Error Unit :=
  let diff := int64 (int64 parentGasLimit - int64 headerGasLimit)
  let diff := if diff < 0 then int64 (-diff) else diff
  let limit := parentGasLimit / gasLimitBoundDivisor
  if limit ≤ (diff % 2 ^ 64).toNat then
    .error (.message
      s!"invalid gas limit: have {headerGasLimit}, want {parentGasLimit} +-= {limit - 1}")
  else if headerGasLimit < minGasLimit then .error (.message "invalid gas limit below 5000")
  else .ok ()

/-- The gas limit of the next block, which moves towards the desired one. -/
def calcGasLimit (parentGasLimit desiredLimit : ℕ) : ℕ :=
  let delta := (parentGasLimit / gasLimitBoundDivisor + 2 ^ 64 - 1) % 2 ^ 64
  let desiredLimit := if desiredLimit < minGasLimit then minGasLimit else desiredLimit
  if parentGasLimit < desiredLimit then
    let limit := (parentGasLimit + delta) % 2 ^ 64
    if desiredLimit < limit then desiredLimit else limit
  else if desiredLimit < parentGasLimit then
    let limit := (parentGasLimit + 2 ^ 64 - delta) % 2 ^ 64
    if limit < desiredLimit then desiredLimit else limit
  else parentGasLimit

/-- The parent's gas limit, scaled up at the first block with a base fee. -/
def scaledGasLimit (config : ChainConfig) (parent : Header H) : ℕ :=
  if config.isLondon parent.number then parent.gasLimit
  else parent.gasLimit * elasticityMultiplier % 2 ^ 64

/-- The base fee of the next block. A parent after the fork has a base fee. -/
def calcBaseFee (config : ChainConfig) (parent : Header H) : ℕ :=
  let baseFee := parent.baseFee.getD 0
  if !config.isLondon parent.number then initialBaseFee
  else
    let gasTarget := parent.gasLimit / elasticityMultiplier
    if parent.gasUsed = gasTarget then baseFee
    else if gasTarget < parent.gasUsed then
      baseFee +
        max ((parent.gasUsed - gasTarget) * baseFee / gasTarget / baseFeeChangeDenominator) 1
    else baseFee - (gasTarget - parent.gasUsed) * baseFee / gasTarget / baseFeeChangeDenominator

def verifyEip1559Header (config : ChainConfig) (parent header : Header H) : Except Error Unit :=
  match verifyGaslimit (scaledGasLimit config parent) header.gasLimit with
  | .error e => .error e
  | .ok () =>
    match header.baseFee with
    | none => .error (.message "header is missing baseFee")
    | some baseFee =>
      let expected := calcBaseFee config parent
      let parentBaseFee := (parent.baseFee.map toString).getD "<nil>"
      let gasUsed := parent.gasUsed
      if baseFee ≠ expected then
        .error (.message (s!"invalid baseFee: have {baseFee}, want {expected}, " ++
          s!"parentBaseFee {parentBaseFee}, parentGasUsed {gasUsed}"))
      else .ok ()

/-! ## Signers in the extra data -/

/-- The bytes of an address, the highest one first. -/
def Address.bytes (address : Address) : Bytes := (leBytes 20 address).reverse

def Address.ofBytes (bytes : Bytes) : Address :=
  Fin.ofNat (256 ^ 20) ((bytes.take 20).foldl (fun n byte => 256 * n + byte.toNat) 0)

/-- The signers in ascending order. -/
def Voting.sortedSigners (v : Voting) : List Address :=
  Quot.liftOn v.signers.val (fun signers => signers.insertionSort (· ≤ ·)) fun _ _ h =>
    List.Perm.eq_of_pairwise' (List.pairwise_insertionSort (· ≤ ·) _)
      (List.pairwise_insertionSort (· ≤ ·) _)
      ((List.perm_insertionSort _ _).trans (h.trans (List.perm_insertionSort _ _).symm))

theorem Voting.coe_sortedSigners (v : Voting) :
    (v.sortedSigners : Multiset Address) = v.signers.val := by
  unfold sortedSigners
  generalize v.signers.val = signers
  induction signers using Quot.inductionOn with
  | h signers => exact Quot.sound (List.perm_insertionSort _ signers)

def Voting.signersBytes (v : Voting) : Bytes := v.sortedSigners.flatMap Address.bytes

/-- The signer list in the extra data of a checkpoint block. A negative length panics. -/
def checkpointSigners (extra : Bytes) : Except Error (List Address) :=
  if extra.length + 20 ≤ extraVanity + extraSeal then .error .makesliceLenOutOfRange
  else
    .ok ((List.range ((extra.length - extraVanity - extraSeal) / 20)).map fun i =>
      .ofBytes (extra.drop (extraVanity + i * 20)))

/-! ## Snapshots in memory and on disk -/

def checkpointInterval : ℕ := 1024

def inmemorySnapshots : ℕ := 128

def fullImmutabilityThreshold : ℕ := 90000

/-- The snapshots on disk, and the recently used ones in memory. -/
structure Caches (H : Type) where
  db : Assoc H (Snapshot H)
  recents : Assoc H (Snapshot H)

namespace Caches

def store (caches : Caches H) (snap : Snapshot H) : Caches H :=
  { caches with db := caches.db.insert snap.hash snap }

/-- A snapshot that is read or added comes to the front, and the last one may be evicted. -/
def add (caches : Caches H) (hash : H) (snap : Snapshot H) : Caches H :=
  { caches with recents := Assoc.truncate (caches.recents.insert hash snap) inmemorySnapshots }

/-- The snapshot of a block in memory, or on disk for checkpoints. -/
def get (caches : Caches H) (number : ℕ) (hash : H) : Option (Snapshot H × Caches H) :=
  match caches.recents.lookup hash with
  | some snap => some (snap, caches.add hash snap)
  | none =>
    if number % checkpointInterval = 0 then
      (caches.db.lookup hash).map fun snap => (snap, caches)
    else none

end Caches

/-- The block whose signer list is trusted: the genesis, or a checkpoint without a parent or far
below the given header. -/
def trustedCheckpoint (config : Config H) (chain : ChainReader H) (number gathered : ℕ) :
    Option (Header H) :=
  if number = 0 ∨ (number % config.epoch = 0 ∧
      (fullImmutabilityThreshold < gathered ∨ chain.getHeaderByNumber (number - 1) = none)) then
    chain.getHeaderByNumber number
  else none

/-- The next header on the way back, from the explicit parents while there are any. -/
def nextHeader (config : Config H) (chain : ChainReader H) (number : ℕ) (hash : H)
    (parents : List (Header H)) : Option (Header H × List (Header H)) :=
  match parents.getLast? with
  | some header =>
    if config.hash header ≠ hash ∨ header.number ≠ number then none
    else some (header, parents.dropLast)
  | none => (chain.getHeader hash number).map fun header => (header, [])

/-- Goes back to a known snapshot and gathers the headers since then, the last one first. -/
def gather (config : Config H) (chain : ChainReader H) (caches : Caches H) (number : ℕ) (hash : H)
    (parents headers : List (Header H)) :
    Except Error (Snapshot H × List (Header H)) × Caches H :=
  match caches.get number hash with
  | some (snap, caches) => (.ok (snap, headers), caches)
  | none =>
    match trustedCheckpoint config chain number headers.length with
    | some checkpoint =>
      match checkpointSigners checkpoint.extra with
      | .error e => (.error e, caches)
      | .ok signers =>
        let snap := Snapshot.newSnapshot number (config.hash checkpoint) signers
        (.ok (snap, headers), caches.store snap)
    | none =>
      match nextHeader config chain number hash parents with
      | none => (.error .unknownAncestor, caches)
      | some (header, parents) =>
        match number with
        | 0 => (.error .unknownAncestor, caches)
        | number + 1 =>
          gather config chain caches number header.parentHash parents (headers ++ [header])

/-- The snapshot after the block with the given number and hash. -/
def snapshot (config : Config H) (chain : ChainReader H) (caches : Caches H) (number : ℕ)
    (hash : H) (parents : List (Header H)) : Except Error (Snapshot H) × Caches H :=
  match gather config chain caches number hash parents [] with
  | (.error e, caches) => (.error e, caches)
  | (.ok (snap, headers), caches) =>
    match snap.apply config headers.reverse with
    | .error e => (.error e, caches)
    | .ok snap =>
      let caches := caches.add snap.hash snap
      if snap.number % checkpointInterval = 0 ∧ 0 < headers.length then
        (.ok snap, caches.store snap)
      else (.ok snap, caches)

/-! ## Verification -/

def diffInTurn : ℕ := 2

def diffNoTurn : ℕ := 1

/-- The subtraction of unsigned 64-bit numbers. -/
def sub64 (a b : ℕ) : ℕ := (a + 2 ^ 64 - b) % 2 ^ 64

/-- Whether a signer is in-turn at a block, unless there are no signers to divide by. -/
def Voting.inturn (v : Voting) (number : ℕ) (signer : Address) : Option Bool :=
  let signers := v.sortedSigners
  if signers.length = 0 then none
  else some (decide (number % signers.length = signers.idxOf signer))

def calcDifficulty (snap : Snapshot H) (signer : Address) : Option ℕ :=
  (snap.inturn (snap.number + 1) signer).map fun inturn =>
    if inturn then diffInTurn else diffNoTurn

/-- Whether the verifier takes the signer for a recent one that the block does not shift out. -/
def Voting.recentlySigned (v : Voting) (number : ℕ) (signer : Address) : Bool :=
  v.recents.entries.any fun e => e.2 = signer ∧ sub64 number v.limit < e.1

/-- Whether the local signer is a recent one that the block does not shift out. -/
def Voting.mustWait (v : Voting) (number : ℕ) (signer : Address) : Bool :=
  v.recents.entries.any fun e => e.2 = signer ∧ (number < v.limit ∨ number - v.limit < e.1)

def verifySeal (config : Config H) (snap : Snapshot H) (header : Header H) : Except Error Unit :=
  let number := header.number
  if number = 0 then .error .unknownBlock
  else
    match ecrecover config header with
    | .error e => .error e
    | .ok signer =>
      if signer ∉ snap.signers then .error .unauthorizedSigner
      else if snap.recentlySigned number signer then .error .recentlySigned
      else
        match snap.inturn number signer with
        | none => .error .integerDivideByZero
        | some inturn =>
          if inturn ∧ header.difficulty ≠ diffInTurn then .error .wrongDifficulty
          else if ¬ inturn ∧ header.difficulty ≠ diffNoTurn then .error .wrongDifficulty
          else .ok ()

/-- The checks on gas that depend on the parent. -/
def verifyGas (config : ChainConfig) (parent header : Header H) : Except Error Unit :=
  let gasUsed := header.gasUsed
  let gasLimit := header.gasLimit
  if gasLimit < gasUsed then
    .error (.message s!"invalid gasUsed: have {gasUsed}, gasLimit {gasLimit}")
  else if !config.isLondon header.number then
    match header.baseFee with
    | some baseFee =>
      .error (.message s!"invalid baseFee before fork: have {baseFee}, want <nil>")
    | none => verifyGaslimit parent.gasLimit gasLimit
  else verifyEip1559Header config parent header

/-- The checks against the snapshot of the parent. -/
def verifySnapshot (config : Config H) (snap : Snapshot H) (header : Header H) :
    Except Error Unit :=
  let extraSuffix := header.extra.length - extraSeal
  if header.number % config.epoch = 0 ∧
      (header.extra.take extraSuffix).drop extraVanity ≠ snap.signersBytes then
    .error .mismatchingCheckpointSigners
  else verifySeal config snap header

def verifyCascadingFields (config : Config H) (chain : ChainReader H) (caches : Caches H)
    (header : Header H) (parents : List (Header H)) : Except Error Unit × Caches H :=
  let number := header.number
  if number = 0 then (.ok (), caches)
  else
    let parent := match parents.getLast? with
      | some parent => some parent
      | none => chain.getHeader header.parentHash (number - 1)
    match parent with
    | none => (.error .unknownAncestor, caches)
    | some parent =>
      if parent.number ≠ number - 1 ∨ config.hash parent ≠ header.parentHash then
        (.error .unknownAncestor, caches)
      else if header.time < (parent.time + config.period) % 2 ^ 64 then
        (.error .invalidTimestamp, caches)
      else
        match verifyGas chain.config parent header with
        | .error e => (.error e, caches)
        | .ok () =>
          match snapshot config chain caches (number - 1) header.parentHash parents with
          | (.error e, caches) => (.error e, caches)
          | (.ok snap, caches) => (verifySnapshot config snap header, caches)

/-- The checks of a header on its own. -/
def verifyStandalone (config : Config H) (chain : ChainConfig) (now : ℕ) (header : Header H) :
    Except Error Unit :=
  let checkpoint := header.number % config.epoch = 0
  let signersBytes := header.extra.length - extraVanity - extraSeal
  let gasLimit := header.gasLimit
  if now < header.time then .error .futureBlock
  else if checkpoint ∧ header.coinbase ≠ 0 then .error .invalidCheckpointBeneficiary
  else if header.nonce ≠ nonceAuthVote ∧ header.nonce ≠ nonceDropVote then .error .invalidVote
  else if checkpoint ∧ header.nonce ≠ nonceDropVote then .error .invalidCheckpointVote
  else if header.extra.length < extraVanity then .error .missingVanity
  else if header.extra.length < extraVanity + extraSeal then .error .missingSignature
  else if ¬ checkpoint ∧ signersBytes ≠ 0 then .error .extraSigners
  else if checkpoint ∧ signersBytes % 20 ≠ 0 then .error .invalidCheckpointSigners
  else if header.mixDigest ≠ config.zeroHash then .error .invalidMixDigest
  else if header.uncleHash ≠ config.uncleHash then .error .invalidUncleHash
  else if 0 < header.number ∧ header.difficulty ≠ diffInTurn ∧ header.difficulty ≠ diffNoTurn then
    .error .invalidDifficulty
  else if maxGasLimit < gasLimit then
    .error (.message s!"invalid gasLimit: have {gasLimit}, max {maxGasLimit}")
  else if chain.isShanghai header.time then
    .error (.message "clique does not support shanghai fork")
  else if chain.isCancun header.time then
    .error (.message "clique does not support cancun fork")
  else .ok ()

/-- Checks whether a header conforms to the consensus rules. -/
def verifyHeader (config : Config H) (chain : ChainReader H) (caches : Caches H) (now : ℕ)
    (header : Header H) (parents : List (Header H)) : Except Error Unit × Caches H :=
  match verifyStandalone config chain.config now header with
  | .error e => (.error e, caches)
  | .ok () => verifyCascadingFields config chain caches header parents

/-! ## Production -/

/-- The local signer with its pending proposals. -/
structure LocalSigner (H : Type) where
  signer : Address
  signFn : H → Except Error Bytes
  proposals : Assoc Address Bool

/-- The coinbase and nonce of a new block: one of the proposals that make sense voting on. -/
def chooseVote (v : Voting) (proposals : Assoc Address Bool) (pick : ℕ) : Address × UInt64 :=
  let valid := proposals.entries.filter fun e => v.validVote e.1 e.2
  match valid[pick % valid.length]? with
  | none => (0, nonceDropVote)
  | some e => (e.1, if e.2 then nonceAuthVote else nonceDropVote)

/-- The extra data of a new block: the vanity, the signers on a checkpoint, and space for the
signature. -/
def prepareExtra (config : Config H) (v : Voting) (number : ℕ) (extra : Bytes) : Bytes :=
  (extra ++ List.replicate (extraVanity - extra.length) 0).take extraVanity ++
    (if number % config.epoch = 0 then v.signersBytes else []) ++ List.replicate extraSeal 0

/-- Prepares the consensus fields of a header. `pick` chooses a proposal at random, and `now` and
`later` are two readings of the clock. -/
def prepare (config : Config H) (chain : ChainReader H) (caches : Caches H) (author : LocalSigner H)
    (pick now later : ℕ) (header : Header H) : Except Error (Header H) × Caches H :=
  let number := header.number
  match snapshot config chain caches (number - 1) header.parentHash [] with
  | (.error e, caches) => (.error e, caches)
  | (.ok snap, caches) =>
    let vote :=
      if number % config.epoch ≠ 0 then chooseVote snap.toVoting author.proposals pick
      else (0, nonceDropVote)
    match calcDifficulty snap author.signer with
    | none => (.error .integerDivideByZero, caches)
    | some difficulty =>
      match chain.getHeader header.parentHash (number - 1) with
      | none => (.error .unknownAncestor, caches)
      | some parent =>
        let time := (parent.time + config.period) % 2 ^ 64
        (.ok { header with
          coinbase := vote.1
          nonce := vote.2
          difficulty
          extra := prepareExtra config snap.toVoting number header.extra
          mixDigest := config.zeroHash
          time := if time < now then later else time }, caches)

/-- Signs a block with the local credentials. The delay before the block is sent does not change
it. -/
def sealBlock (config : Config H) (chain : ChainReader H) (caches : Caches H)
    (author : LocalSigner H) (transactions : ℕ) (header : Header H) :
    Except Error (Header H) × Caches H :=
  let number := header.number
  if number = 0 then (.error .unknownBlock, caches)
  else if config.period = 0 ∧ transactions = 0 then
    (.error (.message "sealing paused while waiting for transactions"), caches)
  else
    match snapshot config chain caches (number - 1) header.parentHash [] with
    | (.error e, caches) => (.error e, caches)
    | (.ok snap, caches) =>
      if author.signer ∉ snap.signers then (.error .unauthorizedSigner, caches)
      else if snap.mustWait number author.signer then
        (.error (.message "signed recently, must wait for others"), caches)
      else
        match author.signFn (sealHash config header) with
        | .error e => (.error e, caches)
        | .ok signature =>
          let front := header.extra.take (header.extra.length - extraSeal)
          let space := header.extra.drop (header.extra.length - extraSeal)
          let filled := signature.take space.length ++ space.drop signature.length
          (.ok { header with extra := front ++ filled }, caches)

end Clique

import Mathlib.Algebra.Order.Ring.Nat
import Mathlib.Data.Finset.Sort
import NarwhalGeth.Geth.Adapter
import NarwhalGeth.Lib.Assoc
import NarwhalGeth.Lib.Fallible

/-!
# Voting snapshots

The set of authorised signers is kept in the chain itself: each block carries a vote for or against
an address, and votes are counted until the next epoch. A snapshot is the state of the voting after
a block.
-/

namespace Clique

open Geth (Bytes)

/-- An address of twenty bytes, as a big-endian number. -/
abbrev Address := Fin (256 ^ 20)

instance neZero_addresses : NeZero (256 ^ 20) := ⟨by decide⟩

structure Header (H : Type) where
  parentHash : H
  uncleHash : H
  coinbase : Address
  root : H
  txHash : H
  receiptHash : H
  bloom : Bytes
  difficulty : ℕ
  number : ℕ
  gasLimit : ℕ
  gasUsed : ℕ
  time : ℕ
  extra : Bytes
  mixDigest : H
  nonce : UInt64
  baseFee : Option ℕ
deriving DecidableEq

inductive Error where
  | unknownBlock
  | unknownAncestor
  | futureBlock
  | invalidCheckpointBeneficiary
  | invalidVote
  | invalidCheckpointVote
  | missingVanity
  | missingSignature
  | extraSigners
  | invalidCheckpointSigners
  | mismatchingCheckpointSigners
  | invalidMixDigest
  | invalidUncleHash
  | invalidDifficulty
  | wrongDifficulty
  | invalidTimestamp
  | invalidVotingChain
  | unauthorizedSigner
  | recentlySigned
  | invalidSignature
  | message (text : String)
  -- The panics of a division by zero and of a slice of negative length.
  | integerDivideByZero
  | makesliceLenOutOfRange
deriving DecidableEq

/-- The parameters of the engine, with the hash of a header and of what is signed of it, the
recovery of the signer from a signature, the hash of no uncles and the zero hash. -/
structure Config (H : Type) where
  period : ℕ
  epoch : ℕ
  epoch_pos : 0 < epoch
  hash : Header H → H
  sigHash : Header H → H
  recover : H → Bytes → Option Address
  uncleHash : H
  zeroHash : H

/-- The number of bytes of the signer vanity at the front of the extra data. -/
def extraVanity : ℕ := 32

/-- The number of bytes of the signature at the end of the extra data. -/
def extraSeal : ℕ := 65

/-- The nonce of a vote to add a signer. -/
def nonceAuthVote : UInt64 := 0xffffffffffffffff

/-- The nonce of a vote to remove a signer. -/
def nonceDropVote : UInt64 := 0

variable {H : Type} {headers : List (Header H)} {number : ℕ}

/-- The hash of a block before it is sealed. -/
def sealHash (config : Config H) (header : Header H) : H :=
  config.sigHash { header with extra := header.extra.take (header.extra.length - extraSeal) }

/-- The account that signed a header. -/
def ecrecover (config : Config H) (header : Header H) : Except Error Address :=
  if header.extra.length < extraSeal then .error .missingSignature
  else
    let signature := header.extra.drop (header.extra.length - extraSeal)
    match config.recover (sealHash config header) signature with
    | some signer => .ok signer
    | none => .error .invalidSignature

/-- A vote of an authorised signer to change the list of authorisations. -/
structure Vote where
  signer : Address
  block : ℕ
  address : Address
  authorize : Bool
deriving DecidableEq

/-- The current score of the votes on an address. -/
structure Tally where
  authorize : Bool
  votes : ℕ
deriving DecidableEq

/-! ## The state of the voting -/

/-- What the headers change in a snapshot. -/
structure Voting where
  signers : Finset Address
  recents : Assoc ℕ Address
  votes : List Vote
  tally : Assoc Address Tally

namespace Voting

instance : DecidableEq Voting := fun v w =>
  decidable_of_iff (v.signers = w.signers ∧ v.recents.entries = w.recents.entries ∧
    v.votes = w.votes ∧ v.tally.entries = w.tally.entries) (by
      obtain ⟨signers, recents, votes, tally⟩ := v
      obtain ⟨signers', recents', votes', tally'⟩ := w
      simp only [mk.injEq, AList.ext_iff])

/-- Whether it makes sense to cast the vote. -/
def validVote (v : Voting) (address : Address) (authorize : Bool) : Bool :=
  (address ∈ v.signers && !authorize) || (address ∉ v.signers && authorize)

/-- Adds a new vote to the tally, if it makes sense. -/
def cast (v : Voting) (address : Address) (authorize : Bool) : Bool × Voting :=
  if v.validVote address authorize then
    let tally := match v.tally.lookup address with
      | some old => v.tally.insert address { old with votes := old.votes + 1 }
      | none => v.tally.insert address ⟨authorize, 1⟩
    (true, { v with tally })
  else (false, v)

/-- Removes a previously cast vote from the tally. -/
def uncast (v : Voting) (address : Address) (authorize : Bool) : Voting :=
  match v.tally.lookup address with
  | none => v
  | some tally =>
    if tally.authorize ≠ authorize then v
    else if 1 < tally.votes then
      { v with tally := v.tally.insert address { tally with votes := tally.votes - 1 } }
    else { v with tally := v.tally.erase address }

/-- The number of blocks in which a signer may sign one. -/
def limit (v : Voting) : ℕ := v.signers.card / 2 + 1

/-- Removes any votes on checkpoint blocks. -/
def reset (config : Config H) (number : ℕ) (v : Voting) : Voting :=
  if number % config.epoch = 0 then { v with votes := [], tally := ∅ } else v

/-- Deletes the oldest signer from the recent list to allow it signing again. -/
def shiftRecents (number : ℕ) (v : Voting) : Voting :=
  if v.limit ≤ number then { v with recents := v.recents.erase (number - v.limit) } else v

/-- What a new block number lets expire. -/
def expire (config : Config H) (number : ℕ) (v : Voting) : Voting :=
  (v.reset config number).shiftRecents number

/-- Discards the previous vote of a signer on an address. -/
def discardVote (signer address : Address) (v : Voting) : Voting :=
  match v.votes.find? fun vote => vote.signer = signer ∧ vote.address = address with
  | none => v
  | some vote =>
    { v.uncast vote.address vote.authorize with
      votes := v.votes.eraseP fun vote => vote.signer = signer ∧ vote.address = address }

/-- Casts the vote of a signer. -/
def addVote (signer : Address) (number : ℕ) (address : Address) (authorize : Bool) (v : Voting) :
    Voting :=
  let (counted, v) := v.cast address authorize
  if counted then { v with votes := v.votes ++ [⟨signer, number, address, authorize⟩] } else v

/-- Discards the votes that a deauthorised signer cast. -/
def discardVotesOf (signer : Address) (v : Voting) : Voting :=
  let cast := v.votes.filter fun vote => vote.signer = signer
  { cast.foldl (fun v vote => v.uncast vote.address vote.authorize) v with
    votes := v.votes.filter fun vote => vote.signer ≠ signer }

/-- Updates the list of signers if the vote on an address passed. -/
def settle (number : ℕ) (address : Address) (v : Voting) : Voting :=
  let tally := (v.tally.lookup address).getD ⟨false, 0⟩
  if v.signers.card / 2 < tally.votes then
    let v :=
      if tally.authorize then { v with signers := insert address v.signers }
      else
        discardVotesOf address (shiftRecents number { v with signers := v.signers.erase address })
    { v with
      votes := v.votes.filter fun vote => vote.address ≠ address
      tally := v.tally.erase address }
  else v

/-- Whether a nonce votes for an authorisation. -/
def authorizes (nonce : UInt64) : Option Bool :=
  if nonce = nonceAuthVote then some true
  else if nonce = nonceDropVote then some false
  else none

/-- The effect of the vote in a block. -/
def vote (signer : Address) (number : ℕ) (address : Address) (authorize : Bool) (v : Voting) :
    Voting :=
  ((v.discardVote signer address).addVote signer number address authorize).settle number address

/-- The effect of one header. -/
def applyHeader (config : Config H) (v : Voting) (header : Header H) : Except Error Voting :=
  let number := header.number
  let v := v.expire config number
  match ecrecover config header with
  | .error e => .error e
  | .ok signer =>
    if signer ∉ v.signers then .error .unauthorizedSigner
    else if v.recents.entries.any fun e => e.2 = signer then .error .recentlySigned
    else
      let v := { v with recents := v.recents.insert number signer }
      match authorizes header.nonce with
      | none => .error .invalidVote
      | some authorize => .ok (v.vote signer number header.coinbase authorize)

end Voting

/-- The state of the voting at a block. -/
structure Snapshot (H : Type) extends Voting where
  number : ℕ
  hash : H
deriving DecidableEq

namespace Snapshot

def newSnapshot (number : ℕ) (hash : H) (signers : List Address) : Snapshot H where
  signers := signers.toFinset
  recents := ∅
  votes := []
  tally := ∅
  number
  hash

/-- Applies headers, after a check that their numbers follow each other. -/
def apply (config : Config H) (snap : Snapshot H) (headers : List (Header H)) :
    Except Error (Snapshot H) :=
  match headers with
  | [] => .ok snap
  | first :: rest =>
    if ¬ (first :: rest).IsChain (fun header next => next.number = header.number + 1) then
      .error .invalidVotingChain
    else if first.number ≠ snap.number + 1 then .error .invalidVotingChain
    else
      match (first :: rest).foldlM (Voting.applyHeader config) snap.toVoting with
      | .error e => .error e
      | .ok v => .ok
        { toVoting := v
          number := snap.number + (first :: rest).length
          hash := config.hash ((first :: rest).getLast (List.cons_ne_nil first rest)) }

/-! ## Applying headers in parts -/

/-- The numbers of the headers follow the given one. -/
def Numbered : ℕ → List (Header H) → Prop
  | _, [] => True
  | number, header :: headers => header.number = number + 1 ∧ Numbered (number + 1) headers

theorem numbered_append {headers' : List (Header H)} :
    Numbered number (headers ++ headers') ↔
      Numbered number headers ∧ Numbered (number + headers.length) headers' := by
  induction headers generalizing number with
  | nil => simp [Numbered]
  | cons header headers ih =>
    rw [List.cons_append, Numbered, Numbered, ih, List.length_cons, and_assoc,
      Nat.add_right_comm, Nat.add_assoc]

theorem numbered_cons_iff {header : Header H} :
    Numbered number (header :: headers) ↔ header.number = number + 1 ∧
      (header :: headers).IsChain fun header next => next.number = header.number + 1 := by
  induction headers generalizing number header with
  | nil => simp [Numbered]
  | cons next headers ih =>
    rw [Numbered, ih, List.isChain_cons_cons]
    constructor
    · rintro ⟨hheader, hnext, hchain⟩
      exact ⟨hheader, by omega, hchain⟩
    · rintro ⟨hheader, hnext, hchain⟩
      exact ⟨hheader, by omega, hchain⟩

instance decidableNumbered : ∀ (number : ℕ) (headers : List (Header H)),
    Decidable (Numbered number headers)
  | _, [] => .isTrue trivial
  | number, _ :: headers =>
    have := decidableNumbered (number + 1) headers
    inferInstanceAs (Decidable (_ ∧ _))

/-- The hash after some headers. -/
def tip (config : Config H) (hash : H) (headers : List (Header H)) : H :=
  (headers.getLast?.map config.hash).getD hash

theorem tip_append (config : Config H) (hash : H) (headers headers' : List (Header H)) :
    tip config hash (headers ++ headers') = tip config (tip config hash headers) headers' := by
  rcases List.eq_nil_or_concat headers' with rfl | ⟨front, last, rfl⟩
  · rw [List.append_nil]
    rfl
  · simp [tip]

variable {config : Config H} {snap snap' : Snapshot H} {headers headers' : List (Header H)}

theorem apply_eq : snap.apply config headers =
    if Numbered snap.number headers then
      (headers.foldlM (Voting.applyHeader config) snap.toVoting).map fun v =>
        ⟨v, snap.number + headers.length, tip config snap.hash headers⟩
    else .error .invalidVotingChain := by
  cases headers with
  | nil => rfl
  | cons first rest =>
    have hiff : Numbered snap.number (first :: rest) ↔ first.number = snap.number + 1 ∧
        (first :: rest).IsChain fun header next => next.number = header.number + 1 :=
      numbered_cons_iff
    unfold apply
    by_cases hnumbered : Numbered snap.number (first :: rest)
    · obtain ⟨hfirst, hchain⟩ := hiff.mp hnumbered
      dsimp only
      rw [if_neg (not_not.mpr hchain), if_neg (not_not.mpr hfirst), if_pos hnumbered, tip,
        List.getLast?_eq_some_getLast (List.cons_ne_nil first rest)]
      cases (first :: rest).foldlM (Voting.applyHeader config) snap.toVoting <;> rfl
    · rw [if_neg hnumbered]
      dsimp only
      split_ifs with hchain hfirst
      · rfl
      · exact absurd (hiff.mpr ⟨not_not.mp hfirst, hchain⟩) hnumbered
      · rfl

theorem apply_eq_ok (h : snap.apply config headers = .ok snap') :
    Numbered snap.number headers ∧
      headers.foldlM (Voting.applyHeader config) snap.toVoting = .ok snap'.toVoting ∧
      snap'.number = snap.number + headers.length ∧ snap'.hash = tip config snap.hash headers := by
  rw [apply_eq] at h
  split_ifs at h with hnumbered
  obtain ⟨v, hv, rfl⟩ := Except.eq_ok_of_map h
  exact ⟨hnumbered, hv, rfl, rfl⟩

/-- What each header keeps of the voting and the block number, all headers keep. -/
theorem apply_invariant {I : Voting → ℕ → Prop}
    (hstep : ∀ v v' header number, I v number → header.number = number + 1 →
      Voting.applyHeader config v header = .ok v' → I v' (number + 1))
    (hsnap : I snap.toVoting snap.number) (h : snap.apply config headers = .ok snap') :
    I snap'.toVoting snap'.number := by
  obtain ⟨hnumbered, hfold, hnumber, -⟩ := apply_eq_ok h
  rw [hnumber]
  generalize snap.toVoting = v at hsnap hfold
  generalize snap.number = number at hsnap hnumbered
  clear h hnumber
  induction headers generalizing v number with
  | nil =>
    cases hfold
    exact hsnap
  | cons header headers ih =>
    rw [List.foldlM_cons] at hfold
    obtain ⟨v', hv, hrest⟩ := Except.eq_ok_of_bind hfold
    rw [List.length_cons, Nat.add_comm headers.length, ← Nat.add_assoc]
    exact ih v' hrest (number + 1) (hstep v v' header number hsnap hnumbered.1 hv) hnumbered.2

/-- On headers whose numbers follow the snapshot, the loop can be stopped and continued. -/
theorem apply_append_of_numbered (h : Numbered snap.number (headers ++ headers')) :
    snap.apply config (headers ++ headers') =
      (snap.apply config headers).bind fun middle => middle.apply config headers' := by
  obtain ⟨hfirst, hsecond⟩ := numbered_append.mp h
  rw [apply_eq, if_pos h, apply_eq, if_pos hfirst, List.foldlM_append]
  cases headers.foldlM (Voting.applyHeader config) snap.toVoting with
  | error e => rfl
  | ok v =>
    change _ = apply config ⟨v, snap.number + headers.length, tip config snap.hash headers⟩ headers'
    rw [apply_eq, if_pos hsecond, tip_append, List.length_append, ← Nat.add_assoc]
    rfl

theorem toOption_apply_append :
    (snap.apply config (headers ++ headers')).toOption =
      ((snap.apply config headers).bind fun middle => middle.apply config headers').toOption := by
  by_cases h : Numbered snap.number (headers ++ headers')
  · rw [apply_append_of_numbered h]
  · rw [apply_eq, if_neg h]
    cases happly : snap.apply config headers with
    | error e => rfl
    | ok middle =>
      obtain ⟨hfirst, -, hnumber, -⟩ := apply_eq_ok happly
      have hsecond : ¬ Numbered middle.number headers' := by
        rw [hnumber]
        exact fun hsecond => h (numbered_append.mpr ⟨hfirst, hsecond⟩)
      change _ = (middle.apply config headers').toOption
      rw [apply_eq, if_neg hsecond]

end Snapshot

end Clique

import Mathlib.Data.Vector.Basic
import NarwhalGeth.Lib.FixedWidth
import NarwhalGeth.Narwhal.Messages

/-!
# What the digest of a header binds

The digest of a header is the hash of its fields, written one after the other. They all have a fixed
width, but nothing tells how many entries there are. Eight entries of the payload are as long as
eleven parents, so that a header can be read as another one.
-/

namespace Narwhal

variable {K : Type}

/-- A digest of 32 bytes. -/
abbrev Digest := List.Vector UInt8 32

/-! ## The bytes that are hashed -/

/-- An entry of the payload: the digest of a batch, the worker's id and the batch's timestamp. -/
def payloadEntryBytes (entry : Digest × ℕ × ℕ) : List UInt8 :=
  entry.1.toList ++ (leBytes 4 entry.2.1 ++ leBytes 8 entry.2.2)

/-- The payload and the parents. -/
def bodyBytes (payload : List (Digest × ℕ × ℕ)) (parents : List Digest) : List UInt8 :=
  payload.flatMap payloadEntryBytes ++ parents.flatMap List.Vector.toList

/-- The fields of a header, in the order in which they are hashed. -/
def headerBytes (encode : K → List UInt8) (author : K) (round epoch createdAt : ℕ)
    (payload : List (Digest × ℕ × ℕ)) (parents : List Digest) : List UInt8 :=
  encode author ++ (leBytes 8 round ++ (leBytes 8 epoch ++ (leBytes 8 createdAt ++
    bodyBytes payload parents)))

/-- The cryptography of a node, given the encoding of keys, the hash function and the verification
of signatures. -/
def Crypto.ofHash (encode : K → List UInt8) (hash : List UInt8 → Digest)
    (verify : K → Digest → Signature → Bool)
    (verifyAggregate : List K → Digest → Signature → Bool) : Crypto K Digest where
  hash author round epoch createdAt payload parents :=
    hash (headerBytes encode author round epoch createdAt payload parents)
  verify := verify
  verifyAggregate := verifyAggregate

/-- A header with the widths of its numbers, and with what the map of its payload and the set of its
parents keep. -/
structure SizedHeader (K : Type) extends Header K Digest where
  round_lt : round < 2 ^ 64
  epoch_lt : epoch < 2 ^ 64
  createdAt_lt : createdAt < 2 ^ 64
  payload_lt : ∀ entry ∈ payload, entry.2.1 < 2 ^ 32 ∧ entry.2.2 < 2 ^ 64
  payload_nodup : (payload.map Prod.fst).Nodup
  parents_lt : parents.Pairwise fun parent parent' => parent.toList < parent'.toList

namespace Header

/-- The header has the widths, and its payload and parents are a map and a set. -/
def IsSized (header : Header K Digest) : Prop := ∃ sized : SizedHeader K, sized.toHeader = header

/-- The bytes whose hash is the digest. -/
def hashedBytes (encode : K → List UInt8) (header : Header K Digest) : List UInt8 :=
  headerBytes encode header.author header.round header.epoch header.createdAt header.payload
    header.parents

/-- The headers agree in everything but the digest and the signature they carry. -/
structure SameContents {D : Type} (header header' : Header K D) : Prop where
  author : header.author = header'.author
  round : header.round = header'.round
  epoch : header.epoch = header'.epoch
  createdAt : header.createdAt = header'.createdAt
  payload : header.payload = header'.payload
  parents : header.parents = header'.parents

/-- Two headers with one digest have the same contents, also if they carry it and it passes their
verification. -/
structure BoundByDigest {D : Type} [DecidableEq K] [DecidableEq D] (crypto : Crypto K D)
    (header header' : Header K D) : Prop where
  hash : header.hash crypto = header'.hash crypto → header.SameContents header'
  verify : ∀ workerCache committee, header.verify crypto workerCache committee = .ok () →
    header'.verify crypto workerCache committee = .ok () → header.digest = header'.digest →
    header.SameContents header'

/-- The headers have the same bytes, cut into different numbers of entries of the payload. -/
structure Confusable (header header' : Header K Digest) : Prop where
  author : header.author = header'.author
  round : header.round = header'.round
  epoch : header.epoch = header'.epoch
  createdAt : header.createdAt = header'.createdAt
  body : bodyBytes header.payload header.parents = bodyBytes header'.payload header'.parents
  entries : header.payload.length ≠ header'.payload.length

end Header

/-! ## Reading the bytes back -/

theorem fixedWidth_digest :
    FixedWidth Set.univ 32 (List.Vector.toList : Digest → List UInt8) where
  length_eq digest _ := digest.toList_length
  injOn := Subtype.val_injective.injOn

theorem fixedWidth_payloadEntryBytes :
    FixedWidth (Set.univ ×ˢ ({n | n < 256 ^ 4} ×ˢ {n | n < 256 ^ 8})) (32 + (4 + 8))
      payloadEntryBytes :=
  fixedWidth_digest.prod ((fixedWidth_leBytes 4).prod (fixedWidth_leBytes 8))

namespace SizedHeader

variable {encode : K → List UInt8} {width : ℕ} {header header' : SizedHeader K}

theorem payload_mem (header : SizedHeader K) : ∀ entry ∈ header.payload,
    entry ∈ (Set.univ ×ˢ ({n | n < 256 ^ 4} ×ˢ {n | n < 256 ^ 8}) : Set (Digest × ℕ × ℕ)) :=
  fun entry hentry => ⟨trivial, header.payload_lt entry hentry⟩

theorem bodyBytes_inj
    (heq : bodyBytes header.payload header.parents = bodyBytes header'.payload header'.parents)
    (hlength : header.payload.length = header'.payload.length) :
    header.payload = header'.payload ∧ header.parents = header'.parents := by
  obtain ⟨hpayload, hparents⟩ := fixedWidth_payloadEntryBytes.flatMap_append_inj
    header.payload_mem header'.payload_mem hlength heq
  exact ⟨hpayload, fixedWidth_digest.flatMap_inj (by decide) (fun _ _ => trivial)
    (fun _ _ => trivial) hparents⟩

theorem hashedBytes_inj (hencode : FixedWidth Set.univ width encode)
    (heq : header.hashedBytes encode = header'.hashedBytes encode) :
    header.author = header'.author ∧ header.round = header'.round ∧
      header.epoch = header'.epoch ∧ header.createdAt = header'.createdAt ∧
      bodyBytes header.payload header.parents = bodyBytes header'.payload header'.parents := by
  have h8 := fixedWidth_leBytes 8
  obtain ⟨hauthor, heq⟩ := hencode.append_inj trivial trivial heq
  obtain ⟨hround, heq⟩ := h8.append_inj header.round_lt header'.round_lt heq
  obtain ⟨hepoch, heq⟩ := h8.append_inj header.epoch_lt header'.epoch_lt heq
  obtain ⟨hcreated, heq⟩ := h8.append_inj header.createdAt_lt header'.createdAt_lt heq
  exact ⟨hauthor, hround, hepoch, hcreated, heq⟩

theorem sameContents_of_hashedBytes (hencode : FixedWidth Set.univ width encode)
    (hcut : ¬header.Confusable header'.toHeader)
    (heq : header.hashedBytes encode = header'.hashedBytes encode) :
    header.SameContents header'.toHeader := by
  obtain ⟨hauthor, hround, hepoch, hcreated, hbody⟩ := hashedBytes_inj hencode heq
  have hlength : header.payload.length = header'.payload.length := by
    by_contra hne
    exact hcut ⟨hauthor, hround, hepoch, hcreated, hbody, hne⟩
  obtain ⟨hpayload, hparents⟩ := bodyBytes_inj hbody hlength
  exact ⟨hauthor, hround, hepoch, hcreated, hpayload, hparents⟩

theorem hashedBytes_of_confusable (h : header.Confusable header'.toHeader) :
    header.hashedBytes encode = header'.hashedBytes encode := by
  unfold Header.hashedBytes headerBytes
  rw [h.author, h.round, h.epoch, h.createdAt, h.body]

end SizedHeader

/-! ## What the digest binds -/

/-- If the hash function has no collision on their bytes, two headers are bound by their digest
exactly if they are not confusable. -/
theorem SizedHeader.boundByDigest_iff [DecidableEq K] {encode : K → List UInt8} {width : ℕ}
    (hencode : FixedWidth Set.univ width encode) (hash : List UInt8 → Digest)
    (verify : K → Digest → Signature → Bool)
    (verifyAggregate : List K → Digest → Signature → Bool) (header header' : SizedHeader K)
    (hfree : Set.InjOn hash {header.hashedBytes encode, header'.hashedBytes encode}) :
    Header.BoundByDigest (Crypto.ofHash encode hash verify verifyAggregate) header.toHeader
        header'.toHeader ↔ ¬header.Confusable header'.toHeader := by
  constructor
  · intro hbound hconfusable
    have hhash : hash (header.hashedBytes encode) = hash (header'.hashedBytes encode) := by
      rw [hashedBytes_of_confusable hconfusable]
    exact hconfusable.entries (congrArg List.length (hbound.hash hhash).payload)
  · intro hcut
    have hsame : hash (header.hashedBytes encode) = hash (header'.hashedBytes encode) →
        header.SameContents header'.toHeader := fun hhash =>
      sameContents_of_hashedBytes hencode hcut (hfree (by simp) (by simp) hhash)
    refine ⟨hsame, fun workerCache committee hverify hverify' hdigest => hsame ?_⟩
    have hcarried := (Header.verify_eq_ok hverify).2.1
    have hcarried' := (Header.verify_eq_ok hverify').2.1
    exact hcarried.symm.trans (hdigest.trans hcarried')

namespace Sample

/-- The key of an authority is one byte. -/
def encodeKey (name : Fin 4) : List UInt8 := [UInt8.ofNat name]

theorem fixedWidth_encodeKey : FixedWidth Set.univ 1 encodeKey where
  length_eq _ _ := rfl
  injOn := by
    have hinjective : Function.Injective encodeKey := by decide
    exact hinjective.injOn

/-- A digest that is zero but for one byte. -/
def byteDigest (position : ℕ) (value : UInt8) : Digest :=
  ⟨(List.range 32).map fun i => if i = position then value else 0, by simp⟩

/-- Eleven parents. -/
def elevenParents : List Digest :=
  (List.range 11).map fun i => byteDigest 0 (UInt8.ofNat (i + 1))

/-- The bytes of the eleven parents as eight entries of a payload. -/
def eightEntries : List (Digest × ℕ × ℕ) :=
  [(byteDigest 0 1, 2, 0), (byteDigest 20 3, 0, 0), (byteDigest 8 4, 0, 5 * 256 ^ 4),
    (byteDigest 28 6, 0, 0), (byteDigest 16 7, 0, 0), (byteDigest 4 8, 0, 9),
    (byteDigest 24 10, 0, 0), (byteDigest 12 11, 0, 0)]

theorem zero_lt_word : 0 < 2 ^ 64 := by decide

theorem noEntries_lt : ∀ entry ∈ ([] : List (Digest × ℕ × ℕ)),
    entry.2.1 < 2 ^ 32 ∧ entry.2.2 < 2 ^ 64 := by decide

theorem noEntries_nodup : (([] : List (Digest × ℕ × ℕ)).map Prod.fst).Nodup := by decide

theorem eightEntries_lt : ∀ entry ∈ eightEntries, entry.2.1 < 2 ^ 32 ∧ entry.2.2 < 2 ^ 64 := by
  decide

theorem eightEntries_nodup : (eightEntries.map Prod.fst).Nodup := by decide +kernel

/-- A header with the first `n` of these parents, and the digest and signature it is sent with. -/
def parentsHeader (n : ℕ) (digest : Digest) (signature : Signature) : SizedHeader (Fin 4) where
  author := 0
  round := 2
  epoch := 0
  createdAt := 0
  payload := []
  parents := elevenParents.take n
  digest := digest
  signature := signature
  round_lt := by decide
  epoch_lt := zero_lt_word
  createdAt_lt := zero_lt_word
  payload_lt := noEntries_lt
  payload_nodup := noEntries_nodup
  parents_lt := by
    have hparents : elevenParents.Pairwise fun parent parent' =>
        parent.toList < parent'.toList := by decide +kernel
    exact hparents.take

/-- A header with the eight entries. -/
def eightEntriesHeader (digest : Digest) (signature : Signature) : SizedHeader (Fin 4) where
  author := 0
  round := 2
  epoch := 0
  createdAt := 0
  payload := eightEntries
  parents := []
  digest := digest
  signature := signature
  round_lt := by decide
  epoch_lt := zero_lt_word
  createdAt_lt := zero_lt_word
  payload_lt := eightEntries_lt
  payload_nodup := eightEntries_nodup
  parents_lt := by decide

/-- The length in place of a hash. -/
def lengthDigest (bytes : List UInt8) : Digest := byteDigest 0 (UInt8.ofNat bytes.length)

/-- The digest itself stands for a signature of it. -/
def plainCrypto (hash : List UInt8 → Digest) : Crypto (Fin 4) Digest :=
  .ofHash encodeKey hash
    (fun _ digest signature => signature = digest.toList)
    (fun _ digest signature => signature = digest.toList)

end Sample

/-- Two headers without a payload. -/
theorem SizedHeader.boundByDigest_iff_parents :
    Header.BoundByDigest (Sample.plainCrypto Sample.lengthDigest)
      (Sample.parentsHeader 11 (Sample.byteDigest 0 0) []).toHeader
      (Sample.parentsHeader 10 (Sample.byteDigest 0 0) []).toHeader := by
  have hfree : Set.InjOn Sample.lengthDigest
      {(Sample.parentsHeader 11 (Sample.byteDigest 0 0) []).hashedBytes Sample.encodeKey,
        (Sample.parentsHeader 10 (Sample.byteDigest 0 0) []).hashedBytes Sample.encodeKey} := by
    rw [Set.injOn_pair]
    intro hhash
    exact absurd hhash (by decide +kernel)
  exact (SizedHeader.boundByDigest_iff Sample.fixedWidth_encodeKey _ _ _ _ _ hfree).mpr
    fun hconfusable => hconfusable.entries rfl

theorem Sample.verify_readings (hash : List UInt8 → Digest) {digest : Digest}
    (hdigest : digest = hash (headerBytes encodeKey 0 2 0 0 [] elevenParents)) :
    (parentsHeader 11 digest digest.toList).verify (plainCrypto hash) (fun _ => [0, 2]) committee =
        .ok () ∧
      (eightEntriesHeader digest digest.toList).verify (plainCrypto hash) (fun _ => [0, 2])
        committee = .ok () := by
  have hbytes : headerBytes encodeKey 0 2 0 0 eightEntries [] =
      headerBytes encodeKey 0 2 0 0 [] elevenParents := by decide +kernel
  have hstake : committee.stake 0 ≠ 0 := by decide
  have hworkers : ∀ entry ∈ eightEntries, entry.2.1 ∈ [0, 2] := by decide
  have hdigest' : digest = hash (headerBytes encodeKey 0 2 0 0 eightEntries []) := by
    rw [hdigest, hbytes]
  constructor
  · exact Header.verify_of_checks rfl hdigest.symm hstake (List.forall_mem_nil _)
      (decide_eq_true rfl)
  · exact Header.verify_of_checks rfl hdigest'.symm hstake hworkers (decide_eq_true rfl)

/-- The header with eight entries verifies with the digest and the signature of the header with
eleven parents, as it has the same bytes. -/
theorem SizedHeader.parents_read_as_payload :
    let digest := Sample.lengthDigest (headerBytes Sample.encodeKey 0 2 0 0 [] Sample.elevenParents)
    let header := (Sample.parentsHeader 11 digest digest.toList).toHeader
    let header' := (Sample.eightEntriesHeader digest digest.toList).toHeader
    header.hashedBytes Sample.encodeKey = header'.hashedBytes Sample.encodeKey ∧
      header.verify (Sample.plainCrypto Sample.lengthDigest) (fun _ => [0, 2]) Sample.committee =
        .ok () ∧
      header'.verify (Sample.plainCrypto Sample.lengthDigest) (fun _ => [0, 2]) Sample.committee =
        .ok () ∧
      header.parents ≠ header'.parents ∧
      ¬Header.BoundByDigest (Sample.plainCrypto Sample.lengthDigest) header header' := by
  intro digest header header'
  have hparents : header.parents ≠ header'.parents := by
    change Sample.elevenParents.take 11 ≠ []
    decide
  obtain ⟨hverify, hverify'⟩ := Sample.verify_readings Sample.lengthDigest rfl
  refine ⟨by decide +kernel, hverify, hverify', hparents, fun hbound => hparents ?_⟩
  exact (hbound.verify _ _ hverify hverify' rfl).parents

end Narwhal

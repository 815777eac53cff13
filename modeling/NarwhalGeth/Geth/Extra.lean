import NarwhalGeth.Geth.Adapter
import NarwhalGeth.Lib.Fallible
import NarwhalGeth.Lib.FixedWidth

/-!
# Auditor signatures in `Extra`

The adapter pads the extra data of a header to a fixed length, writes the length of the padding
behind it and appends the signatures of the auditors. The bounds by which the signatures are read
back span two of them.
-/

namespace Geth

/-- A slice: the bytes that it shows and those of its array that follow, up to its capacity. -/
structure Slice where
  bytes : Bytes
  spare : Bytes

namespace Slice

def len (s : Slice) : ℕ := s.bytes.length

/-- The bytes of `s[low:high]`. The bounds are checked against the capacity. -/
def slice (s : Slice) (low high : ℕ) : Option Bytes :=
  let array := s.bytes ++ s.spare
  if low ≤ high ∧ high ≤ array.length then some ((array.take high).drop low) else none

theorem length_of_slice {s : Slice} {low high : ℕ} {bytes : Bytes}
    (h : s.slice low high = some bytes) : bytes.length = high - low := by
  rw [slice] at h
  split_ifs at h with hbounds
  obtain rfl := Option.some.inj h
  rw [List.length_drop, List.length_take, min_eq_left hbounds.2]

theorem slice_append (before part after spare : Bytes) :
    slice ⟨before ++ part ++ after, spare⟩ before.length (before.length + part.length) =
      some part := by
  have hbounds : before.length ≤ before.length + part.length ∧
      before.length + part.length ≤ (before ++ part ++ after ++ spare).length := by
    simp only [List.length_append]
    omega
  have htake : (before ++ part ++ after ++ spare).take (before.length + part.length) =
      before ++ part := by
    rw [List.append_assoc (before ++ part), ← List.length_append, List.take_left']
    rfl
  rw [slice, if_pos hbounds, htake, List.drop_left']
  rfl

end Slice

def extraAuditorSignature : ℕ := 65

def extraAuditorStartPos : ℕ := 120

def paddingBitsLength : ℕ := 4

/-- The padding is zero, and its length is written in four bytes. There is no result after a
panic. -/
def encodeExtraWithPaddings (extra : Bytes) (auditorSignatures : List Bytes) : Option Bytes :=
  if extraAuditorStartPos ≤ extra.length then none
  else
    let paddingSize := extraAuditorStartPos - extra.length
    some (extra ++ List.replicate paddingSize 0 ++ leBytes paddingBitsLength paddingSize ++
      auditorSignatures.flatten)

/-- The end of the original bytes is computed in 32 bits. -/
def getOriginalExtra (extra : Slice) : Option Bytes :=
  if extra.len < extraAuditorStartPos then none
  else do
    let paddingBytes ← extra.slice extraAuditorStartPos (extraAuditorStartPos + 4)
    extra.slice 0 ((2 ^ 32 + extraAuditorStartPos - leNat paddingBytes) % 2 ^ 32)

/-- The `i`-th signature as `GetAuditorSignatures` reads it. -/
def auditorSignature (extra : Slice) (i : ℕ) : Option Bytes :=
  let startPos := extraAuditorStartPos + paddingBitsLength
  extra.slice (startPos + i * extraAuditorSignature)
    (startPos + ((i + 1) * extraAuditorSignature + extraAuditorSignature))

/-- A slice of a negative length cannot be made. -/
def getAuditorSignatures (extra : Slice) : Option (List Bytes) :=
  let numSigs := ((extra.len : ℤ) - extraAuditorStartPos).tdiv extraAuditorSignature
  if numSigs < 0 then none else (List.range numSigs.toNat).mapM (auditorSignature extra)

section Encoded

variable {extra e : Bytes} {auditorSignatures : List Bytes}

theorem getOriginalExtra_encode (hextra : extra.length < extraAuditorStartPos)
    (he : encodeExtraWithPaddings extra auditorSignatures = some e) (spare : Bytes) :
    getOriginalExtra ⟨e, spare⟩ = some extra := by
  rw [encodeExtraWithPaddings, if_neg (Nat.not_le.mpr hextra)] at he
  set paddingSize := extraAuditorStartPos - extra.length with hsize
  obtain rfl := Option.some.inj he
  have hfront : (extra ++ List.replicate paddingSize (0 : UInt8)).length =
      extraAuditorStartPos := by
    rw [List.length_append, List.length_replicate]
    omega
  have hpadding : Slice.slice ⟨extra ++ List.replicate paddingSize 0 ++
        leBytes paddingBitsLength paddingSize ++ auditorSignatures.flatten, spare⟩
      extraAuditorStartPos (extraAuditorStartPos + 4) =
        some (leBytes paddingBitsLength paddingSize) := by
    have := Slice.slice_append (extra ++ List.replicate paddingSize 0)
      (leBytes paddingBitsLength paddingSize) auditorSignatures.flatten spare
    rwa [length_leBytes, hfront] at this
  have hread : leNat (leBytes paddingBitsLength paddingSize) = paddingSize := by
    apply leNat_leBytes
    simp only [extraAuditorStartPos, paddingBitsLength] at *
    omega
  have hend : (2 ^ 32 + extraAuditorStartPos - paddingSize) % 2 ^ 32 = 0 + extra.length := by
    simp only [extraAuditorStartPos] at *
    omega
  have hlen : ¬ Slice.len ⟨extra ++ List.replicate paddingSize 0 ++
      leBytes paddingBitsLength paddingSize ++ auditorSignatures.flatten, spare⟩ <
        extraAuditorStartPos := by
    rw [Slice.len, List.append_assoc, List.length_append, hfront]
    omega
  rw [getOriginalExtra, if_neg hlen, hpadding, Option.bind_eq_bind, Option.bind_some, hread, hend]
  have := Slice.slice_append [] extra (List.replicate paddingSize 0 ++
    leBytes paddingBitsLength paddingSize ++ auditorSignatures.flatten) spare
  simpa only [List.nil_append, List.append_assoc, List.length_nil] using this

theorem length_encode (hsigs : ∀ sig ∈ auditorSignatures, sig.length = extraAuditorSignature)
    (he : encodeExtraWithPaddings extra auditorSignatures = some e) :
    e.length = extraAuditorStartPos + paddingBitsLength +
      auditorSignatures.length * extraAuditorSignature := by
  rw [encodeExtraWithPaddings] at he
  split_ifs at he with hextra
  obtain rfl := Option.some.inj he
  have hflatten : auditorSignatures.flatten.length =
      auditorSignatures.length * extraAuditorSignature := by
    rw [List.length_flatten, List.map_congr_left hsigs, List.map_const', List.sum_replicate_nat]
  simp only [List.length_append, List.length_replicate, length_leBytes, hflatten]
  omega

end Encoded

theorem length_of_getAuditorSignatures {extra : Slice} {sigs : List Bytes}
    (h : getAuditorSignatures extra = some sigs) {sig : Bytes} (hsig : sig ∈ sigs) :
    sig.length = 2 * extraAuditorSignature := by
  rw [getAuditorSignatures] at h
  split_ifs at h
  obtain ⟨i, -, hi⟩ := List.exists_of_mem_mapM h hsig
  rw [Slice.length_of_slice hi]
  simp only [extraAuditorSignature]
  omega

/-- The original bytes are always read back, and the signatures only when there are none: each is
read together with the bytes of the next, and the last one beyond the end. So it is for every
capacity. -/
theorem extra_reads_back_iff (extra : Bytes) (auditorSignatures : List Bytes) (spare : Bytes)
    (hextra : extra.length < extraAuditorStartPos)
    (hsigs : ∀ sig ∈ auditorSignatures, sig.length = extraAuditorSignature) :
    ∃ e, encodeExtraWithPaddings extra auditorSignatures = some e ∧
      getOriginalExtra ⟨e, spare⟩ = some extra ∧
      (getAuditorSignatures ⟨e, spare⟩ = some auditorSignatures ↔ auditorSignatures = []) := by
  obtain ⟨e, he⟩ : ∃ e, encodeExtraWithPaddings extra auditorSignatures = some e :=
    ⟨_, if_neg (Nat.not_le.mpr hextra)⟩
  refine ⟨e, he, getOriginalExtra_encode hextra he spare, ?_, ?_⟩
  · intro hread
    apply List.eq_nil_iff_forall_not_mem.mpr
    intro sig hsig
    have hone := hsigs sig hsig
    have htwo := length_of_getAuditorSignatures hread hsig
    rw [extraAuditorSignature] at hone htwo
    omega
  · rintro rfl
    have hlen : Slice.len ⟨e, spare⟩ = 124 := length_encode hsigs he
    rw [getAuditorSignatures, hlen]
    rfl

/-- Nothing is lost without signatures; of a signature only the bytes in front are read back. -/
theorem extra_reads_back_sample :
    (∃ e, encodeExtraWithPaddings [1, 2, 3] [] = some e ∧
      getOriginalExtra ⟨e, []⟩ = some [1, 2, 3] ∧
      (getAuditorSignatures ⟨e, []⟩ = some [] ↔ ([] : List Bytes) = [])) ∧
    ∃ e, encodeExtraWithPaddings [1, 2, 3] [List.replicate 65 1] = some e ∧
      getOriginalExtra ⟨e, []⟩ = some [1, 2, 3] ∧
      (getAuditorSignatures ⟨e, []⟩ = some [List.replicate 65 1] ↔
        [List.replicate 65 (1 : UInt8)] = []) :=
  ⟨extra_reads_back_iff [1, 2, 3] [] [] (by decide) (by simp),
    extra_reads_back_iff [1, 2, 3] [List.replicate 65 1] [] (by decide) (by decide)⟩

/-- One signature: reading it back panics when the encoded slice has no spare capacity, and gives
130 bytes when it has. -/
theorem signature_misread :
    ∃ e, encodeExtraWithPaddings [] [List.replicate 65 1] = some e ∧
      getAuditorSignatures ⟨e, []⟩ = none ∧
      getAuditorSignatures ⟨e, List.replicate 65 0⟩ =
        some [List.replicate 65 1 ++ List.replicate 65 0] :=
  ⟨_, rfl, by decide +kernel, by decide +kernel⟩

end Geth

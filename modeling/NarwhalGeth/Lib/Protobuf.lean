import Mathlib.Algebra.Order.Ring.Nat

/-!
# The wire format of protocol buffers

A message is a sequence of fields: a tag with the number and the wire type, followed by a varint or
by a length and that many bytes. Varints are little-endian in base 128, with the high bit set in all
bytes but the last. Only the two wire types that are used here are modelled.
-/

namespace Protobuf

abbrev Bytes := List UInt8

/-! ## Varints -/

/-- The varint of a number below `128 ^ (fuel + 1)`. -/
def varintFrom : ℕ → ℕ → Bytes
  | 0, n => [n.toUInt8]
  | fuel + 1, n =>
    if n < 128 then [n.toUInt8] else (n % 128 + 128).toUInt8 :: varintFrom fuel (n / 128)

def varint (n : ℕ) : Bytes := varintFrom n n

/-- The varint at the start of the bytes, and the bytes after it. -/
def readVarint : Bytes → Option (ℕ × Bytes)
  | [] => none
  | b :: rest =>
    if b.toNat < 128 then some (b.toNat, rest)
    else (readVarint rest).map fun (m, rest) => (b.toNat - 128 + 128 * m, rest)

theorem toNat_toUInt8 {n : ℕ} (h : n < 256) : n.toUInt8.toNat = n := by
  simp [Nat.mod_eq_of_lt h]

theorem readVarint_varintFrom {fuel n : ℕ} (h : n < 128 ^ (fuel + 1)) (rest : Bytes) :
    readVarint (varintFrom fuel n ++ rest) = some (n, rest) := by
  induction fuel generalizing n with
  | zero =>
    have hn : n < 128 := by simpa using h
    have hbyte : n.toUInt8.toNat = n := toNat_toUInt8 (by omega)
    simp only [varintFrom, List.singleton_append, readVarint]
    rw [hbyte, if_pos hn]
  | succ fuel ih =>
    unfold varintFrom
    split_ifs with hn
    · have hbyte : n.toUInt8.toNat = n := toNat_toUInt8 (by omega)
      simp only [List.singleton_append, readVarint]
      rw [hbyte, if_pos hn]
    · have hdiv : n / 128 < 128 ^ (fuel + 1) := by
        rw [Nat.div_lt_iff_lt_mul (by decide), ← pow_succ]
        exact h
      have hbyte : (n % 128 + 128).toUInt8.toNat = n % 128 + 128 := toNat_toUInt8 (by omega)
      simp only [List.cons_append, readVarint, hbyte, ih hdiv, Option.map_some]
      rw [if_neg (by omega)]
      simp only [Option.some.injEq, Prod.mk.injEq, and_true]
      omega

@[simp] theorem readVarint_varint (n : ℕ) (rest : Bytes) :
    readVarint (varint n ++ rest) = some (n, rest) := by
  apply readVarint_varintFrom
  calc n < 2 ^ n := Nat.lt_two_pow_self
    _ ≤ 128 ^ n := Nat.pow_le_pow_left (by decide) n
    _ ≤ 128 ^ (n + 1) := Nat.pow_le_pow_right (by decide) (Nat.le_succ n)

theorem varint_ne_nil (n : ℕ) : varint n ≠ [] := by
  unfold varint
  cases n with
  | zero => simp [varintFrom]
  | succ n =>
    unfold varintFrom
    split_ifs <;> simp

/-! ## Sequences -/

section Sequence

variable {α : Type} {read : Bytes → Option (α × Bytes)} {write : α → Bytes}

def readManyFrom (read : Bytes → Option (α × Bytes)) : ℕ → Bytes → Option (List α)
  | _, [] => some []
  | 0, _ :: _ => none
  | fuel + 1, b :: bytes => do
    let (a, rest) ← read (b :: bytes)
    let values ← readManyFrom read fuel rest
    return a :: values

/-- Reads values until the bytes are used up. -/
def readMany (read : Bytes → Option (α × Bytes)) (bytes : Bytes) : Option (List α) :=
  readManyFrom read bytes.length bytes

theorem readManyFrom_flatMap (hread : ∀ a rest, read (write a ++ rest) = some (a, rest))
    (hwrite : ∀ a, write a ≠ []) {fuel : ℕ} {values : List α}
    (h : (values.flatMap write).length ≤ fuel) :
    readManyFrom read fuel (values.flatMap write) = some values := by
  induction values generalizing fuel with
  | nil => cases fuel <;> rfl
  | cons a values ih =>
    obtain ⟨b, bytes, hbytes⟩ := List.exists_cons_of_ne_nil (hwrite a)
    have hfirst : read (b :: (bytes ++ values.flatMap write)) = some (a, values.flatMap write) := by
      rw [← List.cons_append, ← hbytes]
      exact hread a _
    rw [List.flatMap_cons, hbytes, List.cons_append] at h ⊢
    cases fuel with
    | zero => simp at h
    | succ fuel =>
      have hrest : (values.flatMap write).length ≤ fuel := by
        simp only [List.length_cons, List.length_append] at h
        omega
      simp only [readManyFrom, hfirst, Option.bind_eq_bind, Option.bind_some, ih hrest]
      rfl

/-- Reading the encodings of values, one after the other, gives the values. -/
theorem readMany_flatMap (hread : ∀ a rest, read (write a ++ rest) = some (a, rest))
    (hwrite : ∀ a, write a ≠ []) (values : List α) :
    readMany read (values.flatMap write) = some values :=
  readManyFrom_flatMap hread hwrite le_rfl

end Sequence

/-! ## Fields -/

/-- The content of a field, by its wire type. -/
inductive Value where
  | varint (n : ℕ)
  | len (bytes : Bytes)
deriving DecidableEq

/-- A field: its number and its content. -/
abbrev Field := ℕ × Value

def Value.wireType : Value → ℕ
  | .varint _ => 0
  | .len _ => 2

def Value.encode : Value → Bytes
  | .varint n => Protobuf.varint n
  | .len bytes => Protobuf.varint bytes.length ++ bytes

def encodeField (field : Field) : Bytes :=
  varint (field.1 * 8 + field.2.wireType) ++ field.2.encode

/-- The content of a field of a wire type, and the bytes after it. -/
def readValue (wireType : ℕ) (bytes : Bytes) : Option (Value × Bytes) :=
  match wireType with
  | 0 => (readVarint bytes).map fun (n, rest) => (.varint n, rest)
  | 2 => do
    let (length, rest) ← readVarint bytes
    if rest.length < length then none
    else return (.len (rest.take length), rest.drop length)
  | _ => none

def readField (bytes : Bytes) : Option (Field × Bytes) := do
  let (tag, rest) ← readVarint bytes
  let (value, rest) ← readValue (tag % 8) rest
  return ((tag / 8, value), rest)

def encodeFields (fields : List Field) : Bytes := fields.flatMap encodeField

def readFields (bytes : Bytes) : Option (List Field) := readMany readField bytes

theorem readValue_encode (value : Value) (rest : Bytes) :
    readValue value.wireType (value.encode ++ rest) = some (value, rest) := by
  cases value with
  | varint n => simp [readValue, Value.wireType, Value.encode]
  | len bytes => simp [readValue, Value.wireType, Value.encode]

theorem readField_encodeField (field : Field) (rest : Bytes) :
    readField (encodeField field ++ rest) = some (field, rest) := by
  obtain ⟨number, value⟩ := field
  have hwire : value.wireType < 8 := by cases value <;> simp [Value.wireType]
  have hmod : (number * 8 + value.wireType) % 8 = value.wireType := by omega
  have hdiv : (number * 8 + value.wireType) / 8 = number := by omega
  unfold readField encodeField
  rw [List.append_assoc, readVarint_varint]
  simp only [Option.bind_eq_bind, Option.bind_some, hmod, hdiv, readValue_encode]
  rfl

theorem encodeField_ne_nil (field : Field) : encodeField field ≠ [] := by
  unfold encodeField
  intro h
  exact varint_ne_nil _ (List.append_eq_nil_iff.mp h).1

/-- The fields of a message are read back as they were written. -/
@[simp] theorem readFields_encodeFields (fields : List Field) :
    readFields (encodeFields fields) = some fields :=
  readMany_flatMap readField_encodeField encodeField_ne_nil fields

/-! ## Repeated varints in one field -/

def packed (values : List ℕ) : Bytes := values.flatMap varint

def readPacked (bytes : Bytes) : Option (List ℕ) := readMany readVarint bytes

@[simp] theorem readPacked_packed (values : List ℕ) : readPacked (packed values) = some values :=
  readMany_flatMap readVarint_varint varint_ne_nil values

/-! ## Writing the fields of a message

A number or a string of bytes that is zero or empty is left out, as are repeated numbers if there
are none. Repeated bytes and nested messages are written even if they are empty. -/

def uint64Field (number : ℕ) (n : UInt64) : List Field :=
  if n = 0 then [] else [(number, .varint n.toNat)]

def bytesField (number : ℕ) (bytes : Bytes) : List Field :=
  if bytes = [] then [] else [(number, .len bytes)]

def packedField (number : ℕ) (values : List UInt64) : List Field :=
  if values = [] then [] else [(number, .len (packed (values.map UInt64.toNat)))]

def repeatedField (number : ℕ) (values : List Bytes) : List Field :=
  values.map fun bytes => (number, .len bytes)

def messageField (number : ℕ) (encoded : Option Bytes) : List Field :=
  encoded.toList.map fun bytes => (number, .len bytes)

theorem length_lt_encodeFields {fields : List Field} {number : ℕ} {bytes : Bytes}
    (h : (number, Value.len bytes) ∈ fields) : bytes.length < (encodeFields fields).length := by
  obtain ⟨before, after, rfl⟩ := List.append_of_mem h
  have hpos := List.length_pos_iff.mpr (varint_ne_nil (number * 8 + 2))
  simp only [encodeFields, List.flatMap_append, List.flatMap_cons, List.length_append, encodeField,
    Value.encode, Value.wireType]
  omega

end Protobuf

import NarwhalGeth.Trie.Trie

/-!
# The encodings of keys

In the hex encoding each nibble of a key takes a byte, and a terminator may follow. The compact
encoding packs two nibbles into a byte after a first byte with a flag for the terminator, a flag for
the parity and, for an odd number of nibbles, the first one. Functions have no result where an index
is out of range.
-/

namespace Trie

namespace Encoding

/-! ## The functions of the source -/

def hasTerm (s : Bytes) : Bool := decide (0 < s.length) && s[s.length - 1]? == some 16

/-- The loop of `decodeNibbles`, from the indices `bi` in the bytes and `ni` in the nibbles on. -/
def decodeNibblesFrom (nibbles : Bytes) (bi ni : ℕ) (bytes : Bytes) : Option Bytes :=
  if ni < nibbles.length then do
    let high ← nibbles[ni]?
    let low ← nibbles[ni + 1]?
    if bi < bytes.length then
      decodeNibblesFrom nibbles (bi + 1) (ni + 2) (bytes.set bi (high <<< 4 ||| low))
    else none
  else some bytes
termination_by nibbles.length - ni

def decodeNibbles (nibbles bytes : Bytes) : Option Bytes := decodeNibblesFrom nibbles 0 0 bytes

def hexToCompact (hex : Bytes) : Option Bytes :=
  let terminator : UInt8 := if hasTerm hex then 1 else 0
  let hex := if hasTerm hex then hex.take (hex.length - 1) else hex
  let buf := List.replicate (hex.length / 2) 0
  if hex.length % 2 = 1 then do
    let first ← hex[0]?
    let rest ← decodeNibbles (hex.drop 1) buf
    some ((terminator <<< 5 ||| (1 : UInt8) <<< 4 ||| first) :: rest)
  else do
    let rest ← decodeNibbles hex buf
    some (terminator <<< 5 :: rest)

/-- The loop of `hexToCompactInPlace`, which overwrites the slice that it reads. -/
def packInPlace (hexLen bi ni : ℕ) (hex : Bytes) : Option Bytes :=
  if ni < hexLen then do
    let high ← hex[ni]?
    let low ← hex[ni + 1]?
    if bi < hex.length then
      packInPlace hexLen (bi + 1) (ni + 2) (hex.set bi (high <<< 4 ||| low))
    else none
  else some hex
termination_by hexLen - ni

/-- The slice afterwards and the length of the compact key in it. -/
def hexToCompactInPlace (hex : Bytes) : Option (Bytes × ℕ) :=
  let terminated := 0 < hex.length ∧ hex[hex.length - 1]? = some 16
  let hexLen := if terminated then hex.length - 1 else hex.length
  let firstByte : UInt8 := if terminated then (1 : UInt8) <<< 5 else 0
  let binLen := hexLen / 2 + 1
  if hexLen % 2 = 1 then do
    let first ← hex[0]?
    let hex ← packInPlace hexLen 1 1 hex
    if 0 < hex.length then
      some (hex.set 0 (firstByte ||| (1 : UInt8) <<< 4 ||| first), binLen)
    else none
  else do
    let hex ← packInPlace hexLen 1 0 hex
    if 0 < hex.length then some (hex.set 0 firstByte, binLen) else none

def keybytesToHex (str : Bytes) : Bytes := str.flatMap (fun b => [b / 16, b % 16]) ++ [16]

def compactToHex (compact : Bytes) : Option Bytes :=
  if compact.length = 0 then some compact
  else do
    let base := keybytesToHex compact
    let flags ← base[0]?
    let base := if flags < 2 then base.take (base.length - 1) else base
    let chop := (2 - (flags &&& 1)).toNat
    if chop ≤ base.length then some (base.drop chop) else none

def hexToKeybytes (hex : Bytes) : Option Bytes :=
  let hex := if hasTerm hex then hex.take (hex.length - 1) else hex
  if hex.length % 2 ≠ 0 then none
  else decodeNibbles hex (List.replicate (hex.length / 2) 0)

/-! ## Packed nibbles -/

/-- Two nibbles to a byte. -/
def pack : Bytes → Bytes
  | [] => []
  | [_] => []
  | high :: low :: rest => (high <<< 4 ||| low) :: pack rest

theorem length_pack (rest : Bytes) : (pack rest).length = rest.length / 2 := by
  induction rest using List.twoStepInduction with
  | nil => rfl
  | singleton _ => simp [pack]
  | cons_cons high low rest ih _ =>
    rw [pack, List.length_cons, ih, List.length_cons, List.length_cons]
    omega

theorem decodeNibblesFrom_eq {rest : Bytes} (heven : rest.length % 2 = 0)
    (front written : Bytes) {tail : Bytes} (htail : rest.length / 2 = tail.length) :
    decodeNibblesFrom (front ++ rest) written.length front.length (written ++ tail) =
      some (written ++ pack rest) := by
  induction rest using List.twoStepInduction generalizing front written tail with
  | nil =>
    rw [decodeNibblesFrom, if_neg (by simp), List.eq_nil_of_length_eq_zero htail.symm]
    rfl
  | singleton _ => simp at heven
  | cons_cons high low rest ih _ =>
    simp only [List.length_cons] at heven htail
    obtain ⟨byte, tail, rfl⟩ := List.exists_cons_of_length_pos (l := tail) (by omega)
    rw [List.length_cons] at htail
    have hhalf : rest.length / 2 = tail.length := by omega
    have ih := ih (by omega) (front ++ [high, low]) (written ++ [high <<< 4 ||| low]) hhalf
    rw [decodeNibblesFrom, if_pos (by simp)]
    simpa [pack] using ih

theorem packInPlace_eq {rest more : Bytes} (heven : rest.length % 2 = 0) {bi ni : ℕ} {hex : Bytes}
    (hrest : hex.drop ni = rest ++ more) (hbi : bi ≤ ni + 1) (hlen : bi ≤ hex.length) :
    ∃ hex', packInPlace (ni + rest.length) bi ni hex = some hex' ∧ hex'.length = hex.length ∧
      hex'.take (bi + rest.length / 2) = hex.take bi ++ pack rest := by
  induction rest using List.twoStepInduction generalizing bi ni hex with
  | nil =>
    refine ⟨hex, ?_, rfl, by simp [pack]⟩
    rw [packInPlace, if_neg (by simp)]
  | singleton _ => simp at heven
  | cons_cons high low rest ih _ =>
    simp only [List.length_cons] at heven
    have hget (i : ℕ) : hex[ni + i]? = (high :: low :: rest ++ more)[i]? := by
      rw [← List.getElem?_drop, hrest]
    have hhigh : hex[ni]? = some high := hget 0
    have hlow : hex[ni + 1]? = some low := hget 1
    have hlt : ni + 1 < hex.length := (List.getElem?_eq_some_iff.mp hlow).1
    have hdrop : (hex.set bi (high <<< 4 ||| low)).drop (ni + 2) = rest ++ more := by
      rw [List.drop_set_of_lt (by omega), ← List.drop_drop, hrest]
      rfl
    have hbi' : bi + 1 ≤ ni + 2 + 1 := by omega
    obtain ⟨hex', heq, hlength, htake⟩ := ih (by omega) hdrop hbi'
      (by rw [List.length_set]; omega)
    rw [List.length_set] at hlength
    refine ⟨hex', ?_, hlength, ?_⟩
    · rw [packInPlace, if_pos (by simp), hhigh, hlow]
      simp only [Option.bind_eq_bind, Option.bind_some]
      rw [if_pos (by omega), ← heq]
      congr 1
      simp only [List.length_cons]
      omega
    · rw [List.length_cons, List.length_cons, show bi + (rest.length + 1 + 1) / 2 =
        bi + 1 + rest.length / 2 by omega, htake, pack]
      rw [List.take_add_one, List.getElem?_set_self (by omega), List.take_set_of_le le_rfl]
      simp

theorem decodeNibbles_eq {nibbles : Bytes} (heven : nibbles.length % 2 = 0) {buf : Bytes}
    (hbuf : nibbles.length / 2 = buf.length) : decodeNibbles nibbles buf = some (pack nibbles) :=
  decodeNibblesFrom_eq heven [] [] hbuf

/-- The nibbles of bytes, one after the other. -/
def unpack (bytes : Bytes) : Bytes := bytes.flatMap fun b => [b / 16, b % 16]

theorem length_unpack (bytes : Bytes) : (unpack bytes).length = 2 * bytes.length := by
  induction bytes with
  | nil => rfl
  | cons b bytes ih =>
    rw [unpack, List.flatMap_cons, List.length_append, ← unpack, ih, List.length_cons]
    simp only [List.length_cons, List.length_nil]
    omega

theorem toNat_high (b : UInt8) : (b / 16).toNat = b.toNat / 16 := UInt8.toNat_div _ _

theorem toNat_low (b : UInt8) : (b % 16).toNat = b.toNat % 16 := UInt8.toNat_mod _ _

theorem toNat_join {high low : UInt8} (hhigh : high < 16) (hlow : low < 16) :
    (high <<< 4 ||| low).toNat = 16 * high.toNat + low.toNat := by
  have hhigh : high.toNat < 16 := UInt8.lt_iff_toNat_lt.mp hhigh
  have hlow : low.toNat < 2 ^ 4 := UInt8.lt_iff_toNat_lt.mp hlow
  rw [UInt8.toNat_or, UInt8.toNat_shiftLeft, show (4 : UInt8).toNat % 8 = 4 from rfl,
    Nat.mod_eq_of_lt (by rw [Nat.shiftLeft_eq]; omega),
    ← Nat.shiftLeft_add_eq_or_of_lt hlow, Nat.shiftLeft_eq, Nat.mul_comm]

theorem join_div {high low : UInt8} (hhigh : high < 16) (hlow : low < 16) :
    (high <<< 4 ||| low) / 16 = high := by
  have hlow' : low.toNat < 16 := UInt8.lt_iff_toNat_lt.mp hlow
  apply UInt8.toNat_inj.mp
  rw [toNat_high, toNat_join hhigh hlow]
  omega

theorem join_mod {high low : UInt8} (hhigh : high < 16) (hlow : low < 16) :
    (high <<< 4 ||| low) % 16 = low := by
  have hlow' : low.toNat < 16 := UInt8.lt_iff_toNat_lt.mp hlow
  apply UInt8.toNat_inj.mp
  rw [toNat_low, toNat_join hhigh hlow]
  omega

/-- Bytes that each hold a nibble. -/
def IsNibbles (path : Bytes) : Prop := ∀ x ∈ path, x < 16

theorem unpack_pack {path : Bytes} (hpath : IsNibbles path) (heven : path.length % 2 = 0) :
    unpack (pack path) = path := by
  induction path using List.twoStepInduction with
  | nil => rfl
  | singleton _ => simp at heven
  | cons_cons high low path ih _ =>
    simp only [List.length_cons] at heven
    have hhigh : high < 16 := hpath high List.mem_cons_self
    have hlow : low < 16 := hpath low (List.mem_cons_of_mem _ List.mem_cons_self)
    have hrest : IsNibbles path := fun x hx =>
      hpath x (List.mem_cons_of_mem _ (List.mem_cons_of_mem _ hx))
    rw [pack, unpack, List.flatMap_cons, ← unpack, ih hrest (by omega), join_div hhigh hlow,
      join_mod hhigh hlow]
    rfl

theorem isNibbles_unpack (bytes : Bytes) : IsNibbles (unpack bytes) := by
  intro x hx
  obtain ⟨b, -, hx⟩ := List.mem_flatMap.mp hx
  have hb := b.toNat_lt
  rw [UInt8.lt_iff_toNat_lt, show (16 : UInt8).toNat = 16 from rfl]
  simp only [List.mem_cons, List.not_mem_nil, or_false] at hx
  rcases hx with rfl | rfl
  · rw [toNat_high]
    omega
  · rw [toNat_low]
    omega

theorem pack_unpack (bytes : Bytes) : pack (unpack bytes) = bytes := by
  induction bytes with
  | nil => rfl
  | cons b bytes ih =>
    have hnibbles := isNibbles_unpack (b :: bytes)
    rw [unpack, List.flatMap_cons, ← unpack] at hnibbles ⊢
    have hjoin : (b / 16) <<< 4 ||| b % 16 = b := by
      apply UInt8.toNat_inj.mp
      rw [toNat_join (hnibbles _ (by simp)) (hnibbles _ (by simp)), toNat_high,
        toNat_low]
      omega
    simp only [List.cons_append, List.nil_append, pack, ih, hjoin]

/-! ## The encodings in closed form -/

/-- The hex encoding of a path: its nibbles, with the terminator or without. -/
def toHex (path : Bytes) (terminated : Bool) : Bytes := path ++ if terminated then [16] else []

/-- The compact encoding of a path. -/
def compact (path : Bytes) (terminated : Bool) : Bytes :=
  let flag : UInt8 := if terminated then 0x20 else 0
  if path.length % 2 = 1 then (flag ||| 0x10 ||| path.headD 0) :: pack path.tail
  else flag :: pack path

theorem hasTerm_append (path : Bytes) : hasTerm (path ++ [16]) = true := by
  simp [hasTerm]

variable {path : Bytes} {first : UInt8}

theorem IsNibbles.getElem?_ne (hpath : IsNibbles path) (i : ℕ) : path[i]? ≠ some 16 := by
  intro h
  exact absurd (hpath 16 (List.mem_of_getElem? h)) (by decide)

theorem IsNibbles.hasTerm_eq (hpath : IsNibbles path) : hasTerm path = false := by
  simp [hasTerm, hpath.getElem?_ne]

theorem IsNibbles.tail (hpath : IsNibbles path) : IsNibbles path.tail :=
  fun x hx => hpath x (List.mem_of_mem_tail hx)

theorem strip_toHex (hpath : IsNibbles path) (terminated : Bool) :
    hasTerm (toHex path terminated) = terminated ∧
      (if hasTerm (toHex path terminated) then
        (toHex path terminated).take ((toHex path terminated).length - 1)
      else toHex path terminated) = path := by
  cases terminated with
  | false => simp [toHex, hpath.hasTerm_eq]
  | true => simp [toHex, hasTerm_append]

theorem exists_cons_of_odd (hodd : path.length % 2 = 1) :
    ∃ first rest, path = first :: rest ∧ rest.length % 2 = 0 ∧
      path.length / 2 = rest.length / 2 := by
  obtain ⟨first, rest, rfl⟩ := List.exists_cons_of_length_pos (l := path) (by omega)
  rw [List.length_cons] at hodd ⊢
  exact ⟨first, rest, rfl, by omega, by omega⟩

theorem hexToCompact_eq (hpath : IsNibbles path) (terminated : Bool) :
    hexToCompact (toHex path terminated) = some (compact path terminated) := by
  obtain ⟨hterm, hstrip⟩ := strip_toHex hpath terminated
  have hflag : (if terminated = true then (1 : UInt8) else 0) <<< 5 =
      if terminated = true then 0x20 else 0 := by
    cases terminated <;> rfl
  unfold hexToCompact compact
  dsimp only
  rw [hstrip, hterm, hflag]
  by_cases hodd : path.length % 2 = 1
  · rw [if_pos hodd, if_pos hodd]
    obtain ⟨first, rest, rfl, heven, hhalf⟩ := exists_cons_of_odd hodd
    rw [hhalf, List.drop_one, List.tail_cons,
      decodeNibbles_eq heven (List.length_replicate ..).symm]
    rfl
  · rw [if_neg hodd, if_neg hodd,
      decodeNibbles_eq (by omega) (List.length_replicate ..).symm]
    rfl

theorem take_set_zero {hex rest : Bytes} {byte : UInt8} {n : ℕ}
    (h : hex.take (1 + n) = first :: rest) : (hex.set 0 byte).take (n + 1) = byte :: rest := by
  cases hex with
  | nil => simp at h
  | cons _ hex =>
    rw [Nat.add_comm, List.take_succ_cons, List.cons.injEq] at h
    rw [List.set_cons_zero, List.take_succ_cons, h.2]

theorem hexToCompactInPlace_eq (hpath : IsNibbles path) (terminated : Bool)
    (hne : toHex path terminated ≠ []) :
    ∃ buf, hexToCompactInPlace (toHex path terminated) =
        some (buf, (compact path terminated).length) ∧
      buf.take (compact path terminated).length = compact path terminated := by
  have hpos : 0 < (toHex path terminated).length := List.length_pos_iff.mpr hne
  have hterm : (0 < (toHex path terminated).length ∧
      (toHex path terminated)[(toHex path terminated).length - 1]? = some 16) ↔
      terminated = true := by
    conv_rhs => rw [← (strip_toHex hpath terminated).1]
    simp [hasTerm]
  have hlen : (if terminated = true then (toHex path terminated).length - 1
      else (toHex path terminated).length) = path.length := by
    cases terminated <;> simp [toHex]
  have hflag : (if terminated = true then (1 : UInt8) <<< 5 else 0) =
      if terminated = true then 0x20 else 0 := by
    cases terminated <;> rfl
  unfold hexToCompactInPlace compact
  dsimp only
  simp only [hterm, hlen, hflag]
  by_cases hodd : path.length % 2 = 1
  · rw [if_pos hodd, if_pos hodd]
    obtain ⟨first, rest, rfl, heven, hhalf⟩ := exists_cons_of_odd hodd
    have hdrop : (toHex (first :: rest) terminated).drop 1 = rest ++ _ := rfl
    obtain ⟨buf, heq, hlength, htake⟩ := packInPlace_eq heven hdrop (by omega) hpos
    rw [List.length_cons, Nat.add_comm, heq, List.length_cons, List.tail_cons, length_pack]
    simp only [Option.bind_eq_bind, Option.bind_some, hlength, if_pos hpos]
    refine ⟨_, congrArg some (Prod.ext rfl (by simp only; omega)), ?_⟩
    exact take_set_zero htake
  · rw [if_neg hodd, if_neg hodd]
    have hdrop : (toHex path terminated).drop 0 = path ++ _ := rfl
    obtain ⟨buf, heq, hlength, htake⟩ := packInPlace_eq (by omega) hdrop (by omega) hpos
    rw [Nat.zero_add] at heq
    rw [heq, List.length_cons, length_pack]
    simp only [Option.bind_eq_bind, Option.bind_some, hlength, if_pos hpos]
    refine ⟨_, rfl, ?_⟩
    obtain ⟨first, rest, hcons⟩ := List.exists_cons_of_length_pos hpos
    rw [hcons] at htake
    exact take_set_zero htake

/-! ## Inverses -/

theorem keybytesToHex_cons (b : UInt8) (str : Bytes) :
    keybytesToHex (b :: str) = b / 16 :: b % 16 :: (unpack str ++ [16]) := rfl

theorem flags_of_even (terminated : Bool) :
    (if terminated = true then (0x20 : UInt8) else 0) / 16 = (if terminated then 2 else 0) := by
  cases terminated <;> rfl

theorem flags_of_odd (terminated : Bool) (hfirst : first < 16) :
    ((if terminated = true then (0x20 : UInt8) else 0) ||| 0x10 ||| first) / 16 =
        (if terminated then 3 else 1) ∧
      ((if terminated = true then (0x20 : UInt8) else 0) ||| 0x10 ||| first) % 16 = first := by
  cases terminated
  · exact ⟨@join_div 1 first (by decide) hfirst, @join_mod 1 first (by decide) hfirst⟩
  · exact ⟨@join_div 3 first (by decide) hfirst, @join_mod 3 first (by decide) hfirst⟩

theorem chop_eq : (2 - ((0 : UInt8) &&& 1)).toNat = 2 ∧ (2 - ((1 : UInt8) &&& 1)).toNat = 1 ∧
    (2 - ((2 : UInt8) &&& 1)).toNat = 2 ∧ (2 - ((3 : UInt8) &&& 1)).toNat = 1 := by
  decide

theorem compactToHex_compact (hpath : IsNibbles path) (terminated : Bool) :
    compactToHex (compact path terminated) = some (toHex path terminated) := by
  unfold compact
  dsimp only
  by_cases hodd : path.length % 2 = 1
  · rw [if_pos hodd]
    obtain ⟨first, rest, rfl, heven, -⟩ := exists_cons_of_odd hodd
    obtain ⟨hhigh, hlow⟩ := flags_of_odd terminated (hpath first List.mem_cons_self)
    have hrest : IsNibbles rest := hpath.tail
    simp only [List.headD_cons, List.tail_cons]
    rw [compactToHex, if_neg (by simp), keybytesToHex_cons, hhigh, hlow, unpack_pack hrest heven]
    cases terminated <;> simp [toHex, chop_eq]
  · rw [if_neg hodd]
    rw [compactToHex, if_neg (by simp), keybytesToHex_cons, flags_of_even,
      unpack_pack hpath (by omega)]
    cases terminated <;> simp [toHex, chop_eq]

theorem hexToKeybytes_keybytesToHex (k : Bytes) : hexToKeybytes (keybytesToHex k) = some k := by
  obtain ⟨-, hstrip⟩ := strip_toHex (isNibbles_unpack k) true
  have hhex : keybytesToHex k = toHex (unpack k) true := rfl
  unfold hexToKeybytes
  rw [hhex, hstrip]
  dsimp only
  rw [length_unpack, if_neg (by omega), decodeNibbles_eq (by rw [length_unpack]; omega)
    (by rw [length_unpack, List.length_replicate]), pack_unpack]

/-- A sequence of nibbles, with the terminator or without. -/
def IsHex (h : Bytes) : Prop :=
  ∃ path terminated, IsNibbles path ∧ h = toHex path terminated

/-- The encodings are inverse to each other, and the compact one is injective. Its variant in place
leaves it at the front of its slice. -/
theorem encodings_inverse :
    (∀ h, IsHex h → ∃ c, hexToCompact h = some c ∧ compactToHex c = some h ∧
      (h ≠ [] → ∃ buf, hexToCompactInPlace h = some (buf, c.length) ∧ buf.take c.length = c)) ∧
    (∀ h h', IsHex h → IsHex h' → hexToCompact h = hexToCompact h' → h = h') ∧
    ∀ k, hexToKeybytes (keybytesToHex k) = some k := by
  refine ⟨?_, ?_, hexToKeybytes_keybytesToHex⟩
  · rintro h ⟨path, terminated, hpath, rfl⟩
    exact ⟨compact path terminated, hexToCompact_eq hpath terminated,
      compactToHex_compact hpath terminated, hexToCompactInPlace_eq hpath terminated⟩
  · rintro h h' ⟨path, terminated, hpath, rfl⟩ ⟨path', terminated', hpath', rfl⟩ heq
    rw [hexToCompact_eq hpath, hexToCompact_eq hpath', Option.some.injEq] at heq
    apply Option.some.inj
    rw [← compactToHex_compact hpath, ← compactToHex_compact hpath', heq]

/-- Three nibbles and the terminator. -/
theorem encodings_inverse_sample :
    IsHex [1, 2, 3, 16] ∧ ∃ c, hexToCompact [1, 2, 3, 16] = some c ∧
      compactToHex c = some [1, 2, 3, 16] ∧
      ∃ buf, hexToCompactInPlace [1, 2, 3, 16] = some (buf, c.length) ∧ buf.take c.length = c := by
  have hhex : IsHex [1, 2, 3, 16] := ⟨[1, 2, 3], true, by simp [IsNibbles], rfl⟩
  obtain ⟨c, hcompact, hhex', hplace⟩ := encodings_inverse.1 _ hhex
  exact ⟨hhex, c, hcompact, hhex', hplace (by decide)⟩

theorem keybytesToHex_eq (str : Bytes) :
    keybytesToHex str = (Trie.keybytesToHex str).map fun x => UInt8.ofNat x.val := by
  induction str with
  | nil => rfl
  | cons b str ih =>
    rw [Trie.keybytesToHex, List.map_cons, List.map_cons, ← ih, keybytesToHex_cons]
    refine congrArg₂ List.cons ?_ (congrArg₂ List.cons ?_ rfl)
    · apply UInt8.toNat_inj.mp
      rw [toNat_high]
      exact (Nat.mod_eq_of_lt (by have := b.toNat_lt; omega)).symm
    · apply UInt8.toNat_inj.mp
      rw [toNat_low]
      exact (Nat.mod_eq_of_lt (by omega)).symm

end Encoding

end Trie

import Mathlib.Algebra.GroupWithZero.Nat
import Mathlib.Data.Fin.Basic
import Mathlib.Data.List.FinRange
import NarwhalGeth.Lib.RadixTree

/-!
# The Merkle trie

Keys are written in nibbles with a terminator, so that no key is the start of another. The trie is a
radix tree over them. An insertion splits short nodes, and a deletion merges what is left of a full
node with a single child. A trie that was never committed has no hash nodes, and the tracer is left
out.
-/

namespace Trie

open RadixTree

abbrev Bytes := List UInt8

/-- A nibble, or the terminator 16. -/
abbrev Nibble := Fin 17

instance neZeroNibble : NeZero 17 := ⟨Nat.succ_ne_zero 16⟩

/-- `nil`, `valueNode`, `shortNode` and `fullNode`. -/
abbrev Node := RadixTree Nibble Bytes

/-! ## Encoding -/

theorem high_lt (b : UInt8) : b.toNat / 16 < 17 := by
  have := b.toNat_lt
  omega

theorem low_lt (b : UInt8) : b.toNat % 16 < 17 := by omega

/-- The nibbles of a key and the terminator. -/
def keybytesToHex : Bytes → List Nibble
  | [] => [16]
  | b :: str => ⟨b.toNat / 16, high_lt b⟩ :: ⟨b.toNat % 16, low_lt b⟩ :: keybytesToHex str

/-- The length of the common start of two keys. -/
def prefixLen : List Nibble → List Nibble → ℕ
  | x :: a, y :: b => if x = y then prefixLen a b + 1 else 0
  | _, _ => 0

/-! ## Operations -/

/-- The value under a key. Nothing is returned if the key ends at a full node, which panics. -/
def get : Node → List Nibble → Option (Option Bytes)
  | nil, _ => some none
  | value v, _ => some (some v)
  | short k n, key =>
    if key.length < k.length ∨ key.take k.length ≠ k then some none
    else get n (key.drop k.length)
  | full _, [] => none
  | full children, a :: key => get (children a) key

/-- `insert` below `nil`. -/
def insertNew (key : List Nibble) (n : Node) : Node := if key = [] then n else short key n

/-- Whether the trie has changed, and the new node. Nothing is returned on a panic. -/
def insert : Node → List Nibble → Bytes → Option (Bool × Node)
  | nil, key, w => some (true, insertNew key (value w))
  | value v, [], w => some (v ≠ w, value w)
  | value _, _ :: _, _ => none
  | short _ _, [], w => some (true, value w)
  | short k n, x :: key, w => do
    let matchlen := prefixLen (x :: key) k
    if matchlen = k.length then
      let (dirty, nn) ← insert n ((x :: key).drop matchlen) w
      if dirty then some (true, short k nn) else some (false, short k n)
    else
      -- Branch out at the index where they differ.
      let a ← k[matchlen]?
      let b ← (x :: key)[matchlen]?
      let children := Function.update (Function.update (fun _ => nil) a
        (insertNew (k.drop (matchlen + 1)) n)) b
        (insertNew ((x :: key).drop (matchlen + 1)) (value w))
      if matchlen = 0 then some (true, full children)
      else some (true, short ((x :: key).take matchlen) (full children))
  | full _, [], w => some (true, value w)
  | full children, a :: key, w => do
    let (dirty, nn) ← insert (children a) key w
    if dirty then some (true, full (Function.update children a nn))
    else some (false, full children)

/-- The short node that replaces a full node whose single child is under `pos`. -/
def collapse (pos : Nibble) : Node → Node
  | short k n => if pos ≠ 16 then short (pos :: k) n else short [pos] (short k n)
  | child => short [pos] child

/-- A full node with a single child is replaced by a short node. -/
def reduce (children : Nibble → Node) : Node :=
  match (List.finRange 17).filter fun i => !(children i).isNil with
  | [pos] => collapse pos (children pos)
  | _ => full children

/-- Appends the path of a short child to that of its parent. -/
def merge (k : List Nibble) : Node → Node
  | short k' n => short (k ++ k') n
  | child => short k child

/-- Whether the trie has changed, and the new node. Nothing is returned on a panic. -/
def delete : Node → List Nibble → Option (Bool × Node)
  | nil, _ => some (false, nil)
  | value _, _ => some (true, nil)
  | short k n, key =>
    let matchlen := prefixLen key k
    if matchlen < k.length then some (false, short k n)
    else if matchlen = key.length then some (true, nil)
    else do
      let (dirty, child) ← delete n (key.drop k.length)
      if dirty then some (true, merge k child) else some (false, short k n)
  | full _, [] => none
  | full children, a :: key => do
    let (dirty, nn) ← delete (children a) key
    if dirty then
      let children := Function.update children a nn
      if nn.isNil then some (true, reduce children) else some (true, full children)
    else some (false, full children)

/-- A call on the trie. -/
inductive Op where
  | update (key value : Bytes)
  | delete (key : Bytes)
deriving DecidableEq

def update (root : Node) (key w : Bytes) : Option Node :=
  let k := keybytesToHex key
  if w.length ≠ 0 then (insert root k w).map (·.2) else (delete root k).map (·.2)

def apply (root : Node) : Op → Option Node
  | .update key w => update root key w
  | .delete key => (delete root (keybytesToHex key)).map (·.2)

/-- The calls on an empty trie. -/
def run (ops : List Op) : Option Node := ops.foldlM apply nil

/-! ## The map that is stored -/

/-- What a call does to the map of keys and values. -/
def Op.store (m : Bytes → Option Bytes) : Op → Bytes → Option Bytes
  | .update key w => Function.update m key (if w = [] then none else some w)
  | .delete key => Function.update m key none

/-- The last value stored under each key, if it was not deleted. -/
def stored (ops : List Op) : Bytes → Option Bytes := ops.foldl Op.store fun _ => none

/-! ## Keys -/

/-- A key ends with the terminator, which is nowhere else in it. -/
def Hex (key : List Nibble) : Prop := ∃ path, key = path ++ [16] ∧ 16 ∉ path

variable {k key path rest : List Nibble} {a b : Nibble}

theorem Hex.ne_nil (h : Hex key) : key ≠ [] := by
  obtain ⟨path, rfl, -⟩ := h
  simp

theorem Hex.terminator_mem (h : Hex key) : 16 ∈ key := by
  obtain ⟨path, rfl, -⟩ := h
  simp

theorem hex_cons_iff : Hex (a :: rest) ↔ a = 16 ∧ rest = [] ∨ a ≠ 16 ∧ Hex rest := by
  constructor
  · rintro ⟨path, heq, hpath⟩
    cases path with
    | nil =>
      obtain ⟨rfl, rfl⟩ := List.cons.inj heq
      exact .inl ⟨rfl, rfl⟩
    | cons x path =>
      obtain ⟨rfl, rfl⟩ := List.cons.inj heq
      rw [List.mem_cons, not_or] at hpath
      exact .inr ⟨Ne.symm hpath.1, path, rfl, hpath.2⟩
  · rintro (⟨rfl, rfl⟩ | ⟨ha, path, rfl, hpath⟩)
    · exact ⟨[], rfl, List.not_mem_nil⟩
    · exact ⟨a :: path, rfl, by simp [hpath, Ne.symm ha]⟩

theorem hex_append_iff (hpath : 16 ∉ path) : Hex (path ++ rest) ↔ Hex rest := by
  induction path with
  | nil => rfl
  | cons x path ih =>
    rw [List.mem_cons, not_or] at hpath
    rw [List.cons_append, hex_cons_iff, ih hpath.2]
    constructor
    · rintro (⟨rfl, -⟩ | ⟨-, h⟩)
      · exact absurd rfl hpath.1
      · exact h
    · exact fun h => .inr ⟨Ne.symm hpath.1, h⟩

theorem Hex.start_not_mem (h : Hex (path ++ a :: rest)) : 16 ∉ path := by
  induction path with
  | nil => exact List.not_mem_nil
  | cons x path ih =>
    rw [List.cons_append, hex_cons_iff] at h
    rcases h with ⟨-, hnil⟩ | ⟨hx, h⟩
    · simp at hnil
    · simp [ih h, Ne.symm hx]

theorem Hex.eq_of_append (h : Hex key) (h' : Hex (key ++ rest)) : rest = [] := by
  cases rest with
  | nil => rfl
  | cons a rest => exact absurd h.terminator_mem h'.start_not_mem

theorem hex_keybytesToHex (str : Bytes) : Hex (keybytesToHex str) := by
  induction str with
  | nil => exact ⟨[], rfl, List.not_mem_nil⟩
  | cons b str ih =>
    have hb := b.toNat_lt
    refine hex_cons_iff.mpr (.inr ⟨?_, hex_cons_iff.mpr (.inr ⟨?_, ih⟩)⟩)
    · rw [Ne, Fin.ext_iff]
      show ¬ b.toNat / 16 = 16
      omega
    · rw [Ne, Fin.ext_iff]
      show ¬ b.toNat % 16 = 16
      omega

theorem keybytesToHex_injective : Function.Injective keybytesToHex := by
  intro str str' heq
  induction str generalizing str' with
  | nil =>
    cases str' with
    | nil => rfl
    | cons b str' => cases str' <;> simp [keybytesToHex] at heq
  | cons b str ih =>
    cases str' with
    | nil => cases str <;> simp [keybytesToHex] at heq
    | cons b' str' =>
      obtain ⟨hhigh, heq⟩ := List.cons.inj heq
      obtain ⟨hlow, heq⟩ := List.cons.inj heq
      rw [ih heq]
      have hhigh : b.toNat / 16 = b'.toNat / 16 := Fin.ext_iff.mp hhigh
      have hlow : b.toNat % 16 = b'.toNat % 16 := Fin.ext_iff.mp hlow
      rw [UInt8.toNat_inj.mp (show b.toNat = b'.toNat by omega)]

theorem prefixLen_append (k rest : List Nibble) : prefixLen (k ++ rest) k = k.length := by
  induction k with
  | nil => cases rest <;> rfl
  | cons x k ih => rw [List.cons_append, prefixLen, if_pos rfl, ih, List.length_cons]

theorem prefixLen_fork (path rest rest' : List Nibble) (hab : a ≠ b) :
    prefixLen (path ++ b :: rest') (path ++ a :: rest) = path.length := by
  induction path with
  | nil => exact if_neg (Ne.symm hab)
  | cons x path ih =>
    rw [List.cons_append, List.cons_append, prefixLen, if_pos rfl, ih, List.length_cons]

theorem prefixLen_lt (h : ¬ k <+: key) : prefixLen key k < k.length := by
  induction k generalizing key with
  | nil => exact absurd List.nil_prefix h
  | cons a k ih =>
    cases key with
    | nil => exact Nat.succ_pos _
    | cons b key =>
      rw [prefixLen]
      split_ifs with hab
      · subst hab
        rw [List.prefix_cons_inj] at h
        exact Nat.succ_lt_succ (ih h)
      · exact Nat.succ_pos _

theorem exists_fork {k key : List Nibble} (h : ¬ k <+: key) (h' : ¬ key <+: k) :
    ∃ path a b rest rest', a ≠ b ∧ k = path ++ a :: rest ∧ key = path ++ b :: rest' := by
  induction k generalizing key with
  | nil => exact absurd List.nil_prefix h
  | cons a k ih =>
    cases key with
    | nil => exact absurd List.nil_prefix h'
    | cons b key =>
      by_cases hab : a = b
      · subst hab
        rw [List.prefix_cons_inj] at h h'
        obtain ⟨path, x, y, rest, rest', hne, rfl, rfl⟩ := ih h h'
        exact ⟨a :: path, x, y, rest, rest', hne, rfl, rfl⟩
      · exact ⟨[], a, b, k, key, hab, rfl, rfl⟩

end Trie

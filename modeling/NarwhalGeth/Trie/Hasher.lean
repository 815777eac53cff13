import NarwhalGeth.Geth.Rlp
import NarwhalGeth.Trie.Encoding

/-!
# Hashing the trie

A node is hashed from the bottom up: its children are replaced by their hashes, and a node whose
encoding is shorter than a hash stays inside its parent, unless it is the root. The hash function is
a parameter. A trie into which pairs were only inserted has no cached hashes.
-/

namespace Trie

open RadixTree

/-- The bytes of a key in nibbles. -/
def hexBytes (key : List Nibble) : Bytes := key.map fun x => UInt8.ofNat x.val

/-- The key of a short node in its encoding. -/
def compactKey (key : List Nibble) : Bytes := (Encoding.hexToCompact (hexBytes key)).getD []

theorem Encoding.exists_hexToCompact (hex : Bytes) : ∃ c, hexToCompact hex = some c := by
  unfold hexToCompact
  dsimp only
  generalize (if hasTerm hex = true then hex.take (hex.length - 1) else hex) = path
  by_cases hodd : path.length % 2 = 1
  · rw [if_pos hodd]
    obtain ⟨first, rest, rfl, heven, hhalf⟩ := exists_cons_of_odd hodd
    rw [hhalf, List.drop_one, List.tail_cons,
      decodeNibbles_eq heven (List.length_replicate ..).symm]
    exact ⟨_, rfl⟩
  · rw [if_neg hodd, decodeNibbles_eq (by omega) (List.length_replicate ..).symm]
    exact ⟨_, rfl⟩

/-- A node whose children are hashed. A raw node is an encoding that stands for itself. -/
inductive Hashed where
  | nil
  | value (v : Bytes)
  | hash (h : Bytes)
  | raw (b : Bytes)
  | short (key : Bytes) (val : Hashed)
  | full (children : Nibble → Hashed)

def Hashed.encode : Hashed → Bytes
  | nil => [0x80]
  | value v => Rlp.writeBytes v
  | hash h => Rlp.writeBytes h
  | raw b => b
  | short key val => Rlp.writeList (Rlp.writeBytes key ++ encode val)
  | full children => Rlp.writeList ((List.finRange 17).flatMap fun i => encode (children i))

/-- The root hash of an empty trie. -/
def emptyRootHash : Bytes :=
  [0x56, 0xe8, 0x1f, 0x17, 0x1b, 0xcc, 0x55, 0xa6, 0xff, 0x83, 0x45, 0xe6,
    0x92, 0xc0, 0xf8, 0x6e, 0x5b, 0x48, 0xe0, 0x1b, 0x99, 0x6c, 0xad, 0xc0,
    0x01, 0x62, 0x2f, 0xb5, 0xe3, 0x63, 0xb4, 0x21]

section Hasher

variable (keccak : Bytes → Bytes)

/-- Nodes smaller than a hash are stored inside their parent. -/
def toHash (n : Hashed) (force : Bool) : Hashed :=
  if n.encode.length < 32 ∧ force = false then n else .hash (keccak n.encode)

/-- A child of a full node. The last one is not hashed, as it is a value or missing. -/
def hashChild (i : Nibble) (child : Node) (hashed : Hashed) : Hashed :=
  if i ≠ 16 ∧ child.isNil then .value [] else hashed

def hash : Node → Bool → Hashed
  | nil, _ => .nil
  | value v, _ => .value v
  | short key val, force => toHash keccak (.short (compactKey key) (hash val false)) force
  | full children, force =>
    toHash keccak (.full fun i => hashChild i (children i) (hash (children i) false)) force

/-- The hash of the trie. The result of the hasher has to be a hash. -/
def rootHash : Node → Option Bytes
  | nil => some emptyRootHash
  | root =>
    match hash keccak root true with
    | .hash h => some h
    | _ => none

end Hasher

end Trie

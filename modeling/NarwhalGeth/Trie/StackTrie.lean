import NarwhalGeth.Trie.Canonical
import NarwhalGeth.Trie.Hasher

/-!
# The stack trie

The stack trie takes its keys in increasing order. Only the nodes on the path of the last key can
still change, and the others are replaced by their hashes. Functions have no result where the source
panics. The pool of nodes, the owner and the writer of nodes are left out.
-/

namespace Trie

open RadixTree

/-- A node by its type, with the fields that the type uses. `nil` is a missing child. -/
inductive StackTrie where
  | nil
  | empty
  | branch (children : Fin 16 → StackTrie)
  | ext (key : List (Fin 16)) (child : StackTrie)
  | leaf (key : List (Fin 16)) (val : Bytes)
  | hashed (val : Bytes)

/-- The results of all calls, if all have one. -/
def collect {α : Type} {n : ℕ} (f : Fin n → Option α) : Option (Fin n → α) :=
  if h : ∀ i, (f i).isSome then some fun i => (f i).get (h i) else none

theorem collect_eq_some {α : Type} {n : ℕ} {f : Fin n → Option α} {g : Fin n → α}
    (h : ∀ i, f i = some (g i)) : collect f = some g := by
  have hsome : ∀ i, (f i).isSome := fun i => by rw [h i]; rfl
  rw [collect, dif_pos hsome]
  congr 1
  funext i
  exact Option.get_of_eq_some _ (h i)

namespace StackTrie

def isNil : StackTrie → Bool
  | nil => true
  | _ => false

/-- A key in nibbles without a terminator, as a key of the trie. -/
def path (key : List (Fin 16)) : List Nibble := key.map Fin.castSucc

section Hash

variable (keccak : Bytes → Bytes)

/-- The encoding of a node, or its hash if that is shorter. -/
def shorten (enc : Bytes) : Bytes := if enc.length < 32 then enc else keccak enc

/-- How a parent refers to a hashed child. -/
def refer (val : Bytes) : Hashed := if val.length < 32 then .raw val else .hash val

/-- The children of an encoded branch. There is no value in it. -/
def branchNode (children : Fin 16 → Hashed) : Hashed :=
  .full fun i => if h : i.val < 16 then children ⟨i.val, h⟩ else .nil

/-- The value of a node once it is hashed. -/
def hashRec : StackTrie → Option Bytes
  | nil => none
  | hashed val => some val
  | empty => some emptyRootHash
  | branch children => do
    let nodes ← collect fun i =>
      if (children i).isNil then some (.value []) else (hashRec (children i)).map refer
    some (shorten keccak (branchNode nodes).encode)
  | ext key child => do
    let val ← hashRec child
    some (shorten keccak (Hashed.short (compactKey (path key)) (refer val)).encode)
  | leaf key val =>
    some (shorten keccak (Hashed.short (compactKey (path key ++ [16])) (.value val)).encode)

/-- Converts a node into a hashed one. -/
def hash (st : StackTrie) : Option StackTrie := (hashRec keccak st).map hashed

/-- The hash of the root, whose encoding is hashed even if it is short. -/
def rootHash (st : StackTrie) : Option Bytes := do
  let val ← hashRec keccak st
  if val.length = 32 then some val else some (keccak val)

/-! ## Insertion -/

/-- Where a key leaves the key of a node. Nothing is returned if it ends before. -/
def getDiffIndex : List (Fin 16) → List (Fin 16) → Option ℕ
  | [], _ => some 0
  | _ :: _, [] => none
  | x :: stKey, y :: key => if x ≠ y then some 0 else (getDiffIndex stKey key).map (· + 1)

/-- The nearest child before an index. -/
def elder (children : Fin 16 → StackTrie) (idx : Fin 16) : Option (Fin 16) :=
  ((List.finRange 16).filter (· < idx)).reverse.find? fun i => !(children i).isNil

/-- Hashes the nearest child before an index. -/
def unresolve (children : Fin 16 → StackTrie) (idx : Fin 16) : Option (Fin 16 → StackTrie) :=
  match elder children idx with
  | none => some children
  | some i => (hash keccak (children i)).map (Function.update children i)

/-- The branch where two keys part, below their common path. The old child is hashed. -/
def split (key : List (Fin 16)) (origIdx : Fin 16) (orig : StackTrie) (newIdx : Fin 16)
    (new : StackTrie) : Option StackTrie := do
  let orig ← hash keccak orig
  let p := branch (Function.update (Function.update (fun _ => nil) origIdx orig) newIdx new)
  some (if key = [] then p else ext key p)

def insert : StackTrie → List (Fin 16) → Bytes → Option StackTrie
  | nil, _, _ => none
  | branch _, [], _ => none
  | branch children, idx :: key, w => do
    let siblings ← unresolve keccak children idx
    if (children idx).isNil then some (branch (Function.update siblings idx (leaf key w)))
    else
      let child ← insert (children idx) key w
      some (branch (Function.update siblings idx child))
  | ext stKey child, key, w => do
    let diffidx ← getDiffIndex stKey key
    if diffidx = stKey.length then
      let child ← insert child (key.drop diffidx) w
      some (ext stKey child)
    else
      let origIdx ← stKey[diffidx]?
      let newIdx ← key[diffidx]?
      let orig := if diffidx < stKey.length - 1 then ext (stKey.drop (diffidx + 1)) child else child
      split keccak (stKey.take diffidx) origIdx orig newIdx (leaf (key.drop (diffidx + 1)) w)
  | leaf stKey val, key, w => do
    let diffidx ← getDiffIndex stKey key
    if diffidx ≥ stKey.length then none
    else
      let origIdx ← stKey[diffidx]?
      let newIdx ← key[diffidx]?
      split keccak (stKey.take diffidx) origIdx (leaf (stKey.drop (diffidx + 1)) val) newIdx
        (leaf (key.drop (diffidx + 1)) w)
  | empty, key, w => some (leaf key w)
  | hashed _, _, _ => none

theorem high_nibble_lt (b : UInt8) : b.toNat / 16 < 16 := by
  have := b.toNat_lt
  omega

theorem low_nibble_lt (b : UInt8) : b.toNat % 16 < 16 := by omega

/-- The nibbles of a key. -/
def nibbles (key : Bytes) : List (Fin 16) :=
  key.flatMap fun b => [⟨b.toNat / 16, high_nibble_lt b⟩, ⟨b.toNat % 16, low_nibble_lt b⟩]

def update (st : StackTrie) (key w : Bytes) : Option StackTrie :=
  if w.length = 0 then none else insert keccak st (nibbles key) w

end Hash

/-! ## What a stack trie stands for -/

section Represents

variable (keccak : Bytes → Bytes)

/-- The encoding of a node with its children hashed. -/
def encoding : Node → Bytes
  | .short key val => (Hashed.short (compactKey key) (Trie.hash keccak val false)).encode
  | .full children => (Hashed.full fun i =>
      hashChild i (children i) (Trie.hash keccak (children i) false)).encode
  | _ => []

/-- The stack trie stands for a node of the trie. A hashed node stands for every node with that
hash. -/
inductive Represents : StackTrie → Node → Prop
  | nil : Represents .nil .nil
  | leaf (key : List (Fin 16)) (val : Bytes) :
      Represents (.leaf key val) (.short (path key ++ [16]) (.value val))
  | ext {child : StackTrie} {nodes : Nibble → Node} (key : List (Fin 16))
      (inner : Represents child (.full nodes)) :
      Represents (.ext key child) (.short (path key) (.full nodes))
  | branch {children : Fin 16 → StackTrie} {nodes : Nibble → Node}
      (child : ∀ i, Represents (children i) (nodes i.castSucc)) (value : nodes 16 = .nil) :
      Represents (.branch children) (.full nodes)
  | hashedShort (key : List Nibble) (val : Node) :
      Represents (.hashed (shorten keccak (encoding keccak (.short key val)))) (.short key val)
  | hashedFull (nodes : Nibble → Node) :
      Represents (.hashed (shorten keccak (encoding keccak (.full nodes)))) (.full nodes)

variable {keccak} {st : StackTrie} {n : Node}

theorem Represents.isNil_eq (h : Represents keccak st n) : st.isNil = n.isNil := by
  cases h <;> rfl

theorem Represents.ne_value (h : Represents keccak st n) (v : Bytes) : n ≠ .value v := by
  rintro rfl
  cases h

theorem branchNode_encode (children : Fin 16 → Hashed) :
    (branchNode children).encode = Rlp.writeList
      ((List.finRange 16).flatMap (fun i => (children i).encode) ++ [0x80]) := by
  rw [branchNode, Hashed.encode, List.finRange_succ_last, List.flatMap_append, List.flatMap_map]
  rfl

theorem encoding_full (nodes : Nibble → Node) (hvalue : nodes 16 = .nil) :
    encoding keccak (.full nodes) = Rlp.writeList ((List.finRange 16).flatMap (fun i =>
      (hashChild i.castSucc (nodes i.castSucc)
        (Trie.hash keccak (nodes i.castSucc) false)).encode) ++ [0x80]) := by
  have hlast : (hashChild (Fin.last 16) (nodes (Fin.last 16))
      (Trie.hash keccak (nodes (Fin.last 16)) false)).encode = [0x80] := by
    rw [show nodes (Fin.last 16) = .nil from hvalue]
    rfl
  rw [encoding, Hashed.encode, List.finRange_succ_last, List.flatMap_append, List.flatMap_map,
    List.flatMap_singleton, hlast]

variable (hkeccak : ∀ b, (keccak b).length = 32)

include hkeccak

theorem Represents.encode_refer (h : Represents keccak st n) (hn : n.isNil = false) :
    (refer (shorten keccak (encoding keccak n))).encode = (Trie.hash keccak n false).encode := by
  have hboth : ∀ collapsed : Hashed, (refer (shorten keccak collapsed.encode)).encode =
      (toHash keccak collapsed false).encode := by
    intro collapsed
    unfold shorten toHash
    by_cases hshort : collapsed.encode.length < 32
    · rw [if_pos hshort, if_pos ⟨hshort, rfl⟩, refer, if_pos hshort]
      rfl
    · rw [if_neg hshort, if_neg (fun h => hshort h.1), refer, hkeccak, if_neg (by decide)]
  cases n with
  | nil => cases hn
  | value v => exact absurd rfl (h.ne_value v)
  | short key val => exact hboth _
  | full nodes => exact hboth _

theorem Represents.hashRec_eq (h : Represents keccak st n) (hne : n.isNil = false) :
    hashRec keccak st = some (shorten keccak (encoding keccak n)) := by
  induction h with
  | nil => cases hne
  | leaf key val => rfl
  | ext key inner ih =>
    rw [hashRec, ih rfl, Option.bind_eq_bind, Option.bind_some, encoding, Hashed.encode,
      Hashed.encode, inner.encode_refer hkeccak rfl]
  | @branch children nodes child value ih =>
    -- The value of each child, and how it is encoded.
    let val (i : Fin 16) : Hashed := if (children i).isNil then .value []
      else refer (shorten keccak (encoding keccak (nodes i.castSucc)))
    have hval : ∀ i, (if (children i).isNil then some (.value [])
        else (hashRec keccak (children i)).map refer) = some (val i) := by
      intro i
      by_cases hnil : (children i).isNil = true
      · simp only [val, if_pos hnil]
      · have hnode : (nodes i.castSucc).isNil = false := by
          rw [← (child i).isNil_eq]
          exact Bool.eq_false_iff.mpr hnil
        simp only [val, if_neg hnil, ih i hnode, Option.map_some]
    have hencode : ∀ i, (val i).encode = (hashChild i.castSucc (nodes i.castSucc)
        (Trie.hash keccak (nodes i.castSucc) false)).encode := by
      intro i
      by_cases hnil : (children i).isNil = true
      · have hnode : (nodes i.castSucc).isNil = true := by rwa [← (child i).isNil_eq]
        simp only [val, if_pos hnil, hashChild]
        rw [if_pos ⟨Fin.castSucc_ne_last i, hnode⟩]
      · have hnode : (nodes i.castSucc).isNil = false := by
          rw [← (child i).isNil_eq]
          exact Bool.eq_false_iff.mpr hnil
        simp only [val, if_neg hnil, hashChild, hnode, and_false, Bool.false_eq_true, if_false]
        exact (child i).encode_refer hkeccak hnode
    rw [hashRec, collect_eq_some hval, Option.bind_eq_bind, Option.bind_some, branchNode_encode,
      encoding_full nodes value]
    simp only [hencode]
  | hashedShort key val => rfl
  | hashedFull nodes => rfl

theorem Represents.hash (h : Represents keccak st n) (hne : n.isNil = false) :
    ∃ st', StackTrie.hash keccak st = some st' ∧ Represents keccak st' n := by
  rw [StackTrie.hash, h.hashRec_eq hkeccak hne]
  cases n with
  | nil => cases hne
  | value v => exact absurd rfl (h.ne_value v)
  | short key val => exact ⟨_, rfl, .hashedShort key val⟩
  | full nodes => exact ⟨_, rfl, .hashedFull nodes⟩

end Represents

/-! ## The path of the last key -/

/-- The nodes on the path of the last key are not hashed, and there is nothing behind it. -/
def Open : StackTrie → List (Fin 16) → Prop
  | leaf key _, last => last = key
  | ext key child, last => ∃ rest, last = key ++ rest ∧ Open child rest
  | branch children, last =>
    ∃ i rest, last = i :: rest ∧ Open (children i) rest ∧ ∀ j, i < j → children j = nil
  | _, _ => False

theorem Open.isNil {st : StackTrie} {last : List (Fin 16)} (h : Open st last) :
    st.isNil = false := by
  cases st with
  | nil => exact h.elim
  | _ => rfl

theorem getDiffIndex_append (key rest : List (Fin 16)) :
    getDiffIndex key (key ++ rest) = some key.length := by
  induction key with
  | nil => rw [getDiffIndex]; rfl
  | cons x key ih =>
    rw [List.cons_append, getDiffIndex, if_neg (not_not.mpr rfl), ih]
    rfl

theorem getDiffIndex_fork {a b : Fin 16} (hab : a ≠ b) (front rest rest' : List (Fin 16)) :
    getDiffIndex (front ++ a :: rest) (front ++ b :: rest') = some front.length := by
  induction front with
  | nil => exact if_pos hab
  | cons x front ih =>
    rw [List.cons_append, List.cons_append, getDiffIndex, if_neg (not_not.mpr rfl), ih]
    rfl

theorem path_append (key key' : List (Fin 16)) : path (key ++ key') = path key ++ path key' :=
  List.map_append

theorem path_cons (a : Fin 16) (key : List (Fin 16)) : path (a :: key) = a.castSucc :: path key :=
  rfl

theorem append_eq_append_cons {stKey last front rest : List (Fin 16)} {a : Fin 16}
    (h : stKey ++ last = front ++ a :: rest) :
    (∃ front', front = stKey ++ front' ∧ last = front' ++ a :: rest) ∨
      ∃ stRest, stKey = front ++ a :: stRest ∧ rest = stRest ++ last := by
  rcases List.append_eq_append_iff.mp h with ⟨front', hfront, hlast⟩ | ⟨stRest, hstKey, hrest⟩
  · exact .inl ⟨front', hfront, hlast⟩
  · cases stRest with
    | nil => exact .inl ⟨[], by rw [hstKey]; simp, hrest.symm⟩
    | cons x stRest =>
      obtain ⟨rfl, rfl⟩ := List.cons.inj hrest
      exact .inr ⟨stRest, hstKey, rfl⟩

section Insert

variable {keccak : Bytes → Bytes} {a b : Fin 16} {w : Bytes} {children : Fin 16 → StackTrie}
  {nodes : Nibble → Node} {node : Node}

theorem insert_leaf_fork (hab : a ≠ b) (front rest rest' : List (Fin 16)) (val : Bytes) :
    insert keccak (leaf (front ++ a :: rest) val) (front ++ b :: rest') w =
      split keccak front a (leaf rest val) b (leaf rest' w) := by
  have hlt : ¬front.length ≥ (front ++ a :: rest).length := by simp
  rw [insert, getDiffIndex_fork hab, Option.bind_eq_bind, Option.bind_some, if_neg hlt]
  simp

theorem insert_ext_append (stKey rest : List (Fin 16)) (child : StackTrie) :
    insert keccak (ext stKey child) (stKey ++ rest) w =
      (insert keccak child rest w).map (ext stKey) := by
  rw [insert, getDiffIndex_append, Option.bind_eq_bind, Option.bind_some, if_pos rfl,
    List.drop_left]
  cases insert keccak child rest w <;> rfl

theorem insert_ext_fork (hab : a ≠ b) (front rest rest' : List (Fin 16)) (child : StackTrie) :
    insert keccak (ext (front ++ a :: rest) child) (front ++ b :: rest') w =
      split keccak front a (if rest = [] then child else ext rest child) b (leaf rest' w) := by
  have hne : front.length ≠ (front ++ a :: rest).length := by simp
  rw [insert, getDiffIndex_fork hab, Option.bind_eq_bind, Option.bind_some, if_neg hne]
  cases rest with
  | nil => simp
  | cons x rest => simp

theorem insert_branch (children : Fin 16 → StackTrie) (idx : Fin 16) (key : List (Fin 16)) :
    insert keccak (branch children) (idx :: key) w =
      (unresolve keccak children idx).bind fun siblings =>
        (if (children idx).isNil then some (leaf key w)
          else insert keccak (children idx) key w).map fun child =>
            branch (Function.update siblings idx child) := by
  rw [insert, Option.bind_eq_bind]
  congr 1
  funext siblings
  split_ifs
  · rfl
  · cases insert keccak (children idx) key w <;> rfl

variable (hkeccak : ∀ b, (keccak b).length = 32)

theorem Represents.update (idx : Fin 16) {child : StackTrie}
    (h : ∀ i, Represents keccak (children i) (nodes i.castSucc))
    (hchild : Represents keccak child node) (i : Fin 16) :
    Represents keccak (Function.update children idx child i)
      (Function.update nodes idx.castSucc node i.castSucc) := by
  by_cases hi : i = idx
  · subst hi
    rw [Function.update_self, Function.update_self]
    exact hchild
  · rw [Function.update_of_ne hi,
      Function.update_of_ne fun heq => hi (Fin.castSucc_injective 16 heq)]
    exact h i

theorem update_last (nodes : Nibble → Node) (idx : Fin 16) (node : Node) :
    Function.update nodes idx.castSucc node 16 = nodes 16 :=
  Function.update_of_ne (Fin.castSucc_ne_last idx).symm _ _

theorem Represents.extend {st : StackTrie} (h : Represents keccak st (.full nodes))
    (key : List (Fin 16)) :
    Represents keccak (if key = [] then st else .ext key st)
      (insertNew (path key) (.full nodes)) := by
  by_cases hkey : key = []
  · subst hkey
    exact h
  · have hpath : path key ≠ [] := fun h => hkey (List.map_eq_nil_iff.mp h)
    rw [if_neg hkey, insertNew, if_neg hpath]
    exact .ext key h

include hkeccak

theorem Represents.split {orig : StackTrie} (h : Represents keccak orig node)
    (hne : node.isNil = false) {a b : Fin 16} (hab : a < b) (front rest : List (Fin 16)) (w : Bytes)
    : ∃ st', StackTrie.split keccak front a orig b (.leaf rest w) = some st' ∧
      Represents keccak st' (insertNew (path front) (fork a.castSucc node b.castSucc
        (.short (path rest ++ [16]) (.value w)))) ∧ Open st' (front ++ b :: rest) := by
  obtain ⟨orig', hhash, horig'⟩ := h.hash hkeccak hne
  let children :=
    Function.update (Function.update (fun _ => StackTrie.nil) a orig') b (.leaf rest w)
  have hbranch : Represents keccak (.branch children)
      (fork a.castSucc node b.castSucc (.short (path rest ++ [16]) (.value w))) := by
    refine .branch (Represents.update b (Represents.update a (fun _ => .nil) horig')
      (.leaf rest w)) ?_
    rw [update_last, update_last]
  have hopen : Open (.branch children) (b :: rest) := by
    refine ⟨b, rest, rfl, ?_, fun j hj => ?_⟩
    · simp only [children, Function.update_self]
      rfl
    · simp only [children, Function.update_of_ne hj.ne', Function.update_of_ne (hab.trans hj).ne']
  rw [StackTrie.split, hhash, Option.bind_eq_bind, Option.bind_some]
  refine ⟨_, rfl, hbranch.extend front, ?_⟩
  split_ifs with hfront
  · subst hfront
    exact hopen
  · exact ⟨_, rfl, hopen⟩

theorem Represents.unresolve (h : ∀ i, Represents keccak (children i) (nodes i.castSucc))
    (idx : Fin 16) :
    ∃ siblings, StackTrie.unresolve keccak children idx = some siblings ∧
      (∀ i, Represents keccak (siblings i) (nodes i.castSucc)) ∧
      ∀ i, idx ≤ i → siblings i = children i := by
  unfold StackTrie.unresolve
  cases helder : elder children idx with
  | none => exact ⟨children, rfl, h, fun _ _ => rfl⟩
  | some e =>
    unfold elder at helder
    have hlt : e < idx := by
      have hmem := List.mem_of_find?_eq_some helder
      rw [List.mem_reverse, List.mem_filter] at hmem
      exact of_decide_eq_true hmem.2
    have hne : (nodes e.castSucc).isNil = false := by
      rw [← (h e).isNil_eq]
      simpa using List.find?_some helder
    obtain ⟨st', hhash, hst'⟩ := (h e).hash hkeccak hne
    refine ⟨Function.update children e st', ?_, fun i => ?_, fun i hi => ?_⟩
    · simp only [hhash, Option.map_some]
    · by_cases hi : i = e
      · subst hi
        rw [Function.update_self]
        exact hst'
      · rw [Function.update_of_ne hi]
        exact h i
    · exact Function.update_of_ne (hlt.trans_le hi).ne' _ _

/-- An insertion in the stack trie does not panic, and its result stands for that of the trie. -/
def Inserts (keccak : Bytes → Bytes) (result : Option StackTrie) (n : Node)
    (key : List (Fin 16)) (w : Bytes) : Prop :=
  ∃ st' n', result = some st' ∧ Trie.insert n (path key ++ [16]) w = some (true, n') ∧
    Represents keccak st' n' ∧ Open st' key ∧
    ((∃ nodes, n = .full nodes) → ∃ nodes, n' = .full nodes)

theorem inserts_leaf_fork (hab : a < b) (front rest rest' : List (Fin 16)) (val : Bytes) :
    Inserts keccak (insert keccak (leaf (front ++ a :: rest) val) (front ++ b :: rest') w)
      (.short (path (front ++ a :: rest) ++ [16]) (.value val)) (front ++ b :: rest') w := by
  have hleaf : Represents keccak (.leaf rest val) _ := .leaf rest val
  obtain ⟨st', hsplit, hst', hopen⟩ := hleaf.split hkeccak rfl hab front rest' w
  refine ⟨st', _, ?_, ?_, hst', hopen, ?_⟩
  · rw [insert_leaf_fork hab.ne, hsplit]
  · have hne : a.castSucc ≠ b.castSucc := fun h => hab.ne (Fin.castSucc_injective 16 h)
    rw [path_append, path_append, path_cons, path_cons, List.append_assoc, List.append_assoc,
      List.cons_append, List.cons_append, insert_short_fork hne]
    simp [insertNew]
  · rintro ⟨_, ⟨⟩⟩

omit hkeccak in
theorem Inserts.ext {child : StackTrie} {key : List (Fin 16)}
    (h : Inserts keccak (insert keccak child key w) (.full nodes) key w) (stKey : List (Fin 16)) :
    Inserts keccak (insert keccak (.ext stKey child) (stKey ++ key) w)
      (.short (path stKey) (.full nodes)) (stKey ++ key) w := by
  obtain ⟨child', n', hinsert, htrie, hchild', hopen, hfull⟩ := h
  obtain ⟨nodes', rfl⟩ := hfull ⟨nodes, rfl⟩
  refine ⟨.ext stKey child', _, ?_, ?_, .ext stKey hchild', ⟨_, rfl, hopen⟩, ?_⟩
  · rw [insert_ext_append, hinsert]
    rfl
  · rw [path_append, List.append_assoc, insert_short_append (.inl (by simp)), htrie]
    rfl
  · rintro ⟨_, ⟨⟩⟩

theorem inserts_ext_fork {child : StackTrie} (inner : Represents keccak child (.full nodes))
    (hab : a < b) (front rest rest' : List (Fin 16)) :
    Inserts keccak (insert keccak (ext (front ++ a :: rest) child) (front ++ b :: rest') w)
      (.short (path (front ++ a :: rest)) (.full nodes)) (front ++ b :: rest') w := by
  have horigNil : (insertNew (path rest) (.full nodes)).isNil = false := by
    unfold insertNew
    split_ifs <;> rfl
  obtain ⟨st', hsplit, hst', hopen⟩ :=
    (inner.extend rest).split hkeccak horigNil hab front rest' w
  refine ⟨st', _, ?_, ?_, hst', hopen, ?_⟩
  · rw [insert_ext_fork hab.ne, hsplit]
  · have hne : a.castSucc ≠ b.castSucc := fun h => hab.ne (Fin.castSucc_injective 16 h)
    rw [path_append, path_append, path_cons, path_cons, List.append_assoc, List.cons_append,
      insert_short_fork hne]
    simp [insertNew]
  · rintro ⟨_, ⟨⟩⟩

/-- What a branch becomes, from what its child under the first nibble becomes. -/
theorem inserts_branch (child : ∀ i, Represents keccak (children i) (nodes i.castSucc))
    (value : nodes 16 = .nil) {j : Fin 16} {key : List (Fin 16)}
    (hchild : Inserts keccak (if (children j).isNil then some (leaf key w)
      else insert keccak (children j) key w) (nodes j.castSucc) key w)
    (hbehind : ∀ k, j < k → children k = nil) :
    Inserts keccak (insert keccak (branch children) (j :: key) w) (.full nodes) (j :: key) w := by
  obtain ⟨siblings, hunresolve, hsiblings, hsame⟩ := Represents.unresolve hkeccak child j
  obtain ⟨child', n', hinsert, htrie, hrepresents, hopen, -⟩ := hchild
  refine ⟨_, _, ?_, ?_, .branch (Represents.update j hsiblings hrepresents) ?_,
    ⟨j, key, rfl, ?_, fun k hk => ?_⟩, fun _ => ⟨_, rfl⟩⟩
  · rw [insert_branch, hunresolve, Option.bind_some, hinsert]
    rfl
  · rw [path_cons, List.cons_append, insert_full, htrie]
    rfl
  · rw [update_last, value]
  · rw [Function.update_self]
    exact hopen
  · rw [Function.update_of_ne hk.ne', hsame k hk.le, hbehind k hk]

/-- An insertion of a key behind the last one does not panic, and does what the trie does. -/
theorem Represents.insert {st : StackTrie} {n : Node} (h : Represents keccak st n)
    {last key : List (Fin 16)} (hopen : Open st last) (hbefore : Before last key) (w : Bytes) :
    Inserts keccak (StackTrie.insert keccak st key w) n key w := by
  induction h generalizing last key with
  | nil => exact hopen.elim
  | hashedShort => exact hopen.elim
  | hashedFull => exact hopen.elim
  | leaf stKey val =>
    obtain ⟨front, a, b, rest, rest', hab, rfl, rfl⟩ := hbefore
    obtain rfl : _ = stKey := hopen
    exact inserts_leaf_fork hkeccak hab front rest rest' val
  | ext stKey inner ih =>
    obtain ⟨last, rfl, hopen⟩ := hopen
    obtain ⟨front, a, b, rest, rest', hab, hlast, rfl⟩ := hbefore
    -- The keys part behind the path of the extension, or on it.
    rcases append_eq_append_cons hlast with ⟨front', rfl, rfl⟩ | ⟨stRest, rfl, rfl⟩
    · rw [List.append_assoc]
      exact (ih hopen ⟨front', a, b, rest, rest', hab, rfl, rfl⟩).ext stKey
    · exact inserts_ext_fork hkeccak inner hab front stRest rest'
  | @branch children nodes child value ih =>
    obtain ⟨i, last, rfl, hopen, hbehind⟩ := hopen
    rcases hbefore.of_cons with ⟨j, key, rfl, hij⟩ | ⟨key, rfl, hrest⟩
    · refine inserts_branch hkeccak child value ?_ fun k hk => hbehind k (hij.trans hk)
      have hnode : nodes j.castSucc = .nil := by
        rw [← RadixTree.isNil_iff, ← (child j).isNil_eq, hbehind j hij]
        rfl
      rw [hbehind j hij, hnode]
      refine ⟨_, _, rfl, ?_, .leaf key w, rfl, ?_⟩
      · rw [Trie.insert]
        simp [insertNew]
      · rintro ⟨_, ⟨⟩⟩
    · refine inserts_branch hkeccak child value ?_ hbehind
      rw [hopen.isNil]
      exact ih i hopen hrest

end Insert

/-! ## The hash of the root -/

theorem Represents.rootHash {keccak : Bytes → Bytes} (hkeccak : ∀ b, (keccak b).length = 32)
    {st : StackTrie} {n : Node} (h : Represents keccak st n) (hne : n.isNil = false) :
    ∃ digest, StackTrie.rootHash keccak st = some digest ∧
      Trie.rootHash keccak n = some digest := by
  refine ⟨keccak (encoding keccak n), ?_, ?_⟩
  · rw [StackTrie.rootHash, h.hashRec_eq hkeccak hne, Option.bind_eq_bind, Option.bind_some]
    unfold shorten
    by_cases hshort : (encoding keccak n).length < 32
    · rw [if_pos hshort, if_neg hshort.ne]
    · rw [if_neg hshort, if_pos (hkeccak _)]
  · cases n with
    | nil => cases hne
    | value v => exact absurd rfl (h.ne_value v)
    | short key val =>
      simp only [Trie.rootHash, Trie.hash, toHash, reduceCtorEq, and_false, if_false]
      rfl
    | full nodes =>
      simp only [Trie.rootHash, Trie.hash, toHash, reduceCtorEq, and_false, if_false]
      rfl

/-! ## Keys -/

theorem nibbles_cons (b : UInt8) (key : Bytes) : nibbles (b :: key) =
    ⟨b.toNat / 16, high_nibble_lt b⟩ :: ⟨b.toNat % 16, low_nibble_lt b⟩ :: nibbles key := rfl

theorem keybytesToHex_eq_path (key : Bytes) : keybytesToHex key = path (nibbles key) ++ [16] := by
  induction key with
  | nil => rfl
  | cons b key ih =>
    rw [keybytesToHex, nibbles_cons, path_cons, path_cons, ih]
    rfl

theorem nibbles_before {key key' : Bytes} (h : Before key key') :
    Before (nibbles key) (nibbles key') := by
  obtain ⟨front, a, b, rest, rest', hab, rfl, rfl⟩ := h
  induction front with
  | nil =>
    rw [List.nil_append, List.nil_append, nibbles_cons, nibbles_cons]
    have hab : a.toNat < b.toNat := UInt8.lt_iff_toNat_lt.mp hab
    by_cases hhigh : a.toNat / 16 < b.toNat / 16
    · exact before_of_lt (Fin.mk_lt_mk.mpr hhigh) _ _
    · have heq : (⟨a.toNat / 16, high_nibble_lt a⟩ : Fin 16) =
          ⟨b.toNat / 16, high_nibble_lt b⟩ := Fin.ext (by dsimp only; omega)
      rw [heq]
      exact (before_of_lt (Fin.mk_lt_mk.mpr (by omega)) _ _).cons _
  | cons x front ih =>
    rw [List.cons_append, List.cons_append, nibbles_cons, nibbles_cons]
    exact (ih.cons _).cons _

end StackTrie

end Trie

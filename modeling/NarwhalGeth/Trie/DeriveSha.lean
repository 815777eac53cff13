import NarwhalGeth.Trie.StackTrie

/-!
# The roots of a block

`DeriveSha` puts the items of a list into a stack trie under their encoded indices. The encoding of
zero comes between those of 127 and 128, and the insertions follow that order. The result is the
root hash of the trie of the same pairs.
-/

namespace Trie

open RadixTree

/-- The order of the indices: from one to 127, then zero, then the others. -/
def deriveOrder (len : ℕ) : List ℕ :=
  List.range' 1 (min (len - 1) 0x7f) ++ (if len > 0 then [0] else []) ++
    List.range' 0x80 (len - 0x80)

def deriveSha (keccak : Bytes → Bytes) (list : List Bytes) : Option Bytes := do
  let hasher ← (deriveOrder list.length).foldlM (fun hasher i => do
    let value ← list[i]?
    hasher.update keccak (Rlp.appendUint64 [] i) value) StackTrie.empty
  hasher.rootHash keccak

/-! ## Insertions in order -/

section Updates

variable {keccak : Bytes → Bytes} (hkeccak : ∀ b, (keccak b).length = 32)
  {pairs : List (Bytes × Bytes)}

theorem apply_update {key w : Bytes} (hw : w ≠ []) (root : Node) : apply root (.update key w) =
    (insert root (StackTrie.path (StackTrie.nibbles key) ++ [16]) w).map (·.2) := by
  rw [apply, update, if_pos (fun h => hw (List.length_eq_zero_iff.mp h)),
    StackTrie.keybytesToHex_eq_path]

include hkeccak

theorem updates_from {last : Bytes} (hchain : List.IsChain Before (last :: pairs.map (·.1)))
    (hne : ∀ p ∈ pairs, p.2 ≠ []) {st : StackTrie} {n : Node} (h : StackTrie.Represents keccak st n)
    (hopen : st.Open (StackTrie.nibbles last)) :
    ∃ st' n', pairs.foldlM (fun st p => st.update keccak p.1 p.2) st = some st' ∧
      (pairs.map fun p => Op.update p.1 p.2).foldlM apply n = some n' ∧
      StackTrie.Represents keccak st' n' ∧ n'.isNil = false := by
  induction pairs generalizing last st n with
  | nil =>
    refine ⟨st, n, rfl, rfl, h, ?_⟩
    rw [← h.isNil_eq]
    exact hopen.isNil
  | cons p pairs ih =>
    rw [List.map_cons, List.isChain_cons_cons] at hchain
    rw [List.forall_mem_cons] at hne
    obtain ⟨st', n', hinsert, htrie, hst', hopen', -⟩ :=
      h.insert hkeccak hopen (StackTrie.nibbles_before hchain.1) p.2
    have hupdate : st.update keccak p.1 p.2 = some st' := by
      rw [StackTrie.update, if_neg (fun h => hne.1 (List.length_eq_zero_iff.mp h)), hinsert]
    have happly : apply n (.update p.1 p.2) = some n' := by
      rw [apply_update hne.1, htrie]
      rfl
    obtain ⟨st'', n'', hrest, hrest', hend⟩ := ih hchain.2 hne.2 hst' hopen'
    refine ⟨st'', n'', ?_, ?_, hend⟩
    · rw [List.foldlM_cons, hupdate]
      exact hrest
    · rw [List.map_cons, List.foldlM_cons, happly]
      exact hrest'

theorem updates_rootHash (hchain : List.IsChain Before (pairs.map (·.1)))
    (hne : ∀ p ∈ pairs, p.2 ≠ []) :
    ∃ st root digest,
      pairs.foldlM (fun st p => st.update keccak p.1 p.2) StackTrie.empty = some st ∧
      run (pairs.map fun p => Op.update p.1 p.2) = some root ∧
      st.rootHash keccak = some digest ∧ rootHash keccak root = some digest := by
  cases pairs with
  | nil => exact ⟨_, _, _, rfl, rfl, rfl, rfl⟩
  | cons p pairs =>
    rw [List.map_cons] at hchain
    rw [List.forall_mem_cons] at hne
    have hupdate : StackTrie.empty.update keccak p.1 p.2 =
        some (.leaf (StackTrie.nibbles p.1) p.2) := by
      rw [StackTrie.update, if_neg (fun h => hne.1 (List.length_eq_zero_iff.mp h))]
      rfl
    have happly : apply nil (.update p.1 p.2) =
        some (short (StackTrie.path (StackTrie.nibbles p.1) ++ [16]) (value p.2)) := by
      rw [apply_update hne.1, insert]
      simp [insertNew]
    obtain ⟨st, root, hst, hroot, hrepresents, hnil⟩ :=
      updates_from hkeccak hchain hne.2 (.leaf (StackTrie.nibbles p.1) p.2) rfl
    obtain ⟨digest, hdigest, hdigest'⟩ := hrepresents.rootHash hkeccak hnil
    refine ⟨st, root, digest, ?_, ?_, hdigest, hdigest'⟩
    · rw [List.foldlM_cons, hupdate]
      exact hst
    · rw [run, List.map_cons, List.foldlM_cons, happly]
      exact hroot

end Updates

/-! ## The order of the indices -/

theorem deriveOrder_pairwise (len : ℕ) : (deriveOrder len).Pairwise Rlp.IndexBefore := by
  have hrange : ∀ start count : ℕ, start ≠ 0 →
      (List.range' start count).Pairwise Rlp.IndexBefore := by
    intro start count hstart
    refine (List.pairwise_lt_range').imp_of_mem fun {i j} hi _ hij => .inr (.inr ⟨?_, hij⟩)
    rw [List.mem_range'_1] at hi
    omega
  unfold deriveOrder
  rw [List.pairwise_append, List.pairwise_append]
  refine ⟨⟨hrange 1 _ (by decide), ?_, fun i hi j hj => ?_⟩, hrange 0x80 _ (by decide),
    fun i hi j hj => ?_⟩
  · split_ifs <;> simp
  · rw [List.mem_range'_1] at hi
    split_ifs at hj
    · rw [List.mem_singleton] at hj
      exact .inl ⟨by omega, by omega, hj⟩
    · cases hj
  · rw [List.mem_range'_1] at hj
    rcases List.mem_append.mp hi with hi | hi
    · rw [List.mem_range'_1] at hi
      exact .inr (.inr ⟨by omega, by omega⟩)
    · split_ifs at hi
      · rw [List.mem_singleton] at hi
        exact .inr (.inl ⟨hi, hj.1⟩)
      · cases hi

theorem mem_deriveOrder {len i : ℕ} : i ∈ deriveOrder len ↔ i < len := by
  unfold deriveOrder
  rw [List.mem_append, List.mem_append, List.mem_range'_1, List.mem_range'_1]
  split_ifs
  · rw [List.mem_singleton]
    omega
  · simp only [List.not_mem_nil, or_false]
    omega

theorem indexBefore_iff_ne {i j : ℕ} : Rlp.IndexBefore i j ∨ Rlp.IndexBefore j i ↔ i ≠ j := by
  unfold Rlp.IndexBefore
  omega

theorem appendUint64_inj {i j : ℕ} (hi : i < 2 ^ 64) (hj : j < 2 ^ 64)
    (h : Rlp.appendUint64 [] i = Rlp.appendUint64 [] j) : i = j := by
  by_contra hne
  rcases indexBefore_iff_ne.mpr hne with hij | hji
  · exact (Rlp.appendUint64_before hij hj).ne UInt8.lt_irrefl h
  · exact (Rlp.appendUint64_before hji hi).ne UInt8.lt_irrefl h.symm

theorem deriveOrder_perm (len : ℕ) : (deriveOrder len).Perm (List.range len) := by
  have hnodup : (deriveOrder len).Nodup := 
    (deriveOrder_pairwise len).imp fun h => indexBefore_iff_ne.mp (.inl h)
  rw [List.perm_ext_iff_of_nodup hnodup List.nodup_range]
  intro i
  rw [mem_deriveOrder, List.mem_range]

theorem stored_perm (key item : ℕ → Bytes) {order order' : List ℕ} (hperm : order.Perm order')
    (hkey : ∀ i ∈ order, ∀ j ∈ order, key i = key j → i = j) :
    stored (order.map fun i => .update (key i) (item i)) =
      stored (order'.map fun i => .update (key i) (item i)) := by
  unfold stored
  rw [List.foldl_map, List.foldl_map]
  refine hperm.foldl_eq' (fun i hi j hj m => ?_) _
  by_cases hij : key i = key j
  · rw [hkey i hi j hj hij]
  · exact Function.update_comm hij _ _ m

/-! ## The root -/

theorem getElem?_eq_getD {items : List Bytes} {i : ℕ} (hi : i < items.length) :
    items[i]? = some (items.getD i []) := by
  rw [List.getD_eq_getElem?_getD, List.getElem?_eq_getElem hi]
  rfl

theorem deriveSha_eq (keccak : Bytes → Bytes) (items : List Bytes) : deriveSha keccak items =
    (((deriveOrder items.length).map fun i => (Rlp.appendUint64 [] i, items.getD i [])).foldlM
      (fun (st : StackTrie) p => st.update keccak p.1 p.2) StackTrie.empty).bind
        (·.rootHash keccak) := by
  have hfold : ∀ (order : List ℕ) (st : StackTrie), (∀ i ∈ order, i < items.length) →
      order.foldlM (fun hasher i => do
        let value ← items[i]?
        hasher.update keccak (Rlp.appendUint64 [] i) value) st =
      (order.map fun i => (Rlp.appendUint64 [] i, items.getD i [])).foldlM
        (fun st p => st.update keccak p.1 p.2) st := by
    intro order
    induction order with
    | nil => exact fun _ _ => rfl
    | cons i order ih =>
      intro st hlt
      rw [List.forall_mem_cons] at hlt
      rw [List.foldlM_cons, List.map_cons, List.foldlM_cons, getElem?_eq_getD hlt.1]
      simp only [Option.bind_eq_bind, Option.bind_some]
      congr 1
      funext st'
      exact ih st' hlt.2
  rw [deriveSha, hfold _ _ fun i hi => mem_deriveOrder.mp hi]
  rfl

/-- For every list of non-empty items whose length fits in an `int`, `DeriveSha` returns the root
hash of the trie of the indices and items, inserted in any order. -/
theorem derive_sha_eq_root {keccak : Bytes → Bytes} (hkeccak : ∀ b, (keccak b).length = 32)
    {items : List Bytes} (hlen : items.length < 2 ^ 63) (hne : ∀ item ∈ items, item ≠ []) :
    ∃ digest, deriveSha keccak items = some digest ∧
      ∀ order : List ℕ, order.Perm (List.range items.length) → ∃ root,
        run (order.map fun i => .update (Rlp.appendUint64 [] i) (items.getD i [])) = some root ∧
          rootHash keccak root = some digest := by
  have hlt : ∀ i ∈ deriveOrder items.length, i < 2 ^ 64 := by
    intro i hi
    have := mem_deriveOrder.mp hi
    omega
  have hchain : List.IsChain Before (((deriveOrder items.length).map fun i =>
      (Rlp.appendUint64 [] i, items.getD i [])).map (·.1)) := by
    rw [List.map_map]
    refine List.Pairwise.isChain (List.pairwise_map.mpr ?_)
    exact (deriveOrder_pairwise items.length).imp_of_mem fun _ hj hij =>
      Rlp.appendUint64_before hij (hlt _ hj)
  obtain ⟨st, root, digest, hst, hroot, hdigest, hdigest'⟩ :=
    updates_rootHash hkeccak hchain (by
      intro p hp
      obtain ⟨i, hi, rfl⟩ := List.mem_map.mp hp
      exact hne _ (List.mem_of_getElem? (getElem?_eq_getD (mem_deriveOrder.mp hi))))
  refine ⟨digest, ?_, fun order hperm => ⟨root, ?_, hdigest'⟩⟩
  · rw [deriveSha_eq, hst]
    exact hdigest
  · rw [List.map_map] at hroot
    have hstored := stored_perm (Rlp.appendUint64 []) (fun i => items.getD i [])
      ((deriveOrder_perm items.length).trans hperm.symm)
      fun i hi j hj => appendUint64_inj (hlt i hi) (hlt j hj)
    obtain ⟨root', hroot', hstores'⟩ := stores_run
      ((deriveOrder items.length).map fun i => .update (Rlp.appendUint64 [] i) (items.getD i []))
    obtain ⟨root'', hroot'', hstores''⟩ := stores_run
      (order.map fun i => .update (Rlp.appendUint64 [] i) (items.getD i []))
    rw [hstored] at hstores'
    have hsame : some root' = some root := hroot'.symm.trans hroot
    rw [hroot'', hstores''.unique hstores', hsame]

/-- Two items, with a hash function that cuts its input. -/
theorem derive_sha_eq_root_sample :
    ∃ digest, deriveSha (fun b => (b ++ List.replicate 32 0).take 32) [[1], [2, 3]] = some digest ∧
      ∀ order : List ℕ, order.Perm [0, 1] → ∃ root,
        run (order.map fun i => .update (Rlp.appendUint64 [] i) ([[1], [2, 3]].getD i [])) =
            some root ∧
          rootHash (fun b => (b ++ List.replicate 32 0).take 32) root = some digest :=
  derive_sha_eq_root (by simp) (by decide) (by decide)

end Trie

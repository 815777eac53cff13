import NarwhalGeth.Clique.Engine

/-!
# Retrieval of snapshots

The engine goes back from a block until it meets a snapshot in memory, on disk or at the genesis
block, and applies the headers on the way. If the snapshots that it holds were computed from the
chain, the result is that of a replay from the genesis block.
-/

namespace Clique

variable {H : Type} [DecidableEq H] {number : ℕ} {hash : H}

open Snapshot (Numbered tip)

/-- Each header names the one before it as its parent. -/
def Linked (config : Config H) : H → List (Header H) → Prop
  | _, [] => True
  | hash, header :: headers => header.parentHash = hash ∧ Linked config (config.hash header) headers

/-- The snapshot at the genesis block. -/
def genesisSnapshot (config : Config H) (genesis : Header H) : Except Error (Snapshot H) :=
  (checkpointSigners genesis.extra).map (.newSnapshot 0 (config.hash genesis))

/-- The snapshot after some headers on the genesis block. -/
def replay (config : Config H) (genesis : Header H) (headers : List (Header H)) :
    Except Error (Snapshot H) :=
  (genesisSnapshot config genesis).bind fun snap => snap.apply config headers

/-- The headers of a chain on a genesis block, the last ones explicit and the others in the
database. -/
structure OnChain (config : Config H) (chain : ChainReader H) (genesis : Header H)
    (stored parents : List (Header H)) : Prop where
  numbered : Numbered 0 (stored ++ parents)
  linked : Linked config (config.hash genesis) (stored ++ parents)
  genesis : chain.getHeaderByNumber 0 = some genesis
  stored : ∀ header ∈ stored, chain.getHeader (config.hash header) header.number = some header

/-- The snapshots of the blocks of the chain that are held in memory or on disk were computed from
the chain. -/
def Held (config : Config H) (genesis : Header H) (headers : List (Header H)) (caches : Caches H) :
    Prop :=
  ∀ front, front <+: headers → ∀ snap,
    caches.recents.lookup (tip config (config.hash genesis) front) = some snap ∨
      caches.db.lookup (tip config (config.hash genesis) front) = some snap →
    replay config genesis front = .ok snap

/-- No signer list of a checkpoint block after the genesis is trusted: where it would be, a snapshot
is found at a block from there on. -/
def Untrusting (config : Config H) (chain : ChainReader H) (genesis : Header H)
    (headers tail : List (Header H)) (caches : Caches H) : Prop :=
  ∀ front, front <+: headers → front ≠ [] →
    (trustedCheckpoint config chain front.length
      ((headers ++ tail).length - front.length)).isSome →
    ∃ front', front <+: front' ∧ front' <+: headers ∧
      (caches.get front'.length (tip config (config.hash genesis) front')).isSome

section Retrieval

variable {config : Config H} {chain : ChainReader H} {genesis header : Header H}
  {stored parents headers tail : List (Header H)} {caches : Caches H}

section

omit [DecidableEq H]

theorem numbered_concat : Numbered number (headers ++ [header]) ↔
    Numbered number headers ∧ header.number = number + headers.length + 1 := by
  rw [Snapshot.numbered_append]
  exact and_congr_right fun _ => and_iff_left trivial

theorem linked_concat : Linked config hash (headers ++ [header]) ↔
    Linked config hash headers ∧ header.parentHash = tip config hash headers := by
  induction headers generalizing hash with
  | nil => simp [Linked, tip]
  | cons first headers ih =>
    have htip : tip config hash (first :: headers) = tip config (config.hash first) headers :=
      Snapshot.tip_append config hash [first] headers
    rw [List.cons_append, Linked, Linked, ih, htip, and_assoc]

theorem tip_concat (hash : H) : tip config hash (headers ++ [header]) = config.hash header := by
  simp [tip]

end

theorem Caches.lookup_of_get {snap : Snapshot H} {caches' : Caches H}
    (h : caches.get number hash = some (snap, caches')) :
    caches.recents.lookup hash = some snap ∨ caches.db.lookup hash = some snap := by
  unfold Caches.get at h
  cases hrecent : caches.recents.lookup hash with
  | some s =>
    rw [hrecent] at h
    cases h
    exact .inl rfl
  | none =>
    rw [hrecent] at h
    dsimp only at h
    split_ifs at h
    obtain ⟨s, hs, heq⟩ := Option.map_eq_some_iff.mp h
    cases heq
    exact .inr hs

theorem OnChain.nextHeader_eq (h : OnChain config chain genesis stored parents)
    (hne : stored ++ parents ≠ []) :
    ∃ header stored' parents', stored ++ parents = stored' ++ parents' ++ [header] ∧
      nextHeader config chain (stored ++ parents).length
        (tip config (config.hash genesis) (stored ++ parents)) parents =
        some (header, parents') ∧
      OnChain config chain genesis stored' parents' ∧
      header.parentHash = tip config (config.hash genesis) (stored' ++ parents') := by
  rcases List.eq_nil_or_concat parents with rfl | ⟨parents', header, rfl⟩
  · rw [List.append_nil] at hne ⊢
    obtain ⟨stored', header, rfl⟩ := (List.eq_nil_or_concat stored).resolve_left hne
    rw [List.concat_eq_append] at h ⊢
    obtain ⟨hnumbered, hnumber⟩ := numbered_concat.mp (by simpa using h.numbered)
    obtain ⟨hlinked, hparent⟩ := linked_concat.mp (by simpa using h.linked)
    refine ⟨header, stored', [], by simp, ?_, ⟨?_, ?_, h.genesis, fun x hx => ?_⟩, ?_⟩
    · have hread := h.stored header (List.mem_append_right _ (List.mem_singleton_self header))
      rw [hnumber, Nat.zero_add] at hread
      rw [tip_concat, List.length_append, List.length_singleton]
      exact congrArg (Option.map fun x => (x, [])) hread
    · simpa using hnumbered
    · simpa using hlinked
    · exact h.stored x (List.mem_append_left _ hx)
    · simpa using hparent
  · rw [List.concat_eq_append] at h ⊢
    rw [← List.append_assoc]
    obtain ⟨hnumbered, hnumber⟩ := numbered_concat.mp (List.append_assoc .. ▸ h.numbered)
    obtain ⟨hlinked, hparent⟩ := linked_concat.mp (List.append_assoc .. ▸ h.linked)
    refine ⟨header, stored, parents', rfl, ?_, ⟨hnumbered, hlinked, h.genesis, h.stored⟩, hparent⟩
    have hmatch : ¬ (config.hash header ≠ config.hash header ∨
        header.number ≠ (stored ++ parents').length + 1) := by
      rw [hnumber, Nat.zero_add]
      simp
    rw [tip_concat, List.length_append, List.length_singleton, nextHeader,
      List.getLast?_concat, List.dropLast_concat]
    exact if_neg hmatch

omit [DecidableEq H] in
theorem replay_append {headers' : List (Header H)} (h : Numbered 0 (headers ++ headers')) :
    replay config genesis (headers ++ headers') =
      (replay config genesis headers).bind fun snap => snap.apply config headers' := by
  unfold replay genesisSnapshot
  cases checkpointSigners genesis.extra with
  | error e => rfl
  | ok signers => exact Snapshot.apply_append_of_numbered h

/-- The walk back ends with the snapshot after some of the headers, and has gathered the others. -/
theorem gather_eq (h : OnChain config chain genesis stored parents)
    (hheld : Held config genesis (stored ++ parents) caches)
    (huntrusting : Untrusting config chain genesis (stored ++ parents) tail caches) :
    ∃ front back caches', stored ++ parents = front ++ back ∧
      gather config chain caches (stored ++ parents).length
        (tip config (config.hash genesis) (stored ++ parents)) parents tail.reverse =
        ((replay config genesis front).map fun snap => (snap, (back ++ tail).reverse),
          caches') := by
  induction hn : (stored ++ parents).length generalizing stored parents tail with
  | zero =>
    have hnil : stored ++ parents = [] := List.eq_nil_of_length_eq_zero hn
    unfold gather
    cases hget : caches.get 0 (tip config (config.hash genesis) (stored ++ parents)) with
    | some found =>
      obtain ⟨snap, caches'⟩ := found
      refine ⟨stored ++ parents, [], caches', (List.append_nil _).symm, ?_⟩
      rw [hheld _ (List.prefix_refl _) snap (Caches.lookup_of_get hget)]
      rfl
    | none =>
      have htrusted : trustedCheckpoint config chain 0 tail.reverse.length = some genesis :=
        (if_pos (.inl rfl)).trans h.genesis
      unfold replay genesisSnapshot
      rw [htrusted]
      dsimp only
      cases checkpointSigners genesis.extra with
      | error e => exact ⟨[], [], caches, hnil, rfl⟩
      | ok signers => exact ⟨[], [], _, hnil, rfl⟩
  | succ n ih =>
    have hne : stored ++ parents ≠ [] := List.ne_nil_of_length_eq_add_one hn
    unfold gather
    cases hget : caches.get (n + 1) (tip config (config.hash genesis) (stored ++ parents)) with
    | some found =>
      obtain ⟨snap, caches'⟩ := found
      refine ⟨stored ++ parents, [], caches', (List.append_nil _).symm, ?_⟩
      rw [hheld _ (List.prefix_refl _) snap (Caches.lookup_of_get hget)]
      rfl
    | none =>
      -- A longer snapshot cannot be found, so the signer list of this block is not trusted.
      have htrusted : trustedCheckpoint config chain (n + 1) tail.reverse.length = none := by
        by_contra htrusted
        obtain ⟨front, hlong, hshort, hfound⟩ := huntrusting (stored ++ parents)
          (List.prefix_refl _) hne (by
            rw [hn, List.length_append, hn, Nat.add_sub_cancel_left, ← List.length_reverse]
            exact Option.isSome_iff_ne_none.mpr htrusted)
        rw [hshort.eq_of_length_le hlong.length_le, hn, hget] at hfound
        cases hfound
      obtain ⟨header, stored', parents', hsplit, hnext, hchain, hparent⟩ := h.nextHeader_eq hne
      rw [hn] at hnext
      have hprefix : stored' ++ parents' <+: stored ++ parents := ⟨[header], hsplit.symm⟩
      have hlength : (stored' ++ parents').length = n := by
        have := congrArg List.length hsplit
        rw [hn, List.length_append, List.length_singleton] at this
        omega
      have hheld' : Held config genesis (stored' ++ parents') caches := fun front hfront =>
        hheld front (hfront.trans hprefix)
      have huntrusting' : Untrusting config chain genesis (stored' ++ parents') (header :: tail)
          caches := by
        intro front hfront hfrontne htrust
        have htotal : stored' ++ parents' ++ header :: tail = stored ++ parents ++ tail := by
          rw [hsplit]
          exact List.append_cons _ _ _
        rw [htotal] at htrust
        obtain ⟨front', hle, hprefix', hfound⟩ :=
          huntrusting front (hfront.trans hprefix) hfrontne htrust
        refine ⟨front', hle, ?_, hfound⟩
        -- The whole chain is not cached, so the snapshot is at an earlier block.
        rcases List.prefix_concat_iff.mp (hsplit ▸ hprefix') with heq | hshort
        · rw [heq, ← hsplit, hn, hget] at hfound
          cases hfound
        · exact hshort
      obtain ⟨front, back, caches', hfront, hgather⟩ := ih hchain hheld' huntrusting' hlength
      refine ⟨front, back ++ [header], caches', ?_, ?_⟩
      · rw [hsplit, hfront, List.append_assoc]
      · rw [htrusted, hnext]
        rw [List.reverse_cons, ← hparent] at hgather
        rw [List.append_assoc, List.singleton_append]
        exact hgather

/-- Whatever snapshots of the chain are held, the one that is retrieved is that of a replay. -/
theorem snapshot_eq (h : OnChain config chain genesis stored parents)
    (hheld : Held config genesis (stored ++ parents) caches)
    (huntrusting : Untrusting config chain genesis (stored ++ parents) [] caches) :
    (snapshot config chain caches (stored ++ parents).length
      (tip config (config.hash genesis) (stored ++ parents)) parents).1 =
      replay config genesis (stored ++ parents) := by
  obtain ⟨front, back, caches', hsplit, hgather⟩ := gather_eq h hheld huntrusting
  have hback : replay config genesis (stored ++ parents) =
      (replay config genesis front).bind fun snap => snap.apply config back := by
    rw [hsplit]
    exact replay_append (hsplit ▸ h.numbered)
  rw [hback]
  unfold snapshot
  rw [List.reverse_nil] at hgather
  rw [hgather, List.append_nil]
  cases replay config genesis front with
  | error e => rfl
  | ok snap =>
    dsimp only [Except.map, Except.bind]
    rw [List.reverse_reverse]
    cases snap.apply config back with
    | error e => rfl
    | ok snap' =>
      dsimp only
      split_ifs <;> rfl

end Retrieval

/-- Two lists of headers give the same snapshot together or one after the other, or fail. Whatever
snapshots of a chain are in memory and on disk, the engine retrieves that of a replay from the
genesis block. -/
theorem snapshots_agree (config : Config H) :
    (∀ (snap snap' : Snapshot H) (headers headers' : List (Header H)),
      snap.apply config (headers ++ headers') = .ok snap' ↔
        ∃ middle, snap.apply config headers = .ok middle ∧
          middle.apply config headers' = .ok snap') ∧
      ∀ (chain : ChainReader H) (genesis : Header H) (stored parents : List (Header H))
        (caches : Caches H), OnChain config chain genesis stored parents →
        Held config genesis (stored ++ parents) caches →
        Untrusting config chain genesis (stored ++ parents) [] caches →
        (snapshot config chain caches (stored ++ parents).length
          (tip config (config.hash genesis) (stored ++ parents)) parents).1 =
          replay config genesis (stored ++ parents) := by
  refine ⟨fun snap snap' headers headers' => ?_,
    fun chain genesis stored parents caches => snapshot_eq⟩
  have happend : (snap.apply config (headers ++ headers')).toOption =
      ((snap.apply config headers).bind fun middle => middle.apply config headers').toOption :=
    Snapshot.toOption_apply_append
  constructor
  · intro h
    rw [h] at happend
    exact Except.eq_ok_of_bind (Except.eq_ok_of_toOption happend.symm)
  · rintro ⟨middle, hmiddle, hrest⟩
    rw [hmiddle] at happend
    exact Except.eq_ok_of_toOption (happend.trans (congrArg Except.toOption hrest))

namespace Sample

/-- Hashes are numbers, and a signature begins with its signer. Votes are counted for four blocks.
-/
def config : Config ℕ where
  period := 1
  epoch := 4
  epoch_pos := Nat.succ_pos 3
  hash header := 100 + header.number
  sigHash header := header.number
  recover _ signature := signature.head?.map fun byte => Fin.ofNat (256 ^ 20) byte.toNat
  uncleHash := 7
  zeroHash := 0

def genesis (signers : List Address) : Header ℕ where
  parentHash := 0
  uncleHash := 7
  coinbase := 0
  root := 0
  txHash := 0
  receiptHash := 0
  bloom := []
  difficulty := 1
  number := 0
  gasLimit := 8000000
  gasUsed := 0
  time := 0
  extra := List.replicate 32 0 ++ signers.flatMap Address.bytes ++ List.replicate 65 0
  mixDigest := 0
  nonce := 0
  baseFee := none

/-- The block of a signer with its vote. -/
def block (number : ℕ) (signer coinbase : Address) (nonce : UInt64) (difficulty : ℕ) : Header ℕ :=
  { genesis [] with
    parentHash := 99 + number
    number
    time := number
    coinbase
    nonce
    difficulty
    extra := List.replicate 32 0 ++ UInt8.ofNat signer :: List.replicate 64 0 }

/-- Three signers take their turns, and the first two propose a fourth one. -/
def blocks : List (Header ℕ) :=
  [block 1 2 4 nonceAuthVote 2, block 2 3 4 nonceAuthVote 2, block 3 1 0 nonceDropVote 2]

def chain (genesis : Header ℕ) (stored : List (Header ℕ)) : ChainReader ℕ where
  config := ⟨none, none, none⟩
  getHeader hash number :=
    (genesis :: stored).find? fun header => config.hash header = hash ∧ header.number = number
  getHeaderByNumber number := (genesis :: stored).find? fun header => header.number = number

/-- The snapshot after the first block is in memory. -/
def caches : Caches ℕ where
  db := ∅
  recents := (replay config (genesis [1, 2, 3]) (blocks.take 1)).toOption.elim ∅
    fun snap => AList.singleton 101 snap

end Sample

/-- The snapshot after three blocks, the last of which is given explicitly, is completed from the
one after the first block. -/
theorem snapshots_agree_sample :
    let genesis := Sample.genesis [1, 2, 3]
    let result := (snapshot Sample.config (Sample.chain genesis (Sample.blocks.take 2))
      Sample.caches 3 103 (Sample.blocks.drop 2)).1
    result = replay Sample.config genesis Sample.blocks ∧
      (result.toOption.map fun snap => (snap.number, snap.signers)) = some (3, {1, 2, 3, 4}) := by
  intro genesis result
  have hread : ∀ header ∈ Sample.blocks.take 2,
      (Sample.chain genesis (Sample.blocks.take 2)).getHeader (Sample.config.hash header)
        header.number = some header := by
    decide +kernel
  have hheld : ∀ front ∈ Sample.blocks.inits, ∀ snap ∈
      Sample.caches.recents.lookup (tip Sample.config (Sample.config.hash genesis) front),
      replay Sample.config genesis front = .ok snap := by
    decide +kernel
  have huntrusted : ∀ front ∈ Sample.blocks.inits, front ≠ [] →
      (trustedCheckpoint Sample.config (Sample.chain genesis (Sample.blocks.take 2)) front.length
        (Sample.blocks.length - front.length)).isSome = false := by
    decide +kernel
  refine ⟨(snapshots_agree Sample.config).2 (Sample.chain genesis (Sample.blocks.take 2)) genesis
    (Sample.blocks.take 2) (Sample.blocks.drop 2) Sample.caches
    ⟨by decide +kernel, ⟨rfl, rfl, rfl, trivial⟩, rfl, hread⟩ ?_ ?_, by decide +kernel⟩
  · rintro front hfront snap (hrecent | hdisk)
    · exact hheld front ((List.mem_inits _ _).mpr hfront) snap hrecent
    · cases hdisk
  · intro front hfront hne htrust
    have hfalse := huntrusted front ((List.mem_inits _ _).mpr hfront) hne
    exact absurd htrust (Bool.eq_false_iff.mp hfalse)

end Clique

import NarwhalGeth.Trie.Trie

/-!
# The trie is a canonical map

Every node below the root is a leaf, an extension of a full node or a full node with at least two
children. Insertions and deletions keep this form and change what is stored at one key. Since a
proper radix tree is determined by what it stores, the nodes depend on the final map only.
-/

namespace Trie

open RadixTree

variable {k key path rest rest' : List Nibble} {a b pos : Nibble} {m : Bytes → Option Bytes}
  {children : Nibble → Node} {root nn x y root' : Node}

/-! ## Canonical nodes -/

/-- The nodes that store keys with a terminator: leaves, extensions of full nodes, and full nodes
with two children or more. -/
inductive Canon : Node → Prop
  | leaf {key : List Nibble} {v : Bytes} (hex : Hex key) : Canon (short key (value v))
  | extension {key : List Nibble} {children : Nibble → Node} (nonempty : key ≠ [])
      (open_ : 16 ∉ key) (child : Canon (full children)) : Canon (short key (full children))
  | branch {children : Nibble → Node}
      (ended : children 16 = nil ∨ ∃ v, children 16 = value v)
      (child : ∀ i, i ≠ 16 → children i ≠ nil → Canon (children i))
      (two : ∃ i j, i ≠ j ∧ children i ≠ nil ∧ children j ≠ nil) : Canon (full children)

/-- What a full node may have under a letter. -/
def Child (i : Nibble) (n : Node) : Prop :=
  n ≠ nil → if i = 16 then ∃ v, n = value v else Canon n

theorem canon_full_iff : Canon (full children) ↔
    (∀ i, Child i (children i)) ∧ ∃ i j, i ≠ j ∧ children i ≠ nil ∧ children j ≠ nil := by
  constructor
  · rintro (_ | _ | ⟨hended, hchild, htwo⟩)
    refine ⟨fun i hi => ?_, htwo⟩
    split_ifs with h16
    · subst h16
      exact hended.resolve_left hi
    · exact hchild i h16 hi
  · rintro ⟨hchild, htwo⟩
    refine .branch ?_ (fun i hne hi => ?_) htwo
    · by_cases hnil : children 16 = nil
      · exact .inl hnil
      · have hvalue := hchild 16 hnil
        rw [if_pos rfl] at hvalue
        exact .inr hvalue
    · have hcanon := hchild i hi
      rwa [if_neg hne] at hcanon

theorem Canon.proper {n : Node} (h : Canon n) : n.Proper := by
  induction h with
  | leaf hex => exact ⟨hex.ne_nil, rfl, trivial⟩
  | extension nonempty _ _ ih => exact ⟨nonempty, rfl, ih⟩
  | branch ended _ two ih =>
    refine ⟨two, fun i hi => ?_⟩
    by_cases h16 : i = 16
    · subst h16
      obtain ⟨v, hv⟩ := ended.resolve_left hi
      rw [hv]
      trivial
    · exact ih i h16 hi

/-! ## Reading -/

variable {n n' : Node} {v w : Bytes} {word : List Nibble}

theorem get_short (k : List Nibble) (n : Node) (key : List Nibble) : get (short k n) key =
    if k <+: key then get n (key.drop k.length) else some none := by
  have hiff : (key.length < k.length ∨ key.take k.length ≠ k) ↔ ¬ k <+: key := by
    rw [List.prefix_iff_eq_take]
    constructor
    · rintro (hlt | hne) heq
      · have hlen := congrArg List.length heq
        rw [List.length_take] at hlen
        omega
      · exact hne heq.symm
    · exact fun h => .inr (Ne.symm h)
  cases key with
  | nil => exact (ite_congr (propext hiff) (fun _ => rfl) fun _ => rfl).trans (ite_not _ _ _)
  | cons a key => exact (ite_congr (propext hiff) (fun _ => rfl) fun _ => rfl).trans (ite_not _ _ _)

theorem Canon.get (h : Canon n) (hkey : Hex key) : get n key = some (n.lookup key) := by
  induction h generalizing key with
  | @leaf k v hex =>
    rw [get_short, lookup_short]
    split_ifs with hstart
    · obtain ⟨rest, rfl⟩ := hstart
      rw [hex.eq_of_append hkey, List.append_nil, List.drop_length]
      rfl
    · rfl
  | @extension k children _ hopen _ ih =>
    rw [get_short, lookup_short]
    split_ifs with hstart
    · obtain ⟨rest, rfl⟩ := hstart
      rw [List.drop_left]
      exact ih ((hex_append_iff hopen).mp hkey)
    · rfl
  | @branch children ended _ _ ih =>
    obtain ⟨a, rest, rfl⟩ := List.exists_cons_of_ne_nil hkey.ne_nil
    rw [lookup_full_cons, Trie.get]
    rcases hex_cons_iff.mp hkey with ⟨rfl, rfl⟩ | ⟨ha, hrest⟩
    · rcases ended with hnil | ⟨v, hv⟩
      · rw [hnil]
        rfl
      · rw [hv]
        rfl
    · by_cases hnil : children a = nil
      · rw [hnil, lookup_nil]
        rfl
      · exact ih a ha hnil hrest

/-! ## Insertion -/

theorem lookup_insertNew (key : List Nibble) (n : Node) :
    (insertNew key n).lookup = (short key n).lookup := by
  unfold insertNew
  split_ifs with hkey
  · subst hkey
    funext word
    exact (lookup_short_append [] n word).symm
  · rfl

theorem insertNew_ne_nil (hn : n ≠ nil) : insertNew key n ≠ nil := by
  unfold insertNew
  split_ifs
  · exact hn
  · exact fun h => by cases h

theorem child_insertNew_value (h : Hex (a :: rest)) : Child a (insertNew rest (value v)) := by
  intro _
  unfold insertNew
  rcases hex_cons_iff.mp h with ⟨rfl, rfl⟩ | ⟨ha, hrest⟩
  · rw [if_pos rfl, if_pos rfl]
    exact ⟨v, rfl⟩
  · rw [if_neg ha, if_neg hrest.ne_nil]
    exact .leaf hrest

theorem canon_insertNew_full (h : 16 ∉ key) (hfull : Canon (full children)) :
    Canon (insertNew key (full children)) := by
  unfold insertNew
  split_ifs with hkey
  · exact hfull
  · exact .extension hkey h hfull

theorem child_insertNew_full (h : 16 ∉ a :: rest) (hfull : Canon (full children)) :
    Child a (insertNew rest (full children)) := by
  intro _
  rw [List.mem_cons, not_or] at h
  rw [if_neg (Ne.symm h.1)]
  exact canon_insertNew_full h.2 hfull

/-- A full node with two children. -/
def fork (a : Nibble) (x : Node) (b : Nibble) (y : Node) : Node :=
  full (Function.update (Function.update (fun _ => nil) a x) b y)

theorem canon_fork (hab : a ≠ b) (hx : x ≠ nil) (hy : y ≠ nil) (hxc : Child a x) (hyc : Child b y) :
    Canon (fork a x b y) := by
  refine canon_full_iff.mpr ⟨fun i => ?_, a, b, hab, ?_, ?_⟩
  · by_cases hib : i = b
    · rw [hib, Function.update_self]
      exact hyc
    · rw [Function.update_of_ne hib]
      by_cases hia : i = a
      · rw [hia, Function.update_self]
        exact hxc
      · rw [Function.update_of_ne hia]
        exact fun h => absurd rfl h
  · rw [Function.update_of_ne hab, Function.update_self]
    exact hx
  · rw [Function.update_self]
    exact hy

theorem lookup_fork (hab : a ≠ b) : (fork a x b y).lookup word = some v ↔
    (∃ rest, word = a :: rest ∧ x.lookup rest = some v) ∨
      ∃ rest, word = b :: rest ∧ y.lookup rest = some v := by
  unfold fork
  rw [lookup_full_eq_some]
  constructor
  · rintro ⟨c, rest, rfl, h⟩
    by_cases hcb : c = b
    · rw [hcb, Function.update_self] at h
      exact .inr ⟨rest, by rw [hcb], h⟩
    · rw [Function.update_of_ne hcb] at h
      by_cases hca : c = a
      · rw [hca, Function.update_self] at h
        exact .inl ⟨rest, by rw [hca], h⟩
      · rw [Function.update_of_ne hca, lookup_nil] at h
        cases h
  · rintro (⟨rest, rfl, h⟩ | ⟨rest, rfl, h⟩)
    · exact ⟨a, rest, rfl, by rwa [Function.update_of_ne hab, Function.update_self]⟩
    · exact ⟨b, rest, rfl, by rwa [Function.update_self]⟩

theorem lookup_leaf (k : List Nibble) (v : Bytes) (word : List Nibble) :
    (short k (value v) : Node).lookup word = if word = k then some v else none := by
  refine Option.ext fun u => ?_
  rw [lookup_short_eq_some]
  constructor
  · rintro ⟨rest, rfl, hrest⟩
    obtain ⟨rfl, rfl⟩ := lookup_value_eq_some.mp hrest
    rw [List.append_nil, if_pos rfl]
  · intro h
    split_ifs at h with hword
    exact ⟨[], by rw [hword, List.append_nil], h⟩

/-- What an insertion answers: the new node stores the value as well, and full nodes stay full. -/
structure Inserted (n : Node) (key : List Nibble) (w : Bytes) (n' : Node) : Prop where
  canon : Canon n'
  lookup : ∀ word, n'.lookup word = if word = key then some w else n.lookup word
  isFull : (∃ children, n = full children) → ∃ children, n' = full children

theorem inserted_split {path rest : List Nibble} (hab : a ≠ b) (hkey : Hex (path ++ b :: rest'))
    (hn : n ≠ nil) (hchild : Child a (insertNew rest n)) :
    Inserted (short (path ++ a :: rest) n) (path ++ b :: rest') w
      (insertNew path (fork a (insertNew rest n) b (insertNew rest' (value w)))) := by
  have hpath := hkey.start_not_mem
  have hfork := canon_fork hab (insertNew_ne_nil hn) (insertNew_ne_nil (fun h => by cases h))
    hchild (child_insertNew_value (v := w) ((hex_append_iff hpath).mp hkey))
  refine ⟨canon_insertNew_full hpath hfork, fun word => ?_, fun ⟨_, h⟩ => by cases h⟩
  · rw [lookup_insertNew]
    refine Option.ext fun v => ?_
    rw [lookup_short_eq_some]
    constructor
    · rintro ⟨_, rfl, hfound⟩
      rcases (lookup_fork hab).mp hfound with ⟨tail, rfl, htail⟩ | ⟨tail, rfl, htail⟩
      · rw [lookup_insertNew] at htail
        have hne : ¬ path ++ a :: tail = path ++ b :: rest' := by
          intro heq
          exact hab (List.cons.inj (List.append_cancel_left heq)).1
        rw [if_neg hne, lookup_short_eq_some]
        obtain ⟨last, rfl, hlast⟩ := lookup_short_eq_some.mp htail
        exact ⟨last, by simp, hlast⟩
      · rw [lookup_insertNew] at htail
        obtain ⟨last, rfl, hlast⟩ := lookup_short_eq_some.mp htail
        obtain ⟨rfl, rfl⟩ := lookup_value_eq_some.mp hlast
        rw [List.append_nil, if_pos rfl]
    · intro h
      split_ifs at h with heq
      · obtain rfl := Option.some.inj h
        refine ⟨b :: rest', heq, (lookup_fork hab).mpr (.inr ⟨rest', rfl, ?_⟩)⟩
        rw [lookup_insertNew, lookup_short_eq_some]
        exact ⟨[], (List.append_nil _).symm, rfl⟩
      · obtain ⟨tail, rfl, htail⟩ := lookup_short_eq_some.mp h
        refine ⟨a :: (rest ++ tail), by simp, (lookup_fork hab).mpr (.inl ⟨_, rfl, ?_⟩)⟩
        rw [lookup_insertNew, lookup_short_append]
        exact htail

theorem insert_short_append (hrest : rest ≠ [] ∨ k ≠ []) : insert (short k n) (k ++ rest) w =
    (insert n rest w).map fun r => if r.1 then (true, short k r.2) else (false, short k n) := by
  have hlen := prefixLen_append k rest
  obtain ⟨x, key, hcons⟩ : ∃ x key, k ++ rest = x :: key := by
    refine List.exists_cons_of_ne_nil fun hnil => ?_
    obtain ⟨hk, hrest'⟩ := List.append_eq_nil_iff.mp hnil
    exact hrest.elim (fun h => h hrest') fun h => h hk
  have hdrop : (x :: key).drop k.length = rest := by rw [← hcons, List.drop_left]
  rw [hcons] at hlen ⊢
  rw [insert, if_pos hlen, hlen, hdrop]
  cases insert n rest w with
  | none => rfl
  | some r =>
    obtain ⟨dirty, nn⟩ := r
    cases dirty <;> rfl

theorem insert_short_fork {path rest : List Nibble} (hab : a ≠ b) :
    insert (short (path ++ a :: rest) n) (path ++ b :: rest') w =
      some (true, insertNew path (fork a (insertNew rest n) b (insertNew rest' (value w)))) := by
  have hlen := prefixLen_fork path rest rest' hab
  have hne : path.length ≠ (path ++ a :: rest).length := by simp
  obtain ⟨x, key, hcons⟩ : ∃ x key, path ++ b :: rest' = x :: key :=
    List.exists_cons_of_ne_nil (by simp)
  have hb : (x :: key)[path.length]? = some b := by rw [← hcons]; simp
  have hdrop : (x :: key).drop (path.length + 1) = rest' := by
    rw [← hcons]
    simp
  have htake : (x :: key).take path.length = path := by rw [← hcons, List.take_left]
  have ha : (path ++ a :: rest)[path.length]? = some a := by simp
  have hdrop' : (path ++ a :: rest).drop (path.length + 1) = rest := by simp
  rw [hcons] at hlen ⊢
  rw [insert, hlen, if_neg hne, ha, hb]
  simp only [Option.bind_eq_bind, Option.bind_some, hdrop, hdrop', htake, insertNew]
  by_cases hpath : path = []
  · simp [hpath, fork]
  · simp [hpath, fork]

theorem Child.update (h : Child a nn) (hchildren : ∀ i, Child i (children i)) (i : Nibble) :
    Child i (Function.update children a nn i) := by
  by_cases hia : i = a
  · rw [hia, Function.update_self]
    exact h
  · rw [Function.update_of_ne hia]
    exact hchildren i

theorem inserted_full (h : Canon (full children)) (hnn : nn ≠ nil) (hchild : Child a nn)
    (hlookup : ∀ word, nn.lookup word = if word = rest then some w else (children a).lookup word) :
    Inserted (full children) (a :: rest) w (full (Function.update children a nn)) := by
  obtain ⟨hchildren, i, j, hij, hi, hj⟩ := canon_full_iff.mp h
  have hne (i : Nibble) (hi : children i ≠ nil) : Function.update children a nn i ≠ nil := by
    by_cases hia : i = a
    · rw [hia, Function.update_self]
      exact hnn
    · rwa [Function.update_of_ne hia]
  exact ⟨canon_full_iff.mpr ⟨hchild.update hchildren, i, j, hij, hne i hi, hne j hj⟩,
    lookup_full_change hlookup, fun _ => ⟨_, rfl⟩⟩

theorem inserted_short (hk : k ≠ []) (hopen : 16 ∉ k) (h : Inserted (full children) rest w nn) :
    Inserted (short k (full children)) (k ++ rest) w (short k nn) := by
  obtain ⟨children', rfl⟩ := h.isFull ⟨children, rfl⟩
  exact ⟨.extension hk hopen h.canon, lookup_short_change h.lookup, fun ⟨_, h⟩ => by cases h⟩

theorem inserted_leaf (hk : Hex k) : Inserted (short k (value v)) k w (short k (value w)) := by
  refine ⟨.leaf hk, fun word => ?_, fun ⟨_, h⟩ => by cases h⟩
  rw [lookup_leaf, lookup_leaf]
  split_ifs <;> rfl

theorem insert_full (children : Nibble → Node) (a : Nibble) (key : List Nibble) (w : Bytes) :
    insert (full children) (a :: key) w = (insert (children a) key w).map fun r =>
      if r.1 then (true, full (Function.update children a r.2)) else (false, full children) := by
  rw [insert]
  cases insert (children a) key w with
  | none => rfl
  | some r =>
    obtain ⟨dirty, nn⟩ := r
    cases dirty <;> rfl

/-- An insertion stores the value and keeps the node canonical. A node that is reported as
unchanged is unchanged. -/
theorem Canon.insert (h : Canon n) (hkey : Hex key) (w : Bytes) :
    ∃ dirty n', insert n key w = some (dirty, n') ∧ Inserted n key w n' ∧
      (dirty = false → n' = n) := by
  induction h generalizing key with
  | @leaf k v hk =>
    by_cases hstart : k <+: key
    · obtain ⟨rest, rfl⟩ := hstart
      obtain rfl := hk.eq_of_append hkey
      rw [insert_short_append (.inr hk.ne_nil), List.append_nil]
      by_cases hvw : v = w
      · subst hvw
        exact ⟨false, _, by simp [Trie.insert], inserted_leaf hk, fun _ => rfl⟩
      · refine ⟨true, _, ?_, inserted_leaf hk, fun h => by cases h⟩
        simp [Trie.insert, hvw]
    · have hstart' : ¬ key <+: k := by
        rintro ⟨rest, rfl⟩
        rw [hkey.eq_of_append hk, List.append_nil] at hstart
        exact hstart (List.prefix_refl _)
      obtain ⟨path, a, b, rest, rest', hab, rfl, rfl⟩ := exists_fork hstart hstart'
      refine ⟨true, _, insert_short_fork hab, ?_, fun h => by cases h⟩
      refine inserted_split hab hkey (fun h => by cases h) (child_insertNew_value ?_)
      exact (hex_append_iff hk.start_not_mem).mp hk
  | @extension k children hk hopen hfull ih =>
    by_cases hstart : k <+: key
    · obtain ⟨rest, rfl⟩ := hstart
      obtain ⟨dirty, nn, hinsert, hinserted, hsame⟩ := ih ((hex_append_iff hopen).mp hkey)
      have hresult := inserted_short hk hopen hinserted
      rw [insert_short_append (.inr hk), hinsert]
      cases dirty with
      | true => exact ⟨true, _, rfl, hresult, fun h => by cases h⟩
      | false =>
        obtain rfl := hsame rfl
        exact ⟨false, _, rfl, hresult, fun _ => rfl⟩
    · have hstart' : ¬ key <+: k := fun h => hopen (h.subset hkey.terminator_mem)
      obtain ⟨path, a, b, rest, rest', hab, rfl, rfl⟩ := exists_fork hstart hstart'
      refine ⟨true, _, insert_short_fork hab, ?_, fun h => by cases h⟩
      refine inserted_split hab hkey (fun h => by cases h) (child_insertNew_full ?_ hfull)
      exact fun h => hopen (List.mem_append_right _ h)
  | @branch children ended child two ih =>
    have hcanon : Canon (full children) := .branch ended child two
    obtain ⟨a, rest, rfl⟩ := List.exists_cons_of_ne_nil hkey.ne_nil
    rw [insert_full]
    by_cases hnil : children a = nil
    · rw [hnil]
      refine ⟨true, _, rfl, inserted_full hcanon (insertNew_ne_nil fun h => by cases h)
        (child_insertNew_value hkey) fun word => ?_, fun h => by cases h⟩
      rw [lookup_insertNew, lookup_leaf, hnil, lookup_nil]
    · rcases hex_cons_iff.mp hkey with ⟨rfl, rfl⟩ | ⟨ha, hrest⟩
      · obtain ⟨v, hv⟩ := ended.resolve_left hnil
        have hresult : Inserted (full children) [16] w
            (full (Function.update children 16 (value w))) := by
          refine inserted_full hcanon (fun h => by cases h) (fun _ => ⟨w, rfl⟩) fun word => ?_
          rw [hv]
          cases word <;> rfl
        rw [hv]
        by_cases hvw : v = w
        · subst hvw
          rw [← hv, Function.update_eq_self] at hresult
          exact ⟨false, _, by simp [Trie.insert], hresult, fun _ => rfl⟩
        · refine ⟨true, _, ?_, hresult, fun h => by cases h⟩
          simp [Trie.insert, hvw]
      · obtain ⟨dirty, nn, hinsert, hinserted, hsame⟩ := ih a ha hnil hrest
        have hresult := inserted_full hcanon hinserted.canon.proper.ne_nil
          (fun _ => by rw [if_neg ha]; exact hinserted.canon) hinserted.lookup
        rw [hinsert]
        cases dirty with
        | true => exact ⟨true, _, rfl, hresult, fun h => by cases h⟩
        | false =>
          obtain rfl := hsame rfl
          rw [Function.update_eq_self] at hresult
          exact ⟨false, _, rfl, hresult, fun _ => rfl⟩

/-! ## Deletion -/

/-- What a deletion answers: the new node stores all but the key. -/
structure Deleted (n : Node) (key : List Nibble) (n' : Node) : Prop where
  canon : n' = nil ∨ Canon n'
  lookup : ∀ word, n'.lookup word = if word = key then none else n.lookup word

theorem Deleted.absent (h : Canon n) (hkey : n.lookup key = none) : Deleted n key n := by
  refine ⟨.inr h, fun word => ?_⟩
  split_ifs with hword
  · rw [hword, hkey]
  · rfl

theorem lookup_merge (k : List Nibble) (n : Node) : (merge k n).lookup = (short k n).lookup := by
  cases n with
  | short k' n => exact (lookup_short_short k k' n).symm
  | nil | value v | full children => rfl

theorem Canon.merge (h : Canon n) (hk : k ≠ []) (hopen : 16 ∉ k) : Canon (merge k n) := by
  have hne (k' : List Nibble) : k ++ k' ≠ [] := fun h => hk (List.append_eq_nil_iff.mp h).1
  cases h with
  | leaf hex => exact .leaf ((hex_append_iff hopen).mpr hex)
  | extension _ hopen' hfull =>
    exact .extension (hne _) (fun h => (List.mem_append.mp h).elim hopen hopen') hfull
  | branch ended child two => exact .extension hk hopen (.branch ended child two)

theorem collapse_eq_merge (hpos : pos ≠ 16) : collapse pos n = merge [pos] n := by
  cases n with
  | short k n => exact if_pos hpos
  | nil | value v | full children => rfl

theorem lookup_full_single (h : ∀ i, i ≠ pos → children i = nil) :
    (short [pos] (children pos)).lookup = (full children).lookup := by
  funext word
  cases word with
  | nil => rfl
  | cons c word =>
    by_cases hc : c = pos
    · subst hc
      exact lookup_short_append [c] _ word
    · rw [lookup_full_cons, h c hc, lookup_nil, lookup_short, if_neg]
      rintro ⟨tail, htail⟩
      exact hc (List.cons.inj htail).1.symm

/-- The reduction of what is left of a full node. -/
theorem reduce_spec (hchild : ∀ i, Child i (children i)) (hsome : ∃ i, children i ≠ nil) :
    Canon (reduce children) ∧ (reduce children).lookup = (full children).lookup := by
  have hmem (i : Nibble) : i ∈ (List.finRange 17).filter (fun i => !(children i).isNil) ↔
      children i ≠ nil := by
    rw [List.mem_filter, Bool.not_eq_true', Bool.eq_false_iff, Ne, isNil_iff]
    exact and_iff_right (List.mem_finRange i)
  have hnodup : ((List.finRange 17).filter (fun i => !(children i).isNil)).Nodup :=
    (List.nodup_finRange 17).filter _
  unfold reduce
  generalize (List.finRange 17).filter (fun i => !(children i).isNil) = left at hmem hnodup
  match left with
  | [] =>
    obtain ⟨i, hi⟩ := hsome
    exact absurd ((hmem i).mpr hi) List.not_mem_nil
  | [pos] =>
    have hpos := (hmem pos).mp List.mem_cons_self
    have hother (i : Nibble) (hi : i ≠ pos) : children i = nil := by
      by_contra hne
      exact hi (List.mem_singleton.mp ((hmem i).mpr hne))
    rw [← lookup_full_single hother]
    have hcanon := hchild pos hpos
    split_ifs at hcanon with h16
    · obtain ⟨v, hv⟩ := hcanon
      dsimp only
      rw [hv, h16]
      exact ⟨.leaf ⟨[], rfl, List.not_mem_nil⟩, rfl⟩
    · dsimp only
      rw [collapse_eq_merge h16, lookup_merge]
      exact ⟨hcanon.merge (by simp) (by simpa using Ne.symm h16), rfl⟩
  | i :: j :: rest =>
    refine ⟨canon_full_iff.mpr ⟨hchild, i, j, ?_, (hmem i).mp (by simp), (hmem j).mp (by simp)⟩,
      rfl⟩
    rintro rfl
    simp at hnodup

theorem delete_full (children : Nibble → Node) (a : Nibble) (key : List Nibble) :
    delete (full children) (a :: key) = (delete (children a) key).map fun r =>
      if r.1 then (true, if r.2.isNil then reduce (Function.update children a r.2)
        else full (Function.update children a r.2))
      else (false, full children) := by
  rw [delete]
  cases delete (children a) key with
  | none => rfl
  | some r =>
    obtain ⟨dirty, nn⟩ := r
    cases dirty with
    | false => rfl
    | true => cases hnil : nn.isNil <;> simp [hnil]

theorem deleted_full (h : Canon (full children)) (hchild : Child a nn)
    (hlookup : ∀ word, nn.lookup word = if word = rest then none else (children a).lookup word) :
    Canon (if nn.isNil then reduce (Function.update children a nn)
      else full (Function.update children a nn)) ∧
    Deleted (full children) (a :: rest) (if nn.isNil then reduce (Function.update children a nn)
      else full (Function.update children a nn)) := by
  obtain ⟨hchildren, i, j, hij, hi, hj⟩ := canon_full_iff.mp h
  have hchildren' := hchild.update hchildren
  have hlookup' (word : List Nibble) : (full (Function.update children a nn)).lookup word =
      if word = a :: rest then none else (full children).lookup word :=
    lookup_full_change hlookup word
  have hkept {i : Nibble} (hia : i ≠ a) (hi : children i ≠ nil) :
      Function.update children a nn i ≠ nil := by
    rwa [Function.update_of_ne hia]
  split_ifs with hnil
  · -- One of the two children is not the one that is gone.
    have hsome : ∃ i, Function.update children a nn i ≠ nil := by
      by_cases hia : i = a
      · exact ⟨j, hkept (fun hja => hij (hia.trans hja.symm)) hj⟩
      · exact ⟨i, hkept hia hi⟩
    obtain ⟨hcanon, hreduce⟩ := reduce_spec hchildren' hsome
    exact ⟨hcanon, .inr hcanon, fun word => by rw [hreduce, hlookup']⟩
  · have hnn : nn ≠ nil := fun h => hnil (isNil_iff.mpr h)
    have hne (i : Nibble) (hi : children i ≠ nil) : Function.update children a nn i ≠ nil := by
      by_cases hia : i = a
      · rwa [hia, Function.update_self]
      · exact hkept hia hi
    have hcanon := canon_full_iff.mpr ⟨hchildren', i, j, hij, hne i hi, hne j hj⟩
    exact ⟨hcanon, .inr hcanon, hlookup'⟩

theorem delete_short_append (hrest : rest ≠ []) : delete (short k n) (k ++ rest) =
    (delete n rest).map fun r => if r.1 then (true, merge k r.2) else (false, short k n) := by
  have hlen := prefixLen_append k rest
  have hne : k.length ≠ (k ++ rest).length := by
    rw [List.length_append]
    have := List.length_pos_iff.mpr hrest
    omega
  rw [delete, hlen]
  simp only [Nat.lt_irrefl, if_false, hne, List.drop_left]
  cases delete n rest with
  | none => rfl
  | some r =>
    obtain ⟨dirty, child⟩ := r
    cases dirty <;> rfl

theorem delete_short_of_not_start (h : ¬ k <+: key) :
    delete (short k n) key = some (false, short k n) := by
  rw [delete]
  exact if_pos (prefixLen_lt h)

/-- A deletion removes the key and keeps the node canonical. A node that is reported as unchanged
is unchanged, and a full node leaves a node. -/
theorem Canon.delete (h : Canon n) (hkey : Hex key) :
    ∃ dirty n', delete n key = some (dirty, n') ∧ Deleted n key n' ∧ (dirty = false → n' = n) ∧
      ((∃ children, n = full children) → Canon n') := by
  induction h generalizing key with
  | @leaf k v hk =>
    by_cases hstart : k <+: key
    · obtain ⟨rest, rfl⟩ := hstart
      obtain rfl := hk.eq_of_append hkey
      have hlen := prefixLen_append k []
      rw [List.append_nil] at hlen ⊢
      refine ⟨true, nil, ?_, ⟨.inl rfl, fun word => ?_⟩, (fun h => by cases h),
        fun ⟨_, h⟩ => by cases h⟩
      · rw [Trie.delete]
        simp [hlen]
      · rw [lookup_leaf, lookup_nil]
        split_ifs <;> rfl
    · refine ⟨false, _, delete_short_of_not_start hstart, .absent (.leaf hk) ?_, fun _ => rfl,
        fun ⟨_, h⟩ => by cases h⟩
      rw [lookup_short, if_neg hstart]
  | @extension k children hk hopen hfull ih =>
    by_cases hstart : k <+: key
    · obtain ⟨rest, rfl⟩ := hstart
      have hrest := (hex_append_iff hopen).mp hkey
      obtain ⟨dirty, child, hdelete, hdeleted, hsame, hcanon⟩ := ih hrest
      have hchild := hcanon ⟨children, rfl⟩
      rw [delete_short_append hrest.ne_nil, hdelete]
      cases dirty with
      | true =>
        refine ⟨true, _, rfl, ⟨.inr (hchild.merge hk hopen), ?_⟩, (fun h => by cases h),
          fun ⟨_, h⟩ => by cases h⟩
        rw [lookup_merge]
        exact lookup_short_change hdeleted.lookup
      | false =>
        obtain rfl := hsame rfl
        exact ⟨false, _, rfl, ⟨.inr (.extension hk hopen hfull),
          lookup_short_change hdeleted.lookup⟩, fun _ => rfl, fun ⟨_, h⟩ => by cases h⟩
    · refine ⟨false, _, delete_short_of_not_start hstart, .absent (.extension hk hopen hfull) ?_,
        fun _ => rfl, fun ⟨_, h⟩ => by cases h⟩
      rw [lookup_short, if_neg hstart]
  | @branch children ended child two ih =>
    have hcanon : Canon (full children) := .branch ended child two
    obtain ⟨a, rest, rfl⟩ := List.exists_cons_of_ne_nil hkey.ne_nil
    rw [delete_full]
    by_cases hnil : children a = nil
    · rw [hnil]
      refine ⟨false, _, rfl, .absent hcanon ?_, fun _ => rfl, fun _ => hcanon⟩
      rw [lookup_full_cons, hnil, lookup_nil]
    · rcases hex_cons_iff.mp hkey with ⟨rfl, rfl⟩ | ⟨ha, hrest⟩
      · obtain ⟨v, hv⟩ := ended.resolve_left hnil
        have hchild : Child 16 nil := fun h => absurd rfl h
        have hlookup (word : List Nibble) : (nil : Node).lookup word =
            if word = [] then none else (children 16).lookup word := by
          rw [hv]
          cases word <;> rfl
        have hresult := deleted_full hcanon hchild hlookup
        rw [hv]
        exact ⟨true, _, rfl, hresult.2, (fun h => by cases h), fun _ => hresult.1⟩
      · obtain ⟨dirty, nn, hdelete, hdeleted, hsame, -⟩ := ih a ha hnil hrest
        rw [hdelete]
        cases dirty with
        | true =>
          have hchild : Child a nn := fun hne => by
            rw [if_neg ha]
            exact hdeleted.canon.resolve_left hne
          have hresult := deleted_full hcanon hchild hdeleted.lookup
          exact ⟨true, _, rfl, hresult.2, (fun h => by cases h), fun _ => hresult.1⟩
        | false =>
          obtain rfl := hsame rfl
          refine ⟨false, _, rfl, ⟨.inr hcanon, ?_⟩, fun _ => rfl, fun _ => hcanon⟩
          have hlookup := lookup_full_change hdeleted.lookup
          rwa [Function.update_eq_self] at hlookup

/-! ## Whole runs -/

/-- The trie stores a map: its root is canonical, and it finds the values of the map and no
others. -/
structure Stores (root : Node) (m : Bytes → Option Bytes) : Prop where
  canon : root = nil ∨ Canon root
  found : ∀ key, root.lookup (keybytesToHex key) = m key
  only : ∀ word, (∀ key, word ≠ keybytesToHex key) → root.lookup word = none

theorem Stores.change (h : Stores root m) {key : Bytes} {x : Option Bytes}
    (hcanon : root' = nil ∨ Canon root') (hlookup : ∀ word, root'.lookup word =
      if word = keybytesToHex key then x else root.lookup word) :
    Stores root' (Function.update m key x) := by
  refine ⟨hcanon, fun key' => ?_, fun word hword => ?_⟩
  · rw [hlookup]
    by_cases heq : key' = key
    · rw [heq, if_pos rfl, Function.update_self]
    · rw [if_neg fun h => heq (keybytesToHex_injective h), Function.update_of_ne heq, h.found]
  · rw [hlookup, if_neg (hword key), h.only word hword]

theorem Stores.insert (h : Stores root m) (key w : Bytes) :
    ∃ dirty root', insert root (keybytesToHex key) w = some (dirty, root') ∧
      Stores root' (Function.update m key (some w)) := by
  have hkey := hex_keybytesToHex key
  rcases h.canon with rfl | hcanon
  · refine ⟨true, _, rfl, h.change ?_ fun word => ?_⟩
    · rw [insertNew, if_neg hkey.ne_nil]
      exact .inr (.leaf hkey)
    · rw [lookup_insertNew, lookup_leaf, lookup_nil]
  · obtain ⟨dirty, root', hinsert, hinserted, -⟩ := hcanon.insert hkey w
    exact ⟨dirty, root', hinsert, h.change (.inr hinserted.canon) hinserted.lookup⟩

theorem Stores.delete (h : Stores root m) (key : Bytes) :
    ∃ dirty root', delete root (keybytesToHex key) = some (dirty, root') ∧
      Stores root' (Function.update m key none) := by
  rcases h.canon with rfl | hcanon
  · refine ⟨false, nil, rfl, h.change (.inl rfl) fun word => ?_⟩
    rw [lookup_nil]
    split_ifs <;> rfl
  · obtain ⟨dirty, root', hdelete, hdeleted, -, -⟩ := hcanon.delete (hex_keybytesToHex key)
    exact ⟨dirty, root', hdelete, h.change hdeleted.canon hdeleted.lookup⟩

theorem Stores.apply (h : Stores root m) (op : Op) :
    ∃ root', apply root op = some root' ∧ Stores root' (op.store m) := by
  cases op with
  | update key w =>
    by_cases hw : w = []
    · obtain ⟨dirty, root', hdelete, hstores⟩ := h.delete key
      refine ⟨root', ?_, ?_⟩
      · simp [Trie.apply, update, hw, hdelete]
      · rwa [Op.store, if_pos hw]
    · obtain ⟨dirty, root', hinsert, hstores⟩ := h.insert key w
      refine ⟨root', ?_, ?_⟩
      · simp [Trie.apply, update, hw, hinsert]
      · rwa [Op.store, if_neg hw]
  | delete key =>
    obtain ⟨dirty, root', hdelete, hstores⟩ := h.delete key
    exact ⟨root', by simp [Trie.apply, hdelete], hstores⟩

theorem stores_run (ops : List Op) : ∃ root, run ops = some root ∧ Stores root (stored ops) := by
  have hstart : Stores nil fun _ => none :=
    ⟨.inl rfl, fun _ => lookup_nil _, fun _ _ => lookup_nil _⟩
  unfold run stored
  generalize (nil : Node) = root at hstart
  generalize (fun _ => none : Bytes → Option Bytes) = m at hstart
  induction ops generalizing root m with
  | nil => exact ⟨root, rfl, hstart⟩
  | cons op ops ih =>
    obtain ⟨root', happly, hstores⟩ := hstart.apply op
    rw [List.foldlM_cons, happly, List.foldl_cons]
    exact ih root' (op.store m) hstores

theorem Stores.get (h : Stores root m) (key : Bytes) :
    get root (keybytesToHex key) = some (m key) := by
  rw [← h.found key]
  rcases h.canon with rfl | hcanon
  · rw [lookup_nil]
    rfl
  · exact hcanon.get (hex_keybytesToHex key)

theorem Stores.unique (h : Stores root m) (h' : Stores root' m) : root = root' := by
  have hlookup : root.lookup = root'.lookup := by
    funext word
    by_cases hword : ∃ key, word = keybytesToHex key
    · obtain ⟨key, rfl⟩ := hword
      rw [h.found, h'.found]
    · have hnone (key : Bytes) : word ≠ keybytesToHex key := fun heq => hword ⟨key, heq⟩
      rw [h.only word hnone, h'.only word hnone]
  -- A canonical node stores something, so that it is not `nil`.
  have hempty {root root' : Node} (heq : root.lookup = root'.lookup) (hcanon : Canon root)
      (hnil : root' = nil) : False := by
    obtain ⟨word, v, hword⟩ := hcanon.proper.exists_lookup
    rw [heq, hnil, lookup_nil] at hword
    cases hword
  rcases h.canon with hnil | hcanon
  · rcases h'.canon with hnil' | hcanon'
    · rw [hnil, hnil']
    · exact (hempty hlookup.symm hcanon' hnil).elim
  · rcases h'.canon with hnil' | hcanon'
    · exact (hempty hlookup hcanon hnil').elim
    · exact hcanon.proper.ext hcanon'.proper hlookup

/-- After any calls, each key gets the last value stored under it, no path is split over two short
nodes, every full node has two children, and other calls that store the same map end with the same
nodes. -/
theorem canonical_map (ops : List Op) :
    ∃ root, run ops = some root ∧
      (∀ key, get root (keybytesToHex key) = some (stored ops key)) ∧
      (root = nil ∨ root.Proper) ∧
      ∀ ops', stored ops' = stored ops → run ops' = some root := by
  obtain ⟨root, hrun, hstores⟩ := stores_run ops
  refine ⟨root, hrun, hstores.get, hstores.canon.imp_right Canon.proper, fun ops' heq => ?_⟩
  obtain ⟨root', hrun', hstores'⟩ := stores_run ops'
  rw [heq] at hstores'
  rw [hrun', hstores'.unique hstores]

/-- Keys of which one starts another, in two orders and with a key that is deleted again. -/
theorem canonical_map_sample :
    stored [.update [1] [7], .update [1, 2] [8], .update [] [9], .delete [1]] =
        stored [.update [] [9], .update [1, 2] [8]] ∧
      run [.update [1] [7], .update [1, 2] [8], .update [] [9], .delete [1]] =
        run [.update [] [9], .update [1, 2] [8]] := by
  have hstored : stored [.update [1] [7], .update [1, 2] [8], .update [] [9], .delete [1]] =
      stored [.update [] [9], .update [1, 2] [8]] := by
    funext key
    simp only [stored, List.foldl_cons, List.foldl_nil, Op.store, Function.update_apply]
    by_cases hlong : key = [1, 2] <;> by_cases hempty : key = [] <;> simp_all
  obtain ⟨root, hrun, -, -, hsame⟩ := canonical_map [.update [] [9], .update [1, 2] [8]]
  exact ⟨hstored, (hsame _ hstored).trans hrun.symm⟩

end Trie

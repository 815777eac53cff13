import Mathlib.Data.List.Infix
import Mathlib.Logic.Basic

/-!
# Path-compressed trees

A radix tree stores values under words. A short node stands for a path without branches, a full node
has one child for each letter. A tree is proper if no path is empty or split over two short nodes
and every full node has two children. It is then determined by what it stores.
-/

inductive RadixTree (α V : Type*) where
  | nil
  | value (v : V)
  | short (key : List α) (val : RadixTree α V)
  | full (children : α → RadixTree α V)

namespace RadixTree

variable {α V : Type*} {children : α → RadixTree α V} {val n val' : RadixTree α V}

def isNil : RadixTree α V → Bool
  | nil => true
  | _ => false

def isShort : RadixTree α V → Bool
  | short _ _ => true
  | _ => false

theorem isNil_iff : n.isNil = true ↔ n = nil := by
  cases n <;> simp [isNil]

/-- No path is empty or split, and no full node could be a short one. -/
def Proper : RadixTree α V → Prop
  | nil => False
  | value _ => True
  | short key val => key ≠ [] ∧ val.isShort = false ∧ val.Proper
  | full children => (∃ i j, i ≠ j ∧ children i ≠ nil ∧ children j ≠ nil) ∧
      ∀ i, children i ≠ nil → (children i).Proper

theorem Proper.ne_nil (h : n.Proper) : n ≠ nil := by
  rintro rfl
  exact h

/-! ## Lookup -/

variable [DecidableEq α]

/-- The value under a word. -/
def lookup : RadixTree α V → List α → Option V
  | nil, _ => none
  | value v, [] => some v
  | value _, _ :: _ => none
  | short key val, word => if key <+: word then val.lookup (word.drop key.length) else none
  | full _, [] => none
  | full children, a :: word => (children a).lookup word

variable {n s t : RadixTree α V} {key word : List α} {v : V}

@[simp] theorem lookup_nil (word : List α) : (nil : RadixTree α V).lookup word = none := by
  cases word <;> rfl

@[simp] theorem lookup_full_cons (children : α → RadixTree α V) (a : α) (word : List α) :
    (full children).lookup (a :: word) = (children a).lookup word := rfl

theorem lookup_short (key : List α) (val : RadixTree α V) (word : List α) :
    (short key val).lookup word =
      if key <+: word then val.lookup (word.drop key.length) else none := by
  cases word <;> rfl

@[simp] theorem lookup_short_append (key : List α) (val : RadixTree α V) (word : List α) :
    (short key val).lookup (key ++ word) = val.lookup word := by
  rw [lookup_short, if_pos (List.prefix_append _ _), List.drop_left]

theorem lookup_short_eq_some : (short key n).lookup word = some v ↔
    ∃ rest, word = key ++ rest ∧ n.lookup rest = some v := by
  constructor
  · intro h
    rw [lookup_short] at h
    split_ifs at h with hstart
    obtain ⟨rest, rfl⟩ := hstart
    rw [List.drop_left] at h
    exact ⟨rest, rfl, h⟩
  · rintro ⟨rest, rfl, h⟩
    rwa [lookup_short_append]

theorem lookup_value_eq_some {w : V} : (value w : RadixTree α V).lookup word = some v ↔
    word = [] ∧ w = v := by
  cases word with
  | nil => simp [lookup]
  | cons a word => simp [lookup]

theorem lookup_full_eq_some :
    (full children).lookup word = some v ↔
      ∃ a rest, word = a :: rest ∧ (children a).lookup rest = some v := by
  cases word with
  | nil => simp [lookup]
  | cons a rest => simp

/-- Nested short nodes store what one short node stores. -/
theorem lookup_short_short (key key' : List α) (val : RadixTree α V) :
    (short key (short key' val)).lookup = (short (key ++ key') val).lookup := by
  funext word
  refine Option.ext fun v => ?_
  simp only [lookup_short_eq_some]
  constructor
  · rintro ⟨_, rfl, rest, rfl, h⟩
    exact ⟨rest, (List.append_assoc _ _ _).symm, h⟩
  · rintro ⟨rest, rfl, h⟩
    exact ⟨key' ++ rest, List.append_assoc _ _ _, rest, rfl, h⟩

/-! ## Changes at one word -/

section Change

variable {rest : List α} {a : α} {x : Option V}

theorem lookup_short_change
    (h : ∀ word, val'.lookup word = if word = rest then x else val.lookup word) (word : List α) :
    (short key val').lookup word =
      if word = key ++ rest then x else (short key val).lookup word := by
  rw [lookup_short, lookup_short]
  by_cases hstart : key <+: word
  · obtain ⟨tail, rfl⟩ := hstart
    rw [if_pos (List.prefix_append _ _), if_pos (List.prefix_append _ _), List.drop_left, h]
    simp
  · have hne : word ≠ key ++ rest := by
      rintro rfl
      exact hstart (List.prefix_append _ _)
    rw [if_neg hstart, if_neg hstart, if_neg hne]

theorem lookup_full_change {child : RadixTree α V}
    (h : ∀ word, child.lookup word = if word = rest then x else (children a).lookup word)
    (word : List α) : (full (Function.update children a child)).lookup word =
      if word = a :: rest then x else (full children).lookup word := by
  cases word with
  | nil => rfl
  | cons b word =>
    rw [lookup_full_cons, lookup_full_cons]
    by_cases hba : b = a
    · rw [hba, Function.update_self, h]
      simp
    · rw [Function.update_of_ne hba]
      simp [hba]

end Change

/-! ## Proper trees are determined by their values -/

theorem Proper.exists_lookup (h : n.Proper) : ∃ word v, n.lookup word = some v := by
  induction n with
  | nil => exact h.elim
  | value v => exact ⟨[], v, rfl⟩
  | short key val ih =>
    obtain ⟨word, v, hword⟩ := ih h.2.2
    exact ⟨key ++ word, v, by rw [lookup_short_append, hword]⟩
  | full children ih =>
    obtain ⟨⟨i, -, -, hi, -⟩, hproper⟩ := h
    obtain ⟨word, v, hword⟩ := ih i (hproper i hi)
    exact ⟨i :: word, v, hword⟩

/-- A value is stored under the empty word, by value nodes only. -/
theorem Proper.lookup_empty (h : n.Proper) : n.lookup [] = some v ↔ n = value v := by
  cases n with
  | nil => exact h.elim
  | value w => simp [lookup]
  | short key val =>
    rw [lookup_short_eq_some]
    constructor
    · rintro ⟨rest, heq, -⟩
      exact absurd (List.append_eq_nil_iff.mp heq.symm).1 h.1
    · exact fun heq => by cases heq
  | full children => simp [lookup]

/-- The words of a full node start with different letters, those of a short node with the same. -/
theorem Proper.not_short_full (hshort : (short key val).Proper) (hfull : (full children).Proper) :
    (short key val).lookup ≠ (full children).lookup := by
  intro heq
  obtain ⟨a, key, rfl⟩ := List.exists_cons_of_ne_nil hshort.1
  obtain ⟨⟨i, j, hne, hi, hj⟩, hproper⟩ := hfull
  have hletter (i : α) (hi : children i ≠ nil) : i = a := by
    obtain ⟨word, v, hword⟩ := (hproper i hi).exists_lookup
    have hfound : (short (a :: key) val).lookup (i :: word) = some v := by
      rw [heq, lookup_full_cons, hword]
    obtain ⟨rest, hrest, -⟩ := lookup_short_eq_some.mp hfound
    exact (List.cons.inj hrest).1
  exact hne ((hletter i hi).trans (hletter j hj).symm)

theorem Proper.isShort_eq (hs : s.Proper) (ht : t.Proper) (heq : s.lookup = t.lookup)
    (hshort : s.isShort = true) : t.isShort = true := by
  cases s with
  | nil | value v | full children => cases hshort
  | short key val =>
    cases t with
    | nil => exact ht.elim
    | value v =>
      have hempty := congrFun heq []
      cases (hs.lookup_empty (v := v)).mp (hempty.trans rfl)
    | short key' val' => rfl
    | full children => exact absurd heq (hs.not_short_full ht)

/-- The paths of two short nodes that store the same are equal. -/
theorem Proper.short_key_eq {key' : List α} (h : (short key val).Proper)
    (h' : (short key' val').Proper) (heq : (short key val).lookup = (short key' val').lookup) :
    key = key' := by
  -- One path extends the other, and the rest of it would be a short node below a short node.
  have hextends {key key' : List α} {val val' : RadixTree α V} (h : (short key val).Proper)
      (h' : (short key' val').Proper)
      (heq : (short key val).lookup = (short key' val').lookup) (hstart : key <+: key') :
      key = key' := by
    obtain ⟨rest, rfl⟩ := hstart
    by_contra hne
    have hrest : rest ≠ [] := by
      rintro rfl
      exact hne (List.append_nil _).symm
    have hval : (short rest val').lookup = val.lookup := by
      funext word
      have hword := congrFun heq (key ++ word)
      rw [lookup_short_append, ← lookup_short_short, lookup_short_append] at hword
      exact hword.symm
    have hproper : (short rest val').Proper := ⟨hrest, h'.2⟩
    have hisShort := hproper.isShort_eq h.2.2 hval rfl
    rw [h.2.1] at hisShort
    cases hisShort
  obtain ⟨word, v, hword⟩ := h.exists_lookup
  obtain ⟨rest, hrest, -⟩ := lookup_short_eq_some.mp hword
  obtain ⟨rest', hrest', -⟩ := lookup_short_eq_some.mp ((congrFun heq word).symm.trans hword)
  rcases List.prefix_or_prefix_of_prefix ⟨rest, hrest.symm⟩ ⟨rest', hrest'.symm⟩ with hp | hp
  · exact hextends h h' heq hp
  · exact (hextends h' h heq.symm hp).symm

theorem Proper.ext (hs : s.Proper) (ht : t.Proper) (heq : s.lookup = t.lookup) : s = t := by
  induction s generalizing t with
  | nil => exact hs.elim
  | value v =>
    exact (ht.lookup_empty.mp ((congrFun heq []).symm.trans rfl)).symm
  | short key val ih =>
    cases t with
    | nil => exact ht.elim
    | value v => cases hs.isShort_eq ht heq rfl
    | full children => cases hs.isShort_eq ht heq rfl
    | short key' val' =>
      obtain rfl := hs.short_key_eq ht heq
      have hval : val.lookup = val'.lookup := by
        funext word
        have hword := congrFun heq (key ++ word)
        rwa [lookup_short_append, lookup_short_append] at hword
      rw [ih hs.2.2 ht.2.2 hval]
  | full children ih =>
    cases t with
    | nil => exact ht.elim
    | value v => cases (hs.lookup_empty (v := v)).mp ((congrFun heq []).trans rfl)
    | short key val => cases ht.isShort_eq hs heq.symm rfl
    | full children' =>
      have hchild (i : α) : (children i).lookup = (children' i).lookup :=
        funext fun word => congrFun heq (i :: word)
      -- A proper child stores something, so that a missing child is missing in both.
      have hnil {n n' : RadixTree α V} (hn : n.lookup = n'.lookup) (hempty : n = nil)
          (hproper : n' ≠ nil → n'.Proper) : n' = nil := by
        by_contra hne
        obtain ⟨word, v, hword⟩ := (hproper hne).exists_lookup
        rw [← hn, hempty, lookup_nil] at hword
        cases hword
      congr 1
      funext i
      by_cases hi : children i = nil
      · rw [hi, hnil (hchild i) hi (ht.2 i)]
      · have hi' : children' i ≠ nil := fun h => hi (hnil (hchild i).symm h (hs.2 i))
        exact ih i (hs.2 i hi) (ht.2 i hi') (hchild i)

/-! ## The order of words -/

/-- The words part at a letter, and the first one has the smaller letter. -/
def Before {α : Type*} [LT α] (word word' : List α) : Prop :=
  ∃ path a b rest rest', a < b ∧ word = path ++ a :: rest ∧ word' = path ++ b :: rest'

section Before

variable {α : Type*} [LT α] {a b : α} {word word' : List α}

theorem before_of_lt (h : a < b) (word word' : List α) : Before (a :: word) (b :: word') :=
  ⟨[], a, b, word, word', h, rfl, rfl⟩

theorem Before.cons (h : Before word word') (a : α) : Before (a :: word) (a :: word') := by
  obtain ⟨path, x, y, rest, rest', hlt, rfl, rfl⟩ := h
  exact ⟨a :: path, x, y, rest, rest', hlt, rfl, rfl⟩

theorem Before.of_cons (h : Before (a :: word) word') :
    (∃ b rest, word' = b :: rest ∧ a < b) ∨ ∃ rest, word' = a :: rest ∧ Before word rest := by
  obtain ⟨path, x, y, rest, rest', hlt, hword, rfl⟩ := h
  cases path with
  | nil =>
    obtain ⟨rfl, rfl⟩ := List.cons.inj hword
    exact .inl ⟨y, rest', rfl, hlt⟩
  | cons c path =>
    obtain ⟨rfl, rfl⟩ := List.cons.inj hword
    exact .inr ⟨_, rfl, path, x, y, rest, rest', hlt, rfl, rfl⟩

theorem Before.ne (h : Before word word') (hirrefl : ∀ a : α, ¬a < a) : word ≠ word' := by
  obtain ⟨path, a, b, rest, rest', hlt, rfl, rfl⟩ := h
  intro heq
  obtain rfl := (List.cons.inj (List.append_cancel_left heq)).1
  exact hirrefl a hlt

end Before

end RadixTree

import Mathlib.Data.List.AList
import Mathlib.Data.List.Sort

/-!
# Finite maps

Finite maps are Mathlib's association lists with distinct keys, with the bulk operations of in-place
maps: the values, `retain` with a predicate that may also modify the value it keeps, and the scan of
a sorted map from a key on.
-/

/-- A finite map from `α` to `β`. -/
abbrev Assoc (α β : Type*) := AList fun _ : α => β

namespace Assoc

variable {α β γ : Type*} {m : Assoc α β} {entries : List (Σ _ : α, β)} {xs : List γ} {a : α} {b : β}

/-- The values of a map, in iteration order. -/
def values (m : Assoc α β) : List β := m.entries.map (·.2)

/-- The values from a key on, in key order. -/
def valuesFrom [LinearOrder α] (m : Assoc α β) (start : α) : List β :=
  ((m.entries.filter fun e => start ≤ e.1).insertionSort fun e e' => e.1 ≤ e'.1).map (·.2)

/-- The first key from a key on, in key order. -/
def firstKeyFrom [LinearOrder α] (m : Assoc α β) (start : α) : Option α :=
  (m.keys.filter fun a => start ≤ a).min?

/-- The last key up to a key, in key order. -/
def lastKeyTo [LinearOrder α] (m : Assoc α β) (stop : α) : Option α :=
  (m.keys.filter fun a => a ≤ stop).max?

/-- Keeps the entries on which `f` answers, with the value it answers. -/
def retain (f : α → β → Option β) (m : Assoc α β) : Assoc α β where
  entries := m.entries.filterMap fun e => (f e.1 e.2).map (Sigma.mk e.1)
  nodupKeys := by
    have h := m.nodupKeys
    rw [List.nodupKeys_iff_pairwise] at h ⊢
    rw [List.pairwise_filterMap]
    refine h.imp ?_
    intro a b hab a' ha b' hb
    obtain ⟨_, _, rfl⟩ := Option.map_eq_some_iff.mp ha
    obtain ⟨_, _, rfl⟩ := Option.map_eq_some_iff.mp hb
    exact hab

variable [DecidableEq α]

theorem mem_entries_iff :
    Sigma.mk a b ∈ m.entries ↔ m.lookup a = some b :=
  AList.mem_lookup_iff.symm

theorem mem_values_iff : b ∈ m.values ↔ ∃ a, m.lookup a = some b := by
  simp only [values, List.mem_map, ← mem_entries_iff]
  constructor
  · rintro ⟨⟨a, b'⟩, h, rfl⟩
    exact ⟨a, h⟩
  · rintro ⟨a, h⟩
    exact ⟨⟨a, b⟩, h, rfl⟩

@[simp] theorem lookup_retain (f : α → β → Option β) (m : Assoc α β) (a : α) :
    (m.retain f).lookup a = (m.lookup a).bind (f a) := by
  ext b
  rw [← mem_entries_iff]
  simp only [retain, List.mem_filterMap, Option.map_eq_some_iff, Option.bind_eq_some_iff,
    ← mem_entries_iff]
  constructor
  · rintro ⟨⟨a', b'⟩, h, b'', hf, heq⟩
    cases heq
    exact ⟨b', h, hf⟩
  · rintro ⟨b', h, hf⟩
    exact ⟨⟨a, b'⟩, h, b, hf, rfl⟩

theorem mem_keys_of_lookup (h : m.lookup a = some b) :
    a ∈ m.keys :=
  AList.lookup_isSome.mp (by rw [h]; rfl)

theorem mem_keys_iff : a ∈ m.keys ↔ ∃ b, m.lookup a = some b := by
  rw [← AList.mem_keys, ← AList.lookup_isSome, Option.isSome_iff_exists]

theorem length_keys_erase (h : m.lookup a = some b) :
    (m.erase a).keys.length + 1 = m.keys.length := by
  have hmem := mem_keys_of_lookup h
  rw [AList.keys_erase, List.length_erase_of_mem hmem]
  exact Nat.sub_add_cancel (List.length_pos_of_mem hmem)

theorem length_keys_insert {b' : β} (h : m.lookup a = some b) :
    (m.insert a b').keys.length = m.keys.length := by
  rw [AList.keys_insert, List.length_cons, ← AList.keys_erase, length_keys_erase h]

theorem lookup_of_lookup_erase {a' : α} (h : (m.erase a).lookup a' = some b) :
    m.lookup a' = some b := by
  by_cases ha : a' = a
  · subst ha
    rw [AList.lookup_erase] at h
    cases h
  · rwa [AList.lookup_erase_ne ha] at h

theorem lookup_of_lookup_foldl_erase (key : γ → α)
    (h : (xs.foldl (fun m x => m.erase (key x)) m).lookup a = some b) : m.lookup a = some b := by
  induction xs generalizing m with
  | nil => exact h
  | cons x xs ih => exact lookup_of_lookup_erase (ih h)

theorem keys_foldl_erase_sublist (key : γ → α) (xs : List γ) (m : Assoc α β) :
    (xs.foldl (fun m x => m.erase (key x)) m).keys.Sublist m.keys := by
  induction xs generalizing m with
  | nil => exact List.Sublist.refl _
  | cons x xs ih =>
    rw [List.foldl_cons]
    exact (ih _).trans (AList.keys_erase (key x) m ▸ List.erase_sublist)

theorem lookup_foldl_erase_ne (key : γ → α) (h : ∀ x ∈ xs, key x ≠ a) :
    (xs.foldl (fun m x => m.erase (key x)) m).lookup a = m.lookup a := by
  induction xs generalizing m with
  | nil => rfl
  | cons x xs ih =>
    rw [List.foldl_cons, ih fun y hy => h y (List.mem_cons_of_mem _ hy),
      AList.lookup_erase_ne (h x List.mem_cons_self).symm]

theorem lookup_insert_cases {a' : α} {b' : β} (h : (m.insert a b).lookup a' = some b') :
    a' = a ∧ b' = b ∨ m.lookup a' = some b' := by
  by_cases ha : a' = a
  · subst ha
    rw [AList.lookup_insert] at h
    exact .inl ⟨rfl, (Option.some.inj h).symm⟩
  · rw [AList.lookup_insert_ne ha] at h
    exact .inr h

/-- Inserting entries with distinct keys one after the other. -/
theorem lookup_foldl_insert (hnodup : entries.NodupKeys) (m : Assoc α β) (a : α) :
    ((entries.map fun e => (e.1, e.2)).foldl (fun m e => m.insert e.1 e.2) m).lookup a =
      (entries.dlookup a).or (m.lookup a) := by
  induction entries generalizing m with
  | nil => simp
  | cons e entries ih =>
    obtain ⟨hnew, hrest⟩ := List.nodupKeys_cons.mp hnodup
    rw [List.map_cons, List.foldl_cons, ih hrest]
    by_cases ha : a = e.1
    · subst ha
      rw [List.dlookup_eq_none.mpr hnew, List.dlookup_cons_eq, AList.lookup_insert]
      rfl
    · rw [List.dlookup_cons_ne _ _ ha, AList.lookup_insert_ne ha]

/-- Inserting what some of the entries give, one after the other. -/
theorem lookup_foldl_elim_insert {δ : Type*} (hnodup : entries.NodupKeys) (f : β → Option γ)
    (g : γ → δ) (m : Assoc α δ) (a : α) :
    (entries.foldl (fun m e => (f e.2).elim m fun c => m.insert e.1 (g c)) m).lookup a =
      (((entries.dlookup a).bind f).map g).or (m.lookup a) := by
  induction entries generalizing m with
  | nil => simp
  | cons e entries ih =>
    obtain ⟨hnew, hrest⟩ := List.nodupKeys_cons.mp hnodup
    rw [List.foldl_cons, ih hrest]
    by_cases ha : a = e.1
    · subst ha
      rw [List.dlookup_eq_none.mpr hnew, List.dlookup_cons_eq]
      cases hf : f e.2 with
      | none => simp [hf]
      | some c => simp [hf]
    · rw [List.dlookup_cons_ne _ _ ha]
      cases f e.2 with
      | none => rfl
      | some c => simp [AList.lookup_insert_ne ha]

/-- Erases a list of keys. -/
def eraseAll (m : Assoc α β) (keys : List α) : Assoc α β :=
  keys.foldl (fun m a => m.erase a) m

theorem lookup_eraseAll_eq_some {keys : List α} :
    (m.eraseAll keys).lookup a = some b ↔ m.lookup a = some b ∧ a ∉ keys := by
  induction keys generalizing m with
  | nil => simp [eraseAll]
  | cons key keys ih =>
    have hstep : m.eraseAll (key :: keys) = eraseAll (m.erase key) keys := rfl
    rw [hstep, ih, List.mem_cons, not_or]
    by_cases ha : a = key
    · rw [ha, AList.lookup_erase]
      simp
    · rw [AList.lookup_erase_ne ha]
      simp [ha]

/-- The first entries, as a bounded cache keeps them: an insertion puts an entry in front. -/
def truncate (m : Assoc α β) (n : ℕ) : Assoc α β :=
  ⟨m.entries.take n, m.nodupKeys.sublist (List.take_sublist n m.entries)⟩

/-- A key function that recovers the keys separates the values. -/
theorem values_map_nodup (key : β → α) (hkey : ∀ a b, m.lookup a = some b → key b = a) :
    (m.values.map key).Nodup := by
  have heq : m.values.map key = m.keys := by
    simp only [values, AList.keys, List.keys, List.map_map]
    refine List.map_congr_left ?_
    rintro ⟨a, b⟩ h
    exact hkey a b (mem_entries_iff.mp h)
  rw [heq]
  exact m.keys_nodup

/-- A search by a predicate that only one value can meet finds that value. -/
theorem find?_values_eq_some {p : β → Bool} (hmem : m.lookup a = some b) (hp : p b = true)
    (huniq : ∀ a' b', m.lookup a' = some b' → p b' = true → b' = b) :
    m.values.find? p = some b := by
  cases hfind : m.values.find? p with
  | none =>
    have hvalue := mem_values_iff.mpr ⟨a, hmem⟩
    exact absurd hp (by simpa using List.find?_eq_none.mp hfind b hvalue)
  | some b' =>
    obtain ⟨a', ha'⟩ := mem_values_iff.mp (List.mem_of_find?_eq_some hfind)
    rw [huniq a' b' ha' (List.find?_some hfind)]

/-- A list that has the entries from a key on, by increasing key, has their values. -/
theorem valuesFrom_eq_map [LinearOrder α] {start : α} (key : γ → α) {value : γ → β}
    (hsorted : (xs.map key).Pairwise (· < ·))
    (hmem : ∀ a b, m.lookup a = some b ∧ start ≤ a ↔ ∃ x ∈ xs, key x = a ∧ value x = b) :
    m.valuesFrom start = xs.map value := by
  let below : (Σ _ : α, β) → (Σ _ : α, β) → Prop := fun e e' => e.1 < e'.1
  let atMost : (Σ _ : α, β) → (Σ _ : α, β) → Prop := fun e e' => e.1 ≤ e'.1
  have : Std.Irrefl below := ⟨fun e => lt_irrefl e.1⟩
  have : Std.Antisymm below := ⟨fun e e' h h' => absurd h' h.not_gt⟩
  have : Std.Total atMost := ⟨fun e e' => le_total e.1 e'.1⟩
  have : IsTrans _ atMost := ⟨fun e e' e'' => le_trans⟩
  set entries := m.entries.filter fun e => start ≤ e.1 with hentries
  have hkeys : (entries.insertionSort atMost).Pairwise fun e e' => e.1 ≠ e'.1 := by
    refine ((List.perm_insertionSort atMost entries).symm.pairwise ?_ fun h => h.symm)
    exact (List.nodupKeys_iff_pairwise.mp m.nodupKeys).filter _
  have hleft : (entries.insertionSort atMost).Pairwise below :=
    ((List.pairwise_insertionSort atMost entries).and hkeys).imp fun h => lt_of_le_of_ne h.1 h.2
  have hright : (xs.map fun x => (⟨key x, value x⟩ : Σ _ : α, β)).Pairwise below := by
    rw [List.pairwise_map] at hsorted ⊢
    exact hsorted
  have heq : entries.insertionSort atMost = xs.map fun x => (⟨key x, value x⟩ : Σ _ : α, β) := by
    refine hleft.eq_of_mem_iff hright ?_
    rintro ⟨a, b⟩
    rw [List.mem_insertionSort, hentries, List.mem_filter, mem_entries_iff, decide_eq_true_eq, hmem]
    simp [List.mem_map, Sigma.mk.injEq]
  rw [valuesFrom, ← hentries]
  change (entries.insertionSort atMost).map _ = _
  rw [heq, List.map_map]
  rfl

end Assoc

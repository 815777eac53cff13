import NarwhalGeth.Lib.Assoc

/-!
# Secondary indexes

A table maps ids to records, and an index maps a key of each record to the id of the record. The
index is exact if it has these entries and no others.
-/

namespace TableIndex

variable {ι κ ρ : Type*} [DecidableEq ι] [DecidableEq κ] {key : ρ → κ} {index : Assoc κ ι}
  {table : Assoc ι ρ}

/-- The index has the keys of the records, with their ids. -/
def Exact (key : ρ → κ) (index : Assoc κ ι) (table : Assoc ι ρ) : Prop :=
  ∀ k i, index.lookup k = some i ↔ ∃ r, table.lookup i = some r ∧ key r = k

theorem Exact.empty : Exact key (∅ : Assoc κ ι) (∅ : Assoc ι ρ) := by
  intro k i
  simp

/-- Writes a record whose id and key no other record has. -/
theorem Exact.insert (h : Exact key index table) {i : ι} {r : ρ}
    (hnew : ∀ i' r', table.lookup i' = some r' → (i' = i ↔ key r' = key r)) :
    Exact key (index.insert (key r) i) (table.insert i r) := by
  intro k i'
  by_cases hk : k = key r
  · rw [hk, AList.lookup_insert, Option.some.injEq]
    constructor
    · rintro rfl
      exact ⟨r, AList.lookup_insert _, rfl⟩
    · rintro ⟨r', hr', hkey⟩
      by_contra hi
      rw [AList.lookup_insert_ne (Ne.symm hi)] at hr'
      exact hi ((hnew i' r' hr').mpr hkey).symm
  · rw [AList.lookup_insert_ne hk, h k i']
    by_cases hi : i' = i
    · subst hi
      rw [AList.lookup_insert]
      constructor
      · rintro ⟨r', hr', rfl⟩
        exact absurd ((hnew i' r' hr').mp rfl) hk
      · rintro ⟨r', hr', rfl⟩
        exact absurd (congrArg key (Option.some.inj hr')).symm hk
    · rw [AList.lookup_insert_ne hi]

/-- Deletes records with the keys that they have in the table. -/
theorem Exact.eraseAll (h : Exact key index table) (ids : List ι) :
    Exact key (index.eraseAll (ids.filterMap fun i => (table.lookup i).map key))
      (table.eraseAll ids) := by
  intro k i
  rw [Assoc.lookup_eraseAll_eq_some, h k i]
  constructor
  · rintro ⟨⟨r, hr, rfl⟩, hnot⟩
    refine ⟨r, Assoc.lookup_eraseAll_eq_some.mpr ⟨hr, fun hi => hnot ?_⟩, rfl⟩
    exact List.mem_filterMap.mpr ⟨i, hi, by rw [hr]; rfl⟩
  · rintro ⟨r, hr, rfl⟩
    obtain ⟨hr, hi⟩ := Assoc.lookup_eraseAll_eq_some.mp hr
    refine ⟨⟨r, hr, rfl⟩, fun hmem => hi ?_⟩
    obtain ⟨i', hi', hkey⟩ := List.mem_filterMap.mp hmem
    obtain ⟨r', hr', hkey⟩ := Option.map_eq_some_iff.mp hkey
    -- the index leads from the key to one id
    have hsame := ((h (key r) i).mpr ⟨r, hr, rfl⟩).symm.trans ((h (key r) i').mpr ⟨r', hr', hkey⟩)
    exact Option.some.inj hsame ▸ hi'

/-- An index that keeps the key of a deleted record is not exact. -/
theorem Exact.not_eraseAll (h : Exact key index table) {ids : List ι} {i : ι} {r : ρ} (hi : i ∈ ids)
    (hr : table.lookup i = some r) : ¬Exact key index (table.eraseAll ids) := by
  intro hexact
  obtain ⟨r', hr', -⟩ := (hexact (key r) i).mp ((h (key r) i).mpr ⟨r, hr, rfl⟩)
  exact (Assoc.lookup_eraseAll_eq_some.mp hr').2 hi

end TableIndex

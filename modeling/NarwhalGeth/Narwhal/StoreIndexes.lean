import NarwhalGeth.Lib.Machine
import NarwhalGeth.Lib.TableIndex
import NarwhalGeth.Narwhal.FetchCertificates

/-!
# The indexes of the certificate store

The store has two indexes, by round and by origin. Writing and clearing update both. The deletion of
certificates only updates the index by round, so that the index by origin keeps the keys of deleted
certificates and its readers follow them.
-/

namespace Narwhal

variable {K D : Type} [LinearOrder K] [DecidableEq D] {c c' : Certificate K D} {origin : K}
  {round : ℕ}

namespace IndexedStore

/-- Inserts certificates into the three tables, in one batch. -/
def writeAll (store : IndexedStore K D) (certificates : List (Certificate K D)) :
    IndexedStore K D where
  certificatesById := certificates.foldl (fun m c => m.insert c.digest c) store.certificatesById
  certificateIdByRound := certificates.foldl (fun m c => m.insert (c.round, c.origin) c.digest)
    store.certificateIdByRound
  certificateIdByOrigin := certificates.foldl
    (fun m c => m.insert (toLex (c.origin, c.round)) c.digest) store.certificateIdByOrigin

/-- The index by origin keeps its entry. -/
def delete (store : IndexedStore K D) (id : D) : IndexedStore K D :=
  match store.read id with
  | none => store
  | some cert =>
    { store with
      certificatesById := store.certificatesById.erase id
      certificateIdByRound := store.certificateIdByRound.erase (cert.round, cert.origin) }

/-- The index by origin keeps its entries. -/
def deleteAll (store : IndexedStore K D) (ids : List D) : IndexedStore K D :=
  let keysByRound := ids.filterMap fun id =>
    (store.certificatesById.lookup id).map fun cert => (cert.round, cert.origin)
  if keysByRound = [] then store
  else
    { store with
      certificatesById := store.certificatesById.eraseAll ids
      certificateIdByRound := store.certificateIdByRound.eraseAll keysByRound }

def clear (_ : IndexedStore K D) : IndexedStore K D := empty

/-- The last entry of the index up to the largest round of the origin. -/
def lastOfOrigin (store : IndexedStore K D) (origin : K) : Option (K ×ₗ ℕ) :=
  (store.certificateIdByOrigin.lastKeyTo (toLex (origin, roundMax))).filter
    fun key => (ofLex key).1 = origin

/-- The last certificate of the given origin. -/
def lastRound (store : IndexedStore K D) (origin : K) : Option (Certificate K D) := do
  let key ← store.lastOfOrigin origin
  let digest ← store.certificateIdByOrigin.lookup key
  store.certificatesById.lookup digest

/-- The last round number of the given origin. -/
def lastRoundNumber (store : IndexedStore K D) (origin : K) : Option ℕ :=
  (store.lastOfOrigin origin).map fun key => (ofLex key).2

end IndexedStore

/-! ## Runs of the store -/

inductive StoreOp (K D : Type) where
  | write (certificate : Certificate K D)
  | writeAll (certificates : List (Certificate K D))
  | delete (id : D)
  | deleteAll (ids : List D)
  | clear

namespace IndexedStore

def step (store : IndexedStore K D) : StoreOp K D → IndexedStore K D
  | .write certificate => store.write certificate
  | .writeAll certificates => store.writeAll certificates
  | .delete id => store.delete id
  | .deleteAll ids => store.deleteAll ids
  | .clear => store.clear

def machine : Machine (IndexedStore K D) (StoreOp K D) where
  start := empty
  next store op := some (store.step op)

/-- Two certificates have the same digest exactly if they have the same origin and round. -/
def Alike (c c' : Certificate K D) : Prop :=
  c.digest = c'.digest ↔ c.origin = c'.origin ∧ c.round = c'.round

instance (c c' : Certificate K D) : Decidable (Alike c c') :=
  inferInstanceAs (Decidable (_ ↔ _))

/-- The certificates fit the store and each other: one for each origin and round, with a round of
64 bits. -/
def Admits (store : IndexedStore K D) (written : List (Certificate K D)) : Prop :=
  ∀ c ∈ written, c.round ≤ roundMax ∧ (∀ c' ∈ store.certificates, Alike c' c) ∧
    ∀ c' ∈ written, Alike c' c

/-- The certificates that an operation writes. -/
def written : StoreOp K D → List (Certificate K D)
  | .write certificate => [certificate]
  | .writeAll certificates => certificates
  | _ => []

/-- The ids that an operation deletes. -/
def deleted : StoreOp K D → List D
  | .delete id => [id]
  | .deleteAll ids => ids
  | _ => []

/-- At most one certificate for each origin and round at a time. -/
def OneEach (store : IndexedStore K D) (op : StoreOp K D) : Prop := store.Admits (written op)

/-- The operation deletes no certificate of the store. -/
def KeepsAll (store : IndexedStore K D) (op : StoreOp K D) : Prop :=
  ∀ id ∈ deleted op, store.contains id = false

/-- The certificates are filed under their digests, and the index by round is exact. -/
structure ByRound (store : IndexedStore K D) : Prop where
  digest : ∀ d c, store.certificatesById.lookup d = some c → c.digest = d ∧ c.round ≤ roundMax
  exact : TableIndex.Exact (fun c : Certificate K D => (c.round, c.origin))
    store.certificateIdByRound store.certificatesById

/-- The index by origin is exact. -/
def ByOrigin (store : IndexedStore K D) : Prop :=
  TableIndex.Exact (fun c : Certificate K D => toLex (c.origin, c.round))
    store.certificateIdByOrigin store.certificatesById

variable {store : IndexedStore K D} {op : StoreOp K D}

namespace ByRound

theorem empty : ByRound (empty : IndexedStore K D) where
  digest d c h := by simp [IndexedStore.empty, CertificateStore.empty] at h
  exact := TableIndex.Exact.empty

theorem mem_certificates (h : store.ByRound) :
    c ∈ store.certificates ↔ store.certificatesById.lookup c.digest = some c := by
  rw [CertificateStore.certificates, Assoc.mem_values_iff]
  constructor
  · rintro ⟨d, hd⟩
    rwa [(h.digest d c hd).1]
  · exact fun hd => ⟨_, hd⟩

theorem alike (h : store.ByRound) (halike : ∀ c' ∈ store.certificates, Alike c' c) {d : D}
    (hc' : store.certificatesById.lookup d = some c') :
    d = c.digest ↔ c'.origin = c.origin ∧ c'.round = c.round := by
  rw [← (h.digest d c' hc').1]
  exact halike c' (Assoc.mem_values_iff.mpr ⟨d, hc'⟩)

theorem write (h : store.ByRound) (hround : c.round ≤ roundMax)
    (halike : ∀ c' ∈ store.certificates, Alike c' c) : (store.write c).ByRound where
  digest d c' hc' := by
    rcases Assoc.lookup_insert_cases hc' with ⟨rfl, rfl⟩ | hc'
    · exact ⟨rfl, hround⟩
    · exact h.digest d c' hc'
  exact := h.exact.insert fun d c' hc' => by
    rw [h.alike halike hc', Prod.mk.injEq, and_comm]

theorem deleteAll (h : store.ByRound) (ids : List D) : (store.deleteAll ids).ByRound := by
  rw [IndexedStore.deleteAll]
  split_ifs
  · exact h
  · exact ⟨fun d c hc => h.digest d c (Assoc.lookup_eraseAll_eq_some.mp hc).1,
      h.exact.eraseAll ids⟩

end ByRound

theorem delete_eq_deleteAll (id : D) : store.delete id = store.deleteAll [id] := by
  rw [delete, deleteAll, CertificateStore.read]
  cases hread : store.certificatesById.lookup id <;> simp [hread, Assoc.eraseAll]

theorem ByOrigin.write (h : store.ByRound) (horigin : store.ByOrigin)
    (halike : ∀ c' ∈ store.certificates, Alike c' c) : (store.write c).ByOrigin :=
  TableIndex.Exact.insert horigin fun d c' hc' => by
    rw [h.alike halike hc', toLex_inj, Prod.mk.injEq]

theorem writeAll_eq_foldl (certificates : List (Certificate K D)) :
    store.writeAll certificates = certificates.foldl IndexedStore.write store := by
  induction certificates generalizing store with
  | nil => rfl
  | cons c certificates ih =>
    show (store.write c).writeAll certificates = certificates.foldl IndexedStore.write _
    exact ih

theorem mem_certificates_of_write (h : c' ∈ (store.write c).certificates) :
    c' = c ∨ c' ∈ store.certificates := by
  obtain ⟨d, hd⟩ := Assoc.mem_values_iff.mp h
  rcases Assoc.lookup_insert_cases hd with ⟨-, rfl⟩ | hd
  · exact .inl rfl
  · exact .inr (Assoc.mem_values_iff.mpr ⟨d, hd⟩)

theorem ByRound.writes (h : store.ByRound) {certificates : List (Certificate K D)}
    (hadmits : store.Admits certificates) :
    (certificates.foldl IndexedStore.write store).ByRound ∧
      (store.ByOrigin → (certificates.foldl IndexedStore.write store).ByOrigin) := by
  induction certificates generalizing store with
  | nil => exact ⟨h, id⟩
  | cons c certificates ih =>
    obtain ⟨hround, hstore, hbatch⟩ := hadmits c List.mem_cons_self
    have hrest : (store.write c).Admits certificates := by
      intro c' hc'
      obtain ⟨hround', hstore', hbatch'⟩ := hadmits c' (List.mem_cons_of_mem _ hc')
      refine ⟨hround', fun x hx => ?_, fun x hx => hbatch' x (List.mem_cons_of_mem _ hx)⟩
      rcases mem_certificates_of_write hx with rfl | hx
      · exact hbatch' x List.mem_cons_self
      · exact hstore' x hx
    obtain ⟨hbyRound, hbyOrigin⟩ := ih (h.write hround hstore) hrest
    exact ⟨hbyRound, fun horigin => hbyOrigin (.write h horigin hstore)⟩

theorem ByRound.step (h : store.ByRound) (hone : store.OneEach op) :
    (store.step op).ByRound := by
  cases op with
  | write certificate => exact (h.writes hone).1
  | writeAll certificates =>
    show (store.writeAll certificates).ByRound
    rw [writeAll_eq_foldl]
    exact (h.writes hone).1
  | delete id =>
    show (store.delete id).ByRound
    rw [delete_eq_deleteAll]
    exact h.deleteAll [id]
  | deleteAll ids => exact h.deleteAll ids
  | clear => exact ByRound.empty

theorem byOrigin_deleteAll_iff (horigin : store.ByOrigin) (ids : List D) :
    (store.deleteAll ids).ByOrigin ↔ ∀ id ∈ ids, store.contains id = false := by
  rw [deleteAll]
  split_ifs with hnone
  · refine iff_of_true horigin fun id hid => ?_
    have hkey := List.filterMap_eq_nil_iff.mp hnone id hid
    rw [CertificateStore.contains, Option.map_eq_none_iff.mp hkey]
    rfl
  · refine iff_of_false ?_ fun hkeep => hnone ?_
    · obtain ⟨key, hkey⟩ := List.exists_mem_of_ne_nil _ hnone
      obtain ⟨id, hid, hlookup⟩ := List.mem_filterMap.mp hkey
      obtain ⟨c, hc, -⟩ := Option.map_eq_some_iff.mp hlookup
      exact TableIndex.Exact.not_eraseAll horigin hid hc
    · refine List.filterMap_eq_nil_iff.mpr fun id hid => Option.map_eq_none_iff.mpr ?_
      simpa [CertificateStore.contains] using hkeep id hid

/-- A step keeps the index by origin exact unless it deletes a certificate of the store. -/
theorem byOrigin_step_iff (h : store.ByRound) (horigin : store.ByOrigin) (hone : store.OneEach op) :
    (store.step op).ByOrigin ↔ store.KeepsAll op := by
  cases op with
  | write certificate => exact iff_of_true ((h.writes hone).2 horigin) (by simp [KeepsAll, deleted])
  | writeAll certificates =>
    refine iff_of_true ?_ (by simp [KeepsAll, deleted])
    show (store.writeAll certificates).ByOrigin
    rw [writeAll_eq_foldl]
    exact (h.writes hone).2 horigin
  | delete id =>
    show (store.delete id).ByOrigin ↔ _
    rw [delete_eq_deleteAll]
    exact byOrigin_deleteAll_iff horigin [id]
  | deleteAll ids => exact byOrigin_deleteAll_iff horigin ids
  | clear => exact iff_of_true TableIndex.Exact.empty (by simp [KeepsAll, deleted])

/-! ## The readers -/

/-- For bounds below the largest round, the readers of the index by origin answer as a scan of the
store. -/
structure Scans (store : IndexedStore K D) : Prop where
  readByIndex : ∀ origin round c, store.readByIndex origin round = some c ↔
    c ∈ store.certificates ∧ c.origin = origin ∧ c.round = round
  lastRound : ∀ origin c, store.lastRound origin = some c ↔
    c ∈ store.certificates ∧ c.origin = origin ∧
      ∀ c' ∈ store.certificates, c'.origin = origin → c'.round ≤ c.round
  lastRoundNumber : ∀ origin round, store.lastRoundNumber origin = some round ↔
    (∃ c ∈ store.certificates, c.origin = origin ∧ c.round = round) ∧
      ∀ c ∈ store.certificates, c.origin = origin → c.round ≤ round
  nextRoundNumber : ∀ origin bound round, bound < roundMax →
    (store.nextRoundNumber origin bound = some round ↔
      (∃ c ∈ store.certificates, c.origin = origin ∧ c.round = round) ∧ bound < round ∧
        ∀ c ∈ store.certificates, c.origin = origin → bound < c.round → round ≤ c.round)

/-- The range query by round finds the stored certificates and never misses one. -/
def ScansFrom (store : IndexedStore K D) : Prop :=
  ∀ round, ∃ certs, store.afterRound round = some certs ∧
    ∀ c, c ∈ certs ↔ c ∈ store.certificates ∧ round ≤ c.round

section Readers

variable (h : store.ByRound) (horigin : store.ByOrigin)

include h horigin

theorem lookup_origin_eq_some {d : D} :
    store.certificateIdByOrigin.lookup (toLex (origin, round)) = some d ↔
      ∃ c ∈ store.certificates, c.digest = d ∧ c.origin = origin ∧ c.round = round := by
  rw [horigin]
  constructor
  · rintro ⟨c, hc, hkey⟩
    obtain ⟨rfl, rfl⟩ := Prod.mk.inj (toLex_inj.mp hkey)
    exact ⟨c, Assoc.mem_values_iff.mpr ⟨d, hc⟩, (h.digest d c hc).1, rfl, rfl⟩
  · rintro ⟨c, hc, rfl, rfl, rfl⟩
    exact ⟨c, h.mem_certificates.mp hc, rfl⟩

theorem key_mem_iff :
    toLex (origin, round) ∈ store.certificateIdByOrigin.keys ↔
      ∃ c ∈ store.certificates, c.origin = origin ∧ c.round = round := by
  rw [Assoc.mem_keys_iff]
  constructor
  · rintro ⟨d, hd⟩
    obtain ⟨c, hc, -, hkey⟩ := (lookup_origin_eq_some h horigin).mp hd
    exact ⟨c, hc, hkey⟩
  · rintro ⟨c, hc, hkey⟩
    exact ⟨c.digest, (lookup_origin_eq_some h horigin).mpr ⟨c, hc, rfl, hkey⟩⟩

theorem lastOfOrigin_eq_some {key : K ×ₗ ℕ} :
    store.lastOfOrigin origin = some key ↔
      ∃ c ∈ store.certificates, toLex (c.origin, c.round) = key ∧ c.origin = origin ∧
        ∀ c' ∈ store.certificates, c'.origin = origin → c'.round ≤ c.round := by
  -- the certificates of the origin are all before the key that the scan starts from
  have hbefore : ∀ c ∈ store.certificates, c.origin = origin →
      toLex (origin, c.round) ∈ store.certificateIdByOrigin.keys.filter
        fun key => key ≤ toLex (origin, roundMax) := by
    rintro c hc rfl
    have hround := (h.digest _ c (h.mem_certificates.mp hc)).2
    exact List.mem_filter.mpr ⟨(key_mem_iff h horigin).mpr ⟨c, hc, rfl, rfl⟩,
      decide_eq_true (Prod.Lex.toLex_le_toLex.mpr (.inr ⟨rfl, hround⟩))⟩
  rw [lastOfOrigin, Assoc.lastKeyTo, Option.filter_eq_some_iff, List.max?_eq_some_iff,
    decide_eq_true_eq]
  constructor
  · rintro ⟨⟨hmem, hgreatest⟩, hname⟩
    obtain ⟨⟨name, round⟩, rfl⟩ := toLex.surjective key
    obtain rfl : name = origin := hname
    obtain ⟨c, hc, rfl, rfl⟩ := (key_mem_iff h horigin).mp (List.mem_filter.mp hmem).1
    refine ⟨c, hc, rfl, rfl, fun c' hc' heq => ?_⟩
    rcases Prod.Lex.toLex_le_toLex.mp (hgreatest _ (hbefore c' hc' heq)) with hlt | ⟨-, hle⟩
    · exact absurd hlt (lt_irrefl _)
    · exact hle
  · rintro ⟨c, hc, rfl, rfl, hlast⟩
    refine ⟨⟨hbefore c hc rfl, fun key hkey => ?_⟩, rfl⟩
    obtain ⟨⟨name, round⟩, rfl⟩ := toLex.surjective key
    obtain ⟨hkey, hle⟩ := List.mem_filter.mp hkey
    rcases Prod.Lex.toLex_le_toLex.mp (of_decide_eq_true hle) with hlt | ⟨heq, -⟩
    · exact Prod.Lex.toLex_le_toLex.mpr (.inl hlt)
    · obtain ⟨c', hc', hname, hround⟩ := (key_mem_iff h horigin).mp hkey
      refine Prod.Lex.toLex_le_toLex.mpr (.inr ⟨heq, ?_⟩)
      exact hround ▸ hlast c' hc' (hname.trans heq)

theorem scans : store.Scans where
  readByIndex origin round c := by
    rw [IndexedStore.readByIndex]
    constructor
    · intro hread
      cases hd : store.certificateIdByOrigin.lookup (toLex (origin, round)) with
      | none =>
        rw [hd] at hread
        cases hread
      | some d =>
        rw [hd] at hread
        obtain ⟨c', hc', rfl, hkey⟩ := (lookup_origin_eq_some h horigin).mp hd
        obtain rfl : c' = c := Option.some.inj ((h.mem_certificates.mp hc').symm.trans hread)
        exact ⟨hc', hkey⟩
    · rintro ⟨hc, hkey⟩
      rw [(lookup_origin_eq_some h horigin).mpr ⟨c, hc, rfl, hkey⟩]
      exact h.mem_certificates.mp hc
  lastRound origin c := by
    rw [IndexedStore.lastRound, Option.bind_eq_bind, Option.bind_eq_some_iff]
    constructor
    · rintro ⟨key, hkey, hread⟩
      obtain ⟨c', hc', rfl, hname, hlast⟩ := (lastOfOrigin_eq_some h horigin).mp hkey
      rw [(lookup_origin_eq_some h horigin).mpr ⟨c', hc', rfl, rfl, rfl⟩] at hread
      obtain rfl : c' = c := Option.some.inj ((h.mem_certificates.mp hc').symm.trans hread)
      exact ⟨hc', hname, hlast⟩
    · rintro ⟨hc, hname, hlast⟩
      refine ⟨_, (lastOfOrigin_eq_some h horigin).mpr ⟨c, hc, rfl, hname, hlast⟩, ?_⟩
      rw [(lookup_origin_eq_some h horigin).mpr ⟨c, hc, rfl, rfl, rfl⟩]
      exact h.mem_certificates.mp hc
  lastRoundNumber origin round := by
    rw [IndexedStore.lastRoundNumber, Option.map_eq_some_iff]
    constructor
    · rintro ⟨key, hkey, rfl⟩
      obtain ⟨c, hc, rfl, hname, hlast⟩ := (lastOfOrigin_eq_some h horigin).mp hkey
      exact ⟨⟨c, hc, hname, rfl⟩, hlast⟩
    · rintro ⟨⟨c, hc, hname, rfl⟩, hlast⟩
      exact ⟨_, (lastOfOrigin_eq_some h horigin).mpr ⟨c, hc, rfl, hname, hlast⟩, rfl⟩
  nextRoundNumber origin bound round hbound := by
    have hnext : Merge.IsNext (WellFormed.rounds store origin) bound
      (store.nextRoundNumber origin bound) := WellFormed.nextRoundNumber_isNext origin hbound
    have hmem : ∀ r, r ∈ WellFormed.rounds store origin ↔
        ∃ c ∈ store.certificates, c.origin = origin ∧ c.round = r := fun r =>
      WellFormed.mem_rounds_iff.trans (key_mem_iff h horigin)
    constructor
    · intro hround
      rw [hround] at hnext
      obtain ⟨hr, hlt, hleast⟩ := hnext
      exact ⟨(hmem round).mp hr, hlt, fun c hc hname => hleast _ ((hmem _).mpr ⟨c, hc, hname, rfl⟩)⟩
    · rintro ⟨hc, hlt, hleast⟩
      cases hfound : store.nextRoundNumber origin bound with
      | none =>
        rw [hfound] at hnext
        exact absurd (hnext round ((hmem round).mpr hc)) (Nat.not_le.mpr hlt)
      | some r =>
        rw [hfound] at hnext
        obtain ⟨hr, hlt', hleast'⟩ := hnext
        obtain ⟨c', hc', hname', rfl⟩ := (hmem r).mp hr
        rw [Nat.le_antisymm (hleast' round ((hmem round).mpr hc) hlt) (hleast c' hc' hname' hlt')]

end Readers

theorem scansFrom (h : store.ByRound) : store.ScansFrom := by
  refine CertificateStore.afterRound_spec fun r k d => ?_
  rw [h.exact]
  simp only [Prod.mk.injEq]

/-! ## Whole runs -/

theorem byRound_of_reached {guard : IndexedStore K D → StoreOp K D → Prop}
    (hguard : ∀ store op, guard store op → store.OneEach op)
    (hreached : (machine : Machine (IndexedStore K D) (StoreOp K D)).Reached guard store) :
    store.ByRound := by
  refine hreached.invariant ByRound.empty fun store op store' h met eq => ?_
  obtain rfl : store.step op = store' := Option.some.inj eq
  exact h.step (hguard store op met)

theorem byOrigin_of_reached
    (hreached : (machine : Machine (IndexedStore K D) (StoreOp K D)).Reached
      (fun store op => store.OneEach op ∧ store.KeepsAll op) store) :
    store.ByRound ∧ store.ByOrigin := by
  refine hreached.invariant (I := fun store => store.ByRound ∧ store.ByOrigin)
    ⟨ByRound.empty, TableIndex.Exact.empty⟩ fun store op store' h met eq => ?_
  obtain rfl : store.step op = store' := Option.some.inj eq
  exact ⟨h.1.step met.1, (byOrigin_step_iff h.1 h.2 met.1).mpr met.2⟩

/-- The index by round is always exact, and range queries find the stored certificates. The index by
origin is exact, and its readers answer as a scan does, until the first deletion of a stored
certificate. -/
theorem indexes_exact_iff :
    (∀ store : IndexedStore K D, machine.Reached OneEach store →
      store.ByRound ∧ store.ScansFrom) ∧
    (∀ store : IndexedStore K D,
      machine.Reached (fun store op => store.OneEach op ∧ store.KeepsAll op) store →
        store.ByOrigin ∧ store.Scans ∧
        ∀ op, store.OneEach op → ((store.step op).ByOrigin ↔ store.KeepsAll op)) := by
  refine ⟨fun store hreached => ?_, fun store hreached => ?_⟩
  · have h := byRound_of_reached (fun _ _ hone => hone) hreached
    exact ⟨h, scansFrom h⟩
  · obtain ⟨h, horigin⟩ := byOrigin_of_reached hreached
    exact ⟨horigin, scans h horigin, fun op hone => byOrigin_step_iff h horigin hone⟩

end IndexedStore

/-- A certificate of the first authority. -/
def Sample.firstOf (round : ℕ) : Certificate (Fin 4) ℕ :=
  ⟨{ author := 0, round, epoch := 0, createdAt := 0, payload := [], parents := [],
     digest := round, signature := [] }⟩

namespace IndexedStore

instance (store : IndexedStore K D) (written : List (Certificate K D)) :
    Decidable (store.Admits written) :=
  inferInstanceAs (Decidable (∀ c ∈ written, _ ∧ _ ∧ _))

instance (store : IndexedStore K D) (op : StoreOp K D) :
    Decidable (store.OneEach op ∧ store.KeepsAll op) :=
  inferInstanceAs (Decidable (store.Admits (written op) ∧ ∀ id ∈ deleted op, _))

/-- Two certificates of one authority, and the index by origin after them. -/
theorem indexes_exact_sample :
    ((empty.write (Sample.firstOf 1)).write (Sample.firstOf 2)).lastRoundNumber 0 = some 2 := by
  have hruns : machine.Runs (fun store op => store.OneEach op ∧ store.KeepsAll op) empty
      [StoreOp.write (Sample.firstOf 1), StoreOp.write (Sample.firstOf 2)] := by decide
  have hreached : machine.Reached (fun store op => store.OneEach op ∧ store.KeepsAll op)
      ((empty.write (Sample.firstOf 1)).write (Sample.firstOf 2)) :=
    Machine.Reached.start.after hruns
  refine ((indexes_exact_iff.2 _ hreached).2.1.lastRoundNumber 0 2).mpr ⟨⟨Sample.firstOf 2, ?_⟩, ?_⟩
  · decide
  · decide

/-- The later of two certificates is deleted: the index by origin still reports its round as the
last one, and the certificate that is left is not found. -/
theorem deleted_certificate_indexed :
    let store := ((empty.write (Sample.firstOf 1)).write (Sample.firstOf 2)).delete 2
    store.certificates = [Sample.firstOf 1] ∧ store.lastRoundNumber 0 = some 2 ∧
      store.nextRoundNumber 0 1 = some 2 ∧ store.lastRound 0 = none := by
  decide

end IndexedStore

end Narwhal

import NarwhalGeth.Lib.Fallible
import NarwhalGeth.Narwhal.Ledger

/-!
# The certificate store

Certificates on disk by digest, with the index by round and origin that range queries use. A store
that was filled with certificates of one pool answers `afterRound` with exactly the stored
certificates from that round on.
-/

namespace Narwhal

variable {K D : Type} [DecidableEq K] [DecidableEq D] {c : Certificate K D}

structure CertificateStore (K D : Type) where
  certificatesById : Assoc D (Certificate K D)
  certificateIdByRound : Assoc (ℕ × K) D

namespace CertificateStore

def empty : CertificateStore K D := ⟨∅, ∅⟩

/-- Inserts a certificate and indexes it, in one batch. -/
def write (store : CertificateStore K D) (certificate : Certificate K D) :
    CertificateStore K D where
  certificatesById := store.certificatesById.insert certificate.digest certificate
  certificateIdByRound :=
    store.certificateIdByRound.insert (certificate.round, certificate.origin) certificate.digest

def read (store : CertificateStore K D) (id : D) : Option (Certificate K D) :=
  store.certificatesById.lookup id

def contains (store : CertificateStore K D) (id : D) : Bool :=
  (store.certificatesById.lookup id).isSome

/-- The stored certificates from a round on, in round order, unless the index names a missing
certificate. -/
def afterRound (store : CertificateStore K D) (round : ℕ) : Option (List (Certificate K D)) :=
  let entries := store.certificateIdByRound.entries.filter fun e => round ≤ e.1.1
  let entries := entries.insertionSort fun e e' => e.1.1 ≤ e'.1.1
  (entries.map fun e => e.2).mapM store.certificatesById.lookup

/-- The certificates in the store. -/
def certificates (store : CertificateStore K D) : List (Certificate K D) :=
  store.certificatesById.values

/-- The index and the certificates match, and everything stored belongs to the pool. -/
structure WellFormed (P : Pool K D) (store : CertificateStore K D) : Prop where
  pool : ∀ d c, store.certificatesById.lookup d = some c → c ∈ P ∧ c.digest = d
  indexed : ∀ d c, store.certificatesById.lookup d = some c →
    store.certificateIdByRound.lookup (c.round, c.origin) = some d
  stored : ∀ r k d, store.certificateIdByRound.lookup (r, k) = some d →
    ∃ c, store.certificatesById.lookup d = some c ∧ c.round = r ∧ c.origin = k

theorem WellFormed.empty (P : Pool K D) : WellFormed P (empty : CertificateStore K D) where
  pool d c h := by simp [CertificateStore.empty] at h
  indexed d c h := by simp [CertificateStore.empty] at h
  stored r k d h := by simp [CertificateStore.empty] at h

namespace WellFormed

variable {P : Pool K D} {store : CertificateStore K D}

theorem mem_certificates (h : WellFormed P store) :
    c ∈ store.certificates ↔ store.read c.digest = some c := by
  rw [certificates, Assoc.mem_values_iff, read]
  constructor
  · rintro ⟨d, hd⟩
    rwa [(h.pool d c hd).2]
  · exact fun hd => ⟨c.digest, hd⟩

theorem write (h : WellFormed P store) (hc : c ∈ P) :
    WellFormed P (store.write c) where
  pool d x hx := by
    by_cases hd : d = c.digest
    · subst hd
      simp only [CertificateStore.write, AList.lookup_insert, Option.some.injEq] at hx
      subst hx
      exact ⟨hc, rfl⟩
    · simp only [CertificateStore.write, AList.lookup_insert_ne hd] at hx
      exact h.pool d x hx
  indexed d x hx := by
    by_cases hd : d = c.digest
    · subst hd
      simp only [CertificateStore.write, AList.lookup_insert, Option.some.injEq] at hx
      subst hx
      simp [CertificateStore.write]
    · simp only [CertificateStore.write, AList.lookup_insert_ne hd] at hx ⊢
      obtain ⟨hxP, hxd⟩ := h.pool d x hx
      have hne : (x.round, x.origin) ≠ (c.round, c.origin) := by
        intro heq
        obtain ⟨hround, horigin⟩ := Prod.mk.inj heq
        exact hd (hxd ▸ P.eq_of_origin_round x hxP c hc horigin hround ▸ rfl)
      rw [AList.lookup_insert_ne hne]
      exact h.indexed d x hx
  stored r k d hd := by
    by_cases hkey : (r, k) = (c.round, c.origin)
    · obtain ⟨rfl, rfl⟩ := Prod.mk.inj hkey
      simp only [CertificateStore.write, AList.lookup_insert, Option.some.injEq] at hd
      subst hd
      exact ⟨c, by simp [CertificateStore.write], rfl, rfl⟩
    · simp only [CertificateStore.write, AList.lookup_insert_ne hkey] at hd ⊢
      obtain ⟨x, hx, hround, horigin⟩ := h.stored r k d hd
      have hne : d ≠ c.digest := by
        rintro rfl
        have hsame := P.eq_of_digest x (h.pool _ x hx).1 c hc (h.pool _ x hx).2
        subst hsame
        exact hkey (by rw [hround, horigin])
      exact ⟨x, by rwa [AList.lookup_insert_ne hne], hround, horigin⟩

theorem mem_certificates_write (h : WellFormed P store) (hc : c ∈ P) {x : Certificate K D} :
    x ∈ (store.write c).certificates ↔ x = c ∨ x ∈ store.certificates := by
  rw [(h.write hc).mem_certificates, h.mem_certificates, read, CertificateStore.write]
  by_cases hd : x.digest = c.digest
  · rw [hd, AList.lookup_insert, Option.some.injEq]
    constructor
    · exact fun heq => .inl heq.symm
    · rintro (rfl | hx)
      · rfl
      · obtain ⟨hxP, -⟩ := h.pool _ x hx
        exact (P.eq_of_digest x hxP c hc hd).symm
  · rw [AList.lookup_insert_ne hd]
    refine ⟨.inr, fun hx => hx.resolve_left ?_⟩
    rintro rfl
    exact hd rfl

end WellFormed

end CertificateStore

/-- The range query returns the stored certificates from a round on, if the index leads to all of
them and to nothing else. -/
theorem CertificateStore.afterRound_spec {store : CertificateStore K D}
    (hindex : ∀ r k d, store.certificateIdByRound.lookup (r, k) = some d ↔
      ∃ c, store.certificatesById.lookup d = some c ∧ c.round = r ∧ c.origin = k) (round : ℕ) :
    ∃ certs, store.afterRound round = some certs ∧
      ∀ c, c ∈ certs ↔ c ∈ store.certificates ∧ round ≤ c.round := by
  have hentry : ∀ d, d ∈ ((store.certificateIdByRound.entries.filter
      fun e => round ≤ e.1.1).insertionSort fun e e' => e.1.1 ≤ e'.1.1).map (fun e => e.2) ↔
      ∃ c, store.certificatesById.lookup d = some c ∧ round ≤ c.round := by
    intro d
    simp only [List.mem_map, List.mem_insertionSort, List.mem_filter, decide_eq_true_eq]
    constructor
    · rintro ⟨⟨⟨r, k⟩, d'⟩, ⟨hmem, hle⟩, rfl⟩
      obtain ⟨c, hc, hround, -⟩ := (hindex r k d').mp (Assoc.mem_entries_iff.mp hmem)
      exact ⟨c, hc, by rw [hround]; exact hle⟩
    · rintro ⟨c, hc, hle⟩
      exact ⟨⟨(c.round, c.origin), d⟩, ⟨Assoc.mem_entries_iff.mpr
        ((hindex c.round c.origin d).mpr ⟨c, hc, rfl, rfl⟩), hle⟩, rfl⟩
  refine ⟨_, List.mapM_eq_some_filterMap fun d hd => ?_, fun c => ?_⟩
  · obtain ⟨c, hc, -⟩ := (hentry d).mp hd
    rw [hc]
    rfl
  rw [List.mem_filterMap, CertificateStore.certificates, Assoc.mem_values_iff]
  constructor
  · rintro ⟨d, hd, hlook⟩
    obtain ⟨c', hc', hle⟩ := (hentry d).mp hd
    rw [hlook, Option.some.injEq] at hc'
    subst hc'
    exact ⟨⟨d, hlook⟩, hle⟩
  · rintro ⟨⟨d, hlook⟩, hle⟩
    exact ⟨d, (hentry d).mpr ⟨c, hlook, hle⟩, hlook⟩

theorem CertificateStore.WellFormed.afterRound {P : Pool K D} {store : CertificateStore K D}
    (h : store.WellFormed P) (round : ℕ) :
    ∃ certs, store.afterRound round = some certs ∧
      ∀ c, c ∈ certs ↔ c ∈ store.certificates ∧ round ≤ c.round := by
  refine CertificateStore.afterRound_spec (fun r k d => ?_) round
  refine ⟨h.stored r k d, ?_⟩
  rintro ⟨c, hc, rfl, rfl⟩
  exact h.indexed d c hc

end Narwhal

import Mathlib.Data.Finset.Sort
import Mathlib.Data.Prod.Lex
import NarwhalGeth.Lib.Merge
import NarwhalGeth.Narwhal.Agreement
import NarwhalGeth.Narwhal.CertificateStore

/-!
# Answering requests for certificates

A primary that lacks certificates sends its garbage collection round and, for each authority, the
rounds that it has above it. The responder merges the certificates of the authorities by round with
a heap, and returns the first ones that the requestor lacks, parents before their children.
-/

namespace Narwhal

variable {K D : Type} [LinearOrder K] [DecidableEq D] {c c' : Certificate K D}
  {before rest : List (Certificate K D)} {elapsed : ℕ → Bool} {origin : K}
  {round bound maxItems gcRound : ℕ}

/-! ## The index by origin -/

/-- The largest round, `u64::MAX`. -/
def roundMax : ℕ := 2 ^ 64 - 1

/-- The certificate store with its index by origin and round. -/
structure IndexedStore (K D : Type) extends CertificateStore K D where
  certificateIdByOrigin : Assoc (K ×ₗ ℕ) D

namespace IndexedStore

def empty : IndexedStore K D := { CertificateStore.empty with certificateIdByOrigin := ∅ }

/-- Inserts a certificate into the three tables, in one batch. -/
def write (store : IndexedStore K D) (certificate : Certificate K D) : IndexedStore K D :=
  { store.toCertificateStore.write certificate with
    certificateIdByOrigin := store.certificateIdByOrigin.insert
      (toLex (certificate.origin, certificate.round)) certificate.digest }

def readByIndex (store : IndexedStore K D) (origin : K) (round : ℕ) : Option (Certificate K D) :=
  match store.certificateIdByOrigin.lookup (toLex (origin, round)) with
  | some d => store.certificatesById.lookup d
  | none => none

/-- The next round above the given one in which the origin has a certificate. The sum wraps around.
-/
def nextRoundNumber (store : IndexedStore K D) (origin : K) (round : ℕ) : Option ℕ :=
  match store.certificateIdByOrigin.firstKeyFrom (toLex (origin, (round + 1) % 2 ^ 64)) with
  | some key => if (ofLex key).1 = origin then some (ofLex key).2 else none
  | none => none

/-- The next round of the origin that is not to be skipped. The loop takes a step for each round in
the index at most. -/
def findNextRound (store : IndexedStore K D) (origin : K) (currentRound : ℕ)
    (skipRounds : Finset ℕ) : Option ℕ :=
  Merge.seek (store.nextRoundNumber origin) (fun round => decide (round ∉ skipRounds))
    (store.certificateIdByOrigin.keys.length + 1) currentRound

end IndexedStore

/-! ## Requests -/

/-- The serialization of bitmaps of 32-bit numbers. -/
structure BitmapCodec where
  serializeInto : Finset ℕ → List UInt8
  deserializeFrom : List UInt8 → Option (Finset ℕ)

structure FetchCertificatesRequest (K : Type) where
  exclusiveLowerBound : ℕ
  skipRounds : List (K × List UInt8)
  maxItems : ℕ
deriving DecidableEq

namespace FetchCertificatesRequest

variable (codec : BitmapCodec)

def default : FetchCertificatesRequest K := ⟨0, [], 0⟩

/-- The rounds as offsets from the garbage collection round, which must fit 32 bits. -/
def offsets (gcRound : ℕ) (rounds : Finset ℕ) : Option (Finset ℕ) :=
  if ∀ v ∈ rounds, gcRound ≤ v ∧ v - gcRound < 2 ^ 32 then some (rounds.image (· - gcRound))
  else none

def setBounds (request : FetchCertificatesRequest K) (gcRound : ℕ)
    (skipRounds : Assoc K (Finset ℕ)) : Option (FetchCertificatesRequest K) := do
  let serialized ← skipRounds.entries.mapM fun e =>
    (offsets gcRound e.2).map fun bitmap => (e.1, codec.serializeInto bitmap)
  some { request with exclusiveLowerBound := gcRound, skipRounds := serialized }

def setMaxItems (request : FetchCertificatesRequest K) (maxItems : ℕ) :
    FetchCertificatesRequest K :=
  { request with maxItems }

/-- The rounds to skip for each authority. An authority whose bitmap cannot be read is left out. -/
def getBounds (request : FetchCertificatesRequest K) : ℕ × Assoc K (Finset ℕ) :=
  let skipRounds := request.skipRounds.filterMap fun e =>
    (codec.deserializeFrom e.2).map fun bitmap =>
      (e.1, bitmap.image (request.exclusiveLowerBound + ·))
  (request.exclusiveLowerBound, skipRounds.foldl (fun m e => m.insert e.1 e.2) ∅)

end FetchCertificatesRequest

/-! ## The handler -/

namespace IndexedStore

/-- The loop of the handler over its queue of rounds and authorities. `elapsed` says whether the
time limit is reached with a number of certificates. A panic gives no answer. -/
def fetchLoop (store : IndexedStore K D) (skipRounds : Assoc K (Finset ℕ)) (maxItems : ℕ)
    (elapsed : ℕ → Bool) : ℕ → List (ℕ ×ₗ K) → List (Certificate K D) →
      Option (List (Certificate K D))
  | 0, _, _ => none
  | fuel + 1, fetchQueue, certificates =>
    match fetchQueue.min? with
    | none => some certificates
    | some next =>
      let fetchQueue := fetchQueue.erase next
      let round := (ofLex next).1
      let origin := (ofLex next).2
      match store.readByIndex origin round with
      | none => fetchLoop store skipRounds maxItems elapsed fuel fetchQueue certificates
      | some cert =>
        let certificates := certificates ++ [cert]
        match skipRounds.lookup origin with
        | none => none
        | some rounds =>
          let nextRound := store.findNextRound origin round rounds
          let fetchQueue := (nextRound.map fun r => toLex (r, origin)).toList ++ fetchQueue
          if certificates.length = maxItems then some certificates
          else if elapsed certificates.length then some certificates
          else if maxItems ≤ certificates.length then none
          else fetchLoop store skipRounds maxItems elapsed fuel fetchQueue certificates

def fetchCertificates (codec : BitmapCodec) (store : IndexedStore K D) (elapsed : ℕ → Bool)
    (request : FetchCertificatesRequest K) : Option (List (Certificate K D)) :=
  if request.maxItems = 0 then some []
  else
    let (lowerBound, skipRounds) := request.getBounds codec
    let fetchQueue := skipRounds.entries.filterMap fun e =>
      (store.findNextRound e.1 lowerBound e.2).map fun r => toLex (r, e.1)
    store.fetchLoop skipRounds request.maxItems elapsed
      (store.certificateIdByOrigin.keys.length + 1) fetchQueue []

/-! ## What the store answers -/

/-- The index by origin matches the one by round. -/
structure WellFormed (P : Pool K D) (store : IndexedStore K D) : Prop extends
    store.toCertificateStore.WellFormed P where
  byOrigin : ∀ k r, store.certificateIdByOrigin.lookup (toLex (k, r)) =
    store.certificateIdByRound.lookup (r, k)

theorem WellFormed.empty (P : Pool K D) : WellFormed P (empty : IndexedStore K D) where
  toWellFormed := CertificateStore.WellFormed.empty P
  byOrigin _ _ := rfl

namespace WellFormed

variable {P : Pool K D} {store : IndexedStore K D}

theorem write (h : WellFormed P store) (hc : c ∈ P) :
    WellFormed P (store.write c) where
  toWellFormed := h.toWellFormed.write hc
  byOrigin k r := by
    simp only [IndexedStore.write, CertificateStore.write]
    by_cases hkey : k = c.origin ∧ r = c.round
    · obtain ⟨rfl, rfl⟩ := hkey
      rw [AList.lookup_insert, AList.lookup_insert]
    · rw [AList.lookup_insert_ne, AList.lookup_insert_ne, h.byOrigin]
      · exact fun heq => hkey ⟨(Prod.mk.inj heq).2, (Prod.mk.inj heq).1⟩
      · exact fun heq => hkey (Prod.mk.inj (toLex_inj.mp heq))

theorem writes (h : WellFormed P store) {written : List (Certificate K D)}
    (hpool : ∀ c ∈ written, c ∈ P) :
    WellFormed P (written.foldl IndexedStore.write store) ∧
      ∀ c, c ∈ (written.foldl IndexedStore.write store).certificates ↔
        c ∈ written ∨ c ∈ store.certificates := by
  induction written generalizing store with
  | nil => exact ⟨h, fun c => by simp⟩
  | cons x written ih =>
    have hx := hpool x List.mem_cons_self
    obtain ⟨hwell, hmem⟩ := ih (h.write hx) fun c hc => hpool c (List.mem_cons_of_mem _ hc)
    refine ⟨hwell, fun c => ?_⟩
    rw [List.foldl_cons, hmem, List.mem_cons]
    have hwrite : c ∈ (store.write x).certificates ↔ c = x ∨ c ∈ store.certificates :=
      h.toWellFormed.mem_certificates_write hx
    rw [hwrite]
    tauto

theorem readByIndex_eq_some (h : WellFormed P store) : store.readByIndex origin round = some c ↔
      c ∈ store.certificates ∧ c.origin = origin ∧ c.round = round := by
  unfold readByIndex
  rw [h.byOrigin, h.mem_certificates]
  constructor
  · intro hread
    cases hd : store.certificateIdByRound.lookup (round, origin) with
    | none =>
      rw [hd] at hread
      cases hread
    | some d =>
      rw [hd] at hread
      obtain ⟨c', hc', hround, horigin⟩ := h.stored round origin d hd
      obtain rfl : c' = c := Option.some.inj (hc'.symm.trans hread)
      rw [(h.pool d c' hc').2]
      exact ⟨hc', horigin, hround⟩
  · rintro ⟨hread, rfl, rfl⟩
    rw [h.indexed _ c hread]
    exact hread

theorem mem_keys (h : WellFormed P store) {key : K ×ₗ ℕ} :
    key ∈ store.certificateIdByOrigin.keys ↔
      ∃ c ∈ store.certificates, toLex (c.origin, c.round) = key := by
  have hlookup := h.byOrigin (ofLex key).1 (ofLex key).2
  rw [Prod.mk.eta, toLex_ofLex] at hlookup
  rw [Assoc.mem_keys_iff, hlookup]
  constructor
  · rintro ⟨d, hd⟩
    obtain ⟨c, hc, hround, horigin⟩ := h.stored _ _ d hd
    refine ⟨c, h.mem_certificates.mpr ?_, ?_⟩
    · rw [(h.pool d c hc).2]
      exact hc
    · rw [hround, horigin, Prod.mk.eta, toLex_ofLex]
  · rintro ⟨c, hc, rfl⟩
    exact ⟨c.digest, h.indexed _ c (h.mem_certificates.mp hc)⟩

/-- The rounds of an origin in the index. -/
def rounds (store : IndexedStore K D) (origin : K) : Finset ℕ :=
  ((store.certificateIdByOrigin.keys.filter fun key => (ofLex key).1 = origin).map
    fun key => (ofLex key).2).toFinset

omit [DecidableEq D] in
theorem mem_rounds_iff :
    round ∈ rounds store origin ↔ toLex (origin, round) ∈ store.certificateIdByOrigin.keys := by
  simp only [rounds, List.mem_toFinset, List.mem_map, List.mem_filter, decide_eq_true_eq]
  constructor
  · rintro ⟨key, ⟨hkey, rfl⟩, rfl⟩
    exact hkey
  · exact fun hkey => ⟨toLex (origin, round), ⟨hkey, rfl⟩, rfl⟩

theorem mem_rounds (h : WellFormed P store) :
    round ∈ rounds store origin ↔
      ∃ c ∈ store.certificates, c.origin = origin ∧ c.round = round := by
  rw [mem_rounds_iff, h.mem_keys]
  simp only [toLex_inj, Prod.mk.injEq]

section

omit [DecidableEq D]

theorem card_rounds_le (origin : K) :
    (rounds store origin).card ≤ store.certificateIdByOrigin.keys.length := by
  refine (List.toFinset_card_le _).trans ?_
  rw [List.length_map]
  exact List.length_filter_le _ _

theorem nextRoundNumber_isNext (origin : K) (hbound : bound < roundMax) :
    Merge.IsNext (rounds store origin) bound (store.nextRoundNumber origin bound) := by
  unfold nextRoundNumber Assoc.firstKeyFrom
  rw [Nat.mod_eq_of_lt (by unfold roundMax at hbound; omega)]
  -- An entry of the origin above the bound is at or after the key the scan starts from.
  have hfrom : ∀ r ∈ rounds store origin, bound < r →
      toLex (origin, r) ∈ store.certificateIdByOrigin.keys.filter
        fun key => toLex (origin, bound + 1) ≤ key := by
    intro r hr hlt
    refine List.mem_filter.mpr ⟨mem_rounds_iff.mp hr, decide_eq_true ?_⟩
    exact Prod.Lex.toLex_le_toLex.mpr (.inr ⟨rfl, hlt⟩)
  cases hmin : (store.certificateIdByOrigin.keys.filter
      fun key => toLex (origin, bound + 1) ≤ key).min? with
  | none =>
    intro r hr
    by_contra hlt
    have hmem := hfrom r hr (not_le.mp hlt)
    rw [List.min?_eq_none_iff.mp hmin] at hmem
    exact List.not_mem_nil hmem
  | some key =>
    obtain ⟨hmem, hleast⟩ := List.min?_eq_some_iff.mp hmin
    obtain ⟨hkey, hge⟩ := List.mem_filter.mp hmem
    obtain ⟨⟨name, round⟩, rfl⟩ := toLex.surjective key
    have hge' := Prod.Lex.toLex_le_toLex.mp (of_decide_eq_true hge)
    dsimp only at hge'
    change Merge.IsNext _ bound (if name = origin then some round else none)
    by_cases horigin : name = origin
    · rw [if_pos horigin]
      subst horigin
      refine ⟨mem_rounds_iff.mpr hkey, ?_, fun r hr hlt => ?_⟩
      · rcases hge' with hlt | ⟨-, hle⟩
        · exact absurd hlt (lt_irrefl _)
        · exact hle
      · rcases Prod.Lex.toLex_le_toLex.mp (hleast _ (hfrom r hr hlt)) with hlt' | ⟨-, hle⟩
        · exact absurd hlt' (lt_irrefl _)
        · exact hle
    · rw [if_neg horigin]
      intro r hr
      by_contra hlt
      have hle := Prod.Lex.toLex_le_toLex.mp (hleast _ (hfrom r hr (not_le.mp hlt)))
      rcases hge' with hlt' | ⟨heq, -⟩
      · rcases hle with hle | ⟨heq, -⟩
        · exact lt_asymm hlt' hle
        · exact horigin heq
      · exact horigin heq.symm

theorem findNextRound_isNext (store : IndexedStore K D) (origin : K) (hbound : bound < roundMax)
    (hrounds : ∀ r ∈ rounds store origin, r < roundMax) (skipRounds : Finset ℕ) :
    Merge.IsNext ((rounds store origin).filter (· ∉ skipRounds)) bound
      (store.findNextRound origin bound skipRounds) := by
  have hfuel : ((rounds store origin).filter (bound < ·)).card <
      store.certificateIdByOrigin.keys.length + 1 :=
    Nat.lt_succ_of_le ((Finset.card_filter_le _ _).trans (card_rounds_le origin))
  have hseek := Merge.seek_isNext (fun round => decide (round ∉ skipRounds))
    (fun r hr => nextRoundNumber_isNext origin (hr.elim (· ▸ hbound) (hrounds r))) hfuel
  simp only [decide_eq_true_eq] at hseek
  exact hseek

end

end WellFormed

/-! ## The certificates a request asks for -/

/-- The order in which certificates are returned. -/
def fetchKey (c : Certificate K D) : ℕ ×ₗ K := toLex (c.round, c.origin)

/-- A certificate above the lower bound, of a listed authority and not to be skipped. -/
def Wanted (lowerBound : ℕ) (skipRounds : Assoc K (Finset ℕ)) (c : Certificate K D) : Prop :=
  lowerBound < c.round ∧ ∃ rounds ∈ skipRounds.lookup c.origin, c.round ∉ rounds

instance (lowerBound : ℕ) (skipRounds : Assoc K (Finset ℕ)) (c : Certificate K D) :
    Decidable (Wanted lowerBound skipRounds c) :=
  inferInstanceAs (Decidable (_ ∧ _))

/-- The certificates that a request asks for, by round and origin. -/
def wanted (store : IndexedStore K D) (lowerBound : ℕ) (skipRounds : Assoc K (Finset ℕ)) :
    List (Certificate K D) :=
  (store.certificates.filter fun c => Wanted lowerBound skipRounds c).insertionSort
    fun c c' => fetchKey c ≤ fetchKey c'

namespace WellFormed

variable {P : Pool K D} {store : IndexedStore K D} {lowerBound : ℕ}
  {skipRounds : Assoc K (Finset ℕ)}

omit [DecidableEq D] in
theorem mem_wanted : c ∈ store.wanted lowerBound skipRounds ↔
    c ∈ store.certificates ∧ Wanted lowerBound skipRounds c := by
  rw [wanted, List.mem_insertionSort, List.mem_filter, decide_eq_true_eq]

theorem pool_of_mem (h : WellFormed P store) (hc : c ∈ store.certificates) :
    c ∈ P :=
  (h.pool _ c (h.mem_certificates.mp hc)).1

theorem eq_of_fetchKey (h : WellFormed P store) (hc : c ∈ store.certificates)
    (hc' : c' ∈ store.certificates) (hkey : fetchKey c = fetchKey c') : c = c' := by
  obtain ⟨hround, horigin⟩ := Prod.mk.inj (toLex_inj.mp hkey)
  exact P.eq_of_origin_round c (h.pool_of_mem hc) c' (h.pool_of_mem hc') horigin hround

theorem nodup_certificates (h : WellFormed P store) : store.certificates.Nodup :=
  List.Nodup.of_map _ (Assoc.values_map_nodup Certificate.digest fun d c hc => (h.pool d c hc).2)

variable (lowerBound skipRounds) in
theorem wanted_sorted (h : WellFormed P store) :
    (store.wanted lowerBound skipRounds).Pairwise fun c c' => fetchKey c < fetchKey c' := by
  let atMost : Certificate K D → Certificate K D → Prop := fun c c' => fetchKey c ≤ fetchKey c'
  have : Std.Total atMost := ⟨fun c c' => le_total (fetchKey c) (fetchKey c')⟩
  have : IsTrans _ atMost := ⟨fun c c' c'' => le_trans⟩
  have hle : (store.wanted lowerBound skipRounds).Pairwise atMost :=
    List.pairwise_insertionSort atMost _
  have hnodup : (store.wanted lowerBound skipRounds).Nodup :=
    (List.perm_insertionSort _ _).nodup_iff.mpr (h.nodup_certificates.filter _)
  refine (hle.and hnodup).imp_of_mem fun hc hc' hrel => lt_of_le_of_ne hrel.1 fun hkey => hrel.2 ?_
  exact h.eq_of_fetchKey (mem_wanted.mp hc).1 (mem_wanted.mp hc').1 hkey

theorem length_wanted_le (h : WellFormed P store) :
    (store.wanted lowerBound skipRounds).length ≤ store.certificateIdByOrigin.keys.length := by
  have hnodup : ((store.wanted lowerBound skipRounds).map
      fun c => toLex (c.origin, c.round)).Nodup := by
    refine List.pairwise_map.mpr ((h.wanted_sorted _ _).imp fun hlt heq => hlt.ne ?_)
    obtain ⟨horigin, hround⟩ := Prod.mk.inj (toLex_inj.mp heq)
    rw [fetchKey, fetchKey, horigin, hround]
  rw [← List.length_map (f := fun c : Certificate K D => toLex (c.origin, c.round))]
  refine (List.subperm_of_subset hnodup fun key hkey => ?_).length_le
  obtain ⟨c, hc, rfl⟩ := List.mem_map.mp hkey
  exact h.mem_keys.mpr ⟨c, (mem_wanted.mp hc).1, rfl⟩

section Bounded

variable (hfits : ∀ c ∈ P, c.round < roundMax)
include hfits

/-- The next round of a listed origin is that of its first wanted certificate above the round. -/
theorem findNextRound_eq_some (h : WellFormed P store) {rounds : Finset ℕ}
    (hlisted : skipRounds.lookup origin = some rounds) {r : ℕ} (hbound : lowerBound ≤ bound)
    (hmax : bound < roundMax) :
    store.findNextRound origin bound rounds = some r ↔
      ∃ c ∈ store.wanted lowerBound skipRounds, c.origin = origin ∧ c.round = r ∧ bound < r ∧
        ∀ c' ∈ store.wanted lowerBound skipRounds, c'.origin = origin → bound < c'.round →
          r ≤ c'.round := by
  have hmem : ∀ s, s ∈ (WellFormed.rounds store origin).filter (· ∉ rounds) ∧ bound < s ↔
      ∃ c ∈ store.wanted lowerBound skipRounds, c.origin = origin ∧ c.round = s ∧ bound < s := by
    intro s
    rw [Finset.mem_filter, h.mem_rounds]
    constructor
    · rintro ⟨⟨⟨c, hc, rfl, rfl⟩, hskip⟩, hlt⟩
      exact ⟨c, mem_wanted.mpr ⟨hc, hbound.trans_lt hlt, rounds, hlisted, hskip⟩, rfl, rfl, hlt⟩
    · rintro ⟨c, hc, rfl, rfl, hlt⟩
      obtain ⟨hstored, -, rounds', hlisted', hskip⟩ := mem_wanted.mp hc
      obtain rfl : rounds = rounds' := Option.some.inj (hlisted.symm.trans hlisted')
      exact ⟨⟨⟨c, hstored, rfl, rfl⟩, hskip⟩, hlt⟩
  have hrounds : ∀ r ∈ WellFormed.rounds store origin, r < roundMax := by
    intro r hr
    obtain ⟨c, hc, -, rfl⟩ := h.mem_rounds.mp hr
    exact hfits c (h.pool_of_mem hc)
  have hnext := WellFormed.findNextRound_isNext store origin hmax hrounds rounds
  constructor
  · intro heq
    rw [heq] at hnext
    obtain ⟨hr, hlt, hleast⟩ := hnext
    obtain ⟨c, hc, horigin, hround, -⟩ := (hmem r).mp ⟨hr, hlt⟩
    refine ⟨c, hc, horigin, hround, hlt, fun c' hc' horigin' hlt' => ?_⟩
    exact hleast _ ((hmem _).mpr ⟨c', hc', horigin', rfl, hlt'⟩).1 hlt'
  · rintro ⟨c, hc, horigin, hround, hlt, hleast⟩
    have hr := (hmem r).mpr ⟨c, hc, horigin, hround, hlt⟩
    cases heq : store.findNextRound origin bound rounds with
    | none =>
      rw [heq] at hnext
      exact absurd (hnext r hr.1) (not_le.mpr hlt)
    | some s =>
      rw [heq] at hnext
      obtain ⟨hs, hlt', hleast'⟩ := hnext
      obtain ⟨c', hc', horigin', rfl, -⟩ := (hmem s).mp ⟨hs, hlt'⟩
      exact congrArg some (le_antisymm (hleast' r hr.1 hlt) (hleast c' hc' horigin' hlt'))

omit [DecidableEq D] hfits in
theorem fetchKey_le_iff (horigin : c.origin = c'.origin) :
    fetchKey c ≤ fetchKey c' ↔ c.round ≤ c'.round := by
  rw [fetchKey, fetchKey, horigin, Prod.Lex.toLex_le_toLex]
  constructor
  · rintro (hlt | ⟨heq, -⟩)
    · exact hlt.le
    · exact heq.le
  · intro hle
    rcases hle.lt_or_eq with hlt | heq
    · exact .inl hlt
    · exact .inr ⟨heq, le_rfl⟩

/-! ## The loop -/

theorem frontier_start (h : WellFormed P store) (hlower : lowerBound < roundMax) :
    Merge.Frontier fetchKey Certificate.origin (store.wanted lowerBound skipRounds)
      (skipRounds.entries.filterMap fun e =>
        (store.findNextRound e.1 lowerBound e.2).map fun r => toLex (r, e.1)) := by
  constructor
  · refine List.pairwise_filterMap.mpr
      ((List.nodupKeys_iff_pairwise.mp skipRounds.nodupKeys).imp fun hne key hkey key' hkey' => ?_)
    obtain ⟨r, -, rfl⟩ := Option.map_eq_some_iff.mp hkey
    obtain ⟨r', -, rfl⟩ := Option.map_eq_some_iff.mp hkey'
    exact fun heq => hne (Prod.mk.inj (toLex_inj.mp heq)).2
  · intro key
    rw [List.mem_filterMap]
    constructor
    · rintro ⟨⟨origin, rounds⟩, hmem, hkey⟩
      obtain ⟨r, hr, rfl⟩ := Option.map_eq_some_iff.mp hkey
      obtain ⟨c, hc, horigin, hround, -, hleast⟩ :=
        (h.findNextRound_eq_some hfits (Assoc.mem_entries_iff.mp hmem) le_rfl hlower).mp hr
      refine ⟨c, ⟨hc, fun c' hc' horigin' => ?_⟩, by rw [fetchKey, horigin, hround]⟩
      rw [fetchKey_le_iff horigin'.symm, hround]
      exact hleast c' hc' (horigin'.trans horigin) (mem_wanted.mp hc').2.1
    · rintro ⟨c, ⟨hc, hfirst⟩, rfl⟩
      obtain ⟨-, hlt, rounds, hlisted, -⟩ := mem_wanted.mp hc
      refine ⟨⟨c.origin, rounds⟩, Assoc.mem_entries_iff.mpr hlisted, ?_⟩
      have hnext := (h.findNextRound_eq_some hfits hlisted le_rfl hlower).mpr
        ⟨c, hc, rfl, rfl, hlt, fun c' hc' horigin' _ =>
          (fetchKey_le_iff horigin'.symm).mp (hfirst c' hc' horigin')⟩
      dsimp only
      rw [hnext]
      rfl

/-- After a certificate, the next round of its origin is that of the first remaining one. -/
theorem next_of_split (h : WellFormed P store)
    (hsplit : store.wanted lowerBound skipRounds = before ++ c :: rest) {rounds : Finset ℕ}
    (hlisted : skipRounds.lookup c.origin = some rounds) (key : ℕ ×ₗ K) :
    (store.findNextRound c.origin c.round rounds).map (fun r => toLex (r, c.origin)) = some key ↔
      ∃ y, Merge.IsFirst fetchKey Certificate.origin rest y ∧ y.origin = c.origin ∧
        fetchKey y = key := by
  have hsorted := h.wanted_sorted lowerBound skipRounds
  rw [hsplit, List.pairwise_append] at hsorted
  obtain ⟨-, hafter, hcross⟩ := hsorted
  -- The wanted certificates of the origin above the round are the remaining ones.
  have hrest : ∀ y, y.origin = c.origin →
      (y ∈ rest ↔ y ∈ store.wanted lowerBound skipRounds ∧ c.round < y.round) := by
    intro y horigin
    rw [← not_le, ← fetchKey_le_iff horigin, not_le, hsplit, List.mem_append, List.mem_cons]
    constructor
    · exact fun hy => ⟨.inr (.inr hy), List.rel_of_pairwise_cons hafter hy⟩
    · rintro ⟨hy | rfl | hy, hlt⟩
      · exact absurd (hcross y hy c List.mem_cons_self) hlt.not_gt
      · exact absurd hlt (lt_irrefl _)
      · exact hy
  have hc : c ∈ store.wanted lowerBound skipRounds := by
    rw [hsplit]
    exact List.mem_append_right _ List.mem_cons_self
  have hbound : lowerBound ≤ c.round := (mem_wanted.mp hc).2.1.le
  have hmax := hfits c (h.pool_of_mem (mem_wanted.mp hc).1)
  rw [Option.map_eq_some_iff]
  constructor
  · rintro ⟨r, hr, rfl⟩
    obtain ⟨y, hy, horigin, rfl, hlt, hleast⟩ :=
      (h.findNextRound_eq_some hfits hlisted hbound hmax).mp hr
    refine ⟨y, ⟨(hrest y horigin).mpr ⟨hy, hlt⟩, fun z hz hzorigin => ?_⟩, horigin, ?_⟩
    · obtain ⟨hzwanted, hzlt⟩ := (hrest z (hzorigin.trans horigin)).mp hz
      rw [fetchKey_le_iff hzorigin.symm]
      exact hleast z hzwanted (hzorigin.trans horigin) hzlt
    · rw [fetchKey, horigin]
  · rintro ⟨y, ⟨hy, hfirst⟩, horigin, rfl⟩
    obtain ⟨hywanted, hylt⟩ := (hrest y horigin).mp hy
    refine ⟨y.round, (h.findNextRound_eq_some hfits hlisted hbound hmax).mpr
      ⟨y, hywanted, horigin, rfl, hylt, fun z hz hzorigin hzlt => ?_⟩, by rw [fetchKey, horigin]⟩
    have hsame : z.origin = y.origin := hzorigin.trans horigin.symm
    exact (fetchKey_le_iff hsame.symm).mp (hfirst z ((hrest z hzorigin).mpr ⟨hz, hzlt⟩) hsame)

/-- From the frontier of the remaining certificates, the loop collects the first of them. -/
theorem fetchLoop_eq (h : WellFormed P store) (htime : ∀ n, elapsed n = false) {fuel : ℕ}
    {certificates : List (Certificate K D)} {fetchQueue : List (ℕ ×ₗ K)}
    (hsplit : store.wanted lowerBound skipRounds = before ++ rest)
    (hfrontier : Merge.Frontier fetchKey Certificate.origin rest fetchQueue)
    (hfuel : rest.length < fuel) (hroom : certificates.length < maxItems) :
    store.fetchLoop skipRounds maxItems elapsed fuel fetchQueue certificates =
      some (certificates ++ rest.take (maxItems - certificates.length)) := by
  induction rest generalizing before certificates fetchQueue fuel with
  | nil =>
    obtain ⟨fuel, rfl⟩ := Nat.exists_eq_add_one_of_ne_zero (Nat.ne_zero_of_lt hfuel)
    rw [hfrontier.eq_nil, fetchLoop]
    simp
  | cons c rest ih =>
    obtain ⟨fuel, rfl⟩ := Nat.exists_eq_add_one_of_ne_zero (Nat.ne_zero_of_lt hfuel)
    have hsorted := h.wanted_sorted lowerBound skipRounds
    rw [hsplit] at hsorted
    have hafter := (List.pairwise_append.mp hsorted).2.1
    have hc : c ∈ store.wanted lowerBound skipRounds := by
      rw [hsplit]
      exact List.mem_append_right _ List.mem_cons_self
    obtain ⟨hstored, -, rounds, hlisted, -⟩ := mem_wanted.mp hc
    have hread := h.readByIndex_eq_some.mpr ⟨hstored, rfl, rfl⟩
    have hpop := hfrontier.pop hafter
      (fun y _ z _ hkey => (Prod.mk.inj (toLex_inj.mp hkey)).2)
      (fun key => h.next_of_split hfits hsplit hlisted key)
    have hlength : (certificates ++ [c]).length = certificates.length + 1 := by simp
    have hmin := hfrontier.min? hafter
    unfold fetchLoop
    rw [hmin]
    simp only [fetchKey, ofLex_toLex, hread, Option.mem_def.mp hlisted, hlength, htime]
    by_cases hfull : certificates.length + 1 = maxItems
    · rw [if_pos hfull, show maxItems - certificates.length = 1 by omega]
      simp
    · have htake : maxItems - certificates.length =
          maxItems - (certificates.length + 1) + 1 := by omega
      rw [if_neg hfull, if_neg Bool.false_ne_true, if_neg (by omega), htake, List.take_succ_cons]
      have hsplit' : store.wanted lowerBound skipRounds = before ++ [c] ++ rest := by
        rw [hsplit, List.append_assoc, List.singleton_append]
      have hloop := ih hsplit' hpop (by simpa using hfuel) (hlength.trans_lt (by omega))
      rw [hlength, List.append_assoc, List.singleton_append] at hloop
      exact hloop

theorem fetchCertificates_eq (h : WellFormed P store) (codec : BitmapCodec)
    (htime : ∀ n, elapsed n = false) (request : FetchCertificatesRequest K)
    (hlower : (request.getBounds codec).1 < roundMax) :
    store.fetchCertificates codec elapsed request =
      some ((store.wanted (request.getBounds codec).1 (request.getBounds codec).2).take
        request.maxItems) := by
  unfold fetchCertificates
  by_cases hzero : request.maxItems = 0
  · rw [if_pos hzero, hzero, List.take_zero]
  · rw [if_neg hzero]
    exact h.fetchLoop_eq hfits htime (List.nil_append _).symm (h.frontier_start hfits hlower)
      (Nat.lt_succ_of_le h.length_wanted_le) (Nat.pos_of_ne_zero hzero)

end Bounded

omit [DecidableEq D] in
theorem wanted_congr {skipRounds' : Assoc K (Finset ℕ)}
    (h : ∀ k, skipRounds.lookup k = skipRounds'.lookup k) :
    store.wanted lowerBound skipRounds = store.wanted lowerBound skipRounds' := by
  unfold wanted
  rw [List.filter_congr fun c _ => decide_eq_decide.mpr ?_]
  rw [Wanted, Wanted, h]

theorem mem_before_of_isParent (h : WellFormed P store) {after : List (Certificate K D)}
    {p : Certificate K D}
    (hsplit : (store.wanted lowerBound skipRounds).take maxItems = before ++ c :: after)
    (hparent : p.IsParent c) (hp : p ∈ store.wanted lowerBound skipRounds) : p ∈ before := by
  have hsorted := h.wanted_sorted lowerBound skipRounds
  have hwanted : store.wanted lowerBound skipRounds =
      before ++ c :: (after ++ (store.wanted lowerBound skipRounds).drop maxItems) := by
    conv_lhs => rw [← List.take_append_drop maxItems (store.wanted lowerBound skipRounds), hsplit]
    simp
  rw [hwanted] at hsorted hp
  have hlt : fetchKey p < fetchKey c := by
    refine Prod.Lex.toLex_lt_toLex.mpr (.inl ?_)
    have hround := hparent.1
    dsimp only
    omega
  rcases List.mem_append.mp hp with hp | hp
  · exact hp
  · rcases List.mem_cons.mp hp with rfl | hp
    · exact absurd hlt (lt_irrefl _)
    · have hafter := List.rel_of_pairwise_cons (List.pairwise_append.mp hsorted).2.1 hp
      exact absurd hlt hafter.not_gt

end WellFormed

end IndexedStore

/-! ## The bounds of a request -/

namespace FetchCertificatesRequest

variable {codec : BitmapCodec}

/-- Each bitmap of the request is read back as it was written. -/
def ReadsBack (codec : BitmapCodec) (gcRound : ℕ) (skipRounds : Assoc K (Finset ℕ)) : Prop :=
  ∀ k rounds, skipRounds.lookup k = some rounds → ∀ bitmap, offsets gcRound rounds = some bitmap →
    codec.deserializeFrom (codec.serializeInto bitmap) = some bitmap

theorem image_add_offsets {rounds bitmap : Finset ℕ} (h : offsets gcRound rounds = some bitmap) :
    bitmap.image (gcRound + ·) = rounds := by
  unfold offsets at h
  split_ifs at h with hfits
  cases h
  rw [Finset.image_image]
  refine (Finset.image_congr fun v hv => ?_).trans Finset.image_id
  have hle := (hfits v hv).1
  simp only [Function.comp_apply, id_eq]
  omega

theorem getBounds_of_setBounds {request request' : FetchCertificatesRequest K}
    {skipRounds : Assoc K (Finset ℕ)} (hreads : ReadsBack codec gcRound skipRounds)
    (hset : request.setBounds codec gcRound skipRounds = some request') :
    (request'.getBounds codec).1 = gcRound ∧
      ∀ k, (request'.getBounds codec).2.lookup k = skipRounds.lookup k := by
  obtain ⟨serialized, hserialized, hrequest⟩ := Option.bind_eq_some_iff.mp hset
  cases hrequest
  refine ⟨rfl, fun k => ?_⟩
  have hsome : ∀ e ∈ skipRounds.entries, ((offsets gcRound e.2).map fun bitmap =>
      (e.1, codec.serializeInto bitmap)).isSome := by
    intro e he
    by_contra hnone
    have hfail : skipRounds.entries.mapM (fun e => (offsets gcRound e.2).map fun bitmap =>
        (e.1, codec.serializeInto bitmap)) = none :=
      List.mapM_eq_none_iff.mpr ⟨e, he, Option.not_isSome_iff_eq_none.mp hnone⟩
    rw [hserialized] at hfail
    cases hfail
  rw [List.mapM_eq_some_filterMap hsome, Option.some.injEq] at hserialized
  subst hserialized
  simp only [getBounds, List.filterMap_filterMap]
  -- Each entry is written and read back.
  have hentries : skipRounds.entries.filterMap (fun e =>
      ((offsets gcRound e.2).map fun bitmap => (e.1, codec.serializeInto bitmap)).bind fun e =>
        (codec.deserializeFrom e.2).map fun bitmap => (e.1, bitmap.image (gcRound + ·))) =
      skipRounds.entries.map fun e => (e.1, e.2) := by
    rw [← List.filterMap_eq_map]
    refine List.filterMap_congr fun e he => ?_
    obtain ⟨bitmap, hbitmap⟩ := Option.isSome_iff_exists.mp (Option.isSome_map ▸ hsome e he)
    rw [hbitmap, Option.map_some, Option.bind_some,
      hreads e.1 e.2 (Assoc.mem_entries_iff.mp he) bitmap hbitmap, Option.map_some,
      image_add_offsets hbitmap]
    rfl
  rw [hentries, Assoc.lookup_foldl_insert skipRounds.nodupKeys, AList.lookup_empty, Option.or_none]
  rfl

end FetchCertificatesRequest

namespace IndexedStore

/-- For rounds below the largest one, the answer has exactly the first of the stored certificates
that are asked for, by round and origin. In a store closed under parents, each parent above the
lower bound from a listed origin is returned before its child or the requestor has it. -/
theorem fetchCertificates_processable {codec : BitmapCodec} {P : Pool K D}
    (hfits : ∀ c ∈ P, c.round < roundMax) {written : List (Certificate K D)}
    (hpool : ∀ c ∈ written, c ∈ P) {gcRound : ℕ} (hlower : gcRound < roundMax) (maxItems : ℕ)
    {skipRounds : Assoc K (Finset ℕ)} {request : FetchCertificatesRequest K}
    (hreads : FetchCertificatesRequest.ReadsBack codec gcRound skipRounds)
    (hrequest : FetchCertificatesRequest.default.setBounds codec gcRound skipRounds = some request)
    {elapsed : ℕ → Bool} (htime : ∀ n, elapsed n = false) :
    let store := written.foldl write empty
    store.fetchCertificates codec elapsed (request.setMaxItems maxItems) =
        some ((store.wanted gcRound skipRounds).take maxItems) ∧
      ((∀ c ∈ written, ∀ p ∈ P, p.IsParent c → gcRound < p.round → p ∈ written) →
        ∀ before c after, (store.wanted gcRound skipRounds).take maxItems = before ++ c :: after →
          ∀ p ∈ P, p.IsParent c → gcRound < p.round →
            ∀ rounds ∈ skipRounds.lookup p.origin, p ∈ before ∨ p.round ∈ rounds) := by
  intro store
  obtain ⟨hwell, hmem⟩ := (WellFormed.empty P).writes hpool
  have hstored : ∀ c, c ∈ store.certificates ↔ c ∈ written := by
    intro c
    rw [hmem, or_iff_left]
    exact List.not_mem_nil
  constructor
  · obtain ⟨hbound, hlookup⟩ := FetchCertificatesRequest.getBounds_of_setBounds hreads hrequest
    have hbounds : (request.setMaxItems maxItems).getBounds codec = request.getBounds codec := rfl
    rw [hwell.fetchCertificates_eq hfits codec htime _ (by rwa [hbounds, hbound]), hbounds, hbound,
      WellFormed.wanted_congr hlookup]
    rfl
  · intro hclosed before c after hsplit p hp hparent hround rounds hrounds
    have hc : c ∈ written := by
      have htake : c ∈ (store.wanted gcRound skipRounds).take maxItems := by
        rw [hsplit]
        exact List.mem_append_right _ List.mem_cons_self
      exact (hstored c).mp (WellFormed.mem_wanted.mp (List.mem_of_mem_take htake)).1
    have hpwritten := hclosed c hc p hp hparent hround
    by_cases hskip : p.round ∈ rounds
    · exact .inr hskip
    · exact .inl (hwell.mem_before_of_isParent hsplit hparent
        (WellFormed.mem_wanted.mpr ⟨(hstored p).mpr hpwritten, hround, rounds, hrounds, hskip⟩))

end IndexedStore

namespace Sample

def littleEndian (n : ℕ) : List UInt8 := [UInt8.ofNat n, UInt8.ofNat (n / 256)]

def readPairs : List UInt8 → List ℕ
  | low :: high :: rest => (low.toNat + 256 * high.toNat) :: readPairs rest
  | _ => []

/-- The serialization of bitmaps with one array container at most. -/
def bitmapCodec : BitmapCodec where
  serializeInto bitmap :=
    let values := bitmap.sort
    if values = [] then [0x3a, 0x30, 0, 0, 0, 0, 0, 0]
    else [0x3a, 0x30, 0, 0, 1, 0, 0, 0, 0, 0] ++ littleEndian (values.length - 1) ++
      [16, 0, 0, 0] ++ values.flatMap littleEndian
  deserializeFrom bytes :=
    if bytes = [0x3a, 0x30, 0, 0, 0, 0, 0, 0] then some ∅
    else if bytes.take 10 = [0x3a, 0x30, 0, 0, 1, 0, 0, 0, 0, 0] then
      some (readPairs (bytes.drop 16)).toFinset
    else none

/-- The requestor has the first certificate of authority zero. -/
def skipRounds : Assoc (Fin 4) (Finset ℕ) :=
  [⟨0, {1}⟩, ⟨1, ∅⟩, ⟨2, ∅⟩, ⟨3, ∅⟩].toAList

def oneListed : Assoc (Fin 4) (Finset ℕ) := [⟨0, ∅⟩].toAList

def fetchRequest : FetchCertificatesRequest (Fin 4) :=
  (FetchCertificatesRequest.default.setBounds bitmapCodec 0 skipRounds).getD .default

def firstRounds : List (Certificate (Fin 4) ℕ) := roundOne ++ roundTwo

theorem firstRounds_pool : ∀ c ∈ firstRounds, c ∈ pool := fun _ hc =>
  List.mem_append_left _ (List.mem_append_left _ (List.mem_append_left _ hc))

theorem firstRounds_closed : ∀ c ∈ firstRounds, ∀ p ∈ pool, p.IsParent c → 0 < p.round →
    p ∈ firstRounds := by
  have hclosed : ∀ c ∈ firstRounds, ∀ p ∈ certificates, p.IsParent c → 0 < p.round →
      p ∈ firstRounds := by
    decide +kernel
  exact hclosed

theorem skipRounds_readsBack :
    FetchCertificatesRequest.ReadsBack bitmapCodec 0 skipRounds := by
  have hall : ∀ k : Fin 4, ∀ rounds ∈ skipRounds.lookup k,
      ∀ bitmap ∈ FetchCertificatesRequest.offsets 0 rounds,
        bitmapCodec.deserializeFrom (bitmapCodec.serializeInto bitmap) = some bitmap := by
    decide +kernel
  exact fun k rounds hrounds bitmap hbitmap => hall k rounds hrounds bitmap hbitmap

end Sample

/-- The first four certificates of two rounds that a requestor lacks. -/
theorem IndexedStore.fetchCertificates_processable_sample :
    let store := Sample.firstRounds.foldl IndexedStore.write IndexedStore.empty
    let answer := store.fetchCertificates Sample.bitmapCodec (fun _ => false)
      (Sample.fetchRequest.setMaxItems 4)
    answer.map (fun certs => certs.map Certificate.digest) = some [11, 12, 13, 20] ∧
      answer = some ((store.wanted 0 Sample.skipRounds).take 4) ∧
      ∀ before c after, (store.wanted 0 Sample.skipRounds).take 4 = before ++ c :: after →
        ∀ p ∈ Sample.pool, p.IsParent c → 0 < p.round →
          ∀ rounds ∈ Sample.skipRounds.lookup p.origin, p ∈ before ∨ p.round ∈ rounds := by
  intro store answer
  have hrequest : FetchCertificatesRequest.default.setBounds Sample.bitmapCodec 0
      Sample.skipRounds = some Sample.fetchRequest := by
    decide +kernel
  have hfits : ∀ c ∈ Sample.certificates, c.round < roundMax := by decide +kernel
  obtain ⟨heq, hparents⟩ := fetchCertificates_processable (P := Sample.pool) hfits
    Sample.firstRounds_pool (by decide) 4 Sample.skipRounds_readsBack hrequest (fun _ => rfl)
  exact ⟨by decide +kernel, heq, hparents Sample.firstRounds_closed⟩

/-- A request that lists one authority is answered without the other parents of its second
certificate, and one for rounds above the largest with a certificate. -/
theorem IndexedStore.fetchCertificates_unlisted_parent :
    let store := Sample.firstRounds.foldl IndexedStore.write IndexedStore.empty
    let answer (gcRound maxItems : ℕ) :=
      (FetchCertificatesRequest.default.setBounds Sample.bitmapCodec gcRound
        Sample.oneListed).bind fun request =>
          store.fetchCertificates Sample.bitmapCodec (fun _ => false) (request.setMaxItems maxItems)
    (∀ c ∈ Sample.firstRounds, ∀ p ∈ Sample.pool, p.IsParent c → 0 < p.round →
      p ∈ Sample.firstRounds) ∧
      (∃ certs ∈ answer 0 4, ∃ c ∈ certs, ∃ p ∈ Sample.firstRounds, p.IsParent c ∧ 0 < p.round ∧
        p ∉ certs ∧ Sample.oneListed.lookup p.origin = none) ∧
      answer roundMax 1 = some [Sample.certificate 0 1 []] := by
  intro store answer
  exact ⟨Sample.firstRounds_closed, by decide +kernel, by decide +kernel⟩

end Narwhal

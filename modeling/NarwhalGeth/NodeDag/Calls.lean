import Mathlib.Data.Multiset.DershowitzManna
import NarwhalGeth.Lib.BreadthFirst
import NarwhalGeth.NodeDag.Compression

/-!
# Interleaved calls

In every interleaving of calls, the parents of a node are the ones at the start or its closest
incompressible ancestors, and a call returns these ancestors. Every access lowers a measure, so the
calls end. A breadth-first traversal walks along the closest incompressible ancestors.
-/

namespace NodeDag

variable {N T : Type} [DecidableEq N] {g : Graph N T} {result ns : List N}

namespace Task

/-! ## What calls are going to return -/

/-- Calls that are going to return the closest incompressible ancestors of some nodes. -/
inductive Serves (closest : N → List N) (g : Graph N T) : Task N → List N → Prop
  | call (n : N) : Serves closest g (.call n) [n]
  | readTrivial {n : N} (stored : (g n).parents = closest n) :
      Serves closest g (.readTrivial n) [n]
  | readParents {n : N} (nodup : (closest n).Nodup) : Serves closest g (.readParents n) [n]
  | await {n : N} {incompressibles ns : List N} {t : Task N} (calls : Serves closest g t ns)
      (eq : (incompressibles ++ ns.flatMap closest).eraseDups = closest n) :
      Serves closest g (.await n incompressibles t) [n]
  | readStored {n : N} (stored : (g n).parents = closest n) :
      Serves closest g (.readStored n) [n]
  | par {l r : Task N} {ns ms : List N} (left : Serves closest g l ns)
      (right : Serves closest g r ms) : Serves closest g (.par l r) (ns ++ ms)
  | done (ns : List N) : Serves closest g (.done (ns.flatMap closest)) ns

variable {closest : N → List N} {g g' : Graph N T} {t : Task N} {ns : List N} {s : Multiset ℕ}

theorem serves_fork (closest : N → List N) (g : Graph N T) (ns : List N) :
    Serves closest g (fork ns) ns := by
  induction ns with
  | nil => exact .done []
  | cons n ns ih => exact .par (.call n) ih

theorem Serves.mono (h : Serves closest g t ns)
    (hstored : ∀ n, (g n).parents = closest n → (g' n).parents = closest n) :
    Serves closest g' t ns := by
  induction h with
  | call n => exact .call n
  | readTrivial stored => exact .readTrivial (hstored _ stored)
  | readParents nodup => exact .readParents nodup
  | await _ eq ih => exact .await ih eq
  | readStored stored => exact .readStored (hstored _ stored)
  | par _ _ ihl ihr => exact .par ihl ihr
  | done ns => exact .done ns

theorem Serves.result_eq (h : Serves closest g (.done result) ns) :
    result = ns.flatMap closest := by
  cases h
  rfl

variable {g₀ : Graph N T} {rank : N → ℕ} {c c' : Graph N T × Task N}

/-- The parents that a call took apart, with the compressible ones served, are the closest
incompressible ancestors, even if another call has rewritten the node. -/
theorem eraseDups_snapshot (hclosest : g.IsClosest closest) {n : N} (hnodup : (closest n).Nodup) :
    ((g.rawParentsSnapshot n).filter (fun p => !(g p).compressible) ++
      ((g.rawParentsSnapshot n).filter fun p => (g p).compressible).flatMap closest).eraseDups =
      closest n := by
  have heq := hclosest n
  unfold Graph.rawParentsSnapshot
  unfold Graph.bypass at heq
  split_ifs at heq with htrivial
  · rw [Graph.isTrivial_iff] at htrivial
    rw [List.filter_eq_self.mpr (fun p hp => by rw [htrivial p hp]; rfl),
      List.filter_eq_nil_iff.mpr (fun p hp => by rw [htrivial p hp]; exact Bool.false_ne_true),
      List.flatMap_nil, List.append_nil, ← heq]
    exact eraseDups_eq_self hnodup
  · exact heq.symm

/-- One access: the graph stays a compressed one, what was stored stays, and the calls go on to
return what they were going to. -/
theorem Step.serves (h : Step c c') (hclosest : g₀.IsClosest closest) (hrank : g₀.Ranked rank)
    (hg : Graph.Compressed g₀ closest c.1) (hs : Serves closest c.1 c.2 ns) :
    Graph.Compressed g₀ closest c'.1 ∧ Serves closest c'.1 c'.2 ns ∧
      ∀ n, (c.1 n).parents = closest n → (c'.1 n).parents = closest n := by
  induction h generalizing ns with
  | trivial htrivial =>
    cases hs
    refine ⟨hg, .readTrivial ?_, fun _ => id⟩
    rw [hg.isClosest hclosest hrank, Graph.bypass, if_pos htrivial]
  | compress htrivial =>
    cases hs
    refine ⟨hg, .readParents ?_, fun _ => id⟩
    rw [hg.isClosest hclosest hrank, Graph.bypass, htrivial, if_neg Bool.false_ne_true]
    exact nodup_eraseDups _
  | readTrivial =>
    cases hs with
    | readTrivial stored =>
      rename_i g n
      have hresult : g.rawParentsSnapshot n = [n].flatMap closest := by
        rw [List.flatMap_singleton]
        exact stored
      rw [hresult]
      exact ⟨hg, .done _, fun _ => id⟩
  | readParents =>
    cases hs with
    | readParents nodup =>
      have heq := eraseDups_snapshot (hg.isClosest hclosest hrank) nodup
      exact ⟨hg, .await (serves_fork _ _ _) heq, fun _ => id⟩
  | await _ ih =>
    cases hs with
    | await calls eq =>
      obtain ⟨hg', hs', hstored⟩ := ih hg calls
      exact ⟨hg', .await hs' eq, hstored⟩
  | store =>
    cases hs with
    | await calls eq =>
      rename_i g n incompressibles newParents ms
      rw [calls.result_eq, eq]
      refine ⟨hg.storeParents n, .readStored (Graph.storeParents_self _ _ _), fun m hm => ?_⟩
      by_cases hmn : m = n
      · subst hmn
        exact Graph.storeParents_self _ _ _
      · rwa [Graph.storeParents_of_ne _ _ hmn]
  | readStored =>
    cases hs with
    | readStored stored =>
      rename_i g n
      have hresult : g.rawParentsSnapshot n = [n].flatMap closest := by
        rw [List.flatMap_singleton]
        exact stored
      rw [hresult]
      exact ⟨hg, .done _, fun _ => id⟩
  | left _ ih =>
    cases hs with
    | par left right =>
      obtain ⟨hg', hs', hstored⟩ := ih hg left
      exact ⟨hg', .par hs' (right.mono hstored), hstored⟩
  | right _ ih =>
    cases hs with
    | par left right =>
      obtain ⟨hg', hs', hstored⟩ := ih hg right
      exact ⟨hg', .par (left.mono hstored) hs', hstored⟩
  | join =>
    cases hs with
    | par left right =>
      rw [left.result_eq, right.result_eq, ← List.flatMap_append]
      exact ⟨hg, .done _, fun _ => id⟩

theorem Runs.serves (h : Runs g₀ ns c) (hclosest : g₀.IsClosest closest) (hrank : g₀.Ranked rank) :
    Graph.Compressed g₀ closest c.1 ∧ Serves closest c.1 c.2 ns := by
  induction h with
  | refl => exact ⟨.refl g₀ closest, serves_fork closest g₀ ns⟩
  | tail _ hstep ih =>
    obtain ⟨hg, hs, -⟩ := hstep.serves hclosest hrank ih.1 ih.2
    exact ⟨hg, hs⟩

/-! ## Termination -/

/-- The accesses that calls have before them: each call counts with its rank, above all the calls
that it can start. -/
def weight (rank : N → ℕ) : Task N → Multiset ℕ
  | call n => {4 * rank n + 3}
  | readParents n => {4 * rank n + 2}
  | await n _ t => weight rank t + {4 * rank n + 1}
  | readTrivial n => {4 * rank n}
  | readStored n => {4 * rank n}
  | par l r => weight rank l + weight rank r + {0}
  | done _ => 0

theorem lt_singleton {k : ℕ} (h : ∀ j ∈ s, j < k) :
    s.IsDershowitzMannaLT {k} :=
  ⟨0, s, {k}, Multiset.singleton_ne_zero k, (zero_add s).symm, (zero_add {k}).symm,
    fun j hj => ⟨k, Multiset.mem_singleton_self k, h j hj⟩⟩

theorem add_lt {t : Multiset ℕ} (u : Multiset ℕ) (h : s.IsDershowitzMannaLT t) :
    (s + u).IsDershowitzMannaLT (t + u) := by
  obtain ⟨x, y, z, hz, rfl, rfl, hlt⟩ := h
  exact ⟨x + u, y, z, hz, add_right_comm x y u, add_right_comm x z u, hlt⟩

omit [DecidableEq N] in
theorem weight_fork_lt {k : ℕ} (h : ∀ n ∈ ns, rank n < k) :
    ∀ j ∈ weight rank (fork ns), j < 4 * k + 1 := by
  induction ns with
  | nil => exact fun j hj => absurd hj (Multiset.notMem_zero j)
  | cons n ns ih =>
    rw [List.forall_mem_cons] at h
    intro j hj
    rw [fork, weight, weight, Multiset.mem_add, Multiset.mem_add, Multiset.mem_singleton,
      Multiset.mem_singleton] at hj
    obtain (hj | hj) | hj := hj
    · omega
    · exact ih h.2 j hj
    · omega

theorem Step.weight_lt (h : Step c c') (hrank : c.1.Ranked rank) :
    (weight rank c'.2).IsDershowitzMannaLT (weight rank c.2) := by
  -- A call that stands alone goes on to a smaller access, or ends.
  have hnext : ∀ {j k : ℕ}, j < k → ({j} : Multiset ℕ).IsDershowitzMannaLT {k} :=
    fun hlt => lt_singleton (by simpa using hlt)
  have hend : ∀ {k : ℕ}, (0 : Multiset ℕ).IsDershowitzMannaLT {k} :=
    lt_singleton (by simp)
  induction h with
  | trivial => exact hnext (by omega)
  | compress => exact hnext (by omega)
  | readTrivial => exact hend
  | readParents =>
    rename_i g n
    refine lt_singleton fun j hj => ?_
    rcases Multiset.mem_add.mp hj with hj | hj
    · have hlt := weight_fork_lt (fun p hp => hrank n p (List.mem_filter.mp hp).1) j hj
      omega
    · rw [Multiset.mem_singleton.mp hj]
      omega
  | await _ ih => exact add_lt _ (ih hrank)
  | store =>
    rw [weight, weight, weight, zero_add]
    exact hnext (by omega)
  | readStored => exact hend
  | left _ ih => exact add_lt _ (add_lt _ (ih hrank))
  | right _ ih =>
    rename_i l r r' _
    rw [weight, weight, add_comm (weight rank l), add_comm (weight rank l)]
    exact add_lt _ (add_lt _ (ih hrank))
  | join =>
    rw [weight, weight, weight, weight, zero_add, zero_add]
    exact hend

theorem exists_step (g : Graph N T) (t : Task N) :
    (∃ result, t = done result) ∨ ∃ c, Step (g, t) c := by
  induction t with
  | call n =>
    cases htrivial : g.isTrivial n with
    | true => exact .inr ⟨_, .trivial htrivial⟩
    | false => exact .inr ⟨_, .compress htrivial⟩
  | readTrivial n => exact .inr ⟨_, .readTrivial⟩
  | readParents n => exact .inr ⟨_, .readParents⟩
  | await n incompressibles t ih =>
    obtain ⟨result, rfl⟩ | ⟨c, hstep⟩ := ih
    · exact .inr ⟨_, .store⟩
    · exact .inr ⟨_, .await hstep⟩
  | readStored n => exact .inr ⟨_, .readStored⟩
  | par l r ihl ihr =>
    obtain ⟨a, rfl⟩ | ⟨c, hstep⟩ := ihl
    · obtain ⟨b, rfl⟩ | ⟨c, hstep⟩ := ihr
      · exact .inr ⟨_, .join⟩
      · exact .inr ⟨_, .right hstep⟩
    · exact .inr ⟨_, .left hstep⟩
  | done result => exact .inl ⟨result, rfl⟩

/-- Calls that have begun can go on until they return, with the closest incompressible ancestors. -/
theorem Runs.exists_done (h : Runs g₀ ns c) (hclosest : g₀.IsClosest closest)
    (hrank : g₀.Ranked rank) :
    ∃ g', Relation.ReflTransGen Step c (g', done (ns.flatMap closest)) := by
  have hacc := Multiset.wellFounded_isDershowitzMannaLT.apply (weight rank c.2)
  generalize hw : weight rank c.2 = w at hacc
  induction hacc generalizing c with
  | intro w _ ih =>
    subst hw
    obtain ⟨hg, hs⟩ := h.serves hclosest hrank
    obtain ⟨g, t⟩ := c
    obtain ⟨result, rfl⟩ | ⟨c', hstep⟩ := exists_step g t
    · rw [hs.result_eq]
      exact ⟨g, .refl⟩
    · have hlt := hstep.weight_lt (hg.ranked hclosest hrank)
      obtain ⟨g', hrest⟩ := ih _ hlt (h.tail hstep) rfl
      exact ⟨g', .head hstep hrest⟩

theorem not_forall_step (hclosest : g₀.IsClosest closest) (hrank : g₀.Ranked rank)
    {f : ℕ → Graph N T × Task N} (hzero : f 0 = (g₀, fork ns)) :
    ¬∀ i, Step (f i) (f (i + 1)) := by
  intro hstep
  have hruns : ∀ i, Runs g₀ ns (f i) := by
    intro i
    induction i with
    | zero =>
      rw [hzero]
      exact .refl
    | succ i ih => exact ih.tail (hstep i)
  have : IsWellFounded (Multiset ℕ) Multiset.IsDershowitzMannaLT :=
    ⟨Multiset.wellFounded_isDershowitzMannaLT⟩
  obtain ⟨i, hnot⟩ := WellFounded.not_rel_apply_succ
    (r := Multiset.IsDershowitzMannaLT) fun i => weight rank (f i).2
  obtain ⟨hg, -⟩ := (hruns i).serves hclosest hrank
  exact hnot ((hstep i).weight_lt (hg.ranked hclosest hrank))

end Task

/-! ## Traversals -/

/-- What `Bft::next` yields, call after call, on a graph that the calls rewrite. Other calls may run
between them. -/
inductive Bfs {H : Type} [DecidableEq H] (hash : N → H) :
    Graph N T → BreadthFirst.Search N H → Graph N T → List N → Prop
  | done (g : Graph N T) (visited : List H) : Bfs hash g ⟨[], visited⟩ g []
  | next {g g₁ g₂ : Graph N T} {n : N} {queue children ys : List N} {visited : List H}
      (call : g.Parents n g₁ children)
      (rest : Bfs hash g₁ (children.foldl (BreadthFirst.push hash) ⟨queue, visited⟩) g₂ ys) :
      Bfs hash g ⟨n :: queue, visited⟩ g₂ (n :: ys)
  | other {g g₁ g₂ : Graph N T} {s : BreadthFirst.Search N H} {ns result ys : List N}
      (calls : Task.Runs g ns (g₁, .done result)) (rest : Bfs hash g₁ s g₂ ys) :
      Bfs hash g s g₂ ys

section Traversal

variable {H : Type} [DecidableEq H] {hash : N → H} {closest : N → List N} {rank : N → ℕ}
  {g g' : Graph N T} {s : BreadthFirst.Search N H} {ys : List N}

/-- What calls return, and that the closest incompressible ancestors stay what they are. -/
theorem Task.Runs.done (h : Task.Runs g ns (g', .done result)) (hclosest : g.IsClosest closest)
    (hrank : g.Ranked rank) :
    g'.IsClosest closest ∧ g'.Ranked rank ∧ result = ns.flatMap closest := by
  obtain ⟨hg, hs⟩ := h.serves hclosest hrank
  exact ⟨hg.isClosest hclosest hrank, hg.ranked hclosest hrank, hs.result_eq⟩

theorem Bfs.yields (h : Bfs hash g s g' ys) (hclosest : g.IsClosest closest)
    (hrank : g.Ranked rank) : BreadthFirst.Yields hash closest s ys := by
  induction h with
  | done g visited => exact .done visited
  | next call _ ih =>
    obtain ⟨hclosest', hrank', heq⟩ := Task.Runs.done call hclosest hrank
    rw [List.flatMap_singleton] at heq
    subst heq
    exact .step (ih hclosest' hrank')
  | other calls _ ih =>
    obtain ⟨hclosest', hrank', -⟩ := calls.done hclosest hrank
    exact ih hclosest' hrank'

theorem exists_bfs (h : BreadthFirst.Yields hash closest s ys) (hclosest : g.IsClosest closest)
    (hrank : g.Ranked rank) : ∃ g', Bfs hash g s g' ys := by
  induction h generalizing g with
  | done visited => exact ⟨g, .done g visited⟩
  | @step n queue ys visited _ ih =>
    have hbegin : Task.Runs g [n] (g, Task.fork [n]) := .refl
    obtain ⟨g₁, hcall⟩ := hbegin.exists_done hclosest hrank
    obtain ⟨hclosest', hrank', -⟩ := Task.Runs.done hcall hclosest hrank
    obtain ⟨g', hrest⟩ := ih hclosest' hrank'
    rw [List.flatMap_singleton] at hcall
    exact ⟨g', .next hcall hrest⟩

/-- The incompressible ancestors are what the closest ones lead to. -/
theorem Graph.IsClosest.above_iff (hclosest : g.IsClosest closest) (hrank : g.Ranked rank)
    {n m : N} : Ancestry.Above closest n m ↔ m ∈ g.incompressibleAncestors n := by
  have hrank' : ∀ n, ∀ p ∈ closest n, rank p < rank n := fun _ _ hp => hclosest.rank_lt hrank hp
  rw [Ancestry.eq_ancestors hrank' (hclosest.covers hrank) n]
  refine ⟨fun h => ⟨?_, h⟩, And.right⟩
  cases h with
  | single hm => exact hclosest.incompressible hrank hm
  | tail _ hm => exact hclosest.incompressible hrank hm

end Traversal

/-! ## Histories -/

/-- What happens between traversals: a node is marked, or calls run until they have returned. -/
inductive Change : Graph N T → Graph N T → Prop
  | mark (g : Graph N T) (n : N) : Change g (g.makeCompressible n).1
  | calls {g g' : Graph N T} {ns result : List N} (h : Task.Runs g ns (g', .done result)) :
      Change g g'

theorem Graph.makeCompressible_parents (g : Graph N T) (n m : N) :
    ((g.makeCompressible n).1 m).parents = (g m).parents := by
  unfold Graph.makeCompressible
  dsimp only
  by_cases h : m = n
  · subst h
    rw [Function.update_self]
  · rw [Function.update_of_ne h]

theorem Change.ranked {g' : Graph N T} {rank : N → ℕ} (h : Change g g') (hrank : g.Ranked rank) :
    g'.Ranked rank := by
  cases h with
  | mark n =>
    intro m p hp
    rw [Graph.makeCompressible_parents] at hp
    exact hrank m p hp
  | calls h =>
    obtain ⟨closest, hclosest⟩ := Graph.exists_isClosest hrank
    exact (h.done hclosest hrank).2.1

theorem exists_ranked [Finite N] {g₀ : Graph N T}
    (hacyclic : ∀ n, ¬Ancestry.Above (fun n => (g₀ n).parents) n n)
    (h : Relation.ReflTransGen Change g₀ g) : ∃ rank, g.Ranked rank := by
  obtain ⟨rank, hrank⟩ := Ancestry.exists_rank hacyclic
  refine ⟨rank, ?_⟩
  induction h with
  | refl => exact hrank
  | tail _ hchange ih => exact hchange.ranked ih

/-- In a finite acyclic graph, calls on any nodes in any interleaving keep the incompressible
ancestors of every node, return, and return incompressible nodes only. A traversal yields the start
node and then each of its incompressible ancestors once. -/
theorem compression_keeps_ancestors [Finite N] {H : Type} [DecidableEq H] {hash : N → H}
    (hinj : Function.Injective hash) {g₀ g : Graph N T}
    (hacyclic : ∀ n, ¬Ancestry.Above (fun n => (g₀ n).parents) n n)
    (hreach : Relation.ReflTransGen Change g₀ g) :
    (∀ ns c, Task.Runs g ns c →
      (∀ n, c.1.incompressibleAncestors n = g.incompressibleAncestors n) ∧
      (∀ result, c.2 = .done result → ∀ m ∈ result, (c.1 m).compressible = false) ∧
      ∃ g' result, Relation.ReflTransGen Task.Step c (g', .done result)) ∧
    (∀ ns (f : ℕ → Graph N T × Task N), f 0 = (g, Task.fork ns) →
      ¬∀ i, Task.Step (f i) (f (i + 1))) ∧
    ∀ start, (∃ g' ys, Bfs hash g ⟨[start], []⟩ g' ys) ∧
      ∀ g' ys, Bfs hash g ⟨[start], []⟩ g' ys →
        ∃ rest, ys = start :: rest ∧ ys.Nodup ∧
          ∀ m, m ∈ rest ↔ m ∈ g.incompressibleAncestors start := by
  obtain ⟨rank, hrank⟩ := exists_ranked hacyclic hreach
  obtain ⟨closest, hclosest⟩ := Graph.exists_isClosest hrank
  refine ⟨fun ns c hruns => ⟨fun n => ?_, ?_, ?_⟩, fun ns f hzero => ?_,
    fun start => ⟨?_, fun g' ys hbfs => ?_⟩⟩
  · obtain ⟨hg, -⟩ := hruns.serves hclosest hrank
    exact hg.incompressibleAncestors_eq hclosest hrank n
  · intro result hdone m hm
    obtain ⟨hg, hs⟩ := hruns.serves hclosest hrank
    rw [hdone] at hs
    rw [hs.result_eq, List.mem_flatMap] at hm
    obtain ⟨n, -, hm⟩ := hm
    rw [hg.compressible]
    exact hclosest.incompressible hrank hm
  · obtain ⟨g', hrest⟩ := hruns.exists_done hclosest hrank
    exact ⟨g', _, hrest⟩
  · exact Task.not_forall_step hclosest hrank hzero
  · obtain ⟨ys, hys⟩ : ∃ ys, BreadthFirst.Yields hash closest ⟨[start], []⟩ ys :=
      BreadthFirst.exists_yields hinj [start] []
    obtain ⟨g', hbfs⟩ := exists_bfs hys hclosest hrank
    exact ⟨g', ys, hbfs⟩
  · obtain ⟨rest, rfl, hnodup, hmem⟩ := (hbfs.yields hclosest hrank).ancestors hinj
    refine ⟨rest, rfl, List.nodup_cons.mpr ⟨fun hstart => ?_, hnodup⟩, fun m => ?_⟩
    · have habove := (hclosest.above_iff hrank).mp ((hmem start).mp hstart)
      exact absurd (Ancestry.rank_lt_of_above hrank habove.2) (lt_irrefl _)
    · rw [hmem m, hclosest.above_iff hrank]

/-- A node, its parent and the parent of its parent. -/
def chain : Graph (Option Bool) Unit
  | none => ⟨[some true], false, ()⟩
  | some true => ⟨[some false], false, ()⟩
  | some false => ⟨[], false, ()⟩

def chainRank : Option Bool → ℕ
  | none => 2
  | some true => 1
  | some false => 0

theorem chain_ranked : ∀ n, ∀ p ∈ (chain n).parents, chainRank p < chainRank n := by
  decide

/-- The parent is marked: the traversal goes on to its parent. -/
theorem compression_keeps_ancestors_chain :
    Relation.ReflTransGen Change chain (chain.makeCompressible (some true)).1 ∧
      ∀ g' ys, Bfs id (chain.makeCompressible (some true)).1 ⟨[none], []⟩ g' ys →
        ∃ rest, ys = none :: rest ∧ ys.Nodup ∧ ∀ m, m ∈ rest ↔
          m ∈ (chain.makeCompressible (some true)).1.incompressibleAncestors none := by
  have hacyclic : ∀ n, ¬Ancestry.Above (fun n => (chain n).parents) n n :=
    fun n habove => lt_irrefl _ (Ancestry.rank_lt_of_above chain_ranked habove)
  have hreach : Relation.ReflTransGen Change chain (chain.makeCompressible (some true)).1 :=
    .single (.mark chain (some true))
  exact ⟨hreach,
    ((compression_keeps_ancestors Function.injective_id hacyclic hreach).2.2 none).2⟩

end NodeDag

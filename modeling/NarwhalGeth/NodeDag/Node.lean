import Mathlib.Data.List.Basic
import Mathlib.Logic.Function.Basic
import Mathlib.Logic.Relation

/-!
# The nodes of the memory-conscious DAG

A node points to its parents, and may be marked as compressible. `Node::parents` bypasses the
compressible parents of a node and rewrites it: it calls itself on them in parallel. Each access to
the shared parents of a node is atomic, and calls interleave between the accesses.
-/

namespace NodeDag

variable {N T : Type} [DecidableEq N]

structure Node (N T : Type) where
  parents : List N
  compressible : Bool
  value : T

/-- The nodes that the pointers refer to. -/
abbrev Graph (N T : Type) := N → Node N T

namespace Graph

variable (g : Graph N T)

omit [DecidableEq N] in
/-- Whether the parents of a node are all incompressible. -/
def isTrivial (n : N) : Bool := (g n).parents.all fun p => !(g p).compressible

omit [DecidableEq N] in
def rawParentsSnapshot (n : N) : List N := (g n).parents

/-- Marks a node, and whether it was not marked before. -/
def makeCompressible (n : N) : Graph N T × Bool :=
  (Function.update g n { g n with compressible := true }, !(g n).compressible)

def storeParents (n : N) (parents : List N) : Graph N T :=
  Function.update g n { g n with parents }

@[simp] theorem storeParents_compressible (n : N) (parents : List N) (m : N) :
    (g.storeParents n parents m).compressible = (g m).compressible := by
  unfold storeParents
  by_cases h : m = n
  · subst h
    rw [Function.update_self]
  · rw [Function.update_of_ne h]

@[simp] theorem storeParents_value (n : N) (parents : List N) (m : N) :
    (g.storeParents n parents m).value = (g m).value := by
  unfold storeParents
  by_cases h : m = n
  · subst h
    rw [Function.update_self]
  · rw [Function.update_of_ne h]

theorem storeParents_self (n : N) (parents : List N) :
    (g.storeParents n parents n).parents = parents := by
  rw [storeParents, Function.update_self]

theorem storeParents_of_ne {n m : N} (parents : List N) (h : m ≠ n) :
    (g.storeParents n parents m).parents = (g m).parents := by
  rw [storeParents, Function.update_of_ne h]

end Graph

/-! ## Calls -/

/-- The progress of calls of `Node::parents`, by the access to shared memory that comes next. -/
inductive Task (N : Type) where
  /-- The check whether the node is trivial. -/
  | call (n : N)
  /-- The node was trivial, and its parents are returned. -/
  | readTrivial (n : N)
  /-- The node was not trivial, and its parents are taken apart. -/
  | readParents (n : N)
  /-- The calls on the compressible parents run, the others are kept. -/
  | await (n : N) (incompressibles : List N) (calls : Task N)
  /-- The new parents are stored, and returned by one more read. -/
  | readStored (n : N)
  /-- Two calls, or groups of calls, that run in parallel. Their results are joined in order. -/
  | par (left right : Task N)
  | done (result : List N)

namespace Task

/-- Calls on some nodes that run in parallel. -/
def fork : List N → Task N
  | [] => done []
  | n :: ns => par (call n) (fork ns)

/-- One access of some call to the graph, or the end of a group of calls. -/
inductive Step : Graph N T × Task N → Graph N T × Task N → Prop
  | trivial {g : Graph N T} {n : N} (h : g.isTrivial n = true) :
      Step (g, call n) (g, readTrivial n)
  | compress {g : Graph N T} {n : N} (h : g.isTrivial n = false) :
      Step (g, call n) (g, readParents n)
  | readTrivial {g : Graph N T} {n : N} :
      Step (g, .readTrivial n) (g, done (g.rawParentsSnapshot n))
  | readParents {g : Graph N T} {n : N} :
      Step (g, .readParents n) (g, .await n
        ((g.rawParentsSnapshot n).filter fun p => !(g p).compressible)
        (fork ((g.rawParentsSnapshot n).filter fun p => (g p).compressible)))
  | await {g g' : Graph N T} {n : N} {incompressibles : List N} {t t' : Task N}
      (h : Step (g, t) (g', t')) :
      Step (g, .await n incompressibles t) (g', .await n incompressibles t')
  | store {g : Graph N T} {n : N} {incompressibles newParents : List N} :
      Step (g, .await n incompressibles (done newParents))
        (g.storeParents n (incompressibles ++ newParents).eraseDups, .readStored n)
  | readStored {g : Graph N T} {n : N} :
      Step (g, .readStored n) (g, done (g.rawParentsSnapshot n))
  | left {g g' : Graph N T} {l l' r : Task N} (h : Step (g, l) (g', l')) :
      Step (g, par l r) (g', par l' r)
  | right {g g' : Graph N T} {l r r' : Task N} (h : Step (g, r) (g', r')) :
      Step (g, par l r) (g', par l r')
  | join {g : Graph N T} {a b : List N} :
      Step (g, par (done a) (done b)) (g, done (a ++ b))

/-- What calls on some nodes can do in any interleaving of their accesses. -/
def Runs (g : Graph N T) (ns : List N) : Graph N T × Task N → Prop :=
  Relation.ReflTransGen Step (g, fork ns)

end Task

/-- A call of `Node::parents` that returns, with the graph that it leaves. -/
def Graph.Parents (g : Graph N T) (n : N) (g' : Graph N T) (result : List N) : Prop :=
  Task.Runs g [n] (g', .done result)

end NodeDag

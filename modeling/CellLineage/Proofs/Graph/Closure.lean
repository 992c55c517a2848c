import CellLineage.Graph.Reach
import CellLineage.Proofs.Graph.Acyclic

/-!
# Closure queries

All that a cell was derived from, and all that was derived from it, are found by the same search
through the cells of the graph. In a reachable graph every edge leads to a cell of the graph, so
the search is cut short nowhere: what it finds is what a path of edges leads to, with cycles or
without (`Graph.mem_allDependencies_iff_path`, `Graph.mem_allDependents_iff_path`). An edge is
recorded on both ends, so a path of dependencies is a path of dependents read backwards, and the
two queries mirror each other (`Graph.closure_mirrors`).

## Main definitions

* `Graph.PassesTo`: the steps of the search for dependents.

## Main results

* `Graph.closure_exact_and_dual`: both queries in every reachable graph.
-/

namespace CellLineage

open Relation

/-- If no step leads out of the domain, a path from a cell of the domain stays in it. -/
theorem reachIn_singleton_iff {next : CellId → List CellId} {domain : Std.ExtTreeSet CellId}
    (hnext : ∀ a b, b ∈ next a → b ∈ domain) {a b : CellId} :
    ReachIn next domain [a] b ↔ a ∈ domain ∧ ReflTransGen (fun x y => y ∈ next x) a b := by
  constructor
  · intro h
    induction h with
    | seed hs hd =>
      obtain rfl := List.mem_singleton.1 hs
      exact ⟨hd, .refl⟩
    | step _ hn _ ih => exact ⟨ih.1, ih.2.tail hn⟩
  · rintro ⟨hd, h⟩
    induction h with
    | refl => exact .seed List.mem_cons_self hd
    | tail _ hn ih => exact .step ih hn (hnext _ _ hn)

namespace Graph

/-- One cell is recorded among those derived from another. -/
def PassesTo (g : Graph) (a b : CellId) : Prop :=
  b ∈ (g.cell a).dependents

variable {g : Graph} {a b : CellId}

/-- **The search for dependencies** finds what a path of dependencies leads to. -/
theorem mem_allDependencies_iff_path (hg : g.IsLinked) :
    b ∈ g.allDependencies a ↔ a ∈ g.nodes ∧ ReflTransGen g.DependsOn a b := by
  rw [allDependencies, mem_sortedNames, mem_gather_iff,
    reachIn_singleton_iff fun _ _ h => mem_allIds.2 (hg.mem_nodes h), mem_allIds]
  rfl

/-- **The search for dependents** finds what a path of dependents leads to. -/
theorem mem_allDependents_iff_path (hg : g.IsLinked) :
    b ∈ g.allDependents a ↔ a ∈ g.nodes ∧ ReflTransGen g.PassesTo a b := by
  rw [allDependents, mem_sortedNames, mem_gather_iff, reachIn_singleton_iff
    fun _ _ h => mem_allIds.2 (hg.mem_nodes_of_mem_dependents h).2, mem_allIds]
  rfl

/-- A path of dependents is a path of dependencies, read backwards. -/
theorem path_passesTo_iff (hg : g.IsLinked) :
    ReflTransGen g.PassesTo b a ↔ ReflTransGen g.DependsOn a b := by
  have hswap : g.PassesTo = Function.swap g.DependsOn :=
    funext₂ fun x y => propext (hg.symmetric x y)
  rw [hswap, reflTransGen_swap]

/-- A path of dependencies that begins at a cell of the graph ends at one. -/
theorem mem_nodes_of_path (hg : g.IsLinked) (ha : a ∈ g.nodes)
    (h : ReflTransGen g.DependsOn a b) : b ∈ g.nodes := by
  cases h with
  | refl => exact ha
  | tail _ h => exact hg.mem_nodes h

/-- A path of dependencies that ends at a cell of the graph begins at one. -/
theorem mem_nodes_of_path_to (hg : g.IsLinked) (hb : b ∈ g.nodes)
    (h : ReflTransGen g.DependsOn a b) : a ∈ g.nodes := by
  cases h using ReflTransGen.head_induction_on with
  | refl => exact hb
  | head h _ => exact (hg.mem_nodes_of_mem_dependents ((hg.symmetric _ _).2 h)).2

/-- **The two queries mirror each other.** -/
theorem closure_mirrors (hg : g.IsLinked) :
    b ∈ g.allDependencies a ↔ a ∈ g.allDependents b := by
  rw [mem_allDependencies_iff_path hg, mem_allDependents_iff_path hg, path_passesTo_iff hg]
  exact ⟨fun h => ⟨mem_nodes_of_path hg h.1 h.2, h.2⟩,
    fun h => ⟨mem_nodes_of_path_to hg h.1 h.2, h.2⟩⟩

/-- The search from an id that no cell has finds nothing. -/
theorem closure_of_notMem (hg : g.IsLinked) (ha : a ∉ g.nodes) :
    g.allDependencies a = [] ∧ g.allDependents a = [] := by
  refine ⟨List.eq_nil_iff_forall_not_mem.2 fun b hb => ?_,
    List.eq_nil_iff_forall_not_mem.2 fun b hb => ?_⟩
  · exact ha ((mem_allDependencies_iff_path hg).1 hb).1
  · exact ha ((mem_allDependents_iff_path hg).1 hb).1

/-- **Closure queries are exact and mirror each other in every reachable graph**, with cycles or
without. For every id, the query for dependencies gives just the ids that zero or more dependency
edges lead to from it, and the query for dependents those that zero or more dependent edges lead to;
an id that no cell has gives nothing, and the ids found are listed in ascending order, each once.
One id is among all dependencies of another exactly if the other is among all dependents of it. -/
theorem closure_exact_and_dual (stem : String) (operations : List Operation) :
    let g := runAll stem operations
    (∀ a b, b ∈ g.allDependencies a ↔ a ∈ g.nodes ∧ ReflTransGen g.DependsOn a b) ∧
    (∀ a b, b ∈ g.allDependents a ↔ a ∈ g.nodes ∧ ReflTransGen g.PassesTo a b) ∧
    (∀ a, a ∉ g.nodes → g.allDependencies a = [] ∧ g.allDependents a = []) ∧
    (∀ a, (g.allDependencies a).Pairwise (fun b c => compare b c = .lt) ∧
      (g.allDependents a).Pairwise (fun b c => compare b c = .lt)) ∧
    ∀ a b, b ∈ g.allDependencies a ↔ a ∈ g.allDependents b := by
  intro g
  have hg : g.IsLinked := (IsReachable.isWellFormed ⟨stem, operations, rfl⟩).toIsLinked
  exact ⟨fun a b => mem_allDependencies_iff_path hg, fun a b => mem_allDependents_iff_path hg,
    fun a => closure_of_notMem hg, fun a => ⟨pairwise_sortedNames _, pairwise_sortedNames _⟩,
    fun a b => closure_mirrors hg⟩

end Graph

end CellLineage

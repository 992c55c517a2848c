import CellLineage.Proofs.Evaluation.Writes

/-!
# Reachable graphs

A graph is used through a handful of operations: matrices are made, painted, put back from a
snapshot, multiplied, transposed, instantiated and copied, single edges are recorded or forgotten,
and formulas are evaluated. A graph is *reachable* if a run of such operations, of any length and in
any order, leads to it from a graph without cells; an operation that stops part-way leaves what it
has done until then.

## Main definitions

* `Graph.Operation`, `Graph.Operation.apply`: an operation with its arguments, and what it does.
* `Graph.runAll`, `Graph.IsReachable`: runs, and the graphs they lead to.

## Main results

* `Graph.apply_cases`: what an operation is made of.
* `Graph.edits_runAll`: a run is a sequence of edits.
* `Graph.IsReachable.of_edit`: what graphs without cells have and each edit preserves, every
  reachable graph has.
-/

namespace CellLineage.Graph

/-- An operation on a graph with its arguments. -/
inductive Operation where
  | initMatrix (name : Text) (rows cols : Int)
  | update (name : Text) (row col : Int) (value : Number) (color : Option Text)
      (isIdentity : Option Bool) (colorIndex : Option Int)
  | link (target source : CellId)
  | unlink (name : Text)
  /-- Puts a snapshot back, which may have been taken of any graph at any time. -/
  | restore (s : Snapshot) (rows cols : Int)
  | multiply (left right result : Text) (leafOnly : Bool)
  | transpose (name : Text)
  | instantiate (source target : Text)
  | copy (source target : Text)
  | evaluate (p : Formula.Product) (occurrence : Int)
  | recompute (plan : Formula.Plan) (config : Config)
  | clear

/-- The graph that an operation leaves; one that cannot be done leaves the graph as it is. -/
def Operation.apply (g : Graph) : Operation → Graph
  | .initMatrix name rows cols => after (liftGraph (g.initMatrix name rows cols)) g
  | .update name row col value color isIdentity colorIndex =>
    g.update name row col value color isIdentity colorIndex
  | .link target source => g.link target source
  | .unlink name => g.unlink name
  | .restore s rows cols => after (liftGraph (g.restore s rows cols)) g
  | .multiply left right result leafOnly => after (Graph.multiply left right result leafOnly) g
  | .transpose name => ((g.transpose name).map Prod.snd).getD g
  | .instantiate source target => (g.instantiate source target).getD g
  | .copy source target => (g.copy source target).getD g
  | .evaluate p occurrence => after (Graph.evaluate p occurrence) g
  | .recompute plan config => after (Graph.recompute plan config) g
  | .clear => g.clear

/-- The graph after a run of operations, one after another, from a graph without cells. -/
def runAll (stem : String) (operations : List Operation) : Graph :=
  operations.foldl Operation.apply (empty stem)

/-- The graph is what some run of operations leaves. -/
def IsReachable (g : Graph) : Prop :=
  ∃ stem operations, g = runAll stem operations

/-- The operation drops all that is there, if it does anything. -/
def Operation.Drops : Operation → Prop
  | .recompute _ _ | .clear => True
  | _ => False

/-- An operation makes matrices, or records an edge, or drops all and then makes matrices. -/
theorem apply_cases (g : Graph) (op : Operation) :
    Writes Set.univ g (op.apply g) ∨ (∃ target source, op = .link target source) ∨
      op.Drops ∧ Writes Set.univ g.clear (op.apply g) := by
  cases op with
  | initMatrix name rows cols =>
    exact .inl (steps_liftGraph fun g' h => (makes_initMatrix h).writes (Set.mem_univ _))
  | update name row col value color isIdentity colorIndex =>
    refine .inl ?_
    cases hb : g.matrices[name]? with
    | none =>
      rw [Operation.apply, update, update?, idAt?_of_missing hb]
      exact .refl
    | some b => exact (Makes.inPlace hb (fills_update ∅ g name row col value color
        isIdentity colorIndex hb)).writes (Set.mem_univ _)
  | link target source => exact .inr (.inl ⟨target, source, rfl⟩)
  | unlink name =>
    refine .inl ?_
    cases hb : g.matrices[name]? with
    | none =>
      rw [Operation.apply, unlink, hb]
    | some b => exact (Makes.inPlace hb (fills_unlink ∅ hb)).writes (Set.mem_univ _)
  | restore s rows cols =>
    exact .inl (steps_liftGraph fun g' h => (makes_restore h).writes (Set.mem_univ _))
  | multiply left right result leafOnly =>
    exact .inl (writes_multiply _ _ _ _ (Set.mem_univ _))
  | transpose name =>
    refine .inl ?_
    cases h : g.transpose name with
    | none =>
      rw [Operation.apply, h]
      exact .refl
    | some r =>
      rw [Operation.apply, h]
      exact (makes_transpose h fun s _ => g.supplies_univ true s).2.writes (Set.mem_univ _)
  | instantiate source target =>
    refine .inl ?_
    cases h : g.instantiate source target with
    | none =>
      rw [Operation.apply, h]
      exact .refl
    | some g' =>
      rw [Operation.apply, h]
      exact (makes_instantiate h fun s _ => g.supplies_univ true s).writes (Set.mem_univ _)
  | copy source target => exact .inl (writes_store source g (Set.mem_univ _))
  | evaluate p occurrence => exact .inl ((writes_evaluate ..).mono (Set.subset_univ _))
  | recompute plan config =>
    rcases writes_recompute plan config g with h | h
    · refine .inl ?_
      rw [Operation.apply, h]
    · exact .inr (.inr ⟨trivial, h⟩)
  | clear => exact .inr (.inr ⟨trivial, .refl⟩)

/-- An operation is a sequence of edits. -/
theorem edits_apply (g : Graph) (op : Operation) : Edits g (op.apply g) := by
  rcases apply_cases g op with h | ⟨target, source, rfl⟩ | ⟨-, h⟩
  · exact h.edits
  · exact .single (.link g target source)
  · exact .head (.clear g) h.edits

theorem edits_runAll (stem : String) (operations : List Operation) :
    Edits (empty stem) (runAll stem operations) :=
  steps_foldl fun op _ g _ => edits_apply g op

/-- What a sequence of edits starts with and each of them preserves, it ends with. -/
theorem Edits.preserve {P : Graph → Prop} (hedit : ∀ g g', Edit g g' → P g → P g') {g g' : Graph}
    (h : Edits g g') (hg : P g) : P g' := by
  induction h with
  | refl => exact hg
  | tail _ he ih => exact hedit _ _ he ih

/-- What graphs without cells have and each edit preserves, every reachable graph has. -/
theorem IsReachable.of_edit {P : Graph → Prop} (hempty : ∀ stem, P (empty stem))
    (hedit : ∀ g g', Edit g g' → P g → P g') {g : Graph} (hg : g.IsReachable) : P g := by
  obtain ⟨stem, operations, rfl⟩ := hg
  exact (edits_runAll stem operations).preserve hedit (hempty stem)

end CellLineage.Graph

import CellLineage.Proofs.Evaluation.Derivation
import CellLineage.Proofs.Evaluation.Rebuild

/-!
# The stages of a recompute

A recompute rebuilds the input matrices, evaluates, puts the last result into the output matrix and
reports. The lemmas here say what each stage but the evaluation leaves, and so what remains of a
recompute once its input is there (`Graph.recompute_eq`).

## Main definitions

* `Graph.inputs`: the input matrices as matrices of whole numbers.

## Main results

* `Graph.rebuild_inputs`: the rebuilt graph holds the input matrices.
* `Graph.store_spec`, `Graph.store_shape`, `Graph.store_frame`, `Graph.finish_none_spec`: what the
  end of a run leaves.
-/

namespace CellLineage

open Formula

namespace Graph

variable {g g' : Graph} {config : Config} {name : Text} {env : Environment}

/-! ### The input -/

/-- The input matrices of a recompute by name. -/
def inputs (g : Graph) (config : Config) (names : List Text) : Environment :=
  names.map fun name => (name, g.inputMatrix config name)

theorem lookup_inputs (g : Graph) (config : Config) (names : List Text) (name : Text) :
    (g.inputs config names).lookup name =
      if name ∈ names then some (g.inputMatrix config name) else none :=
  Association.lookup_map names (g.inputMatrix config) name

theorem nodup_sortedNames {α : Type} [Ord α] [Std.TransOrd α] (names : List α) :
    (sortedNames names).Nodup := by
  refine (pairwise_sortedNames names).imp fun {a b} h hab => ?_
  subst hab
  have heq : compare a a = .eq := Std.ReflCmp.compare_self
  rw [heq] at h
  cases h

theorem nodup_of_inputNames {plan : Plan} {names : List Text}
    (h : inputNames plan config = .ok names) : names.Nodup := by
  cases plan with
  | simple p =>
    cases h
    exact nodup_sortedNames _
  | iterative p =>
    obtain ⟨kept, -, h⟩ := exists_of_bind_eq_ok h
    cases h
    exact nodup_sortedNames _

/-- The rebuilt graph holds the input matrices and nothing else. -/
theorem rebuild_inputs (hconfig : config.HasCells) (hg : g.IsMinted) {names : List Text}
    (hnames : names.Nodup) :
    ∃ g', rebuild config names g = .ok () g' ∧ g'.IsWellFormed ∧ g'.temporaries = 0 ∧
      (∀ name, g.IsIntegral config name →
        g'.Represents name ((g.inputs config names).lookup name)) ∧
      (∀ name ∉ names, g'.matrices[name]? = none) ∧
      ∀ name ∈ names, g.RestoredFrom g' name (g.inputShape config name) := by
  obtain ⟨g', hrun, hwf, htemp, hnone, hsome⟩ := rebuild_spec hconfig hg hnames
  refine ⟨g', hrun, hwf, htemp, fun name hint => ?_, hnone,
    fun name hname => (hsome name hname).restoredFrom⟩
  rw [lookup_inputs]
  split
  · next h => exact (hsome name h).restoredFrom.holds hint
  · next h => exact hnone name h

/-- A recompute that may run rebuilds its input and then evaluates the plan. -/
theorem recompute_eq {plan : Plan} {names : List Text}
    (hobstacle : plan.obstacle? config.output = none)
    (hnames : inputNames plan config = .ok names) (hrun : rebuild config names g = .ok () g') :
    recompute plan config g = runPlan config (g.shape? config.output) plan g' :=
  (recompute_of_inputNames hobstacle hnames).trans (bind_eq_of_ok hrun)

/-! ### The output -/

/-- Storing a result writes the target only, which then holds the result. -/
theorem store_spec (hg : g.IsWellFormed) {source target : Text} {M : IntMatrix}
    (hM : g.Holds source M) (hne : source ≠ target) :
    ∃ g', store source target g = .ok () g' ∧ g.WritesOnly g' target ∧
      g'.IsCopyOf false source target ∧ g'.Holds target M := by
  obtain ⟨s, hs, -⟩ := holds_iff.1 hM
  obtain ⟨g', hcopy, hw, h⟩ := copy_spec hg hs hne
  refine ⟨g', ?_, hw, h, h.holds (hM.of_keeps (hw.keeps source hne))⟩
  have hrun : store source target g = .ok () ((g.copy source target).getD g) := rfl
  rw [hrun, hcopy, Option.getD_some]

/-- Storing a result gives the target its shape, also if the target is the result itself. -/
theorem store_shape (hg : g.IsWellFormed) {source : Text} {shape : Nat × Nat}
    (hs : g.shape? source = some shape) (target : Text) :
    ∃ g', store source target g = .ok () g' ∧ g.WritesOnly g' target ∧
      g'.shape? target = some shape := by
  obtain ⟨b, hb, rfl⟩ := Option.map_eq_some_iff.1 hs
  have hrun : store source target g = .ok () ((g.copy source target).getD g) := rfl
  by_cases hne : source = target
  · subst hne
    obtain ⟨g', hcopy, hw, hb', -⟩ := copy_self_spec hg hb
    refine ⟨g', ?_, hw, ?_⟩
    · rw [hrun, hcopy, Option.getD_some]
    · rw [shape?, hb', Option.map_some]
  · obtain ⟨g', hcopy, hw, s, t, hs', ht, hrow, hcol, -⟩ := copy_spec hg hb hne
    obtain rfl : b = s := Option.some.inj (((hw.keeps source hne).matrices.trans hb).symm.trans hs')
    refine ⟨g', ?_, hw, ?_⟩
    · rw [hrun, hcopy, Option.getD_some]
    · rw [shape?, ht, Option.map_some, Block.shape, hrow, hcol, Block.shape]

/-- Of the cells that there were before, storing a result writes those in the target only. They are
the ones that stood there before, if the target had the shape of the result. -/
theorem store_frame (hg : g.IsWellFormed) {source target : Text} {shape : Nat × Nat}
    (hs : g.shape? source = some shape) (h : store source target g = .ok () g') {x : CellId}
    (hx : x ∈ g.nodes) :
    (∀ k l : Nat, g'.idAt? target k l = some x ↔
      g.shape? target = some shape ∧ g.idAt? target k l = some x) ∧
    ((∀ k l : Nat, g'.idAt? target k l ≠ some x) → g'.core x = g.core x) := by
  obtain ⟨b, hb, rfl⟩ := Option.map_eq_some_iff.1 hs
  have hrun : store source target g = .ok () ((g.copy source target).getD g) := rfl
  obtain ⟨g₁, hcopy⟩ : ∃ g₁, g.copy source target = some g₁ := by
    rw [copy, hb]
    exact ⟨_, rfl⟩
  rw [hrun, hcopy, Option.getD_some] at h
  cases h
  exact ⟨fun k l => idAt?_of_copy hg.toIsMinted hcopy hb hx,
    (makes_copy hcopy fun s _ => g.supplies_univ false s).core_eq hg hx⟩

/-- Without a result the output matrix stays as it is. If it is not there any more but was there
before, it is made blank in its old shape. -/
theorem finish_none_spec (hg : g.IsWellFormed) (before : Graph) (config : Config) :
    ∃ g', finish config (before.shape? config.output) none g = .ok () g' ∧
      g.WritesOnly g' config.output ∧ ∀ M?, g.Represents config.output M? →
        g'.Represents config.output
          (M?.or ((before.shape? config.output).map fun s => .ofFn s.1 s.2 fun _ _ => 0)) := by
  have hrefl : g.WritesOnly g config.output := ⟨hg, rfl, rfl, fun other _ => .refl g other⟩
  cases hb : before.matrices[config.output]? with
  | none =>
    have hs : before.shape? config.output = none := by rw [shape?, hb, Option.map_none]
    rw [hs]
    refine ⟨g, rfl, hrefl, fun M? h => ?_⟩
    rwa [Option.map_none, Option.or_none]
  | some b =>
    have hs : before.shape? config.output = some (b.rows, b.cols) := by
      rw [shape?, hb, Option.map_some, Block.shape]
    rw [hs]
    cases hm : g.hasMatrix config.output with
    | true =>
      refine ⟨g, ?_, hrefl, fun M? h => ?_⟩
      · simp only [finish, get_bind_eq, hm, if_true]
        rfl
      · obtain ⟨M, rfl⟩ := Option.isSome_iff_exists.1 (h.hasMatrix.symm.trans hm)
        exact h
    | false =>
      refine ⟨g.addMatrix config.output b.rows b.cols b.rows_pos b.cols_pos, ?_,
        (prepared_addMatrix hg config.output b.rows_pos b.cols_pos).toWritesOnly, fun M? h => ?_⟩
      · simp only [finish, get_bind_eq, hm, Bool.false_eq_true, if_false,
          initMatrix_eq_ok b.rows_pos b.cols_pos]
        rfl
      · obtain rfl : M? = none := Option.isNone_iff_eq_none.1 (by
          rw [← Option.not_isSome, ← h.hasMatrix, hm, Bool.not_false])
        refine holds_iff.2 ⟨g.nextBlock b.rows b.cols b.rows_pos b.cols_pos, ?_, rfl, rfl,
          fun i j hi hj => ?_⟩
        · rw [matrices_addMatrix, if_pos rfl]
        · have hi : i < b.rows := hi
          have hj : j < b.cols := hj
          rw [coreAt, idAt_addMatrix, core, cell_addMatrix hi hj, IntMatrix.get_ofFn hi hj]
          rfl

/-- The report of a run. -/
theorem outcome_spec (config : Config) (computed : List Text) (issues : List Issue) (g : Graph) :
    ∃ o, outcome config computed issues g = .ok o g ∧ o.computed = computed ∧ o.issues = issues ∧
      o.obstacle? = none ∧ ∀ M?, g.Represents config.output M? →
        o.output? = M?.map (fun _ => config.output) ∧
        o.shape? = if config.output = "" then none else M?.map IntMatrix.shape := by
  cases h : g.hasMatrix config.output with
  | true =>
    simp only [outcome, get_bind_eq, h, if_true]
    refine ⟨_, rfl, rfl, rfl, rfl, fun M? hM => ?_⟩
    obtain ⟨M, rfl⟩ := Option.isSome_iff_exists.1 (hM.hasMatrix.symm.trans h)
    exact ⟨rfl, by rw [hM.1]; rfl⟩
  | false =>
    simp only [outcome, get_bind_eq, h, Bool.false_eq_true, if_false]
    refine ⟨_, rfl, rfl, rfl, rfl, fun M? hM => ?_⟩
    obtain rfl : M? = none := Option.isNone_iff_eq_none.1 (by
      rw [← Option.not_isSome, ← hM.hasMatrix, h, Bool.not_false])
    exact ⟨rfl, (ite_self none).symm⟩

end Graph

end CellLineage

import CellLineage.Evaluation.Shape
import CellLineage.Proofs.Graph.Contribution
import CellLineage.Proofs.Recompute.Course

/-!
# What evaluations miss

An evaluation reports a matrix as missing if a reference names it and it is not there. The
evaluation of a larger product also multiplies matrices that it has made itself, and these are
always there. So what is missing was missing at the start, and a reference of the product named it.
If the product was resolved before, it was the name that some reference stood for.

## Main definitions

* `Formula.Product.Misses`: a reference stands for a matrix that is not there.

## Main results

* `Graph.notMem_of_evaluate`, `ShapeCheck.notMem_of_shapeOf`: what an evaluation and a prediction
  report as missing.
* `Graph.missing_of_evaluateStatement`, `ShapeCheck.missing_of_shapeOfStatement`: the same with
  references that are resolved first.
-/

namespace CellLineage

namespace Formula

variable {names : List Text} {n : Int} {r' : Reference}

/-- The references of a resolved product are resolved references of the product. -/
theorem Product.exists_resolve_of_mem {p p' : Product} (h : p.resolve n names = .ok p')
    (hr : r' ∈ p'.references) : ∃ r ∈ p.references, r.resolve n names = .ok r' := by
  induction p generalizing p' with
  | single r =>
    obtain ⟨s, hs, h⟩ := exists_of_bind_eq_ok h
    cases h
    obtain rfl := List.mem_singleton.1 hr
    exact ⟨r, List.mem_cons_self, hs⟩
  | times p q ihp ihq =>
    obtain ⟨p₁, hp, h⟩ := exists_of_bind_eq_ok h
    obtain ⟨q₁, hq, h⟩ := exists_of_bind_eq_ok h
    cases h
    rcases List.mem_append.1 hr with hr | hr
    · obtain ⟨r, hmem, hr⟩ := ihp hp hr
      exact ⟨r, List.mem_append_left _ hmem, hr⟩
    · obtain ⟨r, hmem, hr⟩ := ihq hq hr
      exact ⟨r, List.mem_append_right _ hmem, hr⟩

/-- A reference of the product means a matrix that is not among the names. -/
def Product.Misses (p : Product) (n : Int) (names : List Text) (name : Text) : Prop :=
  name ∉ names ∧ ∃ r ∈ p.references, ∃ r', r.resolve n names = .ok r' ∧ r'.name = name

end Formula

open Formula

/-! ### In a graph -/

namespace Graph

variable {g g' : Graph} {p : Product} {n : Int} {name : Text} {progress progress' : Progress}

theorem Makes.subset_matrices {sources : Set CellId} {target : Text} (h : Makes sources target g g')
    (hname : name ∈ g.matrices) : name ∈ g'.matrices := by
  rw [Std.ExtTreeMap.mem_iff_isSome_getElem?] at hname ⊢
  cases h with
  | anew h =>
    rw [h.sameTables.matrices, matrices_addMatrix]
    split
    · rfl
    · exact hname
  | inPlace hb h => rwa [h.sameTables.matrices]

/-- Writing matrices takes none away. -/
theorem Writes.subset_matrices {names : Set Text} (h : Writes names g g')
    (hname : name ∈ g.matrices) : name ∈ g'.matrices := by
  induction h with
  | refl => exact hname
  | @tail g₁ g₂ _ hw ih =>
    cases hw with
    | make _ hmakes => exact hmakes.subset_matrices ih
    | describe => exact ih

/-- Only factors are reported as missing. -/
theorem notMem_of_multiply {left right result : Text} {leafOnly : Bool}
    (h : multiply left right result leafOnly g = .ok (some (.missing name)) g') :
    name ∉ g.matrices ∧ (name = left ∨ name = right) := by
  cases hissue : g.productIssue? left right with
  | none =>
    obtain ⟨l, r, hl, hr, hfits⟩ := exists_of_productIssue?_eq_none hissue
    simp only [multiply, get_bind_eq, hl, hr, ne_eq, hfits, not_true_eq_false, if_false,
      set_bind_eq] at h
    cases ht : (g.prepare result l.rows r.cols l.rows_pos r.cols_pos).matrices[result]? with
    | none =>
      rw [ht] at h
      cases h
    | some t =>
      rw [ht] at h
      obtain ⟨u, g₁, -, h⟩ := exists_run_of_bind h
      cases h
  | some issue =>
    rw [multiply_of_productIssue? leafOnly hissue] at h
    cases h
    rw [Std.ExtTreeMap.mem_iff_isSome_getElem?, Bool.not_eq_true, Option.isSome_eq_false_iff,
      Option.isNone_iff_eq_none]
    unfold productIssue? shape? at hissue
    cases hl : g.matrices[left]? with
    | none =>
      rw [hl] at hissue
      cases hissue
      exact ⟨hl, .inl rfl⟩
    | some l =>
      cases hr : g.matrices[right]? with
      | none =>
        rw [hl, hr] at hissue
        cases hissue
        exact ⟨hr, .inr rfl⟩
      | some r =>
        simp [hl, hr] at hissue

theorem notMem_of_evaluateTimes {left right expression : Text} {result? : Option Text}
    {issues : List Issue} (h : evaluateTimes left right expression g = .ok (result?, issues) g')
    (hmissing : .missing name ∈ issues) : name ∉ g.matrices ∧ (name = left ∨ name = right) := by
  rw [evaluateTimes, get_bind_eq] at h
  obtain ⟨u, g₁, hset, h⟩ := exists_run_of_bind h
  cases hset
  obtain ⟨issue?, g₂, hmultiply, h⟩ := exists_run_of_bind h
  cases issue? with
  | none =>
    cases h
    cases hmissing
  | some issue =>
    cases h
    obtain rfl := List.mem_singleton.1 hmissing
    obtain ⟨hnone, hname⟩ := notMem_of_multiply hmultiply
    exact ⟨hnone, hname⟩

/-- **What an evaluation misses** are matrices that its references name and that were not there. -/
theorem notMem_of_evaluate {o : Int} {e : Evaluated} (h : evaluate p o g = .ok e g')
    (hmissing : .missing name ∈ e.issues) :
    name ∉ g.matrices ∧ ∃ r ∈ p.references, r.name = name := by
  induction p generalizing o g g' e with
  | single r =>
    have hrun : evaluateReference r o g = .ok e g' := h
    rw [evaluateReference, get_bind_eq] at hrun
    cases hinst : g.instantiate r.name (instanceName r.name o) with
    | none =>
      simp only [hinst] at hrun
      cases hrun
      obtain rfl : name = r.name := by simpa using hmissing
      refine ⟨fun hmem => ?_, r, List.mem_cons_self, rfl⟩
      rw [Std.ExtTreeMap.mem_iff_isSome_getElem?] at hmem
      obtain ⟨b, hb⟩ := Option.isSome_iff_exists.1 hmem
      rw [instantiate, hb] at hinst
      cases hinst
    | some g₁ =>
      suffices hnone : e.issues = [] by
        rw [hnone] at hmissing
        cases hmissing
      cases ht : r.transposed with
      | false =>
        simp only [hinst, ht, Bool.false_eq_true, if_false] at hrun
        cases hrun
        rfl
      | true =>
        simp only [hinst, ht, if_true] at hrun
        cases htrans : g₁.transpose (instanceName r.name o) with
        | none =>
          rw [htrans] at hrun
          cases hrun
          rfl
        | some result =>
          rw [htrans] at hrun
          cases hrun
          rfl
  | times p q ihp ihq =>
    obtain ⟨l, g₁, hl, h⟩ := exists_run_of_bind h
    obtain ⟨r, g₂, hr, h⟩ := exists_run_of_bind h
    have hgrows {x : Text} (hx : x ∈ g.matrices) : x ∈ g₁.matrices :=
      after_of_ok hl ▸ (writes_evaluate p o g).subset_matrices hx
    have hgrows' {x : Text} (hx : x ∈ g₁.matrices) : x ∈ g₂.matrices :=
      after_of_ok hr ▸ (writes_evaluate q l.occurrence g₁).subset_matrices hx
    have hfactors (hmissing : .missing name ∈ l.issues ++ r.issues) :
        name ∉ g.matrices ∧ ∃ r ∈ (Product.times p q).references, r.name = name := by
      rcases List.mem_append.1 hmissing with hmissing | hmissing
      · obtain ⟨hnone, s, hs, hname⟩ := ihp hl hmissing
        exact ⟨hnone, s, List.mem_append_left _ hs, hname⟩
      · obtain ⟨hnone, s, hs, hname⟩ := ihq hr hmissing
        exact ⟨fun hx => hnone (hgrows hx), s, List.mem_append_right _ hs, hname⟩
    cases hleft : l.result? with
    | none =>
      simp only [hleft] at h
      cases h
      exact hfactors hmissing
    | some left =>
      cases hright : r.result? with
      | none =>
        simp only [hleft, hright] at h
        cases h
        exact hfactors hmissing
      | some right =>
        simp only [hleft, hright] at h
        obtain ⟨⟨result?, issues⟩, g₃, htimes, h⟩ := exists_run_of_bind h
        cases h
        rcases List.mem_append.1 hmissing with hmissing | hmissing
        · exact hfactors hmissing
        · -- the results of the factors are there, so the multiplication misses none
          obtain ⟨hnone, rfl | rfl⟩ := notMem_of_evaluateTimes htimes hmissing
          · exact absurd (hgrows' (mem_matrices_of_evaluate hl hleft)) hnone
          · exact absurd (mem_matrices_of_evaluate hr hright) hnone

theorem missing_of_evaluateStatement {result? : Option Text}
    (h : evaluateStatement p n progress g = .ok (result?, progress') g')
    (hmissing : .missing name ∈ progress'.issues) :
    .missing name ∈ progress.issues ∨ p.Misses n g.matrices.keys name := by
  rw [evaluateStatement, get_bind_eq] at h
  obtain ⟨p', g₁, hlift, h⟩ := exists_run_of_bind h
  obtain ⟨e, g₂, hevaluate, h⟩ := exists_run_of_bind h
  have hresolve : p.resolve n g.matrices.keys = .ok p' := eq_ok_of_liftIndex hlift
  rw [graph_eq_of_liftIndex hlift] at hevaluate
  cases h
  rcases List.mem_append.1 hmissing with hmissing | hmissing
  · exact .inl hmissing
  · obtain ⟨hnone, r', hr', hname⟩ := notMem_of_evaluate hevaluate hmissing
    obtain ⟨r, hr, hresolve⟩ := Product.exists_resolve_of_mem hresolve hr'
    exact .inr ⟨fun hmem => hnone (Std.ExtTreeMap.mem_keys.1 hmem), r, hr, r', hresolve, hname⟩

end Graph

/-! ### In a table of shapes -/

namespace ShapeCheck

variable {p : Product} {n : Int} {name : Text} {shapes : Shapes} {progress progress' : Progress}

/-- Names without a shape are missed. -/
theorem notMem_of_shapeOf (hmissing : .missing name ∈ (shapeOf shapes p).2) :
    name ∉ shapes.names ∧ ∃ r ∈ p.references, r.name = name := by
  induction p with
  | single r =>
    rw [shapeOf] at hmissing
    cases hr : shapes.lookup r.name with
    | none =>
      rw [hr] at hmissing
      obtain rfl : name = r.name := by simpa using hmissing
      refine ⟨fun hmem => ?_, r, List.mem_cons_self, rfl⟩
      rw [← Association.lookup_isSome_iff, hr] at hmem
      cases hmem
    | some shape =>
      rw [hr] at hmissing
      cases hmissing
  | times p q ihp ihq =>
    have hfactors (hmissing : .missing name ∈ (shapeOf shapes p).2 ++ (shapeOf shapes q).2) :
        name ∉ shapes.names ∧ ∃ r ∈ (Product.times p q).references, r.name = name := by
      rcases List.mem_append.1 hmissing with hmissing | hmissing
      · obtain ⟨hnone, r, hr, hname⟩ := ihp hmissing
        exact ⟨hnone, r, List.mem_append_left _ hr, hname⟩
      · obtain ⟨hnone, r, hr, hname⟩ := ihq hmissing
        exact ⟨hnone, r, List.mem_append_right _ hr, hname⟩
    rw [shapeOf] at hmissing
    split at hmissing
    · next l pi r qi hp hq =>
      rw [hp, hq] at hfactors
      split at hmissing
      · exact hfactors hmissing
      · rcases List.mem_append.1 hmissing with hmissing | hmissing
        · exact hfactors hmissing
        · cases List.mem_singleton.1 hmissing
    · next hp hq =>
      rw [hp, hq] at hfactors
      exact hfactors hmissing

theorem missing_of_shapeOfStatement {shape? : Option (Nat × Nat)}
    (h : shapeOfStatement p n progress = .ok (shape?, progress'))
    (hmissing : .missing name ∈ progress'.issues) :
    .missing name ∈ progress.issues ∨ p.Misses n progress.shapes.names name := by
  obtain ⟨p', hresolve, h⟩ := exists_of_bind_eq_ok h
  cases h
  rcases List.mem_append.1 hmissing with hmissing | hmissing
  · exact .inl hmissing
  · obtain ⟨hnone, r', hr', hname⟩ := notMem_of_shapeOf hmissing
    obtain ⟨r, hr, hresolve⟩ := Product.exists_resolve_of_mem hresolve hr'
    exact .inr ⟨hnone, r, hr, r', hresolve, hname⟩

end ShapeCheck

end CellLineage

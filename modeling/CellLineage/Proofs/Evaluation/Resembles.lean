import CellLineage.Proofs.Evaluation.Writes
import CellLineage.Proofs.Graph.Resembles

/-!
# Evaluations in step

Runs from two graphs are *alike* if both return the same, or both stop at the same fault, and the
graphs that they leave are related. Evaluating a product in two graphs that resemble each other
gives runs that are alike, as long as no matrix has the name of an intermediate result that is still
to come: an intermediate result is then made anew, so its cells have no colour in either graph. Such
a run only stops at an index with too many digits, or at a number that is too large if not all
values are whole numbers.

## Main definitions

* `Graph.Alike`: the same end of two runs.
* `Graph.InStep`: graphs that resemble each other and have room for intermediate results.

## Main results

* `Graph.Alike.bind`: runs of two parts.
* `Graph.InStep.evaluate`: evaluating a product.
-/

namespace CellLineage

open Formula

namespace Graph

variable {α β : Type} {whole : Prop} {r r' : Graph → Graph → Prop} {g g' : Graph}

/-! ### Runs that end alike -/

/-- An evaluation may stop at an index, and at a number that is too large unless all values are
whole numbers. -/
def Fault.MayStop (whole : Prop) : Fault → Prop
  | .index _ => True
  | .overflow => ¬whole
  | _ => False

theorem Fault.mayStop_index (whole : Prop) (e : IndexFault) : (Fault.index e).MayStop whole :=
  trivial

/-- Two runs end alike: they return the same or stop at the same fault, and the graphs that they
leave are related. -/
inductive Alike (whole : Prop) (r : Graph → Graph → Prop) :
    EStateM.Result Fault Graph α → EStateM.Result Fault Graph α → Prop where
  | ok (a : α) {g g' : Graph} (h : r g g') : Alike whole r (.ok a g) (.ok a g')
  | error {e : Fault} (he : e.MayStop whole) {g g' : Graph} (h : r g g') :
      Alike whole r (.error e g) (.error e g')

namespace Alike

variable {x x' : Run α} {f f' : α → Run β}

theorem mono {result result' : EStateM.Result Fault Graph α} (h : Alike whole r result result')
    (himp : ∀ g g', r g g' → r' g g') : Alike whole r' result result' := by
  cases h with
  | ok a h => exact .ok a (himp _ _ h)
  | error he h => exact .error he (himp _ _ h)

/-- Runs of two parts end alike if the second parts do for graphs that the first parts leave. -/
theorem bind_of_imp (hx : Alike whole r (x g) (x' g')) (himp : ∀ g₁ g₁', r g₁ g₁' → r' g₁ g₁')
    (hf : ∀ a g₁ g₁', r g₁ g₁' → Alike whole r' (f a g₁) (f' a g₁')) :
    Alike whole r' ((x >>= f) g) ((x' >>= f') g') := by
  change Alike whole r' (EStateM.bind x f g) (EStateM.bind x' f' g')
  unfold EStateM.bind
  generalize x g = result at hx ⊢
  generalize x' g' = result' at hx ⊢
  cases hx with
  | ok a h => exact hf a _ _ h
  | error he h => exact .error he (himp _ _ h)

theorem bind (hx : Alike whole r (x g) (x' g'))
    (hf : ∀ a g₁ g₁', r g₁ g₁' → Alike whole r (f a g₁) (f' a g₁')) :
    Alike whole r ((x >>= f) g) ((x' >>= f') g') :=
  hx.bind_of_imp (fun _ _ h => h) hf

/-- What is known of the graph that the first run leaves may be added to the relation. -/
theorem and {P : Graph → Prop} (h : Alike whole r (x g) (x' g')) (hleft : P (after x g)) :
    Alike whole (fun g g' => r g g' ∧ P g) (x g) (x' g') := by
  unfold after at hleft
  generalize x g = result at h hleft ⊢
  generalize x' g' = result' at h ⊢
  cases h with
  | ok a h => exact .ok a ⟨h, hleft⟩
  | error he h => exact .error he ⟨h, hleft⟩

theorem liftIndex (h : r g g') (result : Except IndexFault α) :
    Alike whole r (Graph.liftIndex result g) (Graph.liftIndex result g') := by
  cases result with
  | ok a => exact .ok a h
  | error e => exact .error (Fault.mayStop_index whole e) h

theorem forM {as : List α} {step step' : α → Run Unit} (h : r g g')
    (hstep : ∀ a ∈ as, ∀ g₁ g₁', r g₁ g₁' → Alike whole r (step a g₁) (step' a g₁')) :
    Alike whole r (as.forM step g) (as.forM step' g') := by
  induction as generalizing g g' with
  | nil => exact .ok () h
  | cons a as ih =>
    exact bind (hstep a List.mem_cons_self g g' h) fun _ _ _ h₁ =>
      ih h₁ fun b hb => hstep b (List.mem_cons_of_mem a hb)

end Alike

/-! ### Room for intermediate results -/

/-- No matrix has the name of an intermediate result that is still to come. -/
def SparesTemporaries (g : Graph) : Prop :=
  ∀ k, g.temporaries < k → temporaryName k ∉ g.matrices

theorem SparesTemporaries.of_makes {sources : Set CellId} {name : Text} (hg : g.SparesTemporaries)
    (h : Makes sources name g g') (hname : ∀ k, g.temporaries < k → name ≠ temporaryName k) :
    g'.SparesTemporaries := by
  intro k hk
  rw [Std.ExtTreeMap.mem_iff_isSome_getElem?]
  cases h with
  | anew h =>
    rw [h.sameTables.temporaries, temporaries_addMatrix] at hk
    rw [h.sameTables.matrices, matrices_addMatrix, if_neg (hname k hk),
      ← Std.ExtTreeMap.mem_iff_isSome_getElem?]
    exact hg k hk
  | inPlace hb h =>
    rw [h.sameTables.temporaries] at hk
    rw [h.sameTables.matrices, ← Std.ExtTreeMap.mem_iff_isSome_getElem?]
    exact hg k hk

/-! ### Products -/

/-- The cells of a block have the same colours in both graphs. -/
def SameColors (b : Block) (g g' : Graph) : Prop :=
  ∀ i j, i < b.rows → j < b.cols →
    (g'.cell (g.idAt b i j)).color = (g.cell (g.idAt b i j)).color

theorem Resembles.row_eq (h : g.Resembles whole g') (b : Block) (i : Nat) :
    g'.row b i = g.row b i := by
  simp only [row, h.idAt_eq]

theorem Resembles.column_eq (h : g.Resembles whole g') (b : Block) (j : Nat) :
    g'.column b j = g.column b j := by
  simp only [column, h.idAt_eq]

/-- The cells of fresh matrices have no colour. -/
theorem sameColors_addMatrix (h : g.Resembles whole g') (name : Text) {rows cols : Nat}
    (hr : 0 < rows) (hc : 0 < cols) :
    SameColors (g.nextBlock rows cols hr hc) (g.addMatrix name rows cols hr hc)
      (g'.addMatrix name rows cols hr hc) := by
  intro i j hi hj
  rw [idAt_addMatrix, h.cell_addMatrix_eq name hr hc hi hj]

/-- An entry of a product in a block of the same colours. -/
theorem Resembles.multiplyAt (h : g.Resembles whole g') {b : Block} (hcolors : SameColors b g g')
    (leafOnly : Bool) (left right : Block) {p : Nat × Nat} (hp : p ∈ b.positions) :
    Alike whole (fun g g' => g.Resembles whole g' ∧ SameColors b g g')
      (multiplyAt leafOnly left right b p g) (multiplyAt leafOnly left right b p g') := by
  obtain ⟨hi, hj⟩ := b.mem_positions.1 hp
  have hdot' : g'.dot leafOnly (g'.row left p.1) (g'.column right p.2) =
      g.dot leafOnly (g.row left p.1) (g.column right p.2) := by
    rw [h.row_eq, h.column_eq, h.dot_eq]
  simp only [Graph.multiplyAt, get_bind_eq, hdot', h.idAt_eq]
  cases hdot : g.dot leafOnly (g.row left p.1) (g.column right p.2) with
  | none =>
    have hstop : Fault.overflow.MayStop whole := fun hw => by
      obtain ⟨d, n, hsome, -⟩ := h.exists_dot hw leafOnly (g.row left p.1) (g.column right p.2)
      cases hdot.symm.trans hsome
    exact .error hstop ⟨h, hcolors⟩
  | some d =>
    have hint (hw : whole) : ∃ n, d.total = .int n := by
      obtain ⟨d', n, hsome, hn⟩ :=
        h.exists_dot hw leafOnly (g.row left p.1) (g.column right p.2)
      cases hdot.symm.trans hsome
      exact ⟨n, hn⟩
    refine .ok () ⟨h.writeDot hint (hcolors _ _ hi hj), fun i j hi hj => ?_⟩
    rw [color_writeDot, color_writeDot, (sameTables_writeDot ..).idAt_eq]
    exact hcolors i j hi hj

/-- The graphs resemble each other and have room for intermediate results. -/
structure InStep (whole : Prop) (g g' : Graph) : Prop extends Resembles whole g g' where
  spares : g.SparesTemporaries

namespace InStep

theorem evaluateReference (h : g.InStep whole g') (r : Reference) (occurrence : Int) :
    Alike whole (InStep whole) (evaluateReference r occurrence g)
      (evaluateReference r occurrence g') := by
  have hinst := h.instantiate r.name (instanceName r.name occurrence)
  simp only [Graph.evaluateReference, get_bind_eq]
  generalize hrun : g.instantiate r.name (instanceName r.name occurrence) = instance? at hinst ⊢
  generalize g'.instantiate r.name (instanceName r.name occurrence) = instance?' at hinst ⊢
  cases hinst with
  | none => exact .ok _ h
  | @some g₁ g₁' h₁ =>
    have hspares₁ := h.spares.of_makes
      (makes_instantiate hrun fun s _ => g.supplies_univ true s) fun k _ =>
        (isOriginal_instanceName r.name occurrence).1 k
    cases r.transposed with
    | false => exact .ok _ ⟨h₁, hspares₁⟩
    | true =>
      have htrans := h₁.transpose (instanceName r.name occurrence)
      simp only [if_true]
      generalize hrun : g₁.transpose (instanceName r.name occurrence) = transposed? at htrans ⊢
      generalize g₁'.transpose (instanceName r.name occurrence) = transposed?' at htrans ⊢
      cases htrans with
      | none => exact .ok _ ⟨h₁, hspares₁⟩
      | @some p p' h₂ =>
        obtain ⟨target, g₂⟩ := p
        obtain ⟨target', g₂'⟩ := p'
        obtain ⟨rfl, h₂⟩ := h₂
        obtain ⟨rfl, hmakes⟩ := makes_transpose hrun fun s _ => g₁.supplies_univ true s
        refine .ok _ ⟨h₂, hspares₁.of_makes hmakes fun k _ he => ?_⟩
        refine at_notMem_temporaryName k (he ▸ at_mem_transposeName (at_mem_instanceName _ _))

/-- The product of two matrices in one that is not there yet. -/
theorem multiply (h : g.Resembles whole g') (left right : Text) {result : Text} (leafOnly : Bool)
    (hresult : result ∉ g.matrices) :
    Alike whole (Resembles whole) (multiply left right result leafOnly g)
      (multiply left right result leafOnly g') := by
  simp only [Graph.multiply, get_bind_eq, h.matrices]
  cases g.matrices[left]? with
  | none => exact .ok _ h
  | some l =>
    cases g.matrices[right]? with
    | none => exact .ok _ h
    | some m =>
      by_cases hfits : l.cols = m.rows
      · simp only [hfits, ne_eq, not_true_eq_false, if_false, set_bind_eq]
        have hnone : ∀ shape, g.shape? result ≠ some shape := fun shape hs => hresult <| by
          rw [Std.ExtTreeMap.mem_iff_isSome_getElem?, ← Option.isSome_map, ← shape?, hs]
          rfl
        have hnone' : ∀ shape, g'.shape? result ≠ some shape := by rwa [h.shape?_eq]
        have hadd := h.addMatrix result l.rows_pos m.cols_pos
        simp only [prepare, if_neg (hnone _), if_neg (hnone' _), hadd.matrices]
        cases hb : (g.addMatrix result l.rows m.cols l.rows_pos m.cols_pos).matrices[result]? with
        | none => exact .ok _ hadd
        | some b =>
          obtain rfl : g.nextBlock l.rows m.cols l.rows_pos m.cols_pos = b := by
            rw [matrices_addMatrix, if_pos rfl] at hb
            exact Option.some.inj hb
          have hcolors := sameColors_addMatrix h result l.rows_pos m.cols_pos
          refine Alike.bind_of_imp (r := fun g g' => g.Resembles whole g' ∧ SameColors _ g g')
            (Alike.forM ⟨hadd, hcolors⟩ fun p hp g₁ g₁' h₁ => ?_) (fun _ _ h₁ => h₁.1)
            fun _ _ _ h₁ => .ok _ h₁.1
          exact h₁.1.multiplyAt h₁.2 leafOnly l m hp
      · simp only [hfits, ne_eq, not_false_eq_true, if_true]
        exact .ok _ h

theorem evaluateTimes (h : g.InStep whole g') (left right expression : Text) :
    Alike whole (InStep whole) (evaluateTimes left right expression g)
      (evaluateTimes left right expression g') := by
  have hnext : g.nextTemporary.1 ∉ g.matrices := h.spares _ (Nat.lt_succ_self _)
  have hcount : g.nextTemporary.2.InStep whole g'.nextTemporary.2 := by
    refine ⟨⟨⟨h.stem, h.minted, h.matrices, ?_, h.descriptions, h.mem_nodes⟩, h.cell⟩, ?_⟩
    · exact congrArg (· + 1) h.temporaries
    · exact fun k hk => h.spares k (Nat.lt_of_succ_lt hk)
  have hname : g'.nextTemporary.1 = g.nextTemporary.1 := by
    simp only [nextTemporary, h.temporaries]
  simp only [Graph.evaluateTimes, get_bind_eq, set_bind_eq, hname]
  have hspares : (after (Graph.multiply left right g.nextTemporary.1 false)
      g.nextTemporary.2).SparesTemporaries := by
    rcases makes_multiply left right g.nextTemporary.1 false
      (fun l _ => g.nextTemporary.2.supplies_univ true l)
      (fun r _ => g.nextTemporary.2.supplies_univ true r) with he | hmakes
    · rw [he]
      exact hcount.spares
    · refine hcount.spares.of_makes hmakes fun k hk he => ?_
      have he : temporaryName (g.temporaries + 1) = temporaryName k := he
      obtain rfl := temporaryName_inj.1 he
      exact Nat.lt_irrefl _ hk
  have hmultiply := (multiply hcount.toResembles left right false hnext).and hspares
  refine Alike.bind (hmultiply.mono fun _ _ h₁ => ⟨h₁.1, h₁.2⟩) fun issue? g₁ g₁' h₁ => ?_
  cases issue? with
  | some issue => exact .ok _ h₁
  | none =>
    refine .ok _ ⟨⟨⟨h₁.stem, h₁.minted, h₁.matrices, h₁.temporaries, ?_, h₁.mem_nodes⟩, h₁.cell⟩,
      h₁.spares⟩
    simp only [setDescription, h₁.descriptions]

/-- **Evaluating a product** in graphs in step ends alike. -/
theorem evaluate (h : g.InStep whole g') (p : Product) (occurrence : Int) :
    Alike whole (InStep whole) (evaluate p occurrence g) (evaluate p occurrence g') := by
  induction p generalizing occurrence g g' with
  | single r => exact h.evaluateReference r occurrence
  | times p q ihp ihq =>
    refine Alike.bind (ihp h occurrence) fun l g₁ g₁' h₁ => ?_
    refine Alike.bind (ihq h₁ l.occurrence) fun r g₂ g₂' h₂ => ?_
    cases l.result? with
    | none => exact .ok _ h₂
    | some left =>
      cases r.result? with
      | none => exact .ok _ h₂
      | some right =>
        exact Alike.bind (h₂.evaluateTimes left right _) fun _ _ _ h₃ => .ok _ h₃

end InStep

end Graph

end CellLineage

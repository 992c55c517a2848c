import CellLineage.Proofs.Evaluation.IntMatrix
import CellLineage.Proofs.Graph.Product

/-!
# Matrices of a graph as matrices of whole numbers

`Graph.Holds g name M` says that the matrix of a name has the shape and the values of the matrix `M`
of whole numbers. The operations on matrices of a graph then do what the operations on matrices of
whole numbers do: a copy holds the same, a transpose the transpose and a product the product. No
value is too large on the way, as there are no doubles.

## Main definitions

* `Graph.Holds`: a matrix of the graph holds a matrix of whole numbers.
* `Graph.Represents`: it does, or there is none.

## Main results

* `Graph.IsCopyOf.holds`, `Graph.IsTransposeOf.holds`: what copies and transposes hold.
* `Graph.Holds.multiply`: what forming a product leaves.
-/

namespace CellLineage.Graph

variable {g g' : Graph} {name source target : Text} {M N : IntMatrix}

/-- The matrix of the name has the shape and the values of a matrix of whole numbers. -/
def Holds (g : Graph) (name : Text) (M : IntMatrix) : Prop :=
  g.shape? name = some M.shape ∧ ∀ (i : Fin M.rows) (j : Fin M.cols),
    (g.cellAt? name i.val j.val).map Cell.value = some (.int (M.entry i j))

/-- The matrix of the name holds the given matrix, or there is no matrix and none is given. -/
def Represents (g : Graph) (name : Text) : Option IntMatrix → Prop
  | some M => g.Holds name M
  | none => g.matrices[name]? = none

theorem value_cellAt? {b : Block} (hb : g.matrices[name]? = some b) {i j : Nat} (hi : i < b.rows)
    (hj : j < b.cols) : (g.cellAt? name i j).map Cell.value = some (g.coreAt b i j).value := by
  rw [cellAt?_of_lt hb hi hj]
  rfl

/-- What a matrix holds can be read off the cores of its block. -/
theorem holds_iff : g.Holds name M ↔ ∃ b, g.matrices[name]? = some b ∧ b.rows = M.rows ∧
    b.cols = M.cols ∧ ∀ i j, i < M.rows → j < M.cols →
      (g.coreAt b i j).value = .int (M.get i j) := by
  constructor
  · rintro ⟨hs, hcells⟩
    obtain ⟨b, hb, hshape⟩ := Option.map_eq_some_iff.1 hs
    obtain ⟨hr, hc⟩ : b.rows = M.rows ∧ b.cols = M.cols := Prod.mk.inj hshape
    refine ⟨b, hb, hr, hc, fun i j hi hj => ?_⟩
    have hcell := hcells ⟨i, hi⟩ ⟨j, hj⟩
    rw [value_cellAt? hb (hi.trans_eq hr.symm) (hj.trans_eq hc.symm)] at hcell
    rw [IntMatrix.get_of_lt hi hj]
    exact Option.some.inj hcell
  · rintro ⟨b, hb, hr, hc, hcells⟩
    refine ⟨?_, fun i j => ?_⟩
    · rw [shape?, hb, Option.map_some, Block.shape, hr, hc]
      rfl
    · rw [value_cellAt? hb (i.isLt.trans_eq hr.symm) (j.isLt.trans_eq hc.symm),
        hcells i j i.isLt j.isLt, IntMatrix.get_fin]

/-- A matrix holds only one matrix of whole numbers. -/
theorem Holds.unique (hM : g.Holds name M) (hN : g.Holds name N) : M = N := by
  obtain ⟨b, hb, hr, hc, hcells⟩ := holds_iff.1 hM
  obtain ⟨b', hb', hr', hc', hcells'⟩ := holds_iff.1 hN
  obtain rfl : b = b' := Option.some.inj (hb.symm.trans hb')
  refine IntMatrix.eq_of_get_eq (hr.symm.trans hr') (hc.symm.trans hc') fun i j hi hj => ?_
  have h := hcells i j hi hj
  rw [hcells' i j (hr'.symm.trans hr ▸ hi) (hc'.symm.trans hc ▸ hj)] at h
  exact (Number.int.inj h).symm

theorem Holds.of_keeps (h : g.Holds name M) (hk : g.Keeps g' name) : g'.Holds name M := by
  obtain ⟨b, hb, hr, hc, hcells⟩ := holds_iff.1 h
  refine holds_iff.2 ⟨b, hk.matrices.trans hb, hr, hc, fun i j hi hj => ?_⟩
  rw [hk.coreAt hb (hr ▸ hi) (hc ▸ hj)]
  exact hcells i j hi hj

theorem Represents.of_keeps {M? : Option IntMatrix} (h : g.Represents name M?)
    (hk : g.Keeps g' name) : g'.Represents name M? := by
  cases M? with
  | none => exact hk.matrices.trans h
  | some M => exact Holds.of_keeps h hk

/-- There is a matrix of the name exactly if it represents one. -/
theorem Represents.hasMatrix {M? : Option IntMatrix} (h : g.Represents name M?) :
    g.hasMatrix name = M?.isSome := by
  rw [Graph.hasMatrix, Std.ExtTreeMap.contains_eq_isSome_getElem?]
  cases M? with
  | none =>
    have h : g.matrices[name]? = none := h
    rw [h]
    rfl
  | some M =>
    obtain ⟨b, hb, -⟩ := holds_iff.1 h
    rw [hb]
    rfl

/-! ### Copies and transposes -/

theorem IsCopyOf.holds {withSelf : Bool} (h : g.IsCopyOf withSelf source target)
    (hM : g.Holds source M) : g.Holds target M := by
  obtain ⟨b, hb, hr, hc, hcells⟩ := holds_iff.1 hM
  obtain ⟨s, t, hs, ht, hrow, hcol, hpass⟩ := h
  obtain rfl : b = s := Option.some.inj (hb.symm.trans hs)
  refine holds_iff.2 ⟨t, ht, hrow.trans hr, hcol.trans hc, fun i j hi hj => ?_⟩
  rw [(hpass i j (hr ▸ hi) (hc ▸ hj)).value]
  exact hcells i j hi hj

theorem IsTransposeOf.holds (h : g.IsTransposeOf source target) (hM : g.Holds source M) :
    g.Holds target M.transpose := by
  obtain ⟨b, hb, hr, hc, hcells⟩ := holds_iff.1 hM
  obtain ⟨s, t, hs, ht, hrow, hcol, hpass⟩ := h
  obtain rfl : b = s := Option.some.inj (hb.symm.trans hs)
  refine holds_iff.2 ⟨t, ht, hrow.trans hc, hcol.trans hr, fun i j hi hj => ?_⟩
  rw [(hpass j i (hr ▸ hj) (hc ▸ hi)).value, IntMatrix.get_transpose]
  exact hcells j i hj hi

/-! ### Products -/

/-- The pairs that an entry of a product is formed from are whole numbers, and their products sum up
to the entry of the product of the matrices. -/
private theorem pairsAt_int {left right : Text} {l r : Block} {P : IntMatrix}
    (hM : g.Holds left M) (hN : g.Holds right N) (hP : M.mul? N = some P)
    (hl : g.matrices[left]? = some l) (hr : g.matrices[right]? = some r) {i j : Nat}
    (hi : i < l.rows) (hj : j < r.cols) :
    (∀ p ∈ g.pairsAt l r i j, p.1.IsInt ∧ p.2.IsInt) ∧
      ((g.pairsAt l r i j).map fun p => p.1.value.toInt * p.2.value.toInt).sum = P.get i j := by
  obtain ⟨b, hb, hrow, hcol, hcells⟩ := holds_iff.1 hM
  obtain rfl : b = l := Option.some.inj (hb.symm.trans hl)
  obtain ⟨c, hc, hrow', hcol', hcells'⟩ := holds_iff.1 hN
  obtain rfl : c = r := Option.some.inj (hc.symm.trans hr)
  obtain ⟨hfits, -, -, hentry⟩ := IntMatrix.mul?_eq_some hP
  have hleft : ∀ k < b.cols, (g.coreAt b i k).value = .int (M.get i k) := fun k hk =>
    hcells i k (hrow ▸ hi) (hcol ▸ hk)
  have hright : ∀ k < b.cols, (g.coreAt c k j).value = .int (N.get k j) := fun k hk =>
    hcells' k j (hfits ▸ hcol ▸ hk) (hcol' ▸ hj)
  constructor
  · intro p hp
    obtain ⟨k, hk, rfl⟩ := List.mem_map.1 hp
    rw [List.mem_range] at hk
    exact ⟨Cell.isInt_iff.2 ⟨_, hleft k hk⟩, Cell.isInt_iff.2 ⟨_, hright k hk⟩⟩
  · have hsum : ∑ k ∈ Finset.range b.cols, M.get i k * N.get k j =
        ((List.range b.cols).map fun k => M.get i k * N.get k j).sum := rfl
    rw [hentry, ← hcol, hsum, pairsAt, List.map_map]
    refine congrArg List.sum (List.map_congr_left fun k hk => ?_)
    rw [List.mem_range] at hk
    simp only [Function.comp_apply, hleft k hk, hright k hk, Number.toInt]

theorem IsProductOf.holds {left right : Text} {leafOnly : Bool} {P : IntMatrix}
    (h : g.IsProductOf leafOnly left right target) (hM : g.Holds left M)
    (hN : g.Holds right N) (hP : M.mul? N = some P) : g.Holds target P := by
  obtain ⟨l, r, t, hl, hr, ht, -, hrow, hcol, hcells⟩ := h
  obtain ⟨b, hb, hrow', hcol', -⟩ := holds_iff.1 hM
  obtain rfl : b = l := Option.some.inj (hb.symm.trans hl)
  obtain ⟨c, hc, hrow'', hcol'', -⟩ := holds_iff.1 hN
  obtain rfl : c = r := Option.some.inj (hc.symm.trans hr)
  obtain ⟨-, hPr, hPc, -⟩ := IntMatrix.mul?_eq_some hP
  refine holds_iff.2 ⟨t, ht, ?_, ?_, fun i j hi hj => ?_⟩
  · rw [hrow, hrow', hPr]
  · rw [hcol, hcol'', hPc]
  · rw [hPr, ← hrow'] at hi
    rw [hPc, ← hcol''] at hj
    obtain ⟨d, hd, hvalue, -⟩ := hcells i j hi hj
    obtain ⟨hint, hsum⟩ := pairsAt_int hM hN hP hl hr hi hj
    obtain ⟨d', hd', htotal⟩ := Dot.ofPairs_int leafOnly hint
    obtain rfl : d = d' := Option.some.inj (hd.symm.trans hd')
    rw [hvalue, htotal, hsum]

/-- **Products of matrices of whole numbers.** If the factors fit, only the target changes and it
then holds the product; if not, nothing changes and the issue tells both shapes. -/
theorem Holds.multiply (hg : g.IsWellFormed) {left right : Text} (hM : g.Holds left M)
    (hN : g.Holds right N) (hnl : left ≠ target) (hnr : right ≠ target) (leafOnly : Bool) :
    match M.mul? N with
    | some P => ∃ g', Graph.multiply left right target leafOnly g = .ok none g' ∧
        g.WritesOnly g' target ∧ g'.IsProductOf leafOnly left right target ∧ g'.Holds target P
    | none => Graph.multiply left right target leafOnly g =
        .ok (some (.mismatch left right M.shape N.shape)) g := by
  obtain ⟨l, hl, hrow, hcol, -⟩ := holds_iff.1 hM
  obtain ⟨r, hr, hrow', hcol', -⟩ := holds_iff.1 hN
  cases hP : M.mul? N with
  | none =>
    have hc : l.cols ≠ r.rows := by
      rw [hcol, hrow']
      exact IntMatrix.mul?_eq_none_iff.1 hP
    have hshapes : l.shape = M.shape ∧ r.shape = N.shape := by
      rw [Block.shape, Block.shape, hrow, hcol, hrow', hcol']
      exact ⟨rfl, rfl⟩
    dsimp only
    rw [multiply_mismatch hl hr hc, hshapes.1, hshapes.2]
  | some P =>
    have hc : l.cols = r.rows := by
      rw [hcol, hrow']
      exact (IntMatrix.mul?_eq_some hP).1
    obtain ⟨g', hrun, hw, hprod⟩ := multiply_spec hg leafOnly hnl hnr hl hr hc
      fun i j hi hj => by
        obtain ⟨d, hd, -⟩ := Dot.ofPairs_int leafOnly
          (pairsAt_int hM hN hP hl hr hi hj).1
        exact ⟨d, hd⟩
    exact ⟨g', hrun, hw, hprod, hprod.holds (hM.of_keeps (hw.keeps left hnl))
      (hN.of_keeps (hw.keeps right hnr)) hP⟩

end CellLineage.Graph

import CellLineage.Formula.Reference

/-!
# Products

A product of references is evaluated from the left: `A*B*C` is the product of `A*B` and `C`. A
`Product` is the tree of these steps; those that formulas give rise to lean to the left
(`Product.ofFactors?`), and their references are the factors in order
(`Product.references_ofFactors?`).
-/

namespace CellLineage.Formula

/-- A product of references. -/
inductive Product where
  | single (r : Reference)
  | times (left right : Product)
  deriving DecidableEq, Repr

namespace Product

/-- The product of a sequence of factors, from the left. -/
def ofFactors (first : Reference) (others : List Reference) : Product :=
  others.foldl (fun p r => .times p (.single r)) (.single first)

/-- The product of the factors, if there are any. -/
def ofFactors? : List Reference → Option Product
  | [] => none
  | r :: rs => some (ofFactors r rs)

/-- The factors of a product, in order. -/
def references : Product → List Reference
  | .single r => [r]
  | .times p q => p.references ++ q.references

/-- A product as it is shown. -/
def display : Product → Text
  | .single r => r.display
  | .times p q => p.display ++ "*" ++ q.display

theorem references_foldl (p : Product) (rs : List Reference) :
    (rs.foldl (fun p r => .times p (.single r)) p).references = p.references ++ rs := by
  induction rs generalizing p with
  | nil => simp
  | cons r rs ih => simp [ih, references]

/-- A product of factors has these factors. -/
@[simp] theorem references_ofFactors (r : Reference) (rs : List Reference) :
    (ofFactors r rs).references = r :: rs := by
  simp [ofFactors, references_foldl, references]

/-- No factors make no product, and others make one that has them. -/
theorem references_ofFactors? (rs : List Reference) :
    ((ofFactors? rs).map references).getD [] = rs := by
  cases rs <;> simp [ofFactors?]

end Product

end CellLineage.Formula

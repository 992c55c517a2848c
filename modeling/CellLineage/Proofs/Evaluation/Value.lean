import CellLineage.Association
import CellLineage.Formula.Product
import CellLineage.Graph.Product
import CellLineage.Proofs.Evaluation.IntMatrix

/-!
# The value of a product

A product of references has a value as soon as the names have: the value of a reference is the
matrix of its name or the transpose of that, and the value of a product is the product of the
values. Where there is none, an *obstruction* says why, and further ones may be met in the other
factors. An obstruction is an issue without the names of intermediate matrices.

## Main definitions

* `Environment`: the values of names.
* `Formula.Reference.value`, `Formula.Product.value`: values by the values of the names.
* `Obstruction`, `Issue.obstruction`: why there is no value.

## Main results

* `Formula.Product.value_ofFactors`: a product of factors that all have a value has the product of
  these values, or its only obstruction is the first misfit.
-/

namespace CellLineage

/-- Matrices of whole numbers by name. -/
abbrev Environment := Association IntMatrix

/-- Why a product has no value. -/
inductive Obstruction where
  /-- There is no matrix of the name. -/
  | missing (name : Text)
  /-- Two shapes do not fit. -/
  | mismatch (left right : Nat × Nat)
  deriving DecidableEq

/-- What an issue says apart from the names of intermediate matrices. -/
def Issue.obstruction : Issue → Obstruction
  | .missing name => .missing name
  | .mismatch _ _ left right => .mismatch left right

namespace Formula

variable {env : Environment}

/-- The value of a reference, if its name has one. -/
def Reference.value (env : Environment) (r : Reference) : Option IntMatrix :=
  (env.lookup r.name).map fun M => if r.transposed then M.transpose else M

namespace Product

/-- The value of a product by those of its two parts. -/
def timesValue : Option IntMatrix × List Obstruction → Option IntMatrix × List Obstruction →
    Option IntMatrix × List Obstruction
  | (some M, ms), (some N, ns) =>
    match M.mul? N with
    | some P => (some P, ms ++ ns)
    | none => (none, ms ++ ns ++ [.mismatch M.shape N.shape])
  | (_, ms), (_, ns) => (none, ms ++ ns)

/-- The value of a product, if it has one, and what stands in the way of it. -/
def value (env : Environment) : Product → Option IntMatrix × List Obstruction
  | .single r =>
    match r.value env with
    | some M => (some M, [])
    | none => (none, [.missing r.name])
  | .times p q => timesValue (value env p) (value env q)

theorem value_times_of_some {p q : Product} {M N : IntMatrix} (hp : (value env p).1 = some M)
    (hq : (value env q).1 = some N) : value env (.times p q) = match M.mul? N with
      | some P => (some P, (value env p).2 ++ (value env q).2)
      | none => (none, (value env p).2 ++ (value env q).2 ++ [.mismatch M.shape N.shape]) := by
  rcases h : value env p with ⟨M?, ms⟩
  rcases h' : value env q with ⟨N?, ns⟩
  rw [h] at hp
  rw [h'] at hq
  obtain rfl : M? = some M := hp
  obtain rfl : N? = some N := hq
  simp only [value, timesValue, h, h']

theorem value_times_of_none {p q : Product}
    (h : (value env p).1 = none ∨ (value env q).1 = none) :
    value env (.times p q) = (none, (value env p).2 ++ (value env q).2) := by
  rcases hp : value env p with ⟨M?, ms⟩
  rcases hq : value env q with ⟨N?, ns⟩
  rw [hp, hq] at h
  rcases h with rfl | rfl
  · simp only [value, timesValue, hp, hq]
  · cases M? <;> simp only [value, timesValue, hp, hq]

theorem ofFactors_concat (first : Reference) (others : List Reference) (r : Reference) :
    ofFactors first (others ++ [r]) = .times (ofFactors first others) (.single r) := by
  simp only [ofFactors, List.foldl_append, List.foldl_cons, List.foldl_nil]

open IntMatrix in
/-- **Products of factors with values.** If all neighbours fit, the value is the product of the
values and nothing stands in its way. Otherwise only the first misfit does, with the shape of the
product of all before it. -/
theorem value_ofFactors {first : Reference} {others : List Reference} {M : IntMatrix}
    {Ms : List IntMatrix} (hfirst : first.value env = some M)
    (hothers : others.map (Reference.value env) = Ms.map some) :
    (∃ P, product? (M :: Ms) = some P ∧ value env (ofFactors first others) = (some P, [])) ∨
    ∃ before A B after, M :: Ms = before ++ A :: B :: after ∧
      (before ++ [A]).IsChain Fits ∧ ¬A.Fits B ∧ value env (ofFactors first others) =
        (none, [.mismatch (M.rows, A.cols) B.shape]) := by
  induction others using List.reverseRecOn generalizing Ms with
  | nil =>
    obtain rfl : Ms = [] := by simpa using hothers.symm
    refine .inl ⟨M, rfl, ?_⟩
    simp only [ofFactors, List.foldl_nil, value, hfirst]
  | append_singleton others r ih =>
    obtain ⟨Ms, N, rfl⟩ : ∃ Ms' N, Ms = Ms' ++ [N] := by
      have hne : Ms ≠ [] := by
        rintro rfl
        simp at hothers
      exact ⟨_, _, (List.dropLast_append_getLast hne).symm⟩
    rw [List.map_append, List.map_append] at hothers
    obtain ⟨hothers, hr⟩ := List.append_inj' hothers rfl
    have hr : r.value env = some N := by simpa using hr
    rw [ofFactors_concat, ← List.cons_append]
    rcases ih hothers with ⟨Q, hQ, hvalue⟩ | ⟨before, A, B, after, hsplit, hchain, hfits, hvalue⟩
    · cases hP : Q.mul? N with
      | some P =>
        refine .inl ⟨P, ?_, ?_⟩
        · rw [product?_concat (List.cons_ne_nil M Ms), hQ, Option.bind_some, hP]
        · simp only [value, timesValue, hvalue, hr, hP, List.append_nil]
      | none =>
        obtain ⟨hrows, hcols⟩ := shape_product? hQ
        have hlast := List.dropLast_append_getLast (List.cons_ne_nil M Ms)
        refine .inr ⟨(M :: Ms).dropLast, (M :: Ms).getLast (List.cons_ne_nil M Ms), N, [], ?_, ?_,
          ?_, ?_⟩
        · exact (congrArg (· ++ [N]) hlast).symm.trans (List.append_assoc ..)
        · rw [hlast]
          exact exists_product?_iff.1 ⟨Q, hQ⟩
        · rw [Fits, ← hcols]
          exact mul?_eq_none_iff.1 hP
        · simp only [value, timesValue, hvalue, hr, hP, List.append_nil, List.nil_append]
          rw [IntMatrix.shape, hrows, hcols]
    · refine .inr ⟨before, A, B, after ++ [N], ?_, hchain, hfits, ?_⟩
      · rw [hsplit, List.append_assoc, List.cons_append, List.cons_append]
      · simp only [value, timesValue, hvalue, hr, List.append_nil]

end Product

end Formula

end CellLineage

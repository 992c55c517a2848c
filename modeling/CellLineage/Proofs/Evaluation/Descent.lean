import CellLineage.Proofs.Evaluation.IntMatrix

/-!
# Matrices whose entries descend from an input cell

For one cell of the input, each entry of a matrix may descend from it or not. A product records what
the nonzero terms of an entry descend from: its entry descends from the cell if it has a term of two
nonzero factors of which one does. So what the zero entries of a factor descend from is lost
(`Descent.shown`), and nothing else depends on it.

An identity matrix whose ones descend from nothing is a *unit*. As a factor in front of a matrix or
behind it, it changes only what zero entries descend from. In a product it can therefore be left out
everywhere but at the end, and at the end the zero entries are all that is lost.

## Main definitions

* `Descent`: a matrix of whole numbers whose entries descend from an input cell or not.
* `Descent.times?`, `Descent.product?`: products of such matrices.
* `Descent.IsUnit`: identity matrices that descend from nothing.

## Main results

* `Descent.product?_insert_unit`: a unit that is not the last factor can be left out.
* `Descent.product?_concat_unit`: a unit at the end.
-/

namespace CellLineage

/-- A matrix of whole numbers, and whether its entries descend from an input cell. -/
structure Descent where
  matrix : IntMatrix
  descends : Nat → Nat → Prop

namespace Descent

variable {S T U P : Descent} {Ss Ts : List Descent} {n : Nat}

/-- The product, if the matrices fit. An entry descends from the cell if one of two nonzero entries
does that are multiplied for it. -/
def times? (S T : Descent) : Option Descent :=
  (S.matrix.mul? T.matrix).map fun P => ⟨P, fun i j =>
    ∃ m, S.matrix.get i m ≠ 0 ∧ T.matrix.get m j ≠ 0 ∧ (S.descends i m ∨ T.descends m j)⟩

/-- The product of a sequence of factors from the left, if there are factors and all fit. -/
def product? : List Descent → Option Descent
  | [] => none
  | S :: Ss => Ss.foldlM times? S

/-- The same matrix, in which zero entries descend from nothing. -/
def shown (S : Descent) : Descent :=
  ⟨S.matrix, fun i j => S.matrix.get i j ≠ 0 ∧ S.descends i j⟩

/-- The identity matrix of a size, whose ones descend from nothing. -/
structure IsUnit (U : Descent) (n : Nat) : Prop where
  rows : U.matrix.rows = n
  cols : U.matrix.cols = n
  get : ∀ i j, i < n → j < n → U.matrix.get i j = if i = j then 1 else 0
  not_descends : ∀ i, i < n → ¬U.descends i i

/-! ### Matrices of products -/

theorem matrix_times? (S T : Descent) : (S.times? T).map matrix = S.matrix.mul? T.matrix := by
  rw [times?, Option.map_map]
  exact Option.map_id'

theorem product?_append (hne : Ss ≠ []) (Ts : List Descent) :
    product? (Ss ++ Ts) = (product? Ss).bind fun Q => Ts.foldlM times? Q := by
  cases Ss with
  | nil => exact absurd rfl hne
  | cons S Ss => exact List.foldlM_append

theorem product?_concat (hne : Ss ≠ []) (T : Descent) :
    product? (Ss ++ [T]) = (product? Ss).bind fun Q => Q.times? T := by
  rw [product?_append hne]
  refine Option.bind_congr fun Q _ => ?_
  rw [List.foldlM_cons]
  exact bind_pure _

/-- The matrix of a product is the product of the matrices. -/
theorem matrix_product? (Ss : List Descent) :
    (product? Ss).map matrix = IntMatrix.product? (Ss.map matrix) := by
  induction Ss using List.reverseRecOn with
  | nil => rfl
  | append_singleton Ss T ih =>
    by_cases hne : Ss = []
    · subst hne
      rfl
    · rw [product?_concat hne, List.map_append, List.map_singleton,
        IntMatrix.product?_concat (List.map_eq_nil_iff.not.2 hne), ← ih, Option.map_bind,
        Option.bind_map]
      exact Option.bind_congr fun Q _ => matrix_times? Q T

/-- The shape of a product. -/
theorem shape_product? (h : product? (S :: Ss) = some P) :
    P.matrix.rows = S.matrix.rows ∧
      ∀ T ∈ (S :: Ss).getLast?, P.matrix.cols = T.matrix.cols := by
  have hP : IntMatrix.product? ((S :: Ss).map matrix) = some P.matrix := by
    rw [← matrix_product?, h, Option.map_some]
  obtain ⟨hrows, hcols⟩ := IntMatrix.shape_product? hP
  refine ⟨hrows, fun T hT => hcols.trans (congrArg IntMatrix.cols (Option.some.inj ?_))⟩
  have hlast := congrArg (Option.map matrix) (Option.mem_def.1 hT)
  rw [← List.getLast?_map, Option.map_some] at hlast
  exact (List.getLast?_eq_some_getLast _).symm.trans hlast

/-! ### Units -/

/-- What zero entries descend from is of no account in products. -/
theorem shown_times? (S T : Descent) : S.shown.times? T = S.times? T := by
  refine congrArg (fun f => (S.matrix.mul? T.matrix).map f) (funext fun P => ?_)
  refine congrArg (Descent.mk P) (funext fun i => funext fun j => propext ?_)
  refine exists_congr fun m => and_congr_right fun hS => and_congr_right fun _ => ?_
  exact or_congr_left (and_iff_right hS)

/-- An entry of a unit is nonzero on the diagonal only. -/
theorem IsUnit.get_ne_zero_iff (hU : U.IsUnit n) {i j : Nat} :
    U.matrix.get i j ≠ 0 ↔ i = j ∧ i < n := by
  constructor
  · intro h
    obtain ⟨hi, hj⟩ := IntMatrix.lt_of_get_ne_zero h
    rw [hU.rows] at hi
    rw [hU.cols] at hj
    rw [hU.get i j hi hj] at h
    exact ⟨of_not_not fun hne => h (if_neg hne), hi⟩
  · rintro ⟨rfl, hi⟩
    rw [hU.get i i hi hi, if_pos rfl]
    exact one_ne_zero

/-- A unit behind a matrix it fits. -/
theorem times?_unit (hU : U.IsUnit n) (hS : S.matrix.cols = n) : S.times? U = some S.shown := by
  obtain ⟨P, hP⟩ := IntMatrix.exists_mul?_iff.2 (show S.matrix.Fits U.matrix from
    hS.trans hU.rows.symm)
  obtain ⟨-, hrows, hcols, hget⟩ := IntMatrix.mul?_eq_some hP
  -- of the sum for an entry only the summand on the diagonal is left
  have hsame : P = S.matrix := by
    refine IntMatrix.eq_of_get_eq hrows (hcols.trans (hU.cols.trans hS.symm)) fun i j _ hj => ?_
    rw [hcols, hU.cols] at hj
    rw [hget, Finset.sum_eq_single_of_mem j (Finset.mem_range.2 (hS ▸ hj)) fun m _ hm => ?_,
      hU.get j j hj hj, if_pos rfl, mul_one]
    rw [of_not_not fun h => hm (hU.get_ne_zero_iff.1 h).1, mul_zero]
  rw [times?, hP, hsame, Option.map_some, shown]
  congr
  funext i j
  refine propext ⟨?_, fun ⟨hne, hd⟩ => ⟨j, hne, hU.get_ne_zero_iff.2 ⟨rfl, ?_⟩, .inl hd⟩⟩
  · rintro ⟨m, hne, hone, hd⟩
    obtain ⟨rfl, hm⟩ := hU.get_ne_zero_iff.1 hone
    exact ⟨hne, hd.resolve_right (hU.not_descends m hm)⟩
  · rw [← hS]
    exact (IntMatrix.lt_of_get_ne_zero hne).2

/-- A unit in front of a matrix it fits. -/
theorem unit_times? (hU : U.IsUnit n) (hT : T.matrix.rows = n) : U.times? T = some T.shown := by
  obtain ⟨P, hP⟩ := IntMatrix.exists_mul?_iff.2 (show U.matrix.Fits T.matrix from
    hU.cols.trans hT.symm)
  obtain ⟨-, hrows, hcols, hget⟩ := IntMatrix.mul?_eq_some hP
  have hsame : P = T.matrix := by
    refine IntMatrix.eq_of_get_eq (hrows.trans (hU.rows.trans hT.symm)) hcols fun i j hi _ => ?_
    rw [hrows, hU.rows] at hi
    rw [hget, Finset.sum_eq_single_of_mem i (Finset.mem_range.2 (hU.cols.symm ▸ hi))
      fun m _ hm => ?_, hU.get i i hi hi, if_pos rfl, one_mul]
    rw [of_not_not fun h => hm (hU.get_ne_zero_iff.1 h).1.symm, zero_mul]
  rw [times?, hP, hsame, Option.map_some, shown]
  congr
  funext i j
  refine propext ⟨?_, fun ⟨hne, hd⟩ => ⟨i, hU.get_ne_zero_iff.2 ⟨rfl, ?_⟩, hne, .inr hd⟩⟩
  · rintro ⟨m, hone, hne, hd⟩
    obtain ⟨rfl, hm⟩ := hU.get_ne_zero_iff.1 hone
    exact ⟨hne, hd.resolve_left (hU.not_descends i hm)⟩
  · rw [← hT]
    exact (IntMatrix.lt_of_get_ne_zero hne).1

/-- A unit as the last factor. -/
theorem product?_concat_unit (hU : U.IsUnit n) (hSs : ∀ S ∈ Ss.getLast?, S.matrix.cols = n)
    (hP : product? Ss = some P) : product? (Ss ++ [U]) = some P.shown := by
  cases Ss with
  | nil => cases hP
  | cons S Ss =>
    have hlast := List.getLast?_eq_some_getLast (List.cons_ne_nil S Ss)
    rw [product?_concat (List.cons_ne_nil S Ss), hP, Option.bind_some]
    exact times?_unit hU (((shape_product? hP).2 _ hlast).trans (hSs _ hlast))

/-- **A unit that is not the last factor** can be left out of a product of two factors or more. -/
theorem product?_insert_unit (hU : U.IsUnit n) (hSs : ∀ S ∈ Ss.getLast?, S.matrix.cols = n)
    (hTs : ∀ T ∈ Ts.head?, T.matrix.rows = n) (hlast : Ts ≠ []) (hlen : 2 ≤ (Ss ++ Ts).length) :
    product? (Ss ++ U :: Ts) = product? (Ss ++ Ts) := by
  obtain ⟨T, Ts, rfl⟩ := List.exists_cons_of_ne_nil hlast
  by_cases hne : Ss = []
  · -- the unit is the first factor, and the one it is multiplied with is not the only other one
    subst hne
    obtain ⟨T', Ts, rfl⟩ : ∃ T' Ts', Ts = T' :: Ts' :=
      List.exists_cons_of_ne_nil fun h => by
        subst h
        exact absurd hlen (by simp)
    have hunit : U.times? T = some T.shown := unit_times? hU (hTs T rfl)
    simp only [List.nil_append, product?, List.foldlM_cons, hunit, Option.bind_eq_bind,
      Option.bind_some, shown_times?]
  · rw [product?_append hne, product?_append hne]
    refine Option.bind_congr fun Q hQ => ?_
    have hcols : Q.matrix.cols = n := by
      obtain ⟨S, Ss, rfl⟩ := List.exists_cons_of_ne_nil hne
      have hlast := List.getLast?_eq_some_getLast (List.cons_ne_nil S Ss)
      exact ((shape_product? hQ).2 _ hlast).trans (hSs _ hlast)
    simp only [List.foldlM_cons, times?_unit hU hcols, Option.bind_eq_bind, Option.bind_some,
      shown_times?]

end Descent

end CellLineage

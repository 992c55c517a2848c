import Mathlib.Algebra.BigOperators.Fin
import Mathlib.Algebra.Order.BigOperators.Group.Finset
import Mathlib.Algebra.Order.Ring.Int
import Mathlib.Data.Matrix.Mul

/-!
# Matrices of whole numbers

What a matrix of a graph holds is compared with a matrix of whole numbers of its shape. Two such
matrices have a product if their shapes fit (`IntMatrix.mul?`), and so has a sequence of factors,
multiplied from the left (`IntMatrix.product?`), exactly if all neighbours fit.

An entry of a product of several factors is a sum over the *terms* of the factors: a term picks an
entry of each factor, the row of each being the column of the one before. Where no entry is
negative, terms cannot cancel, so the entry is nonzero exactly if some term is.

## Main definitions

* `IntMatrix`: a matrix of whole numbers with its shape.
* `IntMatrix.mul?`, `IntMatrix.product?`: products.
* `IntMatrix.Fits`: neighbours in a product.
* `IntMatrix.IsTerm`: the nonzero terms of a product.
* `IntMatrix.Uses`: the entries that such a term takes.

## Main results

* `IntMatrix.exists_product?_iff`: when a sequence of factors has a product.
* `IntMatrix.get_product?_ne_zero_iff`: when an entry of a product is nonzero.
-/

namespace CellLineage

/-- A matrix of whole numbers of any shape. -/
structure IntMatrix where
  rows : Nat
  cols : Nat
  entry : Matrix (Fin rows) (Fin cols) Int

namespace IntMatrix

variable {M N P : IntMatrix} {Ms : List IntMatrix} {i j : Nat}

/-- The shape of a matrix. -/
def shape (M : IntMatrix) : Nat × Nat :=
  (M.rows, M.cols)

/-- The entry at a position; outside of the shape it is zero. -/
def get (M : IntMatrix) (i j : Nat) : Int :=
  if h : i < M.rows ∧ j < M.cols then M.entry ⟨i, h.1⟩ ⟨j, h.2⟩ else 0

/-- The matrix of a shape with the entries that a function gives. -/
def ofFn (rows cols : Nat) (f : Nat → Nat → Int) : IntMatrix :=
  ⟨rows, cols, .of fun i j => f i j⟩

/-- The transpose of a matrix. -/
def transpose (M : IntMatrix) : IntMatrix :=
  ⟨M.cols, M.rows, M.entry.transpose⟩

/-- Two matrices fit if the left one has as many columns as the right one has rows. -/
def Fits (M N : IntMatrix) : Prop :=
  M.cols = N.rows

instance : DecidableRel Fits := fun M N => inferInstanceAs (Decidable (M.cols = N.rows))

/-- The product of two matrices, if they fit. -/
def mul? (M N : IntMatrix) : Option IntMatrix :=
  if h : M.Fits N then some ⟨M.rows, N.cols, M.entry * N.entry.submatrix (Fin.cast h) id⟩
  else none

/-- The product of a sequence of factors from the left, if there are factors and all fit. -/
def product? : List IntMatrix → Option IntMatrix
  | [] => none
  | M :: Ms => Ms.foldlM mul? M

/-! ### Entries -/

theorem get_of_lt (hi : i < M.rows) (hj : j < M.cols) : M.get i j = M.entry ⟨i, hi⟩ ⟨j, hj⟩ :=
  dif_pos ⟨hi, hj⟩

@[simp] theorem get_fin (i : Fin M.rows) (j : Fin M.cols) : M.get i j = M.entry i j :=
  get_of_lt i.isLt j.isLt

theorem lt_of_get_ne_zero (h : M.get i j ≠ 0) : i < M.rows ∧ j < M.cols := by
  by_contra hn
  exact h (dif_neg hn)

theorem get_ofFn {rows cols : Nat} {f : Nat → Nat → Int} (hi : i < rows) (hj : j < cols) :
    (ofFn rows cols f).get i j = f i j :=
  get_of_lt (M := ofFn rows cols f) hi hj

/-- Matrices of one shape with the same entries are the same. -/
theorem eq_of_get_eq (hr : M.rows = N.rows) (hc : M.cols = N.cols)
    (h : ∀ i j, i < M.rows → j < M.cols → M.get i j = N.get i j) : M = N := by
  obtain ⟨rows, cols, a⟩ := M
  obtain ⟨rows', cols', b⟩ := N
  obtain rfl : rows = rows' := hr
  obtain rfl : cols = cols' := hc
  congr
  ext i j
  have hij := h i j i.isLt j.isLt
  rwa [get_of_lt i.isLt j.isLt, get_of_lt (M := ⟨rows, cols, b⟩) i.isLt j.isLt] at hij

theorem get_transpose (M : IntMatrix) (i j : Nat) : M.transpose.get i j = M.get j i := by
  by_cases h : j < M.rows ∧ i < M.cols
  · rw [get_of_lt (M := M.transpose) h.2 h.1, get_of_lt h.1 h.2]
    rfl
  · rw [get, get, dif_neg h, dif_neg fun h' => h h'.symm]

/-! ### Products of two factors -/

theorem mul?_eq_none_iff : M.mul? N = none ↔ ¬M.Fits N := by
  unfold mul?
  split <;> simp_all

/-- The shape and the entries of a product. -/
theorem mul?_eq_some (h : M.mul? N = some P) : M.Fits N ∧ P.rows = M.rows ∧ P.cols = N.cols ∧
    ∀ i j, P.get i j = ∑ k ∈ Finset.range M.cols, M.get i k * N.get k j := by
  unfold mul? at h
  split at h
  · next hf =>
    cases h
    refine ⟨hf, rfl, rfl, fun i j => ?_⟩
    by_cases hij : i < M.rows ∧ j < N.cols
    · have hentry : (⟨M.rows, N.cols, M.entry * N.entry.submatrix (Fin.cast hf) id⟩ :
          IntMatrix).get i j = ∑ k : Fin M.cols, M.entry ⟨i, hij.1⟩ k *
            N.entry.submatrix (Fin.cast hf) id k ⟨j, hij.2⟩ := by
        rw [← Matrix.mul_apply]
        exact dif_pos hij
      rw [hentry, Finset.sum_range]
      refine Finset.sum_congr rfl fun k _ => ?_
      rw [get_of_lt hij.1 k.isLt, get_of_lt (hf ▸ k.isLt) hij.2]
      rfl
    · rw [get, dif_neg (by exact hij)]
      refine (Finset.sum_eq_zero fun k _ => ?_).symm
      by_contra hne
      exact hij ⟨(lt_of_get_ne_zero (left_ne_zero_of_mul hne)).1,
        (lt_of_get_ne_zero (right_ne_zero_of_mul hne)).2⟩
  · cases h

theorem exists_mul?_iff : (∃ P, M.mul? N = some P) ↔ M.Fits N := by
  rw [← Option.ne_none_iff_exists', ne_eq, mul?_eq_none_iff, not_not]

/-! ### Products of several factors -/

/-- A longer sequence has the product of a shorter one multiplied by the last factor. -/
theorem product?_concat (hne : Ms ≠ []) (N : IntMatrix) :
    product? (Ms ++ [N]) = (product? Ms).bind fun Q => Q.mul? N := by
  cases Ms with
  | nil => exact absurd rfl hne
  | cons M Ms =>
    rw [List.cons_append, product?, List.foldlM_append]
    refine Option.bind_congr fun Q _ => ?_
    rw [List.foldlM_cons]
    exact bind_pure _

/-- The shape of a product is given by the first and the last factor. -/
theorem shape_product? (h : product? (M :: Ms) = some P) :
    P.rows = M.rows ∧ P.cols = ((M :: Ms).getLast (List.cons_ne_nil M Ms)).cols := by
  induction Ms using List.reverseRecOn generalizing P with
  | nil =>
    cases h
    exact ⟨rfl, rfl⟩
  | append_singleton Ms N ih =>
    rw [← List.cons_append, product?_concat (List.cons_ne_nil M Ms)] at h
    obtain ⟨Q, hQ, hP⟩ := Option.bind_eq_some_iff.1 h
    obtain ⟨-, hr, hc, -⟩ := mul?_eq_some hP
    refine ⟨hr.trans (ih hQ).1, ?_⟩
    simp only [← List.cons_append, List.getLast_concat, hc]

/-- A sequence of factors has a product exactly if all neighbours fit. -/
theorem exists_product?_iff : (∃ P, product? (M :: Ms) = some P) ↔ (M :: Ms).IsChain Fits := by
  induction Ms using List.reverseRecOn with
  | nil => simp [product?]
  | append_singleton Ms N ih =>
    have hlast : (M :: Ms).getLast? = some ((M :: Ms).getLast (List.cons_ne_nil M Ms)) :=
      List.getLast?_eq_some_getLast _
    rw [← List.cons_append, product?_concat (List.cons_ne_nil M Ms), List.isChain_append, ← ih,
      hlast]
    simp only [List.isChain_singleton, List.head?_cons, Option.mem_some_iff, forall_eq', true_and]
    constructor
    · rintro ⟨P, hP⟩
      obtain ⟨Q, hQ, hP⟩ := Option.bind_eq_some_iff.1 hP
      refine ⟨⟨Q, hQ⟩, ?_⟩
      rw [Fits, ← (shape_product? hQ).2]
      exact (mul?_eq_some hP).1
    · rintro ⟨⟨Q, hQ⟩, hfits⟩
      rw [Fits, ← (shape_product? hQ).2] at hfits
      rw [hQ]
      exact exists_mul?_iff.2 hfits

/-! ### Terms of a product -/

/-- The indices `k 0`, `k 1` and so on pick a nonzero entry of each factor in turn. -/
def IsTerm (Ms : List IntMatrix) (k : Nat → Nat) : Prop :=
  ∀ p, ∀ M : IntMatrix, Ms[p]? = some M → M.get (k p) (k (p + 1)) ≠ 0

/-- No entry is negative. -/
def IsNonneg (M : IntMatrix) : Prop :=
  ∀ i j, 0 ≤ M.get i j

theorem isTerm_concat {k : Nat → Nat} : IsTerm (Ms ++ [N]) k ↔
    IsTerm Ms k ∧ N.get (k Ms.length) (k (Ms.length + 1)) ≠ 0 := by
  constructor
  · refine fun h => ⟨fun p M hp => h p M ?_, h Ms.length N (by simp)⟩
    rw [List.getElem?_append_left (List.getElem?_eq_some_iff.1 hp).1, hp]
  · rintro ⟨h, hN⟩ p M hp
    rcases Nat.lt_trichotomy p Ms.length with hlt | rfl | hgt
    · rw [List.getElem?_append_left hlt] at hp
      exact h p M hp
    · rw [List.getElem?_concat_length] at hp
      cases hp
      exact hN
    · rw [List.getElem?_eq_none (by simp; omega)] at hp
      cases hp

/-- A term is given by as many indices as it has factors, and one more. -/
theorem IsTerm.congr {k k' : Nat → Nat} (h : IsTerm Ms k) (hk : ∀ p ≤ Ms.length, k' p = k p) :
    IsTerm Ms k' := by
  intro p M hp
  have hlt := (List.getElem?_eq_some_iff.1 hp).1
  rw [hk p (by omega), hk (p + 1) (by omega)]
  exact h p M hp

/-- A term goes on through one more factor. -/
theorem IsTerm.concat {k : Nat → Nat} (h : IsTerm Ms k) (hN : N.get (k Ms.length) j ≠ 0) :
    ∃ k', (∀ p ≤ Ms.length, k' p = k p) ∧ k' (Ms.length + 1) = j ∧ IsTerm (Ms ++ [N]) k' := by
  have hle : ∀ p ≤ Ms.length, (if p ≤ Ms.length then k p else j) = k p := fun p hp => if_pos hp
  have hlast : (if Ms.length + 1 ≤ Ms.length then k (Ms.length + 1) else j) = j :=
    if_neg (Nat.not_succ_le_self _)
  refine ⟨fun p => if p ≤ Ms.length then k p else j, hle, hlast, ?_⟩
  rw [isTerm_concat]
  refine ⟨h.congr hle, ?_⟩
  rwa [hle _ (Nat.le_refl _), hlast]

theorem isNonneg_transpose (h : M.IsNonneg) : M.transpose.IsNonneg := fun i j => by
  rw [get_transpose]
  exact h j i

theorem isNonneg_mul? (hM : M.IsNonneg) (hN : N.IsNonneg) (h : M.mul? N = some P) :
    P.IsNonneg := by
  intro i j
  rw [(mul?_eq_some h).2.2.2]
  exact Finset.sum_nonneg fun k _ => mul_nonneg (hM i k) (hN k j)

/-- Where no entry is negative, an entry of a product is nonzero if some pair of entries is. -/
theorem get_mul?_ne_zero_iff (hM : M.IsNonneg) (hN : N.IsNonneg) (h : M.mul? N = some P) :
    P.get i j ≠ 0 ↔ ∃ m, M.get i m ≠ 0 ∧ N.get m j ≠ 0 := by
  rw [(mul?_eq_some h).2.2.2, ne_eq,
    Finset.sum_eq_zero_iff_of_nonneg fun k _ => mul_nonneg (hM i k) (hN k j)]
  push Not
  refine exists_congr fun m => ?_
  rw [Finset.mem_range, mul_ne_zero_iff]
  exact and_iff_right_of_imp fun h => (lt_of_get_ne_zero h.1).2

theorem isNonneg_product? (hMs : ∀ M ∈ Ms, M.IsNonneg) (h : product? Ms = some P) :
    P.IsNonneg := by
  induction Ms using List.reverseRecOn generalizing P with
  | nil => cases h
  | append_singleton Ms N ih =>
    by_cases hne : Ms = []
    · subst hne
      cases h
      exact hMs _ List.mem_cons_self
    · rw [product?_concat hne] at h
      obtain ⟨Q, hQ, hP⟩ := Option.bind_eq_some_iff.1 h
      exact isNonneg_mul? (ih (fun M hM => hMs M (List.mem_append_left _ hM)) hQ)
        (hMs N (by simp)) hP

/-- **Terms do not cancel.** Where no factor has a negative entry, an entry of the product is
nonzero exactly if some term from its row to its column is. -/
theorem get_product?_ne_zero_iff (hMs : ∀ M ∈ Ms, M.IsNonneg) (h : product? Ms = some P) :
    P.get i j ≠ 0 ↔ ∃ k, k 0 = i ∧ k Ms.length = j ∧ IsTerm Ms k := by
  induction Ms using List.reverseRecOn generalizing P j with
  | nil => cases h
  | append_singleton Ms N ih =>
    by_cases hne : Ms = []
    · subst hne
      cases h
      constructor
      · refine fun hij => ⟨fun p => if p = 0 then i else j, rfl, rfl, fun p M hp => ?_⟩
        obtain ⟨rfl, rfl⟩ : p = 0 ∧ N = M := by
          cases p <;> simp_all
        exact hij
      · rintro ⟨k, rfl, rfl, hk⟩
        exact hk 0 N rfl
    · rw [product?_concat hne] at h
      obtain ⟨Q, hQ, hP⟩ := Option.bind_eq_some_iff.1 h
      have hMs' : ∀ M ∈ Ms, M.IsNonneg := fun M hM => hMs M (List.mem_append_left _ hM)
      rw [get_mul?_ne_zero_iff (isNonneg_product? hMs' hQ) (hMs N (by simp)) hP]
      constructor
      · rintro ⟨m, hm, hmj⟩
        obtain ⟨k, rfl, rfl, hk⟩ := (ih hMs' hQ).1 hm
        obtain ⟨k', hle, hlast, hk'⟩ := hk.concat hmj
        refine ⟨k', hle 0 (Nat.zero_le _), ?_, hk'⟩
        rwa [List.length_append]
      · rintro ⟨k, rfl, rfl, hk⟩
        obtain ⟨hk, hlast⟩ := isTerm_concat.1 hk
        refine ⟨k Ms.length, (ih hMs' hQ).2 ⟨k, rfl, rfl, hk⟩, ?_⟩
        rwa [List.length_append]

/-- Some nonzero term of the entry in row `i` and column `j` of a product takes the entry in row `u`
and column `v` of the factor at position `p`. -/
def Uses (Ms : List IntMatrix) (i j p u v : Nat) : Prop :=
  ∃ k, k 0 = i ∧ k Ms.length = j ∧ IsTerm Ms k ∧ k p = u ∧ k (p + 1) = v

theorem uses_singleton {p u v : Nat} (hp : p < 1) :
    Uses [M] i j p u v ↔ u = i ∧ v = j ∧ M.get i j ≠ 0 := by
  obtain rfl := Nat.lt_one_iff.1 hp
  constructor
  · rintro ⟨k, rfl, rfl, hk, rfl, rfl⟩
    exact ⟨rfl, rfl, hk 0 M rfl⟩
  · rintro ⟨rfl, rfl, hM⟩
    refine ⟨fun p => if p = 0 then u else v, rfl, rfl, fun p N hp => ?_, rfl, rfl⟩
    obtain ⟨rfl, rfl⟩ : p = 0 ∧ M = N := by
      cases p <;> simp_all
    exact hM

/-- A term of a product takes from the first factors what one of their product takes that goes on
through the last factor. -/
theorem uses_concat_of_lt {p u v : Nat} (hp : p < Ms.length) :
    Uses (Ms ++ [N]) i j p u v ↔ ∃ m, Uses Ms i m p u v ∧ N.get m j ≠ 0 := by
  constructor
  · rintro ⟨k, rfl, rfl, hk, rfl, rfl⟩
    obtain ⟨hk, hN⟩ := isTerm_concat.1 hk
    refine ⟨k Ms.length, ⟨k, rfl, rfl, hk, rfl, rfl⟩, ?_⟩
    rwa [List.length_append]
  · rintro ⟨m, ⟨k, rfl, rfl, hk, rfl, rfl⟩, hN⟩
    obtain ⟨k', hle, hlast, hk'⟩ := hk.concat hN
    refine ⟨k', hle 0 (Nat.zero_le _), ?_, hk', hle p (by omega), hle (p + 1) (by omega)⟩
    rwa [List.length_append]

/-- A term of a product takes from the last factor what a nonzero entry of the product of the first
ones is multiplied with. -/
theorem uses_concat_length {u v : Nat} (hMs : ∀ M ∈ Ms, M.IsNonneg) (h : product? Ms = some P) :
    Uses (Ms ++ [N]) i j Ms.length u v ↔ v = j ∧ P.get i u ≠ 0 ∧ N.get u j ≠ 0 := by
  rw [get_product?_ne_zero_iff hMs h]
  constructor
  · rintro ⟨k, rfl, hj, hk, rfl, rfl⟩
    rw [List.length_append, List.length_singleton] at hj
    obtain ⟨hk, hN⟩ := isTerm_concat.1 hk
    exact ⟨hj, ⟨k, rfl, rfl, hk⟩, hj ▸ hN⟩
  · rintro ⟨rfl, ⟨k, rfl, rfl, hk⟩, hN⟩
    obtain ⟨k', hle, hlast, hk'⟩ := hk.concat hN
    refine ⟨k', hle 0 (Nat.zero_le _), ?_, hk', hle _ (Nat.le_refl _), hlast⟩
    rwa [List.length_append]

/-- The entries that a term takes belong to an entry of the product that is nonzero. -/
theorem Uses.get_ne_zero {p u v : Nat} (huses : Uses Ms i j p u v) (hMs : ∀ M ∈ Ms, M.IsNonneg)
    (h : product? Ms = some P) : P.get i j ≠ 0 := by
  obtain ⟨k, hi, hj, hk, -⟩ := huses
  exact (get_product?_ne_zero_iff hMs h).2 ⟨k, hi, hj, hk⟩

/-- **The entries that the terms of a product take** are those that the terms of the product of the
first factors take that go on through the last one, and the entries of the last one. -/
theorem exists_uses_concat {taken : Nat → Nat → Nat → Prop} (hMs : ∀ M ∈ Ms, M.IsNonneg)
    (h : product? Ms = some P) :
    (∃ p u v, p < (Ms ++ [N]).length ∧ Uses (Ms ++ [N]) i j p u v ∧ taken p u v) ↔
      ∃ m, P.get i m ≠ 0 ∧ N.get m j ≠ 0 ∧
        ((∃ p u v, p < Ms.length ∧ Uses Ms i m p u v ∧ taken p u v) ∨ taken Ms.length m j) := by
  rw [List.length_append, List.length_singleton]
  constructor
  · rintro ⟨p, u, v, hp, huses, ht⟩
    rcases Nat.lt_succ_iff_lt_or_eq.1 hp with hlt | rfl
    · obtain ⟨m, huses, hN⟩ := (uses_concat_of_lt hlt).1 huses
      exact ⟨m, huses.get_ne_zero hMs h, hN, .inl ⟨p, u, v, hlt, huses, ht⟩⟩
    · obtain ⟨rfl, hP, hN⟩ := (uses_concat_length hMs h).1 huses
      exact ⟨u, hP, hN, .inr ht⟩
  · rintro ⟨m, hP, hN, ⟨p, u, v, hlt, huses, ht⟩ | ht⟩
    · exact ⟨p, u, v, by omega, (uses_concat_of_lt hlt).2 ⟨m, huses, hN⟩, ht⟩
    · exact ⟨_, m, j, by omega, (uses_concat_length hMs h).2 ⟨rfl, hP, hN⟩, ht⟩

end IntMatrix

end CellLineage

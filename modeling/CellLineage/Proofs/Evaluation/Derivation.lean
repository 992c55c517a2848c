import CellLineage.Proofs.Evaluation.Holds
import CellLineage.Proofs.Evaluation.Names
import CellLineage.Proofs.Evaluation.Value

/-!
# What an evaluation leaves

Evaluating a product writes its matrices one after another and overwrites none of them: each
occurrence has an instance of its own and each multiplication a new intermediate result. So at the
end they all hold what they held right after they were written, and together they are a record of
the whole derivation (`Graph.Derives`). The graph only grows (`Graph.Extends`): names that were
settled before keep their matrices.

The invariant of the induction over the product is that its result has the value of the product, by
the values that the public names have in the graph.

## Main definitions

* `Formula.Product.resultName`: the matrix that holds a product.
* `Graph.Extends`: a graph with more intermediate matrices.
* `Graph.Derives`: the intermediate matrices of a product and how they follow from each other.

## Main results

* `Graph.evaluate_spec`: an evaluation computes the value and leaves a derivation of it.
-/

namespace CellLineage

namespace Formula.Product

/-- How many multiplications a product takes. -/
def steps : Product → Nat
  | .single _ => 0
  | .times p q => p.steps + q.steps + 1

/-- The number of occurrences of matrices in a product. -/
def size (p : Product) : Nat :=
  p.references.length

/-- The matrix that holds a product that is evaluated from an occurrence on, after a number of
intermediate results. -/
def resultName : Product → (occurrence : Int) → (temporaries : Nat) → Text
  | .single r, o, _ =>
    if r.transposed then Graph.transposeName (instanceName r.name o) else instanceName r.name o
  | .times p q, _, m => temporaryName (m + p.steps + q.steps + 1)

theorem size_times (p q : Product) : (times p q).size = p.size + q.size :=
  List.length_append

theorem lt_add_size (p : Product) (o : Int) : o < o + p.size := by
  have h : 0 < p.size := by
    induction p with
    | single r => exact Nat.one_pos
    | times p q ihp _ =>
      rw [size_times]
      omega
  omega

/-- The matrix of a product is settled as soon as the product is evaluated. -/
theorem isSettled_resultName (p : Product) (o : Int) (m : Nat) :
    IsSettled (o + p.size) (m + p.steps) (p.resultName o m) := by
  cases p with
  | single r =>
    have ho := (single r).lt_add_size o
    simp only [resultName]
    split
    · exact isSettled_transposeName ho _
    · exact isSettled_instanceName ho _
  | times p q => exact isSettled_temporaryName (by simp only [steps]; omega) _

/-- The matrix of a product is not settled before. -/
theorem not_isSettled_resultName (p : Product) (o : Int) (m : Nat) :
    ¬IsSettled o m (p.resultName o m) := by
  intro h
  cases p with
  | single r =>
    simp only [resultName] at h
    split at h
    · exact h.ne_transposeName _ o (Int.le_refl o) rfl
    · exact h.ne_instanceName _ o (Int.le_refl o) rfl
  | times p q => exact h.ne_temporaryName _ (by omega) rfl

/-- The name of the matrix of a product is not public. -/
theorem not_isPublic_resultName (p : Product) (o : Int) (m : Nat) :
    ¬IsPublic (p.resultName o m) :=
  fun h => p.not_isSettled_resultName o m (h.isSettled o m)

end Formula.Product

open Formula

namespace Graph

variable {g g' g₁ g₂ g₃ : Graph} {o o' : Int} {m : Nat} {env : Environment}

/-! ### Graphs with more intermediate matrices -/

/-- The second graph is the first one after evaluating from an occurrence on: it is well-formed, and
matrices with settled names and descriptions of earlier intermediate results are as before. -/
structure Extends (g g' : Graph) (occurrence : Int) : Prop where
  isWellFormed : g'.IsWellFormed
  temporaries_le : g.temporaries ≤ g'.temporaries
  keeps : ∀ {name}, IsSettled occurrence g.temporaries name → g.Keeps g' name
  descriptions : ∀ k, k ≤ g.temporaries →
    g'.descriptions[temporaryName k]? = g.descriptions[temporaryName k]?

theorem Extends.refl (hg : g.IsWellFormed) (o : Int) : g.Extends g o :=
  ⟨hg, Nat.le_refl _, fun {name} _ => .refl g name, fun _ _ => rfl⟩

theorem Extends.trans (h : g₁.Extends g₂ o) (h' : g₂.Extends g₃ o') (ho : o ≤ o') :
    g₁.Extends g₃ o where
  isWellFormed := h'.isWellFormed
  temporaries_le := Nat.le_trans h.temporaries_le h'.temporaries_le
  keeps hn := (h.keeps hn).trans (h'.keeps (hn.mono ho h.temporaries_le))
  descriptions k hk :=
    (h'.descriptions k (Nat.le_trans hk h.temporaries_le)).trans (h.descriptions k hk)

/-- Writing a matrix whose name is not settled yet extends the graph. -/
theorem WritesOnly.extends {name : Text} (h : g.WritesOnly g' name)
    (hn : ¬IsSettled o g.temporaries name) : g.Extends g' o where
  isWellFormed := h.isWellFormed
  temporaries_le := Nat.le_of_eq h.temporaries.symm
  keeps {other} hother := h.keeps other fun he => hn (he ▸ hother)
  descriptions k _ := by rw [h.descriptions]

/-! ### Derivations -/

/-- The graph holds the intermediate matrices of a product: an instance of each occurrence, its
transpose if asked for, and for each multiplication the described product of its factors. -/
def Derives (g : Graph) : Product → (occurrence : Int) → (temporaries : Nat) → Prop
  | .single r, o, _ =>
    g.IsCopyOf true r.name (instanceName r.name o) ∧ (r.transposed = true →
      g.IsTransposeOf (instanceName r.name o) (transposeName (instanceName r.name o)))
  | .times p q, o, m =>
    g.Derives p o m ∧ g.Derives q (o + p.size) (m + p.steps) ∧
      g.IsProductOf false (p.resultName o m) (q.resultName (o + p.size) (m + p.steps))
        ((Product.times p q).resultName o m) ∧
      g.descriptions[(Product.times p q).resultName o m]? = some (Product.times p q).display

/-- A derivation stays as long as the matrices it starts from and those it wrote are kept. These are
the ones whose names were not settled before it and are after it. -/
theorem Derives.of_keeps {p : Product} (h : g.Derives p o m)
    (hrefs : ∀ r ∈ p.references, g.Keeps g' r.name)
    (hkeeps : ∀ name, ¬IsSettled o m name → IsSettled (o + p.size) (m + p.steps) name →
      g.Keeps g' name)
    (hdesc : ∀ k, m < k → k ≤ m + p.steps →
      g'.descriptions[temporaryName k]? = g.descriptions[temporaryName k]?) :
    g'.Derives p o m := by
  induction p generalizing o m with
  | single r =>
    have hlt := (Product.single r).lt_add_size o
    have hinst := hkeeps (instanceName r.name o)
      (fun hn => hn.ne_instanceName _ o (Int.le_refl o) rfl) (isSettled_instanceName hlt _)
    have htrans := hkeeps (transposeName (instanceName r.name o))
      (fun hn => hn.ne_transposeName _ o (Int.le_refl o) rfl) (isSettled_transposeName hlt _)
    exact ⟨h.1.of_keeps (hrefs r List.mem_cons_self) hinst,
      fun ht => (h.2 ht).of_keeps hinst htrans⟩
  | times p q ihp ihq =>
    obtain ⟨hp, hq, hprod, hd⟩ := h
    have hsize : o + ((Product.times p q).size : Int) = o + p.size + q.size := by
      rw [Product.size_times]
      omega
    have hsteps : m + (Product.times p q).steps = m + p.steps + q.steps + 1 := by
      simp only [Product.steps]
      omega
    rw [hsize, hsteps] at hkeeps
    rw [hsteps] at hdesc
    -- what a part writes is not settled before the whole and is after it
    have hkp : ∀ name, ¬IsSettled o m name → IsSettled (o + p.size) (m + p.steps) name →
        g.Keeps g' name := fun name h₁ h₂ => hkeeps name h₁ (h₂.mono (by omega) (by omega))
    have hkq : ∀ name, ¬IsSettled (o + p.size) (m + p.steps) name →
        IsSettled (o + p.size + q.size) (m + p.steps + q.steps) name → g.Keeps g' name :=
      fun name h₁ h₂ => hkeeps name (fun h => h₁ (h.mono (by omega) (by omega)))
        (h₂.mono (by omega) (by omega))
    have hrp : ∀ r ∈ p.references, g.Keeps g' r.name := fun r hr =>
      hrefs r (List.mem_append_left _ hr)
    have hrq : ∀ r ∈ q.references, g.Keeps g' r.name := fun r hr =>
      hrefs r (List.mem_append_right _ hr)
    refine ⟨ihp hp hrp hkp fun k h₁ h₂ => hdesc k h₁ (by omega),
      ihq hq hrq hkq fun k h₁ h₂ => hdesc k (by omega) (by omega),
      hprod.of_keeps
        (hkp _ (p.not_isSettled_resultName _ _) (p.isSettled_resultName _ _))
        (hkq _ (q.not_isSettled_resultName _ _) (q.isSettled_resultName _ _))
        (hkeeps _ ((Product.times p q).not_isSettled_resultName _ _)
          (isSettled_temporaryName (Nat.le_refl _) _)), ?_⟩
    · exact (hdesc _ (by omega) (Nat.le_refl _)).trans hd

/-- Evaluating something else afterwards keeps a derivation from public names. -/
theorem Derives.of_extends {p : Product} (h : g.Derives p o m) (he : g.Extends g' o')
    (hpublic : ∀ r ∈ p.references, IsPublic r.name) (ho : o + p.size ≤ o')
    (hm : m + p.steps ≤ g.temporaries) : g'.Derives p o m := by
  refine h.of_keeps (fun r hr => ?_) (fun name _ hn => ?_) fun k _ hk => ?_
  · exact he.keeps ((hpublic r hr).isSettled _ _)
  · exact he.keeps (hn.mono ho hm)
  · exact he.descriptions k (by omega)

/-! ### Evaluating -/

/-- The graph `g'` and `e` are what evaluating a product in `g` is to leave: the result and the
issues are those of the value, and if there is a value the graph holds it and its derivation. -/
structure IsEvaluation (env : Environment) (p : Product) (o : Int) (g : Graph)
    (e : Evaluated) (g' : Graph) : Prop extends g.Extends g' o where
  occurrence : e.occurrence = o + p.size
  obstructions : e.issues.map Issue.obstruction = (p.value env).2
  of_value_eq_none : (p.value env).1 = none → e.result? = none
  of_value_eq_some : ∀ {M}, (p.value env).1 = some M →
    e.result? = some (p.resultName o g.temporaries) ∧
      g'.temporaries = g.temporaries + p.steps ∧
      g'.Holds (p.resultName o g.temporaries) M ∧ g'.Derives p o g.temporaries

theorem name_ne_instanceName (name : Text) (o : Int) : name ≠ instanceName name o := by
  intro h
  have h := congrArg (fun t : Text => t.symbols.length) h
  simp only [instanceName, Text.symbols_append, List.length_append] at h
  have : (Text.ofString "@").symbols.length = 1 := by decide
  omega

theorem name_ne_transposeName (name : Text) (o : Int) :
    name ≠ transposeName (instanceName name o) := by
  intro h
  have h := congrArg (fun t : Text => t.symbols.length) h
  simp only [transposeName, instanceName, Text.symbols_append, List.length_append] at h
  have : (Text.ofString "@").symbols.length = 1 := by decide
  omega

/-- An occurrence of a matrix leaves an instance of it, transposed if so asked. -/
theorem evaluateReference_spec (hg : g.IsWellFormed) (r : Reference) (o : Int)
    (hr : g.Represents r.name (env.lookup r.name)) :
    ∃ e g', evaluateReference r o g = .ok e g' ∧ IsEvaluation env (.single r) o g e g' := by
  cases hM : env.lookup r.name with
  | none =>
    rw [hM] at hr
    have hvalue : (Product.single r).value env = (none, [.missing r.name]) := by
      simp only [Product.value, Reference.value, hM, Option.map_none]
    refine ⟨⟨none, o + 1, [.missing r.name]⟩, g, ?_, .refl hg o, rfl, ?_, fun _ => rfl,
      fun h => ?_⟩
    · simp only [evaluateReference, get_bind_eq, instantiate_eq_none hr]
      rfl
    · rw [hvalue]
      rfl
    · rw [hvalue] at h
      cases h
  | some M =>
    rw [hM] at hr
    have hr : g.Holds r.name M := hr
    obtain ⟨s, hs, -⟩ := holds_iff.1 hr
    obtain ⟨g₁, hinst, hw₁, hcopy⟩ := instantiate_spec hg hs (name_ne_instanceName r.name o)
    have he₁ : g.Extends g₁ o :=
      hw₁.extends fun hn => hn.ne_instanceName _ o (Int.le_refl o) rfl
    have hM₁ : g₁.Holds r.name M := hr.of_keeps (hw₁.keeps _ (name_ne_instanceName r.name o))
    cases ht : r.transposed with
    | false =>
      have hvalue : (Product.single r).value env = (some M, []) := by
        simp [Product.value, Reference.value, hM, ht]
      refine ⟨⟨some (instanceName r.name o), o + 1, []⟩, g₁, ?_, he₁, rfl, ?_, fun h => ?_,
        fun h => ?_⟩
      · simp only [evaluateReference, get_bind_eq, hinst, ht, Bool.false_eq_true, if_false]
        rfl
      · rw [hvalue]
        rfl
      · rw [hvalue] at h
        cases h
      · rw [hvalue] at h
        cases h
        have hname : (Product.single r).resultName o g.temporaries = instanceName r.name o :=
          if_neg (by simp [ht])
        rw [hname]
        exact ⟨rfl, hw₁.temporaries, hcopy.holds hM₁, hcopy, fun h => by simp [ht] at h⟩
    | true =>
      have hvalue : (Product.single r).value env = (some M.transpose, []) := by
        simp [Product.value, Reference.value, hM, ht]
      obtain ⟨b, hb, -⟩ := holds_iff.1 (hcopy.holds hM₁)
      obtain ⟨g₂, htrans, hw₂, htransposed⟩ := transpose_spec hw₁.isWellFormed hb
      have he₂ : g₁.Extends g₂ o :=
        hw₂.extends fun hn => hn.ne_transposeName _ o (Int.le_refl o) rfl
      have hcopy₂ := hcopy.of_keeps (hw₂.keeps _ (name_ne_transposeName r.name o))
        (hw₂.keeps _ (ne_transposeName _))
      have hinst₂ := (hcopy.holds hM₁).of_keeps (hw₂.keeps _ (ne_transposeName _))
      refine ⟨⟨some (transposeName (instanceName r.name o)), o + 1, []⟩, g₂, ?_,
        he₁.trans he₂ (Int.le_refl o), rfl, ?_, fun h => ?_, fun h => ?_⟩
      · simp only [evaluateReference, get_bind_eq, hinst, ht, if_true, htrans]
        rfl
      · rw [hvalue]
        rfl
      · rw [hvalue] at h
        cases h
      · rw [hvalue] at h
        cases h
        have hname : (Product.single r).resultName o g.temporaries =
            transposeName (instanceName r.name o) := if_pos ht
        rw [hname]
        exact ⟨rfl, hw₂.temporaries.trans hw₁.temporaries, htransposed.holds hinst₂, hcopy₂,
          fun _ => htransposed⟩

/-- A multiplication takes a new intermediate result, also where there is no product. -/
theorem evaluateTimes_spec (hg : g.IsWellFormed) {left right : Text} {M N : IntMatrix}
    (hM : g.Holds left M) (hN : g.Holds right N)
    (hl : left ≠ temporaryName (g.temporaries + 1))
    (hr : right ≠ temporaryName (g.temporaries + 1)) (expression : Text) :
    ∃ g', (∀ o, g.Extends g' o) ∧ g'.temporaries = g.temporaries + 1 ∧
      match M.mul? N with
      | some P => evaluateTimes left right expression g =
            .ok (some (temporaryName (g.temporaries + 1)), []) g' ∧
          g'.Holds (temporaryName (g.temporaries + 1)) P ∧
          g'.IsProductOf false left right (temporaryName (g.temporaries + 1)) ∧
          g'.descriptions[temporaryName (g.temporaries + 1)]? = some expression
      | none => evaluateTimes left right expression g =
          .ok (none, [.mismatch left right M.shape N.shape]) g' := by
  set temporary := temporaryName (g.temporaries + 1) with htemporary
  let g₁ : Graph := { g with temporaries := g.temporaries + 1 }
  have hg₁ : g₁.IsWellFormed := (Edit.describe g _ g.descriptions).isWellFormed hg
  have hk₁ : ∀ name, g.Keeps g₁ name := keeps_describe g _ g.descriptions
  have hmult := (hM.of_keeps (hk₁ _)).multiply hg₁ (hN.of_keeps (hk₁ _)) hl hr false
  cases hP : M.mul? N with
  | none =>
    rw [hP] at hmult
    refine ⟨g₁, fun o => ⟨hg₁, Nat.le_succ _, fun {name} _ => hk₁ name, fun _ _ => rfl⟩, rfl, ?_⟩
    exact bind_eq_of_ok hmult
  | some P =>
    rw [hP] at hmult
    obtain ⟨g₂, hg₂, hw, hprod, hholds⟩ := hmult
    let g₃ : Graph := g₂.setDescription temporary expression
    have hk₃ : ∀ name, g₂.Keeps g₃ name :=
      keeps_describe g₂ g₂.temporaries (g₂.descriptions.insert temporary expression)
    have hdesc (name : Text) : g₃.descriptions[name]? =
        if temporary = name then some expression else g.descriptions[name]? := by
      have : g₃.descriptions = g.descriptions.insert temporary expression :=
        congrArg (·.insert temporary expression) hw.descriptions
      rw [this, Std.ExtTreeMap.getElem?_insert]
      simp only [Std.LawfulEqCmp.compare_eq_iff_eq]
    refine ⟨g₃, fun o => ⟨?_, ?_, fun {name} hn => ?_, fun k hk => ?_⟩, hw.temporaries,
      bind_eq_of_ok hg₂, hholds.of_keeps (hk₃ _), hprod.of_keeps (hk₃ _) (hk₃ _) (hk₃ _), ?_⟩
    · exact (Edit.describe g₂ g₂.temporaries _).isWellFormed hw.isWellFormed
    · exact (Nat.le_succ g.temporaries).trans_eq hw.temporaries.symm
    · have hne : name ≠ temporary := hn.ne_temporaryName _ (Nat.lt_succ_self _)
      exact ((hk₁ name).trans (hw.keeps name hne)).trans (hk₃ name)
    · rw [hdesc, if_neg]
      rw [htemporary, temporaryName_inj]
      omega
    · rw [hdesc, if_pos rfl]

/-- The results of two products that are evaluated one after the other are multiplied. -/
private theorem evaluate_times_eq {p q : Product} {l r : Evaluated} {left right : Text}
    (hp : evaluate p o g₁ = .ok l g₂) (hq : evaluate q l.occurrence g₂ = .ok r g₃)
    (hl : l.result? = some left) (hr : r.result? = some right) :
    evaluate (.times p q) o g₁ = (do
      let (result?, issues) ← evaluateTimes left right (Product.times p q).display
      return ⟨result?, r.occurrence, l.issues ++ r.issues ++ issues⟩ : Run Evaluated) g₃ := by
  cases l
  cases r
  cases hl
  cases hr
  exact (bind_eq_of_ok hp).trans (bind_eq_of_ok hq)

/-- If one of the two has no result, there is nothing to multiply. -/
private theorem evaluate_times_eq_of_none {p q : Product} {l r : Evaluated}
    (hp : evaluate p o g₁ = .ok l g₂) (hq : evaluate q l.occurrence g₂ = .ok r g₃)
    (h : l.result? = none ∨ r.result? = none) :
    evaluate (.times p q) o g₁ = .ok ⟨none, r.occurrence, l.issues ++ r.issues⟩ g₃ := by
  refine ((bind_eq_of_ok hp).trans (bind_eq_of_ok hq)).trans ?_
  rcases h with h | h
  · rw [h]
    rfl
  · rw [h]
    cases l.result? <;> rfl

/-- The counts and the issues of two products that are evaluated one after the other add up. -/
private theorem IsEvaluation.times {p q : Product} {l r : Evaluated}
    (hp : IsEvaluation env p o g₁ l g₂) (hq : IsEvaluation env q l.occurrence g₂ r g₃) :
    g₁.Extends g₃ o ∧ r.occurrence = o + (Product.times p q).size ∧
      (l.issues ++ r.issues).map Issue.obstruction = (p.value env).2 ++ (q.value env).2 := by
  have hocc := hp.occurrence
  have hlt := p.lt_add_size o
  refine ⟨hp.toExtends.trans hq.toExtends (by omega), ?_, ?_⟩
  · rw [hq.occurrence, hocc, Product.size_times]
    omega
  · rw [List.map_append, hp.obstructions, hq.obstructions]

/-- Two products that are evaluated one after the other and both have a value are multiplied. -/
private theorem evaluate_times_of_some {p q : Product} {l r : Evaluated} {M N : IntMatrix}
    (hp : IsEvaluation env p o g₁ l g₂) (hq : IsEvaluation env q l.occurrence g₂ r g₃)
    (hpublic : ∀ r ∈ (Product.times p q).references, IsPublic r.name)
    (hM : (p.value env).1 = some M) (hN : (q.value env).1 = some N) :
    ∃ e g', (do
        let (result?, issues) ← evaluateTimes (p.resultName o g₁.temporaries)
          (q.resultName l.occurrence g₂.temporaries) (Product.times p q).display
        return ⟨result?, r.occurrence, l.issues ++ r.issues ++ issues⟩ : Run Evaluated) g₃ =
          .ok e g' ∧ IsEvaluation env (.times p q) o g₁ e g' := by
  obtain ⟨-, hmp, hholdsp, hderp⟩ := hp.of_value_eq_some hM
  obtain ⟨-, hmq, hholdsq, hderq⟩ := hq.of_value_eq_some hN
  have hocc := hp.occurrence
  have hlt := p.lt_add_size o
  have hle : o ≤ l.occurrence := by omega
  have hsettledp : IsSettled l.occurrence g₂.temporaries (p.resultName o g₁.temporaries) := by
    rw [hocc, hmp]
    exact p.isSettled_resultName o g₁.temporaries
  have hsettledq : IsSettled r.occurrence g₃.temporaries
      (q.resultName l.occurrence g₂.temporaries) := by
    rw [hq.occurrence, hmq]
    exact q.isSettled_resultName l.occurrence g₂.temporaries
  have hholdsp₃ := hholdsp.of_keeps (hq.keeps hsettledp)
  have hlp := hsettledp.mono (Int.le_refl _) hq.temporaries_le
  obtain ⟨g₄, he₄, htemp₄, hrun⟩ := evaluateTimes_spec hq.isWellFormed hholdsp₃ hholdsq
    (hlp.ne_temporaryName _ (Nat.lt_succ_self _))
    (hsettledq.ne_temporaryName _ (Nat.lt_succ_self _)) (Product.times p q).display
  have heq : g₂.Extends g₄ l.occurrence := hq.toExtends.trans (he₄ _) (Int.le_refl _)
  have hextends : g₁.Extends g₄ o := hp.toExtends.trans heq hle
  obtain ⟨-, hoccurrence, hissues⟩ := hp.times hq
  have hvalue := Product.value_times_of_some hM hN
  cases hP : M.mul? N with
  | none =>
    rw [hP] at hrun hvalue
    refine ⟨_, g₄, bind_eq_of_ok hrun, hextends, hoccurrence, ?_, fun _ => rfl, fun h => ?_⟩
    · rw [hvalue, List.map_append, hissues]
      rfl
    · rw [hvalue] at h
      cases h
  | some P =>
    rw [hP] at hrun hvalue
    obtain ⟨hrun, hholds, hprod, hdesc⟩ := hrun
    have hname : (Product.times p q).resultName o g₁.temporaries =
        temporaryName (g₃.temporaries + 1) := by
      rw [hmq, hmp]
      rfl
    refine ⟨_, g₄, bind_eq_of_ok hrun, hextends, hoccurrence, ?_, fun h => ?_, fun h => ?_⟩
    · rw [hvalue, List.append_nil, hissues]
    · rw [hvalue] at h
      cases h
    · rw [hvalue] at h
      cases h
      rw [hname]
      refine ⟨rfl, ?_, hholds, ?_, ?_, ?_, ?_⟩
      · rw [htemp₄, hmq, hmp, Product.steps]
        omega
      · exact hderp.of_extends heq (fun r hr => hpublic r (List.mem_append_left _ hr))
          (Int.le_of_eq hocc.symm) (Nat.le_of_eq hmp.symm)
      · rw [← hocc, ← hmp]
        exact hderq.of_extends (he₄ r.occurrence)
          (fun r hr => hpublic r (List.mem_append_right _ hr)) (Int.le_of_eq hq.occurrence.symm)
          (Nat.le_of_eq hmq.symm)
      · rw [hname, ← hocc, ← hmp]
        exact hprod
      · rw [hname]
        exact hdesc

/-- **Evaluation.** If the names of a product are public and stand for matrices of whole numbers or
none, evaluating the product gives its value and leaves a derivation of it. -/
theorem evaluate_spec {p : Product} (hg : g.IsWellFormed)
    (hp : ∀ r ∈ p.references, IsPublic r.name ∧ g.Represents r.name (env.lookup r.name)) :
    ∃ e g', evaluate p o g = .ok e g' ∧ IsEvaluation env p o g e g' := by
  induction p generalizing o g with
  | single r => exact evaluateReference_spec hg r o (hp r List.mem_cons_self).2
  | times p q ihp ihq =>
    obtain ⟨l, g₁, hrunp, hevalp⟩ := ihp hg (o := o) fun r hr => hp r (List.mem_append_left _ hr)
    obtain ⟨r, g₂, hrunq, hevalq⟩ := ihq hevalp.isWellFormed (o := l.occurrence) fun r hr => by
      obtain ⟨hpublic, hr⟩ := hp r (List.mem_append_right _ hr)
      exact ⟨hpublic, hr.of_keeps (hevalp.keeps (hpublic.isSettled _ _))⟩
    obtain ⟨hextends, hoccurrence, hissues⟩ := hevalp.times hevalq
    -- without a value of one factor there is no multiplication
    have hnone (h : (p.value env).1 = none ∨ (q.value env).1 = none) :
        ∃ e g', evaluate (.times p q) o g = .ok e g' ∧ IsEvaluation env (.times p q) o g e g' := by
      have hvalue := Product.value_times_of_none h
      have hresult := h.imp hevalp.of_value_eq_none hevalq.of_value_eq_none
      refine ⟨_, g₂, evaluate_times_eq_of_none hrunp hrunq hresult, hextends, hoccurrence, ?_,
        fun _ => rfl, fun h => ?_⟩
      · rw [hvalue, hissues]
      · rw [hvalue] at h
        cases h
    cases hM : (p.value env).1 with
    | none => exact hnone (.inl hM)
    | some M =>
      cases hN : (q.value env).1 with
      | none => exact hnone (.inr hN)
      | some N =>
        rw [evaluate_times_eq hrunp hrunq (hevalp.of_value_eq_some hM).1
          (hevalq.of_value_eq_some hN).1]
        exact evaluate_times_of_some hevalp hevalq (fun r hr => (hp r hr).1) hM hN

end Graph

end CellLineage

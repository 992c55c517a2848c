import CellLineage.Proofs.Recompute.Account
import CellLineage.Proofs.Recompute.Input
import CellLineage.Proofs.Recompute.Iterative
import CellLineage.Proofs.Recompute.Terms

/-!
# The lineage of an iterative plan

Each matrix that a run of an iterative plan computes goes to a name that was not there before, and
the instances and intermediate results it was computed from are not written again. So at the end the
graph still holds the derivation of every matrix from its definition, and each matrix has its fully
expanded terms: the lineage of a nonzero cell is exact down to the input matrices.

The relation that every step of a run keeps is `Graph.Traces`. Beside what `Graph.Simulates` says it
names the derivations that the graph holds, one for each definition in the account.

## Main definitions

* `Graph.Defines`: the graph holds the derivation of a matrix from its definition.
* `Graph.Traces`: a run has come as far as an account and holds all its derivations.

## Main results

* `Graph.runBaseCases_traces`, `Graph.runRecurrence_traces`: runs keep accounts.
* `Graph.recompute_expands`: the lineage of a recompute of an iterative plan.
-/

namespace CellLineage

open Formula

/-! ### The names of a plan -/

namespace Formula

open IterativePlan

theorem mem_usedNames_iff {plan : IterativePlan} {name : Text} :
    name ∈ (Plan.iterative plan).usedNames ↔
      (∃ s ∈ plan.statements, ∃ r ∈ s.target :: s.factors, r.isRelative = false ∧ r.name = name) ∨
        ∃ c ∈ plan.constants, c.reference.name = name := by
  simp only [Plan.usedNames, Plan.fixedNames, List.mem_append, List.mem_map, List.mem_filter,
    List.mem_flatMap, List.mem_cons, Bool.not_eq_true']
  refine or_congr_left ⟨?_, ?_⟩
  · rintro ⟨r, ⟨⟨s, hs, hr⟩ | ⟨s, hs, rfl⟩, hrel⟩, rfl⟩
    · exact ⟨s, hs, r, .inr hr, hrel, rfl⟩
    · exact ⟨s, hs, _, .inl rfl, hrel, rfl⟩
  · rintro ⟨s, hs, r, rfl | hr, hrel, rfl⟩
    · exact ⟨_, ⟨.inr ⟨s, hs, rfl⟩, hrel⟩, rfl⟩
    · exact ⟨r, ⟨.inl ⟨s, hs, hr⟩, hrel⟩, rfl⟩

/-- The names that a plan lists are those that it uses, if it has no fault and no recurrence was
replaced. -/
def IterativePlan.ListsUsed (plan : IterativePlan) : Prop :=
  plan.fault? = none → plan.replaced = [] →
    ∀ name ∈ plan.explicit, name ∈ (Plan.iterative plan).usedNames

theorem IterativePlan.isPreserved_listsUsed : IsPreserved ListsUsed where
  refuse _ _ hfault := by cases hfault
  constant {plan r} text h _ hfault hreplaced := by
    refine List.forall_mem_append.2 ⟨fun name hname => ?_, List.forall_mem_singleton.2 ?_⟩
    · rw [mem_usedNames_iff]
      refine (mem_usedNames_iff.1 (h hfault hreplaced name hname)).imp_right ?_
      rintro ⟨c, hc, rfl⟩
      exact ⟨c, List.mem_append_left _ hc, rfl⟩
    · exact mem_usedNames_iff.2 (.inr ⟨⟨r, text⟩, List.mem_append_right _ List.mem_cons_self, rfl⟩)
  assign {plan target factors} left text h _ _ := by
    have hnumber {r : Reference} (hr : r.subscript.isNumber = true) : r.isRelative = false := by
      unfold Reference.isRelative
      cases hs : r.subscript <;> simp_all [Subscript.isNumber, Subscript.isRelative]
    have hlists {plan' : IterativePlan} (hconstants : plan'.constants = plan.constants)
        (hstatements : plan.statements ⊆ plan'.statements)
        (hmem : ⟨target, factors, text⟩ ∈ plan'.statements) (hfault : plan.fault? = none)
        (hreplaced : plan.replaced = []) : ∀ name ∈ plan.explicit ++ numberedNames factors,
          name ∈ (Plan.iterative plan').usedNames := by
      refine List.forall_mem_append.2 ⟨fun name hname => ?_, fun name hname => ?_⟩
      · rw [mem_usedNames_iff, hconstants]
        refine (mem_usedNames_iff.1 (h hfault hreplaced name hname)).imp_left ?_
        rintro ⟨s, hs, hr⟩
        exact ⟨s, hstatements hs, hr⟩
      · obtain ⟨r, hr, rfl⟩ := List.mem_map.1 hname
        obtain ⟨hr, hrel⟩ := List.mem_filter.1 hr
        exact mem_usedNames_iff.2
          (.inl ⟨_, hmem, r, List.mem_cons_of_mem _ hr, hnumber hrel, rfl⟩)
    unfold IterativePlan.assign
    dsimp only
    split
    · intro hfault hreplaced
      -- a recurrence that counts takes the place of none
      cases hnone : plan.recurrence? with
      | some old => simp [hnone] at hreplaced
      | none =>
        refine hlists rfl ?_ ?_ hfault (by rwa [hnone] at hreplaced)
        · simp [statements, hnone]
        · simp [statements]
    · intro hfault hreplaced
      cases hnone : plan.recurrence? with
      | some old => simp [hnone] at hreplaced
      | none =>
        refine hlists rfl ?_ ?_ hfault (by rwa [hnone] at hreplaced)
        · simp [statements, hnone]
        · simp [statements]
    · next k hs =>
      intro hfault hreplaced
      have hmem : ⟨target, factors, text⟩ ∈ plan.baseCases ++ [⟨target, factors, text⟩] ++
          plan.recurrence?.toList := by simp
      refine List.forall_mem_append.2 ⟨hlists rfl ?_ hmem hfault hreplaced,
        List.forall_mem_singleton.2 ?_⟩
      · intro s hs
        simp only [statements, List.mem_append] at hs ⊢
        tauto
      · refine mem_usedNames_iff.2 (.inl ⟨_, hmem, target, List.mem_cons_self, hnumber ?_, rfl⟩)
        rw [hs, Subscript.isNumber]
    · exact fun hfault => by cases hfault

/-- The input matrices that a plan reads are among those that it uses, if no recurrence was
replaced. -/
theorem Plan.mem_usedNames_of_mem_baseMatrices {formula : Text} {plan : IterativePlan}
    (hread : Plan.read formula = .ok (.iterative plan)) (hreplaced : plan.replaced = [])
    {name : Text} (h : name ∈ (Plan.iterative plan).baseMatrices) :
    name ∈ (Plan.iterative plan).usedNames := by
  rw [baseMatrices] at h
  split at h
  · exact absurd h List.not_mem_nil
  · next hfault =>
    have hfault : plan.fault? = none := Option.not_isSome_iff_eq_none.1 hfault
    have hlists := isPreserved_listsUsed.of_read
      (fun _ _ _ hname => absurd hname List.not_mem_nil) (Plan.iterative_of_read hread)
    rcases List.mem_append.1 (mem_sortedNames.1 (List.mem_filter.1 h).1) with h | h
    · exact hlists hfault hreplaced name h
    · obtain ⟨r, hr, rfl⟩ := List.mem_map.1 h
      obtain ⟨hr, hrel⟩ := List.mem_filter.1 hr
      obtain ⟨s, hs, hr⟩ := List.mem_flatMap.1 hr
      exact mem_usedNames_iff.2 (.inl ⟨s, hs, r, List.mem_cons_of_mem _ hr, by simpa using hrel, rfl⟩)

/-- The references of a plan are named as the grammar wants it, if no name that it uses holds an at
sign. -/
theorem Plan.isNamed_of_read {formula : Text} {plan : IterativePlan}
    (hread : Plan.read formula = .ok (.iterative plan))
    (hnames : ∀ name ∈ (Plan.iterative plan).usedNames, .char '@' ∉ name.symbols) :
    ∀ s ∈ plan.statements, s.IsNamed := by
  intro s hs r hr
  obtain ⟨htarget, hfactors⟩ := Plan.isWritten_of_read hread s hs
  have hbase : ∀ r ∈ s.target :: s.factors, IsBase r.base :=
    List.forall_mem_cons.2 ⟨htarget, hfactors⟩
  refine ⟨hbase r hr, isPublic_name (hbase r hr) ?_⟩
  cases hrel : r.isRelative with
  | true =>
    rw [Reference.name_eq_base_of_isRelative hrel]
    exact at_notMem_of_isBase (hbase r hr)
  | false => exact hnames r.name (mem_usedNames_iff.2 (.inl ⟨s, hs, r, hr, hrel, rfl⟩))

/-- The input matrices have public names, if those that are declared have and no name that the plan
uses holds an at sign. -/
theorem Plan.isPublic_of_mem_inputNames {formula : Text} {plan : IterativePlan} {config : Config}
    {inputs : List Text} (hread : Plan.read formula = .ok (.iterative plan))
    (hreplaced : plan.replaced = [])
    (hnames : ∀ name ∈ (Plan.iterative plan).usedNames, .char '@' ∉ name.symbols)
    (hdeclared : ∀ name ∈ config.shapes.names, IsPublic name)
    (h : inputNames (.iterative plan) config = .ok inputs) : ∀ name ∈ inputs, IsPublic name := by
  obtain ⟨kept, hkept, h⟩ := exists_of_bind_eq_ok h
  cases h
  intro name hname
  rcases List.mem_append.1 (mem_sortedNames.1 hname) with hname | hname
  · have hname := (List.mem_filter.1 (subset_of_withoutMembers hkept hname)).1
    exact hdeclared name (List.mem_filter.1 hname).1
  · have hat := hnames name (Plan.mem_usedNames_of_mem_baseMatrices hread hreplaced hname)
    obtain ⟨r, hr, rfl⟩ := Plan.exists_isRead_of_mem_baseMatrices hread hname
    exact isPublic_name hr.isBase hat

end Formula

/-- A product has a value only if all its names have. -/
theorem Formula.Product.isSome_of_value {env : Environment} {p : Product} {M : IntMatrix}
    (h : (p.value env).1 = some M) : ∀ r ∈ p.references, (env.lookup r.name).isSome := by
  induction p generalizing M with
  | single r =>
    intro s hs
    obtain rfl := List.mem_singleton.1 hs
    cases hlookup : env.lookup s.name with
    | some N => rfl
    | none => simp [value, Reference.value, hlookup] at h
  | times p q ihp ihq =>
    cases hp : (p.value env).1 with
    | none =>
      rw [value_times_of_none (.inl hp)] at h
      cases h
    | some N =>
      cases hq : (q.value env).1 with
      | none =>
        rw [value_times_of_none (.inr hq)] at h
        cases h
      | some Q => exact List.forall_mem_append.2 ⟨ihp hp, ihq hq⟩

namespace Graph

variable {before g g' : Graph} {config : Config} {inputs : List Text} {progress : Progress}
  {a : Account} {coming coming' : Set Text} {name : Text} {o : Int}

/-! ### Derivations of definitions -/

/-- The graph holds a derivation of the product, evaluated before the occurrence `o`, and the matrix
of the name is a copy of its result. -/
def Defines (g : Graph) (o : Int) (d : Text × Product) : Prop :=
  ∃ k m, k + d.2.size ≤ o ∧ m + d.2.steps ≤ g.temporaries ∧ g.Derives d.2 k m ∧
    g.IsCopyOf false (d.2.resultName k m) d.1

/-- Evaluating something else afterwards keeps the derivation of a definition. -/
theorem Defines.of_extends {o' : Int} {d : Text × Product} (h : g.Defines o d) (he : g.Extends g' o)
    (ho : o ≤ o') (hd : IsPublic d.1) (hrefs : ∀ r ∈ d.2.references, IsPublic r.name) :
    g'.Defines o' d := by
  obtain ⟨k, m, hk, hm, hderives, hcopy⟩ := h
  refine ⟨k, m, hk.trans ho, hm.trans he.temporaries_le, hderives.of_extends he hrefs hk hm,
    hcopy.of_keeps (he.keeps ?_) (he.keeps (hd.isSettled _ _))⟩
  exact (d.2.isSettled_resultName k m).mono hk hm

/-- Writing a public matrix that a product does not mention keeps its derivation. -/
theorem Derives.of_writesOnly {p : Product} {k : Int} {m : Nat} (h : g.Derives p k m)
    (hw : g.WritesOnly g' name) (hname : IsPublic name) (hrefs : ∀ r ∈ p.references, r.name ≠ name) :
    g'.Derives p k m := by
  refine h.of_keeps (fun r hr => ?_) (fun other hn _ => ?_) fun l _ _ => ?_
  · exact hw.keeps _ (hrefs r hr)
  · exact hw.keeps other fun he => hn (he ▸ hname.isSettled _ _)
  · rw [hw.descriptions]

/-- Writing another public matrix that a definition does not mention keeps its derivation. -/
theorem Defines.of_writesOnly {d : Text × Product} (h : g.Defines o d) (hw : g.WritesOnly g' name)
    (hname : IsPublic name) (hd : d.1 ≠ name) (hrefs : ∀ r ∈ d.2.references, r.name ≠ name) :
    g'.Defines o d := by
  obtain ⟨k, m, hk, hm, hderives, hcopy⟩ := h
  have hresult : d.2.resultName k m ≠ name := fun he =>
    d.2.not_isPublic_resultName k m (he ▸ hname)
  exact ⟨k, m, hk, hm.trans_eq hw.temporaries.symm, hderives.of_writesOnly hw hname hrefs,
    hcopy.of_keeps (hw.keeps _ hresult) (hw.keeps _ hd)⟩

/-- **All matrices of an account** have their fully expanded terms, if the graph holds their
derivations and the input. -/
theorem exists_hasTerms (hg : g.IsMinted) {entry : Place → Int} {definitions : Association Product}
    (hpublic : ∀ name ∈ inputs, IsPublic name)
    (hinputs : ∀ name ∈ inputs, ∃ M, g.HasTerms inputs entry name M fun i j l =>
      l = [⟨name, i, j⟩])
    (hord : IsOrdered inputs definitions) (hdefs : ∀ d ∈ definitions, g.Defines o d)
    (hname : name ∈ inputs ∨ name ∈ definitions.names) :
    ∃ M, g.HasTerms inputs entry name M (Expands definitions name) := by
  induction definitions generalizing name with
  | nil => exact hinputs name (hname.resolve_right (by simp [Association.names]))
  | cons d earlier ih =>
    obtain ⟨⟨hfresh, -⟩, hreads, hearlier⟩ := hord
    obtain ⟨hd, hdefs⟩ := List.forall_mem_cons.1 hdefs
    have ih {name : Text} (h : name ∈ inputs ∨ name ∈ Association.names earlier) :=
      ih hearlier hdefs h
    by_cases hne : name = d.1
    · subst hne
      obtain ⟨k, m, -, -, hderives, hcopy⟩ := hd
      obtain ⟨M, hM⟩ := hderives.hasTerms hg hpublic fun r hr => ih (hreads r hr)
      have hresult : d.2.resultName k m ∉ inputs := fun hmem =>
        d.2.not_isPublic_resultName k m (hpublic _ hmem)
      refine ⟨M, ?_⟩
      have hterms : Expands (d :: earlier) d.1 = d.2.HasTerm (Expands earlier) := by
        funext i j l
        rw [Expands, if_pos rfl]
      rw [hterms]
      exact hcopy.hasTerms hg hM hfresh (.inr hresult)
    · have hterms : Expands (d :: earlier) name = Expands earlier name := by
        funext i j l
        rw [Expands, if_neg hne]
      rw [hterms]
      exact ih (hname.imp_right fun h => (List.mem_cons.1 h).resolve_left hne)

/-! ### Runs with accounts -/

/-- A run has come as far as the account `a` says. The input matrices of `before` are restored, and
the graph holds the derivations of all definitions. The matrices that are still `coming` are not
bound yet. -/
structure Traces (before : Graph) (config : Config) (inputs : List Text) (coming : Set Text)
    (progress : Progress) (g : Graph) (a : Account) : Prop
    extends Simulates progress g a.course where
  restored : ∀ name ∈ inputs, before.RestoredFrom g name (before.inputShape config name)
  isOrdered : IsOrdered inputs a.definitions
  defines : ∀ d ∈ a.definitions, g.Defines progress.occurrence d
  isPublic : ∀ d ∈ a.definitions, IsPublic d.1 ∧ ∀ r ∈ d.2.references, IsPublic r.name
  isSome_iff : ∀ name, (a.course.env.lookup name).isSome ↔
    name ∈ inputs ∨ name ∈ a.definitions.names
  mem_computed_iff : ∀ name, name ∈ a.course.computed ↔ name ∈ a.definitions.names
  isComing : ∀ name ∈ coming, IsPublic name ∧ a.course.env.lookup name = none

theorem Traces.mono (h : Traces before config inputs coming progress g a) (hc : coming' ⊆ coming) :
    Traces before config inputs coming' progress g a :=
  { h with isComing := fun name hname => h.isComing name (hc hname) }

/-- The matrix of a result is that of a product which was evaluated before the occurrence `o`. Its
value is the given one, and all its names are bound. -/
def Yields (g : Graph) (o : Int) (env : Environment) (result : Text) (d : Product × IntMatrix) :
    Prop :=
  g.Holds result d.2 ∧
    (∀ r ∈ d.1.references, IsPublic r.name ∧ (env.lookup r.name).isSome) ∧
    ∃ k m, result = d.1.resultName k m ∧ k + d.1.size ≤ o ∧ m + d.1.steps ≤ g.temporaries ∧
      g.Derives d.1 k m

/-- **A statement is evaluated** as in the account. -/
theorem evaluateStatement_traces (h : Traces before config inputs coming progress g a)
    (hinputs : ∀ name ∈ inputs, IsPublic name) {p : Product} (hp : p.IsNamed) (n : Int) :
    Refines (fun r g' s => Traces before config inputs coming r.2 g' s.2 ∧
        Option.Rel (g'.Yields r.2.occurrence s.2.course.env) r.1 s.1)
      (evaluateStatement p n progress g) (a.evaluate p n) := by
  have hrun : evaluateStatement p n progress g = (do
      let p ← liftIndex (p.resolve n a.course.env.names)
      let e ← evaluate p progress.occurrence
      return (e.result?, { progress with
        occurrence := e.occurrence, issues := progress.issues ++ e.issues })) g := by
    rw [← h.resolve_eq hp n]
    rfl
  rw [hrun, Account.evaluate_eq]
  cases hresolve : p.resolve n a.course.env.names with
  | error e => exact ⟨g, rfl⟩
  | ok p' =>
    have hpublic := hp.isPublic_of_resolve hresolve
    obtain ⟨e, g', hevaluate, heval⟩ := evaluate_spec (o := progress.occurrence) h.isWellFormed
      fun r hr => ⟨hpublic r hr, h.represents (hpublic r hr)⟩
    have hle : progress.occurrence ≤ e.occurrence := by
      have hlt := p'.lt_add_size progress.occurrence
      have hocc := heval.occurrence
      omega
    have hkeeps {name : Text} (hname : IsPublic name) : g.Keeps g' name :=
      heval.keeps (hname.isSettled _ _)
    refine ⟨_, g', bind_eq_of_ok hevaluate, { h with
      isWellFormed := heval.isWellFormed
      represents := fun hname => (h.represents hname).of_keeps (hkeeps hname)
      obstructions := ?_
      restored := fun name hname => (h.restored name hname).of_keeps (hkeeps (hinputs name hname))
      defines := fun d hd => (h.defines d hd).of_extends heval.toExtends hle (h.isPublic d hd).1
        (h.isPublic d hd).2 }, ?_⟩
    · rw [List.map_append, h.obstructions, heval.obstructions]
    · show Option.Rel (g'.Yields e.occurrence a.course.env) e.result?
        ((p'.value a.course.env).1.map fun M => (p', M))
      cases hM : (p'.value a.course.env).1 with
      | none =>
        rw [heval.of_value_eq_none hM]
        exact .none
      | some M =>
        obtain ⟨hresult, htemp, hholds, hderives⟩ := heval.of_value_eq_some hM
        rw [hresult]
        exact .some ⟨hholds, fun r hr => ⟨hpublic r hr, Product.isSome_of_value hM r hr⟩, _, _,
          rfl, heval.occurrence.ge, htemp.ge, hderives⟩

/-- **A result is recorded** under a name that was to come, and so is its definition. -/
theorem record_traces (h : Traces before config inputs coming progress g a) {result : Text}
    {d : Product × IntMatrix} (hd : g.Yields progress.occurrence a.course.env result d)
    (hname : name ∈ coming) :
    ∃ progress' g', record result name progress g = .ok progress' g' ∧
      Traces before config inputs (coming \ {name}) progress' g' (a.bind name d.1 d.2) := by
  obtain ⟨hholds, hrefs, k, m, rfl, hk, hm, hderives⟩ := hd
  obtain ⟨hpublic, hnone⟩ := h.isComing name hname
  have hresult := d.1.not_isPublic_resultName k m
  have hfresh : ¬(name ∈ inputs ∨ name ∈ a.definitions.names) := by
    rw [← h.isSome_iff, hnone]
    exact Bool.false_ne_true
  have hother {other : Text} (ho : other ∈ inputs ∨ other ∈ a.definitions.names) : other ≠ name :=
    fun he => hfresh (he ▸ ho)
  have hreads : ∀ r ∈ d.1.references, r.name ∈ inputs ∨ r.name ∈ a.definitions.names :=
    fun r hr => (h.isSome_iff _).1 (hrefs r hr).2
  obtain ⟨g', hstore, hw, hcopy, -⟩ := store_spec h.isWellFormed hholds
    fun he => hresult (he ▸ hpublic)
  obtain ⟨_, _, hrecord, hsim⟩ := record_refines h.toSimulates hresult hholds hpublic
  cases hrecord.symm.trans (bind_eq_of_ok hstore)
  refine ⟨_, _, hrecord, { hsim with
    restored := fun other ho => (h.restored other ho).of_keeps (hw.keeps other (hother (.inl ho)))
    isOrdered := ⟨not_or.1 hfresh, hreads, h.isOrdered⟩
    defines := List.forall_mem_cons.2 ⟨⟨k, m, hk, hm.trans_eq hw.temporaries.symm,
      hderives.of_writesOnly hw hpublic fun r hr => hother (hreads r hr), hcopy⟩, fun e he => ?_⟩
    isPublic := List.forall_mem_cons.2 ⟨⟨hpublic, fun r hr => (hrefs r hr).1⟩, h.isPublic⟩
    isSome_iff := fun other => ?_
    mem_computed_iff := fun other => ?_
    isComing := fun other ho => ?_ }⟩
  · exact (h.defines e he).of_writesOnly hw hpublic (hother (.inr (List.mem_map_of_mem he)))
      fun r hr => hother (h.isOrdered.mem_of_references he r hr)
  · rw [Account.bind, Course.bind, Association.lookup_put]
    split
    · next he => simp [he, Association.names]
    · next hne =>
      rw [h.isSome_iff]
      simp [Association.names, hne]
  · refine List.mem_append.trans ?_
    rw [h.mem_computed_iff, List.mem_singleton, or_comm]
    exact List.mem_cons.symm
  · obtain ⟨hpublic', hnone'⟩ := h.isComing other ho.1
    refine ⟨hpublic', ?_⟩
    rw [Account.bind, Course.bind, Association.lookup_put, if_neg (Set.mem_singleton_iff.not.1 ho.2), hnone']

/-- **Base cases** with different targets that are to come are taken as in the account. -/
theorem runBaseCases_traces {ss : List Statement} (hinputs : ∀ name ∈ inputs, IsPublic name)
    (hss : ∀ s ∈ ss, s.IsNamed) (htargets : ∀ s ∈ ss, s.target.name ∈ coming)
    (hnodup : (ss.map (·.target.name)).Nodup)
    (h : Traces before config inputs coming progress g a) :
    Refines (Traces before config inputs ∅) (runBaseCases ss progress g)
      (Account.runBaseCases ss a) := by
  induction ss generalizing progress g a coming with
  | nil => exact ⟨progress, g, rfl, h.mono (Set.empty_subset _)⟩
  | cons s ss ih =>
    obtain ⟨hnamed, hss⟩ := List.forall_mem_cons.1 hss
    obtain ⟨ht, hts⟩ := List.forall_mem_cons.1 htargets
    obtain ⟨hnotMem, hnodup⟩ := List.nodup_cons.1 hnodup
    rw [runBaseCases, Account.runBaseCases]
    cases hp : s.product? with
    | none => exact ih hss hts hnodup h
    | some p =>
      refine (evaluateStatement_traces h hinputs (hnamed.product hp) 0).bind ?_
      rintro ⟨result?, progress₁⟩ g₁ ⟨d?, a₁⟩ ⟨h₁, hyields⟩
      cases hyields with
      | none => exact ih hss hts hnodup h₁
      | some hd =>
        obtain ⟨progress₂, g₂, hrecord, h₂⟩ := record_traces h₁ hd ht
        dsimp only
        rw [bind_eq_of_ok hrecord]
        refine ih hss (fun s' hs' => ?_) hnodup h₂
        exact ⟨hts s' hs', fun he => hnotMem (List.mem_map.2 ⟨s', hs', he⟩)⟩

/-- **A recurrence** whose members are to come is applied as in the account. -/
theorem runRecurrence_traces {target : Reference} {p : Product} {count : Nat} {index : Int}
    (hinputs : ∀ name ∈ inputs, IsPublic name) (hp : p.IsNamed)
    (h : Traces before config inputs (membersFrom target.base index) progress g a) :
    Refines (Traces before config inputs ∅) (runRecurrence target p count index progress g)
      (Account.runRecurrence target p count index a) := by
  induction count generalizing index progress g a with
  | zero => exact ⟨progress, g, rfl, h.mono (Set.empty_subset _)⟩
  | succ count ih =>
    rw [runRecurrence, Account.runRecurrence, Course.sub_targetOffset]
    refine (evaluateStatement_traces h hinputs hp _).bind ?_
    rintro ⟨result?, progress₁⟩ g₁ ⟨d?, a₁⟩ ⟨h₁, hyields⟩
    cases hyields with
    | none => exact ⟨progress₁, g₁, rfl, h₁.mono (Set.empty_subset _)⟩
    | some hd =>
      have hmember : ∀ name, memberName? target.base index = .ok name →
          name = memberName target.base index := fun _ => eq_memberName_of_memberName?
      dsimp only
      -- whether an index may be shown is not to be computed: the bound is a number of 4301 digits
      generalize memberName? target.base index = name? at hmember ⊢
      cases name? with
      | error e => exact ⟨g₁, rfl⟩
      | ok name =>
        obtain rfl := hmember name rfl
        obtain ⟨progress₂, g₂, hrecord, h₂⟩ := record_traces h₁ hd ⟨index, Int.le_refl index, rfl⟩
        have hlift (name : Text) : liftIndex (.ok name) g₁ = .ok name g₁ := rfl
        rw [bind_eq_of_ok (hlift _), bind_eq_of_ok hrecord]
        exact ih (h₂.mono (membersFrom_succ_subset target.base index))

/-- The members of a family from the next index on are to come. -/
theorem Traces.of_nextIndex (h : Traces before config inputs ∅ progress g a) {base : Text}
    (hbase : IsBase base) {index : Int} (hindex : g.nextIndex base = .ok index) :
    Traces before config inputs (membersFrom base index) progress g a := by
  refine { h with isComing := fun name hname => ?_ }
  have hpublic : IsPublic name := by
    obtain ⟨k, -, rfl⟩ := hname
    exact isPublic_memberName hbase k
  have hnotMem := notMem_matrices_of_nextIndex hindex hname
  rw [← Std.ExtTreeMap.mem_keys, h.mem_keys_iff hpublic, ← Association.lookup_eq_none_iff]
    at hnotMem
  exact ⟨hpublic, hnotMem⟩

/-- **The statements of a plan** are run as in its account. -/
theorem runStatements_traces {plan : IterativePlan} (hplan : ∀ s ∈ plan.statements, s.IsNamed)
    (hinputs : ∀ name ∈ inputs, IsPublic name) (hnodup : plan.targetNames.Nodup)
    {env : Environment}
    (h : Traces before config inputs {name | name ∈ plan.targetNames} ⟨0, [], []⟩ g
      ⟨⟨env, [], []⟩, []⟩) :
    Refines (Traces before config inputs ∅) (runStatements plan config g)
      (Account.run plan config env) := by
  have hbase := runBaseCases_traces hinputs (fun s hs => hplan s (List.mem_append_left _ hs))
    (fun s hs => List.mem_map_of_mem (f := fun s : Statement => s.target.name) hs) hnodup h
  refine hbase.bind ?_
  intro progress g a h
  cases hs : plan.recurrence? with
  | none => exact ⟨progress, g, rfl, h⟩
  | some s =>
    have hmem : s ∈ plan.statements := List.mem_append_right _ (by simp [hs])
    have hnamed : s.IsNamed := hplan s hmem
    dsimp only
    cases hp : s.product? with
    | none => exact ⟨progress, g, rfl, h⟩
    | some p =>
      have htarget := (hnamed s.target List.mem_cons_self).1
      have hrun : (do
          let index ← liftIndex ((← get).nextIndex s.target.base)
          runRecurrence s.target p (← rethrow (recurrenceCount config)) index progress) g = (do
          let index ← liftIndex (g.nextIndex s.target.base)
          runRecurrence s.target p (← rethrow (recurrenceCount config)) index progress) g := rfl
      have hcoming {index : Int} (hindex : g.nextIndex s.target.base = .ok index) :=
        h.of_nextIndex htarget hindex
      dsimp only
      rw [hrun]
      rw [h.nextIndex_eq htarget] at hcoming ⊢
      cases hlast : lastIndex? a.course.env.names s.target.base with
      | error e => exact ⟨g, rfl⟩
      | ok last? =>
        rw [hlast] at hcoming
        cases recurrenceCount config with
        | error e => exact ⟨g, rfl⟩
        | ok count => exact runRecurrence_traces hinputs (hnamed.product hp) (hcoming rfl)

/-! ### The end of a run -/

/-- The nonzero cells of `target` have the lineage that the terms of `source` tell: of the cells of
the input matrices it holds those that occur in a live term of the entry. -/
def HasLineage (before g : Graph) (config : Config) (inputs : List Text)
    (definitions : Association Product) (source target : Text) : Prop :=
  ∀ (i j : Nat) (z : CellId), g.idAt? target i j = some z → (g.cell z).value.isNonzero = true →
    ∀ c x, c.name ∈ inputs → g.idAt? c.name c.row c.col = some x →
      (x ∈ g.allDependencies z ↔
        ∃ l, Expands definitions source i j l ∧ IsLive (before.inputEntry config) l ∧ c ∈ l)

theorem HasTerms.hasLineage (hg : g.IsWellFormed) {source target : Text} {M : IntMatrix}
    {definitions : Association Product}
    (h : g.HasTerms inputs (before.inputEntry config) target M (Expands definitions source)) :
    before.HasLineage g config inputs definitions source target :=
  fun _ _ _ hz hnonzero _ _ hc hx => h.mem_allDependencies_iff hg hz hnonzero hc hx

/-- What a run that has come as far as an account leaves at its end: the nonzero cells of what it
computed have the lineage that the terms tell, and those of the output that of the last matrix
computed. -/
structure Unfolds (before : Graph) (config : Config) (inputs : List Text) (o : Outcome) (g : Graph)
    (a : Account) : Prop where
  expands : ∀ source ∈ o.computed, ∀ i j l, Expands a.definitions source i j l →
    ∀ c ∈ l, c.name ∈ inputs
  computed : ∀ source ∈ o.computed, before.HasLineage g config inputs a.definitions source source
  output : ∀ (i j : Nat) (z : CellId), g.idAt? config.output i j = some z →
    (g.cell z).value.isNonzero = true → o.computed ≠ []
  last : ∀ source, o.computed.getLast? = some source →
    before.HasLineage g config inputs a.definitions source config.output

/-- The end of a run leaves a copy of the last matrix computed in the output. -/
theorem Traces.isCopyOf_finish (h : Traces before config inputs ∅ progress g a)
    (hout : config.output ∉ a.course.computed) {previous : Option (Nat × Nat)}
    (hfinish : finish config previous progress.computed.getLast? g = .ok () g') {source : Text}
    (hlast : progress.computed.getLast? = some source) :
    g'.IsCopyOf false source config.output := by
  rw [hlast] at hfinish
  have hmem : source ∈ a.course.computed := h.computed ▸ List.mem_of_getLast? hlast
  obtain ⟨hpublic, hsome⟩ := h.isBound source hmem
  obtain ⟨M, hM⟩ := Option.isSome_iff_exists.1 hsome
  have hholds := h.represents hpublic
  rw [hM] at hholds
  have hne : source ≠ config.output := fun he => hout (he ▸ hmem)
  obtain ⟨g₁, hstore, -, hcopy, -⟩ := store_spec h.isWellFormed hholds hne
  cases hstore.symm.trans hfinish
  exact hcopy

/-- A matrix has a cell with its value at each of its positions. -/
theorem Holds.exists_idAt? {M : IntMatrix} (h : g.Holds name M) {i j : Nat} (hi : i < M.rows)
    (hj : j < M.cols) :
    ∃ z, g.idAt? name i j = some z ∧ (g.cell z).value = .int (M.get i j) := by
  obtain ⟨b, hb, hrows, hcols, hvalues⟩ := holds_iff.1 h
  exact ⟨_, idAt?_eq_some_iff.2 ⟨b, hb, hrows ▸ hi, hcols ▸ hj, rfl⟩, hvalues i j hi hj⟩

/-- A course that computes nothing leaves no entries in an output that it does not start with. -/
theorem isNonzero_eq_false_of_represents {c : Course} {previous : Option (Nat × Nat)}
    (hc : c.computed = []) (hnone : c.env.lookup config.output = none)
    (h : g.Represents config.output (c.output? config previous)) {i j : Nat} {z : CellId}
    (hz : g.idAt? config.output i j = some z) : (g.cell z).value.isNonzero = false := by
  rw [Course.output?, hc, hnone] at h
  obtain ⟨b, hb, hi, hj, rfl⟩ := idAt?_eq_some_iff.1 hz
  cases previous with
  | none =>
    have hnone : g.matrices[config.output]? = none := h
    rw [hb] at hnone
    cases hnone
  | some shape =>
    obtain ⟨b', hb', hrows, hcols, hvalues⟩ := holds_iff.1 (show g.Holds config.output _ from h)
    obtain rfl : b = b' := Option.some.inj (hb.symm.trans hb')
    have hi : i < shape.1 := Nat.lt_of_lt_of_eq hi hrows
    have hj : j < shape.2 := Nat.lt_of_lt_of_eq hj hcols
    have hvalue : (g.cell (g.idAt b i j)).value = .int _ := hvalues i j hi hj
    rw [hvalue, IntMatrix.get_ofFn hi hj]
    rfl

/-- **A run that has come as far as an account** ends as its course says, and the lineage of what it
leaves is the one that the account tells. -/
theorem Traces.exists_unfolds (h : Traces before config inputs ∅ progress g a)
    (hpublic : ∀ name ∈ inputs, IsPublic name) (hout : IsPublic config.output)
    (hinputs : config.output ∉ inputs) (hnotMem : config.output ∉ a.course.computed)
    (htraceable : ∀ name ∈ inputs, before.IsTraceable config name) :
    ∃ o g', (do
        finish config (before.shape? config.output) progress.computed.getLast?
        outcome config progress.computed progress.issues) g = .ok o g' ∧
      Follows config (before.shape? config.output) o g' a.course ∧
      Unfolds before config inputs o g' a := by
  obtain ⟨g', hfinish, hw, hrep⟩ := h.finish_spec hout hnotMem before
  obtain ⟨o, g'', hrun, hfollows⟩ := h.exists_follows hout hnotMem before
  have hg' : g'' = g' := by
    obtain ⟨o', houtcome, -⟩ := outcome_spec config progress.computed progress.issues g'
    rw [bind_eq_of_ok hfinish, houtcome] at hrun
    cases hrun
    rfl
  subst hg'
  have hminted := hw.isWellFormed.toIsMinted
  have hother {name : Text} (hname : name ∈ inputs ∨ name ∈ a.definitions.names) :
      name ≠ config.output := by
    rintro rfl
    exact hname.elim hinputs fun hdef => hnotMem ((h.mem_computed_iff _).2 hdef)
  -- nothing of the derivations is overwritten by the output
  have hdefines : ∀ d ∈ a.definitions, g''.Defines progress.occurrence d := fun d hd =>
    (h.defines d hd).of_writesOnly hw hout (hother (.inr (List.mem_map_of_mem hd)))
      fun r hr => hother (h.isOrdered.mem_of_references hd r hr)
  have hinput : ∀ name ∈ inputs, ∃ M, g''.HasTerms inputs (before.inputEntry config) name M
      fun i j l => l = [⟨name, i, j⟩] := fun name hname =>
    have hrestored := (h.restored name hname).of_keeps (hw.keeps name (hother (.inl hname)))
    ⟨_, hrestored.hasTerms hminted (htraceable name hname)⟩
  have hterms {name : Text} (hname : name ∈ a.definitions.names) :=
    exists_hasTerms hminted hpublic hinput h.isOrdered hdefines (.inr hname)
  have hcomputed {name : Text} (hname : name ∈ o.computed) : name ∈ a.definitions.names :=
    (h.mem_computed_iff name).1 (hfollows.computed ▸ hname)
  refine ⟨o, g'', hrun, hfollows, fun source hs i j l hl => ?_, fun source hs => ?_,
    fun i j z hz hnonzero hnil => ?_, fun source hlast => ?_⟩
  · exact h.isOrdered.mem_of_expands (.inr (hcomputed hs)) hl
  · obtain ⟨M, hM⟩ := hterms (hcomputed hs)
    exact hM.hasLineage hw.isWellFormed
  · have hnil : a.course.computed = [] := hfollows.computed ▸ hnil
    have hnone : a.course.env.lookup config.output = none := by
      rw [← Option.not_isSome_iff_eq_none, h.isSome_iff]
      exact fun hname => hother hname rfl
    have hzero := isNonzero_eq_false_of_represents hnil hnone hfollows.represents_output hz
    rw [hzero] at hnonzero
    cases hnonzero
  · have hs := hcomputed (List.mem_of_getLast? hlast)
    obtain ⟨M, hM⟩ := hterms hs
    have hcopy := h.isCopyOf_finish hnotMem hfinish (by rwa [h.computed, ← hfollows.computed])
    exact (hcopy.hasTerms hminted hM hinputs (.inr (h.isOrdered.notMem_inputs hs))).hasLineage
      hw.isWellFormed

/-! ### Recomputing -/

/-- The account of a plan from the input matrices of a graph on. -/
def account (g : Graph) (plan : IterativePlan) (config : Config) : Except Fault Account := do
  let names ← (inputNames (.iterative plan) config).mapError .index
  Account.run plan config (g.inputs config names)

theorem course_eq_account (g : Graph) (plan : IterativePlan) (config : Config) :
    g.course plan config = (g.account plan config).map Account.course := by
  rw [course, account]
  cases inputNames (.iterative plan) config with
  | error e => rfl
  | ok names => exact Account.course_run plan config _

/-- The run of a plan starts with the input matrices and without definitions. -/
theorem traces_start (hconfig : config.HasCells) (hg : g.IsMinted) {plan : IterativePlan}
    (hread : inputNames (.iterative plan) config = .ok inputs)
    (htargets : ∀ name ∈ plan.targetNames, IsPublic name)
    (htraceable : ∀ name ∈ inputs, g.IsTraceable config name) :
    ∃ g', rebuild config inputs g = .ok () g' ∧
      Traces g config inputs {name | name ∈ plan.targetNames} ⟨0, [], []⟩ g'
        ⟨⟨g.inputs config inputs, [], []⟩, []⟩ := by
  obtain ⟨g', hrebuild, hwf, -, -, hnone, hrestored⟩ :=
    rebuild_inputs hconfig hg (nodup_of_inputNames hread)
  have hlookup (name : Text) : ((g.inputs config inputs).lookup name).isSome ↔ name ∈ inputs := by
    rw [lookup_inputs]
    split <;> simp [*]
  refine ⟨g', hrebuild, {
    isWellFormed := hwf
    represents := fun {name} _ => ?_
    computed := rfl
    obstructions := rfl
    isBound := fun _ hname => absurd hname List.not_mem_nil
    restored := hrestored
    isOrdered := trivial
    defines := fun _ hd => absurd hd List.not_mem_nil
    isPublic := fun _ hd => absurd hd List.not_mem_nil
    isSome_iff := fun name => (hlookup name).trans (by simp [Association.names])
    mem_computed_iff := fun name => by simp [Association.names]
    isComing := fun name hname => ⟨htargets name hname, ?_⟩ }⟩
  · rw [lookup_inputs]
    split
    · next hname => exact (hrestored name hname).holds (htraceable name hname).isIntegral
    · next hname => exact hnone name hname
  · rw [lookup_inputs, if_neg fun hmem => (of_mem_inputNames hread hmem).1 hname]

/-- **The lineage of an iterative formula** is exact down to its input, if base cases assign
different matrices, at most one recurrence is given, no name holds an at sign and none of the numbers
of the input is negative. If the account of the plan ends with a fault so does the recompute.
Otherwise it returns, what it leaves is as the course says, and the nonzero cells of all that it
computed and of the output have the lineage that the account tells: of the cells of the input
matrices it holds those that occur in a term without zeros, where all that was computed is expanded
by what it was computed from. -/
theorem recompute_expands {formula output : Text} {plan : IterativePlan}
    {iterations rows cols sizeLimit iterationLimit : Datum} {sizes : Association (Datum × Datum)}
    (hread : Plan.read formula = .ok (.iterative plan)) (hreplaced : plan.replaced = [])
    (hnodup : plan.targetNames.Nodup)
    (hnames : ∀ name ∈ (Plan.iterative plan).usedNames, .char '@' ∉ name.symbols)
    (hconfig : Config.make output iterations sizes rows cols sizeLimit iterationLimit = .ok config)
    (hobstacle : (Plan.iterative plan).obstacle? config.output = none)
    (hout : IsPublic config.output) (hdeclared : ∀ name ∈ config.shapes.names, IsPublic name)
    (hg : g.IsReachable)
    (htraceable : ∀ inputs, inputNames (.iterative plan) config = .ok inputs →
      ∀ name ∈ inputs, g.IsTraceable config name) :
    (∀ e, g.account plan config = .error e →
      (e = .index .unreadable ∨ e = .iterations ∧ config.iterations? = none) ∧
        ∃ g', recompute (.iterative plan) config g = .error e g') ∧
    ∀ a, g.account plan config = .ok a → config.output ∉ a.course.computed →
      ∃ inputs o g', inputNames (.iterative plan) config = .ok inputs ∧
        recompute (.iterative plan) config g = .ok o g' ∧
        Follows config (g.shape? config.output) o g' a.course ∧
        Unfolds g config inputs o g' a := by
  have hplan := Plan.isNamed_of_read hread hnames
  cases hinput : inputNames (.iterative plan) config with
  | error i =>
    have haccount : g.account plan config = .error (.index i) := by
      rw [account, hinput]
      rfl
    refine ⟨fun e he => ?_, fun a ha => ?_⟩
    · rw [haccount] at he
      cases he
      exact ⟨.inl (congrArg Fault.index (by cases i; rfl)), g,
        recompute_of_inputNames_error hobstacle hinput⟩
    · rw [haccount] at ha
      cases ha
  | ok inputs =>
    have haccount : g.account plan config = Account.run plan config (g.inputs config inputs) := by
      rw [account, hinput]
      rfl
    have hpublic := Plan.isPublic_of_mem_inputNames hread hreplaced hnames hdeclared hinput
    have htargets : ∀ name ∈ plan.targetNames, IsPublic name := fun name hname => by
      obtain ⟨s, hs, rfl⟩ := List.mem_map.1 hname
      exact (hplan s (List.mem_append_left _ hs) s.target List.mem_cons_self).2
    have hunused : config.output ∉ inputs := fun hmem => by
      have hbase := (of_mem_inputNames hinput hmem).2 rfl
      have huses := (Plan.obstacle?_eq_none_iff.1 hobstacle)
      have hused := Plan.mem_usedNames_of_mem_baseMatrices hread hreplaced hbase
      simp [Plan.uses, huses.1, hused] at huses
    obtain ⟨g₀, hrebuild, hstart⟩ := traces_start (Config.hasCells_of_make hconfig).2
      hg.isWellFormed.toIsMinted hinput htargets (htraceable inputs hinput)
    have hrun := runStatements_traces hplan hpublic hnodup hstart
    have hrecompute : recompute (.iterative plan) config g = (do
        let progress ← runStatements plan config
        finish config (g.shape? config.output) progress.computed.getLast?
        outcome config progress.computed progress.issues) g₀ := by
      rw [recompute_eq hobstacle hinput hrebuild, runPlan, runIterative_eq]
    rw [haccount, hrecompute]
    refine ⟨fun e he => ?_, fun a ha hnotMem => ?_⟩
    · have hcourse := Account.course_run plan config (g.inputs config inputs)
      rw [he] at hrun hcourse
      obtain ⟨g', hrun⟩ := hrun
      exact ⟨Course.fault_of_run hcourse, g', bind_eq_of_error hrun⟩
    · rw [ha] at hrun
      obtain ⟨progress, g₁, hrun, h⟩ := hrun
      rw [bind_eq_of_ok hrun]
      obtain ⟨o, g', hend, hfollows, hunfolds⟩ :=
        h.exists_unfolds hpublic hout hunused hnotMem (htraceable inputs hinput)
      exact ⟨inputs, o, g', rfl, hend, hfollows, hunfolds⟩

/-- What the matrices of `K_0=A,K_{n+1}=A*K_n` are computed from in three iterations. -/
def powerDefinitions : Association Product :=
  [("K_3", .times (.single ⟨"A", .absent, false, 0⟩) (.single ⟨"K", .number 2, false, 2⟩)),
    ("K_2", .times (.single ⟨"A", .absent, false, 0⟩) (.single ⟨"K", .number 1, false, 2⟩)),
    ("K_1", .times (.single ⟨"A", .absent, false, 0⟩) (.single ⟨"K", .number 0, false, 2⟩)),
    ("K_0", .single ⟨"A", .absent, false, 0⟩)]

/-- In the fourth power of `1 1` over `0 1` the entry at the upper right derives from that at the
lower right, which occurs in the term that goes down at once, and not from the zero. -/
theorem recompute_expands_sample : ∃ o g' z x y,
    recompute (.iterative powerPlan) powerConfig powerGraph = .ok o g' ∧
      o.computed = ["K_0", "K_1", "K_2", "K_3"] ∧ g'.idAt? "O" 0 1 = some z ∧
      g'.idAt? "A" 1 1 = some x ∧ g'.idAt? "A" 1 0 = some y ∧
      x ∈ g'.allDependencies z ∧ y ∉ g'.allDependencies z := by
  have hread : Plan.read "K_0=A,K_\x7bn+1\x7d=A*K_n" = .ok (.iterative powerPlan) := by
    decide +kernel
  have hconfig : Config.make "O" (.int 3) [] (.int 2) (.int 2) (.int 50) (.int 50) =
      .ok powerConfig := rfl
  have hinput : inputNames (.iterative powerPlan) powerConfig = .ok ["A"] := by decide +kernel
  have htraceable : powerGraph.IsTraceable powerConfig "A" := by decide +kernel
  obtain ⟨-, hok⟩ := recompute_expands hread rfl (by decide +kernel) (by decide +kernel) hconfig
    (by decide +kernel) (by decide) (fun name hname => absurd hname List.not_mem_nil)
    isReachable_powerGraph fun inputs h name hname => by
      rw [hinput] at h
      cases h
      rw [List.mem_singleton.1 hname]
      exact htraceable
  have haccount : (powerGraph.account powerPlan powerConfig).toOption.map (fun a =>
      (a.course.computed, a.definitions)) =
      some ((["K_0", "K_1", "K_2", "K_3"] : List Text), powerDefinitions) := by
    decide +kernel
  have hvalues : (powerGraph.account powerPlan powerConfig).toOption.map (fun a =>
      ((a.course.env.lookup ("A" : Text)).map IntMatrix.shape,
        (a.course.output? powerConfig none).map fun P => (P.shape, P.get 0 1))) =
      some (some (2, 2), some ((2, 2), 4)) := by
    decide +kernel
  cases ha : powerGraph.account powerPlan powerConfig with
  | error e =>
    rw [ha] at haccount
    cases haccount
  | ok a =>
    rw [ha] at haccount hvalues
    obtain ⟨hcomputed, hdefinitions⟩ := Prod.mk.inj (Option.some.inj haccount)
    obtain ⟨hA, hO⟩ := Prod.mk.inj (Option.some.inj hvalues)
    obtain ⟨inputs, o, g', hinput', hrun, hfollows, hunfolds⟩ := hok a ha (by
      rw [hcomputed]
      decide)
    cases hinput.symm.trans hinput'
    obtain ⟨A, hlookup, hA⟩ := Option.map_eq_some_iff.1 hA
    obtain ⟨hrows, hcols⟩ := Prod.mk.inj hA
    have hpublic : IsPublic ("A" : Text) := by decide
    have hholds := hfollows.represents hpublic (by decide)
    rw [hlookup] at hholds
    obtain ⟨x, hx, -⟩ := Holds.exists_idAt? hholds (i := 1) (j := 1) (by omega) (by omega)
    obtain ⟨y, hy, -⟩ := Holds.exists_idAt? hholds (i := 1) (j := 0) (by omega) (by omega)
    obtain ⟨P, hP, hO⟩ := Option.map_eq_some_iff.1 hO
    obtain ⟨hshape, hentry⟩ := Prod.mk.inj hO
    obtain ⟨hrows, hcols⟩ := Prod.mk.inj hshape
    have hholds := hfollows.represents_output
    have hprevious : powerGraph.shape? powerConfig.output = none := by decide +kernel
    rw [hprevious, hP] at hholds
    obtain ⟨z, hz, hvalue⟩ := Holds.exists_idAt? hholds (i := 0) (j := 1) (by omega) (by omega)
    have hlast : o.computed.getLast? = some "K_3" := by
      rw [hfollows.computed, hcomputed]
      rfl
    have hlineage := hunfolds.last "K_3" hlast 0 1 z hz (by rw [hvalue, hentry]; decide)
    rw [hdefinitions] at hlineage
    refine ⟨o, g', z, x, y, hrun, hfollows.computed.trans hcomputed, hz, hx, hy,
      (hlineage ⟨"A", 1, 1⟩ x List.mem_cons_self hx).2 ?_, fun hmem => ?_⟩
    · refine ⟨_, ⟨1, _, _, rfl, ⟨1, _, _, rfl, ⟨1, _, _, rfl, rfl, rfl⟩, rfl⟩, rfl⟩, ?_, by decide⟩
      unfold IsLive
      decide +kernel
    · obtain ⟨l, -, hlive, hzero⟩ := (hlineage ⟨"A", 1, 0⟩ y List.mem_cons_self hy).1 hmem
      exact hlive _ hzero (by decide +kernel)

end Graph

end CellLineage

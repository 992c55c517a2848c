import CellLineage.Proofs.Recompute.Missing
import CellLineage.Proofs.Recompute.Stages

/-!
# Which members relative references mean

While an iterative plan is recomputed, its products are resolved again and again, each time at some
index and among the matrices that there are then. If these hold the members of a family from `0` to
some last one, a relative reference to the family is to mean one of them. It does, as the index is
clamped to the last one from above, and as it is not negative. The one exception is the start of a
recurrence for the next member of a family that has none: then `n` is `-1`, and `X_n` means `X_-1`.

A prediction goes through the plan in the same way, with a table of shapes.

## Main definitions

* `Formula.HasMembersTo`: the members of a family are those up to a last one.
* `Graph.Resolves`, `ShapeCheck.Resolves`: the products that are resolved in a run.
* `Formula.IterativePlan.ResolvesWell`: relative references mean members that there are.

## Main results

* `Formula.HasMembersTo.lastIndex?_eq`: the last one is what references are clamped to.
* `Graph.exists_resolves_of_missing`, `ShapeCheck.exists_resolves_of_missing`: each matrix that is
  missed was meant by a reference in one of these products.
* `Formula.IterativePlan.resolved_members`: what relative references mean in a run.
-/

namespace CellLineage

open Relation

namespace Formula

variable {names : List Text} {base : Text} {last : Nat} {n : Int} {r r' : Reference}

/-! ### Families -/

/-- The members of the family among the names are those with the indices up to `last`. -/
def HasMembersTo (names : List Text) (base : Text) (last : Nat) : Prop :=
  ∀ name, name ∈ names ∧ (memberDigits? base name).isSome = true ↔
    ∃ i : Nat, i ≤ last ∧ name = memberName base i

/-- The index of the member after the last one there is. -/
def indexAfter : Option Nat → Int
  | some last => last + 1
  | none => 0

/-- A number that may be shown is read again from its digits. -/
theorem isSome_readNat?_of_isShowable {m : Nat} (h : Text.isShowable m = true) :
    (Text.readNat? (Nat.toDigits 10 m)).isSome = true := by
  have hlt : (m : Int).natAbs < Nat.pow 10 Text.maxDigits := of_decide_eq_true h
  -- for any bound, as this one is a number of 4301 digits
  have hdigits {d : Nat} (hd : 0 < d) (hlt : (m : Int).natAbs < Nat.pow 10 d) :
      (Nat.toDigits 10 m).length ≤ d := Nat.toDigits_length 10 m d hd hlt
  exact isSome_readNat?_of_length_le (hdigits (by decide) hlt)

theorem HasMembersTo.eq_of_lastIndex? (h : HasMembersTo names base last) {last? : Option Nat}
    (hlast : lastIndex? names base = .ok last?) : last? = some last := by
  have hmem := (h _).2 ⟨last, Nat.le_refl last, rfl⟩
  obtain ⟨m, rfl, hle⟩ := exists_le_of_lastIndex? hlast hmem.1
  rw [lastIndex?, mapM_readIndex] at hlast
  split at hlast
  · obtain ⟨ds, hds, hm⟩ := List.mem_filterMap.1
      (List.max?_mem (Except.ok.inj hlast : List.max? _ = some m))
    obtain ⟨name, hname, hdigits⟩ := List.mem_filterMap.1 hds
    obtain ⟨i, hi, rfl⟩ := (h name).1 ⟨hname, hdigits ▸ rfl⟩
    rw [memberDigits?_memberName] at hdigits
    obtain rfl := Option.some.inj hdigits
    obtain rfl := eq_of_readNat?_toDigits hm
    rw [Nat.le_antisymm hi hle]
  · cases hlast

/-- **The last member** is the one with the last index, as long as that is no number too large to be
shown. -/
theorem HasMembersTo.lastIndex?_eq (h : HasMembersTo names base last)
    (hshow : Text.isShowable last = true) : lastIndex? names base = .ok (some last) := by
  have hall : ∀ ds ∈ names.filterMap (memberDigits? base), (Text.readNat? ds).isSome = true := by
    intro ds hds
    obtain ⟨name, hname, hdigits⟩ := List.mem_filterMap.1 hds
    obtain ⟨i, hi, rfl⟩ := (h name).1 ⟨hname, hdigits ▸ rfl⟩
    rw [memberDigits?_memberName] at hdigits
    obtain rfl := Option.some.inj hdigits
    refine isSome_readNat?_of_isShowable (decide_eq_true ?_)
    exact Nat.lt_of_le_of_lt hi (of_decide_eq_true hshow)
  obtain ⟨last?, hlast⟩ : ∃ last?, lastIndex? names base = .ok last? := by
    rw [lastIndex?, mapM_readIndex, if_pos hall]
    exact ⟨_, rfl⟩
  rw [hlast, h.eq_of_lastIndex? hlast]

/-! ### References -/

theorem Reference.resolve_of_lastIndex? (hr : r.isRelative = true)
    (h : lastIndex? names r.base = .ok (some last)) :
    r.resolve n names = .ok (r.withIndex (min (r.subscript.relativeIndex n) last)) := by
  rw [resolve_eq, if_pos hr, h]
  rfl

/-- A relative reference to a family means the member at its index, or the last one. -/
theorem Reference.name_of_resolve (hr : r.isRelative = true) (h : HasMembersTo names r.base last)
    (hr' : r.resolve n names = .ok r') :
    r'.name = memberName r.base (min (r.subscript.relativeIndex n) last) := by
  have hresolve := hr'
  rw [resolve_eq, if_pos hr] at hresolve
  obtain ⟨last?, hlast, -⟩ := exists_of_bind_eq_ok hresolve
  obtain rfl := h.eq_of_lastIndex? hlast
  rw [resolve_of_lastIndex? hr hlast] at hr'
  cases hr'
  rfl

namespace IterativePlan

variable {plan : IterativePlan} {p : Product} {name : Text}

/-- The product is that of a recurrence for the next member of a family, and the family has no
member yet. So `n` is one less than the first index. -/
structure IsAtStart (plan : IterativePlan) (p : Product) (n : Int) (names : List Text) : Prop where
  index : n = -1
  statement : ∃ s, plan.recurrence? = some s ∧ s.product? = some p ∧ s.target.subscript = .next ∧
    lastIndex? names s.target.base = .ok none

/-- Each relative reference of the product means a member that there is, if its family has members
up to a last one, except at the start of a recurrence. -/
def ResolvesWell (plan : IterativePlan) (p : Product) (n : Int) (names : List Text) : Prop :=
  ∀ r ∈ p.references, r.isRelative = true → ∀ last, HasMembersTo names r.base last →
    (Text.isShowable last = true → ∃ r', r.resolve n names = .ok r') ∧
    ∀ r', r.resolve n names = .ok r' →
      (∃ i : Nat, i ≤ last ∧ r'.name = memberName r.base i ∧ r'.name ∈ names) ∨
      r.subscript = .current ∧ plan.IsAtStart p n names ∧ r'.name = memberName r.base (-1)

/-- The index that `n` stands for is not negative, except at the start of a recurrence. The first
member that a recurrence computes is the one after the last member there is. -/
theorem nonneg_or_isAtStart {names' : List Text} {s : Statement} {last? : Option Nat}
    {first index : Int} (hs : plan.recurrence? = some s) (hp : s.product? = some p)
    (hlast : lastIndex? names s.target.base = .ok last?) (hfirst : first = indexAfter last?)
    (hindex : index = first ∧ names' = names ∨ first < index) :
    0 ≤ index - Graph.targetOffset s.target ∨
      plan.IsAtStart p (index - Graph.targetOffset s.target) names' := by
  cases last? with
  | some last =>
    obtain rfl : first = (last : Int) + 1 := hfirst
    left
    rw [Graph.targetOffset]
    split <;> omega
  | none =>
    obtain rfl : first = 0 := hfirst
    rw [Graph.targetOffset]
    split
    · next hnext =>
      rcases hindex with ⟨rfl, rfl⟩ | hindex
      · exact .inr ⟨rfl, s, hs, hp, hnext, hlast⟩
      · exact .inl (by omega)
    · exact .inl (by omega)

/-- **Where `n` is not negative** all relative references mean members that there are. -/
theorem resolvesWell (h : 0 ≤ n ∨ plan.IsAtStart p n names) : plan.ResolvesWell p n names := by
  intro r hr hrel last hmembers
  refine ⟨fun hshow => ⟨_, Reference.resolve_of_lastIndex? hrel (hmembers.lastIndex?_eq hshow)⟩,
    fun r' hr' => ?_⟩
  have hname := Reference.name_of_resolve hrel hmembers hr'
  by_cases hindex : 0 ≤ r.subscript.relativeIndex n
  · obtain ⟨i, hi⟩ := Int.eq_ofNat_of_zero_le hindex
    have hmin : min (r.subscript.relativeIndex n) (last : Int) = (min i last : Nat) := by omega
    rw [hmin] at hname
    exact .inl ⟨_, Nat.min_le_right i last, hname,
      ((hmembers _).2 ⟨_, Nat.min_le_right i last, hname⟩).1⟩
  · -- only `n` itself can be negative, and only at the start
    have hcurrent : r.subscript = .current := by
      rcases r with ⟨base, subscript, transposed, position⟩
      cases subscript with
      | current => rfl
      | next =>
        rcases h with h | h
        · simp only [Subscript.relativeIndex, if_true] at hindex
          omega
        · rw [h.index] at hindex
          exact absurd (Int.le_refl 0) hindex
      | absent | number _ | label _ => cases hrel
    rw [hcurrent, Subscript.relativeIndex, if_neg (by decide)] at hindex hname
    have hstart := h.resolve_left hindex
    have hmin : min n (last : Int) = -1 := by
      rw [hstart.index]
      omega
    rw [hmin] at hname
    exact .inr ⟨hcurrent, hstart, hname⟩

/-- A reference of the product means a matrix that is not among the names. If it is relative and its
family has members up to a last one, then it is `n` at the start of a recurrence. -/
def MissesAtStart (plan : IterativePlan) (p : Product) (n : Int) (names : List Text)
    (name : Text) : Prop :=
  name ∉ names ∧ ∃ r ∈ p.references, (∃ r', r.resolve n names = .ok r' ∧ r'.name = name) ∧
    (r.isRelative = true → ∀ last, HasMembersTo names r.base last →
      r.subscript = .current ∧ plan.IsAtStart p n names ∧ name = memberName r.base (-1))

theorem ResolvesWell.missesAtStart (h : plan.ResolvesWell p n names)
    (hmisses : p.Misses n names name) : plan.MissesAtStart p n names name := by
  obtain ⟨hnone, r, hr, r', hr', rfl⟩ := hmisses
  refine ⟨hnone, r, hr, ⟨r', hr', rfl⟩, fun hrel last hmembers => ?_⟩
  rcases (h r hr hrel last hmembers).2 r' hr' with ⟨-, -, -, hmem⟩ | hstart
  · exact absurd hmem hnone
  · exact hstart

end IterativePlan

end Formula

open Formula

/-! ### The products that are resolved -/

namespace Graph

variable {g g' g₁ : Graph} {config : Config} {plan : IterativePlan} {p : Product} {n : Int}
  {name : Text} {progress progress' : Progress}

/-- One application of a recurrence that has a result: the index, what was done so far and the
graph, before and after it. -/
def Applies (target : Reference) (p : Product) (a b : Int × Progress × Graph) : Prop :=
  ∃ result progress g' member,
    evaluateStatement p (a.1 - targetOffset target) a.2.1 a.2.2 = .ok (some result, progress) g' ∧
    memberName? target.base a.1 = .ok member ∧
    record result member progress g' = .ok b.2.1 b.2.2 ∧ b.1 = a.1 + 1

/-- A recompute of the plan may run, and the second graph is the rebuilt one. -/
def IsRebuilt (plan : IterativePlan) (config : Config) (g g₀ : Graph) : Prop :=
  (Plan.iterative plan).obstacle? config.output = none ∧
    ∃ inputs, inputNames (.iterative plan) config = .ok inputs ∧
      rebuild config inputs g = .ok () g₀

/-- In the course of a recompute the product is resolved at index `n` among the matrices of the
second graph: either it is that of a base case and those before it have been evaluated, or it is
that of the recurrence and the applications before this one had results. -/
inductive Resolves (plan : IterativePlan) (config : Config) (g : Graph) :
    Product → Int → Graph → Prop where
  | baseCase {before : List Statement} {s : Statement} {after : List Statement} {p : Product}
      {progress : Progress} {g₀ g₁ : Graph} (hrebuilt : IsRebuilt plan config g g₀)
      (hcases : plan.baseCases = before ++ s :: after) (hp : s.product? = some p)
      (hbefore : runBaseCases before ⟨0, [], []⟩ g₀ = .ok progress g₁) :
      Resolves plan config g p 0 g₁
  | recurrence {s : Statement} {p : Product} {progress : Progress} {index : Int} {count : Nat}
      {g₀ g₁ : Graph} {a : Int × Progress × Graph} (hrebuilt : IsRebuilt plan config g g₀)
      (hcases : runBaseCases plan.baseCases ⟨0, [], []⟩ g₀ = .ok progress g₁)
      (hs : plan.recurrence? = some s) (hp : s.product? = some p)
      (hindex : g₁.nextIndex s.target.base = .ok index)
      (hcount : recurrenceCount config = .ok count)
      (hbefore : ReflTransGen (Applies s.target p) (index, progress, g₁) a)
      (hlt : a.1 < index + count) :
      Resolves plan config g p (a.1 - targetOffset s.target) a.2.2

theorem le_of_applies {target : Reference} {a b : Int × Progress × Graph}
    (h : ReflTransGen (Applies target p) a b) : a = b ∨ a.1 < b.1 := by
  induction h with
  | refl => exact .inl rfl
  | @tail b c _ hstep ih =>
    obtain ⟨-, -, -, -, -, -, -, hindex⟩ := hstep
    rcases ih with rfl | ih
    · exact .inr (by omega)
    · exact .inr (by omega)

theorem exists_lastIndex?_of_nextIndex {base : Text} {first : Int}
    (h : g.nextIndex base = .ok first) : ∃ last?, lastIndex? g.matrices.keys base = .ok last? ∧
      first = indexAfter last? := by
  rw [nextIndex_eq] at h
  cases hlast : lastIndex? g.matrices.keys base with
  | error e =>
    rw [hlast] at h
    cases h
  | ok last? =>
    rw [hlast] at h
    cases h
    exact ⟨last?, rfl, by cases last? <;> rfl⟩

/-- **The index** of a product is not negative, except at the start of a recurrence. -/
theorem Resolves.index (h : Resolves plan config g p n g₁) :
    0 ≤ n ∨ plan.IsAtStart p n g₁.matrices.keys := by
  cases h with
  | baseCase => exact .inl (Int.le_refl 0)
  | recurrence _ _ hs hp hindex _ hbefore _ =>
    obtain ⟨last?, hlast, hfirst⟩ := exists_lastIndex?_of_nextIndex hindex
    refine IterativePlan.nonneg_or_isAtStart hs hp hlast hfirst ?_
    rcases le_of_applies hbefore with rfl | hlt
    · exact .inl ⟨rfl, rfl⟩
    · exact .inr hlt

/-! ### Where missing matrices are met -/

theorem issues_of_record {result target : Text}
    (h : record result target progress g = .ok progress' g') :
    progress'.issues = progress.issues := by
  obtain ⟨u, g₁, -, h⟩ := exists_run_of_bind h
  cases h
  rfl

theorem runBaseCases_append (ss ts : List Statement) (progress : Progress) :
    runBaseCases (ss ++ ts) progress = runBaseCases ss progress >>= runBaseCases ts := by
  induction ss generalizing progress with
  | nil => exact (pure_bind progress _).symm
  | cons s ss ih =>
    rw [List.cons_append, runBaseCases, runBaseCases]
    cases s.product? with
    | none => exact ih progress
    | some p =>
      dsimp only
      rw [bind_assoc]
      refine congrArg (evaluateStatement p 0 progress >>= ·) (funext fun ⟨result?, progress⟩ => ?_)
      cases result? with
      | none => exact ih progress
      | some result =>
        dsimp only
        rw [bind_assoc]
        exact congrArg (record result s.target.name progress >>= ·) (funext ih)

/-- One of the base cases misses the matrix, after those before it have been evaluated. -/
def BaseCaseMisses (ss : List Statement) (progress : Progress) (g : Graph) (name : Text) : Prop :=
  ∃ before s after p progress₁ g₁, ss = before ++ s :: after ∧ s.product? = some p ∧
    runBaseCases before progress g = .ok progress₁ g₁ ∧ p.Misses 0 g₁.matrices.keys name

theorem BaseCaseMisses.append {ss : List Statement} (h : BaseCaseMisses ss progress g name)
    (ts : List Statement) : BaseCaseMisses (ss ++ ts) progress g name := by
  obtain ⟨before, s, after, p, progress₁, g₁, rfl, hrest⟩ := h
  exact ⟨before, s, after ++ ts, p, progress₁, g₁, List.append_assoc before (s :: after) ts, hrest⟩

theorem missing_of_runBaseCases {ss : List Statement}
    (h : runBaseCases ss progress g = .ok progress' g')
    (hmissing : .missing name ∈ progress'.issues) :
    .missing name ∈ progress.issues ∨ BaseCaseMisses ss progress g name := by
  -- on the base cases before the last one
  induction ss using List.reverseRecOn generalizing progress' g' with
  | nil =>
    cases h
    exact .inl hmissing
  | append_singleton ss s ih =>
    rw [runBaseCases_append] at h
    obtain ⟨progress₁, g₁, hbefore, h⟩ := exists_run_of_bind h
    have hearlier (hmissing : .missing name ∈ progress₁.issues) :
        .missing name ∈ progress.issues ∨ BaseCaseMisses (ss ++ [s]) progress g name :=
      (ih hbefore hmissing).imp_right fun h => h.append [s]
    rw [runBaseCases] at h
    cases hp : s.product? with
    | none =>
      rw [hp] at h
      cases h
      exact hearlier hmissing
    | some p =>
      rw [hp] at h
      obtain ⟨⟨result?, progress₂⟩, g₂, hevaluate, h⟩ := exists_run_of_bind h
      have hissues : progress'.issues = progress₂.issues := by
        cases result? with
        | none =>
          cases h
          rfl
        | some result =>
          obtain ⟨progress₃, g₃, hrecord, h⟩ := exists_run_of_bind h
          cases h
          exact issues_of_record hrecord
      rcases missing_of_evaluateStatement hevaluate (hissues ▸ hmissing) with hmissing | hmisses
      · exact hearlier hmissing
      · exact .inr ⟨ss, s, [], p, progress₁, g₁, rfl, hp, hbefore, hmisses⟩

theorem missing_of_runRecurrence {target : Reference} {count : Nat} {index : Int}
    (h : runRecurrence target p count index progress g = .ok progress' g')
    (hmissing : .missing name ∈ progress'.issues) :
    .missing name ∈ progress.issues ∨ ∃ a : Int × Progress × Graph,
      ReflTransGen (Applies target p) (index, progress, g) a ∧ a.1 < index + count ∧
      p.Misses (a.1 - targetOffset target) a.2.2.matrices.keys name := by
  induction count generalizing index progress g with
  | zero =>
    cases h
    exact .inl hmissing
  | succ count ih =>
    obtain ⟨⟨result?, progress₁⟩, g₁, hevaluate, h⟩ := exists_run_of_bind h
    have hstatement (hmissing : .missing name ∈ progress₁.issues) :
        .missing name ∈ progress.issues ∨ ∃ a : Int × Progress × Graph,
          ReflTransGen (Applies target p) (index, progress, g) a ∧ a.1 < index + (count + 1 : Nat) ∧
          p.Misses (a.1 - targetOffset target) a.2.2.matrices.keys name :=
      (missing_of_evaluateStatement hevaluate hmissing).imp_right fun hmisses =>
        ⟨_, .refl, by dsimp only; omega, hmisses⟩
    cases result? with
    | none =>
      cases h
      exact hstatement hmissing
    | some result =>
      dsimp only at h
      obtain ⟨member, g₂, hmember, hrun⟩ := exists_run_of_bind h
      obtain ⟨progress₂, g₃, hrecord, hlater⟩ := exists_run_of_bind hrun
      obtain rfl := graph_eq_of_liftIndex hmember
      rcases ih hlater with hmissing | ⟨a, hsteps, hlt, hmisses⟩
      · exact hstatement (issues_of_record hrecord ▸ hmissing)
      · have hfirst : Applies target p (index, progress, g) (index + 1, progress₂, g₃) :=
          ⟨result, progress₁, _, member, hevaluate, eq_ok_of_liftIndex hmember, hrecord, rfl⟩
        exact .inr ⟨a, .head hfirst hsteps, by omega, hmisses⟩

/-- **Each matrix that is missed** was meant by a reference of a product, when that was resolved. -/
theorem exists_resolves_of_missing {o : Outcome}
    (h : recompute (.iterative plan) config g = .ok o g') (hmissing : .missing name ∈ o.issues) :
    ∃ p n g₁, Resolves plan config g p n g₁ ∧ p.Misses n g₁.matrices.keys name := by
  cases hobstacle : (Plan.iterative plan).obstacle? config.output with
  | some obstacle =>
    simp only [recompute, hobstacle] at h
    cases h
    cases hmissing
  | none =>
    cases hinputs : inputNames (.iterative plan) config with
    | error e =>
      rw [recompute_of_inputNames_error hobstacle hinputs] at h
      cases h
    | ok inputs =>
      rw [recompute_of_inputNames hobstacle hinputs] at h
      obtain ⟨u, g₀, hrebuild, h⟩ := exists_run_of_bind h
      have hrebuilt : IsRebuilt plan config g g₀ := ⟨hobstacle, inputs, hinputs, hrebuild⟩
      rw [runPlan, runIterative_eq] at h
      obtain ⟨progress, g₁, hrun, h⟩ := exists_run_of_bind h
      obtain ⟨u, g₂, -, h⟩ := exists_run_of_bind h
      obtain ⟨o', ho', -, hissues, -, -⟩ := outcome_spec config progress.computed progress.issues g₂
      obtain rfl : o' = o := (EStateM.Result.ok.inj (ho'.symm.trans h)).1
      rw [hissues] at hmissing
      rw [runStatements_eq] at hrun
      obtain ⟨progress₁, g₃, hcases, hrun⟩ := exists_run_of_bind hrun
      have hbase (hmissing : .missing name ∈ progress₁.issues) :
          ∃ p n g₁, Resolves plan config g p n g₁ ∧ p.Misses n g₁.matrices.keys name := by
        rcases missing_of_runBaseCases hcases hmissing with hnone |
          ⟨before, s, after, p, progress₂, g₄, hsplit, hp, hbefore, hmisses⟩
        · cases hnone
        · exact ⟨p, 0, g₄, .baseCase hrebuilt hsplit hp hbefore, hmisses⟩
      rw [applyRecurrence] at hrun
      cases hs : plan.recurrence? with
      | none =>
        rw [hs] at hrun
        cases hrun
        exact hbase hmissing
      | some s =>
        rw [hs] at hrun
        dsimp only at hrun
        cases hp : s.product? with
        | none =>
          rw [hp] at hrun
          cases hrun
          exact hbase hmissing
        | some p =>
          rw [hp] at hrun
          dsimp only at hrun
          rw [get_bind_eq] at hrun
          obtain ⟨index, g₄, hlift, happly⟩ := exists_run_of_bind hrun
          obtain rfl := graph_eq_of_liftIndex hlift
          have hindex := eq_ok_of_liftIndex hlift
          cases hcount : recurrenceCount config with
          | error e =>
            rw [hcount] at happly
            cases happly
          | ok count =>
            rw [hcount] at happly
            rcases missing_of_runRecurrence happly hmissing with hmissing |
              ⟨a, hbefore, hlt, hmisses⟩
            · exact hbase hmissing
            · exact ⟨p, _, a.2.2,
                .recurrence hrebuilt hcases hs hp hindex hcount hbefore hlt, hmisses⟩

end Graph

/-! ### Predictions -/

namespace ShapeCheck

variable {config : Config} {plan : IterativePlan} {p : Product} {n : Int} {name : Text}
  {shapes : Shapes} {progress progress' : Progress}

theorem exists_lastIndex?_of_nextIndex {base : Text} {first : Int}
    (h : nextIndex shapes base = .ok first) : ∃ last?, lastIndex? shapes.names base = .ok last? ∧
      first = indexAfter last? := by
  obtain ⟨indices, hindices, h⟩ := exists_of_bind_eq_ok h
  refine ⟨indices.getLast?, ?_, ?_⟩
  · rw [← getLast?_memberIndices, hindices]
    rfl
  · cases hlast : indices.getLast? with
    | none =>
      rw [hlast] at h
      cases h
      rfl
    | some last =>
      rw [hlast] at h
      cases h
      rfl

/-- One application of a recurrence that has a shape. -/
def Applies (target : Reference) (p : Product) (a b : Int × Progress) : Prop :=
  ∃ shape progress member,
    shapeOfStatement p (a.1 - Graph.targetOffset target) a.2 = .ok (some shape, progress) ∧
    memberName? target.base a.1 = .ok member ∧ b = (a.1 + 1, record member shape progress)

/-- In the course of a prediction the product is resolved at index `n` among the names of the table
of shapes. -/
inductive Resolves (plan : IterativePlan) (config : Config) : Product → Int → Shapes → Prop where
  | baseCase {before : List Statement} {s : Statement} {after : List Statement} {p : Product}
      {progress : Progress} (hobstacle : (Plan.iterative plan).obstacle? config.output = none)
      (hcases : plan.baseCases = before ++ s :: after) (hp : s.product? = some p)
      (hbefore : runBaseCases before ⟨inputShapes (.iterative plan) config, none, []⟩ =
        .ok progress) :
      Resolves plan config p 0 progress.shapes
  | recurrence {s : Statement} {p : Product} {progress : Progress} {index : Int} {count : Nat}
      {a : Int × Progress} (hobstacle : (Plan.iterative plan).obstacle? config.output = none)
      (hcases : runBaseCases plan.baseCases ⟨inputShapes (.iterative plan) config, none, []⟩ =
        .ok progress)
      (hs : plan.recurrence? = some s) (hp : s.product? = some p)
      (hindex : nextIndex progress.shapes s.target.base = .ok index)
      (hcount : Graph.recurrenceCount config = .ok count)
      (hbefore : ReflTransGen (Applies s.target p) (index, progress) a)
      (hlt : a.1 < index + count) :
      Resolves plan config p (a.1 - Graph.targetOffset s.target) a.2.shapes

theorem le_of_applies {target : Reference} {a b : Int × Progress}
    (h : ReflTransGen (Applies target p) a b) : a = b ∨ a.1 < b.1 := by
  induction h with
  | refl => exact .inl rfl
  | @tail b c _ hstep ih =>
    obtain ⟨-, -, -, -, -, rfl⟩ := hstep
    rcases ih with rfl | ih
    · exact .inr (Int.lt_succ a.1)
    · exact .inr (Int.lt_trans ih (Int.lt_succ b.1))

/-- The index of a product in a prediction, as in a recompute. -/
theorem Resolves.index (h : Resolves plan config p n shapes) :
    0 ≤ n ∨ plan.IsAtStart p n shapes.names := by
  cases h with
  | baseCase => exact .inl (Int.le_refl 0)
  | recurrence _ _ hs hp hindex _ hbefore _ =>
    obtain ⟨last?, hlast, hfirst⟩ := exists_lastIndex?_of_nextIndex hindex
    refine IterativePlan.nonneg_or_isAtStart hs hp hlast hfirst ?_
    rcases le_of_applies hbefore with rfl | hlt
    · exact .inl ⟨rfl, rfl⟩
    · exact .inr hlt

theorem runBaseCases_append (ss ts : List Statement) (progress : Progress) :
    runBaseCases (ss ++ ts) progress = runBaseCases ss progress >>= runBaseCases ts := by
  induction ss generalizing progress with
  | nil => rfl
  | cons s ss ih =>
    rw [List.cons_append, runBaseCases, runBaseCases]
    cases s.product? with
    | none => exact ih progress
    | some p =>
      dsimp only
      rw [bind_assoc]
      refine congrArg (shapeOfStatement p 0 progress >>= ·) (funext fun ⟨shape?, progress⟩ => ?_)
      cases shape? with
      | none => exact ih progress
      | some shape => exact ih (record s.target.name shape progress)

/-- One of the base cases misses the matrix, after those before it have been gone through. -/
def BaseCaseMisses (ss : List Statement) (progress : Progress) (name : Text) : Prop :=
  ∃ before s after p progress₁, ss = before ++ s :: after ∧ s.product? = some p ∧
    runBaseCases before progress = .ok progress₁ ∧ p.Misses 0 progress₁.shapes.names name

theorem BaseCaseMisses.append {ss : List Statement} (h : BaseCaseMisses ss progress name)
    (ts : List Statement) : BaseCaseMisses (ss ++ ts) progress name := by
  obtain ⟨before, s, after, p, progress₁, rfl, hrest⟩ := h
  exact ⟨before, s, after ++ ts, p, progress₁, List.append_assoc before (s :: after) ts, hrest⟩

theorem missing_of_runBaseCases {ss : List Statement}
    (h : runBaseCases ss progress = .ok progress') (hmissing : .missing name ∈ progress'.issues) :
    .missing name ∈ progress.issues ∨ BaseCaseMisses ss progress name := by
  induction ss using List.reverseRecOn generalizing progress' with
  | nil =>
    cases h
    exact .inl hmissing
  | append_singleton ss s ih =>
    rw [runBaseCases_append] at h
    obtain ⟨progress₁, hbefore, h⟩ := exists_of_bind_eq_ok h
    have hearlier (hmissing : .missing name ∈ progress₁.issues) :
        .missing name ∈ progress.issues ∨ BaseCaseMisses (ss ++ [s]) progress name :=
      (ih hbefore hmissing).imp_right fun h => h.append [s]
    rw [runBaseCases] at h
    cases hp : s.product? with
    | none =>
      rw [hp] at h
      cases h
      exact hearlier hmissing
    | some p =>
      rw [hp] at h
      obtain ⟨⟨shape?, progress₂⟩, hstatement, h⟩ := exists_of_bind_eq_ok h
      have hissues : progress'.issues = progress₂.issues := by
        cases shape? <;> cases h <;> rfl
      rcases missing_of_shapeOfStatement hstatement (hissues ▸ hmissing) with hmissing | hmisses
      · exact hearlier hmissing
      · exact .inr ⟨ss, s, [], p, progress₁, rfl, hp, hbefore, hmisses⟩

theorem missing_of_runRecurrence {target : Reference} {count : Nat} {index : Int}
    (h : runRecurrence target p count index progress = .ok progress')
    (hmissing : .missing name ∈ progress'.issues) :
    .missing name ∈ progress.issues ∨ ∃ a : Int × Progress,
      ReflTransGen (Applies target p) (index, progress) a ∧ a.1 < index + count ∧
      p.Misses (a.1 - Graph.targetOffset target) a.2.shapes.names name := by
  induction count generalizing index progress with
  | zero =>
    cases h
    exact .inl hmissing
  | succ count ih =>
    obtain ⟨⟨shape?, progress₁⟩, hstatement, h⟩ := exists_of_bind_eq_ok h
    have hmisses (hmissing : .missing name ∈ progress₁.issues) :
        .missing name ∈ progress.issues ∨ ∃ a : Int × Progress,
          ReflTransGen (Applies target p) (index, progress) a ∧
          a.1 < index + (count + 1 : Nat) ∧
          p.Misses (a.1 - Graph.targetOffset target) a.2.shapes.names name :=
      (missing_of_shapeOfStatement hstatement hmissing).imp_right fun hmisses =>
        ⟨_, .refl, by dsimp only; omega, hmisses⟩
    cases shape? with
    | none =>
      cases h
      exact hmisses hmissing
    | some shape =>
      dsimp only at h
      obtain ⟨member, hmember, hlater⟩ := exists_of_bind_eq_ok h
      rcases ih hlater with hmissing | ⟨a, hsteps, hlt, hnone⟩
      · exact hmisses hmissing
      · have hfirst : Applies target p (index, progress)
            (index + 1, record member shape progress₁) :=
          ⟨shape, progress₁, member, hstatement, hmember, rfl⟩
        exact .inr ⟨a, .head hfirst hsteps, by omega, hnone⟩

/-- **Each matrix that is missed** in a prediction was meant by a reference of a product. -/
theorem exists_resolves_of_missing {check : ShapeCheck}
    (h : ofPlan (.iterative plan) config = .ok check)
    (hmissing : .missing name ∈ check.issues) :
    ∃ p n shapes, Resolves plan config p n shapes ∧ p.Misses n shapes.names name := by
  unfold ofPlan at h
  cases hobstacle : (Plan.iterative plan).obstacle? config.output with
  | some obstacle =>
    rw [hobstacle] at h
    cases h
    cases hmissing
  | none =>
    rw [hobstacle] at h
    obtain ⟨progress, hcases, h⟩ := exists_of_bind_eq_ok h
    replace hcases := eq_ok_of_mapError hcases
    have hbase (hmissing : .missing name ∈ progress.issues) :
        ∃ p n shapes, Resolves plan config p n shapes ∧ p.Misses n shapes.names name := by
      rcases missing_of_runBaseCases hcases hmissing with hnone |
        ⟨before, s, after, p, progress₁, hsplit, hp, hbefore, hmisses⟩
      · cases hnone
      · exact ⟨p, 0, _, .baseCase hobstacle hsplit hp hbefore, hmisses⟩
    cases hs : plan.recurrence? with
    | none =>
      rw [hs] at h
      cases h
      exact hbase hmissing
    | some s =>
      rw [hs] at h
      dsimp only at h
      cases hp : s.product? with
      | none =>
        rw [hp] at h
        cases h
        exact hbase hmissing
      | some p =>
        rw [hp] at h
        dsimp only at h
        obtain ⟨index, hindex, h⟩ := exists_of_bind_eq_ok h
        obtain ⟨count, hcount, h⟩ := exists_of_bind_eq_ok h
        obtain ⟨progress₁, happly, h⟩ := exists_of_bind_eq_ok h
        cases h
        rcases missing_of_runRecurrence (eq_ok_of_mapError happly) hmissing with hmissing |
          ⟨a, hbefore, hlt, hmisses⟩
        · exact hbase hmissing
        · exact ⟨p, _, _, .recurrence hobstacle hcases hs hp (eq_ok_of_mapError hindex) hcount
            hbefore hlt, hmisses⟩

end ShapeCheck

/-! ### Runs -/

namespace Formula.IterativePlan

/-- **What relative references mean.** Whenever a product of the plan is resolved in a recompute or
a prediction, its relative references mean members that there are, as long as the families have
members up to a last one; only `n` at the start of a recurrence for the first member of a family
means none. So only there is a relative reference to such a family missed. -/
theorem resolved_members (plan : IterativePlan) (config : Config) :
    (∀ g : Graph,
      (∀ p n g₁, Graph.Resolves plan config g p n g₁ →
        plan.ResolvesWell p n g₁.matrices.keys) ∧
      ∀ o g' name, Graph.recompute (.iterative plan) config g = .ok o g' →
        .missing name ∈ o.issues → ∃ p n g₁, Graph.Resolves plan config g p n g₁ ∧
          plan.MissesAtStart p n g₁.matrices.keys name) ∧
    (∀ p n shapes, ShapeCheck.Resolves plan config p n shapes →
      plan.ResolvesWell p n shapes.names) ∧
    ∀ check name, ShapeCheck.ofPlan (.iterative plan) config = .ok check →
      .missing name ∈ check.issues → ∃ p n shapes, ShapeCheck.Resolves plan config p n shapes ∧
        plan.MissesAtStart p n shapes.names name := by
  have hrun {g : Graph} {p : Product} {n : Int} {g₁ : Graph}
      (h : Graph.Resolves plan config g p n g₁) : plan.ResolvesWell p n g₁.matrices.keys :=
    resolvesWell h.index
  have hcheck {p : Product} {n : Int} {shapes : Shapes}
      (h : ShapeCheck.Resolves plan config p n shapes) : plan.ResolvesWell p n shapes.names :=
    resolvesWell h.index
  refine ⟨fun g => ⟨fun _ _ _ => hrun, fun o g' name h hmissing => ?_⟩, fun _ _ _ => hcheck,
    fun check name h hmissing => ?_⟩
  · obtain ⟨p, n, g₁, hresolves, hmisses⟩ := Graph.exists_resolves_of_missing h hmissing
    exact ⟨p, n, g₁, hresolves, (hrun hresolves).missesAtStart hmisses⟩
  · obtain ⟨p, n, shapes, hresolves, hmisses⟩ := ShapeCheck.exists_resolves_of_missing h hmissing
    exact ⟨p, n, shapes, hresolves, (hcheck hresolves).missesAtStart hmisses⟩

/-- The plan of `A_0,K_0=A_{n+1}`, whose base case reads past the end of a family. -/
def clampingPlan : IterativePlan where
  baseCases := [⟨⟨"K", .number 0, false, 0⟩, [⟨"A", .next, false, 0⟩], "K_0=A_\x7bn+1\x7d"⟩]
  recurrence? := none
  constants := [⟨⟨"A", .number 0, false, 0⟩, "A_0"⟩]
  explicit := ["A_0", "K_0"]
  replaced := []
  fault? := none
  text := "A_0,K_0=A_\x7bn+1\x7d"

theorem hasMembersTo_singleton (base : Text) : HasMembersTo [memberName base (0 : Nat)] base 0 := by
  intro name
  constructor
  · rintro ⟨hname, -⟩
    exact ⟨0, Nat.le_refl 0, List.mem_singleton.1 hname⟩
  · rintro ⟨i, hi, rfl⟩
    obtain rfl := Nat.le_zero.1 hi
    exact ⟨List.mem_singleton.2 rfl, by rw [memberDigits?_memberName]; rfl⟩

/-- When the base case is resolved, only `A_0` is there, and `A_{n+1}` means it. -/
theorem resolved_members_sample : ∃ p g₁ r',
    Graph.Resolves clampingPlan .standard (.empty "elem") p 0 g₁ ∧
      HasMembersTo g₁.matrices.keys "A" 0 ∧ ⟨"A", .next, false, 0⟩ ∈ p.references ∧
      Reference.resolve ⟨"A", .next, false, 0⟩ 0 g₁.matrices.keys = .ok r' ∧
      r'.name ∈ g₁.matrices.keys := by
  have hinputs : inputNames (.iterative clampingPlan) .standard = .ok ["A_0"] := by decide +kernel
  have hrebuild : Graph.rebuild .standard ["A_0"] (.empty "elem") =
      .ok () (Graph.after (Graph.rebuild .standard ["A_0"]) (.empty "elem")) := rfl
  have hkeys : (Graph.after (Graph.rebuild .standard ["A_0"]) (.empty "elem")).matrices.keys =
      [memberName "A" (0 : Nat)] := by decide +kernel
  have hfirst : clampingPlan.baseCases = [] ++ _ :: [] := rfl
  have hresolves : Graph.Resolves clampingPlan .standard (.empty "elem") _ 0 _ :=
    .baseCase ⟨by decide +kernel, ["A_0"], hinputs, hrebuild⟩ hfirst rfl rfl
  have hmembers := hkeys ▸ hasMembersTo_singleton "A"
  obtain ⟨hsome, hmeans⟩ := ((resolved_members clampingPlan .standard).1 (.empty "elem")).1 _ _ _
    hresolves _ List.mem_cons_self rfl 0 hmembers
  obtain ⟨r', hr'⟩ := hsome (by decide +kernel)
  refine ⟨_, _, r', hresolves, hmembers, List.mem_cons_self, hr', ?_⟩
  rcases hmeans r' hr' with ⟨-, -, -, hmem⟩ | ⟨hcurrent, -, -⟩
  · exact hmem
  · cases hcurrent

/-- The plan of `A_0,K_{n+1}=A_n`, whose recurrence starts a family. -/
def startingPlan : IterativePlan where
  baseCases := []
  recurrence? := some ⟨⟨"K", .next, false, 0⟩, [⟨"A", .current, false, 0⟩],
    "K_\x7bn+1\x7d=A_n"⟩
  constants := [⟨⟨"A", .number 0, false, 0⟩, "A_0"⟩]
  explicit := ["A_0"]
  replaced := []
  fault? := none
  text := "A_0,K_\x7bn+1\x7d=A_n"

/-- **At the start of a recurrence** `A_n` means `A_-1`, although `A_0` is there. It is missed then,
both in a recompute and in a prediction. -/
theorem resolved_member_absent :
    Plan.read "A_0,K_\x7bn+1\x7d=A_n" = .ok (.iterative startingPlan) ∧
    (Plan.iterative startingPlan).obstacle? Config.standard.output = none ∧
    (Graph.empty "elem").IsReachable ∧
    (∃ p g₁ r', Graph.Resolves startingPlan .standard (.empty "elem") p (-1) g₁ ∧
      HasMembersTo g₁.matrices.keys "A" 0 ∧ ⟨"A", .current, false, 0⟩ ∈ p.references ∧
      Reference.resolve ⟨"A", .current, false, 0⟩ (-1) g₁.matrices.keys = .ok r' ∧
      r'.name = "A_-1" ∧ r'.name ∉ g₁.matrices.keys) ∧
    (∃ o g', Graph.recompute (.iterative startingPlan) .standard (.empty "elem") = .ok o g' ∧
      o.issues = [.missing "A_-1"]) ∧
    ∃ check, ShapeCheck.ofPlan (.iterative startingPlan) .standard = .ok check ∧
      check.issues = [.missing "A_-1"] := by
  refine ⟨by decide +kernel, by decide +kernel, ⟨"elem", [], rfl⟩, ?_, ?_, ?_⟩
  · have hinputs : inputNames (.iterative startingPlan) .standard = .ok ["A_0"] := by
      decide +kernel
    have hrebuild : Graph.rebuild .standard ["A_0"] (.empty "elem") =
        .ok () (Graph.after (Graph.rebuild .standard ["A_0"]) (.empty "elem")) := rfl
    have hkeys : (Graph.after (Graph.rebuild .standard ["A_0"]) (.empty "elem")).matrices.keys =
        [memberName "A" (0 : Nat)] := by decide +kernel
    have hindex : (Graph.after (Graph.rebuild .standard ["A_0"]) (.empty "elem")).nextIndex "K" =
        .ok 0 := by decide +kernel
    have hresolves : Graph.Resolves startingPlan .standard (.empty "elem") _ (0 - 1) _ :=
      .recurrence ⟨by decide +kernel, ["A_0"], hinputs, hrebuild⟩ rfl rfl rfl hindex rfl .refl
        (Int.lt_succ 0)
    have hlast : lastIndex? [memberName "A" (0 : Nat)] "A" = .ok (some 0) :=
      (hasMembersTo_singleton "A").lastIndex?_eq (by decide +kernel)
    refine ⟨_, _, _, hresolves, hkeys ▸ hasMembersTo_singleton "A", List.mem_cons_self,
      Reference.resolve_of_lastIndex? rfl (hkeys ▸ hlast), by decide +kernel, ?_⟩
    rw [hkeys]
    decide +kernel
  · have hissues : (match Graph.recompute (.iterative startingPlan) .standard (.empty "elem") with
        | .ok o _ => some o.issues
        | .error _ _ => none) = some [.missing "A_-1"] := by decide +kernel
    cases hrun : Graph.recompute (.iterative startingPlan) .standard (.empty "elem") with
    | error e g' =>
      rw [hrun] at hissues
      cases hissues
    | ok o g' =>
      rw [hrun] at hissues
      exact ⟨o, g', rfl, Option.some.inj hissues⟩
  · have hissues : (ShapeCheck.ofPlan (.iterative startingPlan) .standard).map ShapeCheck.issues =
        .ok [.missing "A_-1"] := by decide +kernel
    cases hcheck : ShapeCheck.ofPlan (.iterative startingPlan) .standard with
    | error e =>
      rw [hcheck] at hissues
      cases hissues
    | ok check =>
      rw [hcheck] at hissues
      exact ⟨check, rfl, Except.ok.inj hissues⟩

end Formula.IterativePlan

end CellLineage

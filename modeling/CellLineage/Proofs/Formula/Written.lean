import CellLineage.Evaluation.Resolve

/-!
# References in written formulas

A reference that was read from a text has a *base* as the grammar wants it: an upper-case letter and
lower-case letters after it. Whatever subscript follows, the name of the matrix begins with that
upper-case letter. So no formula names an intermediate result, and the members of a family are never
confused with other matrices. The subscript was read from a text without blanks, so that a label
does not end a line.

## Main definitions

* `IsBase`: the bases that the grammar allows.
* `Reference.unplaced`: a reference wherever it stands.
* `Reference.IsRead`: what holds of a reference that was read.
* `IterativePlan.IsWritten`: all references of a plan have such a base.
* `IterativePlan.IsPreserved`: what reading one more part of a formula preserves.

## Main results

* `isRead_of_readFactors`: the references of a product are read so.
* `Plan.isBase_of_read`, `Plan.isWritten_of_read`: the references of every plan have such bases.
* `Plan.exists_isRead_of_mem_baseMatrices`: the input matrices that a plan reads.
-/

namespace CellLineage

/-- A computation that succeeds went through a first step that did. -/
theorem exists_of_bind_eq_ok {ε α β : Type} {x : Except ε α} {f : α → Except ε β} {b : β}
    (h : (x >>= f) = .ok b) : ∃ a, x = .ok a ∧ f a = .ok b := by
  cases x with
  | error e => cases h
  | ok a => exact ⟨a, rfl, h⟩

theorem eq_ok_of_mapError {ε ε' α : Type} {x : Except ε α} {f : ε → ε'} {a : α}
    (h : x.mapError f = .ok a) : x = .ok a := by
  cases x with
  | error e => cases h
  | ok b => exact congrArg Except.ok (Except.ok.inj h)

namespace Formula

/-- The text is an upper-case letter with lower-case letters after it. -/
def IsBase (base : Text) : Prop :=
  ∃ c cs, base.symbols = .char c :: cs ∧ c.isUpper = true ∧ ∀ x ∈ cs, x.holds Char.isLower = true

/-- A base holds no other characters than letters. -/
theorem IsBase.notMem {base : Text} (h : IsBase base) {c : Char} (hupper : c.isUpper = false)
    (hlower : c.isLower = false) : .char c ∉ base.symbols := by
  obtain ⟨d, cs, hd, hfirst, hrest⟩ := h
  rw [hd, List.mem_cons, not_or]
  refine ⟨fun he => ?_, fun hmem => ?_⟩
  · cases he
    rw [hupper] at hfirst
    cases hfirst
  · have hc : c.isLower = true := hrest _ hmem
    rw [hlower] at hc
    cases hc

/-- The name of a reference begins with its base. -/
theorem Reference.base_isPrefix_name (r : Reference) : r.base.symbols <+: r.name.symbols := by
  unfold Reference.name memberName
  split
  · exact List.prefix_rfl
  · exact List.prefix_rfl
  · exact List.prefix_rfl
  · rw [Text.symbols_append, Text.symbols_append, List.append_assoc]
    exact List.prefix_append ..
  · rw [Text.symbols_append, Text.symbols_append, List.append_assoc]
    exact List.prefix_append ..

/-- The reference wherever it stands in a formula. -/
def Reference.unplaced (r : Reference) : Reference :=
  { r with position := 0 }

@[simp] theorem Reference.name_unplaced (r : Reference) : r.unplaced.name = r.name :=
  rfl

/-- The subscript was read from a text without blanks. -/
def Subscript.IsRead (s : Subscript) : Prop :=
  ∃ xs, (∀ x ∈ xs, x.holds Text.isBlank = false) ∧ Subscript.read xs = .ok s

/-- The reference was read: its base is as the grammar wants it, and so was its subscript. -/
structure Reference.IsRead (r : Reference) : Prop where
  isBase : IsBase r.base
  subscript : r.subscript.IsRead

/-! ### Products -/

theorem Lexeme.isBase_of_scan {xs rest : List Symbol} {l : Lexeme}
    (h : Lexeme.scan xs = some (l, rest)) : IsBase ⟨l.base⟩ := by
  cases xs with
  | nil => cases h
  | cons x xs =>
    simp only [Lexeme.scan] at h
    split at h
    · next hx =>
      cases h
      cases x with
      | char c =>
        refine ⟨c, xs.takeWhile (·.holds Char.isLower), rfl, hx, fun y hy => ?_⟩
        exact List.all_eq_true.1 List.all_takeWhile y hy
      | surrogate k => cases hx
    · cases h

theorem Lexeme.subset_of_scanSubscript (xs : List Symbol) :
    (scanSubscript xs).1.getD [] ⊆ xs ∧ (scanSubscript xs).2 ⊆ xs := by
  unfold scanSubscript
  split
  · next inner =>
    split
    · exact ⟨List.nil_subset _, fun _ hx => hx⟩
    · exact ⟨List.nil_subset _, fun _ hx => hx⟩
    · next brace rest hrest _ =>
      have hsub : brace :: rest ⊆ inner := hrest ▸ (List.dropWhile_sublist _).subset
      have hbody := (List.takeWhile_sublist (· != .char '}') (l := inner)).subset
      refine ⟨fun x hx => ?_, fun x hx => ?_⟩
      · rw [Option.getD_some, List.cons_append, List.mem_cons, List.mem_append] at hx
        rcases hx with rfl | hx | hx
        · exact List.mem_cons_of_mem _ List.mem_cons_self
        · exact List.mem_cons_of_mem _ (List.mem_cons_of_mem _ (hbody hx))
        · rw [List.mem_singleton.1 hx]
          exact List.mem_cons_of_mem _ (List.mem_cons_of_mem _ (hsub List.mem_cons_self))
      · exact List.mem_cons_of_mem _ (List.mem_cons_of_mem _ (hsub (List.mem_cons_of_mem _ hx)))
  · next inner _ =>
    split
    · exact ⟨List.nil_subset _, fun _ hx => hx⟩
    · refine ⟨fun x hx => ?_, fun x hx => ?_⟩
      · exact List.mem_cons_of_mem _ ((List.takeWhile_sublist _).subset hx)
      · exact List.mem_cons_of_mem _ ((List.dropWhile_sublist _).subset hx)
  · exact ⟨List.nil_subset _, fun _ hx => hx⟩

/-- The subscript of a lexeme and what follows the lexeme are parts of the text. -/
theorem Lexeme.subset_of_scan {xs rest : List Symbol} {l : Lexeme}
    (h : Lexeme.scan xs = some (l, rest)) : l.subscript.getD [] ⊆ xs ∧ rest ⊆ xs := by
  cases xs with
  | nil => cases h
  | cons x xs =>
    simp only [Lexeme.scan] at h
    split at h
    · cases h
      have hdrop : xs.dropWhile (·.holds Char.isLower) ⊆ xs := (List.dropWhile_sublist _).subset
      obtain ⟨hsubscript, hafter⟩ :=
        subset_of_scanSubscript (xs.dropWhile (·.holds Char.isLower))
      refine ⟨fun y hy => List.mem_cons_of_mem x (hdrop (hsubscript hy)), fun y hy => ?_⟩
      refine List.mem_cons_of_mem x (hdrop (hafter ?_))
      unfold scanTranspose at hy
      split at hy
      · next heq =>
        rw [heq]
        exact List.mem_cons_of_mem _ (List.mem_cons_of_mem _ hy)
      · exact hy
    · cases h

/-- A lexeme of a text without blanks stands for a reference that is read. -/
theorem Lexeme.isRead_toReference {xs rest : List Symbol} {l : Lexeme} {position : Nat}
    {r : Reference} (hxs : ∀ x ∈ xs, x.holds Text.isBlank = false)
    (hscan : Lexeme.scan xs = some (l, rest)) (h : l.toReference position = .ok r) : r.IsRead := by
  obtain ⟨subscript, hsubscript, h⟩ := exists_of_bind_eq_ok h
  cases h
  exact ⟨isBase_of_scan hscan, _, fun x hx => hxs x ((subset_of_scan hscan).1 hx), hsubscript⟩

theorem isRead_of_readFactorsFrom {first : Bool} {position : Nat} {xs : List Symbol}
    {rs : List Reference} (hxs : ∀ x ∈ xs, x.holds Text.isBlank = false)
    (h : readFactorsFrom first position xs = .ok rs) : ∀ r ∈ rs, r.IsRead := by
  fun_induction readFactorsFrom first position xs generalizing rs with
  | case1 first position xs hscan =>
    obtain ⟨u, -, h⟩ := exists_of_bind_eq_ok h
    cases h
    exact fun r hr => absurd hr List.not_mem_nil
  | case2 first position xs l rest hscan ih =>
    obtain ⟨u, -, h⟩ := exists_of_bind_eq_ok h
    obtain ⟨r, hr, h⟩ := exists_of_bind_eq_ok h
    obtain ⟨rs', hrs, h⟩ := exists_of_bind_eq_ok h
    cases h
    have hafter : ∀ x ∈ afterGap xs, x.holds Text.isBlank = false := fun x hx =>
      hxs x ((List.dropWhile_sublist _).subset hx)
    have hread : r.IsRead := Lexeme.isRead_toReference hafter hscan (eq_ok_of_mapError hr)
    have hrest := ih (fun x hx => hafter x ((Lexeme.subset_of_scan hscan).2 hx)) hrs
    exact List.forall_mem_cons.2 ⟨hread, hrest⟩

/-- The references of a product are read. -/
theorem isRead_of_readFactors {xs : List Symbol} {rs : List Reference}
    (h : readFactors xs = .ok rs) : ∀ r ∈ rs, r.IsRead :=
  isRead_of_readFactorsFrom (fun _ => Text.holds_isBlank_of_mem) h

theorem isRead_of_readReference {xs : List Symbol} {r : Reference}
    (h : readReference xs = .ok (some r)) : r.IsRead := by
  unfold readReference at h
  split at h
  · next l hscan =>
    obtain ⟨r', hr, h⟩ := exists_of_bind_eq_ok h
    cases h
    exact Lexeme.isRead_toReference (fun _ => Text.holds_isBlank_of_mem) hscan hr
  · cases h

/-! ### Plans -/

/-- A reading that absorbs what is malformed either succeeds or does absorb something. -/
theorem absorb_eq_ok {α : Type} {result : Except Fault α} {onMalformed : Malformed → α} {a : α}
    (h : absorb result onMalformed = .ok a) :
    result = .ok a ∨ ∃ m, result = .error (.malformed m) ∧ a = onMalformed m := by
  rcases result with (m | i) | b
  · cases h
    exact .inr ⟨m, rfl, rfl⟩
  · cases h
  · cases h
    exact .inl rfl

theorem SimplePlan.isRead_of_read {formula : Text} {plan : SimplePlan}
    (h : SimplePlan.read formula = .ok plan) : ∀ r ∈ plan.factors, r.IsRead := by
  rcases absorb_eq_ok h with h | ⟨m, -, rfl⟩
  · obtain ⟨factors, hfactors, h⟩ := exists_of_bind_eq_ok h
    cases h
    exact isRead_of_readFactors hfactors
  · exact fun r hr => absurd hr List.not_mem_nil

/-- The target and the factors are read. -/
def Statement.IsRead (s : Statement) : Prop :=
  s.target.IsRead ∧ ∀ r ∈ s.factors, r.IsRead

/-- The base of the target and the bases of the factors are as the grammar wants them. -/
def Statement.IsWritten (s : Statement) : Prop :=
  IsBase s.target.base ∧ ∀ r ∈ s.factors, IsBase r.base

theorem Statement.IsRead.isWritten {s : Statement} (h : s.IsRead) : s.IsWritten :=
  ⟨h.1.isBase, fun r hr => (h.2 r hr).isBase⟩

namespace IterativePlan

/-- All statements of the plan have bases as the grammar wants them. -/
def IsWritten (plan : IterativePlan) : Prop :=
  ∀ s ∈ plan.statements, s.IsWritten

/-- What a plan has it still has after one more part was read. -/
structure IsPreserved (P : IterativePlan → Prop) : Prop where
  refuse : ∀ {plan} (m : Malformed), P plan → P (plan.refuse m)
  assign : ∀ {plan target factors} (left text : Text), P plan → target.IsRead →
    (∀ r ∈ factors, r.IsRead) → P (plan.assign target left factors text)
  constant : ∀ {plan r} (text : Text), P plan → r.IsRead →
    P { plan with
      constants := plan.constants ++ [⟨r, text⟩]
      explicit := plan.explicit ++ [r.name] }

namespace IsPreserved

variable {P : IterativePlan → Prop} {plan plan' : IterativePlan} {part : List Symbol}

theorem addAssignment (hP : IsPreserved P) (h : P plan)
    (hp : plan.addAssignment part = .ok plan') : P plan' := by
  unfold IterativePlan.addAssignment at hp
  split at hp
  · next left right _ =>
    split at hp
    · cases hp
      exact hP.refuse _ h
    · obtain ⟨target?, htarget, hp⟩ := exists_of_bind_eq_ok hp
      cases target? with
      | none =>
        cases hp
        exact hP.refuse _ h
      | some target =>
        dsimp only at hp
        split at hp
        · cases hp
          exact hP.refuse _ h
        · rcases absorb_eq_ok hp with hp | ⟨m, -, rfl⟩
          · obtain ⟨factors, hfactors, hp⟩ := exists_of_bind_eq_ok hp
            cases hp
            exact hP.assign _ _ h (isRead_of_readReference htarget) (isRead_of_readFactors hfactors)
          · exact hP.refuse m h
  · cases hp
    exact hP.refuse _ h

theorem addConstant (hP : IsPreserved P) (h : P plan) (hp : plan.addConstant part = .ok plan') :
    P plan' := by
  obtain ⟨r?, hr, hp⟩ := exists_of_bind_eq_ok hp
  cases r? with
  | none =>
    cases hp
    exact hP.refuse _ h
  | some r =>
    dsimp only at hp
    split at hp
    · cases hp
      exact hP.constant _ h (isRead_of_readReference hr)
    · cases hp
      exact hP.refuse _ h

theorem addParts (hP : IsPreserved P) {parts : List (List Symbol)} (h : P plan)
    (hp : plan.addParts parts = .ok plan') : P plan' := by
  induction parts generalizing plan with
  | nil =>
    cases hp
    exact h
  | cons part parts ih =>
    obtain ⟨next, hnext, hp⟩ := exists_of_bind_eq_ok hp
    have hnext : P next := by
      unfold addPart at hnext
      split at hnext
      · exact hP.addAssignment h hnext
      · exact hP.addConstant h hnext
    split at hp
    · cases hp
      exact hnext
    · exact ih hnext hp

/-- Every plan that is read has what the plan without parts has and reading preserves. -/
theorem of_read (hP : IsPreserved P) {formula : Text} (hempty : P (empty formula))
    (h : IterativePlan.read formula = .ok plan) : P plan := by
  unfold IterativePlan.read at h
  split at h
  · cases h
    exact hP.refuse _ hempty
  · exact hP.addParts hempty h

end IsPreserved

/-- An assignment adds a statement or takes the place of one. -/
theorem isPreserved_isRead : IsPreserved fun plan => ∀ s ∈ plan.statements, s.IsRead where
  refuse _ h := h
  constant _ h _ := h
  assign {plan target factors} left text h ht hf := by
    have hnew : Statement.IsRead ⟨target, factors, text⟩ := ⟨ht, hf⟩
    have hbase : ∀ s ∈ plan.baseCases, s.IsRead := fun s hs => h s (List.mem_append_left _ hs)
    have hrec : ∀ s ∈ plan.recurrence?.toList, s.IsRead := fun s hs =>
      h s (List.mem_append_right _ hs)
    unfold IterativePlan.assign
    dsimp only
    split
    · exact List.forall_mem_append.2 ⟨hbase, List.forall_mem_singleton.2 hnew⟩
    · exact List.forall_mem_append.2 ⟨hbase, List.forall_mem_singleton.2 hnew⟩
    · refine List.forall_mem_append.2 ⟨List.forall_mem_append.2 ⟨hbase, ?_⟩, hrec⟩
      exact List.forall_mem_singleton.2 hnew
    · exact h

theorem isRead_of_read {formula : Text} {plan : IterativePlan}
    (h : IterativePlan.read formula = .ok plan) : ∀ s ∈ plan.statements, s.IsRead :=
  isPreserved_isRead.of_read (fun _ hs => absurd hs List.not_mem_nil) h

/-- The names that a plan lists as used are those of references that were read. -/
def ListsRead (plan : IterativePlan) : Prop :=
  ∀ name ∈ plan.explicit, ∃ r : Reference, r.IsRead ∧ name = r.name

/-- Only names of references are listed, also of statements that others have taken the place of. -/
theorem isPreserved_listsRead : IsPreserved ListsRead where
  refuse _ h := h
  constant _ h hr := List.forall_mem_append.2 ⟨h, List.forall_mem_singleton.2 ⟨_, hr, rfl⟩⟩
  assign {plan target factors} left text h ht hf := by
    have hfactors : ∀ name ∈ plan.explicit ++ numberedNames factors,
        ∃ r : Reference, r.IsRead ∧ name = r.name := by
      refine List.forall_mem_append.2 ⟨h, fun name hname => ?_⟩
      obtain ⟨r, hr, rfl⟩ := List.mem_map.1 hname
      exact ⟨r, hf r (List.mem_filter.1 hr).1, rfl⟩
    unfold IterativePlan.assign
    dsimp only
    split
    · exact hfactors
    · exact hfactors
    · exact List.forall_mem_append.2 ⟨hfactors, List.forall_mem_singleton.2 ⟨target, ht, rfl⟩⟩
    · exact hfactors

theorem listsRead_of_read {formula : Text} {plan : IterativePlan}
    (h : IterativePlan.read formula = .ok plan) : plan.ListsRead :=
  isPreserved_listsRead.of_read (fun _ hname => absurd hname List.not_mem_nil) h

end IterativePlan

/-- What is malformed leaves no factors. -/
theorem SimplePlan.fault?_of_read {formula : Text} {plan : SimplePlan}
    (h : SimplePlan.read formula = .ok plan) (hne : plan.factors ≠ []) : plan.fault? = none := by
  rcases absorb_eq_ok h with h | ⟨m, -, rfl⟩
  · obtain ⟨factors, -, h⟩ := exists_of_bind_eq_ok h
    cases h
    rfl
  · exact absurd rfl hne

/-- A plan that was read is a simple one or an iterative one, as its formula was read. -/
theorem Plan.read_cases {formula : Text} {plan : Plan} (h : Plan.read formula = .ok plan) :
    plan = blank formula ∨
      (∃ p, IterativePlan.read formula = .ok p ∧ plan = .iterative p) ∨
      ∃ p, SimplePlan.read formula = .ok p ∧ plan = .simple p := by
  unfold Plan.read at h
  dsimp only at h
  split at h
  · cases h
    exact .inl rfl
  · split at h
    · cases hp : IterativePlan.read formula with
      | error e =>
        rw [hp] at h
        cases h
      | ok p =>
        rw [hp] at h
        cases h
        exact .inr (.inl ⟨p, rfl, rfl⟩)
    · cases hp : SimplePlan.read formula with
      | error e =>
        rw [hp] at h
        cases h
      | ok p =>
        rw [hp] at h
        cases h
        exact .inr (.inr ⟨p, rfl, rfl⟩)

/-- All references of a simple plan that was read were read. -/
theorem Plan.isRead_of_read {formula : Text} {plan : SimplePlan}
    (h : Plan.read formula = .ok (.simple plan)) : ∀ r ∈ plan.factors, r.IsRead := by
  rcases Plan.read_cases h with h | ⟨p, -, h⟩ | ⟨p, hp, h⟩
  · cases h
    exact fun r hr => absurd hr List.not_mem_nil
  · cases h
  · cases h
    exact SimplePlan.isRead_of_read hp

/-- All references of a simple plan that was read have bases as the grammar wants them. -/
theorem Plan.isBase_of_read {formula : Text} {plan : SimplePlan}
    (h : Plan.read formula = .ok (.simple plan)) : ∀ r ∈ plan.factors, IsBase r.base :=
  fun r hr => (Plan.isRead_of_read h r hr).isBase

/-- A simple plan that was read and has factors is well-formed. -/
theorem Plan.fault?_of_read {formula : Text} {plan : SimplePlan}
    (h : Plan.read formula = .ok (.simple plan)) (hne : plan.factors ≠ []) :
    plan.fault? = none := by
  rcases Plan.read_cases h with h | ⟨p, -, h⟩ | ⟨p, hp, h⟩
  · cases h
    rfl
  · cases h
  · cases h
    exact SimplePlan.fault?_of_read hp hne

/-- An iterative plan that was read is what reading parts makes of its formula. -/
theorem Plan.iterative_of_read {formula : Text} {plan : IterativePlan}
    (h : Plan.read formula = .ok (.iterative plan)) : IterativePlan.read formula = .ok plan := by
  rcases Plan.read_cases h with h | ⟨p, hp, h⟩ | ⟨p, -, h⟩
  · cases h
  · cases h
    exact hp
  · cases h

/-- All statements of an iterative plan that was read have bases as the grammar wants them. -/
theorem Plan.isWritten_of_read {formula : Text} {plan : IterativePlan}
    (h : Plan.read formula = .ok (.iterative plan)) : plan.IsWritten :=
  fun s hs => (IterativePlan.isRead_of_read (Plan.iterative_of_read h) s hs).isWritten

/-- The input matrices that a plan reads have names of references that were read. -/
theorem Plan.exists_isRead_of_mem_baseMatrices {formula : Text} {plan : Plan}
    (h : Plan.read formula = .ok plan) {name : Text} (hname : name ∈ plan.baseMatrices) :
    ∃ r : Reference, r.IsRead ∧ name = r.name := by
  unfold baseMatrices at hname
  split at hname
  · exact absurd hname List.not_mem_nil
  · cases plan with
    | simple p =>
      obtain ⟨r, hr, rfl⟩ := List.mem_map.1 (mem_sortedNames.1 hname)
      exact ⟨r, Plan.isRead_of_read h r hr, rfl⟩
    | iterative p =>
      have hp := Plan.iterative_of_read h
      rcases List.mem_append.1 (mem_sortedNames.1 (List.mem_filter.1 hname).1) with hname | hname
      · exact IterativePlan.listsRead_of_read hp name hname
      · obtain ⟨r, hr, rfl⟩ := List.mem_map.1 hname
        obtain ⟨s, hs, hrs⟩ := List.mem_flatMap.1 (List.mem_filter.1 hr).1
        exact ⟨r, (IterativePlan.isRead_of_read hp s hs).2 r hrs, rfl⟩

end Formula

end CellLineage

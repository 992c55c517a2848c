import CellLineage.Proofs.Graph.Invariant
import CellLineage.Workspace.Exchange

/-!
# Reachable workspaces

A workspace is used through a handful of operations: it takes another formula, matrices are
declared, resized and painted, the mirror mode is turned on and off, the formula is evaluated, and
documents are imported. A workspace is *reachable* if a run of such operations, of any length and in
any order, leads to it from a new workspace; an operation that stops part-way leaves what it has
done until then.

Most operations only paint, which changes the cells of the graph and nothing else. So what painting
a cell and taking the paint off a matrix preserve, all of them preserve.

## Main definitions

* `Workspace.left`: the workspace that a run leaves.
* `Workspace.Operation`, `Workspace.Operation.apply`: an operation with its arguments, and what it
  does.
* `Workspace.runAll`, `Workspace.IsReachable`: runs, and the workspaces they lead to.
* `Workspace.Paints`: cells are painted and nothing else happens.

## Main results

* `Workspace.left_bind_of`, `Workspace.left_forM_of`: what a run of parts leaves.
* `Workspace.Paints.eq`: painting changes the cells of the graph only.
* `Workspace.paints_apply`: the operations that only paint.
* `Workspace.IsReachable.isWellFormed`: the graph of a reachable workspace.
-/

namespace CellLineage.Workspace

variable {w w' w₁ : Workspace} {name : Text}

/-- The workspace that a run leaves, whether it stopped part-way or not. -/
def left {α : Type} (run : Run α) (w : Workspace) : Workspace :=
  match run w with
  | .ok _ w' => w'
  | .error _ w' => w'

/-- An operation on a workspace with its arguments. -/
inductive Operation where
  | setFormula (formula : Datum)
  | declare (name : Text) (rows? cols? : Option Datum)
  | resize (name : Text) (rows cols : Datum)
  | paint (name : Text) (row col : Int) (value : Number) (color : Option Text)
      (isIdentity : Option Bool)
  | toggle (name : Text) (row col : Int) (color : Option Text)
  | fillDiagonal (name : Text) (color : Option Text) (isIdentity : Option Bool)
  | clearMatrix (name : Text)
  | randomize (name : Text) (density : Number) (color : Option Text) (isSymmetric : Bool)
      (draw : Nat → Number)
  | loadTable (name : Text) (values : Datum) (color : Option Text)
  | setMirror (enabled : Datum)
  | syncMirror
  | recompute
  | importDocument (source : Document.Source)

/-- The workspace that an operation leaves; an import that fails leaves it as it is. -/
def Operation.apply (w : Workspace) : Operation → Workspace
  | .setFormula formula => left (Workspace.setFormula formula) w
  | .declare name rows? cols? => left (Workspace.declare name rows? cols?) w
  | .resize name rows cols => left (Workspace.resize name rows cols) w
  | .paint name row col value color isIdentity =>
    left (Workspace.paint name row col value color isIdentity) w
  | .toggle name row col color => left (Workspace.toggle name row col color) w
  | .fillDiagonal name color isIdentity => left (Workspace.fillDiagonal name color isIdentity) w
  | .clearMatrix name => left (Workspace.clearMatrix name) w
  | .randomize name density color isSymmetric draw =>
    left (Workspace.randomize name density color isSymmetric draw) w
  | .loadTable name values color => left (Workspace.loadTable name values color) w
  | .setMirror enabled => w.setMirror enabled
  | .syncMirror => w.syncMirror
  | .recompute => left Workspace.recompute w
  | .importDocument source =>
    match w.importDocument source with
    | .ok (.ok w') => w'
    | .ok (.error _) => w
    | .error _ => w

/-- The workspace after a run of operations, one after another. -/
def runAll (w : Workspace) (operations : List Operation) : Workspace :=
  operations.foldl Operation.apply w

/-- The workspace is what some run of operations leaves of a new one. -/
def IsReachable (w : Workspace) : Prop :=
  ∃ settings new operations, make settings = .ok new ∧ w = runAll new operations

/-! ### Runs, part by part -/

section

variable {α β : Type}

theorem left_of_ok {x : Run α} {a : α} (h : x w = .ok a w') : left x w = w' := by
  simp only [left, h]

theorem left_of_error {x : Run α} {e : Fault} (h : x w = .error e w') : left x w = w' := by
  simp only [left, h]

theorem get_bind_eq (f : Workspace → Run α) (w : Workspace) : (get >>= f) w = f w w :=
  rfl

theorem bind_eq_of_ok {x : Run α} {f : α → Run β} {a : α} (h : x w = .ok a w') :
    (x >>= f) w = f a w' := by
  simp only [bind, EStateM.bind, h]

theorem bind_eq_of_error {x : Run α} {f : α → Run β} {e : Fault} (h : x w = .error e w') :
    (x >>= f) w = .error e w' := by
  simp only [bind, EStateM.bind, h]

/-- What a run of two parts leaves has a property that the second part gives if the first one gives
another property, which implies it. -/
theorem left_bind_of_imp {P Q : Workspace → Prop} {x : Run α} {f : α → Run β}
    (hx : P (left x w)) (himp : ∀ w₁, P w₁ → Q w₁)
    (hf : ∀ a w₁, x w = .ok a w₁ → P w₁ → Q (left (f a) w₁)) : Q (left (x >>= f) w) := by
  cases h : x w with
  | ok a w₁ =>
    rw [left_of_ok h] at hx
    have hleft : left (x >>= f) w = left (f a) w₁ := by rw [left, bind_eq_of_ok h, left]
    rw [hleft]
    exact hf a w₁ h hx
  | error e w₁ =>
    rw [left_of_error h] at hx
    rw [left_of_error (bind_eq_of_error h)]
    exact himp w₁ hx

/-- What a run of two parts leaves has a property that the first part gives and the second one
keeps. -/
theorem left_bind_of {P : Workspace → Prop} {x : Run α} {f : α → Run β} (hx : P (left x w))
    (hf : ∀ a w₁, x w = .ok a w₁ → P w₁ → P (left (f a) w₁)) : P (left (x >>= f) w) :=
  left_bind_of_imp hx (fun _ h => h) hf

theorem left_forM_of {P : Workspace → Prop} {as : List α} {f : α → Run Unit} (hw : P w)
    (hf : ∀ a ∈ as, ∀ w₁, P w₁ → P (left (f a) w₁)) : P (left (as.forM f) w) := by
  induction as generalizing w with
  | nil => exact hw
  | cons a as ih =>
    exact left_bind_of (hf a List.mem_cons_self w hw) fun _ w₁ _ h₁ =>
      ih h₁ fun b hb => hf b (List.mem_cons_of_mem a hb)

theorem left_liftGraph (run : Graph.Run α) (w : Workspace) :
    left (liftGraph run) w = { w with graph := Graph.after run w.graph } := by
  rw [left, liftGraph, Graph.after]
  cases run w.graph <;> rfl

/-- An operation that makes a graph. -/
theorem liftGraph_of_ok (make : Graph → Except Graph.Fault Graph) {g : Graph}
    (hmake : make w.graph = .ok g) :
    liftGraph (do Graph.liftGraph (make (← get))) w = .ok () { w with graph := g } := by
  rw [liftGraph, Graph.get_bind_eq, hmake]
  rfl

end

/-! ### Painting -/

/-- One cell is painted, or all paint is taken off a matrix. -/
inductive Paint : Workspace → Workspace → Prop where
  | update (w : Workspace) (name : Text) (row col : Int) (value : Number) (color : Option Text)
      (isIdentity : Option Bool) : Paint w (w.update name row col value color isIdentity)
  | wipe (w : Workspace) (name : Text) : Paint w { w with graph := w.graph.wipe name }

/-- Any number of such changes, one after another. -/
abbrev Paints : Workspace → Workspace → Prop :=
  Relation.ReflTransGen Paint

theorem Paint.eq (h : Paint w w') : w' = { w with graph := w'.graph } := by
  cases h <;> rfl

/-- **Painting only changes the graph.** -/
theorem Paints.eq (h : Paints w w') : w' = { w with graph := w'.graph } := by
  induction h with
  | refl => rfl
  | tail _ h ih => rw [h.eq, ih]

theorem Paint.fills (h : Paint w w') : w'.graph = w.graph ∨
    ∃ (name : Text) (b : Block), w.graph.matrices[name]? = some b ∧
      Graph.Fills (w.graph.idSet b) ∅ w.graph w'.graph := by
  cases h with
  | update name row col value color isIdentity =>
    cases hb : w.graph.matrices[name]? with
    | none =>
      refine .inl ?_
      rw [Workspace.update, Graph.update, Graph.update?, Graph.idAt?_of_missing hb, Option.map_none,
        Option.getD_none]
    | some b => exact .inr ⟨name, b, hb, Graph.fills_update ∅ w.graph name _ _ _ _ _ _ hb⟩
  | wipe name =>
    cases hb : w.graph.matrices[name]? with
    | none =>
      refine .inl ?_
      rw [Graph.wipe, hb]
    | some b => exact .inr ⟨name, b, hb, Graph.fills_wipe ∅ hb⟩

/-- Painting makes no matrices and no cells. -/
theorem Paints.sameTables (h : Paints w w') : w.graph.SameTables w'.graph := by
  induction h with
  | refl => exact .refl _
  | tail _ h ih =>
    rcases h.fills with he | ⟨_, _, _, hfills⟩
    · rwa [he]
    · exact ih.trans hfills.sameTables

theorem Paints.edits (h : Paints w w') : Graph.Edits w.graph w'.graph := by
  induction h with
  | refl => exact .refl
  | tail _ h ih =>
    rcases h.fills with he | ⟨_, _, _, hfills⟩
    · rwa [he]
    · exact ih.trans hfills.edits

theorem Paints.shape?_eq (h : Paints w w') (name : Text) :
    w'.graph.shape? name = w.graph.shape? name := by
  rw [Graph.shape?, h.sameTables.matrices, Graph.shape?]

theorem paints_write (w : Workspace) (name : Text) (row col : Int) (value : Number)
    (color : Option Text) (isIdentity : Option Bool) :
    Paints w (w.write name row col value color isIdentity) := by
  unfold write
  dsimp only
  split
  · exact .tail (.single (.update w name row col value color isIdentity)) (.update ..)
  · exact .single (.update w name row col value color isIdentity)

theorem paints_syncMirror (w : Workspace) : Paints w w.syncMirror := by
  unfold syncMirror
  split
  · exact Graph.steps_foldl fun c _ w₁ _ => .single (.update w₁ mirrorTarget ..)
  · exact .refl

theorem left_requireCell (name : Text) (row col : Int) (w : Workspace) :
    left (requireCell name row col) w = w := by
  rw [requireCell, left, get_bind_eq]
  cases w.graph.cellAt? name row col <;> rfl

theorem left_requireShape (name : Text) (w : Workspace) : left (requireShape name) w = w := by
  rw [requireShape, left, get_bind_eq]
  cases w.graph.shape? name <;> rfl

theorem paints_requireCell (name : Text) (row col : Int) (w : Workspace) :
    Paints w (left (requireCell name row col) w) := by
  rw [left_requireCell]

theorem paints_requireShape (name : Text) (w : Workspace) :
    Paints w (left (requireShape name) w) := by
  rw [left_requireShape]

theorem paints_paint (name : Text) (row col : Int) (value : Number) (color : Option Text)
    (isIdentity : Option Bool) (w : Workspace) :
    Paints w (left (paint name row col value color isIdentity) w) := by
  refine left_bind_of (paints_requireCell name row col w) fun c w₁ _ h₁ => ?_
  change Paints w (left (if w₁.isLocked name then pure () else set _) w₁)
  split
  · exact h₁
  · exact h₁.trans (Graph.steps_foldl fun p _ w₂ _ => paints_write w₂ ..)

theorem paints_toggle (name : Text) (row col : Int) (color : Option Text) (w : Workspace) :
    Paints w (left (toggle name row col color) w) := by
  refine left_bind_of (paints_requireCell name row col w) fun c w₁ _ h₁ => ?_
  have hpaint (value : Number) (color : Option Text) : Paints w (left (do
      paint name row col value color (some false)
      return value : Run Number) w₁) :=
    left_bind_of (h₁.trans (paints_paint name row col value color (some false) w₁))
      fun _ _ _ h₂ => h₂
  change Paints w (left (if w₁.isLocked name then pure c.value else _) w₁)
  split
  · exact h₁
  · split
    · exact hpaint (.int 0) none
    · exact hpaint (.int 1) color

theorem paints_fillDiagonal (name : Text) (color : Option Text) (isIdentity : Option Bool)
    (w : Workspace) : Paints w (left (fillDiagonal name color isIdentity) w) := by
  refine left_bind_of (paints_requireShape name w) fun shape w₁ _ h₁ => ?_
  change Paints w (left (if w₁.isLocked name then pure () else set _) w₁)
  split
  · exact h₁
  · exact h₁.trans (Graph.steps_foldl fun i _ w₂ _ => paints_write w₂ ..)

theorem paints_clearMatrix (name : Text) (w : Workspace) :
    Paints w (left (clearMatrix name) w) := by
  change Paints w (left (if w.isLocked name then pure () else _) w)
  split
  · exact .refl
  · have hwipe : Paints w { w with graph := w.graph.wipe name } := .single (.wipe w name)
    change Paints w
      (left (if w.isFollowed name then _ else _) { w with graph := w.graph.wipe name })
    split
    · exact hwipe.tail (.wipe _ mirrorTarget)
    · exact hwipe

theorem paints_randomize (name : Text) (density : Number) (color : Option Text)
    (isSymmetric : Bool) (draw : Nat → Number) (w : Workspace) :
    Paints w (left (randomize name density color isSymmetric draw) w) := by
  refine left_bind_of (paints_requireShape name w) fun shape w₁ _ h₁ => ?_
  change Paints w (left (if w₁.isLocked name then pure 0 else _) w₁)
  split
  · exact h₁
  · refine left_bind_of (h₁.trans (paints_clearMatrix name w₁)) fun _ w₂ _ h₂ => ?_
    exact h₂.trans (Graph.steps_foldl fun p _ w₃ _ => paints_write w₃ ..)

/-- Loading a table does nothing, or it resizes the matrix and paints. -/
theorem loadTable_cases (name : Text) (values : Datum) (color : Option Text) (w : Workspace) :
    left (loadTable name values color) w = w ∨ ∃ rows cols : Nat,
      Paints (left (resize name (.int rows) (.int cols)) w)
        (left (loadTable name values color) w) := by
  rw [loadTable]
  cases values.table with
  | error e =>
    refine .inl ?_
    cases e <;> rfl
  | ok rows =>
    change left (if w.isLocked name then pure () else _) w = w ∨ ∃ _ _,
      Paints _ (left (if w.isLocked name then pure () else _) w)
    split
    · exact .inl rfl
    · refine .inr ⟨rows.length, (rows.head?.map List.length).getD 0, ?_⟩
      refine left_bind_of .refl fun _ w₁ _ h₁ => ?_
      exact h₁.trans (Graph.steps_foldl fun p _ w₂ _ => paints_write w₂ ..)

/-- The operation only paints. -/
def Operation.IsPainting : Operation → Prop
  | .paint .. | .toggle .. | .fillDiagonal .. | .clearMatrix _ | .randomize .. | .syncMirror => True
  | _ => False

theorem paints_apply {op : Operation} (h : op.IsPainting) (w : Workspace) :
    Paints w (op.apply w) := by
  cases op with
  | paint name row col value color isIdentity => exact paints_paint ..
  | toggle name row col color => exact paints_toggle ..
  | fillDiagonal name color isIdentity => exact paints_fillDiagonal ..
  | clearMatrix name => exact paints_clearMatrix ..
  | randomize name density color isSymmetric draw => exact paints_randomize ..
  | syncMirror => exact paints_syncMirror w
  | _ => exact h.elim

/-- Turning the mirror mode on or off sets it and then paints. -/
theorem paints_setMirror (enabled : Datum) (w : Workspace) :
    Paints { w with mirror := enabled } (w.setMirror enabled) := by
  unfold setMirror
  dsimp only
  split
  · exact paints_syncMirror _
  · exact .refl

/-! ### Declared matrices and formulas -/

theorem declare_of_mem (h : name ∈ w.shapes.names) (rows? cols? : Option Datum) :
    declare name rows? cols? w = .ok () w := by
  rw [declare]
  simp only [get_bind_eq, (Association.lookup_isSome_iff w.shapes name).2 h, if_true]
  rfl

/-- Declaring a matrix that is not declared enters it, and makes it if the graph has none. -/
theorem declare_eq_of_notMem {rows? cols? : Option Datum} {shape : Nat × Nat}
    (h : name ∉ w.shapes.names)
    (hcheck : Size.check (rows?.getD w.rows) (cols?.getD w.cols) w.sizeLimit = .ok shape) :
    declare name rows? cols? w =
      (if !w.graph.hasMatrix name then initMatrix name shape else pure () : Run Unit)
        { w with shapes := w.shapes.put name shape } := by
  rw [declare]
  simp only [get_bind_eq, (Association.lookup_eq_none_iff w.shapes name).2 h, hcheck]
  rfl

/-- Declaring a matrix does nothing if it is declared or its sizes are not allowed. Otherwise it is
entered, and made if the graph has none of the name. -/
theorem declare_cases (name : Text) (rows? cols? : Option Datum) (w : Workspace) :
    left (declare name rows? cols?) w = w ∨
      ∃ shape, name ∉ w.shapes.names ∧
        Size.check (rows?.getD w.rows) (cols?.getD w.cols) w.sizeLimit = .ok shape ∧
        left (declare name rows? cols?) w =
          left (if !w.graph.hasMatrix name then initMatrix name shape else pure ())
            { w with shapes := w.shapes.put name shape } := by
  by_cases hdeclared : name ∈ w.shapes.names
  · exact .inl (left_of_ok (declare_of_mem hdeclared rows? cols?))
  cases hcheck : Size.check (rows?.getD w.rows) (cols?.getD w.cols) w.sizeLimit with
  | error e =>
    refine .inl (left_of_error (e := .size e) ?_)
    rw [declare]
    simp only [get_bind_eq, (Association.lookup_eq_none_iff w.shapes name).2 hdeclared, hcheck]
    rfl
  | ok shape =>
    exact .inr ⟨shape, hdeclared, rfl, by simp only [left, declare_eq_of_notMem hdeclared hcheck]⟩

/-- The workspaces differ in the declared matrices and the graph only. -/
def SameSettings (w w' : Workspace) : Prop :=
  w' = { w with shapes := w'.shapes, graph := w'.graph }

theorem SameSettings.trans (h : SameSettings w w₁) (h' : SameSettings w₁ w') :
    SameSettings w w' := by
  rw [SameSettings] at h h' ⊢
  rw [h', h]

theorem sameSettings_declare (name : Text) (rows? cols? : Option Datum) (w : Workspace) :
    SameSettings w (left (declare name rows? cols?) w) := by
  rcases declare_cases name rows? cols? w with h | ⟨shape, -, -, h⟩
  · rw [h]
    exact rfl
  · rw [h]
    split
    · rw [initMatrix, left_liftGraph]
      exact rfl
    · exact rfl

theorem sameSettings_declareBases (plan : Formula.Plan) (w : Workspace) :
    SameSettings w (left (declareBases plan) w) := by
  refine left_bind_of rfl fun _ w₁ _ h₁ => ?_
  exact left_forM_of h₁ fun base _ w₂ h₂ => h₂.trans (sameSettings_declare base none none w₂)

/-- Resizing a matrix does nothing if the sizes are not allowed. Otherwise it is entered, and made
or put back unless the graph has it in these sizes. -/
theorem resize_cases (name : Text) (rows cols : Datum) (w : Workspace) :
    left (resize name rows cols) w = w ∨
      ∃ shape, Size.check rows cols w.sizeLimit = .ok shape ∧
        left (resize name rows cols) w = left (match w.graph.snapshot? name with
          | none => initMatrix name shape
          | some s =>
            if (s.rows, s.cols) ≠ shape then
              liftGraph do Graph.liftGraph ((← get).restore s shape.1 shape.2)
            else pure ()) { w with shapes := w.shapes.put name shape } := by
  cases hcheck : Size.check rows cols w.sizeLimit with
  | error e =>
    refine .inl (left_of_error (e := .size e) ?_)
    rw [resize]
    simp only [get_bind_eq, hcheck]
    rfl
  | ok shape =>
    refine .inr ⟨shape, rfl, ?_⟩
    rw [resize]
    simp only [left, get_bind_eq, hcheck]
    rfl

/-- A formula that cannot be read is kept beside the plan of the last one. Otherwise its plan is
taken, and its input matrices are declared if nothing stands in the way of running it. -/
theorem setFormula_cases (formula : Datum) (w : Workspace) :
    (∃ e, readFormula formula = .error e ∧
      left (setFormula formula) w = { w with formula }) ∨
    ∃ plan, readFormula formula = .ok plan ∧
      (left (setFormula formula) w = { w with formula, plan } ∧
          ¬(∃ output, outputFor plan w.output = .ok output ∧ plan.obstacle? output = none) ∨
        ∃ output, outputFor plan w.output = .ok output ∧ plan.obstacle? output = none ∧
          left (setFormula formula) w = left (declareBases plan) { w with formula, plan }) := by
  have hrun : left (setFormula formula) w = left (do
      let plan ← rethrow (readFormula formula)
      modify fun w => { w with plan }
      let output ← rethrow (outputFor plan (← get).output)
      if (plan.obstacle? output).isNone then declareBases plan) { w with formula } := rfl
  rw [hrun]
  cases readFormula formula with
  | error e => exact .inl ⟨e, rfl, rfl⟩
  | ok plan =>
    refine .inr ⟨plan, rfl, ?_⟩
    have hrun : left (do
        let plan ← rethrow (.ok plan)
        modify fun w => { w with plan }
        let output ← rethrow (outputFor plan (← get).output)
        if (plan.obstacle? output).isNone then declareBases plan) { w with formula } = left (do
          let output ← rethrow (outputFor plan w.output)
          if (plan.obstacle? output).isNone then declareBases plan) { w with formula, plan } := rfl
    rw [hrun]
    cases outputFor plan w.output with
    | error e =>
      refine .inl ⟨rfl, ?_⟩
      rintro ⟨output, houtput, -⟩
      cases houtput
    | ok output =>
      have hrun : left (do
          let output ← rethrow (.ok output)
          if (plan.obstacle? output).isNone then declareBases plan) { w with formula, plan } =
            left (if (plan.obstacle? output).isNone then declareBases plan else pure ())
              { w with formula, plan } := rfl
      rw [hrun]
      cases hobstacle : plan.obstacle? output with
      | none => exact .inr ⟨output, rfl, hobstacle, rfl⟩
      | some obstacle =>
        refine .inl ⟨rfl, ?_⟩
        rintro ⟨_, houtput, hnone⟩
        cases houtput
        cases hobstacle.symm.trans hnone

/-- Evaluating the formula with settings that are allowed recomputes the graph and notes the
outcome. -/
theorem recompute_eq_of_ok {config : Config} {o : Outcome} {g : Graph}
    (hconfig : w.config = .ok config) (hrun : Graph.recompute w.plan config w.graph = .ok o g) :
    Workspace.recompute w =
      .ok (shown w.output o) { w with graph := g, last? := some (shown w.output o) } := by
  have hlift : liftGraph (Graph.recompute w.plan config) w = .ok o { w with graph := g } := by
    rw [liftGraph, hrun]
  rw [Workspace.recompute, get_bind_eq, hconfig]
  change (liftGraph (Graph.recompute w.plan config) >>= _) w = _
  exact bind_eq_of_ok hlift

/-- No outcome is noted if that stops. -/
theorem recompute_eq_of_error {config : Config} {e : Graph.Fault} {g : Graph}
    (hconfig : w.config = .ok config) (hrun : Graph.recompute w.plan config w.graph = .error e g) :
    Workspace.recompute w = .error (.graph e) { w with graph := g } := by
  have hlift : liftGraph (Graph.recompute w.plan config) w =
      .error (.graph e) { w with graph := g } := by
    rw [liftGraph, hrun]
  rw [Workspace.recompute, get_bind_eq, hconfig]
  change (liftGraph (Graph.recompute w.plan config) >>= _) w = _
  exact bind_eq_of_error hlift

/-- Evaluating the formula does nothing if its settings are not allowed. Otherwise it recomputes the
graph, and notes the outcome if it does not stop. -/
theorem recompute_cases (w : Workspace) :
    (∃ e, w.config = .error e ∧ left Workspace.recompute w = w) ∨
      ∃ config last?, w.config = .ok config ∧ left Workspace.recompute w =
        { w with graph := Graph.after (Graph.recompute w.plan config) w.graph, last? } := by
  cases hconfig : w.config with
  | error e =>
    refine .inl ⟨e, rfl, ?_⟩
    rw [Workspace.recompute]
    simp only [left, get_bind_eq, hconfig]
    rfl
  | ok config =>
    refine .inr ⟨config, ?_⟩
    cases hrun : Graph.recompute w.plan config w.graph with
    | ok o g =>
      refine ⟨some (shown w.output o), rfl, ?_⟩
      rw [left_of_ok (recompute_eq_of_ok hconfig hrun), Graph.after_of_ok hrun]
    | error e g =>
      refine ⟨w.last?, rfl, ?_⟩
      rw [left_of_error (recompute_eq_of_error hconfig hrun), Graph.after_of_error hrun]

/-! ### The graph of a workspace -/

/-- Edits lead from the graph of one workspace to that of the other. -/
def EditsGraph (w w' : Workspace) : Prop :=
  Graph.Edits w.graph w'.graph

theorem editsGraph_initMatrix (name : Text) (shape : Nat × Nat) (w : Workspace) :
    EditsGraph w (left (initMatrix name shape) w) := by
  rw [initMatrix, left_liftGraph]
  exact Graph.steps_get_bind (Graph.steps_liftGraph fun g' h => (Graph.makes_initMatrix h).edits)

theorem editsGraph_declare (name : Text) (rows? cols? : Option Datum) (w : Workspace) :
    EditsGraph w (left (declare name rows? cols?) w) := by
  rcases declare_cases name rows? cols? w with h | ⟨shape, -, -, h⟩
  · rw [h]
    exact .refl
  · rw [h]
    split
    · exact editsGraph_initMatrix name shape { w with shapes := w.shapes.put name shape }
    · exact .refl

theorem editsGraph_resize (name : Text) (rows cols : Datum) (w : Workspace) :
    EditsGraph w (left (resize name rows cols) w) := by
  rcases resize_cases name rows cols w with h | ⟨shape, -, h⟩
  · rw [h]
    exact .refl
  · rw [h]
    split
    · exact editsGraph_initMatrix name shape { w with shapes := w.shapes.put name shape }
    · split
      · rw [left_liftGraph]
        exact Graph.steps_get_bind (Graph.steps_liftGraph fun g' h => (Graph.makes_restore h).edits)
      · exact .refl

theorem editsGraph_setFormula (formula : Datum) (w : Workspace) :
    EditsGraph w (left (setFormula formula) w) := by
  rcases setFormula_cases formula w with
    ⟨e, -, h⟩ | ⟨plan, -, ⟨h, -⟩ | ⟨output, -, -, h⟩⟩
  · rw [h]
    exact .refl
  · rw [h]
    exact .refl
  · rw [h]
    refine left_bind_of .refl fun _ w₁ _ h₁ => ?_
    exact left_forM_of h₁ fun base _ w₂ h₂ => h₂.trans (editsGraph_declare base none none w₂)

theorem editsGraph_recompute (w : Workspace) :
    EditsGraph w (left Workspace.recompute w) := by
  rcases recompute_cases w with ⟨e, -, h⟩ | ⟨config, last?, -, h⟩
  · rw [h]
    exact .refl
  · rw [h]
    exact Graph.edits_apply w.graph (.recompute w.plan config)

/-- A formula that was taken could be read. -/
theorem exists_readFormula_of_setFormula {formula : Datum}
    (h : setFormula formula w = .ok () w') : ∃ plan, readFormula formula = .ok plan := by
  cases hread : readFormula formula with
  | ok plan => exact ⟨plan, rfl⟩
  | error e =>
    have hrun : setFormula formula w = .error e { w with formula } := by
      rw [setFormula, hread]
      rfl
    cases hrun.symm.trans h

theorem left_of_after {run : Run Unit} (h : after run w = .ok w') : left run w = w' := by
  rw [after] at h
  rw [left]
  cases hrun : run w with
  | ok _ w₁ =>
    rw [hrun] at h
    exact Except.ok.inj h
  | error e w₁ =>
    rw [hrun] at h
    cases h

/-- A new workspace is what taking its formula leaves of one without a formula. -/
theorem left_setFormula_of_make {s : Settings} (h : make s = .ok w) :
    left (setFormula s.formula) (blank s) = w := by
  rw [make] at h
  cases hsize : Size.check s.rows s.cols s.sizeLimit with
  | error e =>
    rw [hsize] at h
    cases h
  | ok shape =>
    rw [hsize] at h
    cases hcount : Config.checkIterations (.int Size.defaultLimit) s.iterations with
    | error e =>
      rw [hcount] at h
      cases h
    | ok count =>
      rw [hcount] at h
      have hformula : after (setFormula s.formula) (blank s) = .ok w := h
      exact left_of_after hformula

theorem output_of_make {s : Settings} (h : make s = .ok w) : w.output = s.output := by
  rw [← left_setFormula_of_make h]
  rcases setFormula_cases s.formula (blank s) with
    ⟨e, -, h⟩ | ⟨plan, -, ⟨h, -⟩ | ⟨output, -, -, h⟩⟩
  · rw [h]
    rfl
  · rw [h]
    rfl
  · rw [h]
    exact congrArg Workspace.output (sameSettings_declareBases plan _)

theorem editsGraph_of_make {s : Settings} (h : make s = .ok w) : EditsGraph (blank s) w := by
  rw [← left_setFormula_of_make h]
  exact editsGraph_setFormula s.formula (blank s)

theorem editsGraph_addMatrix (doc : Document) (name : Text) (entries : List Document.Entry)
    (w : Workspace) : EditsGraph w (left (addMatrix doc name entries) w) := by
  refine left_bind_of (editsGraph_declare name _ _ w) fun _ w₁ _ h₁ => h₁.trans ?_
  have hpaints : Paints w₁ (entries.foldl (fun w e =>
      w.update name e.row e.col e.value e.color (some e.isIdentity)) w₁) :=
    Graph.steps_foldl fun e _ w₂ _ => .single (.update w₂ ..)
  exact hpaints.edits

theorem editsGraph_enter (doc : Document) (w : Workspace) :
    EditsGraph w (left (enter doc) w) := by
  have hdeclare : EditsGraph w (left (doc.matrixDimensions.forM fun m => declareSized m.1 m.2) w) :=
    left_forM_of .refl fun m _ w₁ h₁ => h₁.trans (editsGraph_declare m.1 _ _ w₁)
  refine left_bind_of hdeclare fun _ w₁ _ h₁ => ?_
  refine left_bind_of ?_ fun _ w₂ _ h₂ => ?_
  · exact left_forM_of h₁ fun m _ w₂ h₂ => h₂.trans (editsGraph_addMatrix doc m.1 m.2 w₂)
  refine left_bind_of (h₂.trans (editsGraph_setFormula _ w₂)) fun _ w₃ _ h₃ => ?_
  exact left_bind_of (h₃.trans (editsGraph_recompute w₃)) fun _ _ _ h₄ => h₄

/-- An import that succeeds leaves what entering the document leaves of a new workspace. -/
theorem exists_of_importDocument {source : Document.Source}
    (h : w.importDocument source = .ok (.ok w')) :
    ∃ doc new, Document.load source w.sizeLimit = .ok doc ∧
      make (settingsFor doc w.output w.sizeLimit) = .ok new ∧ left (enter doc) new = w' := by
  rw [importDocument] at h
  cases hload : Document.load source w.sizeLimit with
  | error stop =>
    rw [hload] at h
    cases stop <;> cases h
  | ok doc =>
    rw [hload] at h
    obtain ⟨conflict?, -, h⟩ := exists_of_bind_eq_ok h
    cases conflict? with
    | some why => cases h
    | none =>
      obtain ⟨w₁, hdoc, h⟩ := exists_of_bind_eq_ok h
      cases h
      obtain ⟨new, hmake, hafter⟩ := exists_of_bind_eq_ok hdoc
      exact ⟨doc, new, rfl, hmake, left_of_after hafter⟩

/-- An operation edits the graph, or it is an import and makes a new one. -/
theorem edits_apply (w : Workspace) (op : Operation) : EditsGraph w (op.apply w) ∨
    Graph.Edits (.empty stem) (op.apply w).graph := by
  by_cases hpainting : op.IsPainting
  · exact .inl (paints_apply hpainting w).edits
  cases op with
  | setFormula formula => exact .inl (editsGraph_setFormula formula w)
  | declare name rows? cols? => exact .inl (editsGraph_declare name rows? cols? w)
  | resize name rows cols => exact .inl (editsGraph_resize name rows cols w)
  | loadTable name values color =>
    rcases loadTable_cases name values color w with h | ⟨rows, cols, h⟩
    · refine .inl ?_
      rw [Operation.apply, h]
      exact .refl
    · exact .inl ((editsGraph_resize name (.int rows) (.int cols) w).trans h.edits)
  | setMirror enabled => exact .inl (paints_setMirror enabled w).edits
  | recompute => exact .inl (editsGraph_recompute w)
  | importDocument source =>
    rw [Operation.apply]
    split
    · next w' h =>
      obtain ⟨doc, new, -, hmake, rfl⟩ := exists_of_importDocument h
      exact .inr ((editsGraph_of_make hmake).trans (editsGraph_enter doc new))
    · exact .inl .refl
    · exact .inl .refl
  | _ => exact absurd trivial hpainting

/-- The graph of a reachable workspace comes by edits from a graph without cells. -/
theorem IsReachable.edits (h : w.IsReachable) : Graph.Edits (.empty stem) w.graph := by
  obtain ⟨settings, new, operations, hmake, rfl⟩ := h
  have hnew : Graph.Edits (.empty stem) new.graph := editsGraph_of_make hmake
  clear hmake
  induction operations generalizing new with
  | nil => exact hnew
  | cons op operations ih =>
    exact ih _ ((edits_apply new op).elim hnew.trans id)

theorem IsReachable.apply (h : w.IsReachable) (op : Operation) : (op.apply w).IsReachable := by
  obtain ⟨settings, new, operations, hmake, rfl⟩ := h
  exact ⟨settings, new, operations ++ [op], hmake, (List.foldl_concat ..).symm⟩

theorem IsReachable.isWellFormed (h : w.IsReachable) : w.graph.IsWellFormed :=
  h.edits.isWellFormed (Graph.isWellFormed_empty stem)

end CellLineage.Workspace

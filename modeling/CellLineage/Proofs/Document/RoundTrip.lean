import CellLineage.Document.Draft
import CellLineage.Document.Loading
import CellLineage.Document.Writer
import CellLineage.Proofs.Document.Limits

/-!
# Documents that are written and read again

What is written of a document gives all its fields, each as a datum of the kind that is asked for,
and the readings keep such a datum as it is. So every part of a document is read as itself, and so
is the whole document. A draft that says what a document says is made into that document.

## Main definitions

* `Document.draft`: a document as a draft.

## Main results

* `Document.read_toDatum`: a document that is written is read as itself.
* `Document.load_toDatum`: a loaded document that is written is loaded as itself.
* `Document.document_draft`: the document of a draft that says what a document says.
-/

namespace CellLineage.Document

open Checked

/-! ### Fields, lists and tables -/

section Reading

variable {α : Type} {fields : Fields} {readPart : Datum → Checked α} {write : α → Datum}

theorem required_of_find? {name : String} {d : Datum} {a : α}
    (hfind : fields.find? name = some d) (hread : readPart d = .valid a) :
    required fields name readPart = .valid a := by
  simp only [required, hfind, hread, behind_valid]

theorem optional_of_find? {name : String} {default : Checked α} {d : Datum} {a : α}
    (hfind : fields.find? name = some d) (hread : readPart d = .valid a) :
    optional fields name default readPart = .valid a := by
  simp only [optional, hfind, hread, behind_valid]

theorem readItems_map (h : ∀ a, readPart (write a) = .valid a) (k : Nat) (as : List α) :
    readItems readPart k (as.map write) = .valid as := by
  induction as generalizing k with
  | nil => rfl
  | cons a as ih => simp only [List.map_cons, readItems, h, behind_valid, map_valid, ih, seq_valid]

theorem readFields_map (h : ∀ a, readPart (write a) = .valid a) (xs : Association α) :
    readFields readPart (xs.map fun x => (x.1, write x.2)) = .valid xs := by
  induction xs with
  | nil => rfl
  | cons x xs ih =>
    simp only [List.map_cons, readFields, readField, h, map_valid, behind_valid, ih, seq_valid]

end Reading

theorem text?_ofText? (t? : Option Text) : text? (.ofText? t?) = .valid t? := by
  cases t? <;> rfl

/-! ### Parts of documents -/

theorem Dimensions.read_toDatum (d : Dimensions) : read d.toDatum = .valid d := by
  have hrows : required [("rows", .int d.rows), ("cols", .int d.cols)] "rows" (atLeast 1) =
      .valid ⟨d.rows, d.rows_pos⟩ := required_of_find? rfl (atLeast_int ⟨d.rows, d.rows_pos⟩)
  have hcols : required [("rows", .int d.rows), ("cols", .int d.cols)] "cols" (atLeast 1) =
      .valid ⟨d.cols, d.cols_pos⟩ := required_of_find? rfl (atLeast_int ⟨d.cols, d.cols_pos⟩)
  simp only [read, toDatum, record, hrows, hcols, map_valid, seq_valid]

theorem Configuration.read_toDatum (c : Configuration) : read c.toDatum = .valid c := by
  have hsymmetric : optional [("symmetric", .bool c.symmetric), ("mirror", .bool c.mirror)]
      "symmetric" (pure false) truth = .valid c.symmetric := optional_of_find? rfl (truth_bool _)
  have hmirror : optional [("symmetric", .bool c.symmetric), ("mirror", .bool c.mirror)]
      "mirror" (pure false) truth = .valid c.mirror := optional_of_find? rfl (truth_bool _)
  simp only [read, toDatum, record, hsymmetric, hmirror, map_valid, seq_valid]

theorem Entry.read_toDatum (e : Entry) : read e.toDatum = .valid e := by
  let fields : Fields := [("row", .int e.row), ("col", .int e.col), ("value", .number e.value),
    ("color", .ofText? e.color), ("isIdentity", .bool e.isIdentity)]
  have hrow : required fields "row" (atLeast 0) = .valid ⟨e.row, Nat.zero_le _⟩ :=
    required_of_find? rfl (atLeast_int ⟨e.row, Nat.zero_le _⟩)
  have hcol : required fields "col" (atLeast 0) = .valid ⟨e.col, Nat.zero_le _⟩ :=
    required_of_find? rfl (atLeast_int ⟨e.col, Nat.zero_le _⟩)
  have hvalue : required fields "value" number = .valid e.value :=
    required_of_find? rfl (number_number _)
  have hcolor : optional fields "color" (pure none) text? = .valid e.color :=
    optional_of_find? rfl (text?_ofText? _)
  have hidentity : optionalOr fields "isIdentity" "is_identity" false truth =
      .valid e.isIdentity := optional_of_find? rfl (truth_bool _)
  change (fun row col => Entry.mk row.1 col.1) <$> required fields "row" (atLeast 0) <*>
      required fields "col" (atLeast 0) <*> required fields "value" number <*>
      optional fields "color" (pure none) text? <*>
      optionalOr fields "isIdentity" "is_identity" false truth = .valid e
  simp only [hrow, hcol, hvalue, hcolor, hidentity, map_valid, seq_valid]

/-! ### Whole documents -/

/-- **A document that is written is read as itself.** -/
theorem read_toDatum (doc : Document) : read doc.toDatum = .ok doc := by
  let fields : Fields := [("timestamp", .ofText? doc.timestamp),
    ("dimensions", doc.dimensions.toDatum), ("configuration", doc.configuration.toDatum),
    ("matrices", .object (doc.matrices.map fun m => (m.1, entriesToDatum m.2))),
    ("version", .int Version.current.number), ("formula", .text doc.formula),
    ("iterations", .int doc.iterations),
    ("matrixDimensions", .object (doc.matrixDimensions.map fun m => (m.1, m.2.toDatum)))]
  have htimestamp : optional fields "timestamp" (pure none) text? = .valid doc.timestamp :=
    optional_of_find? rfl (text?_ofText? _)
  have hdimensions : required fields "dimensions" Dimensions.read = .valid doc.dimensions :=
    required_of_find? rfl (Dimensions.read_toDatum _)
  have hconfiguration : optional fields "configuration" (pure .standard) Configuration.read =
      .valid doc.configuration := optional_of_find? rfl (Configuration.read_toDatum _)
  have hmatrices : required fields "matrices" (table (listOf Entry.read)) = .valid doc.matrices :=
    required_of_find? rfl (readFields_map (readItems_map Entry.read_toDatum 0) _)
  have hformula : required fields "formula" text = .valid doc.formula :=
    required_of_find? rfl (text_text _)
  have hiterations : optional fields "iterations" (pure ⟨1, Nat.one_pos⟩) (atLeast 1) =
      .valid ⟨doc.iterations, doc.iterations_pos⟩ :=
    optional_of_find? rfl (atLeast_int ⟨doc.iterations, doc.iterations_pos⟩)
  have hshapes : optionalOr fields "matrixDimensions" "matrix_dimensions" []
      (table Dimensions.read) = .valid doc.matrixDimensions :=
    optional_of_find? rfl (readFields_map Dimensions.read_toDatum _)
  have hcontents : readContents fields = .valid doc.toContents := by
    simp only [readContents, htimestamp, hdimensions, hconfiguration, hmatrices, map_valid,
      seq_valid]
  have hdocument : readVersion .third fields = .valid doc := by
    simp only [readVersion, hcontents, hformula, hiterations, hshapes, map_valid, seq_valid,
      ofThird]
  have hversion : fields.find? "version" = some (.int Version.current.number) := rfl
  change readObject fields = .ok doc
  rw [readObject, hversion]
  simp only [Version.ofDatum?_number]
  rw [Version.current, hdocument]

/-! ### Loaded documents -/

section Loading

variable {doc : Document} {source : Source} {limit : Datum}

/-- What is written of a document is loaded as that document or refused, and it is loaded exactly if
the document is sound. -/
theorem load_toDatum_eq_ok_iff {doc' : Document} :
    load (.datum doc.toDatum) limit = .ok doc' ↔ doc' = doc ∧ doc.IsSound limit := by
  rw [load_eq_ok_iff]
  constructor
  · rintro ⟨⟨d, hd, hread⟩, hsound⟩
    cases hd
    obtain rfl := Except.ok.inj (hread.symm.trans doc.read_toDatum)
    exact ⟨rfl, hsound⟩
  · rintro ⟨rfl, hsound⟩
    exact ⟨⟨_, rfl, doc'.read_toDatum⟩, hsound⟩

/-- **Loading is a projection.** A document that was loaded, from whatever source and in whatever
version, is loaded again, with the same limit, from what is written of it, and it is the same in all
its fields then. -/
theorem load_toDatum (h : load source limit = .ok doc) :
    load (.datum doc.toDatum) limit = .ok doc :=
  load_toDatum_eq_ok_iff.2 ⟨rfl, (load_eq_ok_iff.1 h).2⟩

/-- A document of the second version in which a size and an index are digits and a flag is a word
under the plain name of its field; one of its keys is not known. -/
def looseDocument : Datum :=
  .object [("version", .int 2), ("note", .null), ("formula", .text "A*B"),
    ("dimensions", .object [("rows", .text "2"), ("cols", .bool true)]),
    ("matrices", .object [("A", .list [.object [("row", .text "1"), ("col", .int 0),
      ("value", .int 7), ("is_identity", .text "yes")]])])]

/-- What is loaded of it has one iteration and a single shape, and is loaded as itself. -/
theorem load_toDatum_loose : ∃ doc, load (.datum looseDocument) (.int 9) = .ok doc ∧
    (doc.iterations, doc.matrixDimensions.map (·.2.shape),
      doc.matrices.map fun m => m.2.map fun e => (e.row, e.isIdentity)) =
        (1, [(2, 1)], [[(1, true)]]) ∧
    load (.datum doc.toDatum) (.int 9) = .ok doc := by
  have hload : ((load (.datum looseDocument) (.int 9)).toOption.map fun doc =>
      (doc.iterations, doc.matrixDimensions.map (·.2.shape),
        doc.matrices.map fun m => m.2.map fun e => (e.row, e.isIdentity))) =
          some (1, [(2, 1)], [[(1, true)]]) := by decide +kernel
  obtain ⟨doc, hok, hparts⟩ := exists_of_toOption_map hload
  exact ⟨doc, hok, hparts, load_toDatum hok⟩

end Loading

/-! ### Drafts -/

/-- The draft that says what a document says, at some time. -/
def draft (doc : Document) (timestamp : Text) : Draft where
  timestamp := timestamp
  formula := .text doc.formula
  rows := .int doc.dimensions.rows
  cols := .int doc.dimensions.cols
  symmetric := .bool doc.configuration.symmetric
  mirror := .bool doc.configuration.mirror
  iterations := .int doc.iterations
  matrixDimensions := doc.matrixDimensions.map fun m => (m.1, .int m.2.rows, .int m.2.cols)
  matrices := doc.matrices

theorem checkSizes_int (d : Dimensions) : checkSizes (.int d.rows) (.int d.cols) = .ok d :=
  congrArg toExcept d.read_toDatum

theorem checkAllSizes_int (dimensions : Association Dimensions) :
    checkAllSizes (dimensions.map fun m => (m.1, .int m.2.rows, .int m.2.cols)) =
      .ok dimensions := by
  induction dimensions with
  | nil => rfl
  | cons m dimensions ih =>
    simp only [List.map_cons, checkAllSizes, checkSizes_int, ih]
    rfl

/-- **The document of a draft** that says what a document says is that document, at the time of the
draft. -/
theorem document_draft (doc : Document) (timestamp : Text) :
    (doc.draft timestamp).document = .ok { doc with timestamp := some timestamp } := by
  have hmodes : Configuration.read (.object [("symmetric", .bool doc.configuration.symmetric),
      ("mirror", .bool doc.configuration.mirror)]) = .valid doc.configuration :=
    doc.configuration.read_toDatum
  have hiterations : atLeast 1 (.int doc.iterations) =
      .valid ⟨doc.iterations, doc.iterations_pos⟩ :=
    atLeast_int ⟨doc.iterations, doc.iterations_pos⟩
  simp only [Draft.document, draft, checkSizes_int, checkAllSizes_int, hmodes, hiterations,
    text_text, behind_valid, map_valid, seq_valid, toExcept, bind, Except.bind, ofThird]

end CellLineage.Document

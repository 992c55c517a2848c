import CellLineage.Document.Scalar
import CellLineage.Document.Version

/-!
# Reading documents from data

A document is read from an object. Fields that are not known are passed over, and fields that are
not required may be left out. Problems are listed in the order of the fields of the document, not in
the order in which they are given.

The three kinds of nesting, objects with known fields, objects with free names, and lists, are read
by `record`, `table` and `listOf`; `required` and `optional` read one field of an object. A free name
may be any text; on the way to a problem it stands as a string.
-/

namespace CellLineage.Document

open Checked

variable {α : Type}

/-! ## Nesting -/

/-- The reading of an object with known fields. -/
def record (read : Fields → Checked α) : Datum → Checked α
  | .object fields => read fields
  | _ => refuse .notRecord

/-- The reading of a field with a free name. -/
def readField (read : Datum → Checked α) (name : Text) (d : Datum) : Checked (Text × α) :=
  behind (.field name.lossy) (Prod.mk name <$> read d)

/-- The readings of fields with free names. -/
def readFields (read : Datum → Checked α) : Fields → Checked (Association α)
  | [] => .valid []
  | (name, d) :: fields => List.cons <$> readField read name d <*> readFields read fields

/-- The reading of an object with free names. -/
def table (read : Datum → Checked α) : Datum → Checked (Association α)
  | .object fields => readFields read fields
  | _ => refuse .notTable

/-- The readings of the items of a list from index `k` on. -/
def readItems (read : Datum → Checked α) (k : Nat) : List Datum → Checked (List α)
  | [] => .valid []
  | d :: ds => List.cons <$> behind (.item k) (read d) <*> readItems read (k + 1) ds

/-- The reading of a list. -/
def listOf (read : Datum → Checked α) : Datum → Checked (List α)
  | .list ds => readItems read 0 ds
  | _ => refuse .notList

/-- The reading of a field that has to be there. -/
def required (fields : Fields) (name : String) (read : Datum → Checked α) : Checked α :=
  behind (.field name) (match fields.find? name with
    | some d => read d
    | none => refuse .missing)

/-- The reading of a field that may be left out. -/
def optional (fields : Fields) (name : String) (default : Checked α) (read : Datum → Checked α) :
    Checked α :=
  match fields.find? name with
  | some d => behind (.field name) (read d)
  | none => default

/-- The reading of a field that may be left out and may be given under either of two names, the
first of which counts if both are there. -/
def optionalOr (fields : Fields) (name other : String) (default : α) (read : Datum → Checked α) :
    Checked α :=
  optional fields name (optional fields other (.valid default) read) read

/-! ## Parts of documents -/

/-- The reading of two sizes. -/
def Dimensions.read : Datum → Checked Dimensions :=
  record fun fields =>
    (fun ⟨rows, hrows⟩ ⟨cols, hcols⟩ => ⟨rows, cols, hrows, hcols⟩) <$>
      required fields "rows" (atLeast 1) <*> required fields "cols" (atLeast 1)

/-- The reading of the paint modes. -/
def Configuration.read : Datum → Checked Configuration :=
  record fun fields =>
    Configuration.mk <$> optional fields "symmetric" (pure false) truth <*>
      optional fields "mirror" (pure false) truth

/-- The reading of a painted cell. -/
def Entry.read : Datum → Checked Entry :=
  record fun fields =>
    (fun row col => Entry.mk row.1 col.1) <$> required fields "row" (atLeast 0) <*>
      required fields "col" (atLeast 0) <*> required fields "value" number <*>
      optional fields "color" (pure none) text? <*>
      optionalOr fields "isIdentity" "is_identity" false truth

/-- The reading of what documents of all versions hold. -/
def readContents (fields : Fields) : Checked Contents :=
  Contents.mk <$> optional fields "timestamp" (pure none) text? <*>
    required fields "dimensions" Dimensions.read <*>
    optional fields "configuration" (pure .standard) Configuration.read <*>
    required fields "matrices" (table (listOf Entry.read))

/-- The reading of a document of a version, as a current document. -/
def readVersion (version : Version) (fields : Fields) : Checked Document :=
  let contents := readContents fields
  match version with
  | .first => ofFirst <$> contents
  | .second => ofSecond <$> contents <*> required fields "formula" text
  | .third =>
    ofThird <$> contents <*> required fields "formula" text <*>
      optional fields "iterations" (pure ⟨1, Nat.one_pos⟩) (atLeast 1) <*>
      optionalOr fields "matrixDimensions" "matrix_dimensions" [] (table Dimensions.read)

end CellLineage.Document

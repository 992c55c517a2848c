import CellLineage.Document.Reader
import CellLineage.Evaluation.Config
import CellLineage.Formula.Plan
import CellLineage.Json.Reader

/-!
# Loading documents

A document comes as a JSON text or as data. To load it is to read it in the version that it names
and then to check it as a whole: its formula has to be well-formed, the number of iterations and all
sizes must not be above their limits, and every painted cell has to lie inside its matrix. The first
check that fails decides.

A document that cannot be loaded is refused (`Refusal`). Apart from that, loading stops at a whole
number or an index with too many digits, and at a limit that is no number (`Stop`).

## Main definitions

* `Source`: what a document comes as.
* `Document.load`: the document, or why there is none.
-/

namespace CellLineage.Document

open Formula

/-- What a document comes as. -/
inductive Source where
  | text (s : String)
  | datum (d : Datum)

/-- Why a document is refused. -/
inductive Refusal where
  /-- The text is not JSON. -/
  | misfit (what : Json.Misfit)
  | notObject
  | noVersion
  | unknownVersion (version : Datum)
  /-- Some fields cannot be read. -/
  | invalid (version : Version) (problems : List Problem)
  /-- The formula cannot be run. -/
  | formula (formula : Text) (obstacle : Plan.Obstacle)
  | tooManyIterations (count : Nat)
  | tooLarge (name : Text) (dimensions : Dimensions) (limit : Datum)
  /-- A painted cell lies outside its matrix. -/
  | outside (name : Text) (entry : Entry) (dimensions : Dimensions)

/-- Why there is no document: it is refused, a number in it has too many digits, or there is nothing
to check its sizes against. -/
inductive Stop where
  | refused (why : Refusal)
  | oversized
  | index (what : IndexFault)
  | limit (what : SizeFault)

/-- A shape in words. -/
def Dimensions.display (d : Dimensions) : String :=
  toString d.rows ++ "x" ++ toString d.cols

/-- A count of validation errors in words. -/
def countErrors (n : Nat) : String :=
  toString n ++ if n = 1 then " validation error" else " validation errors"

/-- The refusal in words. -/
def Refusal.message : Refusal → Text
  | .misfit what => "Invalid JSON: " ++ what.message
  | .notObject => "Document must be a JSON object"
  | .noVersion => "Missing required field: version"
  | .unknownVersion version => "Unsupported document version: " ++ version.render
  | .invalid version problems =>
    let n := toString version.number
    "Invalid version " ++ n ++ " document: " ++ countErrors problems.length ++ " for DocumentV" ++ n
  | .formula f obstacle =>
    "Invalid formula " ++ Text.quoted f ++ ": " ++ obstacle.message
  | .tooManyIterations count =>
    "iterations must be at most " ++ toString Size.defaultLimit ++ ", got " ++ toString count
  | .tooLarge name dimensions limit =>
    name ++ " is " ++ dimensions.display ++ ", above the " ++ limit.display ++ " limit"
  | .outside name entry dimensions =>
    "Cell (" ++ toString entry.row ++ ", " ++ toString entry.col ++ ") is outside " ++ name ++
      " (" ++ dimensions.display ++ ")"

/-- What a source holds. -/
def Source.read : Source → Except Stop Datum
  | .datum d => .ok d
  | .text s =>
    match Json.read s with
    | .ok d => .ok d
    | .error (.malformed what) => .error (.refused (.misfit what))
    | .error .oversized => .error .oversized

/-- The document that an object holds in the version that it names. -/
def readObject (fields : Fields) : Except Refusal Document :=
  match fields.find? "version" with
  | none => .error .noVersion
  | some .null => .error .noVersion
  | some d =>
    match Version.ofDatum? d with
    | none => .error (.unknownVersion d)
    | some version =>
      match readVersion version fields with
      | .valid doc => .ok doc
      | .invalid problems => .error (.invalid version problems)

/-- The document that a datum holds. -/
def read : Datum → Except Refusal Document
  | .object fields => readObject fields
  | _ => .error .notObject

/-! ## Checks -/

/-- The name under which the sizes of the document itself are reported. -/
def wholeName : Text := "<dimensions>"

/-- All sizes that are checked against the limit, by name; a matrix whose name is that of the
document's own sizes takes their place. -/
def sizes (doc : Document) : Association Dimensions :=
  doc.matrixDimensions.foldl (fun sizes m => sizes.put m.1 m.2) [(wholeName, doc.dimensions)]

/-- One of the sizes is above the limit. -/
def Dimensions.isAbove (d : Dimensions) (limit : Number) : Bool :=
  limit.lt (.int d.rows) || limit.lt (.int d.cols)

/-- The first size above the limit, which is reported as it was given. -/
def oversized? (doc : Document) (limit : Number) (given : Datum) : Option Refusal :=
  (doc.sizes.find? fun m => m.2.isAbove limit).map fun m => .tooLarge m.1 m.2 given

/-- The first painted cell outside its matrix. -/
def outside? (doc : Document) : Option Refusal :=
  doc.matrices.findSome? fun m =>
    let d := doc.dimensionsOf m.1
    (m.2.find? fun e => !e.isInside d).map fun e => .outside m.1 e d

/-- The number of iterations, if it is above its limit. -/
def iterations? (doc : Document) : Option Refusal :=
  if Size.defaultLimit < doc.iterations then some (.tooManyIterations doc.iterations) else none

/-- The formula, if it is malformed. -/
def malformed? (doc : Document) (plan : Plan) : Option Refusal :=
  plan.fault?.map fun m => .formula doc.formula (.malformed m)

/-- Stops at what a check has found, if it has found something. -/
def stopAt : Option Refusal → Except Stop Unit
  | some why => .error (.refused why)
  | none => .ok ()

/-- The document, if nothing is wrong with it as a whole. -/
def check (doc : Document) (limit : Datum) : Except Stop Document := do
  let plan ← (Plan.read doc.formula).mapError .index
  stopAt (doc.malformed? plan)
  stopAt doc.iterations?
  let bound ← (Size.readLimit limit).mapError .limit
  stopAt (doc.oversized? bound limit)
  stopAt doc.outside?
  return doc

/-- Loads a document whose sizes must not be above the limit. -/
def load (source : Source) (limit : Datum) : Except Stop Document := do
  match read (← source.read) with
  | .ok doc => doc.check limit
  | .error why => throw (.refused why)

end CellLineage.Document

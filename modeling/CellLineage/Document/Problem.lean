/-!
# Problems of documents

A document is read field by field, and reading goes on after a problem, so that all problems of a
document are reported together. A problem is what is wrong and the way to it from the whole
document.

`Checked` is a reading with all its problems: putting two readings together has a value if both have
one, and else the problems of the first followed by those of the second.
-/

namespace CellLineage.Document

/-- What is wrong at one place of a document. -/
inductive Flaw where
  /-- A field is not there. -/
  | missing
  /-- The place is for an object with known fields. -/
  | notRecord
  /-- The place is for an object with free names. -/
  | notTable
  | notList
  | notText
  /-- A text that stands for something else holds a surrogate that stands alone. -/
  | illFormedText
  | notWhole
  /-- A text is no whole number. -/
  | unreadableWhole
  /-- A whole number has too many digits, or is a double that is too large to be one. -/
  | oversizedWhole
  /-- A double has a fraction. -/
  | fractional
  | notFinite
  /-- A whole number is less than the least one allowed. -/
  | tooSmall
  | notTruth
  /-- A text or a number stands for no truth value. -/
  | unreadableTruth
  | notDouble
  /-- A text is no double. -/
  | unreadableDouble
  deriving DecidableEq, Repr

/-- One step on the way from a datum to a part of it, or to one of two ways to read it. -/
inductive Step where
  | field (name : String)
  | item (index : Nat)
  | asWhole
  | asDouble
  deriving DecidableEq, Repr

/-- What is wrong and where. -/
structure Problem where
  path : List Step
  flaw : Flaw
  deriving DecidableEq, Repr

/-- The problem as it is seen from one step further out. -/
def Problem.behind (step : Step) (p : Problem) : Problem :=
  { p with path := step :: p.path }

/-- A value, or all problems on the way to it. -/
inductive Checked (α : Type) where
  | valid (value : α)
  | invalid (problems : List Problem)

namespace Checked

variable {α β : Type}

/-- A single problem right here. -/
def refuse (flaw : Flaw) : Checked α :=
  .invalid [⟨[], flaw⟩]

instance : Applicative Checked where
  pure := .valid
  seq f a :=
    match f, a () with
    | .valid f, .valid a => .valid (f a)
    | .valid _, .invalid ps => .invalid ps
    | .invalid ps, .valid _ => .invalid ps
    | .invalid ps, .invalid qs => .invalid (ps ++ qs)

/-- A second check of the value, if there is one. -/
def andThen (a : Checked α) (f : α → Checked β) : Checked β :=
  match a with
  | .valid a => f a
  | .invalid ps => .invalid ps

/-- The reading of what lies behind a step. -/
def behind (step : Step) : Checked α → Checked α
  | .valid a => .valid a
  | .invalid ps => .invalid (ps.map (Problem.behind step))

/-- The reading as a result that fails with all problems. -/
def toExcept : Checked α → Except (List Problem) α
  | .valid a => .ok a
  | .invalid ps => .error ps

@[simp] theorem pure_eq (a : α) : (pure a : Checked α) = .valid a := rfl

@[simp] theorem map_valid (f : α → β) (a : α) : f <$> Checked.valid a = .valid (f a) := rfl

@[simp] theorem seq_valid (f : α → β) (a : α) :
    Checked.valid f <*> Checked.valid a = .valid (f a) := rfl

@[simp] theorem behind_valid (step : Step) (a : α) : behind step (.valid a) = .valid a := rfl

/-- A value put together from two readings comes from a value of each. -/
theorem seq_eq_valid_iff {f : Checked (α → β)} {a : Checked α} {b : β} :
    f <*> a = .valid b ↔ ∃ g x, f = .valid g ∧ a = .valid x ∧ g x = b := by
  cases f <;> cases a <;> simp [Seq.seq]

/-- A mapped value comes from a value. -/
theorem map_eq_valid_iff {f : α → β} {a : Checked α} {b : β} :
    f <$> a = .valid b ↔ ∃ x, a = .valid x ∧ f x = b := by
  cases a <;> simp [Functor.map]

@[simp] theorem behind_eq_valid_iff {step : Step} {a : Checked α} {x : α} :
    behind step a = .valid x ↔ a = .valid x := by
  cases a <;> simp [behind]

end Checked

end CellLineage.Document

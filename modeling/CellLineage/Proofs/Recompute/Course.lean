import CellLineage.Evaluation.Recompute
import CellLineage.Proofs.Evaluation.Names
import CellLineage.Proofs.Evaluation.Value

/-!
# The course of an iterative plan

What an iterative plan computes can be said without a graph. A course has an environment, which
gives matrices of whole numbers to names. The base cases are taken in order, and each whose product
has a value binds its target to it. Then the recurrence continues the family of its target after the
last member there is, one member for each iteration, until a product has no value.

A reference stands for its own name. A relative one stands for the member of its family at the index
in question, at most the last one in the environment, and for the bare name of the family as long as
that has no member.

## Main definitions

* `Formula.Reference.nameAt`, `Formula.Product.valueAt`: names and values at an index.
* `Course`, `Course.run`: the course of a plan from an environment on.

## Main results

* `Formula.Product.valueAt_eq`: the value at an index is the value of the resolved product.
* `Course.fault_of_run`: why a course may fail.
-/

namespace CellLineage

namespace Formula

variable {env : Environment} {names names' : List Text} {n : Int}

/-! ### Values at an index -/

/-- The name that a reference stands for at index `n` among matrices of the given names. -/
def Reference.nameAt (names : List Text) (n : Int) (r : Reference) : Except IndexFault Text :=
  if r.isRelative then do
    match ← lastIndex? names r.base with
    | none => return r.base
    | some last => return memberName r.base (min (if r.subscript = .next then n + 1 else n) last)
  else return r.name

/-- The value of a product at index `n`, if it has one, and what stands in the way of it. -/
def Product.valueAt (env : Environment) (n : Int) :
    Product → Except IndexFault (Option IntMatrix × List Obstruction)
  | .single r => do
    let name ← r.nameAt env.names n
    match env.lookup name with
    | some M => return (some (if r.transposed then M.transpose else M), [])
    | none => return (none, [.missing name])
  | .times p q => do return timesValue (← p.valueAt env n) (← q.valueAt env n)

/-- Resolving a reference only asks for the last member of its family. -/
theorem Reference.resolve_eq (r : Reference) (n : Int) (names : List Text) :
    r.resolve n names = if r.isRelative then do
        match ← lastIndex? names r.base with
        | none => return r
        | some last => return r.withIndex (min (r.subscript.relativeIndex n) last)
      else .ok r := by
  rw [resolve, ← getLast?_memberIndices]
  cases memberIndices names r.base <;> rfl

/-- A reference stands for the name of the resolved one. -/
theorem Reference.nameAt_eq (r : Reference) (n : Int) (names : List Text) :
    r.nameAt names n = (r.resolve n names).map Reference.name := by
  rw [nameAt, resolve_eq]
  cases hr : r.isRelative with
  | false => rfl
  | true =>
    cases lastIndex? names r.base with
    | error e => rfl
    | ok last? =>
      cases last? with
      | none => exact congrArg Except.ok (name_eq_base_of_isRelative hr).symm
      | some last => rfl

/-- A resolved reference is transposed if the reference is, and it has the name of the reference or
that of a member of its family. -/
theorem Reference.of_resolve {r r' : Reference} (h : r.resolve n names = .ok r') :
    r'.transposed = r.transposed ∧
      (r'.name = r.name ∨ ∃ index, r'.name = memberName r.base index) := by
  rw [resolve_eq] at h
  split at h
  · obtain ⟨last?, -, h⟩ := exists_of_bind_eq_ok h
    cases last? with
    | none =>
      cases h
      exact ⟨rfl, .inl rfl⟩
    | some last =>
      cases h
      exact ⟨rfl, .inr ⟨_, rfl⟩⟩
  · cases h
    exact ⟨rfl, .inl rfl⟩

/-- **The value at an index** is the value of the resolved product. -/
theorem Product.valueAt_eq (env : Environment) (n : Int) (p : Product) :
    p.valueAt env n = (p.resolve n env.names).map (Product.value env) := by
  induction p with
  | single r =>
    rw [valueAt, resolve, r.nameAt_eq]
    cases h : r.resolve n env.names with
    | error e => rfl
    | ok r' =>
      obtain ⟨htransposed, -⟩ := Reference.of_resolve h
      rw [← htransposed]
      cases hM : env.lookup r'.name <;>
        simp only [bind, Except.bind, pure, Except.pure, Except.map, Product.value,
          Reference.value, hM, Option.map_none, Option.map_some]
  | times p q ihp ihq =>
    rw [valueAt, resolve, ihp, ihq]
    cases p.resolve n env.names with
    | error e => rfl
    | ok p' => cases q.resolve n env.names <;> rfl

/-- Resolving a product only asks for the last members of the families that it mentions. -/
theorem Product.resolve_congr {p : Product}
    (h : ∀ r ∈ p.references, lastIndex? names r.base = lastIndex? names' r.base) :
    p.resolve n names = p.resolve n names' := by
  induction p with
  | single r =>
    rw [resolve, resolve, Reference.resolve_eq, Reference.resolve_eq, h r List.mem_cons_self]
  | times p q ihp ihq =>
    rw [resolve, resolve, ihp fun r hr => h r (List.mem_append_left _ hr),
      ihq fun r hr => h r (List.mem_append_right _ hr)]

/-- The names of a resolved product are those of its references or of members of their families. -/
theorem Product.name_of_resolve {p p' : Product} (h : p.resolve n names = .ok p') :
    ∀ r' ∈ p'.references, ∃ r ∈ p.references,
      r'.name = r.name ∨ ∃ index, r'.name = memberName r.base index := by
  induction p generalizing p' with
  | single r =>
    obtain ⟨r', hr', h⟩ := exists_of_bind_eq_ok h
    cases h
    intro s hs
    obtain rfl := List.mem_singleton.1 hs
    exact ⟨r, List.mem_cons_self, (Reference.of_resolve hr').2⟩
  | times p q ihp ihq =>
    obtain ⟨p₁, hp, h⟩ := exists_of_bind_eq_ok h
    obtain ⟨q₁, hq, h⟩ := exists_of_bind_eq_ok h
    cases h
    intro s hs
    rcases List.mem_append.1 hs with hs | hs
    · obtain ⟨r, hr, hname⟩ := ihp hp s hs
      exact ⟨r, List.mem_append_left _ hr, hname⟩
    · obtain ⟨r, hr, hname⟩ := ihq hq s hs
      exact ⟨r, List.mem_append_right _ hr, hname⟩

end Formula

open Formula

/-! ### Courses -/

/-- How far an iterative plan has come: the matrices by name, the names bound on the way, and what
stood in the way. -/
structure Course where
  env : Environment
  computed : List Text
  obstructions : List Obstruction

namespace Course

/-- Evaluates a product at index `n`; notes what stands in the way of its value. -/
def evaluate (c : Course) (p : Product) (n : Int) :
    Except Graph.Fault (Option IntMatrix × Course) := do
  let (M?, obstructions) ← (p.valueAt c.env n).mapError .index
  return (M?, { c with obstructions := c.obstructions ++ obstructions })

/-- Binds a name to a matrix. -/
def bind (c : Course) (name : Text) (M : IntMatrix) : Course :=
  { c with env := c.env.put name M, computed := c.computed ++ [name] }

/-- Takes base cases in order; one without a value is passed over. -/
def runBaseCases : List Statement → Course → Except Graph.Fault Course
  | [], c => .ok c
  | s :: ss, c =>
    match s.product? with
    | none => runBaseCases ss c
    | some p => do
      let (M?, c) ← c.evaluate p 0
      match M? with
      | none => runBaseCases ss c
      | some M => runBaseCases ss (c.bind s.target.name M)

/-- Applies a recurrence up to `count` times, first for the member at `index`. The index that `n`
stands for is one behind if the target is the next member. -/
def runRecurrence (target : Reference) (p : Product) :
    (count : Nat) → (index : Int) → Course → Except Graph.Fault Course
  | 0, _, c => .ok c
  | count + 1, index, c => do
    let (M?, c) ← c.evaluate p (if target.subscript = .next then index - 1 else index)
    match M? with
    | none => return c
    | some M =>
      let name ← (memberName? target.base index).mapError .index
      runRecurrence target p count (index + 1) (c.bind name M)

/-- The index that `n` stands for when the member at an index is computed. -/
theorem sub_targetOffset (target : Reference) (index : Int) :
    index - Graph.targetOffset target =
      if target.subscript = .next then index - 1 else index := by
  rw [Graph.targetOffset]
  split
  · rfl
  · exact Int.sub_zero index

/-- The course of a plan: its base cases and then its recurrence, after the last member there is. -/
def run (plan : IterativePlan) (config : Config) (env : Environment) :
    Except Graph.Fault Course := do
  let c ← runBaseCases plan.baseCases ⟨env, [], []⟩
  match plan.recurrence? with
  | none => return c
  | some s =>
    match s.product? with
    | none => return c
    | some p =>
      let last? ← (lastIndex? c.env.names s.target.base).mapError .index
      let index : Int := match last? with
        | some last => last + 1
        | none => 0
      runRecurrence s.target p (← Graph.recurrenceCount config) index c

/-- What the output holds after a course: the last matrix bound; without one, what the output held
at its start, or a blank matrix in the shape the output had before. -/
def output? (c : Course) (config : Config) (previous : Option (Nat × Nat)) : Option IntMatrix :=
  match c.computed.getLast? with
  | some last => c.env.lookup last
  | none => (c.env.lookup config.output).or (previous.map fun s => .ofFn s.1 s.2 fun _ _ => 0)

/-! ### Faults -/

variable {c : Course} {e : Graph.Fault}

theorem fault_of_mapError {α : Type} {x : Except IndexFault α}
    (h : x.mapError Graph.Fault.index = .error e) : e = .index .unreadable := by
  rcases x with i | a
  · cases i
    cases h
    rfl
  · cases h

theorem error_of_bind_eq_error {ε α β : Type} {x : Except ε α} {f : α → Except ε β} {e : ε}
    (h : x >>= f = .error e) : x = .error e ∨ ∃ a, x = .ok a ∧ f a = .error e := by
  cases x with
  | error e' =>
    cases h
    exact .inl rfl
  | ok a => exact .inr ⟨a, rfl, h⟩

theorem fault_of_evaluate {p : Product} {n : Int} (h : c.evaluate p n = .error e) :
    e = .index .unreadable := by
  rcases error_of_bind_eq_error h with h | ⟨b, -, h⟩
  · exact fault_of_mapError h
  · cases h

theorem fault_of_runBaseCases {ss : List Statement} (h : runBaseCases ss c = .error e) :
    e = .index .unreadable := by
  induction ss generalizing c with
  | nil => cases h
  | cons s ss ih =>
    rw [runBaseCases] at h
    cases hp : s.product? with
    | none =>
      rw [hp] at h
      exact ih h
    | some p =>
      rw [hp] at h
      rcases error_of_bind_eq_error h with h | ⟨⟨M?, c'⟩, -, h⟩
      · exact fault_of_evaluate h
      · cases M? with
        | none => exact ih h
        | some M => exact ih h

theorem fault_of_runRecurrence {target : Reference} {p : Product} {count : Nat} {index : Int}
    (h : runRecurrence target p count index c = .error e) : e = .index .unreadable := by
  induction count generalizing index c with
  | zero => cases h
  | succ count ih =>
    rcases error_of_bind_eq_error h with h | ⟨⟨M?, c'⟩, -, h⟩
    · exact fault_of_evaluate h
    · cases M? with
      | none => cases h
      | some M =>
        rcases error_of_bind_eq_error h with h | ⟨name, -, h⟩
        · exact fault_of_mapError h
        · exact ih h

/-- **Faults of courses.** A course only fails for an index that makes no number, or for a number of
iterations that is not given as a whole number. -/
theorem fault_of_run {plan : IterativePlan} {config : Config} {env : Environment}
    (h : run plan config env = .error e) :
    e = .index .unreadable ∨ e = .iterations ∧ config.iterations? = none := by
  rcases error_of_bind_eq_error h with h | ⟨c, -, h⟩
  · exact .inl (fault_of_runBaseCases h)
  · cases hs : plan.recurrence? with
    | none =>
      rw [hs] at h
      cases h
    | some s =>
      rw [hs] at h
      dsimp only at h
      cases hp : s.product? with
      | none =>
        rw [hp] at h
        cases h
      | some p =>
        rw [hp] at h
        rcases error_of_bind_eq_error h with h | ⟨last?, -, h⟩
        · exact .inl (fault_of_mapError h)
        · rcases error_of_bind_eq_error h with h | ⟨count, -, h⟩
          · rw [Graph.recurrenceCount] at h
            split at h
            · cases h
            · next hnone =>
              cases h
              exact .inr ⟨rfl, hnone⟩
          · exact .inl (fault_of_runRecurrence h)

end Course

end CellLineage

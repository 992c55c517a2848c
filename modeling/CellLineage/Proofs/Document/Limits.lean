import CellLineage.Document.Loading
import CellLineage.Proofs.Document.Distinct

/-!
# What loaded documents keep to

A document is loaded only if its checks let it pass, and it is loaded as it was read then
(`check_eq_ok_iff`). So a loaded document has a well-formed formula, a number of iterations and
single shapes within their limits, and only cells that lie inside their matrices
(`load_isWithin`).

The sizes of the document itself are checked under a name of their own, `<dimensions>`, in one table
with the single shapes, and a single shape of that name takes their place. They are within the limit
unless that has happened, and only a document of the current version can do that; where it does, a
document is loaded that is larger than the limit (`load_oversized`).

## Main definitions

* `Dimensions.IsWithin`: sizes within a limit.
* `IsSound`: what the checks of a document say.
* `Source.NamesDistinct`: a source in which no object gives a name twice.

## Main results

* `check_eq_ok_iff`: which documents pass their checks.
* `load_isWithin`: what a loaded document keeps to.
-/

namespace CellLineage

namespace Association

variable {α : Type}

/-- Values that are put one after another count before those that were there. -/
theorem lookup_foldl_put (xs ys : Association α) (h : (names ys).Nodup) (name : Text) :
    (ys.foldl (fun zs y => zs.put y.1 y.2) xs).lookup name =
      (ys.lookup name).or (xs.lookup name) := by
  induction ys generalizing xs with
  | nil => rfl
  | cons y ys ih =>
    obtain ⟨hy, hys⟩ := List.nodup_cons.1 h
    have hnone : ys.lookup y.1 = none := (lookup_eq_none_iff ys y.1).2 hy
    rw [List.foldl_cons, ih _ hys, lookup_put]
    grind

/-- Names stay distinct when values are put one after another. -/
theorem nodup_names_foldl_put {xs : Association α} (h : (names xs).Nodup) (ys : Association α) :
    (names (ys.foldl (fun zs y => zs.put y.1 y.2) xs)).Nodup := by
  induction ys generalizing xs with
  | nil => exact h
  | cons y ys ih => exact ih (nodup_names_put h y.1 y.2)

theorem mem_of_lookup {xs : Association α} {name : Text} {a : α} (h : xs.lookup name = some a) :
    (name, a) ∈ xs := by
  induction xs with
  | nil => cases h
  | cons x xs ih => grind

theorem foldl_put_ne_nil {xs : Association α} (h : xs ≠ []) (ys : Association α) :
    ys.foldl (fun zs y => zs.put y.1 y.2) xs ≠ [] := by
  induction ys generalizing xs with
  | nil => exact h
  | cons y ys ih =>
    refine ih ?_
    cases xs with
    | nil => exact (h rfl).elim
    | cons x xs =>
      simp only [put]
      split <;> exact List.cons_ne_nil _ _

end Association

namespace Document

open Formula

variable {doc doc' : Document} {limit : Datum} {source : Source}

/-! ### The checks of a document -/

/-- Neither size is above the limit. -/
structure Dimensions.IsWithin (d : Dimensions) (limit : Datum) : Prop where
  rows : Size.IsWithin limit (.int d.rows)
  cols : Size.IsWithin limit (.int d.cols)

/-- What the checks of a document say: its formula is well-formed, its number of iterations and the
sizes in its table are within their limits, and its cells lie inside their matrices. -/
structure IsSound (doc : Document) (limit : Datum) : Prop where
  formula : ∃ plan, Plan.read doc.formula = .ok plan ∧ plan.fault? = none
  iterations : doc.iterations ≤ Size.defaultLimit
  sizes : ∀ m ∈ doc.sizes, m.2.IsWithin limit
  inside : ∀ m ∈ doc.matrices, ∀ e ∈ m.2, e.isInside (doc.dimensionsOf m.1) = true

theorem stopAt_eq_ok_iff {why? : Option Refusal} : stopAt why? = .ok () ↔ why? = none := by
  cases why? <;> simp [stopAt]

/-- The table has the sizes of the document itself, or those in their place. -/
theorem exists_mem_sizes (doc : Document) : ∃ m, m ∈ doc.sizes :=
  List.exists_mem_of_ne_nil _ (Association.foldl_put_ne_nil (by simp) doc.matrixDimensions)

theorem number?_of_readLimit {bound : Number} (h : Size.readLimit limit = .ok bound) :
    limit.number? = some bound := by
  unfold Size.readLimit at h
  split at h
  · next l hl => rw [hl, Except.ok.inj h]
  · cases h

theorem isAbove_eq_false_iff {d : Dimensions} {bound : Number} (h : limit.number? = some bound) :
    d.isAbove bound = false ↔ d.IsWithin limit := by
  have hwithin : ∀ n, Size.IsWithin limit n ↔ bound.lt n = false := fun n => by
    simp [Size.IsWithin, h]
  rw [Dimensions.isAbove, Bool.or_eq_false_iff, ← hwithin, ← hwithin]
  exact ⟨fun hd => ⟨hd.1, hd.2⟩, fun hd => ⟨hd.rows, hd.cols⟩⟩

theorem oversized?_eq_none_iff {bound : Number} (h : limit.number? = some bound) :
    doc.oversized? bound limit = none ↔ ∀ m ∈ doc.sizes, m.2.IsWithin limit := by
  simp [oversized?, ← isAbove_eq_false_iff h]

theorem outside?_eq_none_iff : doc.outside? = none ↔
    ∀ m ∈ doc.matrices, ∀ e ∈ m.2, e.isInside (doc.dimensionsOf m.1) = true := by
  simp [outside?]

theorem iterations?_eq_none_iff :
    doc.iterations? = none ↔ doc.iterations ≤ Size.defaultLimit := by
  simp [iterations?]

/-- A document passes its checks as it is, and it does so exactly if it is sound. -/
theorem check_eq_ok_iff : doc.check limit = .ok doc' ↔ doc' = doc ∧ doc.IsSound limit := by
  constructor
  · intro h
    obtain ⟨plan, hplan, h⟩ := exists_of_bind_eq_ok h
    obtain ⟨⟨⟩, hmalformed, h⟩ := exists_of_bind_eq_ok h
    obtain ⟨⟨⟩, hiterations, h⟩ := exists_of_bind_eq_ok h
    obtain ⟨bound, hbound, h⟩ := exists_of_bind_eq_ok h
    obtain ⟨⟨⟩, hsizes, h⟩ := exists_of_bind_eq_ok h
    obtain ⟨⟨⟩, hinside, h⟩ := exists_of_bind_eq_ok h
    have hnumber := number?_of_readLimit (eq_ok_of_mapError hbound)
    rw [stopAt_eq_ok_iff] at hmalformed hiterations hsizes hinside
    exact ⟨(Except.ok.inj h).symm,
      ⟨plan, eq_ok_of_mapError hplan, Option.map_eq_none_iff.1 hmalformed⟩,
      iterations?_eq_none_iff.1 hiterations, (oversized?_eq_none_iff hnumber).1 hsizes,
      outside?_eq_none_iff.1 hinside⟩
  · rintro ⟨rfl, ⟨plan, hplan, hfault⟩, hiterations, hsizes, hinside⟩
    obtain ⟨m, hm⟩ := doc'.exists_mem_sizes
    obtain ⟨bound, hnumber, -⟩ := (hsizes m hm).rows
    have hbound : Size.readLimit limit = .ok bound := by rw [Size.readLimit, hnumber]
    have hmalformed : doc'.malformed? plan = none := by rw [malformed?, hfault]; rfl
    have hread : (Plan.read doc'.formula).mapError Stop.index = .ok plan :=
      congrArg (Except.mapError _) hplan
    have hlimit : (Size.readLimit limit).mapError Stop.limit = .ok bound :=
      congrArg (Except.mapError _) hbound
    simp [check, hread, hlimit, hmalformed, iterations?_eq_none_iff.2 hiterations,
      (oversized?_eq_none_iff hnumber).2 hsizes, outside?_eq_none_iff.2 hinside, stopAt,
      bind, Except.bind, pure, Except.pure]

/-- A document is loaded exactly if its source holds it and it is sound. -/
theorem load_eq_ok_iff : load source limit = .ok doc ↔
    (∃ d, source.read = .ok d ∧ read d = .ok doc) ∧ doc.IsSound limit := by
  constructor
  · intro h
    obtain ⟨d, hd, h⟩ := exists_of_bind_eq_ok h
    split at h
    · next doc' hread =>
      obtain ⟨rfl, hsound⟩ := check_eq_ok_iff.1 h
      exact ⟨⟨d, hd, hread⟩, hsound⟩
    · cases h
  · rintro ⟨⟨d, hd, hread⟩, hsound⟩
    have hcheck := check_eq_ok_iff.2 ⟨rfl, hsound⟩
    simpa [load, hd, hread, bind, Except.bind] using hcheck

/-! ### The table of sizes -/

/-- Single shapes are in the table under their names, and the sizes of the document itself are there
unless a single shape has their name. -/
theorem lookup_sizes (h : (Association.names doc.matrixDimensions).Nodup) (name : Text) :
    doc.sizes.lookup name =
      (doc.matrixDimensions.lookup name).or (if name = wholeName then some doc.dimensions
        else none) := by
  rw [sizes, Association.lookup_foldl_put _ _ h]
  grind

/-- The table of a sound document has all single shapes in it. -/
theorem IsSound.single (hsound : doc.IsSound limit)
    (h : (Association.names doc.matrixDimensions).Nodup) {name : Text} {d : Dimensions}
    (hd : doc.matrixDimensions.lookup name = some d) : d.IsWithin limit := by
  have hlookup : doc.sizes.lookup name = some d := by rw [lookup_sizes h, hd]; rfl
  exact hsound.sizes (name, d) (Association.mem_of_lookup hlookup)

/-- What stands in the place of the sizes of the document itself is within the limit. -/
theorem IsSound.whole (hsound : doc.IsSound limit)
    (h : (Association.names doc.matrixDimensions).Nodup) :
    (doc.dimensionsOf wholeName).IsWithin limit := by
  have hlookup : doc.sizes.lookup wholeName = some (doc.dimensionsOf wholeName) := by
    rw [lookup_sizes h, dimensionsOf]
    cases doc.matrixDimensions.lookup wholeName <;> simp
  exact hsound.sizes _ (Association.mem_of_lookup hlookup)

/-! ### What a source holds -/

/-- No object in the source gives a name twice; in a text this comes with its reading. -/
def Source.NamesDistinct : Source → Prop
  | .text _ => True
  | .datum d => d.NamesDistinct

theorem Source.namesDistinct_of_read (h : source.NamesDistinct) {d : Datum}
    (hd : source.read = .ok d) : d.NamesDistinct := by
  cases source with
  | datum d' => exact Except.ok.inj hd ▸ h
  | text s =>
    rw [Source.read] at hd
    cases hread : Json.read s with
    | ok d' =>
      rw [hread] at hd
      exact Except.ok.inj hd ▸ Json.namesDistinct_of_read hread
    | error fault => cases fault <;> simp [hread] at hd

section Fields

open Checked

variable {α : Type} {readItem : Datum → Checked α} {fields : Fields} {x : α}

theorem exists_of_required {name : String} (h : required fields name readItem = .valid x) :
    ∃ d, fields.find? name = some d ∧ readItem d = .valid x := by
  unfold required at h
  rw [behind_eq_valid_iff] at h
  split at h
  · next d hd => exact ⟨d, hd, h⟩
  · cases h

theorem exists_of_optional {name : String} {default : Checked α}
    (h : optional fields name default readItem = .valid x) :
    default = .valid x ∨ ∃ d, fields.find? name = some d ∧ readItem d = .valid x := by
  unfold optional at h
  split at h
  · next d hd => exact .inr ⟨d, hd, behind_eq_valid_iff.1 h⟩
  · exact .inl h

/-- A table has the names of the fields that it is read from. -/
theorem names_of_readFields {xs : Association α} (h : readFields readItem fields = .valid xs) :
    Association.names xs = Association.names fields := by
  induction fields generalizing xs with
  | nil =>
    cases h
    rfl
  | cons f fields ih =>
    obtain ⟨cons, others, hcons, hothers, rfl⟩ := seq_eq_valid_iff.1 h
    obtain ⟨first, hfirst, rfl⟩ := map_eq_valid_iff.1 hcons
    rw [readField, behind_eq_valid_iff, map_eq_valid_iff] at hfirst
    obtain ⟨value, -, rfl⟩ := hfirst
    exact congrArg (f.1 :: ·) (ih hothers)

theorem nodup_names_of_table {xs : Association α} {d : Datum} (h : table readItem d = .valid xs)
    (hd : d.NamesDistinct) : (Association.names xs).Nodup := by
  unfold table at h
  split at h
  · rw [names_of_readFields h]
    exact (Datum.namesDistinct_object.1 hd).1
  · cases h

end Fields

/-- The names of the matrices that a document lists are distinct. -/
theorem nodup_names_matrices {fields : Fields} {contents : Contents}
    (h : readContents fields = .valid contents) (hfields : (Datum.object fields).NamesDistinct) :
    (Association.names contents.matrices).Nodup := by
  obtain ⟨_, matrices, h₃, hmatrices, rfl⟩ := Checked.seq_eq_valid_iff.1 h
  obtain ⟨_, _, h₂, -, rfl⟩ := Checked.seq_eq_valid_iff.1 h₃
  obtain ⟨_, _, h₁, -, rfl⟩ := Checked.seq_eq_valid_iff.1 h₂
  obtain ⟨_, -, rfl⟩ := Checked.map_eq_valid_iff.1 h₁
  obtain ⟨d, hd, htable⟩ := exists_of_required hmatrices
  exact nodup_names_of_table htable (Datum.namesDistinct_of_find? hfields hd)

/-- The names of the single shapes of a document are distinct, whatever its version. -/
theorem nodup_names_matrixDimensions {version : Version} {fields : Fields}
    (h : readVersion version fields = .valid doc)
    (hfields : (Datum.object fields).NamesDistinct) :
    (Association.names doc.matrixDimensions).Nodup := by
  cases version with
  | first =>
    obtain ⟨contents, -, rfl⟩ := Checked.map_eq_valid_iff.1 h
    simp [ofFirst, Association.names, leftName, kernelName, rightName]
    decide
  | second =>
    obtain ⟨_, formula, hmk, -, rfl⟩ := Checked.seq_eq_valid_iff.1 h
    obtain ⟨contents, hcontents, rfl⟩ := Checked.map_eq_valid_iff.1 hmk
    have hnodup := nodup_names_matrices hcontents hfields
    simpa [ofSecond, Association.names, Function.comp_def] using hnodup
  | third =>
    obtain ⟨_, shapes, h₃, hshapes, rfl⟩ := Checked.seq_eq_valid_iff.1 h
    obtain ⟨_, _, h₂, -, rfl⟩ := Checked.seq_eq_valid_iff.1 h₃
    obtain ⟨_, _, h₁, -, rfl⟩ := Checked.seq_eq_valid_iff.1 h₂
    obtain ⟨contents, -, rfl⟩ := Checked.map_eq_valid_iff.1 h₁
    obtain hshapes | ⟨d, hd, htable⟩ := exists_of_optional hshapes
    · obtain hshapes | ⟨d, hd, htable⟩ := exists_of_optional hshapes
      · cases hshapes
        simp [ofThird, Association.names]
      · exact nodup_names_of_table htable (Datum.namesDistinct_of_find? hfields hd)
    · exact nodup_names_of_table htable (Datum.namesDistinct_of_find? hfields hd)

/-- In a document of an older version no single shape takes the place of the sizes of the document
itself. -/
theorem dimensionsOf_wholeName {version : Version} {fields : Fields}
    (h : readVersion version fields = .valid doc) (hversion : version ≠ .current) :
    doc.dimensionsOf wholeName = doc.dimensions := by
  cases version with
  | first =>
    obtain ⟨contents, -, rfl⟩ := Checked.map_eq_valid_iff.1 h
    rfl
  | second =>
    obtain ⟨_, formula, hmk, -, rfl⟩ := Checked.seq_eq_valid_iff.1 h
    obtain ⟨contents, -, rfl⟩ := Checked.map_eq_valid_iff.1 hmk
    cases hlookup : (ofSecond contents formula).matrixDimensions.lookup wholeName with
    | none => rw [dimensionsOf, hlookup, Option.getD_none]
    | some d =>
      obtain ⟨m, -, hm⟩ := List.mem_map.1 (Association.mem_of_lookup hlookup)
      rw [dimensionsOf, hlookup, Option.getD_some, ← (Prod.mk.inj hm).2]
      rfl
  | third => exact (hversion rfl).elim

/-- A version is named by its number only. -/
theorem ofDatum?_eq_some_iff {named : Datum} {version : Version} :
    Version.ofDatum? named = some version ↔ named = .int version.number := by
  constructor
  · intro h
    unfold Version.ofDatum? at h
    split at h
    · next n =>
      have hn : (version.number : Int) = n := by simpa using List.find?_some h
      rw [hn]
    · cases h
  · rintro rfl
    exact Version.ofDatum?_number version

theorem exists_of_read {d : Datum} (h : read d = .ok doc) :
    ∃ (fields : Fields) (version : Version) (named : Datum), d = .object fields ∧ fields.find? "version" = some named ∧
      Version.ofDatum? named = some version ∧ readVersion version fields = .valid doc := by
  unfold read at h
  split at h
  · next fields =>
    unfold readObject at h
    split at h
    · cases h
    · cases h
    · next named _ hnamed =>
      split at h
      · cases h
      · next version hversion =>
        split at h
        · next doc' hread =>
          cases h
          exact ⟨fields, version, named, rfl, hnamed, hversion, hread⟩
        · cases h
  · cases h

/-! ### Limits -/

theorem nodup_names_of_load (hsource : source.NamesDistinct) (h : load source limit = .ok doc) :
    (Association.names doc.matrixDimensions).Nodup := by
  obtain ⟨⟨d, hd, hread⟩, -⟩ := load_eq_ok_iff.1 h
  obtain ⟨fields, version, named, rfl, -, -, hversion⟩ := exists_of_read hread
  exact nodup_names_matrixDimensions hversion (Source.namesDistinct_of_read hsource hd)

/-- A loaded document has a well-formed formula, iterations and single shapes within their limits,
and cells inside their matrices. Its own sizes, and with them all shapes, are within the limit too
if no single shape stands in their place; in an older version none does. -/
theorem load_isWithin (hsource : source.NamesDistinct) (h : load source limit = .ok doc) :
    (∃ plan, Plan.read doc.formula = .ok plan ∧ plan.fault? = none) ∧
    (1 ≤ doc.iterations ∧ doc.iterations ≤ Size.defaultLimit) ∧
    (∀ m ∈ doc.matrixDimensions, 1 ≤ m.2.rows ∧ 1 ≤ m.2.cols ∧ m.2.IsWithin limit) ∧
    (∀ m ∈ doc.matrices, ∀ e ∈ m.2,
      e.row < (doc.dimensionsOf m.1).rows ∧ e.col < (doc.dimensionsOf m.1).cols) ∧
    (doc.dimensionsOf wholeName = doc.dimensions →
      1 ≤ doc.dimensions.rows ∧ 1 ≤ doc.dimensions.cols ∧ doc.dimensions.IsWithin limit ∧
      ∀ name, (doc.dimensionsOf name).IsWithin limit) ∧
    (∀ fields : Fields, source.read = .ok (.object fields) →
      fields.find? "version" ≠ some (.int Version.current.number) →
      doc.dimensionsOf wholeName = doc.dimensions) := by
  have hnodup := nodup_names_of_load hsource h
  obtain ⟨⟨d, hd, hread⟩, hsound⟩ := load_eq_ok_iff.1 h
  have hwhole : doc.dimensionsOf wholeName = doc.dimensions → doc.dimensions.IsWithin limit :=
    fun heq => heq ▸ hsound.whole hnodup
  refine ⟨hsound.formula, ⟨doc.iterations_pos, hsound.iterations⟩, fun m hm => ?single,
    fun m hm e he => by simpa [Entry.isInside] using hsound.inside m hm e he,
    fun heq => ⟨doc.dimensions.rows_pos, doc.dimensions.cols_pos, hwhole heq, fun name => ?all⟩,
    fun fields hfields hcurrent => ?older⟩
  case single =>
    exact ⟨m.2.rows_pos, m.2.cols_pos,
      hsound.single hnodup ((Association.lookup_eq_some_iff hnodup).2 hm)⟩
  case all =>
    unfold dimensionsOf
    cases hname : doc.matrixDimensions.lookup name with
    | none => exact hwhole heq
    | some d => exact hsound.single hnodup hname
  case older =>
    obtain ⟨fields', version, named, rfl, hnamed, hversion, hdoc⟩ := exists_of_read hread
    obtain rfl : fields' = fields := by
      rw [hfields] at hd
      exact Datum.object.inj (Except.ok.inj hd).symm
    refine dimensionsOf_wholeName hdoc fun hthird => hcurrent ?_
    rw [hnamed, ofDatum?_eq_some_iff.1 hversion, hthird]

/-- What a successful result is like is known of the result itself. -/
theorem exists_of_toOption_map {ε α β : Type} {x : Except ε α} {f : α → β} {b : β}
    (h : x.toOption.map f = some b) : ∃ a, x = .ok a ∧ f a = b := by
  cases x with
  | error e => cases h
  | ok a => exact ⟨a, rfl, Option.some.inj h⟩

/-- A document of the current version for the formula `A`, with as many rows as columns and a cell
in a corner; a single shape is given under a name. -/
def sampleDocument (size : Int) (name : Text) : Datum :=
  .object [("version", .int 3),
    ("dimensions", .object [("rows", .int size), ("cols", .int size)]),
    ("formula", .text "A"),
    ("matrices", .object [("A", .list [.object [("row", .int 0), ("col", .int (size - 1)),
      ("value", .int 7)]])]),
    ("matrixDimensions", .object [(name, .object [("rows", .int 1), ("cols", .int 1)])])]

theorem namesDistinct_sampleDocument (size : Int) (name : Text) :
    Source.NamesDistinct (.datum (sampleDocument size name)) := by
  simp only [Source.NamesDistinct, sampleDocument, Datum.NamesDistinct, Datum.FieldsNamesDistinct,
    Datum.ItemsNamesDistinct, Association.names, List.map, List.nodup_cons, List.not_mem_nil,
    not_false_eq_true, List.nodup_nil, and_true]
  decide

/-- With room for nine rows and columns the sample is loaded, and its sizes are within the limit. -/
theorem load_isWithin_sample : ∃ doc, load (.datum (sampleDocument 9 "B")) (.int 9) = .ok doc ∧
    doc.dimensionsOf wholeName = doc.dimensions ∧ doc.dimensions.shape = (9, 9) ∧
    doc.dimensions.IsWithin (.int 9) := by
  have hload : ((load (.datum (sampleDocument 9 "B")) (.int 9)).toOption.map fun doc =>
      (doc.dimensionsOf wholeName == doc.dimensions, doc.dimensions.shape)) =
        some (true, (9, 9)) := by decide +kernel
  obtain ⟨doc, hok, hsizes⟩ := exists_of_toOption_map hload
  obtain ⟨hwhole, hshape⟩ := Prod.mk.inj hsizes
  have hwhole := eq_of_beq hwhole
  have hlimits := load_isWithin (namesDistinct_sampleDocument 9 "B") hok
  exact ⟨doc, hok, hwhole, hshape, (hlimits.2.2.2.2.1 hwhole).2.2.1⟩

/-- With the single shape under the name `<dimensions>` it is loaded with room for five only. -/
theorem load_oversized : ∃ doc, load (.datum (sampleDocument 9 wholeName)) (.int 5) = .ok doc ∧
    ¬doc.dimensions.IsWithin (.int 5) := by
  have hload : ((load (.datum (sampleDocument 9 wholeName)) (.int 5)).toOption.map fun doc =>
      doc.dimensions.shape) = some (9, 9) := by decide +kernel
  obtain ⟨doc, hok, hshape⟩ := exists_of_toOption_map hload
  refine ⟨doc, hok, fun hwithin => ?_⟩
  have hrows : (doc.dimensions.rows : Int) ≤ 5 := (Size.isWithin_int 5 _).1 hwithin.rows
  have hnine : doc.dimensions.rows = 9 := congrArg Prod.fst hshape
  omega

end Document

end CellLineage

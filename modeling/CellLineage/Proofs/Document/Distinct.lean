import CellLineage.Json.Reader
import CellLineage.Proofs.Formula.Written

/-!
# Data without repeated names

The fields of an object are looked up by name, so an object that gives a name twice would say two
things at once. `Datum.NamesDistinct` says that no object in a datum does. What is read from a JSON
text is always like this (`Json.namesDistinct_of_read`), whatever the text repeats: a repeated name
takes the place of the earlier one.

## Main definitions

* `Datum.NamesDistinct`: no object in the datum gives a name twice.

## Main results

* `Json.namesDistinct_of_read`: a JSON text stands for such a datum.
-/

namespace CellLineage

namespace Association

variable {α : Type}

/-- A name that is put takes the place of the same name, so names stay distinct. -/
theorem nodup_names_put {xs : Association α} (h : (names xs).Nodup) (name : Text) (a : α) :
    (names (put xs name a)).Nodup := by
  rw [names_put]
  split
  · exact h
  · next hname => exact List.nodup_append.2 ⟨h, by simp, by grind⟩

/-- What is in the association after a name is put is the new entry or was there before. -/
theorem mem_put {xs : Association α} {name : Text} {a : α} {x : Text × α}
    (h : x ∈ put xs name a) : x = (name, a) ∨ x ∈ xs := by
  induction xs with
  | nil => exact .inl (List.mem_singleton.1 h)
  | cons y ys ih =>
    unfold put at h
    split at h <;> grind

/-- Where names are distinct, each entry is found under its name. -/
theorem lookup_eq_some_iff {xs : Association α} (h : (names xs).Nodup) {name : Text} {a : α} :
    xs.lookup name = some a ↔ (name, a) ∈ xs := by
  induction xs with
  | nil => simp
  | cons x xs ih =>
    obtain ⟨hx, hxs⟩ := List.nodup_cons.1 h
    have hnot : ∀ y ∈ xs, y.1 ≠ x.1 := fun y hy heq => hx (heq ▸ List.mem_map_of_mem hy)
    have htail := ih hxs
    grind

end Association

namespace Datum

mutual

/-- No object in the datum gives a name twice. -/
def NamesDistinct : Datum → Prop
  | .list items => ItemsNamesDistinct items
  | .object fields => (Association.names fields).Nodup ∧ FieldsNamesDistinct fields
  | _ => True

/-- No object in the items of a list gives a name twice. -/
def ItemsNamesDistinct : List Datum → Prop
  | [] => True
  | d :: ds => d.NamesDistinct ∧ ItemsNamesDistinct ds

/-- No object in the values of some fields gives a name twice. -/
def FieldsNamesDistinct : List (Text × Datum) → Prop
  | [] => True
  | (_, d) :: fields => d.NamesDistinct ∧ FieldsNamesDistinct fields

end

variable {items : List Datum} {fields : Fields}

theorem itemsNamesDistinct_iff :
    ItemsNamesDistinct items ↔ ∀ d ∈ items, d.NamesDistinct := by
  induction items with
  | nil => simp [ItemsNamesDistinct]
  | cons d ds ih => simp [ItemsNamesDistinct, ih]

theorem fieldsNamesDistinct_iff :
    FieldsNamesDistinct fields ↔ ∀ f ∈ fields, f.2.NamesDistinct := by
  induction fields with
  | nil => simp [FieldsNamesDistinct]
  | cons f fields ih => simp [FieldsNamesDistinct, ih]

@[simp] theorem namesDistinct_list :
    NamesDistinct (.list items) ↔ ∀ d ∈ items, d.NamesDistinct := by
  rw [NamesDistinct, itemsNamesDistinct_iff]

@[simp] theorem namesDistinct_object : NamesDistinct (.object fields) ↔
    (Association.names fields).Nodup ∧ ∀ f ∈ fields, f.2.NamesDistinct := by
  rw [NamesDistinct, fieldsNamesDistinct_iff]

/-- The value of a field is itself without repeated names. -/
theorem namesDistinct_of_find? (h : NamesDistinct (.object fields)) {name : Text} {d : Datum}
    (hd : fields.find? name = some d) : d.NamesDistinct := by
  obtain ⟨hnodup, hvalues⟩ := namesDistinct_object.1 h
  exact hvalues _ ((Association.lookup_eq_some_iff hnodup).1 hd)

/-- An object stays without repeated names when such a value is put under a name. -/
theorem namesDistinct_put (h : NamesDistinct (.object fields)) (name : Text) {d : Datum}
    (hd : d.NamesDistinct) : NamesDistinct (.object (fields.put name d)) := by
  obtain ⟨hnodup, hvalues⟩ := namesDistinct_object.1 h
  refine namesDistinct_object.2 ⟨Association.nodup_names_put hnodup name d, fun f hf => ?_⟩
  obtain rfl | hf := Association.mem_put hf
  · exact hd
  · exact hvalues f hf

end Datum

namespace Json

open Datum

/-- A number is no object and has no names in it; neither have the words. -/
theorem namesDistinct_of_readAtom {cs : List Char} {d : Datum} {k : Nat}
    (h : readAtom cs = .ok (some (d, k))) : d.NamesDistinct := by
  unfold readAtom at h
  split at h
  · next w hw =>
    have hmem := List.mem_of_find?_eq_some hw
    simp only [Except.ok.injEq, Option.some.injEq, Prod.mk.injEq] at h
    rw [← h.1]
    simp only [words, List.mem_cons, List.not_mem_nil, or_false] at hmem
    obtain rfl | rfl | rfl | rfl | rfl | rfl := hmem <;> trivial
  · split at h
    all_goals
      obtain ⟨read?, -, h⟩ := exists_of_bind_eq_ok h
      cases read? with
      | none => cases h
      | some read =>
        obtain ⟨rfl, -⟩ := Prod.mk.inj (Option.some.inj (Except.ok.inj h))
        trivial

/-- The three readers never give a name twice: fields that are read are put to those before them. -/
theorem namesDistinct_of_readers :
    (∀ cs (s : Step Datum cs), readValue cs = .ok s → s.value.NamesDistinct) ∧
    (∀ before cs (s : Step Fields cs), NamesDistinct (.object before) →
      readFields before cs = .ok s → NamesDistinct (.object s.value)) ∧
    (∀ cs (s : Step (List Datum) cs), readItems cs = .ok s → NamesDistinct (.list s.value)) := by
  refine readValue.mutual_induct
    (fun cs => ∀ s : Step Datum cs, readValue cs = .ok s → s.value.NamesDistinct)
    (fun before cs => ∀ s : Step Fields cs, NamesDistinct (.object before) →
      readFields before cs = .ok s → NamesDistinct (.object s.value))
    (fun cs => ∀ s : Step (List Datum) cs, readItems cs = .ok s → NamesDistinct (.list s.value))
    ?nothing ?text ?noItems ?items ?noFields ?fields ?atom ?field ?noName ?item
  case nothing =>
    intro s h
    rw [readValue] at h
    cases h
  case text =>
    intro rest s h
    rw [readValue] at h
    obtain ⟨t, -, h⟩ := exists_of_bind_eq_ok h
    cases h
    trivial
  case noItems =>
    intro rest after hrest s h
    rw [readValue] at h
    split at h
    · cases h
      simp
    · next hno => exact (hno _ hrest).elim
  case items =>
    intro rest hlength hno ih s h
    rw [readValue] at h
    split at h
    · next after hrest => exact (hno _ hrest).elim
    · obtain ⟨inner, hinner, h⟩ := exists_of_bind_eq_ok h
      cases h
      exact ih inner hinner
  case noFields =>
    intro rest after hrest s h
    rw [readValue] at h
    split at h
    · cases h
      simp [Association.names]
    · next hno => exact (hno _ hrest).elim
  case fields =>
    intro rest hlength hno ih s h
    rw [readValue] at h
    split at h
    · next after hrest => exact (hno _ hrest).elim
    · obtain ⟨inner, hinner, h⟩ := exists_of_bind_eq_ok h
      cases h
      exact ih inner (by simp [Association.names]) hinner
  case atom =>
    intro c rest hquote hbracket hbrace s h
    rw [readValue] at h
    · obtain ⟨atom?, hatom, h⟩ := exists_of_bind_eq_ok h
      cases atom? with
      | none => cases h
      | some atom =>
        cases h
        exact namesDistinct_of_readAtom hatom
    all_goals assumption
  case field =>
    intro before rest ihvalue ihfields s hbefore h
    rw [readFields] at h
    obtain ⟨name, -, h⟩ := exists_of_bind_eq_ok h
    split at h
    · next rest₁ hcolon =>
      obtain ⟨value, hvalue, h⟩ := exists_of_bind_eq_ok h
      have hput := namesDistinct_put hbefore name.value (ihvalue name rest₁ hcolon value hvalue)
      dsimp only at h
      split at h
      · cases h
        exact hput
      · next after hcomma =>
        obtain ⟨all, hall, h⟩ := exists_of_bind_eq_ok h
        cases h
        exact ihfields name rest₁ hcolon value after hcomma all hput hall
      · cases h
    · cases h
  case noName =>
    intro before other hno s hbefore h
    rw [readFields] at h
    · cases h
    · exact hno
  case item =>
    intro cs ihfirst ihothers s h
    rw [readItems] at h
    obtain ⟨first, hfirst, h⟩ := exists_of_bind_eq_ok h
    dsimp only at h
    split at h
    · cases h
      simpa using ihfirst first hfirst
    · next after hcomma =>
      obtain ⟨others, hothers, h⟩ := exists_of_bind_eq_ok h
      cases h
      have hrest := namesDistinct_list.1 (ihothers first after hcomma others hothers)
      exact namesDistinct_list.2 (List.forall_mem_cons.2 ⟨ihfirst first hfirst, hrest⟩)
    · cases h

/-- No object in what a JSON text stands for gives a name twice. -/
theorem namesDistinct_of_read {text : String} {d : Datum} (h : read text = .ok d) :
    d.NamesDistinct := by
  unfold read at h
  dsimp only at h
  split at h
  · next d' hall =>
    cases h
    unfold readAll at hall
    split at hall
    · cases hall
    · obtain ⟨-, -, hall⟩ := exists_of_bind_eq_ok hall
      obtain ⟨s, hs, hall⟩ := exists_of_bind_eq_ok hall
      split at hall
      · cases hall
        exact namesDistinct_of_readers.1 _ s hs
      · cases hall
  · cases h
  · cases h

end Json

end CellLineage

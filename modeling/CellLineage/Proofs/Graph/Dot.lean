import CellLineage.Graph.Product
import Mathlib.Algebra.Order.Ring.Int
import Mathlib.Data.List.Basic
import Mathlib.Tactic.Tauto

/-!
# Entries of products

An entry of a product is formed from pairs of cells (`Dot.ofPairs`). On whole numbers the value of an
entry is the sum of the products of the pairs, and a pair feeds the lineage of the entry exactly if
both its cells are nonzero: each of the two that is no identity cell hands on its id and what it
derives from.

## Main definitions

* `Cell.Feeds`: what a cell of a pair hands on.
* `Dot.ofPairs`: an entry formed from pairs of cells.

## Main results

* `Dot.mem_sources_ofPairs`, `Dot.ofPairs_int`: the lineage and the value of an entry.
* `Graph.exists_feeds_of_dot`: what an entry of a product in a graph derives from.
-/

namespace CellLineage

/-- The whole number that a value is; zero for a double. -/
def Number.toInt : Number → Int
  | .int n => n
  | .float _ => 0

/-- The value of the cell is a whole number. -/
def Cell.IsInt (c : Cell) : Prop :=
  c.value = .int c.value.toInt

theorem Cell.isInt_iff {c : Cell} : c.IsInt ↔ ∃ n, c.value = .int n := by
  refine ⟨fun h => ⟨_, h⟩, ?_⟩
  rintro ⟨n, hn⟩
  rw [IsInt, hn]
  rfl

instance : DecidablePred Cell.IsInt := fun c =>
  match h : c.value with
  | .int n => isTrue (Cell.isInt_iff.2 ⟨n, h⟩)
  | .float _ => isFalse fun hint => by
    rw [Cell.IsInt, h] at hint
    cases hint

/-- The cell hands on an id to what it is multiplied into: its own one and those it derives from,
unless it is an identity cell. With `leafOnly` a derived cell does not hand on its own id. -/
def Cell.Feeds (leafOnly : Bool) (c : Cell) (x : CellId) : Prop :=
  c.isIdentity = false ∧
    (x ∈ c.dependencies ∨ x = c.id ∧ ¬(leafOnly = true ∧ c.dependencies ≠ []))

/-- Both cells of a pair are nonzero, so the pair counts. -/
def Dot.counts (p : Cell × Cell) : Bool :=
  p.1.value.isNonzero && p.2.value.isNonzero

/-- The pair counts and both its cells are identity cells. -/
def Dot.countsAsIdentity (p : Cell × Cell) : Bool :=
  counts p && (p.1.isIdentity && p.2.isIdentity)

namespace Dot

variable {leafOnly : Bool} {d d' : Dot} {a b : Cell} {x : CellId} {ps : List (Cell × Cell)}

theorem mem_addSource {sources : List CellId} {c : Cell} :
    x ∈ addSource leafOnly sources c ↔ x ∈ sources ∨ c.Feeds leafOnly x := by
  unfold addSource Cell.Feeds
  cases hi : c.isIdentity with
  | true => simp
  | false =>
    cases hd : c.dependencies <;> cases leafOnly <;> simp
    tauto

theorem nodup_addSource {sources : List CellId} {c : Cell} (h : sources.Nodup) :
    (addSource leafOnly sources c).Nodup := by
  unfold addSource
  split
  · exact h
  · refine nodup_appendAllNew ?_
    split
    · exact h
    · exact nodup_appendNew h

/-- One pair adds to an entry what it counts for. -/
theorem step_eq_some (h : d.step leafOnly a b = some d') :
    (d.sources.Nodup → d'.sources.Nodup) ∧
    (x ∈ d'.sources ↔ x ∈ d.sources ∨
      counts (a, b) = true ∧ (a.Feeds leafOnly x ∨ b.Feeds leafOnly x)) ∧
    d'.pairs = d.pairs + (if counts (a, b) then 1 else 0) ∧
    d'.identityPairs = d.identityPairs + if countsAsIdentity (a, b) then 1 else 0 := by
  unfold step at h
  cases hc : counts (a, b) with
  | false =>
    have hc' : (a.value.isNonzero && b.value.isNonzero) = false := hc
    rw [hc', if_neg Bool.false_ne_true] at h
    cases h
    simp [countsAsIdentity, hc]
  | true =>
    have hc' : (a.value.isNonzero && b.value.isNonzero) = true := hc
    rw [if_pos hc'] at h
    simp only [Option.bind_eq_bind, Option.bind_eq_some_iff] at h
    obtain ⟨m, -, total, -, h⟩ := h
    cases hi : a.isIdentity && b.isIdentity with
    | true =>
      rw [if_pos hi] at h
      cases h
      rw [Bool.and_eq_true] at hi
      simp [countsAsIdentity, hc, Cell.Feeds, hi.1, hi.2]
    | false =>
      rw [if_neg (by simp [hi])] at h
      cases h
      refine ⟨fun hn => nodup_addSource (nodup_addSource hn), ?_, rfl, ?_⟩
      · rw [mem_addSource, mem_addSource, or_assoc]
        simp
      · simp [countsAsIdentity, hc, hi]

/-- What an entry holds that is formed from pairs of cells. -/
def ofPairs (leafOnly : Bool) (ps : List (Cell × Cell)) : Option Dot :=
  ps.foldlM (fun d p => d.step leafOnly p.1 p.2) zero

/-- What a list of pairs adds to an entry. -/
private theorem foldlM_step_eq_some
    (h : ps.foldlM (fun d p => d.step leafOnly p.1 p.2) d = some d') :
    (d.sources.Nodup → d'.sources.Nodup) ∧
    (x ∈ d'.sources ↔ x ∈ d.sources ∨ ∃ p ∈ ps,
      counts p = true ∧ (p.1.Feeds leafOnly x ∨ p.2.Feeds leafOnly x)) ∧
    d'.pairs = d.pairs + ps.countP counts ∧
    d'.identityPairs = d.identityPairs + ps.countP countsAsIdentity := by
  induction ps generalizing d with
  | nil =>
    cases h
    simp
  | cons p ps ih =>
    rw [List.foldlM_cons, Option.bind_eq_bind, Option.bind_eq_some_iff] at h
    obtain ⟨d₁, h₁, h⟩ := h
    obtain ⟨hn₁, hm₁, hp₁, hi₁⟩ := step_eq_some (x := x) h₁
    obtain ⟨hn, hm, hp, hi⟩ := ih h
    rw [Prod.eta] at hp₁ hi₁
    refine ⟨fun h => hn (hn₁ h), ?_, ?_, ?_⟩
    · rw [hm, hm₁, List.exists_mem_cons_iff, or_assoc]
    · rw [hp, hp₁, List.countP_cons]
      omega
    · rw [hi, hi₁, List.countP_cons]
      omega

theorem nodup_sources_ofPairs (h : ofPairs leafOnly ps = some d) : d.sources.Nodup :=
  (foldlM_step_eq_some (x := "") h).1 List.nodup_nil

/-- **The lineage of an entry.** It derives from what the cells of the pairs that count hand on. -/
theorem mem_sources_ofPairs (h : ofPairs leafOnly ps = some d) :
    x ∈ d.sources ↔ ∃ p ∈ ps,
      counts p = true ∧ (p.1.Feeds leafOnly x ∨ p.2.Feeds leafOnly x) := by
  rw [(foldlM_step_eq_some h).2.1]
  simp [zero]

/-- An entry is an identity cell if some pair counts, all that count are pairs of identity cells,
and the value is one. -/
theorem isIdentity_ofPairs (h : ofPairs leafOnly ps = some d) :
    d.isIdentity = true ↔ (∃ p ∈ ps, counts p = true) ∧
      (∀ p ∈ ps, counts p = true → p.1.isIdentity = true ∧ p.2.isIdentity = true) ∧
      d.total.isOne = true := by
  obtain ⟨-, -, hp, hi⟩ := foldlM_step_eq_some (x := "") h
  have hp : d.pairs = ps.countP counts := by simpa [zero] using hp
  have hi : d.identityPairs = ps.countP countsAsIdentity := by simpa [zero] using hi
  have hsplit : countsAsIdentity =
      fun p => (p.1.isIdentity && p.2.isIdentity) && counts p := by
    funext p
    rw [countsAsIdentity, Bool.and_comm]
  have hall : ps.countP counts = ps.countP countsAsIdentity ↔
      ∀ p ∈ ps, counts p = true → p.1.isIdentity = true ∧ p.2.isIdentity = true := by
    rw [hsplit, ← List.countP_filter, List.countP_eq_length_filter, eq_comm, List.countP_eq_length]
    simp only [List.mem_filter, and_imp, Bool.and_eq_true]
  simp only [isIdentity, Bool.and_eq_true, decide_eq_true_eq, beq_iff_eq, hp, hi, hall,
    List.countP_pos_iff, and_assoc]

/-- On whole numbers a pair adds its product to the value. -/
theorem step_int (leafOnly : Bool) {t : Int} (ha : a.IsInt) (hb : b.IsInt) (hd : d.total = .int t) :
    ∃ d', d.step leafOnly a b = some d' ∧
      d'.total = .int (t + a.value.toInt * b.value.toInt) := by
  unfold step
  by_cases hc : (a.value.isNonzero && b.value.isNonzero) = true
  · rw [if_pos hc, ha, hb, hd]
    simp only [Number.mul?_int, Number.add?_int, Option.bind_eq_bind, Option.bind_some]
    split
    · exact ⟨_, rfl, rfl⟩
    · exact ⟨_, rfl, rfl⟩
  · rw [if_neg hc]
    refine ⟨d, rfl, ?_⟩
    have hz : a.value.toInt = 0 ∨ b.value.toInt = 0 := by
      rw [ha, hb, Bool.and_eq_true, Number.isNonzero_int, Number.isNonzero_int] at hc
      tauto
    rw [hd]
    rcases hz with hz | hz <;> simp [hz]

/-- **The value of an entry.** On whole numbers it is the sum of the products of the pairs. -/
theorem ofPairs_int (leafOnly : Bool) (h : ∀ p ∈ ps, p.1.IsInt ∧ p.2.IsInt) :
    ∃ d, ofPairs leafOnly ps = some d ∧
      d.total = .int (ps.map fun p => p.1.value.toInt * p.2.value.toInt).sum := by
  suffices hall : ∀ (d : Dot) (t : Int), d.total = .int t → ∃ d',
      ps.foldlM (fun d p => d.step leafOnly p.1 p.2) d = some d' ∧
        d'.total = .int (t + (ps.map fun p => p.1.value.toInt * p.2.value.toInt).sum) by
    obtain ⟨d, hd, ht⟩ := hall zero 0 rfl
    exact ⟨d, hd, by rw [ht, Int.zero_add]⟩
  induction ps with
  | nil => exact fun d t hd => ⟨d, rfl, by simp [hd]⟩
  | cons p ps ih =>
    intro d t hd
    obtain ⟨hp, hps⟩ := List.forall_mem_cons.1 h
    obtain ⟨d₁, h₁, ht₁⟩ := step_int leafOnly hp.1 hp.2 hd
    obtain ⟨d₂, h₂, ht₂⟩ := ih hps d₁ _ ht₁
    refine ⟨d₂, ?_, ?_⟩
    · rw [List.foldlM_cons, h₁]
      exact h₂
    · rw [ht₂, List.map_cons, List.sum_cons, Int.add_assoc]

end Dot

namespace Graph

/-- What an entry derives from is handed on by a cell of the row or of the column. -/
theorem exists_feeds_of_dot {g : Graph} {leafOnly : Bool} {row column : List CellId} {d : Dot}
    (h : g.dot leafOnly row column = some d) {x : CellId} (hx : x ∈ d.sources) :
    ∃ id, (id ∈ row ∨ id ∈ column) ∧ (g.cell id).Feeds leafOnly x := by
  have hpairs : Dot.ofPairs leafOnly ((row.zip column).map fun p => (g.cell p.1, g.cell p.2)) =
      some d := by
    rw [Dot.ofPairs, List.foldlM_map]
    exact h
  obtain ⟨p, hp, -, hfeeds⟩ := (Dot.mem_sources_ofPairs hpairs).1 hx
  obtain ⟨⟨a, b⟩, hab, rfl⟩ := List.mem_map.1 hp
  rcases hfeeds with hfeeds | hfeeds
  · exact ⟨a, .inl (List.of_mem_zip hab).1, hfeeds⟩
  · exact ⟨b, .inr (List.of_mem_zip hab).2, hfeeds⟩

end Graph

end CellLineage

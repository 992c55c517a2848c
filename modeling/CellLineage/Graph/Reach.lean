import CellLineage.Graph.Basic
import CellLineage.Sorted

/-!
# Reaching cells through lineage

The cells that a cell was derived from, directly or through others, are those that a path of
dependencies leads to; the cell itself is one of them. The search (`gather`) takes each cell out of
the ones not yet met, so it ends on graphs with cycles too, and it finds exactly what a path through
cells of the graph leads to (`mem_gather_iff`).

## Main definitions

* `ReachIn`: what a path leads to.
* `Graph.allDependencies`, `Graph.allDependents`: the two searches, in ascending order of ids.
-/

namespace CellLineage

variable {next : CellId → List CellId} {domain : Std.ExtTreeSet CellId} {seeds : List CellId}

/-- A path of steps of `next` inside `domain` leads from one of `seeds` to the id. -/
inductive ReachIn (next : CellId → List CellId) (domain : Std.ExtTreeSet CellId)
    (seeds : List CellId) : CellId → Prop where
  | seed {a : CellId} : a ∈ seeds → a ∈ domain → ReachIn next domain seeds a
  | step {a b : CellId} : ReachIn next domain seeds a → b ∈ next a → b ∈ domain →
      ReachIn next domain seeds b

/-- All that steps of `next` inside `remaining` lead to from the pending ids. -/
def gather (next : CellId → List CellId) (remaining : Std.ExtTreeSet CellId) :
    List CellId → List CellId
  | [] => []
  | id :: pending =>
    if id ∈ remaining then id :: gather next (remaining.erase id) (next id ++ pending)
    else gather next remaining pending
termination_by pending => (remaining.size, pending.length)
decreasing_by
  · next h =>
    have hs : remaining.size ≠ 0 := fun h₀ => by
      have := Std.ExtTreeSet.eq_empty_iff_size_eq_zero.2 h₀
      simp [this] at h
    have := Std.ExtTreeSet.size_erase (t := remaining) (k := id)
    simp_all [Prod.lex_def]
    omega
  · simp [Prod.lex_def]

theorem ReachIn.mem_domain {a : CellId} (h : ReachIn next domain seeds a) : a ∈ domain := by
  cases h <;> assumption

/-- Seeds outside the domain do not count. -/
theorem ReachIn.mono {others : List CellId} (hs : ∀ a ∈ seeds, a ∈ domain → a ∈ others)
    {a : CellId} (h : ReachIn next domain seeds a) : ReachIn next domain others a := by
  induction h with
  | seed ha hd => exact .seed (hs _ ha hd) hd
  | step _ hn hd ih => exact .step ih hn hd

/-- A path after a first cell was taken out is a path of the whole domain. -/
private theorem ReachIn.of_erase {a b : CellId} (ha : a ∈ seeds) (hd : a ∈ domain)
    (h : ReachIn next (domain.erase a) (next a ++ seeds) b) : ReachIn next domain seeds b := by
  induction h with
  | seed hs hb =>
    have hb := (Std.ExtTreeSet.mem_erase.1 hb).2
    rcases List.mem_append.1 hs with h | h
    · exact .step (.seed ha hd) h hb
    · exact .seed h hb
  | step _ hn hb ih => exact .step ih hn (Std.ExtTreeSet.mem_erase.1 hb).2

/-- A path to another cell than the first one goes on without it. -/
private theorem ReachIn.erase {a b : CellId} (h : ReachIn next domain seeds b) (hne : b ≠ a) :
    ReachIn next (domain.erase a) (next a ++ seeds) b := by
  have mem {c : CellId} (hc : c ∈ domain) (hca : c ≠ a) : c ∈ domain.erase a := by
    simp [Std.ExtTreeSet.mem_erase, hc, Ne.symm hca]
  induction h with
  | seed hs hb => exact .seed (List.mem_append_right _ hs) (mem hb hne)
  | @step c b _ hn hb ih =>
    by_cases hc : c = a
    · subst hc
      exact .seed (List.mem_append_left _ hn) (mem hb hne)
    · exact .step (ih hc) hn (mem hb hne)

/-- **The search is exact.** It finds what a path leads to, and nothing else. -/
theorem mem_gather_iff (next : CellId → List CellId) (domain : Std.ExtTreeSet CellId)
    (seeds : List CellId) (a : CellId) :
    a ∈ gather next domain seeds ↔ ReachIn next domain seeds a := by
  fun_induction gather next domain seeds with
  | case1 domain =>
    refine ⟨fun h => absurd h List.not_mem_nil, fun h => ?_⟩
    induction h with
    | seed h _ => exact absurd h List.not_mem_nil
    | step _ _ _ ih => exact absurd ih List.not_mem_nil
  | case2 domain id pending hid ih =>
    rw [List.mem_cons, ih]
    constructor
    · rintro (rfl | h)
      · exact .seed List.mem_cons_self hid
      · exact .of_erase List.mem_cons_self hid (h.mono fun b hb _ => by grind)
    · intro h
      by_cases ha : a = id
      · exact .inl ha
      · refine .inr ((h.erase ha).mono fun b hb hd => ?_)
        have hb' : b ≠ id := by
          rintro rfl
          simp [Std.ExtTreeSet.mem_erase] at hd
        simp_all
  | case3 domain id pending hid ih =>
    rw [ih]
    refine ⟨.mono fun b hb _ => List.mem_cons_of_mem _ hb, .mono fun b hb hd => ?_⟩
    rcases List.mem_cons.1 hb with rfl | hb
    · exact absurd hd hid
    · exact hb

namespace Graph

/-- The ids of all cells. -/
def allIds (g : Graph) : Std.ExtTreeSet CellId :=
  .ofList g.nodes.keys

@[simp] theorem mem_allIds {g : Graph} {id : CellId} : id ∈ g.allIds ↔ id ∈ g.nodes := by
  simp [allIds, Std.ExtTreeSet.mem_ofList]

/-- The cell and all that it was derived from, directly or through others. -/
def allDependencies (g : Graph) (id : CellId) : List CellId :=
  sortedNames (gather (fun a => (g.cell a).dependencies) g.allIds [id])

/-- The cell and all that was derived from it, directly or through others. -/
def allDependents (g : Graph) (id : CellId) : List CellId :=
  sortedNames (gather (fun a => (g.cell a).dependents) g.allIds [id])

end Graph

end CellLineage

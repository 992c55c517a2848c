import CellLineage.Proofs.Workspace.Painting

/-!
# Random patterns

A matrix is painted at random by drawing one number for a position after another, row by row. A
position for which the number is small enough is painted, and all others are blank. In a symmetric
pattern the positions below the diagonal are passed over; they are painted with the ones across the
diagonal.

So each number decides one position, or two of them. The other way round each position of a matrix
is decided by one number, but for those that are passed over and have none across the diagonal:
these are the positions of a matrix with more rows than columns that lie below its largest square.
No number is drawn for them, and they stay blank however the numbers fall.

## Main definitions

* `Workspace.IsDecidedBy`: the position that a number decides.

## Main results

* `Workspace.existsUnique_isDecidedBy`, `Workspace.not_isDecidedBy`: which positions are decided, by
  one number each.
* `Workspace.IsDecidedBy.lookAt_patterned`: how a position looks by its number.
* `Workspace.randomize_decides`: painting at random.
* `Workspace.randomize_passes_over`: positions that no number decides.
-/

namespace CellLineage.Workspace

variable {w : Workspace} {name : Text} {shape : Nat × Nat} {isSymmetric : Bool} {i j k k' : Nat}

/-! ### The numbers that are drawn -/

theorem nodup_drawnPositions (rows cols : Nat) (isSymmetric : Bool) :
    (drawnPositions rows cols isSymmetric).Nodup := by
  rw [drawnPositions, List.nodup_flatMap]
  refine ⟨fun i _ => ?_, ?_⟩
  · exact (List.nodup_range.filter _).map fun j j' h => congrArg Prod.snd h
  · refine List.nodup_range.imp fun {i i'} hne => ?_
    rw [Function.onFun, List.disjoint_left]
    rintro _ hp hp'
    obtain ⟨j, -, rfl⟩ := List.mem_map.1 hp
    obtain ⟨j', -, he⟩ := List.mem_map.1 hp'
    exact hne (congrArg Prod.fst he).symm

/-- The number drawn in the place `k` decides the position: it is drawn for that one or, in a
symmetric pattern, for the one across the diagonal. -/
def IsDecidedBy (shape : Nat × Nat) (isSymmetric : Bool) (i j k : Nat) : Prop :=
  ∃ p, (drawnPositions shape.1 shape.2 isSymmetric)[k]? = some p ∧
    (p = (i, j) ∨ isSymmetric = true ∧ p = (j, i))

/-- Every number that is drawn decides a position of the matrix. -/
theorem exists_isDecidedBy (hk : k < (drawnPositions shape.1 shape.2 isSymmetric).length) :
    ∃ i j, i < shape.1 ∧ j < shape.2 ∧ IsDecidedBy shape isSymmetric i j k := by
  have hdrawn := List.getElem?_eq_getElem hk
  obtain ⟨hi, hj, -⟩ := mem_drawnPositions.1 (List.mem_of_getElem? hdrawn)
  exact ⟨_, _, hi, hj, _, hdrawn, .inl rfl⟩

namespace IsDecidedBy

theorem lt_length (h : IsDecidedBy shape isSymmetric i j k) :
    k < (drawnPositions shape.1 shape.2 isSymmetric).length :=
  have ⟨_, hdrawn, _⟩ := h
  (List.getElem?_eq_some_iff.1 hdrawn).1

/-- In a symmetric pattern a number decides two positions across the diagonal. -/
theorem swap (h : IsDecidedBy shape true i j k) : IsDecidedBy shape true j i k := by
  obtain ⟨p, hdrawn, hp⟩ := h
  refine ⟨p, hdrawn, ?_⟩
  rcases hp with hp | ⟨-, hp⟩
  · exact .inr ⟨rfl, hp⟩
  · exact .inl hp

/-- No position is decided twice: of two across the diagonal only one is drawn for. -/
theorem eq (h : IsDecidedBy shape isSymmetric i j k) (h' : IsDecidedBy shape isSymmetric i j k') :
    k = k' := by
  have hlt := h.lt_length
  obtain ⟨p, hdrawn, hp⟩ := h
  obtain ⟨p', hdrawn', hp'⟩ := h'
  obtain ⟨-, -, hle⟩ := mem_drawnPositions.1 (List.mem_of_getElem? hdrawn)
  obtain ⟨-, -, hle'⟩ := mem_drawnPositions.1 (List.mem_of_getElem? hdrawn')
  have hsame : p = p' := by
    rcases hp with rfl | ⟨hsymmetric, rfl⟩ <;> rcases hp' with rfl | ⟨hsymmetric', rfl⟩
    · rfl
    · have he : i = j := Nat.le_antisymm (hle hsymmetric') (hle' hsymmetric')
      rw [he]
    · have he : i = j := Nat.le_antisymm (hle' hsymmetric) (hle hsymmetric)
      rw [he]
    · rfl
  refine (List.getElem?_inj hlt (nodup_drawnPositions ..)).1 ?_
  rw [hdrawn, hdrawn', hsame]

end IsDecidedBy

/-- **Each position is decided by one number**, if a symmetric pattern does not pass over it or has
a position across the diagonal. -/
theorem existsUnique_isDecidedBy (hi : i < shape.1) (hj : j < shape.2)
    (hacross : isSymmetric = true → i < shape.2) : ∃! k, IsDecidedBy shape isSymmetric i j k := by
  obtain ⟨p, hmem, hp⟩ : ∃ p ∈ drawnPositions shape.1 shape.2 isSymmetric,
      p = (i, j) ∨ isSymmetric = true ∧ p = (j, i) := by
    by_cases hover : isSymmetric = true ∧ j < i
    · obtain ⟨hsymmetric, hlt⟩ := hover
      exact ⟨(j, i), mem_drawnPositions.2 ⟨hlt.trans hi, hacross hsymmetric, fun _ => hlt.le⟩,
        .inr ⟨hsymmetric, rfl⟩⟩
    · exact ⟨(i, j), mem_drawnPositions.2 ⟨hi, hj, fun hsymmetric =>
        Nat.le_of_not_lt fun hlt => hover ⟨hsymmetric, hlt⟩⟩, .inl rfl⟩
  obtain ⟨k, hdrawn⟩ := List.mem_iff_getElem?.1 hmem
  have hk : IsDecidedBy shape isSymmetric i j k := ⟨p, hdrawn, hp⟩
  exact ⟨k, hk, fun k' hk' => hk'.eq hk⟩

/-- **A position below the largest square** of the matrix is decided by no number of a symmetric
pattern. -/
theorem not_isDecidedBy (hj : j < shape.2) (hbelow : shape.2 ≤ i) (k : Nat) :
    ¬IsDecidedBy shape true i j k := by
  rintro ⟨p, hdrawn, hp⟩
  have hmem := List.mem_of_getElem? hdrawn
  rcases hp with rfl | ⟨-, rfl⟩
  · obtain ⟨-, -, hle⟩ := mem_drawnPositions.1 hmem
    have := hle rfl
    omega
  · obtain ⟨-, hlt, -⟩ := mem_drawnPositions.1 hmem
    omega

/-! ### The positions that are painted -/

theorem mem_patternPositions {rows cols a b : Nat} :
    (i, j) ∈ patternPositions rows cols isSymmetric a b ↔
      (a, b) = (i, j) ∨ isSymmetric = true ∧ i < rows ∧ j < cols ∧ (a, b) = (j, i) := by
  unfold patternPositions
  split
  · next hacross =>
    simp only [Bool.and_eq_true, decide_eq_true_eq] at hacross
    simp only [List.mem_cons, List.not_mem_nil, or_false, Prod.mk.injEq]
    grind
  · next hacross =>
    simp only [Bool.and_eq_true, bne_iff_ne, decide_eq_true_eq] at hacross
    simp only [List.mem_singleton, Prod.mk.injEq]
    grind

/-- A position is painted if the number that decides it is small enough. -/
theorem mem_chosen {density : Number} {draw : Nat → Number} :
    (i, j) ∈ chosen shape density isSymmetric draw ↔ i < shape.1 ∧ j < shape.2 ∧
      ∃ k, IsDecidedBy shape isSymmetric i j k ∧ (draw k).lt density = true := by
  simp only [chosen, List.mem_flatMap, List.mem_filter, Prod.exists, List.mem_zipIdx_iff_getElem?,
    mem_patternPositions]
  constructor
  · rintro ⟨a, b, k, ⟨hdrawn, hlt⟩, hp⟩
    obtain ⟨ha, hb, -⟩ := mem_drawnPositions.1 (List.mem_of_getElem? hdrawn)
    rcases hp with he | ⟨hsymmetric, hi, hj, he⟩
    · cases he
      exact ⟨ha, hb, k, ⟨_, hdrawn, .inl rfl⟩, hlt⟩
    · exact ⟨hi, hj, k, ⟨_, hdrawn, .inr ⟨hsymmetric, he⟩⟩, hlt⟩
  · rintro ⟨hi, hj, k, ⟨⟨a, b⟩, hdrawn, hp⟩, hlt⟩
    exact ⟨a, b, k, ⟨hdrawn, hlt⟩, hp.imp id fun ⟨hsymmetric, he⟩ => ⟨hsymmetric, hi, hj, he⟩⟩

/-- Numbers beyond those that are drawn make no difference. -/
theorem chosen_congr {density : Number} {draw draw' : Nat → Number}
    (h : ∀ k < (drawnPositions shape.1 shape.2 isSymmetric).length, draw' k = draw k) :
    chosen shape density isSymmetric draw' = chosen shape density isSymmetric draw := by
  rw [chosen, chosen]
  refine congrArg (List.flatMap _) (List.filter_congr fun p hp => ?_)
  rw [h p.2 (List.snd_lt_of_mem_zipIdx hp)]

theorem lookAt_patterned (hg : w.graph.IsWellFormed) (hshape : w.graph.shape? name = some shape)
    (density : Number) (color : Option Text) (isSymmetric : Bool) (draw : Nat → Number) (i j : Nat)
    (hi : i < shape.1) (hj : j < shape.2) :
    (w.patterned name shape density color isSymmetric draw).graph.lookAt name i j =
      if (i, j) ∈ chosen shape density isSymmetric draw then ⟨.int 1, color, false⟩
      else .blank := by
  have hpaints := paints_cleared w name
  have hcell : (w.cleared name).graph.HasCell name i j :=
    (hasCell_of_paints hpaints name i j).2 ((Graph.hasCell_iff_of_shape? hshape).2 ⟨hi, hj⟩)
  have hreaches : (w.cleared name).Reaches name name := .inl rfl
  have hmem : ((i : Int), (j : Int)) ∈ (chosen shape density isSymmetric draw).map
      (fun p : Nat × Nat => ((p.1 : Int), (p.2 : Int))) ↔
        (i, j) ∈ chosen shape density isSymmetric draw := by
    simp
  have hblank : (w.cleared name).graph.lookAt name i j = .blank := by
    rw [lookAt_cleared hg]
    exact if_pos (.inl rfl)
  rw [patterned, lookAt_mark (hpaints.edits.isWellFormed hg)]
  simp only [hreaches, hmem, hcell, hblank, true_and, and_true]
  rfl

/-- **A position looks as its number says.** -/
theorem IsDecidedBy.lookAt_patterned (h : IsDecidedBy shape isSymmetric i j k)
    (hg : w.graph.IsWellFormed) (hshape : w.graph.shape? name = some shape) (density : Number)
    (color : Option Text) (draw : Nat → Number) (hi : i < shape.1) (hj : j < shape.2) :
    (w.patterned name shape density color isSymmetric draw).graph.lookAt name i j =
      if (draw k).lt density then ⟨.int 1, color, false⟩ else .blank := by
  rw [Workspace.lookAt_patterned hg hshape density color isSymmetric draw i j hi hj]
  refine if_congr (mem_chosen.trans ⟨?_, fun hlt => ⟨hi, hj, k, h, hlt⟩⟩) rfl rfl
  rintro ⟨-, -, k', h', hlt⟩
  rwa [h.eq h']

/-! ### Painting at random -/

/-- **Painting at random decides every cell by one number.** Let a matrix of any shape in a reachable
workspace be painted at random. Each number that is drawn decides a position of the matrix, and
numbers beyond those make no difference. Each position, but for those below the largest square in a
symmetric pattern, is decided by exactly one number: afterwards its cell is one in the given colour
if that is less than the density, and blank otherwise. So if all are less, all these cells are
painted. The excepted positions are decided by no number and blank. -/
theorem randomize_decides (hw : w.IsReachable) (hshape : w.graph.shape? name = some shape)
    (hlocked : w.isLocked name = false) (density : Number) (color : Option Text)
    (isSymmetric : Bool) (draw : Nat → Number) :
    ∃ n w', randomize name density color isSymmetric draw w = .ok n w' ∧
      w'.graph.shape? name = some shape ∧
      (∀ k, k < n ↔ ∃ i j, i < shape.1 ∧ j < shape.2 ∧ IsDecidedBy shape isSymmetric i j k) ∧
      (∀ draw' : Nat → Number, (∀ k < n, draw' k = draw k) →
        randomize name density color isSymmetric draw' w = .ok n w') ∧
      (∀ i j, i < shape.1 → j < shape.2 → (isSymmetric = true → i < shape.2) →
        (∃! k, IsDecidedBy shape isSymmetric i j k) ∧
        (∀ k, IsDecidedBy shape isSymmetric i j k → w'.graph.lookAt name i j =
          if (draw k).lt density then ⟨.int 1, color, false⟩ else .blank) ∧
        ((∀ k < n, (draw k).lt density = true) →
          w'.graph.lookAt name i j = ⟨.int 1, color, false⟩)) ∧
      ∀ i j, i < shape.1 → j < shape.2 → isSymmetric = true → shape.2 ≤ i →
        (∀ k, ¬IsDecidedBy shape isSymmetric i j k) ∧ w'.graph.lookAt name i j = .blank := by
  have hg := hw.isWellFormed
  have hrun (draw : Nat → Number) : randomize name density color isSymmetric draw w =
      .ok (drawnPositions shape.1 shape.2 isSymmetric).length
        (w.patterned name shape density color isSymmetric draw) := by
    rw [randomize_eq, hshape]
    exact if_neg (Bool.eq_false_iff.1 hlocked)
  have hlook {i j k : Nat} (h : IsDecidedBy shape isSymmetric i j k) :=
    h.lookAt_patterned hg hshape density color draw
  refine ⟨_, _, hrun draw, ?_, fun k => ⟨exists_isDecidedBy, ?_⟩, fun draw' h => ?_,
    fun i j hi hj hacross => ⟨?_, fun k h => hlook h hi hj, fun hall => ?_⟩,
    fun i j hi hj hsymmetric hbelow => ?_⟩
  · exact ((paints_mark ..).shape?_eq name).trans (((paints_cleared w name).shape?_eq name).trans
      hshape)
  · rintro ⟨_, _, -, -, h⟩
    exact h.lt_length
  · rw [hrun draw', patterned, patterned, chosen_congr h]
  · exact existsUnique_isDecidedBy hi hj hacross
  · obtain ⟨k, h, -⟩ := existsUnique_isDecidedBy hi hj hacross
    rw [hlook h hi hj, if_pos (hall k h.lt_length)]
  · subst hsymmetric
    have hnone : ∀ k, ¬IsDecidedBy shape true i j k := not_isDecidedBy hj hbelow
    refine ⟨hnone, ?_⟩
    rw [lookAt_patterned hg hshape density color true draw i j hi hj]
    refine if_neg fun hmem => ?_
    obtain ⟨-, -, k, h, -⟩ := mem_chosen.1 hmem
    exact hnone k h

/-- A workspace with one matrix, which has more rows than columns. -/
def tallSettings : Settings where
  formula := .text "A"
  rows := .int 2
  cols := .int 1

theorem make_tallSettings :
    make tallSettings = .ok (left (setFormula tallSettings.formula) (blank tallSettings)) :=
  make_of_isSome (by decide +kernel)

/-- In the sample the matrix has three rows and two columns. The second number decides two cells
across the diagonal, the third one a cell on it, and the last row is passed over. -/
theorem randomize_decides_sample : ∃ new, make tallSettings = .ok new ∧
    let w := runAll new [.resize "A" (.int 3) (.int 2)]
    let draw : Nat → Number := fun k => if k = 1 then .float 0.25 else .float 0.75
    ∃ w', randomize "A" (.float 0.5) (some "#ff0000") true draw w = .ok 3 w' ∧
      w'.graph.lookAt "A" 0 1 = ⟨.int 1, some "#ff0000", false⟩ ∧
      w'.graph.lookAt "A" 1 0 = ⟨.int 1, some "#ff0000", false⟩ ∧
      w'.graph.lookAt "A" 1 1 = .blank ∧ w'.graph.lookAt "A" 2 0 = .blank := by
  let new := left (setFormula tallSettings.formula) (blank tallSettings)
  let w := runAll new [.resize "A" (.int 3) (.int 2)]
  let draw : Nat → Number := fun k => if k = 1 then .float 0.25 else .float 0.75
  have hreachable : w.IsReachable := ⟨_, new, _, make_tallSettings, rfl⟩
  have hshape : w.graph.shape? "A" = some (3, 2) := by decide +kernel
  have hlocked : w.isLocked "A" = false := by decide +kernel
  obtain ⟨n, w', hrun, -, -, -, hlook, hblank⟩ :=
    randomize_decides hreachable hshape hlocked (.float 0.5) (some "#ff0000") true draw
  obtain rfl : n = 3 := by
    have hdrawn := hrun
    rw [randomize_eq, hshape] at hdrawn
    dsimp only at hdrawn
    rw [if_neg (Bool.eq_false_iff.1 hlocked)] at hdrawn
    cases hdrawn
    rfl
  refine ⟨new, make_tallSettings, w', hrun, ?_, ?_, ?_, ?_⟩
  · rw [(hlook 0 1 (by decide) (by decide) (by decide)).2.1 1 ⟨(0, 1), rfl, .inl rfl⟩]
    exact if_pos (by decide +kernel)
  · rw [(hlook 1 0 (by decide) (by decide) (by decide)).2.1 1 ⟨(0, 1), rfl, .inr ⟨rfl, rfl⟩⟩]
    exact if_pos (by decide +kernel)
  · rw [(hlook 1 1 (by decide) (by decide) (by decide)).2.1 2 ⟨(1, 1), rfl, .inl rfl⟩]
    exact if_neg (by decide +kernel)
  · exact (hblank 2 0 (by decide) (by decide) rfl (by decide)).2

/-- **A symmetric pattern passes over cells that nothing paints.** In a matrix of two rows and one
column one number is drawn. The lower cell stays blank although each number would be small enough. -/
theorem randomize_passes_over : ∃ new, make tallSettings = .ok new ∧
    let draw : Nat → Number := fun _ => .float 0
    let w := left (randomize "A" (.float 1) none true draw) new
    EStateM.run' (randomize "A" (.float 1) none true draw) new = some 1 ∧
      (draw 0).lt (.float 1) = true ∧ w.graph.HasCell "A" 1 0 ∧
      (w.graph.lookAt "A" 0 0).value.toInt = 1 ∧ (w.graph.lookAt "A" 1 0).value.toInt = 0 :=
  ⟨_, make_tallSettings, by decide +kernel⟩

end CellLineage.Workspace
